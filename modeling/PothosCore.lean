import PothosCore.Lib.Transition
import PothosCore.Lib.Residue
import PothosCore.Fault
import PothosCore.Util.OrderedQueue
import PothosCore.Framework.ManagedBuffer
import PothosCore.Framework.BufferChunk
import PothosCore.Framework.SubBuffer
import PothosCore.Framework.BufferConvert
import PothosCore.Framework.BufferManager
import PothosCore.Framework.Builtin.CircularBufferManager
import PothosCore.Framework.Builtin.CircularSession
import PothosCore.Framework.Builtin.SlabQueue
import PothosCore.Framework.Builtin.GenericBufferManager
import PothosCore.Framework.Builtin.GenericSession
import PothosCore.Framework.BufferAccumulator
import PothosCore.Framework.AccumulatorRefs
import PothosCore.Framework.AccumulatorContent
import PothosCore.Framework.AccumulatorCover
import PothosCore.Framework.AccumulatorFifo
import PothosCore.Framework.AccumulatorLedger
import PothosCore.Framework.AccumulatorKeeping
import PothosCore.Framework.AccumulatorOwed
import PothosCore.Framework.Builtin.CircularStream
import PothosCore.Framework.TopologyCommit
import PothosCore.Framework.TopologyManagers
import PothosCore.Framework.TopologySubscriptions
import PothosCore.Archive.Numbers
import PothosCore.Archive.IntegerRoundTrip
import PothosCore.Archive.LoadTermination
import PothosCore.Framework.ActorContext
import PothosCore.Framework.TopologyDomainFlows
import PothosCore.Framework.TopologyNetworkFlows
import PothosCore.Lib.Paths
import PothosCore.Framework.TopologyInsertedBlocks
import PothosCore.Framework.TopologyDomainManagers
import PothosCore.Framework.TopologyConnect
import PothosCore.Framework.TopologyHierarchy
import PothosCore.Framework.TopologyAutomaticPorts
import PothosCore.Framework.ThreadEnvironment
import PothosCore.Framework.ThreadOwnership
import PothosCore.Framework.ThreadStaffing
import PothosCore.Framework.ThreadRuns
import PothosCore.Framework.CountedManager
import PothosCore.Framework.Builtin.GenericReferences
import PothosCore.Framework.Builtin.CircularReferences
import PothosCore.Framework.OutputPort
import PothosCore.Framework.OutputPortLock
import PothosCore.Framework.OutputPortReferences
import PothosCore.Framework.OutputPortRuns
import PothosCore.Framework.OutputPortReentry
import PothosCore.Framework.ReferenceCustody
import PothosCore.Framework.ReferencePrograms
import PothosCore.Lib.PathTree
import PothosCore.Plugin.Path
import PothosCore.Plugin.Registry
import PothosCore.Plugin.RegistryMap
import PothosCore.Plugin.RegistryShared
import PothosCore.Plugin.EventSystem
import PothosCore.Plugin.EventDelivery
import PothosCore.Util.RingDeque
import PothosCore.Framework.AccumulatorRing
import PothosCore.Framework.AccumulatorSettled
import PothosCore.Framework.AccumulatorTally
import PothosCore.Framework.InputPortConsume
import PothosCore.Object.Convert
import PothosCore.Object.ConvertHistory
import PothosCore.Lib.BlendedOrder
import PothosCore.Object.Compare
import PothosCore.Remote.RemoteProxy
import PothosCore.Remote.RemoteSteps
import PothosCore.Remote.RemoteReplies
import PothosCore.Remote.RemoteTransactions
import PothosCore.Util.ExprSplit
import PothosCore.Util.EvalEnvironment
import PothosCore.Util.EvalComposition
import PothosCore.Lib.Reader
import PothosCore.Archive.Containers
import PothosCore.Archive.ContainerRoundTrip
import PothosCore.Util.OrderedQueueRuns
import PothosCore.Lib.RingLayout
import PothosCore.Util.RingDequeMemory
import PothosCore.Util.RingDequeRuns
import PothosCore.Util.ExprScan
import PothosCore.Util.ExprGrammar
import PothosCore.Util.ExprExact
import PothosCore.Framework.InputPortLabels
import PothosCore.Framework.PortAllocation
import PothosCore.Framework.PortTables
import PothosCore.Framework.ManagerRotation
import PothosCore.Framework.Builtin.GenericRotation
import PothosCore.Framework.Builtin.CircularRotation
import PothosCore.Framework.PoolMemory
import PothosCore.Framework.OutputPortUse
import PothosCore.Framework.OutputPortOffer
import PothosCore.Framework.OutputPortProduce
import PothosCore.Framework.OutputPortGetBuffer
import PothosCore.Remote.Datagram
import PothosCore.Remote.DatagramFraming
import PothosCore.Plugin.PathText
import PothosCore.Callable.OpaqueCall
import PothosCore.Callable.Binding
import PothosCore.Lib.RoundToEven
import PothosCore.Object.NumberConvert
import PothosCore.Util.CommentBlocks
import PothosCore.Util.CommentSource
import PothosCore.Util.CommentExtraction
import PothosCore.Lib.Trim
import PothosCore.Framework.ElementTypes
import PothosCore.Framework.DTypeMarkup
import PothosCore.Framework.TopologySquashFlows
import PothosCore.Framework.TopologyFlattening
import PothosCore.Framework.TopologyPassThroughs
import PothosCore.Framework.TopologyDumpJSON
import PothosCore.Framework.TopologyFlatDump
import PothosCore.Framework.TopologyCommits
import PothosCore.Lib.SharedSections
import PothosCore.Util.SpinLockRW
import PothosCore.Managed.ClassRegistry
import PothosCore.Framework.MessageQueues
import PothosCore.Framework.MessageTokens
import PothosCore.Framework.MessageDelivery
import PothosCore.Framework.MessageBackPressure
import PothosCore.Lib.Custody
import PothosCore.Remote.ServerHandler
import PothosCore.Remote.RemoteHandles
import PothosCore.Remote.HandleSteps
import PothosCore.Remote.HandlePointers
import PothosCore.Remote.HandleCustody
import PothosCore.Remote.HandleInvariant
import PothosCore.Remote.HandleSafety
import PothosCore.Remote.LocalProxies
import PothosCore.Remote.HandleMeaning
import PothosCore.Remote.HandleTransparency
import PothosCore.Remote.ForeignCalls

import Mathlib.Data.List.Dedup
import Mathlib.Logic.Function.Basic
import PothosCore.Fault

/-!
# PothosCore.Framework.TopologyCommit

How a commit connects the flat flows of a topology and chooses a buffer manager
for each source: `isDomainCrossingAcceptable`, which the flows have passed when
they get here, `installBufferManagers`, and `topologySubCommit`.

Ports and flows are as their `operator==` sees them: the object reference of a port is
ignored, its uid and its name are compared.

What the blocks of the process answer is given by `Blocks`. A buffer manager is
known by the port and the domain it was asked for; the workers cache managers
under that key, and `getBufferMode` caches its answers.
-/

namespace PothosCore.Framework

/-- `Port`: the uid of the object and the name of the port. -/
structure Port where
  uid : String
  name : String
  deriving Repr, DecidableEq

/-- `Flow`: the two ends of a connection. -/
@[ext] structure Flow where
  src : Port
  dst : Port
  deriving Repr, DecidableEq

/-- What `getInputBufferManager` or `getOutputBufferManager` of a block returns. -/
inductive Overload
  | manager
  | null
  /-- It throws `PortDomainError`. -/
  | domainError
  deriving Repr, DecidableEq

/-- The buffer modes. -/
inductive BufferMode
  | abdicate
  | custom
  | error
  deriving Repr, DecidableEq

/-- The blocks of a process. -/
structure Blocks where
  /-- `getName()` of the block with a uid. -/
  name : String → String
  /-- The names of its output ports. -/
  outputs : String → List String
  /-- `domain()` of an input or output port. -/
  domain : Port → Bool → String
  isSlot : Port → Bool
  isSignal : Port → Bool
  /-- `getInputBufferManager` or `getOutputBufferManager`, for a port and the
  domain on the other side. -/
  overload : Bool → Port → String → Overload

/-- A buffer manager: a block's own, for a port and a domain, or a generic one. -/
inductive Manager
  | ofBlock (isInput : Bool) (port : Port) (domain : String)
  | generic
  deriving Repr, DecidableEq

namespace Blocks

variable (b : Blocks)

/-- `Port::toString()`. -/
def portName (port : Port) : String := b.name port.uid ++ "[" ++ port.name ++ "]"

/-- `WorkerActor::getBufferMode`. -/
def getBufferMode (port : Port) (domain : String) (isInput : Bool) : BufferMode :=
  -- signals and slots always abdicate, they don't care about buffers
  if isInput && b.isSlot port then .abdicate
  else if !isInput && b.isSignal port then .abdicate
  else
    match b.overload isInput port domain with
    | .manager => .custom
    | .null => .abdicate
    | .domainError => .error

/-- `WorkerActor::getBufferManager`. -/
def getBufferManager (port : Port) (domain : String) (isInput : Bool) : Except Fault Manager :=
  match b.overload isInput port domain with
  | .manager => .ok (.ofBlock isInput port domain)
  | .null => .ok .generic
  | .domainError => .error (.thrown "PortDomainError" "" domain)

/-! ### Domain crossing -/

/-- `isDomainCrossingAcceptable(mainPort, subPorts, isInput)`. -/
def isDomainCrossingAcceptable (mainPort : Port) (subPorts : List Port) (isInput : Bool) : Bool :=
  let mainDomain := b.domain mainPort isInput
  let subDomains := (subPorts.map fun subPort => b.domain subPort (!isInput)).dedup
  let allOthersAbdicate := subPorts.all fun subPort =>
    b.getBufferMode subPort mainDomain (!isInput) == .abdicate
  match subDomains with
  | [subDomain] =>
      match b.getBufferMode mainPort subDomain isInput with
      -- error always means we make a copy block
      | .error => false
      -- always good when we abdicate
      | .abdicate => true
      | .custom =>
          -- can't handle custom with multiple upstream
          if isInput && 1 < subPorts.length then false
          -- if custom, the sub ports must abdicate
          else allOthersAbdicate
  -- can't handle multiple domains
  | _ => false

/-- The map of a source to all its destinations: the flows are gone through once
for each of them. -/
def dstsOf (flows : List Flow) (src : Port) : List Port :=
  flows.flatMap fun flow =>
    if flow.src = src then (flows.filter (·.src = src)).map (·.dst) else []

/-- The map of a destination to all its sources. -/
def srcsOf (flows : List Flow) (dst : Port) : List Port :=
  flows.flatMap fun flow =>
    if flow.dst = dst then (flows.filter (·.dst = dst)).map (·.src) else []

/-- `rectifyDomainFlows` puts no copier into these flows. -/
def Accepted (flows : List Flow) : Prop :=
  ∀ flow ∈ flows, b.isDomainCrossingAcceptable flow.src (dstsOf flows flow.src) false = true ∧
    b.isDomainCrossingAcceptable flow.dst (srcsOf flows flow.dst) true = true

instance (flows : List Flow) : Decidable (b.Accepted flows) := by
  unfold Accepted; infer_instance

/-! ### Choosing managers -/

/-- The destinations that keep `installBufferManagers` from using `dst`'s manager. -/
def conflicts (src dst : Port) (dsts : List Port) : List Port :=
  dsts.filter fun otherDst => otherDst ≠ dst ∧
    b.getBufferMode otherDst (b.domain src false) true ≠ .abdicate ∧ b.domain otherDst true ≠ ""

/-- The body of the loop of `installBufferManagers`: the manager for one source. -/
def chooseManager (src : Port) (dsts : List Port) : Except Fault Manager :=
  match dsts with
  | [] => .error (.undefined "dsts.at(0)")
  | dst :: _ =>
      let srcDomain := b.domain src false
      let dstDomain := b.domain dst true
      let srcMode := b.getBufferMode src dstDomain false
      let dstMode := b.getBufferMode dst srcDomain true
      -- check if the source provides a manager and install it to the source
      if srcMode = .custom then b.getBufferManager src dstDomain false
      -- check if the destination provides a manager and install it to the source
      else if dstMode = .custom then
        match b.conflicts src dst dsts with
        | otherDst :: _ =>
            .error (.thrown "Exception" "Pothos::Topology::installBufferManagers"
              (b.portName src ++ "->" ++ b.portName otherDst ++ "\nrectifyDomainFlows() logic " ++
                "does not /yet/ handle multiple destinations w/ custom buffer managers"))
        | [] => b.getBufferManager dst srcDomain true
      -- otherwise create a generic manager and install it to the source
      else if srcMode ≠ .abdicate then .error (.assertion "srcMode == \"ABDICATE\"")
      else if dstMode ≠ .abdicate then .error (.assertion "dstMode == \"ABDICATE\"")
      else b.getBufferManager src dstDomain false

/-- One source of `installBufferManagers`. -/
def installBufferManager (flows : List Flow) (managers : Port → Option Manager) (src : Port) :
    Except Fault (Port → Option Manager) := do
  let manager ← b.chooseManager src (dstsOf flows src)
  .ok (Function.update managers src (some manager))

/-- `installBufferManagers(flatFlows)`. -/
def installBufferManagers (flows : List Flow) (managers : Port → Option Manager) :
    Except Fault (Port → Option Manager) :=
  (flows.map (·.src)).dedup.foldlM (b.installBufferManager flows) managers

end Blocks

/-! ### The commit of a process -/

/-- What a commit works on: the active flows, the subscribers of the ports, the
buffer managers of the output ports, and which blocks are active. -/
structure Topology where
  activeFlatFlows : List Flow
  /-- The input ports that an output port feeds. -/
  outputs : Port → List Port
  /-- The output ports that feed an input port. -/
  inputs : Port → List Port
  bufferManager : Port → Option Manager
  activeState : String → Bool

/-- The actions of `subscribeInput` and `subscribeOutput`. -/
inductive SubscribeAction
  | add
  | remove
  deriving Repr, DecidableEq

/-- The two calls of `subscribePort(src, dst, action)`: the worker of the source
subscribes the input port, that of the destination the output port. -/
inductive SubscribeCall
  | input (flow : Flow)
  | output (flow : Flow)
  deriving Repr, DecidableEq

/-- Change a list of subscribers. `their` and `my` say which kinds of ports these
are, for the messages. -/
def SubscribeAction.apply (action : SubscribeAction) (their my : String) (port : Port)
    (myPortName : String) (subscribers : List Port) : Except Fault (List Port) :=
  match action with
  | .add =>
      if port ∈ subscribers then
        .error (.thrown "PortAccessError" "Pothos::WorkerActor::subscribePort()"
          (their ++ " " ++ port.name ++ " subscription exists in " ++ my ++ " port " ++ myPortName))
      else .ok (subscribers ++ [port])
  | .remove =>
      if port ∈ subscribers then .ok (subscribers.erase port)
      else
        .error (.thrown "PortAccessError" "Pothos::WorkerActor::unsubscribePort()"
          (their ++ " " ++ port.name ++ " subscription missing from " ++ my ++ " port " ++
            myPortName))

namespace Topology

variable (b : Blocks)

/-- No flow is active, and no port was set up. -/
def start : Topology := ⟨[], fun _ => [], fun _ => [], fun _ => none, fun _ => false⟩

/-- `ensureOutputBufferManagerNoLock(name)`. -/
def ensureOutputBufferManager (t : Topology) (port : Port) : Except Fault Topology :=
  let missing := Fault.thrown "RuntimeException" "Pothos::WorkerActor::ensureBufferManager()"
    (b.name port.uid ++ "[" ++ port.name ++ "] has no buffer manager set")
  -- signal ports ignored, they don't need managers
  if b.isSignal port then .ok t
  -- without subscribers, provide the manager from a local source
  else if t.outputs port = [] then
    match b.getBufferManager port "" false with
    | .ok manager =>
        .ok { t with bufferManager := Function.update t.bufferManager port (some manager) }
    | .error _ => .error missing
  else if t.bufferManager port = none then .error missing
  else .ok t

/-- `subscribeInput(action, myPortName, inputPort)` of the source's worker. -/
def subscribeInput (action : SubscribeAction) (t : Topology) (flow : Flow) :
    Except Fault Topology := do
  let subscribers ← action.apply "input" "output" flow.dst flow.src.name (t.outputs flow.src)
  let t := { t with outputs := Function.update t.outputs flow.src subscribers }
  -- when unsubscripted, ensure that we have a local buffer manager
  if subscribers = [] then ensureOutputBufferManager b t flow.src else .ok t

/-- `subscribeOutput(action, myPortName, outputPort)` of the destination's worker. -/
def subscribeOutput (action : SubscribeAction) (t : Topology) (flow : Flow) :
    Except Fault Topology := do
  let subscribers ← action.apply "output" "input" flow.src flow.dst.name (t.inputs flow.dst)
  .ok { t with inputs := Function.update t.inputs flow.dst subscribers }

/-- One of the calls of `subscribePort`. -/
def subscribePort (action : SubscribeAction) (t : Topology) : SubscribeCall → Except Fault Topology
  | .input flow => subscribeInput b action t flow
  | .output flow => subscribeOutput action t flow

/-- The calls of `updateFlows(flows, action)`. -/
def subscribeCalls (flows : List Flow) : List SubscribeCall :=
  flows.flatMap fun flow => [.input flow, .output flow]

/-- `getObjSetFromFlowList(flows, excludes)`. -/
def objSetFromFlowList (flows excludes : List Flow) : List String :=
  (flows.flatMap fun flow => [flow.src.uid, flow.dst.uid]).dedup.filter fun uid =>
    excludes.all fun flow => flow.src.uid ≠ uid ∧ flow.dst.uid ≠ uid

/-- `setActiveState(block, state)`: `setActiveStateOn()` gives every output port a
buffer manager, because the connection logic skips unused ports. -/
def setActiveState (t : Topology) (call : String × Bool) : Except Fault Topology := do
  if call.2 then
    let t ← (b.outputs call.1).foldlM (fun t name => ensureOutputBufferManager b t ⟨call.1, name⟩) t
    .ok { t with activeState := Function.update t.activeState call.1 true }
  -- not activated? just return
  else if t.activeState call.1 = false then .ok t
  else .ok { t with activeState := Function.update t.activeState call.1 false }

/-- The flows of a commit that are not active yet. -/
def newFlows (t : Topology) (flatFlows : List Flow) : List Flow :=
  flatFlows.filter (· ∉ t.activeFlatFlows)

/-- The active flows that a commit gives up. -/
def oldFlows (t : Topology) (flatFlows : List Flow) : List Flow :=
  t.activeFlatFlows.filter (· ∉ flatFlows)

/-- The calls that activate the new blocks and deactivate the old ones. -/
def activeCalls (t : Topology) (flatFlows : List Flow) : List (String × Bool) :=
  (objSetFromFlowList (t.newFlows flatFlows) t.activeFlatFlows).map (·, true) ++
    (objSetFromFlowList (t.oldFlows flatFlows) flatFlows).map (·, false)

/-- A commit of flat flows. The calls of one kind are made at the same time by
threads of their own: `adds`, `removes` and `actives` are the order they happen in. -/
structure Commit where
  flatFlows : List Flow
  adds : List SubscribeCall
  removes : List SubscribeCall
  actives : List (String × Bool)
  deriving Repr

/-- A commit whose calls happen in some order. `connect` refuses a flow that is in
the topology already. -/
structure Admits (t : Topology) (c : Commit) : Prop where
  nodup : c.flatFlows.Nodup
  adds : c.adds.Perm (subscribeCalls (t.newFlows c.flatFlows))
  removes : c.removes.Perm (subscribeCalls (t.oldFlows c.flatFlows))
  actives : c.actives.Perm (t.activeCalls c.flatFlows)

instance (t : Topology) (c : Commit) : Decidable (t.Admits c) :=
  decidable_of_iff (c.flatFlows.Nodup ∧ c.adds.Perm (subscribeCalls (t.newFlows c.flatFlows)) ∧
      c.removes.Perm (subscribeCalls (t.oldFlows c.flatFlows)) ∧
      c.actives.Perm (t.activeCalls c.flatFlows))
    ⟨fun h => ⟨h.1, h.2.1, h.2.2.1, h.2.2.2⟩, fun h => ⟨h.1, h.2, h.3, h.4⟩⟩

/-- The calls in the order the source makes them. -/
def inOrder (t : Topology) (flatFlows : List Flow) : Commit :=
  ⟨flatFlows, subscribeCalls (t.newFlows flatFlows), subscribeCalls (t.oldFlows flatFlows),
    t.activeCalls flatFlows⟩

/-- `topologySubCommit(topology)`. -/
def topologySubCommit (t : Topology) (c : Commit) : Except Fault Topology := do
  -- add new data acceptors
  let t₁ ← c.adds.foldlM (subscribePort b .add) t
  -- remove old data acceptors
  let t₂ ← c.removes.foldlM (subscribePort b .remove) t₁
  -- install buffer managers on sources for all new flows
  let managers ← b.installBufferManagers (t.newFlows c.flatFlows) t₂.bufferManager
  -- activate all new blocks, update current flows, deactivate all old blocks
  let t₃ ← c.actives.foldlM (setActiveState b) { t₂ with bufferManager := managers }
  .ok { t₃ with activeFlatFlows := c.flatFlows }

/-- A commit that returns. -/
def step (t : Topology) (c : Commit) : Option Topology :=
  if t.Admits c then (topologySubCommit b t c).toOption else none

/-- A commit in the order of the source. -/
def commitInOrder (t : Topology) (flatFlows : List Flow) : Option Topology :=
  step b t (t.inOrder flatFlows)

end Topology

end PothosCore.Framework

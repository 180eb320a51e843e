import Mathlib.Logic.Function.Basic
import PothosCore.Framework.BufferChunk
import PothosCore.Framework.TopologyCommit

/-!
# PothosCore.Framework.TopologyConnect

`connect`, `disconnect` and `disconnectAll` of a topology, and the ports that they
allocate and delete on blocks.

A call that throws may have changed the topology before, so a call gives both how it
ends and the state it leaves. An object is known by its uid; the topology itself is the
one with the uid `self`, and a port of it is one whose `obj` is null. The `_actor` of a
block has its ports, a topology has none.
-/

namespace PothosCore.Framework

/-- `PortInfo`: name, alias, whether it is a signal or slot, and element type. -/
structure PortInfo where
  name : String
  portAlias : String
  isSigSlot : Bool
  dtype : DType
  deriving Repr, DecidableEq

/-- `PortInfo()`. -/
def PortInfo.empty : PortInfo := ⟨"", "", false, DType.unspecified⟩

/-! ### The ports of a block -/

/-- A port of a block. -/
structure BlockPort where
  name : String
  /-- `index()`, or `none` for -1. -/
  index : Option Nat
  isSigSlot : Bool
  dtype : DType
  domain : String
  /-- It is in `automaticPorts`. -/
  automatic : Bool
  deriving Repr, DecidableEq

/-- The input or the output ports of a block, in the order of their allocation. -/
structure BlockPorts where
  ports : List BlockPort
  /-- The name of the port at an index. Past the end is null. -/
  indexedPorts : Nat → Option String

/-- `portNameToIndex(name)`. `std::stoi` throws for the empty name, and for what is no
int. -/
def portNameToIndex (name : String) : Except Fault (Option Nat) :=
  -- check if all characters are digits or return -1
  if name.toList.all Char.isDigit then
    if name = "" then .error (.thrown "std::invalid_argument" "stoi" "")
    else
      let index := name.toList.foldl (fun n ch => 10 * n + (ch.toNat - '0'.toNat)) 0
      if 2 ^ 31 ≤ index then .error (.thrown "std::out_of_range" "stoi" "") else .ok (some index)
  else .ok none

namespace BlockPorts

/-- `ports.find(name)`. -/
def find? (p : BlockPorts) (name : String) : Option BlockPort := p.ports.find? (·.name = name)

/-- `portNames`. -/
def portNames (p : BlockPorts) : List String := p.ports.map (·.name)

/-- `allocatePort(…, name, dtype, domain, true)`. -/
def allocatePort (p : BlockPorts) (name : String) (index : Nat) (dtype : DType) (domain : String) :
    BlockPorts :=
  ⟨p.ports ++ [⟨name, some index, false, dtype, domain, true⟩],
    Function.update p.indexedPorts index (some name)⟩

/-- The next lower index that is the name of a port. -/
def lowerIndex (p : BlockPorts) : Nat → Option Nat
  | 0 => none
  | i + 1 => if toString i ∈ p.portNames then some i else p.lowerIndex i

/-- `autoAllocatePort(…, name)`. -/
def autoAllocatePort (p : BlockPorts) (name : String) : Except Fault BlockPorts :=
  match portNameToIndex name with
  | .error e => .error e
  | .ok none => .ok p
  | .ok (some index) =>
      if name ∈ p.portNames then .ok p
      else
        -- indexed port does not exist, look for a lower index port and allocate
        match p.lowerIndex index with
        | none => .ok p
        | some i =>
            match (p.indexedPorts i).bind p.find? with
            | some lower => .ok (p.allocatePort name index lower.dtype lower.domain)
            | none => .error (.undefined "indexedPorts[i]")

/-- `autoDeletePort(name, …)`, for a port with these subscribers. -/
def autoDeletePort (p : BlockPorts) (name : String) (subscribers : List Port) : BlockPorts :=
  match p.find? name with
  | none => p
  | some port =>
      if subscribers ≠ [] then p
      else if port.automatic = false then p
      else
        ⟨p.ports.filter (·.name ≠ name),
          match port.index with
          | some index => Function.update p.indexedPorts index none
          | none => p.indexedPorts⟩

end BlockPorts

/-! ### The topology -/

/-- What the calls get as an object: something with a uid, or something of a type
without one. -/
inductive Connectable
  | object (uid : String)
  | other (type : String)
  deriving Repr, DecidableEq

/-- The uid of the topology, and `getName()` of the objects. -/
structure Objects where
  self : String
  getName : String → String

/-- `Topology::Impl`, the ports of the blocks (inputs are at `true`), and what the
commits left. -/
structure TopologyImpl where
  flows : List Flow
  inputPortNames : List String
  outputPortNames : List String
  inputPortInfo : String → Option PortInfo
  outputPortInfo : String → Option PortInfo
  ports : Bool × String → BlockPorts
  committed : Topology

namespace Objects

variable (o : Objects)

/-- `Port::toString()`. -/
def portToString (port : Port) : String := o.getName port.uid ++ "[" ++ port.name ++ "]"

/-- `Flow::toString()`. -/
def flowToString (flow : Flow) : String := o.portToString flow.src ++ "->" ++ o.portToString flow.dst

/-- The first checks of `connect` and `disconnect`, and the flow that they make. -/
def makeFlow (what : String) (src : Connectable) (srcName : String) (dst : Connectable)
    (dstName : String) : Except Fault Flow :=
  match src, dst with
  | .other type, _ => .error (.thrown "TopologyConnectError" what ("source port of type " ++ type))
  | .object _, .other type =>
      .error (.thrown "TopologyConnectError" what ("destination port of type " ++ type))
  | .object src, .object dst => .ok ⟨⟨src, srcName⟩, ⟨dst, dstName⟩⟩

end Objects

/-- `portInfo.at(name)`, and the assertion about it. -/
def portInfoAt (infos : String → Option PortInfo) (name : String) : Except Fault PortInfo :=
  match infos name with
  | none => .error (.thrown "std::out_of_range" "map::at" name)
  | some info => if info.name = name then .ok info else .error (.assertion "portInfo.at(name).name == name")

/-- The loops of `inputPortInfo()` and `outputPortInfo()`: every name once. -/
def reportedInfos (names : List String) (infos : String → Option PortInfo) :
    Except Fault (List PortInfo) :=
  names.eraseDups.mapM (portInfoAt infos)

namespace TopologyImpl

/-- `_subscribers` of a port. -/
def subscribers (t : TopologyImpl) (isInput : Bool) (port : Port) : List Port :=
  if isInput then t.committed.inputs port else t.committed.outputs port

/-- Connect nothing yet. -/
def start (ports : Bool × String → BlockPorts) : TopologyImpl :=
  ⟨[], [], [], fun _ => none, fun _ => none, ports, Topology.start⟩

variable (o : Objects)

/-- `autoAllocateInput(name)` or `autoAllocateOutput(name)`: on a topology this throws,
and what is thrown is caught. -/
def autoAllocate (t : TopologyImpl) (isInput : Bool) (port : Port) : Except Fault TopologyImpl :=
  if port.uid = o.self then .ok t
  else
    match (t.ports (isInput, port.uid)).autoAllocatePort port.name with
    | .ok ports => .ok { t with ports := Function.update t.ports (isInput, port.uid) ports }
    | .error (.undefined expr) => .error (.undefined expr)
    | .error _ => .ok t

/-- The ports that a `connect` allocates. -/
def autoAllocateFlow (t : TopologyImpl) (flow : Flow) : Except Fault TopologyImpl :=
  (autoAllocate o t false flow.src).bind fun t => autoAllocate o t true flow.dst

/-- `autoDeleteInput(name)` or `autoDeleteOutput(name)`. -/
def autoDelete (t : TopologyImpl) (isInput : Bool) (port : Port) : TopologyImpl :=
  if port.uid = o.self then t
  else
    let ports := (t.ports (isInput, port.uid)).autoDeletePort port.name (t.subscribers isInput port)
    { t with ports := Function.update t.ports (isInput, port.uid) ports }

/-- `inputPortNames()` or `outputPortNames()` of a block or of this topology. -/
def portNames (t : TopologyImpl) (isInput : Bool) (uid : String) : Except Fault (List String) :=
  if uid = o.self then
    (if isInput then reportedInfos t.inputPortNames t.inputPortInfo
      else reportedInfos t.outputPortNames t.outputPortInfo).map (·.map (·.name))
  else .ok (t.ports (isInput, uid)).portNames

/-- The info of a port of a block, as a port of the topology. -/
def infoOf (t : TopologyImpl) (isInput : Bool) (port : Port) (name : String) : Option PortInfo :=
  ((t.ports (isInput, port.uid)).find? port.name).map fun info =>
    ⟨name, name, info.isSigSlot, info.dtype⟩

/-- Store port info for connections to the hierarchy. -/
def storePortInfo (t : TopologyImpl) (flow : Flow) : TopologyImpl :=
  if flow.src.uid = o.self then
    if flow.dst.uid = o.self then
      { t with
        inputPortNames := t.inputPortNames ++ [flow.src.name]
        inputPortInfo := Function.update t.inputPortInfo flow.src.name
          (some { (t.inputPortInfo flow.src.name).getD .empty with name := flow.src.name })
        outputPortNames := t.outputPortNames ++ [flow.dst.name]
        outputPortInfo := Function.update t.outputPortInfo flow.dst.name
          (some { (t.outputPortInfo flow.dst.name).getD .empty with name := flow.dst.name }) }
    else
      { t with
        inputPortNames := t.inputPortNames ++ [flow.src.name]
        inputPortInfo := match t.infoOf true flow.dst flow.src.name with
          | some info => Function.update t.inputPortInfo flow.src.name (some info)
          | none => t.inputPortInfo }
  else if flow.dst.uid = o.self then
    { t with
      outputPortNames := t.outputPortNames ++ [flow.dst.name]
      outputPortInfo := match t.infoOf false flow.src flow.dst.name with
        | some info => Function.update t.outputPortInfo flow.dst.name (some info)
        | none => t.outputPortInfo }
  else t

/-- Validate that the ports exist before connection. Those of the topology need not. -/
def validate (t : TopologyImpl) (flow : Flow) : Except Fault Unit :=
  if flow.src.uid ≠ o.self ∧ flow.src.name ∉ (t.ports (false, flow.src.uid)).portNames then
    .error (.thrown "TopologyConnectError" "Pothos::Topology::connect()"
      (o.portToString flow.src ++ " has no output port named " ++ flow.src.name))
  else if flow.dst.uid ≠ o.self ∧ flow.dst.name ∉ (t.ports (true, flow.dst.uid)).portNames then
    .error (.thrown "TopologyConnectError" "Pothos::Topology::connect()"
      (o.portToString flow.dst ++ " has no input port named " ++ flow.dst.name))
  else .ok ()

/-- `_connect(src, srcName, dst, dstName)`, from the flow on. -/
def connectFlow (t : TopologyImpl) (flow : Flow) : Except Fault Unit × TopologyImpl :=
  match autoAllocateFlow o t flow with
  | .error e => (.error e, t)
  | .ok t =>
      match validate o t flow with
      | .error e => (.error e, t)
      | .ok () =>
          let t := storePortInfo o t flow
          if flow ∈ t.flows then
            (.error (.thrown "TopologyConnectError" "Pothos::Topology::connect()"
              ("this flow already exists in the topology(" ++ o.flowToString flow ++ ")")), t)
          else (.ok (), { t with flows := t.flows ++ [flow] })

/-- Validate that the ports exist before disconnection. -/
def validateDisconnect (t : TopologyImpl) (flow : Flow) : Except Fault Unit :=
  match portNames o t false flow.src.uid with
  | .error e => .error e
  | .ok outs =>
      if flow.src.name ∉ outs then
        .error (.thrown "TopologyConnectError" "Pothos::Topology::disconnect()"
          (o.portToString flow.src ++ " has no output port named " ++ flow.src.name))
      else
        match portNames o t true flow.dst.uid with
        | .error e => .error e
        | .ok ins =>
            if flow.dst.name ∉ ins then
              .error (.thrown "TopologyConnectError" "Pothos::Topology::disconnect()"
                (o.portToString flow.dst ++ " has no input port named " ++ flow.dst.name))
            else .ok ()

/-- Clear port info for disconnections from the hierarchy. -/
def clearPortInfo (t : TopologyImpl) (flow : Flow) : TopologyImpl :=
  { t with
    outputPortNames :=
      if flow.src.uid = o.self then t.outputPortNames.erase flow.src.name else t.outputPortNames
    inputPortNames :=
      if flow.dst.uid = o.self then t.inputPortNames.erase flow.dst.name else t.inputPortNames }

/-- `_disconnect(src, srcName, dst, dstName)`, from the flow on. -/
def disconnectFlow (t : TopologyImpl) (flow : Flow) : Except Fault Unit × TopologyImpl :=
  match validateDisconnect o t flow with
  | .error e => (.error e, t)
  | .ok () =>
      let t := clearPortInfo o t flow
      if flow ∉ t.flows then
        (.error (.thrown "TopologyConnectError" "Pothos::Topology::disconnect()"
          ("this flow does not exist in the topology(" ++ o.flowToString flow ++ ")")), t)
      else
        let t := autoDelete o (autoDelete o t false flow.src) true flow.dst
        (.ok (), { t with flows := t.flows.erase flow })

/-- `_connect(src, srcName, dst, dstName)`. -/
def connect (t : TopologyImpl) (src : Connectable) (srcName : String) (dst : Connectable)
    (dstName : String) : Except Fault Unit × TopologyImpl :=
  match Objects.makeFlow "Pothos::Topology::connect()" src srcName dst dstName with
  | .error e => (.error e, t)
  | .ok flow => connectFlow o t flow

/-- `_disconnect(src, srcName, dst, dstName)`. -/
def disconnect (t : TopologyImpl) (src : Connectable) (srcName : String) (dst : Connectable)
    (dstName : String) : Except Fault Unit × TopologyImpl :=
  match Objects.makeFlow "Pothos::Topology::disconnect()" src srcName dst dstName with
  | .error e => (.error e, t)
  | .ok flow => disconnectFlow o t flow

/-- Auto-deletion of the ports of flows. -/
def autoDeleteFlows (t : TopologyImpl) (flows : List Flow) : TopologyImpl :=
  flows.foldl (fun t flow => autoDelete o (autoDelete o t false flow.src) true flow.dst) t

/-- `disconnectAll(recursive)`: the recursive calls throw on blocks. -/
def disconnectAll (t : TopologyImpl) : Except Fault Unit × TopologyImpl :=
  (.ok (), { autoDeleteFlows o t t.flows with flows := [] })

/-- The calls. -/
inductive Call
  | connect (src : Connectable) (srcName : String) (dst : Connectable) (dstName : String)
  | disconnect (src : Connectable) (srcName : String) (dst : Connectable) (dstName : String)
  | disconnectAll
  deriving Repr, DecidableEq

/-- Connect the ends of a flow. -/
def Call.connectFlow (flow : Flow) : Call :=
  .connect (.object flow.src.uid) flow.src.name (.object flow.dst.uid) flow.dst.name

/-- Disconnect the ends of a flow. -/
def Call.disconnectFlow (flow : Flow) : Call :=
  .disconnect (.object flow.src.uid) flow.src.name (.object flow.dst.uid) flow.dst.name

/-- Make a call. -/
def call (t : TopologyImpl) : Call → Except Fault Unit × TopologyImpl
  | .connect src srcName dst dstName => connect o t src srcName dst dstName
  | .disconnect src srcName dst dstName => disconnect o t src srcName dst dstName
  | .disconnectAll => disconnectAll o t

end TopologyImpl

end PothosCore.Framework

import Mathlib.Data.Finset.Basic
import PothosCore.Framework.TopologyConnect
import PothosCore.Lib.SlotVector

/-!
# PothosCore.Framework.PortAllocation

The port tables of a block and its actor: the calls that set up ports by hand, those that
a topology makes to allocate and delete them, and what they write where.

A port is an object in memory. The owning map of the actor, the named ports, the indexed
ports and the automatic ports of the block all refer to it by its address. A call that
throws keeps what it wrote before, so a call gives both how it ends and the tables it
leaves.
-/

namespace PothosCore.Framework

open PothosCore.Lib

/-- `InputPort` or `OutputPort`, as far as the tables go. -/
structure PortObject where
  isInput : Bool
  name : String
  /-- `index()`, or `none` for -1. -/
  index : Option Nat
  isSigSlot : Bool
  dtype : DType
  domain : String
  subscribers : List Nat
  deriving Repr, DecidableEq

/-- The tables of one direction, and the length of the pointer array in `_workInfo`. -/
structure PortTable where
  ports : String → Option Nat
  namedPorts : String → Option Nat
  indexedPorts : List (Option Nat)
  portNames : List String
  pointers : Nat

/-- The ports in memory and all tables of a block. -/
structure ActorPorts where
  heap : Nat → Option PortObject
  inputs : PortTable
  outputs : PortTable
  automaticPorts : Finset Nat
  automaticSlots : Finset String

namespace PortTable

def empty : PortTable := ⟨fun _ => none, fun _ => none, [], [], 0⟩

end PortTable

namespace ActorPorts

/-- A block without ports. -/
def empty : ActorPorts := ⟨fun _ => none, .empty, .empty, ∅, ∅⟩

def table (t : ActorPorts) (isInput : Bool) : PortTable := if isInput then t.inputs else t.outputs

def setTable (t : ActorPorts) (isInput : Bool) (p : PortTable) : ActorPorts :=
  if isInput then { t with inputs := p } else { t with outputs := p }

/-- `updatePorts()`: resize the work info pointer arrays. -/
def updatePorts (t : ActorPorts) : ActorPorts :=
  { t with
    inputs := { t.inputs with pointers := t.inputs.indexedPorts.length },
    outputs := { t.outputs with pointers := t.outputs.indexedPorts.length } }

/-! ### Allocation -/

/-- `auto &port = ports[name]; port.reset(new T())`: what was there is freed. -/
def resetPort (t : ActorPorts) (isInput : Bool) (address : Nat) (port : PortObject) : ActorPorts :=
  let table := t.table isInput
  let heap := match table.ports port.name with
    | some old => Function.update t.heap old none
    | none => t.heap
  { t with heap := Function.update heap address (some port) }.setTable isInput
    { table with ports := Function.update table.ports port.name (some address) }

/-- The tables other than the owning map get the port. -/
def installPort (p : PortTable) (address : Nat) (name : String) (index : Option Nat) : PortTable :=
  { p with
    -- record port name in order of allocation
    portNames := p.portNames ++ [name],
    namedPorts := Function.update p.namedPorts name (some address),
    -- install pointer into indexed ports (if its indexable)
    indexedPorts := match index with
      | some index => SlotVector.install p.indexedPorts index address
      | none => p.indexedPorts }

/-- `allocatePort(…, name, dtype, domain, automatic)`, with a new object at `address`. -/
def allocatePort (t : ActorPorts) (isInput : Bool) (address : Nat) (name : String) (dtype : DType) (domain : String)
    (automatic : Bool) : Except Fault Unit × ActorPorts :=
  let port : PortObject := ⟨isInput, name, none, false, dtype, domain, []⟩
  let t := t.resetPort isInput address port
  match portNameToIndex name with
  | .error e => (.error e, t)
  | .ok index =>
      let t := { t with heap := Function.update t.heap address (some { port with index := index }) }
      let t := t.setTable isInput (installPort (t.table isInput) address name index)
      -- record automatically created ports
      let t := if automatic then { t with automaticPorts := insert address t.automaticPorts } else t
      (.ok (), t.updatePorts)

/-- `allocateSignal(name)` or `allocateSlot(name)`. -/
def allocateSigSlot (t : ActorPorts) (isInput : Bool) (address : Nat) (name : String) :
    Except Fault Unit × ActorPorts :=
  match t.allocatePort isInput address name .unspecified "" false with
  | (.error e, t) => (.error e, t)
  | (.ok (), t) =>
      -- outputs[name]->_isSignal = true
      match ((t.table isInput).ports name).bind t.heap with
      | none => (.error (.undefined "outputs[name]"), t)
      | some port => (.ok (), { t with heap := Function.update t.heap address (some { port with isSigSlot := true }) })

/-- The next lower index that is the name of a port. -/
def lowerIndex (p : PortTable) : Nat → Option Nat
  | 0 => none
  | i + 1 => if (p.ports (toString i)).isSome then some i else lowerIndex p i

/-- `autoAllocatePort(…, name)`. -/
def autoAllocatePort (t : ActorPorts) (isInput : Bool) (address : Nat) (name : String) :
    Except Fault Unit × ActorPorts :=
  match portNameToIndex name with
  | .error e => (.error e, t)
  | .ok none => (.ok (), t)
  | .ok (some index) =>
      if ((t.table isInput).ports name).isSome then (.ok (), t)
      else
        -- indexed port does not exist, look for a lower index port and allocate
        match lowerIndex (t.table isInput) index with
        | none => (.ok (), t)
        | some i =>
            match (SlotVector.slot (t.table isInput).indexedPorts i).bind t.heap with
            | none => (.error (.undefined "indexedPorts[i]"), t)
            | some lower => t.allocatePort isInput address name lower.dtype lower.domain true

/-! ### Deletion -/

/-- `indexedPorts[port.index()] = nullptr`, if it has an index. -/
def cleared (indexedPorts : List (Option Nat)) (index : Option Nat) : List (Option Nat) :=
  match index with
  | some index => indexedPorts.set index none
  | none => indexedPorts

/-- Strip null ports. The size is converted to an int, which `2 ^ 31` is not; the sizes
after the first are smaller. -/
def stripPorts (indexedPorts : List (Option Nat)) : Except Fault (List (Option Nat)) :=
  if indexedPorts.getLast? = some none ∧ 2 ^ 31 ≤ indexedPorts.length then
    .error (.undefined "int(indexedPorts.size())-1")
  else .ok (SlotVector.strip indexedPorts)

/-- The tables of the direction lose a port: `name` is the key it was found with. -/
def removePort (p : PortTable) (name portName : String) (indexedPorts : List (Option Nat)) : PortTable :=
  { p with
    ports := Function.update p.ports name none,
    namedPorts := Function.update p.namedPorts portName none,
    indexedPorts := indexedPorts,
    portNames := p.portNames.erase portName }

/-- `autoDeletePort(name, …)`. -/
def autoDeletePort (t : ActorPorts) (isInput : Bool) (name : String) : Except Fault Unit × ActorPorts :=
  let table := t.table isInput
  match table.ports name with
  | none => (.ok (), t)
  | some address =>
      match t.heap address with
      | none => (.error (.undefined "*it->second"), t)
      | some port =>
          if port.subscribers ≠ [] then (.ok (), t)
          else if address ∉ t.automaticPorts then (.ok (), t)
          else
            let t := { t with automaticPorts := t.automaticPorts.erase address }
            -- remove it from indexed ports and strip null ports
            match stripPorts (cleared table.indexedPorts port.index) with
            | .error e => (.error e, t)
            | .ok indexedPorts =>
                let t := { t with heap := Function.update t.heap address none }
                (.ok (), t.setTable isInput (removePort table name port.name indexedPorts))

/-! ### The calls of a block -/

/-! The texts of the two directions. -/

def setupText (isInput : Bool) : String :=
  if isInput then "Pothos::Block::setupInput(" else "Pothos::Block::setupOutput("

def registerText (isInput : Bool) : String :=
  if isInput then "Pothos::Block::registerSlot(" else "Pothos::Block::registerSignal("

def accessText (isInput : Bool) : String := if isInput then "Pothos::Block::input(" else "Pothos::Block::output("

def missingText (isInput : Bool) : String :=
  if isInput then "input port name does not exist" else "output port name does not exist"

def portAccessError (what message : String) : Fault := .thrown "PortAccessError" what message

/-- `setupInput(name, dtype, domain)` or `setupOutput(…)`: the port is looked up again to be
returned. -/
def setupPort (t : ActorPorts) (isInput : Bool) (address : Nat) (name : String) (dtype : DType) (domain : String) :
    Except Fault Unit × ActorPorts :=
  if name = "" then (.error (portAccessError (setupText isInput ++ ")") "empty name"), t)
  else if ((t.table isInput).namedPorts name).isSome then
    (.error (portAccessError (setupText isInput ++ name ++ ")") "already registered"), t)
  else
    match t.allocatePort isInput address name dtype domain false with
    | (.error e, t) => (.error e, t)
    | (.ok (), t) =>
        if ((t.table isInput).namedPorts name).isSome then (.ok (), t)
        else (.error (portAccessError (accessText isInput ++ name ++ ")") (missingText isInput)), t)

/-- `registerSignal(name)`, and `registerSlot(name)` from its second test on. -/
def registerPort (t : ActorPorts) (isInput : Bool) (address : Nat) (name : String) : Except Fault Unit × ActorPorts :=
  if name = "" then (.error (portAccessError (registerText isInput ++ ")") "empty name"), t)
  else if ((t.table isInput).namedPorts name).isSome then
    (.error (portAccessError (registerText isInput ++ name ++ ")") "already registered"), t)
  else t.allocateSigSlot isInput address name

def registerSignal (t : ActorPorts) (address : Nat) (name : String) : Except Fault Unit × ActorPorts :=
  t.registerPort false address name

/-- `registerSlot(name)`: already registered automatically, no error. -/
def registerSlot (t : ActorPorts) (address : Nat) (name : String) : Except Fault Unit × ActorPorts :=
  if name ∈ t.automaticSlots then (.ok (), t) else t.registerPort true address name

/-- `registerCallable(name, call)`: automatic registration of slots for calls that return
void and are not "private". -/
def registerCallable (t : ActorPorts) (address : Nat) (name : String) (returnVoid : Bool) :
    Except Fault Unit × ActorPorts :=
  match name.toList with
  | [] => (.error (.undefined "name.front()"), t)
  | first :: _ =>
      if first ≠ '_' ∧ returnVoid = true ∧ ((t.table true).namedPorts name).isSome = false then
        match t.registerSlot address name with
        | (.error e, t) => (.error e, t)
        | (.ok (), t) => (.ok (), { t with automaticSlots := insert name t.automaticSlots })
      else (.ok (), t)

/-! ### Runs -/

/-- The calls, each with the address of an object that it may allocate, and what a
topology does to the subscribers of a port. -/
inductive PortCall
  | setup (isInput : Bool) (address : Nat) (name : String) (dtype : DType) (domain : String)
  | registerSignal (address : Nat) (name : String)
  | registerSlot (address : Nat) (name : String)
  | registerCallable (address : Nat) (name : String) (returnVoid : Bool)
  | autoAllocate (isInput : Bool) (address : Nat) (name : String)
  | autoDelete (isInput : Bool) (name : String)
  | subscribe (isInput : Bool) (name : String) (subscribers : List Nat)

/-- The subscribers of a port change, and `updatePorts()` is called. -/
def subscribe (t : ActorPorts) (isInput : Bool) (name : String) (subscribers : List Nat) :
    Except Fault Unit × ActorPorts :=
  match (t.table isInput).ports name with
  | none => (.error (.thrown "std::out_of_range" "map::at" ""), t)
  | some address =>
      match t.heap address with
      | none => (.error (.undefined "*it->second"), t)
      | some port =>
          (.ok (), { t with
            heap := Function.update t.heap address (some { port with subscribers := subscribers }) }.updatePorts)

def call (t : ActorPorts) : PortCall → Except Fault Unit × ActorPorts
  | .setup isInput address name dtype domain => t.setupPort isInput address name dtype domain
  | .registerSignal address name => t.registerSignal address name
  | .registerSlot address name => t.registerSlot address name
  | .registerCallable address name returnVoid => t.registerCallable address name returnVoid
  | .autoAllocate isInput address name => t.autoAllocatePort isInput address name
  | .autoDelete isInput name => t.autoDeletePort isInput name
  | .subscribe isInput name subscribers => t.subscribe isInput name subscribers

end ActorPorts

end PothosCore.Framework

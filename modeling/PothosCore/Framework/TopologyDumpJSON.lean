import PothosCore.Framework.TopologyConnect
import PothosCore.Framework.TopologySquashFlows

/-!
# PothosCore.Framework.TopologyDumpJSON

`dumpJSON` of a topology: the blocks and the connections of its hierarchy, and how the
flat dump takes the hierarchy down, one level for each `flattenDump`.

A JSON object is the list of its members. What a block has besides its name and ports is
the dump of what is in it; only a topology has one.
-/

namespace PothosCore.Framework

/-- What a block reports of itself. -/
structure DumpInfo where
  name : String
  inputs : List PortInfo
  outputs : List PortInfo
  deriving Repr, DecidableEq

/-- A member of `blocks`, with `blocks` and `connections` of its own if it is a topology. -/
inductive DumpBlock
  | mk (info : DumpInfo) (sub : Option (List (String × DumpBlock) × List Flow))

/-- A dump: the members `blocks` and `connections`. -/
structure Dump where
  blocks : List (String × DumpBlock)
  connections : List Flow

namespace DumpBlock

def info : DumpBlock → DumpInfo
  | mk info _ => info

def sub : DumpBlock → Option Dump
  | mk _ none => none
  | mk _ (some (blocks, connections)) => some ⟨blocks, connections⟩

/-- `blockObj["name"] = name`. -/
def setName (name : String) : DumpBlock → DumpBlock
  | mk info sub => mk { info with name } sub

/-- The block with the members of `sub`. -/
def ofSub (info : DumpInfo) : Option Dump → DumpBlock
  | none => mk info none
  | some dump => mk info (some (dump.blocks, dump.connections))

/-- `blockIsHier(blockObj)`. -/
def isHier (b : DumpBlock) : Bool := b.sub.isSome

@[simp] theorem sub_setName (name : String) (b : DumpBlock) : (b.setName name).sub = b.sub := by
  obtain ⟨_, _ | ⟨_, _⟩⟩ := b <;> rfl

@[simp] theorem sub_ofSub (info : DumpInfo) (sub : Option Dump) : (ofSub info sub).sub = sub := by
  cases sub <;> rfl

end DumpBlock

namespace Dump

/-- `blocksObj[blockId]`, where there is one. -/
def block? (dump : Dump) (blockId : String) : Option DumpBlock :=
  (dump.blocks.find? (·.1 = blockId)).map (·.2)

/-- `flatBlocksObj[key] = blockObj`. -/
def setBlock (key : String) (blockObj : DumpBlock) : List (String × DumpBlock) → List (String × DumpBlock)
  | [] => [(key, blockObj)]
  | (key', blockObj') :: rest =>
      if key = key' then (key, blockObj) :: rest
      else if key < key' then (key, blockObj) :: (key', blockObj') :: rest
      else (key', blockObj') :: setBlock key blockObj rest

/-- `resolvePorts(topObj, blockId, portName, resolveSrc)`. -/
def resolvePorts (top : Dump) (port : Port) (resolveSrc : Bool) : List Port :=
  match top.block? port.uid with
  | none => []
  | some blockObj =>
      match blockObj.sub with
      | none => [port]
      | some sub =>
          (sub.connections.filter fun subConn =>
              (if resolveSrc then subConn.dst else subConn.src) = port).flatMap fun subConn =>
            let subPort := if resolveSrc then subConn.src else subConn.dst
            -- ignore pass-through connections in this loop
            if subPort.uid ≠ port.uid then [subPort] else []

/-- What comes to the top level for a block: the block itself, or the blocks of the hierarchy
that it is. -/
def flatMembers (member : String × DumpBlock) : List (String × DumpBlock) :=
  match member.2.sub with
  | none => [member]
  | some sub =>
      -- heritage name
      sub.blocks.map fun subMember =>
        (subMember.1, subMember.2.setName (member.2.info.name ++ "/" ++ subMember.2.info.name))

/-- The blocks of `flattenDump`. -/
def flatBlocks (top : Dump) : List (String × DumpBlock) :=
  (top.blocks.flatMap flatMembers).foldl (fun flat member => setBlock member.1 member.2 flat) []

/-- The connections of `flattenDump` from those of the top level. -/
def foldedConns (top : Dump) : List Flow :=
  top.connections.flatMap fun conn =>
    (top.resolvePorts conn.src true).flatMap fun src =>
      (top.resolvePorts conn.dst false).map fun dst => ⟨src, dst⟩

/-- The connections of `flattenDump` from one connection within the hierarchy `key`. -/
def subConns (top : Dump) (key : String) (subConn : Flow) : List Flow :=
  let srcIsThis := subConn.src.uid = key
  let dstIsThis := subConn.dst.uid = key
  -- totally internal connection
  (if ¬ srcIsThis ∧ ¬ dstIsThis then [subConn] else []) ++
    if srcIsThis ∧ dstIsThis then
      (top.connections.filter fun conn => conn.dst = ⟨key, subConn.src.name⟩).flatMap fun connSrc =>
        (top.connections.filter fun conn => conn.src = ⟨key, subConn.dst.name⟩).map fun connDst =>
          ⟨connSrc.src, connDst.dst⟩
    else []

/-- The connections of `flattenDump` from within the hierarchies. -/
def hierConns (top : Dump) : List Flow :=
  top.blocks.flatMap fun member =>
    match member.2.sub with
    | none => []
    | some sub => sub.connections.flatMap (top.subConns member.1)

/-- `flattenDump(topObj)`: whether a hierarchy was found, and the new `topObj`. -/
def flattenDump (top : Dump) : Bool × Dump :=
  (top.blocks.any fun member => member.2.isHier, ⟨top.flatBlocks, top.foldedConns ++ top.hierConns⟩)

/-- `while (flattenDump(topObj));`, for at most so many rounds. -/
def flattenLoop : ℕ → Dump → Option Dump
  | 0, _ => none
  | rounds + 1, top =>
      match top.flattenDump with
      | (true, top') => flattenLoop rounds top'
      | (false, top') => some top'

end Dump

namespace Hierarchy

variable (h : Hierarchy) (info : String → DumpInfo)

/-- The members of `blocks` for the objects of the flows, with what `dump` gives for them. -/
def dumpBlocks (dump : String → Option Dump) (self : String) (flows : List ObjFlow) : List (String × DumpBlock) :=
  (uidToObj flows).map fun blockId =>
    (blockId, .ofSub (info blockId) (if self ≠ blockId then dump blockId else none))

/-- `dumpJSON("{"mode":"top"}")` of an object, to a depth of calls. It throws for a block. -/
def dumpTop : ℕ → String → Option Dump
  | 0, _ => none
  | depth + 1, uid =>
      match h.flows uid with
      | none => none
      | some flows =>
          some ⟨dumpBlocks info (fun blockId => dumpTop depth blockId) uid (flows.map (Flow.within uid)), flows⟩

/-- `dumpJSON("{"mode":"flat"}")`, to a depth of calls and for so many rounds. -/
def dumpFlat (depth rounds : ℕ) (uid : String) : Option Dump :=
  (h.dumpTop info depth uid).bind (Dump.flattenLoop rounds)

end Hierarchy

end PothosCore.Framework

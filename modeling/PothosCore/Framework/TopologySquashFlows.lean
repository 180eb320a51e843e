import Mathlib.Data.List.Dedup
import Mathlib.Data.List.Sort
import Mathlib.Data.String.Basic
import Mathlib.Logic.Function.Basic
import PothosCore.Framework.TopologyCommit

/-!
# PothosCore.Framework.TopologySquashFlows

How a commit flattens a hierarchy of topologies: `resolvePorts`, `squashFlows`, and
`completePassThroughFlows` with what it makes of the flows from a topology to itself.

A port of a topology is seen from two sides. Where the topology is a block among others
the port has the topology as its `obj`, and within the topology its `obj` is null.
The futures of the source read only, so their results are put in order here.
-/

namespace PothosCore.Framework

/-- A `Port`, with whether its `obj` is there or null. -/
structure ObjPort where
  port : Port
  obj : Bool
  deriving Repr, DecidableEq

/-- A `Flow` of such ports. -/
@[ext] structure ObjFlow where
  src : ObjPort
  dst : ObjPort
  deriving Repr, DecidableEq

/-- `makePort`, within the topology with the uid `self`: it stores no copy of itself. -/
def Port.within (self : String) (port : Port) : ObjPort := ⟨port, port.uid ≠ self⟩

/-- The flow, as the topology with the uid `self` stores it. -/
def Flow.within (self : String) (flow : Flow) : ObjFlow := ⟨flow.src.within self, flow.dst.within self⟩

/-- Topologies in topologies. None is a part of itself, however deep. -/
structure Hierarchy where
  /-- `_impl->flows` of the topology with a uid. A block has none. -/
  flows : String → Option (List Flow)
  height : String → ℕ
  below : ∀ t l, flows t = some l → ∀ flow ∈ l,
    (flow.src.uid ≠ t → height flow.src.uid < height t) ∧ (flow.dst.uid ≠ t → height flow.dst.uid < height t)

namespace Hierarchy

variable (h : Hierarchy)

/-- The flows of a topology, with the ports of its own that are null. -/
def inside (t : String) : Option (List ObjFlow) := (h.flows t).map fun l => l.map (Flow.within t)

/-! ### Resolving ports -/

/-- `resolvePortsFromTopology(t, portName, isSource)`, for the flows of `t`, and what is
called for a port of a topology within `t`. -/
def resolvePortsFromTopology (resolvePorts : ObjPort → List ObjPort) (flows : List ObjFlow)
    (portName : String) (isSource : Bool) : List ObjPort :=
  flows.flatMap fun flow =>
    if isSource then
      if flow.dst.port.name = portName ∧ ¬ flow.dst.obj then
        if flow.src.obj then resolvePorts flow.src else [flow.src]
      else []
    else
      if flow.src.port.name = portName ∧ ¬ flow.src.obj then
        if flow.dst.obj then resolvePorts flow.dst else [flow.dst]
      else []

/-- `resolvePorts(port, isSource)`, to a depth of calls. -/
def resolvePorts : ℕ → ObjPort → Bool → List ObjPort
  | 0, _, _ => []
  | depth + 1, port, isSource =>
      match h.inside port.port.uid with
      -- its just a block, no ports to resolve
      | none => [port]
      | some flows =>
          resolvePortsFromTopology (fun p => resolvePorts depth p isSource) flows port.port.name isSource

/-! ### Squashing -/

/-- The keys of `uidToObj`. -/
def uidToObj (flows : List ObjFlow) : List String :=
  (flows.flatMap fun flow =>
    (if flow.src.obj then [flow.src.port.uid] else []) ++
      (if flow.dst.obj then [flow.dst.port.uid] else [])).dedup.insertionSort (· ≤ ·)

/-- All combinations of the sources and the destinations of a flow. -/
def combinations (depth : ℕ) (flow : ObjFlow) : List ObjFlow :=
  (h.resolvePorts depth flow.src true).flatMap fun src =>
    (h.resolvePorts depth flow.dst false).map fun dst => ⟨src, dst⟩

/-- `resolveFlows(obj)`: nothing for a block. -/
def resolveFlows (squashFlows : List ObjFlow → List ObjFlow) (uid : String) : List ObjFlow :=
  match h.inside uid with
  | none => []
  | some subFlows => squashFlows subFlows

/-- `squashFlows(flows)`, to a depth of calls. -/
def squashFlows : ℕ → List ObjFlow → List ObjFlow
  | 0, _ => []
  | depth + 1, flows =>
      -- ignore external flows
      (flows.filter fun flow => flow.src.obj ∧ flow.dst.obj).flatMap (h.combinations depth) ++
        -- resolve sub-topology flows
        (uidToObj flows).flatMap (h.resolveFlows fun subFlows => squashFlows depth subFlows) ++
        -- flows that pass through this topology in -> out
        flows.filter fun flow => ¬ flow.src.obj ∧ ¬ flow.dst.obj

/-- `completePassThroughFlows(flows)`. -/
def completePassThroughFlows (flows : List ObjFlow) : List ObjFlow :=
  (flows.filter fun flow => ¬ flow.src.obj ∧ ¬ flow.dst.obj).flatMap (fun flow =>
    (flows.filter fun flowTail => flowTail.dst.obj).flatMap fun flowTail =>
      (flows.filter fun flowHead =>
          flowHead.src.obj ∧ flow.src.port = flowTail.src.port ∧ flow.dst.port = flowHead.dst.port).map
        fun flowHead => ⟨flowHead.src, flowTail.dst⟩) ++
    -- add all already completed flows to the output flow
    flows.filter fun flow => flow.src.obj ∧ flow.dst.obj

/-- What `commit()` of the topology `top` connects, before it looks at processes and
domains, to a depth of calls. -/
def completeFlows (depth : ℕ) (top : String) : List ObjFlow :=
  match h.inside top with
  | none => []
  | some flows => completePassThroughFlows (h.squashFlows depth flows)

end Hierarchy

end PothosCore.Framework

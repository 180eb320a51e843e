import PothosCore.Framework.TopologyCommit

/-!
# PothosCore.Framework.TopologyDomainFlows

`rectifyDomainFlows`: a copier is put behind every source and before every destination
whose domain crossing is not acceptable. The copier of a destination goes before that of
a source, and all flows of a bad port share its copier.

The uids of the copiers are given by `copier`, for destinations (`true`) and for sources.
-/

namespace PothosCore.Framework

/-- Append a flow that is not there yet. -/
def pushNew (flows : List Flow) (flow : Flow) : List Flow :=
  if flow ∈ flows then flows else flows ++ [flow]

namespace Blocks

variable (b : Blocks) (copier : Bool → Port → String)

/-- The copier that goes into a flow. -/
def copierOf (flatFlows : List Flow) (flow : Flow) : Option String :=
  if b.isDomainCrossingAcceptable flow.dst (srcsOf flatFlows flow.dst) true = false then
    some (copier true flow.dst)
  else if b.isDomainCrossingAcceptable flow.src (dstsOf flatFlows flow.src) false = false then
    some (copier false flow.src)
  else none

/-- The loop of `rectifyDomainFlows`. -/
def rectifyFlow (flatFlows domainSafeFlows : List Flow) (flow : Flow) : List Flow :=
  match b.copierOf copier flatFlows flow with
  | some copier =>
      pushNew (pushNew domainSafeFlows ⟨flow.src, ⟨copier, "0"⟩⟩) ⟨⟨copier, "0"⟩, flow.dst⟩
  | none => domainSafeFlows ++ [flow]

/-- `rectifyDomainFlows(flatFlows)`. -/
def rectifyDomainFlows (flatFlows : List Flow) : List Flow :=
  flatFlows.foldl (b.rectifyFlow copier flatFlows) []

end Blocks

end PothosCore.Framework

import PothosCore.Framework.TopologyHierarchy
import PothosCore.Framework.TopologyInsertedBlocks
import PothosCore.Framework.TopologySubscriptions

/-!
# PothosCore.Framework.TopologyAutomaticPorts

How long automatically allocated ports live.

`connect` allocates them, one end after the other. `disconnect` deletes them by the list
of their subscribers, which only a commit fills, and does not look at the other flows of
the topology. A commit takes away the subscribers of the flows that are gone, but
deletes no port. `Keeps` is the condition on a call under which each port lives as long
as a flow uses it; it is exact.
-/

namespace PothosCore.Framework

open PothosCore.Lib

/-- The input or the output port of a flow. -/
def endOf (isInput : Bool) (flow : Flow) : Port := if isInput then flow.dst else flow.src

namespace TopologyImpl

/-- The blocks have a port with the property. -/
def Has (P : BlockPort → Prop) (t : TopologyImpl) (isInput : Bool) (port : Port) : Prop :=
  ∃ p ∈ (t.ports (isInput, port.uid)).ports, p.name = port.name ∧ P p

/-- The port exists. -/
def Exists (t : TopologyImpl) (isInput : Bool) (port : Port) : Prop :=
  Has (fun _ => True) t isInput port

/-- The port was allocated automatically. -/
def Automatic (t : TopologyImpl) (isInput : Bool) (port : Port) : Prop :=
  Has (·.automatic = true) t isInput port

instance (P : BlockPort → Prop) [DecidablePred P] (t : TopologyImpl) (isInput : Bool) (port : Port) :
    Decidable (Has P t isInput port) := by
  unfold Has; infer_instance

instance (t : TopologyImpl) (isInput : Bool) (port : Port) : Decidable (Exists t isInput port) := by
  unfold Exists; infer_instance

instance (t : TopologyImpl) (isInput : Bool) (port : Port) : Decidable (Automatic t isInput port) := by
  unfold Automatic; infer_instance

/-- A flow of the list uses the port. -/
def Used (t : TopologyImpl) (isInput : Bool) (port : Port) : Prop :=
  ∃ flow ∈ t.flows, endOf isInput flow = port

/-! ### Commit -/

section
variable (b : Blocks) (o : Objects)

instance (flow : Flow) : Decidable (Hierarchical o flow) := by
  unfold Hierarchical; infer_instance

/-- To rectify the flows, the domains of the ports are asked for. -/
def inspectDomains (t : TopologyImpl) : List Flow → Except Fault Unit
  | [] => .ok ()
  | flow :: flows =>
      if ¬ Exists t false flow.src then
        .error (.thrown "PortAccessError" ("Pothos::Block::output(" ++ flow.src.name ++ ")")
          "output port name does not exist")
      else if ¬ Exists t true flow.dst then
        .error (.thrown "PortAccessError" ("Pothos::Block::input(" ++ flow.dst.name ++ ")")
          "input port name does not exist")
      else inspectDomains t flows

/-- A flow is connected in the topology of its process. -/
def connectRemote (t : TopologyImpl) (flow : Flow) : Except Fault TopologyImpl := do
  let t ← autoAllocateFlow o t flow
  validate o t flow
  .ok t

/-- `commit()` from the flat flows on: in the topologies of the processes all old flows
are disconnected and the new ones connected, and then they commit. -/
def commit (t : TopologyImpl) (c : Topology.Commit) : Except Fault TopologyImpl := do
  inspectDomains t c.flatFlows
  let t ← c.flatFlows.foldlM (connectRemote o) (autoDeleteFlows o t t.committed.activeFlatFlows)
  let committed ← Topology.topologySubCommit b t.committed c
  .ok { t with committed := committed }

/-- The flat flows are those between blocks, with network blocks and copiers put in: they
use the same ports, but for those of the inserted blocks, which are not automatic. -/
structure Carries (t : TopologyImpl) (c : Topology.Commit) : Prop where
  admits : t.committed.Admits c
  uses : ∀ flow ∈ c.flatFlows, ∀ isInput, Automatic t isInput (endOf isInput flow) →
    ∃ f ∈ t.flows, ¬ Hierarchical o f ∧ endOf isInput f = endOf isInput flow
  used : ∀ f ∈ t.flows, ¬ Hierarchical o f → ∀ isInput,
    ∃ flow ∈ c.flatFlows, endOf isInput flow = endOf isInput f

/-- The calls, and commits that return. -/
inductive Move
  | call (c : Call)
  | commit (c : Topology.Commit)

/-- A call, returning or throwing, or a commit. -/
def moves (t : TopologyImpl) : Move → TopologyImpl → Prop
  | .call c, t' => (call o t c).2 = t'
  | .commit c, t' => Carries o t c ∧ commit b o t c = .ok t'

/-! ### The claim -/

/-- Every flow of the list has its ports, and an automatic port that no flow of the list
uses and that has no subscribers is gone. -/
structure Alive (t : TopologyImpl) : Prop where
  exist : ∀ flow ∈ t.flows, ∀ isInput, (endOf isInput flow).uid ≠ o.self →
    Exists t isInput (endOf isInput flow)
  gone : ∀ isInput port, Automatic t isInput port → t.subscribers isInput port = [] → Used t isInput port

/-- A `connect` allocates a port at one end and does not find one at the other. -/
def Strands (t : TopologyImpl) (flow : Flow) : Prop :=
  ∃ t', autoAllocateFlow o t flow = .ok t' ∧ validate o t' flow ≠ .ok () ∧
    ∃ isInput, ¬ Exists t isInput (endOf isInput flow) ∧ Exists t' isInput (endOf isInput flow)

/-- A `disconnect` deletes a port that another flow of the list uses. -/
def Severs (t : TopologyImpl) (flow : Flow) : Prop :=
  validateDisconnect o t flow = .ok () ∧ flow ∈ t.flows ∧
    ∃ isInput, Automatic t isInput (endOf isInput flow) ∧ t.subscribers isInput (endOf isInput flow) = [] ∧
      ∃ other ∈ t.flows, other ≠ flow ∧ endOf isInput other = endOf isInput flow

/-- **The condition on a step.** A commit takes the subscribers of no automatic port that
all flows have left. -/
def Keeps (t : TopologyImpl) : Move → Prop
  | .call (.connect src srcName dst dstName) =>
      ∀ flow, Objects.makeFlow "Pothos::Topology::connect()" src srcName dst dstName = .ok flow →
        ¬ Strands o t flow
  | .call (.disconnect src srcName dst dstName) =>
      ∀ flow, Objects.makeFlow "Pothos::Topology::disconnect()" src srcName dst dstName = .ok flow →
        ¬ Severs o t flow
  | .call .disconnectAll => True
  | .commit _ => ∀ isInput port, Automatic t isInput port → t.subscribers isInput port ≠ [] →
      Used t isInput port

/-- What holds in every state: names are unique, the topology has no ports as a block has
them, no flow is in the list twice, the subscriptions are those of the last commit, and
the ports of these exist. -/
structure WellFormed (t : TopologyImpl) : Prop where
  names : ∀ key, (t.ports key).portNames.Nodup
  block : ∀ isInput port, Automatic t isInput port → port.uid ≠ o.self
  flows : t.flows.Nodup
  inSync : t.committed.InSync
  subscribed : ∀ isInput port, t.subscribers isInput port ≠ [] → Exists t isInput port

end

variable {b : Blocks} {o : Objects}

/-! ### Allocation -/

theorem exists_iff {t : TopologyImpl} {isInput : Bool} {port : Port} :
    Exists t isInput port ↔ port.name ∈ (t.ports (isInput, port.uid)).portNames := by
  simp [Exists, Has, BlockPorts.portNames]

theorem Automatic.exists {t : TopologyImpl} {isInput : Bool} {port : Port} (h : Automatic t isInput port) :
    Exists t isInput port := by
  obtain ⟨p, hp, hname, -⟩ := h
  exact ⟨p, hp, hname, trivial⟩

/-- What is allocated is new and automatic. -/
theorem autoAllocatePort_ok {p p' : BlockPorts} {name : String} (h : p.autoAllocatePort name = .ok p') :
    p' = p ∨ name ∉ p.portNames ∧
      ∃ new, new.name = name ∧ new.automatic = true ∧ p'.ports = p.ports ++ [new] := by
  unfold BlockPorts.autoAllocatePort at h
  split at h
  · cases h
  · exact .inl (Except.ok.inj h).symm
  · split at h
    · exact .inl (Except.ok.inj h).symm
    next hnew =>
      split at h
      · exact .inl (Except.ok.inj h).symm
      · split at h
        · cases h
          exact .inr ⟨hnew, _, rfl, rfl, rfl⟩
        · cases h

theorem has_update {P : BlockPort → Prop} {t : TopologyImpl} {isInput j : Bool} {uid : String} {port : Port}
    {ports : BlockPorts} :
    Has P { t with ports := Function.update t.ports (isInput, uid) ports } j port ↔
      if (j, port.uid) = (isInput, uid) then ∃ p ∈ ports.ports, p.name = port.name ∧ P p
      else Has P t j port := by
  unfold Has
  by_cases h : (j, port.uid) = (isInput, uid)
  · simp only [h, Function.update_self, if_true]
  · simp only [Function.update_of_ne h, h, if_false]

/-- What an allocation changes: ports are added, at most the one that is asked for, and
it is automatic. -/
structure Allocates (o : Objects) (wanted : Bool → Port → Prop) (t t' : TopologyImpl) : Prop where
  committed : t'.committed = t.committed
  grows : ∀ j q, Exists t j q → Exists t' j q
  only : ∀ j q, Exists t' j q → Exists t j q ∨ wanted j q ∧ q.uid ≠ o.self
  automatic : ∀ j q, Automatic t' j q ↔ Automatic t j q ∨ ¬ Exists t j q ∧ Exists t' j q
  names : (∀ key, (t.ports key).portNames.Nodup) → ∀ key, (t'.ports key).portNames.Nodup

theorem Allocates.refl (o : Objects) (wanted : Bool → Port → Prop) (t : TopologyImpl) :
    Allocates o wanted t t where
  committed := rfl
  grows _ _ h := h
  only _ _ h := .inl h
  automatic _ _ := by tauto
  names h := h

theorem Allocates.trans {wanted wanted' : Bool → Port → Prop} {r s t : TopologyImpl}
    (h : Allocates o wanted r s) (h' : Allocates o wanted' s t) :
    Allocates o (fun j q => wanted j q ∨ wanted' j q) r t where
  committed := h'.committed.trans h.committed
  grows j q hq := h'.grows j q (h.grows j q hq)
  only j q hq := by
    rcases h'.only j q hq with hq | ⟨hq, hne⟩
    · exact (h.only j q hq).imp_right fun hq => ⟨.inl hq.1, hq.2⟩
    · exact .inr ⟨.inr hq, hne⟩
  automatic j q := by
    rw [h'.automatic, h.automatic]
    have hgrows := h.grows j q
    have hgrows' := h'.grows j q
    tauto
  names hn := h'.names (h.names hn)

theorem autoAllocate_spec {t t' : TopologyImpl} {isInput : Bool} {port : Port}
    (h : autoAllocate o t isInput port = .ok t') :
    Allocates o (fun j q => j = isInput ∧ q = port) t t' := by
  unfold autoAllocate at h
  split at h
  · cases h
    exact .refl ..
  next hself =>
    split at h
    next ports hports =>
      cases h
      rcases autoAllocatePort_ok hports with rfl | ⟨hnew, new, hname, hauto, hports⟩
      · rw [Function.update_eq_self]
        exact .refl ..
      · have hhas : ∀ (P : BlockPort → Prop) j q,
            Has P { t with ports := Function.update t.ports (isInput, port.uid) ports } j q ↔
              Has P t j q ∨ (j = isInput ∧ q = port) ∧ P new := by
          intro P j q
          rw [has_update]
          split
          next hkey =>
            obtain ⟨rfl, huid⟩ := Prod.mk.inj hkey
            have hq : q = port ↔ new.name = q.name := by
              rw [hname]
              cases q
              cases port
              simp only [Port.mk.injEq] at *
              exact ⟨fun h => h.2.symm, fun h => ⟨huid, h.symm⟩⟩
            simp only [hports, List.mem_append, List.mem_singleton, or_and_right, exists_or, exists_eq_left,
              true_and, hq]
            rw [Has, huid]
          next hkey =>
            have hne : ¬ (j = isInput ∧ q = port) := by
              rintro ⟨rfl, rfl⟩
              exact hkey rfl
            simp [hne]
        have hnot : ¬ Exists t isInput port := fun h => hnew (exists_iff.mp h)
        refine ⟨rfl, ?_, ?_, ?_, ?_⟩
        · exact fun j q hq => (hhas _ j q).mpr (.inl hq)
        · intro j q hq
          refine ((hhas _ j q).mp hq).imp_right fun hq => ⟨hq.1, ?_⟩
          rw [hq.1.2]
          exact hself
        · intro j q
          have hexists := hhas (fun _ => True) j q
          have hautomatic := hhas (·.automatic = true) j q
          rw [← Exists, ← Exists] at hexists
          rw [← Automatic, ← Automatic] at hautomatic
          rw [hautomatic, hexists]
          by_cases hq : j = isInput ∧ q = port
          · obtain ⟨rfl, rfl⟩ := hq
            simp [hnot, hauto]
          · simp only [hq, false_and, or_false]
            tauto
        · intro hn key
          by_cases hkey : key = (isInput, port.uid)
          · subst hkey
            simp only [Function.update_self, BlockPorts.portNames, hports, List.map_append, List.map_cons,
              List.map_nil, hname]
            exact List.nodup_append.mpr ⟨hn _, List.nodup_singleton _, by
              intro a ha c hc hac
              rw [List.mem_singleton.mp hc] at hac
              exact hnew (hac ▸ ha)⟩
          · simp only [Function.update_of_ne hkey]
            exact hn key
    next => cases h
    next =>
      cases h
      exact .refl ..

/-- A `connect` allocates at its ends. -/
theorem autoAllocateFlow_spec {t t' : TopologyImpl} {flow : Flow} (h : autoAllocateFlow o t flow = .ok t') :
    Allocates o (fun j q => q = endOf j flow) t t' := by
  unfold autoAllocateFlow at h
  cases hsrc : autoAllocate o t false flow.src with
  | error e =>
      rw [hsrc] at h
      cases h
  | ok t₁ =>
      rw [hsrc] at h
      have hboth := (autoAllocate_spec hsrc).trans (autoAllocate_spec h)
      refine { hboth with only := fun j q hq => (hboth.only j q hq).imp_right fun hq => ⟨?_, hq.2⟩ }
      rcases hq.1 with ⟨rfl, rfl⟩ | ⟨rfl, rfl⟩ <;> rfl

/-! ### Deletion -/

theorem eq_of_name_eq {p : BlockPorts} (hn : p.portNames.Nodup) {x y : BlockPort} (hx : x ∈ p.ports)
    (hy : y ∈ p.ports) (h : x.name = y.name) : x = y :=
  List.inj_on_of_nodup_map hn hx hy h

theorem find?_eq_some {p : BlockPorts} (hn : p.portNames.Nodup) {x : BlockPort} (hx : x ∈ p.ports) :
    p.find? x.name = some x := by
  cases hfind : p.find? x.name with
  | none =>
      have hnone := List.find?_eq_none.mp hfind x hx
      simp at hnone
  | some y =>
      have hname : y.name = x.name := by simpa using List.find?_some hfind
      rw [eq_of_name_eq hn (List.mem_of_find?_eq_some hfind) hx hname]

/-- Which ports are left: an automatic port without subscribers is deleted. -/
theorem autoDeletePort_spec {p : BlockPorts} (hn : p.portNames.Nodup) {name : String} {subscribers : List Port}
    (x : BlockPort) :
    x ∈ (p.autoDeletePort name subscribers).ports ↔
      x ∈ p.ports ∧ ¬ (x.name = name ∧ x.automatic = true ∧ subscribers = []) := by
  unfold BlockPorts.autoDeletePort
  cases hfind : p.find? name with
  | none =>
      refine (and_iff_left_of_imp fun hx => ?_).symm
      rintro ⟨rfl, -⟩
      rw [find?_eq_some hn hx] at hfind
      cases hfind
  | some port =>
      have hport : port ∈ p.ports := List.mem_of_find?_eq_some hfind
      have hname : port.name = name := by simpa using List.find?_some hfind
      have honly : ∀ y ∈ p.ports, y.name = name → y = port :=
        fun y hy hyname => eq_of_name_eq hn hy hport (hyname.trans hname.symm)
      by_cases hsubs : subscribers = []
      · by_cases hauto : port.automatic = true
        · simp only [hsubs, hauto, ne_eq, not_true_eq_false, if_false, reduceCtorEq, List.mem_filter,
            decide_not, Bool.not_eq_true', decide_eq_false_iff_not, and_true]
          refine and_congr_right fun hx => not_congr ⟨fun h => ⟨h, ?_⟩, fun h => h.1⟩
          rw [honly x hx h]
          exact hauto
        · simp only [hsubs, hauto, ne_eq, not_true_eq_false, if_false, if_true, and_true]
          refine (and_iff_left_of_imp fun hx => ?_).symm
          rintro ⟨hxname, hxauto⟩
          rw [honly x hx hxname] at hxauto
          exact hauto hxauto
      · simp [hsubs]

/-- What a deletion changes: of the ports asked for, those are gone that are automatic and
have no subscribers. -/
structure Deletes (wanted : Bool → Port → Prop) (t t' : TopologyImpl) : Prop where
  committed : t'.committed = t.committed
  has : ∀ P j q, Has P t' j q ↔ Has P t j q ∧ ¬ (wanted j q ∧ Automatic t j q ∧ t.subscribers j q = [])
  names : ∀ key, (t'.ports key).portNames.Nodup

theorem subscribers_congr {t t' : TopologyImpl} (h : t'.committed = t.committed) (j : Bool) (q : Port) :
    t'.subscribers j q = t.subscribers j q := by
  rw [subscribers, subscribers, h]

theorem Deletes.trans {wanted wanted' : Bool → Port → Prop} {r s t : TopologyImpl}
    (h : Deletes wanted r s) (h' : Deletes wanted' s t) :
    Deletes (fun j q => wanted j q ∨ wanted' j q) r t where
  committed := h'.committed.trans h.committed
  has P j q := by
    have hauto : Automatic s j q ↔
        Automatic r j q ∧ ¬ (wanted j q ∧ Automatic r j q ∧ r.subscribers j q = []) := h.has _ j q
    rw [h'.has, h.has, hauto, subscribers_congr h.committed]
    tauto
  names := h'.names

theorem autoDelete_spec {t : TopologyImpl} (hn : ∀ key, (t.ports key).portNames.Nodup)
    (hblock : ∀ j q, Automatic t j q → q.uid ≠ o.self) (isInput : Bool) (port : Port) :
    Deletes (fun j q => j = isInput ∧ q = port) t (autoDelete o t isInput port) := by
  unfold autoDelete
  split
  next hself =>
    refine ⟨rfl, fun P j q => (and_iff_left ?_).symm, hn⟩
    rintro ⟨⟨rfl, rfl⟩, hauto, -⟩
    exact hblock _ _ hauto hself
  next =>
    refine ⟨rfl, fun P j q => ?_, fun key => ?_⟩
    · rw [has_update]
      simp only [autoDeletePort_spec (hn _)]
      split
      next hkey =>
        obtain ⟨rfl, huid⟩ := Prod.mk.inj hkey
        have hq : q = port ↔ q.name = port.name := by
          cases q
          cases port
          simp only [Port.mk.injEq] at *
          exact ⟨fun h => h.2, fun h => ⟨huid, h⟩⟩
        rw [Has, huid]
        constructor
        · rintro ⟨x, ⟨hx, hkept⟩, hname, hP⟩
          refine ⟨⟨x, hx, hname, hP⟩, ?_⟩
          rintro ⟨⟨-, hsame⟩, ⟨y, hy, hyname, hyauto⟩, hsubs⟩
          rw [huid] at hy
          obtain rfl := eq_of_name_eq (hn _) hx hy (hname.trans hyname.symm)
          exact hkept ⟨hname.trans (hq.mp hsame), hyauto, hsame ▸ hsubs⟩
        · rintro ⟨⟨x, hx, hname, hP⟩, hkept⟩
          refine ⟨x, ⟨hx, ?_⟩, hname, hP⟩
          rintro ⟨hxname, hxauto, hsubs⟩
          have hsame := hq.mpr (hname.symm.trans hxname)
          exact hkept ⟨⟨rfl, hsame⟩, ⟨x, huid ▸ hx, hname, hxauto⟩, hsame ▸ hsubs⟩
      next hkey =>
        refine (and_iff_left ?_).symm
        rintro ⟨⟨rfl, rfl⟩, -⟩
        exact hkey rfl
    · by_cases hkey : key = (isInput, port.uid)
      · subst hkey
        simp only [Function.update_self]
        unfold BlockPorts.autoDeletePort
        split
        · exact hn _
        · split
          · exact hn _
          · split
            · exact hn _
            · exact (hn _).sublist (List.filter_sublist.map _)
      · simp only [Function.update_of_ne hkey]
        exact hn key

/-- Automatic ports of the topology itself do not appear by a deletion. -/
theorem Deletes.block {wanted : Bool → Port → Prop} {t t' : TopologyImpl} (h : Deletes wanted t t')
    (hblock : ∀ j q, Automatic t j q → q.uid ≠ o.self) : ∀ j q, Automatic t' j q → q.uid ≠ o.self :=
  fun j q hq => hblock j q ((h.has _ j q).mp hq).1

/-- A `disconnect` deletes at its ends. -/
theorem autoDelete_both_spec {t : TopologyImpl} (hn : ∀ key, (t.ports key).portNames.Nodup)
    (hblock : ∀ j q, Automatic t j q → q.uid ≠ o.self) (flow : Flow) :
    Deletes (fun j q => q = endOf j flow) t (autoDelete o (autoDelete o t false flow.src) true flow.dst) := by
  have hsrc := autoDelete_spec hn hblock false flow.src
  have hboth := hsrc.trans (autoDelete_spec hsrc.names (hsrc.block hblock) true flow.dst)
  have hwanted : ∀ j q, (j = false ∧ q = flow.src ∨ j = true ∧ q = flow.dst) ↔ q = endOf j flow := by
    intro j q
    cases j <;> simp [endOf]
  simpa only [hwanted] using hboth

/-- `disconnectAll` deletes at the ends of all flows. -/
theorem autoDeleteFlows_spec {t : TopologyImpl} (hn : ∀ key, (t.ports key).portNames.Nodup)
    (hblock : ∀ j q, Automatic t j q → q.uid ≠ o.self) (flows : List Flow) :
    Deletes (fun j q => ∃ flow ∈ flows, endOf j flow = q) t (autoDeleteFlows o t flows) := by
  induction flows generalizing t with
  | nil => exact ⟨rfl, fun P j q => by simp [autoDeleteFlows], hn⟩
  | cons flow flows ih =>
      have hflow := autoDelete_both_spec hn hblock flow
      have hall := hflow.trans (ih hflow.names (hflow.block hblock))
      have hwanted : ∀ j q, (q = endOf j flow ∨ ∃ f ∈ flows, endOf j f = q) ↔
          ∃ f ∈ flow :: flows, endOf j f = q := by
        intro j q
        simp [eq_comm]
      simp only [hwanted] at hall
      exact hall

/-! ### Well-formedness -/

theorem has_congr {t t' : TopologyImpl} (h : t'.ports = t.ports) (P : BlockPort → Prop) (j : Bool) (q : Port) :
    Has P t' j q ↔ Has P t j q := by
  rw [Has, Has, h]

/-- Only the ports and the subscribers matter. -/
theorem Allocates.congr {wanted : Bool → Port → Prop} {t t' r : TopologyImpl} (h : Allocates o wanted t t')
    (hports : r.ports = t'.ports) (hcommitted : r.committed = t'.committed) : Allocates o wanted t r where
  committed := hcommitted.trans h.committed
  grows j q hq := (has_congr hports _ j q).mpr (h.grows j q hq)
  only j q hq := h.only j q ((has_congr hports _ j q).mp hq)
  automatic j q := by
    have hauto : Automatic r j q ↔ Automatic t' j q := has_congr hports _ j q
    have hexists : Exists r j q ↔ Exists t' j q := has_congr hports _ j q
    rw [hauto, hexists]
    exact h.automatic j q
  names hn := by
    rw [hports]
    exact h.names hn

theorem Deletes.congr {wanted : Bool → Port → Prop} {t t' r : TopologyImpl} (h : Deletes wanted t t')
    (hports : r.ports = t'.ports) (hcommitted : r.committed = t'.committed) : Deletes wanted t r where
  committed := hcommitted.trans h.committed
  has P j q := (has_congr hports P j q).trans (h.has P j q)
  names := by
    rw [hports]
    exact h.names

theorem WellFormed.allocates {t r : TopologyImpl} {wanted : Bool → Port → Prop} (hw : WellFormed o t)
    (h : Allocates o wanted t r) (hflows : r.flows.Nodup) : WellFormed o r where
  names := h.names hw.names
  block j q hq := by
    rcases (h.automatic j q).mp hq with hq | ⟨hnew, hq⟩
    · exact hw.block j q hq
    · exact ((h.only j q hq).resolve_left hnew).2
  flows := hflows
  inSync := by
    rw [h.committed]
    exact hw.inSync
  subscribed j q hq := by
    rw [subscribers_congr h.committed] at hq
    exact h.grows j q (hw.subscribed j q hq)

theorem WellFormed.deletes {t r : TopologyImpl} {wanted : Bool → Port → Prop} (hw : WellFormed o t)
    (h : Deletes wanted t r) (hflows : r.flows.Nodup) : WellFormed o r where
  names := h.names
  block := h.block hw.block
  flows := hflows
  inSync := by
    rw [h.committed]
    exact hw.inSync
  subscribed j q hq := by
    rw [subscribers_congr h.committed] at hq
    exact (h.has _ j q).mpr ⟨hw.subscribed j q hq, fun hgone => hq hgone.2.2⟩

/-! ### Connecting -/

theorem storePortInfo_ports (t : TopologyImpl) (flow : Flow) :
    (storePortInfo o t flow).ports = t.ports ∧ (storePortInfo o t flow).committed = t.committed := by
  unfold storePortInfo
  split
  · split <;> exact ⟨rfl, rfl⟩
  · split <;> exact ⟨rfl, rfl⟩

/-- The ports of a flow that is in the list now are used. -/
theorem Alive.allocates {t r : TopologyImpl} {flow : Flow} (ha : Alive o t)
    (h : Allocates o (fun j q => q = endOf j flow) t r)
    (hflows : ∀ f, f ∈ r.flows ↔ f ∈ t.flows ∨ f = flow)
    (hends : ∀ j, (endOf j flow).uid ≠ o.self → Exists r j (endOf j flow)) : Alive o r where
  exist f hf j hne := by
    rcases (hflows f).mp hf with hf | rfl
    · exact h.grows _ _ (ha.exist f hf j hne)
    · exact hends j hne
  gone j q hauto hsubs := by
    rw [subscribers_congr h.committed] at hsubs
    rcases (h.automatic j q).mp hauto with hold | ⟨hnew, hexists⟩
    · obtain ⟨f, hf, hend⟩ := ha.gone j q hold hsubs
      exact ⟨f, (hflows f).mpr (.inl hf), hend⟩
    · exact ⟨flow, (hflows flow).mpr (.inr rfl), ((h.only j q hexists).resolve_left hnew).1.symm⟩

/-- Without a new flow, what is allocated is left over. -/
theorem alive_iff_of_stranded {t r : TopologyImpl} {flow : Flow} (hw : WellFormed o t) (ha : Alive o t)
    (h : Allocates o (fun j q => q = endOf j flow) t r) (hflows : r.flows = t.flows) :
    Alive o r ↔ ¬ ∃ j, ¬ Exists t j (endOf j flow) ∧ Exists r j (endOf j flow) := by
  constructor
  · rintro hr ⟨j, hnew, hexists⟩
    have hsubs : t.subscribers j (endOf j flow) = [] := by_contra fun hne => hnew (hw.subscribed _ _ hne)
    have hauto := (h.automatic j _).mpr (.inr ⟨hnew, hexists⟩)
    obtain ⟨f, hf, hend⟩ := hr.gone j _ hauto ((subscribers_congr h.committed _ _).trans hsubs)
    have hne := ((h.only j _ hexists).resolve_left hnew).2
    rw [hflows] at hf
    rw [← hend] at hnew hne
    exact hnew (ha.exist f hf j hne)
  · intro hnone
    refine ⟨fun f hf j hne => ?_, fun j q hauto hsubs => ?_⟩
    · rw [hflows] at hf
      exact h.grows _ _ (ha.exist f hf j hne)
    · rw [subscribers_congr h.committed] at hsubs
      rcases (h.automatic j q).mp hauto with hold | ⟨hnew, hexists⟩
      · obtain ⟨f, hf, hend⟩ := ha.gone j q hold hsubs
        exact ⟨f, hflows ▸ hf, hend⟩
      · obtain rfl := ((h.only j q hexists).resolve_left hnew).1
        exact absurd ⟨j, hnew, hexists⟩ hnone

theorem exists_of_validate {t : TopologyImpl} {flow : Flow} (h : validate o t flow = .ok ()) (j : Bool)
    (hne : (endOf j flow).uid ≠ o.self) : Exists t j (endOf j flow) := by
  rw [exists_iff]
  cases j with
  | false => exact (mem_of_validate h).1 hne
  | true => exact (mem_of_validate h).2 hne

/-- **`connect`.** -/
theorem alive_connect_iff {t : TopologyImpl} {flow : Flow} (hw : WellFormed o t) (ha : Alive o t) :
    WellFormed o (connectFlow o t flow).2 ∧ (Alive o (connectFlow o t flow).2 ↔ ¬ Strands o t flow) := by
  rcases connectFlow_cases o t flow with ⟨e, halloc, hcall⟩ | ⟨t', halloc, ⟨e, hvalid, hcall⟩ |
    ⟨hvalid, hcall⟩⟩
  · rw [hcall]
    refine ⟨hw, iff_of_true ha ?_⟩
    rintro ⟨t', halloc', -⟩
    rw [halloc] at halloc'
    cases halloc'
  · have hspec := autoAllocateFlow_spec halloc
    have hflows := (sameHierarchy_autoAllocateFlow halloc).flows
    rw [hcall]
    refine ⟨hw.allocates hspec (hflows ▸ hw.flows), ?_⟩
    rw [alive_iff_of_stranded hw ha hspec hflows]
    refine not_congr ⟨fun h => ⟨t', halloc, by rw [hvalid]; simp, h⟩, ?_⟩
    rintro ⟨t'', halloc', -, h⟩
    obtain rfl := Except.ok.inj (halloc.symm.trans halloc')
    exact h
  · have hspec := autoAllocateFlow_spec halloc
    have hflows := (sameHierarchy_autoAllocateFlow halloc).flows
    have hstore := storePortInfo_ports (o := o) t' flow
    have hnot : ¬ Strands o t flow := by
      rintro ⟨t'', halloc', hfails, -⟩
      obtain rfl := Except.ok.inj (halloc.symm.trans halloc')
      exact hfails hvalid
    have hends : ∀ {r : TopologyImpl}, r.ports = t'.ports → ∀ j, (endOf j flow).uid ≠ o.self →
        Exists r j (endOf j flow) :=
      fun hports j hne => (has_congr hports _ _ _).mpr (exists_of_validate hvalid j hne)
    rcases hcall with ⟨hin, e, hcall⟩ | ⟨hin, hcall⟩
    · rw [hcall]
      have hall := hspec.congr hstore.1 hstore.2
      have hsame : (storePortInfo o t' flow).flows = t.flows := (storePortInfo_flows t' flow).trans hflows
      refine ⟨hw.allocates hall (hsame ▸ hw.flows), iff_of_true (ha.allocates hall ?_ (hends hstore.1)) hnot⟩
      intro f
      rw [hsame]
      exact ⟨.inl, fun h => h.elim id (fun h => h ▸ hin)⟩
    · rw [hcall]
      have hall : Allocates o (fun j q => q = endOf j flow) t
          { storePortInfo o t' flow with flows := t.flows ++ [flow] } := hspec.congr hstore.1 hstore.2
      refine ⟨hw.allocates hall ?_, iff_of_true (ha.allocates hall ?_ (hends hstore.1)) hnot⟩
      · refine List.nodup_append.mpr ⟨hw.flows, List.nodup_singleton _, ?_⟩
        intro f hf g hg hfg
        rw [List.mem_singleton.mp hg] at hfg
        exact hin (hfg ▸ hf)
      · intro f
        simp

/-! ### Disconnecting -/

/-- **`disconnect`.** -/
theorem alive_disconnect_iff {t : TopologyImpl} {flow : Flow} (hw : WellFormed o t) (ha : Alive o t) :
    WellFormed o (disconnectFlow o t flow).2 ∧ (Alive o (disconnectFlow o t flow).2 ↔ ¬ Severs o t flow) := by
  rcases disconnectFlow_cases o t flow with ⟨e, hvalid, hcall⟩ | ⟨hvalid, ⟨hin, e, hcall⟩ | ⟨hin, hcall⟩⟩
  · rw [hcall]
    refine ⟨hw, iff_of_true ha ?_⟩
    rintro ⟨hok, -⟩
    rw [hvalid] at hok
    cases hok
  · rw [hcall]
    exact ⟨⟨hw.names, hw.block, hw.flows, hw.inSync, hw.subscribed⟩,
      iff_of_true ⟨ha.exist, ha.gone⟩ fun h => hin h.2.1⟩
  · rw [hcall]
    have hclear : Deletes (fun j q => q = endOf j flow) (clearPortInfo o t flow)
        (autoDelete o (autoDelete o (clearPortInfo o t flow) false flow.src) true flow.dst) :=
      autoDelete_both_spec (t := clearPortInfo o t flow) hw.names hw.block flow
    have hspec : Deletes (fun j q => q = endOf j flow) t
        { autoDelete o (autoDelete o (clearPortInfo o t flow) false flow.src) true flow.dst with
          flows := t.flows.erase flow } := ⟨hclear.committed, hclear.has, hclear.names⟩
    have hmem : ∀ f, f ∈ t.flows.erase flow ↔ f ≠ flow ∧ f ∈ t.flows := fun f => hw.flows.mem_erase_iff
    refine ⟨hw.deletes hspec (hw.flows.erase flow), ?_⟩
    constructor
    · rintro hr ⟨-, -, j, hauto, hsubs, other, hother, hne, hend⟩
      have huid : (endOf j other).uid ≠ o.self := hend ▸ hw.block j _ hauto
      have hexists := hr.exist other ((hmem other).mpr ⟨hne, hother⟩) j huid
      rw [hend] at hexists
      exact ((hspec.has _ j _).mp hexists).2 ⟨rfl, hauto, hsubs⟩
    · intro hnot
      have hsevers : ∀ j, Automatic t j (endOf j flow) → t.subscribers j (endOf j flow) = [] →
          ∀ other ∈ t.flows, other ≠ flow → endOf j other ≠ endOf j flow :=
        fun j hauto hsubs other hother hne hend =>
          hnot ⟨hvalid, hin, j, hauto, hsubs, other, hother, hne, hend⟩
      refine ⟨fun f hf j hne => ?_, fun j q hauto hsubs => ?_⟩
      · obtain ⟨hother, hf⟩ := (hmem f).mp hf
        refine (hspec.has _ j _).mpr ⟨ha.exist f hf j hne, ?_⟩
        rintro ⟨hend, hauto, hsubs⟩
        rw [hend] at hauto hsubs
        exact hsevers j hauto hsubs f hf hother hend
      · obtain ⟨hold, hkept⟩ := (hspec.has _ j q).mp hauto
        rw [subscribers_congr hspec.committed] at hsubs
        obtain ⟨f, hf, hend⟩ := ha.gone j q hold hsubs
        refine ⟨f, (hmem f).mpr ⟨?_, hf⟩, hend⟩
        rintro rfl
        exact hkept ⟨hend.symm, hold, hsubs⟩

/-- **`disconnectAll`.** -/
theorem alive_disconnectAll {t : TopologyImpl} (hw : WellFormed o t) (ha : Alive o t) :
    WellFormed o (disconnectAll o t).2 ∧ Alive o (disconnectAll o t).2 := by
  have hspec : Deletes (fun j q => ∃ flow ∈ t.flows, endOf j flow = q) t (disconnectAll o t).2 :=
    (autoDeleteFlows_spec hw.names hw.block t.flows).congr rfl rfl
  refine ⟨hw.deletes hspec List.nodup_nil, ⟨fun f hf => (by cases hf), fun j q hauto hsubs => ?_⟩⟩
  obtain ⟨hold, hkept⟩ := (hspec.has _ j q).mp hauto
  rw [subscribers_congr hspec.committed] at hsubs
  exact absurd ⟨ha.gone j q hold hsubs, hold, hsubs⟩ hkept

/-! ### Committing -/

/-- The subscribers of a port are the other ends of the active flows. -/
theorem subscribers_ne_nil_iff {t : TopologyImpl} (hs : t.committed.InSync) {j : Bool} {q : Port} :
    t.subscribers j q ≠ [] ↔ ∃ flow ∈ t.committed.activeFlatFlows, endOf j flow = q := by
  constructor
  · intro hne
    obtain ⟨x, hx⟩ := List.exists_mem_of_ne_nil _ hne
    cases j with
    | false => exact ⟨⟨q, x⟩, (hs.subscribed.subscribed (.input ⟨q, x⟩)).mp hx, rfl⟩
    | true => exact ⟨⟨x, q⟩, (hs.subscribed.subscribed (.output ⟨x, q⟩)).mp hx, rfl⟩
  · rintro ⟨flow, hflow, rfl⟩
    cases j with
    | false => exact List.ne_nil_of_mem ((hs.subscribed.subscribed (.input flow)).mpr hflow)
    | true => exact List.ne_nil_of_mem ((hs.subscribed.subscribed (.output flow)).mpr hflow)

/-- A port with subscribers is not deleted. -/
theorem autoDelete_of_subscribed {t : TopologyImpl} {isInput : Bool} {port : Port}
    (h : t.subscribers isInput port ≠ []) : autoDelete o t isInput port = t := by
  have hports : (t.ports (isInput, port.uid)).autoDeletePort port.name (t.subscribers isInput port) =
      t.ports (isInput, port.uid) := by
    unfold BlockPorts.autoDeletePort
    split
    · rfl
    · rw [if_pos h]
  unfold autoDelete
  split
  · rfl
  · simp only [hports, Function.update_eq_self]

theorem autoDeleteFlows_of_subscribed {t : TopologyImpl} {flows : List Flow}
    (h : ∀ flow ∈ flows, ∀ j, t.subscribers j (endOf j flow) ≠ []) : autoDeleteFlows o t flows = t := by
  induction flows with
  | nil => rfl
  | cons flow flows ih =>
      have hflow := h flow List.mem_cons_self
      have hsame : autoDelete o (autoDelete o t false flow.src) true flow.dst = t := by
        have hsrc : autoDelete o t false flow.src = t := autoDelete_of_subscribed (hflow false)
        have hdst : autoDelete o t true flow.dst = t := autoDelete_of_subscribed (hflow true)
        rw [hsrc, hdst]
      rw [autoDeleteFlows, List.foldl_cons, hsame]
      exact ih fun f hf => h f (List.mem_cons_of_mem flow hf)

/-- A port that exists is not allocated. -/
theorem autoAllocate_of_exists {t : TopologyImpl} {isInput : Bool} {port : Port}
    (h : Exists t isInput port) : autoAllocate o t isInput port = .ok t := by
  have hin := exists_iff.mp h
  unfold autoAllocate
  split
  · rfl
  · unfold BlockPorts.autoAllocatePort portNameToIndex
    simp only [hin, if_true]
    split_ifs
    · rfl
    · rfl
    · simp only [Function.update_eq_self]
    · simp only [Function.update_eq_self]

theorem connectRemote_of_exists {t : TopologyImpl} {flow : Flow} (h : ∀ j, Exists t j (endOf j flow)) :
    connectRemote o t flow = .ok t := by
  have halloc : autoAllocateFlow o t flow = .ok t := by
    have hsrc : autoAllocate o t false flow.src = .ok t := autoAllocate_of_exists (h false)
    have hdst : autoAllocate o t true flow.dst = .ok t := autoAllocate_of_exists (h true)
    rw [autoAllocateFlow, hsrc]
    exact hdst
  have hvalid : validate o t flow = .ok () := by
    have hsrc := exists_iff.mp (h false)
    have hdst := exists_iff.mp (h true)
    simp only [endOf, Bool.false_eq_true, if_false, if_true] at hsrc hdst
    simp only [validate, hsrc, hdst, not_true_eq_false, and_false, if_false]
  rw [connectRemote, halloc]
  show (validate o t flow >>= fun _ => .ok t) = .ok t
  rw [hvalid]
  rfl

theorem exists_of_inspectDomains {t : TopologyImpl} {flows : List Flow}
    (h : inspectDomains t flows = .ok ()) : ∀ flow ∈ flows, ∀ j, Exists t j (endOf j flow) := by
  induction flows with
  | nil =>
      intro flow hflow
      cases hflow
  | cons flow flows ih =>
      rw [inspectDomains] at h
      by_cases hsrc : Exists t false flow.src
      · by_cases hdst : Exists t true flow.dst
        · simp only [hsrc, hdst, not_true_eq_false, if_false] at h
          intro f hf j
          rcases List.mem_cons.mp hf with rfl | hf
          · cases j with
            | false => exact hsrc
            | true => exact hdst
          · exact ih h f hf j
        · simp only [hsrc, hdst, not_true_eq_false, not_false_eq_true, if_false, if_true] at h
          cases h
      · simp only [hsrc, not_false_eq_true, if_true] at h
        cases h

/-- **What a commit does to the ports**: nothing. It changes the subscribers. -/
theorem commit_inv {t r : TopologyImpl} {c : Topology.Commit} (hw : WellFormed o t)
    (h : commit b o t c = .ok r) :
    (∀ flow ∈ c.flatFlows, ∀ j, Exists t j (endOf j flow)) ∧
      ∃ committed, Topology.topologySubCommit b t.committed c = .ok committed ∧
        r = { t with committed := committed } := by
  unfold commit at h
  cases hinspect : inspectDomains t c.flatFlows with
  | error e =>
      rw [hinspect] at h
      cases h
  | ok =>
      have hexists := exists_of_inspectDomains hinspect
      have hdeleted : autoDeleteFlows o t t.committed.activeFlatFlows = t :=
        autoDeleteFlows_of_subscribed fun flow hflow j =>
          (subscribers_ne_nil_iff hw.inSync).mpr ⟨flow, hflow, rfl⟩
      have hconnected : ∀ flows : List Flow, (∀ flow ∈ flows, flow ∈ c.flatFlows) →
          flows.foldlM (connectRemote o) t = .ok t := by
        intro flows
        induction flows with
        | nil => exact fun _ => rfl
        | cons flow flows ih =>
            intro hsub
            rw [List.foldlM_cons, connectRemote_of_exists (hexists flow (hsub flow List.mem_cons_self))]
            exact ih fun f hf => hsub f (List.mem_cons_of_mem flow hf)
      rw [hinspect, hdeleted, hconnected _ fun _ h => h] at h
      have hbind : (Topology.topologySubCommit b t.committed c >>= fun committed =>
          Except.ok { t with committed := committed }) = .ok r := h
      cases hsub : Topology.topologySubCommit b t.committed c with
      | error e =>
          rw [hsub] at hbind
          cases hbind
      | ok committed =>
          rw [hsub] at hbind
          have h : Except.ok { t with committed := committed } = Except.ok r := hbind
          exact ⟨hexists, committed, rfl, (Except.ok.inj h).symm⟩

/-- **A commit.** -/
theorem alive_commit_iff {t r : TopologyImpl} {c : Topology.Commit} (hw : WellFormed o t) (ha : Alive o t)
    (hc : Carries o t c) (h : commit b o t c = .ok r) :
    WellFormed o r ∧ (Alive o r ↔ Keeps o t (.commit c)) := by
  obtain ⟨hexists, committed, hsub, rfl⟩ := commit_inv hw h
  obtain ⟨hflows, hsync, -⟩ := hw.inSync.topologySubCommit hc.admits hsub
  have hsubs : ∀ j q, ({ t with committed := committed } : TopologyImpl).subscribers j q ≠ [] ↔
      ∃ flow ∈ c.flatFlows, endOf j flow = q := by
    intro j q
    rw [← hflows]
    exact subscribers_ne_nil_iff hsync
  refine ⟨⟨hw.names, hw.block, hw.flows, hsync, fun j q hq => ?_⟩, ?_⟩
  · obtain ⟨flow, hflow, rfl⟩ := (hsubs j q).mp hq
    exact hexists flow hflow j
  · constructor
    · intro hr j q hauto hold
      by_contra hunused
      refine hunused (hr.gone j q hauto ?_)
      by_contra hnew
      obtain ⟨flow, hflow, rfl⟩ := (hsubs j q).mp hnew
      obtain ⟨f, hf, -, hend⟩ := hc.uses flow hflow j hauto
      exact hunused ⟨f, hf, hend⟩
    · intro hkeeps
      refine ⟨ha.exist, fun j q hauto _ => ?_⟩
      by_cases hold : t.subscribers j q = []
      · exact ha.gone j q hauto hold
      · exact hkeeps j q hauto hold

/-- The flat flows with copiers put in carry the flows between blocks. -/
theorem carries_of_rectify {t : TopologyImpl} {c : Topology.Commit} {copier : Bool → Port → String}
    (ha : t.committed.Admits c)
    (hc : c.flatFlows = b.rectifyDomainFlows copier (t.flows.filter (¬ Hierarchical o ·)))
    (hcopier : ∀ uid, IsCopier copier (t.flows.filter (¬ Hierarchical o ·)) uid →
      ∀ j, ¬ Automatic t j ⟨uid, "0"⟩) : Carries o t c where
  admits := ha
  uses := by
    intro flow hflow j hauto
    rw [hc] at hflow
    obtain ⟨f, hf, hcases⟩ := Blocks.mem_rectify_iff.mp hflow
    have hlist : f ∈ t.flows ∧ ¬ Hierarchical o f := by simpa using hf
    refine ⟨f, hlist.1, hlist.2, ?_⟩
    rcases hcases with ⟨-, rfl⟩ | ⟨uid, huid, rfl | rfl⟩
    · rfl
    · cases j with
      | false => rfl
      | true => exact absurd hauto (hcopier uid (Blocks.isCopier_of_copierOf hf huid) true)
    · cases j with
      | false => exact absurd hauto (hcopier uid (Blocks.isCopier_of_copierOf hf huid) false)
      | true => rfl
  used := by
    intro f hf hblocks j
    have hin : f ∈ t.flows.filter (¬ Hierarchical o ·) := by simp [hf, hblocks]
    rw [hc]
    cases huid : b.copierOf copier (t.flows.filter (¬ Hierarchical o ·)) f with
    | none => exact ⟨f, Blocks.mem_rectify_iff.mpr ⟨f, hin, .inl ⟨huid, rfl⟩⟩, rfl⟩
    | some uid =>
        cases j with
        | false => exact ⟨_, Blocks.mem_rectify_iff.mpr ⟨f, hin, .inr ⟨uid, huid, .inl rfl⟩⟩, rfl⟩
        | true => exact ⟨_, Blocks.mem_rectify_iff.mpr ⟨f, hin, .inr ⟨uid, huid, .inr rfl⟩⟩, rfl⟩

/-! ### Runs -/

/-- **One step.** -/
theorem alive_step_iff {t t' : TopologyImpl} {m : Move} (hw : WellFormed o t) (ha : Alive o t)
    (h : moves b o t m t') : WellFormed o t' ∧ (Alive o t' ↔ Keeps o t m) := by
  cases m with
  | call c =>
      obtain rfl : (call o t c).2 = t' := h
      cases c with
      | connect src srcName dst dstName =>
          show WellFormed o (connect o t src srcName dst dstName).2 ∧ _
          simp only [Keeps, call]
          unfold connect
          cases hflow : Objects.makeFlow "Pothos::Topology::connect()" src srcName dst dstName with
          | error e =>
              simp only [reduceCtorEq, false_implies, implies_true, iff_true]
              exact ⟨hw, ha⟩
          | ok flow =>
              simp only [Except.ok.injEq, forall_eq']
              exact alive_connect_iff hw ha
      | disconnect src srcName dst dstName =>
          show WellFormed o (disconnect o t src srcName dst dstName).2 ∧ _
          simp only [Keeps, call]
          unfold disconnect
          cases hflow : Objects.makeFlow "Pothos::Topology::disconnect()" src srcName dst dstName with
          | error e =>
              simp only [reduceCtorEq, false_implies, implies_true, iff_true]
              exact ⟨hw, ha⟩
          | ok flow =>
              simp only [Except.ok.injEq, forall_eq']
              exact alive_disconnect_iff hw ha
      | disconnectAll =>
          obtain ⟨hw', ha'⟩ := alive_disconnectAll hw ha
          exact ⟨hw', iff_of_true ha' trivial⟩
  | commit c => exact alive_commit_iff hw ha h.1 h.2

/-- The ports that blocks set up themselves: every name once, and none automatic. -/
def SetUp (ports : Bool × String → BlockPorts) : Prop :=
  ∀ key, (ports key).portNames.Nodup ∧ ∀ p ∈ (ports key).ports, p.automatic = false

theorem wellFormed_start {ports : Bool × String → BlockPorts} (h : SetUp ports) :
    WellFormed o (start ports) ∧ Alive o (start ports) := by
  have hnone : ∀ j q, ¬ Automatic (start ports) j q := by
    rintro j q ⟨p, hp, -, hauto⟩
    rw [(h _).2 p hp] at hauto
    cases hauto
  have hsubs : ∀ j q, (start ports).subscribers j q = [] := fun j q => by cases j <;> rfl
  refine ⟨⟨fun key => (h key).1, fun j q hq => absurd hq (hnone j q), List.nodup_nil, Topology.InSync.start,
    fun j q hq => absurd (hsubs j q) hq⟩, ⟨fun f hf => (by cases hf), fun j q hq => absurd hq (hnone j q)⟩⟩

/-- A `connect` that returns strands no port. -/
theorem keeps_of_returns {t : TopologyImpl} {flow : Flow} (h : (call o t (.connectFlow flow)).1 = .ok ()) :
    Keeps o t (.call (.connectFlow flow)) := by
  rintro flow' hflow ⟨t', halloc, hfails, -⟩
  obtain rfl : flow = flow' := Except.ok.inj hflow
  rcases connectFlow_cases o t flow with ⟨e, -, hcall⟩ | ⟨t'', halloc', ⟨e, -, hcall⟩ | ⟨hvalid, -⟩⟩
  · have hcall : (call o t (.connectFlow flow)).1 = .error e := congrArg Prod.fst hcall
    rw [hcall] at h
    cases h
  · have hcall : (call o t (.connectFlow flow)).1 = .error e := congrArg Prod.fst hcall
    rw [hcall] at h
    cases h
  · obtain rfl := Except.ok.inj (halloc.symm.trans halloc')
    exact hfails hvalid

/-- Blocks `s` and `x` have an output, block `d` has an input. -/
def manyIOs (key : Bool × String) : BlockPorts :=
  if key = (false, "s") ∨ key = (false, "x") ∨ key = (true, "d") then
    ⟨[⟨"0", some 0, false, DType.unspecified, "", false⟩], fun i => if i = 0 then some "0" else none⟩
  else ⟨[], fun _ => none⟩

theorem setUp_manyIOs : SetUp manyIOs := by
  intro key
  unfold manyIOs
  split <;> simp [BlockPorts.portNames]

theorem eq_ok_of_isSome {ε α : Type} {r : Except ε α} (d : α) (h : r.toOption.isSome = true) :
    r = .ok (r.toOption.getD d) := by
  cases r with
  | error e => cases h
  | ok a => rfl

theorem returned_of_isSome {ε : Type} {r : Except ε Unit} (h : r.toOption.isSome = true) : r = .ok () :=
  eq_ok_of_isSome () h

end TopologyImpl

end PothosCore.Framework

import PothosCore.Framework.TopologyDomainFlows
import PothosCore.Framework.TopologyNetgress

/-!
# PothosCore.Framework.TopologyInsertedBlocks

Network blocks and copiers do not change who is connected to whom.

Copiers and network blocks are dealt with one after the other (`Joined.or_iff`). A
copier is shared by the flows of one port, so what enters it from a source leaves it to
a destination of a flow between the two. Network blocks are shared by the flows of one
key, and a key tells the source and the process: the arrow in it is the last one, for
there is none in the name of a process.
-/

namespace PothosCore.Framework

open PothosCore.Lib

/-! ### Copiers -/

theorem mem_pushNew {flows : List Flow} {flow x : Flow} : x ∈ pushNew flows flow ↔ x ∈ flows ∨ x = flow := by
  unfold pushNew
  split
  next h => exact ⟨.inl, fun hx => hx.elim id (fun hx => hx ▸ h)⟩
  next => simp

theorem nodup_pushNew {flows : List Flow} (h : flows.Nodup) (flow : Flow) : (pushNew flows flow).Nodup := by
  unfold pushNew
  split
  next => exact h
  next hnew =>
    refine List.nodup_append.mpr ⟨h, List.nodup_singleton _, ?_⟩
    intro a ha c hc hac
    rw [List.mem_singleton.mp hc] at hac
    exact hnew (hac ▸ ha)

/-- The names of the copiers that the flows may need. -/
def copierNames (copier : Bool → Port → String) (flows : List Flow) : List String :=
  (flows.map (·.dst)).dedup.map (copier true) ++ (flows.map (·.src)).dedup.map (copier false)

/-- A uid is one of the names. -/
def IsCopier (copier : Bool → Port → String) (flows : List Flow) (uid : String) : Prop :=
  uid ∈ copierNames copier flows

theorem isCopier_dst {copier : Bool → Port → String} {flows : List Flow} {flow : Flow} (h : flow ∈ flows) :
    IsCopier copier flows (copier true flow.dst) :=
  List.mem_append_left _ (List.mem_map_of_mem (List.mem_dedup.mpr (List.mem_map_of_mem h)))

theorem isCopier_src {copier : Bool → Port → String} {flows : List Flow} {flow : Flow} (h : flow ∈ flows) :
    IsCopier copier flows (copier false flow.src) :=
  List.mem_append_right _ (List.mem_map_of_mem (List.mem_dedup.mpr (List.mem_map_of_mem h)))

/-- The names of the copiers differ, and no block of the flows has one. -/
structure CopierNames (copier : Bool → Port → String) (flows : List Flow) : Prop where
  nodup : (copierNames copier flows).Nodup
  new : ∀ flow ∈ flows, ¬ IsCopier copier flows flow.src.uid ∧ ¬ IsCopier copier flows flow.dst.uid

namespace CopierNames

variable {copier : Bool → Port → String} {flows : List Flow} (h : CopierNames copier flows)
include h

theorem dst_inj {f g : Flow} (hf : f ∈ flows) (hg : g ∈ flows)
    (heq : copier true f.dst = copier true g.dst) : f.dst = g.dst :=
  List.inj_on_of_nodup_map (List.nodup_append.mp h.nodup).1
    (List.mem_dedup.mpr (List.mem_map_of_mem hf)) (List.mem_dedup.mpr (List.mem_map_of_mem hg)) heq

theorem src_inj {f g : Flow} (hf : f ∈ flows) (hg : g ∈ flows)
    (heq : copier false f.src = copier false g.src) : f.src = g.src :=
  List.inj_on_of_nodup_map (List.nodup_append.mp h.nodup).2.1
    (List.mem_dedup.mpr (List.mem_map_of_mem hf)) (List.mem_dedup.mpr (List.mem_map_of_mem hg)) heq

theorem dst_ne_src {f g : Flow} (hf : f ∈ flows) (hg : g ∈ flows) :
    copier true f.dst ≠ copier false g.src :=
  (List.nodup_append.mp h.nodup).2.2 _ (List.mem_map_of_mem (List.mem_dedup.mpr (List.mem_map_of_mem hf)))
    _ (List.mem_map_of_mem (List.mem_dedup.mpr (List.mem_map_of_mem hg)))

end CopierNames

namespace Blocks

variable {b : Blocks} {copier : Bool → Port → String} {flatFlows : List Flow}

/-- What a flow is replaced by. -/
def replaced (b : Blocks) (copier : Bool → Port → String) (flatFlows : List Flow) (flow : Flow) :
    List Flow :=
  match b.copierOf copier flatFlows flow with
  | some copier => [⟨flow.src, ⟨copier, "0"⟩⟩, ⟨⟨copier, "0"⟩, flow.dst⟩]
  | none => [flow]

theorem mem_rectifyFlow {domainSafeFlows : List Flow} {flow x : Flow} :
    x ∈ b.rectifyFlow copier flatFlows domainSafeFlows flow ↔
      x ∈ domainSafeFlows ∨ x ∈ b.replaced copier flatFlows flow := by
  unfold rectifyFlow replaced
  cases b.copierOf copier flatFlows flow with
  | none => simp
  | some c => simp [mem_pushNew, or_assoc]

theorem mem_rectify_foldl {flows domainSafeFlows : List Flow} {x : Flow} :
    x ∈ flows.foldl (b.rectifyFlow copier flatFlows) domainSafeFlows ↔
      x ∈ domainSafeFlows ∨ ∃ flow ∈ flows, x ∈ b.replaced copier flatFlows flow := by
  induction flows generalizing domainSafeFlows with
  | nil => simp
  | cons flow flows ih => simp [ih, mem_rectifyFlow, or_assoc]

theorem mem_rectifyDomainFlows {x : Flow} :
    x ∈ b.rectifyDomainFlows copier flatFlows ↔
      ∃ flow ∈ flatFlows, x ∈ b.replaced copier flatFlows flow := by
  simp [rectifyDomainFlows, mem_rectify_foldl]

/-- A copier in a flow is that of its destination or that of its source. -/
theorem copierOf_eq {flow : Flow} {c : String} (h : b.copierOf copier flatFlows flow = some c) :
    c = copier true flow.dst ∨ c = copier false flow.src := by
  unfold copierOf at h
  split at h
  next => exact .inl (Option.some.inj h).symm
  next =>
    split at h
    next => exact .inr (Option.some.inj h).symm
    next => cases h

theorem isCopier_of_copierOf {flow : Flow} (hflow : flow ∈ flatFlows) {c : String}
    (h : b.copierOf copier flatFlows flow = some c) : IsCopier copier flatFlows c := by
  rcases copierOf_eq h with rfl | rfl
  · exact isCopier_dst hflow
  · exact isCopier_src hflow

/-- The flows that are still to come are new, since no copier is one of their blocks. -/
theorem nodup_rectify_foldl (h : CopierNames copier flatFlows) {flows domainSafeFlows : List Flow}
    (hsub : ∀ flow ∈ flows, flow ∈ flatFlows) (hflows : flows.Nodup) (hsafe : domainSafeFlows.Nodup)
    (hnew : ∀ flow ∈ flows, flow ∉ domainSafeFlows) :
    (flows.foldl (b.rectifyFlow copier flatFlows) domainSafeFlows).Nodup := by
  induction flows generalizing domainSafeFlows with
  | nil => exact hsafe
  | cons flow flows ih =>
      obtain ⟨hflow, hflows⟩ := List.nodup_cons.mp hflows
      have hin := hsub flow List.mem_cons_self
      refine ih (fun f hf => hsub f (List.mem_cons_of_mem _ hf)) hflows ?_ ?_
      · unfold rectifyFlow
        split
        next => exact nodup_pushNew (nodup_pushNew hsafe _) _
        next =>
          refine List.nodup_append.mpr ⟨hsafe, List.nodup_singleton _, ?_⟩
          intro x hx y hy hxy
          rw [List.mem_singleton.mp hy] at hxy
          exact hnew flow List.mem_cons_self (hxy ▸ hx)
      · intro f hf hmem
        rcases mem_rectifyFlow.mp hmem with hmem | hmem
        · exact hnew f (List.mem_cons_of_mem _ hf) hmem
        · have hends := h.new f (hsub f (List.mem_cons_of_mem _ hf))
          unfold replaced at hmem
          split at hmem
          next c hc =>
            have hcopier := isCopier_of_copierOf hin hc
            simp only [List.mem_cons, List.not_mem_nil, or_false] at hmem
            rcases hmem with rfl | rfl
            · exact hends.2 hcopier
            · exact hends.1 hcopier
          next => exact hflow (List.mem_singleton.mp hmem ▸ hf)

theorem nodup_rectifyDomainFlows (h : CopierNames copier flatFlows) (hflows : flatFlows.Nodup) :
    (b.rectifyDomainFlows copier flatFlows).Nodup :=
  nodup_rectify_foldl h (fun _ hf => hf) hflows List.nodup_nil (fun _ _ => List.not_mem_nil)

/-- **What the flows are after the copiers went in.** -/
theorem mem_rectify_iff {x : Flow} :
    x ∈ b.rectifyDomainFlows copier flatFlows ↔
      ∃ flow ∈ flatFlows, (b.copierOf copier flatFlows flow = none ∧ x = flow) ∨
        ∃ c, b.copierOf copier flatFlows flow = some c ∧
          (x = ⟨flow.src, ⟨c, "0"⟩⟩ ∨ x = ⟨⟨c, "0"⟩, flow.dst⟩) := by
  rw [mem_rectifyDomainFlows]
  refine exists_congr fun flow => and_congr_right fun _ => ?_
  unfold replaced
  cases b.copierOf copier flatFlows flow <;> simp

/-- A flow from a block of the flows into a copier. -/
theorem of_edge_into (h : CopierNames copier flatFlows) {p x : Port} (hp : ¬ IsCopier copier flatFlows p.uid)
    (hx : IsCopier copier flatFlows x.uid) (hedge : edges (b.rectifyDomainFlows copier flatFlows) p x) :
    ∃ flow ∈ flatFlows, b.copierOf copier flatFlows flow = some x.uid ∧ flow.src = p := by
  obtain ⟨flow, hflow, ⟨-, heq⟩ | ⟨c, hc, heq | heq⟩⟩ := mem_rectify_iff.mp hedge
  · cases heq
    exact absurd hx (h.new _ hflow).2
  · cases heq
    exact ⟨flow, hflow, hc, rfl⟩
  · cases heq
    exact absurd (isCopier_of_copierOf hflow hc) hp

/-- A flow out of a copier. -/
theorem of_edge_out (h : CopierNames copier flatFlows) {x q : Port} (hx : IsCopier copier flatFlows x.uid)
    (hedge : edges (b.rectifyDomainFlows copier flatFlows) x q) :
    ∃ flow ∈ flatFlows, b.copierOf copier flatFlows flow = some x.uid ∧ flow.dst = q := by
  obtain ⟨flow, hflow, ⟨-, heq⟩ | ⟨c, hc, heq | heq⟩⟩ := mem_rectify_iff.mp hedge
  · cases heq
    exact absurd hx (h.new _ hflow).1
  · cases heq
    exact absurd hx (h.new _ hflow).1
  · cases heq
    exact ⟨flow, hflow, hc, rfl⟩

/-- Two flows that share a copier share the port it belongs to, so the flow from the
source of one to the destination of the other is one of them. -/
theorem flow_of_copierOf_eq (h : CopierNames copier flatFlows) {f g : Flow} (hf : f ∈ flatFlows)
    (hg : g ∈ flatFlows) {c : String} (hfc : b.copierOf copier flatFlows f = some c)
    (hgc : b.copierOf copier flatFlows g = some c) : (⟨f.src, g.dst⟩ : Flow) ∈ flatFlows := by
  rcases copierOf_eq hfc with hf' | hf' <;> rcases copierOf_eq hgc with hg' | hg'
  · rw [← h.dst_inj hf hg (hf'.symm.trans hg')]
    exact hf
  · exact absurd (hf'.symm.trans hg') (h.dst_ne_src hf hg)
  · exact absurd (hg'.symm.trans hf') (h.dst_ne_src hg hf)
  · rw [h.src_inj hf hg (hf'.symm.trans hg')]
    exact hg

/-- Through a copier. -/
def ThroughCopier (copier : Bool → Port → String) (flatFlows : List Flow) (a b : Port) : Prop :=
  a = b ∧ IsCopier copier flatFlows a.uid

/-- **Copiers connect what was connected.** -/
theorem joined_copiers_iff (h : CopierNames copier flatFlows) {p q : Port}
    (hp : ¬ IsCopier copier flatFlows p.uid) (hq : ¬ IsCopier copier flatFlows q.uid) :
    Joined (ThroughCopier copier flatFlows) (edges (b.rectifyDomainFlows copier flatFlows)) p q ↔
      edges flatFlows p q := by
  constructor
  · intro hpath
    -- the path is a flow, or goes through one copier
    cases hpath with
    | direct hedge =>
        obtain ⟨flow, hflow, ⟨-, heq⟩ | ⟨c, hc, heq | heq⟩⟩ := mem_rectify_iff.mp hedge
        · rw [← heq] at hflow
          exact hflow
        · cases heq
          exact absurd (isCopier_of_copierOf hflow hc) hq
        · cases heq
          exact absurd (isCopier_of_copierOf hflow hc) hp
    | through hedge ht hrest =>
        obtain ⟨rfl, hx⟩ := ht
        obtain ⟨f, hf, hfc, rfl⟩ := of_edge_into h hp hx hedge
        cases hrest with
        | direct hout =>
            obtain ⟨g, hg, hgc, rfl⟩ := of_edge_out h hx hout
            exact flow_of_copierOf_eq h hf hg hfc hgc
        | through hout ht _ =>
            obtain ⟨g, hg, -, rfl⟩ := of_edge_out h hx hout
            exact absurd ht.2 (h.new g hg).2
  · intro hedge
    cases hc : b.copierOf copier flatFlows ⟨p, q⟩ with
    | none => exact .direct (mem_rectify_iff.mpr ⟨_, hedge, .inl ⟨hc, rfl⟩⟩)
    | some c =>
        have hin : edges (b.rectifyDomainFlows copier flatFlows) p ⟨c, "0"⟩ :=
          mem_rectify_iff.mpr ⟨_, hedge, .inr ⟨c, hc, .inl rfl⟩⟩
        have hout : edges (b.rectifyDomainFlows copier flatFlows) ⟨c, "0"⟩ q :=
          mem_rectify_iff.mpr ⟨_, hedge, .inr ⟨c, hc, .inr rfl⟩⟩
        exact .through hin ⟨rfl, isCopier_of_copierOf hedge hc⟩ (.direct hout)

end Blocks

/-! ### Both -/

/-- A path goes on through an inserted block: a copier, or a pair of network blocks. -/
def ThroughInserted (copier : Bool → Port → String) (flatFlows : List Flow) (t : Netgress)
    (a b : Port) : Prop :=
  Blocks.ThroughCopier copier flatFlows a b ∨ Netgress.ThroughNet t a b

/-- New names are names for copiers. -/
theorem copierNames_of_fresh {copier : Bool → Port → String} {flows : List Flow} {t : Netgress}
    (hfresh : t.Fresh (copierNames copier flows))
    (hends : ∀ flow ∈ flows, (flow.src.uid ∈ t.user ∨ flow.src.uid ∈ t.inserted) ∧
      (flow.dst.uid ∈ t.user ∨ flow.dst.uid ∈ t.inserted)) : CopierNames copier flows where
  nodup := hfresh.1
  new := by
    intro flow hflow
    refine ⟨fun h => ?_, fun h => ?_⟩
    · exact (hends flow hflow).1.elim (hfresh.2 _ h).1 (hfresh.2 _ h).2
    · exact (hends flow hflow).2.elim (hfresh.2 _ h).1 (hfresh.2 _ h).2

/-- **Inserting network and domain blocks keeps the connections.** For the flows of any
commit, after any earlier ones: `createNetworkFlows` returns flows that cross no process
and that differ; and whatever the domain checks say, the flows of `rectifyDomainFlows`
differ, and join the ports of the user's blocks that a flow connects, and no others. -/
theorem inserted_blocks_keep_flows {local' : UniquePid → Bool} {here : UniquePid} {s : Netgress}
    (hs : Netgress.Reachable local' here s) {flatFlows : List Flow} {keys : List Port}
    {fresh : Port → NetBlocks} (hadmits : s.Admits flatFlows keys fresh) :
    ∃ netFlows t, s.createNetworkFlows local' fresh flatFlows keys = .ok (netFlows, t) ∧
      (∀ flow ∈ netFlows, t.SameProcess flow) ∧ netFlows.Nodup ∧
      ∀ (b : Blocks) (copier : Bool → Port → String), t.Fresh (copierNames copier netFlows) →
        (b.rectifyDomainFlows copier netFlows).Nodup ∧
        ∀ p q : Port, p.uid ∈ s.user → q.uid ∈ s.user →
          (Joined (ThroughInserted copier netFlows t) (edges (b.rectifyDomainFlows copier netFlows)) p q ↔
            (⟨p, q⟩ : Flow) ∈ flatFlows) := by
  obtain ⟨t, hrun, ht, hcache⟩ := Netgress.createNetworkFlows_ok hs.wellFormed hadmits
  have hnodup := Netgress.nodup_networkAware hadmits ht
  have hends := fun flow (h : flow ∈ _) => Netgress.ends_networkAware hadmits ht h
  refine ⟨_, t, hrun, fun flow h => Netgress.sameProcess_networkAware hadmits ht h, hnodup, ?_⟩
  intro b copier hfresh
  have hcopier := copierNames_of_fresh hfresh hends
  refine ⟨Blocks.nodup_rectifyDomainFlows hcopier hnodup, ?_⟩
  intro p q hp hq
  -- the ports that are on no copier
  let good : Port → Prop := fun a => ¬ IsCopier copier (s.networkAware t flatFlows keys) a.uid
  have hold : ∀ a : Port, a.uid ∈ t.user ∨ a.uid ∈ t.inserted → good a :=
    fun a ha h => ha.elim (hfresh.2 _ h).1 (hfresh.2 _ h).2
  have hgood : ∀ a : Port, a.uid ∈ s.user → good a := fun a ha => hold a (.inl (ht.grows.user _ ha))
  have hnet : ∀ a c, Netgress.ThroughNet t a c → good a ∧ good c := by
    rintro a c ⟨key, blocks, hblocks, rfl, rfl⟩
    have hcached := ht.wellFormed.cached key blocks hblocks
    exact ⟨hold _ (.inr hcached.sink_mem), hold _ (.inr hcached.source_mem)⟩
  have hedges : ∀ a c, good a → good c →
      (Joined (Blocks.ThroughCopier copier (s.networkAware t flatFlows keys))
        (edges (b.rectifyDomainFlows copier (s.networkAware t flatFlows keys))) a c ↔
          edges (s.networkAware t flatFlows keys) a c) :=
    fun a c ha hc => Blocks.joined_copiers_iff hcopier ha hc
  have hboth := Netgress.joined_net_iff hadmits ht hcache hp hq
  refine Joined.or_iff.trans (Iff.trans ⟨?_, ?_⟩ hboth)
  · exact Joined.congr_on (fun a c ha hc => (hedges a c ha hc).mp) hnet (hgood p hp) (hgood q hq)
  · exact Joined.congr_on (fun a c ha hc => (hedges a c ha hc).mpr) hnet (hgood p hp) (hgood q hq)

/-- A second commit, with a flow of the first and a new one from the same port into the
same process: the cached network blocks serve both. -/
theorem inserted_blocks_keep_flows_cached :
    ∃ (here : UniquePid) (s : Netgress) (fresh : Port → NetBlocks) (netFlows : List Flow) (t : Netgress),
      Netgress.Reachable (fun _ => false) here s ∧
      s.createNetworkFlows (fun _ => false) fresh
        [⟨⟨"a", "0"⟩, ⟨"b", "0"⟩⟩, ⟨⟨"a", "0"⟩, ⟨"c", "0"⟩⟩] [⟨"a", "0->h/n/2"⟩] = .ok (netFlows, t) ∧
      s.srcToNetgressCache ⟨"a", "0->h/n/2"⟩ = some ⟨"from", "to"⟩ ∧ netFlows.Nodup := by
  let here : UniquePid := ⟨"h/n/1", by decide⟩
  let there : UniquePid := ⟨"h/n/2", by decide⟩
  let fresh : Port → NetBlocks := fun _ => ⟨"from", "to"⟩
  have ha := Netgress.Reachable.step (.start : Netgress.Reachable (fun _ => false) here _)
    (.newBlock _ "a" here (by decide))
  have hb := ha.step (.newBlock _ "b" there (by decide))
  have hc := hb.step (.newBlock _ "c" there (by decide))
  have hfirst := hc.step (.load _ [⟨⟨"a", "0"⟩, ⟨"b", "0"⟩⟩] [⟨"a", "0->h/n/2"⟩] [⟨"a", "0->h/n/2"⟩] fresh
    ⟨by decide, by decide, by decide +kernel, by decide +kernel⟩ (by decide +kernel))
  have hcommit := fun (s : Netgress) (hs : Netgress.Reachable (fun _ => false) here s)
      (hadmits : s.Admits [⟨⟨"a", "0"⟩, ⟨"b", "0"⟩⟩, ⟨⟨"a", "0"⟩, ⟨"c", "0"⟩⟩]
        [⟨"a", "0->h/n/2"⟩] fresh) => inserted_blocks_keep_flows hs hadmits
  obtain ⟨netFlows, t, hrun, -, hnodup, -⟩ :=
    hcommit _ hfirst ⟨by decide, by decide, by decide +kernel, by decide +kernel⟩
  exact ⟨here, _, fresh, netFlows, t, hfirst, hrun, by decide +kernel, hnodup⟩

end PothosCore.Framework

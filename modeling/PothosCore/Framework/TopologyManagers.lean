import PothosCore.Framework.TopologySubscriptions

/-!
# PothosCore.Framework.TopologyManagers

Which buffer manager a source has after a run of commits.

`Chosen` is what the choice should be: it looks at all active destinations of the
source. `installBufferManagers` looks at the first of those that were added by the
last commit, and at no source that gained none. `Steady` says when that makes no
difference, in the state before the commit; it is exact.
-/

namespace PothosCore.Framework

open PothosCore.Lib

namespace Topology

variable (b : Blocks)

/-- The manager `m` is the right one for `src` among the active flows: its own if it
has one for the destinations' domain, otherwise that of a destination which has
one, otherwise a generic one. -/
def Chosen (active : List Flow) (src : Port) (m : Manager) : Prop :=
  (∃ flow ∈ active, flow.src = src ∧
      b.getBufferMode src (b.domain flow.dst true) false = .custom ∧
      m = .ofBlock false src (b.domain flow.dst true)) ∨
    (∀ flow ∈ active, flow.src = src →
      b.getBufferMode src (b.domain flow.dst true) false ≠ .custom) ∧
    ((∃ flow ∈ active, flow.src = src ∧
        b.getBufferMode flow.dst (b.domain src false) true = .custom ∧
        m = .ofBlock true flow.dst (b.domain src false)) ∨
      (∀ flow ∈ active, flow.src = src →
        b.getBufferMode flow.dst (b.domain src false) true ≠ .custom) ∧ m = .generic)

/-- Every source with an active flow has the manager it should have. -/
def Agrees (t : Topology) : Prop :=
  ∀ flow ∈ t.activeFlatFlows, ∃ m, t.bufferManager flow.src = some m ∧
    Chosen b t.activeFlatFlows flow.src m

/-- Looking at the destination `first` only gives the right choice for `src`: the
source has a manager of its own for its domain, or `first` has one, or none of
the destinations does and the source abdicates as any port without a manager. -/
def Suits (active : List Flow) (src first : Port) : Prop :=
  b.getBufferMode src (b.domain first true) false = .custom ∨
    (∀ flow ∈ active, flow.src = src →
      b.getBufferMode src (b.domain flow.dst true) false ≠ .custom) ∧
    (b.getBufferMode first (b.domain src false) true = .custom ∨
      (∀ flow ∈ active, flow.src = src →
        b.getBufferMode flow.dst (b.domain src false) true ≠ .custom) ∧
      b.overload false src (b.domain first true) ≠ .manager)

/-- The manager installed for `src` does not belong to the destination `old` that is
given up, nor to the source for a domain that only `old` was in. -/
def Outlives (active : List Flow) (manager : Option Manager) (src old : Port) : Prop :=
  manager ≠ some (.ofBlock true old (b.domain src false)) ∧
    (manager = some (.ofBlock false src (b.domain old true)) →
      ∃ flow ∈ active, flow.src = src ∧ b.domain flow.dst true = b.domain old true)

/-- The condition on a commit, for the sources it leaves active: the first
destination added to a source suits all of them; and where none is added, the
manager does not go with a destination that is given up. -/
def Steady (t : Topology) (flatFlows : List Flow) : Prop :=
  ∀ flow ∈ flatFlows,
    match (Blocks.dstsOf (t.newFlows flatFlows) flow.src).head? with
    | some first => Suits b flatFlows flow.src first
    | none => ∀ old ∈ t.oldFlows flatFlows, old.src = flow.src →
        Outlives b flatFlows (t.bufferManager flow.src) flow.src old.dst

instance (active : List Flow) (src first : Port) : Decidable (Suits b active src first) := by
  unfold Suits; infer_instance

instance (active : List Flow) (manager : Option Manager) (src old : Port) :
    Decidable (Outlives b active manager src old) := by
  unfold Outlives; infer_instance

instance (t : Topology) (flatFlows : List Flow) : Decidable (Steady b t flatFlows) := by
  unfold Steady
  refine @List.decidableBAll _ _ (fun flow => ?_) flatFlows
  cases (Blocks.dstsOf (t.newFlows flatFlows) flow.src).head? <;> infer_instance

/-! ### The choice for one source -/

section
variable {b}

theorem mem_dstsOf {flows : List Flow} {src dst : Port} :
    dst ∈ Blocks.dstsOf flows src ↔ ⟨src, dst⟩ ∈ flows := by
  simp only [Blocks.dstsOf, List.mem_flatMap]
  constructor
  · rintro ⟨flow, hflow, hdst⟩
    split at hdst
    · obtain ⟨⟨s, d⟩, hmem, rfl⟩ := List.mem_map.mp hdst
      obtain ⟨hf, hs⟩ := List.mem_filter.mp hmem
      obtain rfl : s = src := by simpa using hs
      exact hf
    · cases hdst
  · intro hflow
    refine ⟨⟨src, dst⟩, hflow, ?_⟩
    rw [if_pos rfl]
    exact List.mem_map.mpr ⟨⟨src, dst⟩, List.mem_filter.mpr ⟨hflow, by simp⟩, rfl⟩

theorem overload_of_custom {port : Port} {domain : String} {isInput : Bool}
    (hm : b.getBufferMode port domain isInput = .custom) :
    b.overload isInput port domain = .manager := by
  unfold Blocks.getBufferMode at hm
  split at hm
  · cases hm
  · split at hm
    · cases hm
    · cases ho : b.overload isInput port domain with
      | manager => rfl
      | null => rw [ho] at hm; cases hm
      | domainError => rw [ho] at hm; cases hm

/-- A custom port provides its own manager. -/
theorem getBufferManager_of_custom {port : Port} {domain : String} {isInput : Bool}
    (hm : b.getBufferMode port domain isInput = .custom) :
    b.getBufferManager port domain isInput = .ok (.ofBlock isInput port domain) := by
  rw [Blocks.getBufferManager, overload_of_custom hm]

theorem getBufferManager_cases {port : Port} {domain : String} {isInput : Bool} {m : Manager}
    (hm : b.getBufferManager port domain isInput = .ok m) :
    (b.overload isInput port domain = .manager ∧ m = .ofBlock isInput port domain) ∨
      (b.overload isInput port domain ≠ .manager ∧ m = .generic) := by
  unfold Blocks.getBufferManager at hm
  split at hm
  · next ho => exact .inl ⟨ho, (Except.ok.inj hm).symm⟩
  · next ho => exact .inr ⟨by rw [ho]; decide, (Except.ok.inj hm).symm⟩
  · cases hm

/-- The manager for a source: the first destination decides. -/
theorem chooseManager_inv {src first : Port} {dsts : List Port} {m : Manager}
    (hc : b.chooseManager src (first :: dsts) = .ok m) :
    (b.getBufferMode src (b.domain first true) false = .custom ∧
      m = .ofBlock false src (b.domain first true)) ∨
    b.getBufferMode src (b.domain first true) false ≠ .custom ∧
    ((b.getBufferMode first (b.domain src false) true = .custom ∧
        m = .ofBlock true first (b.domain src false)) ∨
      b.getBufferMode first (b.domain src false) true ≠ .custom ∧
        b.getBufferManager src (b.domain first true) false = .ok m) := by
  simp only [Blocks.chooseManager] at hc
  by_cases hsrc : b.getBufferMode src (b.domain first true) false = .custom
  · rw [if_pos hsrc, getBufferManager_of_custom hsrc] at hc
    exact .inl ⟨hsrc, (Except.ok.inj hc).symm⟩
  · refine .inr ⟨hsrc, ?_⟩
    rw [if_neg hsrc] at hc
    by_cases hdst : b.getBufferMode first (b.domain src false) true = .custom
    · rw [if_pos hdst, getBufferManager_of_custom hdst] at hc
      split at hc
      · cases hc
      · exact .inl ⟨hdst, (Except.ok.inj hc).symm⟩
    · rw [if_neg hdst] at hc
      refine .inr ⟨hdst, ?_⟩
      split at hc
      · cases hc
      · split at hc
        · cases hc
        · exact hc

/-- **The choice by the first destination is right exactly if it suits.** -/
theorem chosen_iff_suits {active : List Flow} {src first : Port} {dsts : List Port} {m : Manager}
    (hfirst : ⟨src, first⟩ ∈ active) (hc : b.chooseManager src (first :: dsts) = .ok m) :
    Chosen b active src m ↔ Suits b active src first := by
  rcases chooseManager_inv hc with ⟨hsrc, rfl⟩ | ⟨hsrc, ⟨hdst, rfl⟩ | ⟨hdst, hm⟩⟩
  · exact ⟨fun _ => .inl hsrc, fun _ => .inl ⟨_, hfirst, rfl, hsrc, rfl⟩⟩
  · constructor
    · rintro (⟨flow, -, -, -, hm⟩ | ⟨hnone, -⟩)
      · cases hm
      · exact .inr ⟨hnone, .inl hdst⟩
    · rintro (hs | ⟨hnone, -⟩)
      · exact absurd hs hsrc
      · exact .inr ⟨hnone, .inl ⟨_, hfirst, rfl, hdst, rfl⟩⟩
  · rcases getBufferManager_cases hm with ⟨ho, rfl⟩ | ⟨ho, rfl⟩
    · -- the block has a manager for a signal
      constructor
      · rintro (⟨flow, -, -, hs, hm⟩ | ⟨-, ⟨flow, -, -, -, hm⟩ | ⟨-, hm⟩⟩)
        · injection hm with _ _ hd
          exact absurd (hd ▸ hs) hsrc
        · cases hm
        · cases hm
      · rintro (hs | ⟨-, hd | ⟨-, hn⟩⟩)
        · exact absurd hs hsrc
        · exact absurd hd hdst
        · exact absurd ho hn
    · constructor
      · rintro (⟨flow, -, -, -, hm⟩ | ⟨hnone, ⟨flow, -, -, -, hm⟩ | ⟨hall, -⟩⟩)
        · cases hm
        · cases hm
        · exact .inr ⟨hnone, .inr ⟨hall, ho⟩⟩
      · rintro (hs | ⟨hnone, hd | ⟨hall, -⟩⟩)
        · exact absurd hs hsrc
        · exact absurd hd hdst
        · exact .inr ⟨hnone, .inr ⟨hall, rfl⟩⟩

/-- **A choice stays right exactly if it outlives what is given up.** -/
theorem chosen_iff_outlives {active flatFlows : List Flow} {src : Port} {m : Manager}
    (hsub : ∀ flow ∈ flatFlows, flow.src = src → flow ∈ active) (hm : Chosen b active src m) :
    Chosen b flatFlows src m ↔ ∀ old ∈ active.filter (· ∉ flatFlows), old.src = src →
      Outlives b flatFlows (some m) src old.dst := by
  constructor
  · intro hnew old hold hsrc
    obtain ⟨hold, hgone⟩ := List.mem_filter.mp hold
    simp only [decide_not, Bool.not_eq_true', decide_eq_false_iff_not] at hgone
    refine ⟨fun he => ?_, fun he => ?_⟩
    · obtain rfl := Option.some.inj he
      rcases hnew with ⟨flow, -, -, -, hm⟩ | ⟨-, ⟨flow, hflow, hs, -, hm⟩ | ⟨-, hm⟩⟩
      · cases hm
      · injection hm with _ hd
        have hsame : old = flow := by
          cases old
          cases flow
          simp_all
        exact hgone (hsame ▸ hflow)
      · cases hm
    · obtain rfl := Option.some.inj he
      rcases hnew with ⟨flow, hflow, hs, -, hm⟩ | ⟨-, ⟨flow, -, -, -, hm⟩ | ⟨-, hm⟩⟩
      · injection hm with _ _ hd
        exact ⟨flow, hflow, hs, hd.symm⟩
      · cases hm
      · cases hm
  · intro hout
    have hgone : ∀ flow ∈ active, flow ∉ flatFlows → flow ∈ active.filter (· ∉ flatFlows) :=
      fun flow hflow hnot => List.mem_filter.mpr ⟨hflow, by simpa using hnot⟩
    rcases hm with ⟨flow, hflow, hs, hmode, rfl⟩ | ⟨hnone, ⟨flow, hflow, hs, hmode, rfl⟩ | ⟨hall, rfl⟩⟩
    · by_cases hkept : flow ∈ flatFlows
      · exact .inl ⟨flow, hkept, hs, hmode, rfl⟩
      · obtain ⟨flow', hflow', hs', hd⟩ := (hout flow (hgone flow hflow hkept) hs).2 rfl
        exact .inl ⟨flow', hflow', hs', hd ▸ hmode, by rw [hd]⟩
    · by_cases hkept : flow ∈ flatFlows
      · exact .inr ⟨fun f hf hfs => hnone f (hsub f hf hfs) hfs, .inl ⟨flow, hkept, hs, hmode, rfl⟩⟩
      · exact absurd rfl (hout flow (hgone flow hflow hkept) hs).1
    · exact .inr ⟨fun f hf hfs => hnone f (hsub f hf hfs) hfs,
        .inr ⟨fun f hf hfs => hall f (hsub f hf hfs) hfs, rfl⟩⟩

/-! ### The sources of a commit -/

/-- The managers that `installBufferManagers` leaves: the chosen one for the source of
a flow, the old one for any other port. -/
theorem installBufferManagers_spec {flows : List Flow} {before managers : Port → Option Manager}
    (h : b.installBufferManagers flows before = .ok managers) :
    (∀ flow ∈ flows, ∃ m, b.chooseManager flow.src (Blocks.dstsOf flows flow.src) = .ok m ∧
      managers flow.src = some m) ∧
    ∀ port, (∀ flow ∈ flows, flow.src ≠ port) → managers port = before port := by
  have hfold : ∀ (srcs : List Port) (before : Port → Option Manager), srcs.Nodup →
      srcs.foldlM (b.installBufferManager flows) before = .ok managers →
        (∀ src ∈ srcs, ∃ m, b.chooseManager src (Blocks.dstsOf flows src) = .ok m ∧
          managers src = some m) ∧ ∀ port ∉ srcs, managers port = before port := by
    intro srcs
    induction srcs with
    | nil =>
        intro before _ h
        obtain rfl := Except.ok.inj h
        exact ⟨fun src hsrc => (by cases hsrc), fun _ _ => rfl⟩
    | cons src srcs ih =>
        intro before hn h
        obtain ⟨hnot, hn⟩ := List.nodup_cons.mp hn
        rw [List.foldlM_cons] at h
        cases hm : b.chooseManager src (Blocks.dstsOf flows src) with
        | error e => simp only [Blocks.installBufferManager, hm] at h; cases h
        | ok m =>
            simp only [Blocks.installBufferManager, hm] at h
            obtain ⟨hsrcs, hother⟩ := ih _ hn h
            refine ⟨fun p hp => ?_, fun p hp => ?_⟩
            · rcases List.mem_cons.mp hp with rfl | hp
              · exact ⟨m, hm, (hother p hnot).trans (Function.update_self ..)⟩
              · exact hsrcs p hp
            · have hne : p ≠ src := fun he => hp (he ▸ List.mem_cons_self)
              rw [hother p fun hin => hp (List.mem_cons_of_mem src hin), Function.update_of_ne hne]
  obtain ⟨hsrcs, hother⟩ := hfold _ before (List.nodup_dedup _) h
  refine ⟨fun flow hflow => hsrcs flow.src ?_, fun port hport => hother port ?_⟩
  · exact List.mem_dedup.mpr (List.mem_map_of_mem hflow)
  · intro hmem
    obtain ⟨flow, hflow, hs⟩ := List.mem_map.mp (List.mem_dedup.mp hmem)
    exact hport flow hflow hs

section
variable {t t' : Topology} {c : Commit}

/-- **One commit.** The managers agree with all destinations after a commit exactly if
the commit was steady. -/
theorem InSync.agrees_iff (hs : t.InSync) (hagrees : Agrees b t) (ha : t.Admits c)
    (h : Topology.topologySubCommit b t c = .ok t') : Agrees b t' ↔ Steady b t c.flatFlows := by
  obtain ⟨hflows, hs', before, managers, hinst, hframe⟩ := hs.topologySubCommit ha h
  obtain ⟨hnew, hother⟩ := installBufferManagers_spec hinst
  have hport : ∀ flow ∈ c.flatFlows, before flow.src = t.bufferManager flow.src ∧
      t'.bufferManager flow.src = managers flow.src := by
    intro flow hflow
    refine hframe flow.src (List.ne_nil_of_mem (a := flow.dst) ?_)
    refine (hs'.subscribed.subscribed (.input flow)).mpr ?_
    rw [hflows]
    exact hflow
  unfold Agrees Steady
  rw [hflows]
  refine forall₂_congr fun flow hflow => ?_
  obtain ⟨hbefore, hafter⟩ := hport flow hflow
  cases hfirst : (Blocks.dstsOf (t.newFlows c.flatFlows) flow.src).head? with
  | some first =>
      -- the source gains a destination
      obtain ⟨rest, hdsts⟩ : ∃ rest,
          Blocks.dstsOf (t.newFlows c.flatFlows) flow.src = first :: rest :=
        List.head?_eq_some_iff.mp hfirst
      have hmem : (⟨flow.src, first⟩ : Flow) ∈ t.newFlows c.flatFlows :=
        mem_dstsOf.mp (hdsts ▸ List.mem_cons_self)
      obtain ⟨m, hm, hmanager⟩ := hnew _ hmem
      rw [hdsts] at hm
      have hiff := chosen_iff_suits (mem_newFlows.mp hmem).1 hm
      rw [hafter, hmanager]
      constructor
      · rintro ⟨m', hm', hchosen⟩
        obtain rfl := Option.some.inj hm'
        exact hiff.mp hchosen
      · intro hsuits
        exact ⟨m, rfl, hiff.mpr hsuits⟩
  | none =>
      -- all its destinations were active before
      have hnone : ∀ f ∈ c.flatFlows, f.src = flow.src → f ∈ t.activeFlatFlows := by
        intro f hf hsrc
        by_contra hnot
        have hmem : f.dst ∈ Blocks.dstsOf (t.newFlows c.flatFlows) flow.src :=
          mem_dstsOf.mpr (hsrc ▸ mem_newFlows.mpr ⟨hf, hnot⟩)
        rw [List.head?_eq_none_iff.mp hfirst] at hmem
        cases hmem
      obtain ⟨m, hm, hchosen⟩ := hagrees flow (hnone flow hflow rfl)
      have hsame : t'.bufferManager flow.src = some m := by
        rw [hafter, hother flow.src fun f hf hsrc => ?_, hbefore, hm]
        exact (mem_newFlows.mp hf).2 (hnone f (mem_newFlows.mp hf).1 hsrc)
      have hiff := chosen_iff_outlives hnone hchosen
      rw [hsame]
      simp only [hm]
      constructor
      · rintro ⟨m', hm', hchosen'⟩
        obtain rfl := Option.some.inj hm'
        exact hiff.mp hchosen'
      · intro hout
        exact ⟨m, rfl, hiff.mpr hout⟩

end

end

/-- **The choice of buffer managers over a run of commits.** As long as all commits are
steady, every source with active flows has the manager that all its destinations
call for, and the next commit keeps it so exactly if it is steady. -/
theorem managers_agree_iff_steady {b : Blocks} {commits : List Commit} {t : Topology}
    (hrun : Exec (restrict (ofPartial (step b)) fun t c => Steady b t c.flatFlows) start commits t) :
    Agrees b t ∧ ∀ c t', step b t c = some t' → (Agrees b t' ↔ Steady b t c.flatFlows) := by
  have hinv : t.InSync ∧ Agrees b t := by
    refine hrun.invariant (P := fun t => t.InSync ∧ Agrees b t) ?_
      ⟨.start, fun flow hflow => by cases hflow⟩
    intro s c s' hs hstep
    obtain ⟨hstep, hsteady⟩ := hstep
    obtain ⟨ha, hc⟩ := step_inv hstep
    exact ⟨(hs.1.topologySubCommit ha hc).2.1, (hs.1.agrees_iff hs.2 ha hc).mpr hsteady⟩
  refine ⟨hinv.2, fun c t' hstep => ?_⟩
  obtain ⟨ha, hc⟩ := step_inv hstep
  exact hinv.1.agrees_iff hinv.2 ha hc

/-- The sink with a manager of its own joins a source that has a generic one. -/
theorem managers_agree_iff_steady_custom_joins : ∃ commits t,
    Exec (restrict (ofPartial (step customSink)) fun t c => Steady customSink t c.flatFlows)
        start commits t ∧
      (t.bufferManager ⟨"s", "0"⟩ = some (.ofBlock true ⟨"c", "0"⟩ "") ∧ Agrees customSink t ∧
        ∀ c t', step customSink t c = some t' →
          (Agrees customSink t' ↔ Steady customSink t c.flatFlows)) := by
  let commits : List Commit :=
    [start.inOrder [link "s" "a"],
      ⟨[link "s" "a", link "s" "c"], subscribeCalls [link "s" "c"], [], [("c", true)]⟩]
  have hrun : (runPartial (guarded (step customSink) fun t c => Steady customSink t c.flatFlows)
      start commits).map (fun t => t.bufferManager ⟨"s", "0"⟩) =
      some (some (.ofBlock true ⟨"c", "0"⟩ "")) := by decide +kernel
  obtain ⟨t, ht, hmanager⟩ := Option.map_eq_some_iff.mp hrun
  have hexec := exec_of_runPartial ht
  rw [ofPartial_guarded] at hexec
  exact ⟨commits, t, hexec, hmanager, managers_agree_iff_steady hexec⟩

/-- One commit of the same two flows, in both orders. Both lists are accepted, and only
the list that begins with the sink that has a manager leads to it. -/
theorem managers_not_chosen_by_order : ∃ t t' : Topology,
    customSink.Accepted [link "s" "a", link "s" "c"] ∧
      customSink.Accepted [link "s" "c", link "s" "a"] ∧
      commitInOrder customSink start [link "s" "a", link "s" "c"] = some t ∧
      commitInOrder customSink start [link "s" "c", link "s" "a"] = some t' ∧
      t.bufferManager ⟨"s", "0"⟩ = some .generic ∧ ¬ Agrees customSink t ∧
      t'.bufferManager ⟨"s", "0"⟩ = some (.ofBlock true ⟨"c", "0"⟩ "") ∧ Agrees customSink t' := by
  have hfirst : (commitInOrder customSink start [link "s" "a", link "s" "c"]).map
      (fun t => (t.activeFlatFlows, t.bufferManager ⟨"s", "0"⟩)) =
      some ([link "s" "a", link "s" "c"], some .generic) := by decide +kernel
  have hsecond : (commitInOrder customSink start [link "s" "c", link "s" "a"]).map
      (fun t => (t.activeFlatFlows, t.bufferManager ⟨"s", "0"⟩)) =
      some ([link "s" "c", link "s" "a"], some (.ofBlock true ⟨"c", "0"⟩ "")) := by
    decide +kernel
  obtain ⟨t, ht, hpair⟩ := Option.map_eq_some_iff.mp hfirst
  obtain ⟨t', ht', hpair'⟩ := Option.map_eq_some_iff.mp hsecond
  obtain ⟨hflows, hmanager⟩ := Prod.mk.inj hpair
  obtain ⟨hflows', hmanager'⟩ := Prod.mk.inj hpair'
  refine ⟨t, t', by decide +kernel, by decide +kernel, ht, ht', hmanager, ?_, hmanager', ?_⟩
  · intro hagrees
    obtain ⟨m, hm, hchosen⟩ := hagrees (link "s" "a") (by rw [hflows]; decide)
    obtain rfl : Manager.generic = m := Option.some.inj (hmanager.symm.trans hm)
    rcases hchosen with ⟨flow, -, -, -, he⟩ | ⟨-, ⟨flow, -, -, -, he⟩ | ⟨hall, -⟩⟩
    · cases he
    · cases he
    · exact hall (link "s" "c") (by rw [hflows]; decide) rfl (by decide)
  · intro flow hflow
    rw [hflows'] at hflow ⊢
    have hsrc : flow.src = ⟨"s", "0"⟩ := by
      revert flow
      decide
    rw [hsrc]
    refine ⟨_, hmanager', .inr ⟨by decide, .inl ⟨link "s" "c", by decide, rfl, by decide, rfl⟩⟩⟩

end Topology

end PothosCore.Framework

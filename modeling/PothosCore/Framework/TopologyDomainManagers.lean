import PothosCore.Framework.TopologyDomainSafety

/-!
# PothosCore.Framework.TopologyDomainManagers

Whether buffer managers can be installed on the flows of `rectifyDomainFlows`.

Where the crossings are acceptable, the assertions of `installBufferManagers` hold, and
what is left is a source without a manager whose first destination has one, and another
destination too. A source with a flow that is cut has no such destinations left. So the
condition is about a source none of whose flows is cut, and about the copier of a bad
source, which has the good destinations of that source, in the same order.
-/

namespace PothosCore.Framework

open PothosCore.Lib

namespace Blocks

variable {b : Blocks} {copier : Bool → Port → String} {flatFlows : List Flow}

/-- `installBufferManagers` does not throw because of several custom managers, and none
of its assertions fails, in whichever order it goes through the sources. -/
def InstallsSafely (b : Blocks) (flows : List Flow) : Prop :=
  ∀ srcs : List Port, srcs.Perm (flows.map (·.src)).dedup → ∀ managers e,
    srcs.foldlM (b.installBufferManager flows) managers = .error e →
      ∃ domain, e = .thrown "PortDomainError" "" domain

/-- A source has a manager, or all its destinations but the first go without one. -/
def Leaves (b : Blocks) (flows : List Flow) (src : Port) : Prop :=
  ∀ first, (dstsOf flows src).head? = some first →
    b.getBufferMode src (b.domain first true) false ≠ .custom →
      b.Lone (b.domain src false) (dstsOf flows src)

/-- **When managers can be installed.** A source none of whose flows is cut leaves at
most one manager to its destinations, and so does the copier of a bad source, which is
in the unspecified domain. -/
structure OneManager (b : Blocks) (flatFlows : List Flow) : Prop where
  direct : ∀ src, (∀ x, flowOf false src x ∈ flatFlows → ¬ b.Cut flatFlows false src x) →
    b.Leaves flatFlows src
  copied : ∀ src, b.Bad false flatFlows src → b.Lone "" (b.goodDsts flatFlows src)

/-! ### One source -/

/-- The sources do not depend on each other. -/
theorem installsSafely_iff {flows : List Flow} :
    b.InstallsSafely flows ↔ ∀ flow ∈ flows, ∀ e,
      b.chooseManager flow.src (dstsOf flows flow.src) = .error e →
        ∃ domain, e = .thrown "PortDomainError" "" domain := by
  constructor
  · intro h flow hflow e he
    have hsrc : flow.src ∈ (flows.map (·.src)).dedup := List.mem_dedup.mpr (List.mem_map_of_mem hflow)
    refine h _ (List.perm_cons_erase hsrc).symm (fun _ => none) e ?_
    rw [List.foldlM_cons, installBufferManager, he]
    rfl
  · intro h srcs hperm
    have hsrcs : ∀ src ∈ srcs, ∀ e, b.chooseManager src (dstsOf flows src) = .error e →
        ∃ domain, e = .thrown "PortDomainError" "" domain := by
      intro src hsrc
      obtain ⟨flow, hflow, rfl⟩ := List.mem_map.mp (List.mem_dedup.mp (hperm.mem_iff.mp hsrc))
      exact h flow hflow
    clear hperm
    induction srcs with
    | nil =>
        intro managers e he
        cases he
    | cons src srcs ih =>
        intro managers e he
        rw [List.foldlM_cons] at he
        cases hm : b.chooseManager src (dstsOf flows src) with
        | error e' =>
            simp only [installBufferManager, hm] at he
            cases he
            exact hsrcs src List.mem_cons_self e hm
        | ok m =>
            simp only [installBufferManager, hm] at he
            exact ih (fun s hs => hsrcs s (List.mem_cons_of_mem src hs)) _ e he

theorem conflicts_eq_nil_iff {src dst : Port} {dsts : List Port} :
    b.conflicts src dst dsts = [] ↔ ∀ other ∈ dsts, other ≠ dst →
      b.getBufferMode other (b.domain src false) true = .abdicate ∨ b.domain other true = "" := by
  rw [conflicts, List.filter_eq_nil_iff]
  refine forall₂_congr fun other _ => ?_
  simp only [ne_eq, decide_eq_true_eq, not_and, not_not]
  tauto

/-- A port whose crossing is acceptable gives no error for the domain of a peer. -/
theorem mode_ne_error {isInput : Bool} {flows : List Flow} {p x : Port}
    (hgood : ¬ b.Bad isInput flows p) (hx : flowOf isInput p x ∈ flows) :
    b.getBufferMode p (b.domain x (!isInput)) isInput ≠ .error := by
  obtain ⟨-, domain, hall, hmode⟩ := bad_iff.mp hgood
  rw [hall x hx]
  rcases hmode with hmode | ⟨hmode, -⟩ <;> simp [hmode]

/-- **One source**: between acceptable crossings, choosing its manager fails only where
the destinations compete. -/
theorem chooseManager_iff_leaves {flows : List Flow} {flow : Flow} (hflow : flow ∈ flows)
    (hsrc : ¬ b.Bad false flows flow.src)
    (hdst : ∀ f ∈ flows, f.src = flow.src → ¬ b.Bad true flows f.dst) :
    (∀ e, b.chooseManager flow.src (dstsOf flows flow.src) = .error e →
      ∃ domain, e = .thrown "PortDomainError" "" domain) ↔ b.Leaves flows flow.src := by
  have hmem : ∀ x, x ∈ dstsOf flows flow.src ↔ (⟨flow.src, x⟩ : Flow) ∈ flows := fun x => Topology.mem_dstsOf
  rw [Leaves]
  cases hdsts : dstsOf flows flow.src with
  | nil =>
      have hin := (hmem flow.dst).mpr hflow
      rw [hdsts] at hin
      cases hin
  | cons first rest =>
      have hfirst : (⟨flow.src, first⟩ : Flow) ∈ flows := (hmem first).mp (hdsts ▸ List.mem_cons_self)
      have hsrcMode : b.getBufferMode flow.src (b.domain first true) false ≠ .error :=
        mode_ne_error hsrc hfirst
      have hdstMode : b.getBufferMode first (b.domain flow.src false) true ≠ .error :=
        mode_ne_error (hdst _ hfirst rfl) (show flowOf true first flow.src ∈ flows from hfirst)
      simp only [List.head?_cons, Option.some.injEq, forall_eq', Lone, chooseManager]
      by_cases hcustom : b.getBufferMode flow.src (b.domain first true) false = .custom
      · rw [if_pos hcustom, Topology.getBufferManager_of_custom hcustom]
        exact iff_of_true (fun e he => by cases he) (fun h => absurd hcustom h)
      · rw [if_neg hcustom]
        by_cases hown : b.getBufferMode first (b.domain flow.src false) true = .custom
        · rw [if_pos hown, Topology.getBufferManager_of_custom hown]
          simp only [hcustom, hown, ne_eq, not_false_eq_true, forall_const]
          rw [← conflicts_eq_nil_iff]
          cases hconflicts : b.conflicts flow.src first (first :: rest) with
          | nil => exact iff_of_true (fun e he => by cases he) rfl
          | cons other others =>
              refine iff_of_false (fun h => ?_) (fun h => by cases h)
              obtain ⟨domain, he⟩ := h _ rfl
              simp at he
        · rw [if_neg hown]
          refine iff_of_true (fun e he => ?_) (fun _ h => absurd h hown)
          have hsrcAbdicate : b.getBufferMode flow.src (b.domain first true) false = .abdicate := by
            cases hmode : b.getBufferMode flow.src (b.domain first true) false with
            | error => exact absurd hmode hsrcMode
            | abdicate => rfl
            | custom => exact absurd hmode hcustom
          have hdstAbdicate : b.getBufferMode first (b.domain flow.src false) true = .abdicate := by
            cases hmode : b.getBufferMode first (b.domain flow.src false) true with
            | error => exact absurd hmode hdstMode
            | abdicate => rfl
            | custom => exact absurd hmode hown
          rw [if_neg (not_not.mpr hsrcAbdicate), if_neg (not_not.mpr hdstAbdicate), getBufferManager] at he
          cases ho : b.overload false flow.src (b.domain first true) with
          | manager => rw [ho] at he; cases he
          | null => rw [ho] at he; cases he
          | domainError =>
              rw [ho] at he
              exact ⟨_, (Except.error.inj he).symm⟩

/-! ### The destinations of a source, in order -/

theorem dstsOf_eq_flatMap {flows : List Flow} {src : Port} :
    dstsOf flows src = (flows.filter (·.src = src)).flatMap fun _ => (flows.filter (·.src = src)).map (·.dst) := by
  have hall : ∀ l : List Flow, (l.flatMap fun flow =>
      if flow.src = src then (flows.filter (·.src = src)).map (·.dst) else []) =
        (l.filter (·.src = src)).flatMap fun _ => (flows.filter (·.src = src)).map (·.dst) := by
    intro l
    induction l with
    | nil => rfl
    | cons flow l ih =>
        by_cases h : flow.src = src
        · simp [h, ih]
        · simp [h, ih]
  exact hall flows

/-- The first destination of a source is that of its first flow. -/
theorem head_dstsOf {flows : List Flow} {src : Port} :
    (dstsOf flows src).head? = ((flows.filter (·.src = src)).map (·.dst)).head? := by
  rw [dstsOf_eq_flatMap]
  cases flows.filter (·.src = src) with
  | nil => rfl
  | cons flow rest => simp

theorem head_pushNew {flows : List Flow} {flow : Flow} {P : Flow → Bool} (h : P flow = true) :
    ((pushNew flows flow).filter P).head? = (flows.filter P).head?.or (some flow) := by
  unfold pushNew
  split
  next hin =>
    have hne : flows.filter P ≠ [] := List.ne_nil_of_mem (List.mem_filter.mpr ⟨hin, h⟩)
    cases hfilter : flows.filter P with
    | nil => exact absurd hfilter hne
    | cons x rest => rfl
  next => simp [h]

/-- A copier begins with the destination of the first flow that it is in. -/
theorem head_dstsOf_copier (hnames : CopierNames copier flatFlows) {c : String}
    (hcopier : IsCopier copier flatFlows c) :
    (dstsOf (b.rectifyDomainFlows copier flatFlows) ⟨c, "0"⟩).head? =
      ((flatFlows.filter (b.copierOf copier flatFlows · = some c)).map (·.dst)).head? := by
  have hfold : ∀ flows : List Flow, (∀ flow ∈ flows, flow ∈ flatFlows) → ∀ safe : List Flow,
      ((flows.foldl (b.rectifyFlow copier flatFlows) safe).filter (·.src = ⟨c, "0"⟩)).head?.map (·.dst) =
        ((safe.filter (·.src = ⟨c, "0"⟩)).head?.map (·.dst)).or
          ((flows.filter (b.copierOf copier flatFlows · = some c)).head?.map (·.dst)) := by
    intro flows
    induction flows with
    | nil => simp
    | cons flow flows ih =>
        intro hsub safe
        have hin := hsub flow List.mem_cons_self
        have hsrc : flow.src ≠ ⟨c, "0"⟩ := by
          intro h
          have hnew := (hnames.new flow hin).1
          rw [h] at hnew
          exact hnew hcopier
        rw [List.foldl_cons, ih (fun f hf => hsub f (List.mem_cons_of_mem _ hf))]
        cases hc : b.copierOf copier flatFlows flow with
        | none => simp [rectifyFlow, hc, hsrc]
        | some c' =>
            simp only [rectifyFlow, hc]
            by_cases hsame : c' = c
            · subst hsame
              rw [head_pushNew (by simp), filter_pushNew (by simp [hsrc])]
              cases (safe.filter (·.src = ⟨c', "0"⟩)).head? with
              | none => simp [hc]
              | some x => simp
            · rw [filter_pushNew (by simp [hsame]), filter_pushNew (by simp [hsrc])]
              simp [hc, hsame]
  rw [head_dstsOf, List.head?_map, List.head?_map]
  exact hfold flatFlows (fun _ h => h) []

/-! ### The sources after the copiers went in -/

theorem lone_congr (srcDomain : String) {dsts dsts' : List Port} (hhead : dsts.head? = dsts'.head?)
    (hmem : ∀ x, x ∈ dsts ↔ x ∈ dsts') : b.Lone srcDomain dsts ↔ b.Lone srcDomain dsts' := by
  unfold Lone
  simp only [hhead, hmem]

/-- A source with a flow that is cut: its destinations are in the unspecified domain. -/
theorem leaves_of_cut (hc : Copiers b copier flatFlows) (hr : b.Rectified flatFlows) {src x : Port}
    (hx : flowOf false src x ∈ flatFlows) (hcut : b.Cut flatFlows false src x) :
    b.Leaves (b.rectifyDomainFlows copier flatFlows) src := by
  have hsrc : ¬ IsCopier copier flatFlows src.uid := (hc.new _ hx).1
  intro first _ _ first' _ _ other hother _
  have hflow : flowOf false src other ∈ b.rectifyDomainFlows copier flatFlows :=
    Topology.mem_dstsOf.mp hother
  obtain ⟨y, hy, rfl⟩ := (mem_rectify_flowOf hsrc).mp hflow
  right
  by_cases hcuty : b.Cut flatFlows false src y
  · obtain ⟨d, hd, hfar⟩ : ∃ d, IsCopier copier flatFlows d ∧ b.far copier flatFlows false src y = ⟨d, "0"⟩ :=
      far_of_cut hy hcuty
    rw [hfar]
    exact hc.domain d hd true
  · rw [far_of_kept (fun h => hcuty (.inl h)) (fun h => hcuty (.inr h))]
    exact (hr.fits false src x hx hcut).kept y hy hcuty

/-- A source with no flow that is cut has the destinations it had. -/
theorem leaves_of_no_cut {src : Port} (hsrc : ¬ IsCopier copier flatFlows src.uid)
    (hnone : ∀ x, flowOf false src x ∈ flatFlows → ¬ b.Cut flatFlows false src x) :
    b.Leaves (b.rectifyDomainFlows copier flatFlows) src ↔ b.Leaves flatFlows src := by
  have hdsts : dstsOf (b.rectifyDomainFlows copier flatFlows) src = dstsOf flatFlows src := by
    rw [dstsOf_eq_flatMap, dstsOf_eq_flatMap, filter_src_rectify hsrc ?_]
    rintro ⟨s, d⟩ hflow rfl
    have hkept := hnone d hflow
    exact copierOf_none (fun h => hkept (.inr h)) (fun h => hkept (.inl h))
  rw [Leaves, Leaves, hdsts]

/-- The copier of a destination has no destination but that. -/
theorem leaves_of_copier_dst (hc : Copiers b copier flatFlows) {flow : Flow} (hflow : flow ∈ flatFlows) :
    b.Leaves (b.rectifyDomainFlows copier flatFlows) ⟨copier true flow.dst, "0"⟩ := by
  have hcopier : IsCopier copier flatFlows (copier true flow.dst) := isCopier_dst hflow
  have hdst : ∀ x ∈ dstsOf (b.rectifyDomainFlows copier flatFlows) ⟨copier true flow.dst, "0"⟩, x = flow.dst := by
    intro x hx
    have hsafe : flowOf false ⟨copier true flow.dst, "0"⟩ x ∈ b.rectifyDomainFlows copier flatFlows :=
      Topology.mem_dstsOf.mp hx
    obtain ⟨f, hf, hof, rfl⟩ := (mem_rectify_copier hc.toCopierNames hcopier).mp hsafe
    rcases copierOf_inv hof with ⟨-, heq⟩ | ⟨-, -, heq⟩
    · exact (hc.dst_inj hflow hf heq).symm
    · exact absurd heq (hc.dst_ne_src hflow hf)
  intro _ _ _ first hfirst _ other hother hne
  exact absurd ((hdst other hother).trans (hdst first (List.mem_of_mem_head? hfirst)).symm) hne

/-- The copier of a source has the good destinations of that source. -/
theorem leaves_of_copier_src (hc : Copiers b copier flatFlows) {flow : Flow} (hflow : flow ∈ flatFlows)
    (hbad : b.Bad false flatFlows flow.src) :
    b.Leaves (b.rectifyDomainFlows copier flatFlows) ⟨copier false flow.src, "0"⟩ ↔
      b.Lone "" (b.goodDsts flatFlows flow.src) := by
  have hcopier : IsCopier copier flatFlows (copier false flow.src) := isCopier_src hflow
  have hof : ∀ f ∈ flatFlows, b.copierOf copier flatFlows f = some (copier false flow.src) ↔
      f.src = flow.src ∧ ¬ b.Bad true flatFlows f.dst := by
    intro f hf
    constructor
    · intro h
      rcases copierOf_inv h with ⟨-, heq⟩ | ⟨hgood, -, heq⟩
      · exact absurd heq.symm (hc.dst_ne_src hf hflow)
      · exact ⟨(hc.src_inj hflow hf heq).symm, hgood⟩
    · rintro ⟨hs, hgood⟩
      rw [copierOf_src hgood (hs ▸ hbad), hs]
  have hgood : (flatFlows.filter (b.copierOf copier flatFlows · = some (copier false flow.src))).map (·.dst) =
      b.goodDsts flatFlows flow.src := by
    refine congrArg (List.map Flow.dst) (List.filter_congr fun f hf => ?_)
    exact decide_eq_decide.mpr (hof f hf)
  have hmem : ∀ x, x ∈ dstsOf (b.rectifyDomainFlows copier flatFlows) ⟨copier false flow.src, "0"⟩ ↔
      x ∈ b.goodDsts flatFlows flow.src := by
    intro x
    have hpeers : flowOf false ⟨copier false flow.src, "0"⟩ x ∈ b.rectifyDomainFlows copier flatFlows ↔
        ∃ f ∈ flatFlows, b.copierOf copier flatFlows f = some (copier false flow.src) ∧ x = f.dst :=
      mem_rectify_copier hc.toCopierNames hcopier
    rw [Topology.mem_dstsOf, ← hgood]
    refine hpeers.trans ?_
    simp [and_assoc, eq_comm]
  have hlone := lone_congr (b := b) "" ((head_dstsOf_copier hc.toCopierNames hcopier).trans
    (congrArg List.head? hgood)) hmem
  rw [← hlone, Leaves, hc.domain _ hcopier false]
  constructor
  · intro h first hfirst
    exact h first hfirst (by rw [hc.abdicate _ hcopier]; decide) first hfirst
  · intro h first _ _
    exact h

/-- All sources, where the crossings are acceptable. -/
theorem installsSafely_iff_oneManager (hc : Copiers b copier flatFlows) (hr : b.Rectified flatFlows) :
    b.InstallsSafely (b.rectifyDomainFlows copier flatFlows) ↔ b.OneManager flatFlows := by
  have haccepted := (accepted_iff_rectified hc).mpr hr
  have hgood : ∀ flow ∈ b.rectifyDomainFlows copier flatFlows,
      ¬ b.Bad false (b.rectifyDomainFlows copier flatFlows) flow.src ∧
        ¬ b.Bad true (b.rectifyDomainFlows copier flatFlows) flow.dst := by
    intro flow hflow
    rw [Bad, Bad, Bool.not_eq_false, Bool.not_eq_false]
    exact haccepted flow hflow
  have hleaves : b.InstallsSafely (b.rectifyDomainFlows copier flatFlows) ↔
      ∀ flow ∈ b.rectifyDomainFlows copier flatFlows,
        b.Leaves (b.rectifyDomainFlows copier flatFlows) flow.src := by
    rw [installsSafely_iff]
    refine forall₂_congr fun flow hflow => ?_
    exact chooseManager_iff_leaves hflow (hgood flow hflow).1 (fun f hf _ => (hgood f hf).2)
  rw [hleaves]
  constructor
  · intro h
    refine ⟨fun src hnone => ?_, fun src hbad => ?_⟩
    · -- a source without flows has no first destination
      intro first hfirst
      have hflow : (⟨src, first⟩ : Flow) ∈ flatFlows :=
        Topology.mem_dstsOf.mp (List.mem_of_mem_head? hfirst)
      have hkept := hnone first hflow
      have hsafe : (⟨src, first⟩ : Flow) ∈ b.rectifyDomainFlows copier flatFlows :=
        mem_rectify_iff.mpr ⟨_, hflow, .inl ⟨copierOf_none (fun h => hkept (.inr h)) (fun h => hkept (.inl h)), rfl⟩⟩
      exact (leaves_of_no_cut (hc.new _ hflow).1 hnone).mp (h _ hsafe) first hfirst
    · intro first hfirst
      obtain ⟨flow, hfilter, -⟩ := List.mem_map.mp (List.mem_of_mem_head? hfirst)
      obtain ⟨hflow, hkeep⟩ := List.mem_filter.mp hfilter
      obtain ⟨rfl, hgoodDst⟩ := of_decide_eq_true hkeep
      have hsafe : (⟨⟨copier false flow.src, "0"⟩, flow.dst⟩ : Flow) ∈ b.rectifyDomainFlows copier flatFlows :=
        mem_rectify_iff.mpr ⟨flow, hflow, .inr ⟨_, copierOf_src hgoodDst hbad, .inr rfl⟩⟩
      exact (leaves_of_copier_src hc hflow hbad).mp (h _ hsafe) first hfirst
  · intro hone flow hflow
    have hsource : ∀ f ∈ flatFlows, b.Leaves (b.rectifyDomainFlows copier flatFlows) f.src := by
      intro f hf
      by_cases hcut : ∃ x, flowOf false f.src x ∈ flatFlows ∧ b.Cut flatFlows false f.src x
      · obtain ⟨x, hx, hcut⟩ := hcut
        exact leaves_of_cut hc hr hx hcut
      · have hnone : ∀ x, flowOf false f.src x ∈ flatFlows → ¬ b.Cut flatFlows false f.src x :=
          fun x hx h => hcut ⟨x, hx, h⟩
        exact (leaves_of_no_cut (hc.new f hf).1 hnone).mpr (hone.direct _ hnone)
    obtain ⟨f, hf, ⟨-, rfl⟩ | ⟨c, hof, rfl | rfl⟩⟩ := mem_rectify_iff.mp hflow
    · exact hsource _ hf
    · exact hsource f hf
    · rcases copierOf_inv hof with ⟨-, rfl⟩ | ⟨-, hbad, rfl⟩
      · exact leaves_of_copier_dst hc hf
      · exact (leaves_of_copier_src hc hf hbad).mpr (hone.copied _ hbad)

/-- **Domain safety after the copiers went in.** All crossings are acceptable and all
managers can be installed exactly where the copiers serve what is next to them. -/
theorem domainSafe_iff (hc : Copiers b copier flatFlows) :
    (b.Accepted (b.rectifyDomainFlows copier flatFlows) ∧
        b.InstallsSafely (b.rectifyDomainFlows copier flatFlows)) ↔
      b.Rectified flatFlows ∧ b.OneManager flatFlows := by
  rw [accepted_iff_rectified hc]
  exact and_congr_right fun hr => installsSafely_iff_oneManager hc hr

/-- The copiers behind and in front of a port. -/
def copierOfUid (isInput : Bool) (port : Port) : String :=
  (if isInput then "to " else "from ") ++ port.uid

/-- The source `s` has a manager of its own, but not for domain `B`. -/
def crossing : Blocks where
  name uid := uid
  outputs _ := ["0"]
  domain port _ := if port.uid = "s" then "A" else if port.uid = "b" ∨ port.uid = "c" then "B" else ""
  isSlot _ := false
  isSignal _ := false
  overload isInput port domain :=
    if isInput ∨ port.uid ≠ "s" then .null else if domain = "B" then .domainError else .manager

/-- Two destinations in domain `B`. -/
def crossingFlows : List Flow := [⟨⟨"s", "0"⟩, ⟨"b", "0"⟩⟩, ⟨⟨"s", "0"⟩, ⟨"c", "0"⟩⟩]

theorem copiers_crossing : Copiers crossing copierOfUid crossingFlows where
  nodup := by decide
  new := by
    unfold IsCopier
    decide
  domain c hc isInput := by
    have hnames : ∀ c ∈ copierNames copierOfUid crossingFlows, c ≠ "s" ∧ c ≠ "b" ∧ c ≠ "c" := by decide
    simp [crossing, hnames c hc]
  abdicate c hc _ _ := by
    have hnames : ∀ c ∈ copierNames copierOfUid crossingFlows, c ≠ "s" := by decide
    simp [getBufferMode, crossing, hnames c hc]

/-- A copier goes behind the source, and serves both sides. -/
theorem domainSafe_iff_crossing :
    crossing.rectifyDomainFlows copierOfUid crossingFlows =
        [⟨⟨"s", "0"⟩, ⟨"from s", "0"⟩⟩, ⟨⟨"from s", "0"⟩, ⟨"b", "0"⟩⟩, ⟨⟨"from s", "0"⟩, ⟨"c", "0"⟩⟩] ∧
      (crossing.Accepted (crossing.rectifyDomainFlows copierOfUid crossingFlows) ∧
        crossing.InstallsSafely (crossing.rectifyDomainFlows copierOfUid crossingFlows)) ∧
      crossing.Rectified crossingFlows ∧ crossing.OneManager crossingFlows := by
  have haccepted : crossing.Accepted (crossing.rectifyDomainFlows copierOfUid crossingFlows) := by
    unfold Accepted
    decide +kernel
  have hinstalls : crossing.InstallsSafely (crossing.rectifyDomainFlows copierOfUid crossingFlows) := by
    have hchosen : ∀ flow ∈ crossing.rectifyDomainFlows copierOfUid crossingFlows,
        (crossing.chooseManager flow.src
          (dstsOf (crossing.rectifyDomainFlows copierOfUid crossingFlows) flow.src)).isOk = true := by
      decide +kernel
    refine installsSafely_iff.mpr fun flow hflow e he => ?_
    have hok := hchosen flow hflow
    rw [he] at hok
    cases hok
  have hboth := And.intro haccepted hinstalls
  exact ⟨by decide +kernel, hboth, (domainSafe_iff copiers_crossing).mp hboth⟩

/-- One source with two destinations, in a domain each. All ports abdicate. -/
def twoDomains : Blocks where
  name uid := uid
  outputs _ := ["0"]
  domain port _ := if port.uid = "a" then "A" else if port.uid = "b" then "B" else ""
  isSlot _ := false
  isSignal _ := false
  overload _ _ _ := .null

theorem copiers_twoDomains :
    Copiers twoDomains copierOfUid [⟨⟨"s", "0"⟩, ⟨"a", "0"⟩⟩, ⟨⟨"s", "0"⟩, ⟨"b", "0"⟩⟩] where
  nodup := by decide
  new := by
    unfold IsCopier
    decide
  domain c hc isInput := by
    have hnames : ∀ c ∈ copierNames copierOfUid [⟨⟨"s", "0"⟩, ⟨"a", "0"⟩⟩, ⟨⟨"s", "0"⟩, ⟨"b", "0"⟩⟩],
        c ≠ "a" ∧ c ≠ "b" := by decide
    simp [twoDomains, hnames c hc]
  abdicate _ _ _ _ := by simp [getBufferMode, twoDomains]

/-- The copier of the source has both domains on its other side. -/
theorem not_domainSafe_twoDomains :
    ¬ ∀ (b : Blocks) (copier : Bool → Port → String) (flatFlows : List Flow), Copiers b copier flatFlows →
      b.Accepted (b.rectifyDomainFlows copier flatFlows) ∧
        b.InstallsSafely (b.rectifyDomainFlows copier flatFlows) := by
  intro h
  obtain ⟨haccepted, -⟩ := h _ _ _ copiers_twoDomains
  have hcopier : (⟨⟨"from s", "0"⟩, ⟨"a", "0"⟩⟩ : Flow) ∈ twoDomains.rectifyDomainFlows copierOfUid
      [⟨⟨"s", "0"⟩, ⟨"a", "0"⟩⟩, ⟨⟨"s", "0"⟩, ⟨"b", "0"⟩⟩] := by decide +kernel
  have hbad : twoDomains.isDomainCrossingAcceptable ⟨"from s", "0"⟩ (dstsOf
      (twoDomains.rectifyDomainFlows copierOfUid [⟨⟨"s", "0"⟩, ⟨"a", "0"⟩⟩, ⟨⟨"s", "0"⟩, ⟨"b", "0"⟩⟩])
        ⟨"from s", "0"⟩) false = false := by decide +kernel
  have hgood := (haccepted _ hcopier).1
  rw [hbad] at hgood
  cases hgood

end Blocks

end PothosCore.Framework

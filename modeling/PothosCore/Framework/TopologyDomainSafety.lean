import PothosCore.Framework.TopologyInsertedBlocks
import PothosCore.Framework.TopologyManagers

/-!
# PothosCore.Framework.TopologyDomainSafety

When the flows of `rectifyDomainFlows` have acceptable domain crossings.

The check of a port is made among its original peers, but afterwards some of these are
behind copiers. A port is then next to copiers, whose domain is unspecified, and to
peers that were kept; and the copier of a port has all peers of that port on its other
side, with their domains. `Rectified` says what this asks for.

Sources and destinations are dealt with at once: `isInput` says which of them a port is,
and `flowOf isInput p x` is the flow between the port `p` and its peer `x`.
-/

namespace PothosCore.Framework

open PothosCore.Lib

/-- The flow between a port and a peer. -/
def flowOf (isInput : Bool) (p x : Port) : Flow := if isInput then ⟨x, p⟩ else ⟨p, x⟩

namespace Blocks

variable (b : Blocks)

/-- The peers of a port, as the checks get them. -/
def peers (isInput : Bool) (flows : List Flow) (p : Port) : List Port :=
  if isInput then srcsOf flows p else dstsOf flows p

/-- The domain crossing of a port is not acceptable. -/
def Bad (isInput : Bool) (flows : List Flow) (p : Port) : Prop :=
  b.isDomainCrossingAcceptable p (peers isInput flows p) isInput = false

instance (isInput : Bool) (flows : List Flow) (p : Port) : Decidable (b.Bad isInput flows p) :=
  inferInstanceAs (Decidable (_ = _))

/-- No destination but the first needs a manager of its own, if the first has one. -/
def Lone (srcDomain : String) (dsts : List Port) : Prop :=
  ∀ first, dsts.head? = some first → b.getBufferMode first srcDomain true = .custom →
    ∀ other ∈ dsts, other ≠ first →
      b.getBufferMode other srcDomain true = .abdicate ∨ b.domain other true = ""

/-- The destinations of a source that are not bad themselves. -/
def goodDsts (flows : List Flow) (src : Port) : List Port :=
  (flows.filter fun flow => flow.src = src ∧ ¬ b.Bad true flows flow.dst).map (·.dst)

/-! ### One check -/

theorem mem_srcsOf {flows : List Flow} {src dst : Port} : src ∈ srcsOf flows dst ↔ (⟨src, dst⟩ : Flow) ∈ flows := by
  simp only [srcsOf, List.mem_flatMap]
  constructor
  · rintro ⟨flow, -, hsrc⟩
    split at hsrc
    · obtain ⟨⟨s, d⟩, hmem, rfl⟩ := List.mem_map.mp hsrc
      obtain ⟨hf, hd⟩ := List.mem_filter.mp hmem
      obtain rfl : d = dst := by simpa using hd
      exact hf
    · cases hsrc
  · intro hflow
    refine ⟨⟨src, dst⟩, hflow, ?_⟩
    rw [if_pos rfl]
    exact List.mem_map.mpr ⟨⟨src, dst⟩, List.mem_filter.mpr ⟨hflow, by simp⟩, rfl⟩

theorem mem_peers {isInput : Bool} {flows : List Flow} {p x : Port} :
    x ∈ peers isInput flows p ↔ flowOf isInput p x ∈ flows := by
  cases isInput with
  | false => exact Topology.mem_dstsOf
  | true => exact mem_srcsOf

/-- The flows are gone through once for each of them. -/
theorem length_srcsOf (flows : List Flow) (dst : Port) :
    (srcsOf flows dst).length = (flows.filter (·.dst = dst)).length * (flows.filter (·.dst = dst)).length := by
  have hsum : ∀ l : List Flow, (l.flatMap fun flow =>
      if flow.dst = dst then (flows.filter (·.dst = dst)).map (·.src) else []).length =
        (l.filter (·.dst = dst)).length * (flows.filter (·.dst = dst)).length := by
    intro l
    induction l with
    | nil => simp
    | cons flow l ih =>
        rw [List.flatMap_cons, List.length_append, ih]
        by_cases h : flow.dst = dst
        · simp [h, Nat.add_mul, Nat.add_comm]
        · simp [h]
  exact hsum flows

theorem dedup_eq_singleton {α : Type} [DecidableEq α] {l : List α} {a : α} :
    l.dedup = [a] ↔ l ≠ [] ∧ ∀ x ∈ l, x = a := by
  constructor
  · intro h
    refine ⟨?_, fun x hx => ?_⟩
    · rintro rfl
      cases h
    · rw [← List.mem_dedup, h, List.mem_singleton] at hx
      exact hx
  · rintro ⟨hne, hall⟩
    obtain ⟨x, hx⟩ := List.exists_mem_of_ne_nil l hne
    have ha := hall x hx
    subst ha
    refine List.perm_singleton.mp ((List.perm_ext_iff_of_nodup (List.nodup_dedup l) (List.nodup_singleton x)).mpr ?_)
    intro y
    rw [List.mem_dedup, List.mem_singleton]
    exact ⟨hall y, fun h => h ▸ hx⟩

variable {b}

theorem acceptable_of_dedup {isInput : Bool} {p : Port} {subPorts : List Port} {domain : String}
    (h : (subPorts.map fun subPort => b.domain subPort (!isInput)).dedup = [domain]) :
    b.isDomainCrossingAcceptable p subPorts isInput =
      match b.getBufferMode p domain isInput with
      | .error => false
      | .abdicate => true
      | .custom =>
          if isInput && 1 < subPorts.length then false
          else subPorts.all fun x => b.getBufferMode x (b.domain p isInput) (!isInput) == .abdicate := by
  rewrite [isDomainCrossingAcceptable, h]
  rfl

/-- **What the check of a port asks for**: its peers share a domain, and the port
abdicates in it, or has a manager that all of them leave to it, and a destination is
alone with its source then. -/
theorem acceptable_iff {isInput : Bool} {p : Port} {subPorts : List Port} :
    b.isDomainCrossingAcceptable p subPorts isInput = true ↔ subPorts ≠ [] ∧
      ∃ domain, (∀ x ∈ subPorts, b.domain x (!isInput) = domain) ∧
        (b.getBufferMode p domain isInput = .abdicate ∨
          b.getBufferMode p domain isInput = .custom ∧ (isInput = true → subPorts.length ≤ 1) ∧
            ∀ x ∈ subPorts, b.getBufferMode x (b.domain p isInput) (!isInput) = .abdicate) := by
  have hdedup : ∀ domain, ((subPorts.map fun subPort => b.domain subPort (!isInput)).dedup = [domain] ↔
      subPorts ≠ [] ∧ ∀ x ∈ subPorts, b.domain x (!isInput) = domain) := by
    intro domain
    rw [dedup_eq_singleton]
    simp
  by_cases hone : ∃ domain, (subPorts.map fun subPort => b.domain subPort (!isInput)).dedup = [domain]
  · obtain ⟨domain, hdomain⟩ := hone
    obtain ⟨hne, hall⟩ := (hdedup domain).mp hdomain
    have hunique : ∀ domain', (∀ x ∈ subPorts, b.domain x (!isInput) = domain') → domain' = domain := by
      intro domain' hall'
      obtain ⟨x, hx⟩ := List.exists_mem_of_ne_nil subPorts hne
      exact (hall' x hx).symm.trans (hall x hx)
    rw [acceptable_of_dedup hdomain]
    have hiff : ∀ {q : Prop}, (∃ domain', (∀ x ∈ subPorts, b.domain x (!isInput) = domain') ∧
        (b.getBufferMode p domain' isInput = .abdicate ∨
          b.getBufferMode p domain' isInput = .custom ∧ q)) ↔
        (b.getBufferMode p domain isInput = .abdicate ∨ b.getBufferMode p domain isInput = .custom ∧ q) := by
      intro q
      constructor
      · rintro ⟨domain', hall', h⟩
        rw [hunique domain' hall'] at h
        exact h
      · exact fun h => ⟨domain, hall, h⟩
    rw [hiff, and_iff_right hne]
    cases hmode : b.getBufferMode p domain isInput with
    | error => simp
    | abdicate => simp
    | custom =>
        by_cases hsingle : isInput = true → subPorts.length ≤ 1
        · have hguard : ¬ (isInput && decide (1 < subPorts.length)) = true := by
            simp only [Bool.and_eq_true, decide_eq_true_eq, not_and, Nat.not_lt]
            exact hsingle
          simp only [hguard, Bool.false_eq_true, if_false, List.all_eq_true, beq_iff_eq, reduceCtorEq,
            false_or, true_and]
          exact (and_iff_right hsingle).symm
        · have hguard : (isInput && decide (1 < subPorts.length)) = true := by
            simp only [Bool.and_eq_true, decide_eq_true_eq]
            exact ⟨by_contra fun h => hsingle fun h' => absurd h' h,
              by_contra fun h => hsingle fun _ => Nat.not_lt.mp h⟩
          simp [hguard, hsingle]
  · refine iff_of_false ?_ ?_
    · rw [isDomainCrossingAcceptable]
      generalize (subPorts.map fun subPort => b.domain subPort (!isInput)).dedup = domains at hone
      match domains with
      | [] => exact Bool.false_ne_true
      | [domain] => exact absurd ⟨domain, rfl⟩ hone
      | _ :: _ :: _ => exact Bool.false_ne_true
    · rintro ⟨hne, domain, hall, -⟩
      exact hone ⟨domain, (hdedup domain).mpr ⟨hne, hall⟩⟩

/-! ### The peers after the copiers went in -/

variable {copier : Bool → Port → String} {flatFlows : List Flow}

/-- Copiers have names of their own, their domain is unspecified, and they abdicate on
both ports. -/
structure Copiers (b : Blocks) (copier : Bool → Port → String) (flatFlows : List Flow) : Prop
    extends CopierNames copier flatFlows where
  domain : ∀ c, IsCopier copier flatFlows c → ∀ isInput, b.domain ⟨c, "0"⟩ isInput = ""
  abdicate : ∀ c, IsCopier copier flatFlows c → ∀ domain isInput,
    b.getBufferMode ⟨c, "0"⟩ domain isInput = .abdicate

/-- Who a port has as its peer afterwards. -/
def far (b : Blocks) (copier : Bool → Port → String) (flatFlows : List Flow) (isInput : Bool)
    (p x : Port) : Port :=
  match b.copierOf copier flatFlows (flowOf isInput p x) with
  | some c => ⟨c, "0"⟩
  | none => x

theorem copierOf_dst {flow : Flow} (h : b.Bad true flatFlows flow.dst) :
    b.copierOf copier flatFlows flow = some (copier true flow.dst) :=
  if_pos h

theorem copierOf_src {flow : Flow} (hdst : ¬ b.Bad true flatFlows flow.dst)
    (h : b.Bad false flatFlows flow.src) :
    b.copierOf copier flatFlows flow = some (copier false flow.src) :=
  (if_neg hdst).trans (if_pos h)

theorem copierOf_none {flow : Flow} (hdst : ¬ b.Bad true flatFlows flow.dst)
    (h : ¬ b.Bad false flatFlows flow.src) : b.copierOf copier flatFlows flow = none :=
  (if_neg hdst).trans (if_neg h)

theorem far_of_kept {isInput : Bool} {p x : Port} (hp : ¬ b.Bad isInput flatFlows p)
    (hx : ¬ b.Bad (!isInput) flatFlows x) : b.far copier flatFlows isInput p x = x := by
  have hnone : b.copierOf copier flatFlows (flowOf isInput p x) = none := by
    cases isInput with
    | false => exact copierOf_none hx hp
    | true => exact copierOf_none hp hx
  rw [far, hnone]

theorem copierOf_of_cut {flow : Flow} (h : b.Bad true flatFlows flow.dst ∨ b.Bad false flatFlows flow.src) :
    ∃ c, b.copierOf copier flatFlows flow = some c := by
  by_cases hdst : b.Bad true flatFlows flow.dst
  · exact ⟨_, copierOf_dst hdst⟩
  · exact ⟨_, copierOf_src hdst (h.resolve_left hdst)⟩

theorem far_of_cut {isInput : Bool} {p x : Port} (hflow : flowOf isInput p x ∈ flatFlows)
    (h : b.Bad isInput flatFlows p ∨ b.Bad (!isInput) flatFlows x) :
    ∃ c, IsCopier copier flatFlows c ∧ b.far copier flatFlows isInput p x = ⟨c, "0"⟩ := by
  have hcut : ∃ c, b.copierOf copier flatFlows (flowOf isInput p x) = some c := by
    refine copierOf_of_cut ?_
    cases isInput with
    | false => exact h.symm
    | true => exact h
  obtain ⟨c, hc⟩ := hcut
  exact ⟨c, isCopier_of_copierOf hflow hc, by rw [far, hc]⟩

theorem mem_rectify_flowOf {isInput : Bool} {p y : Port} (hp : ¬ IsCopier copier flatFlows p.uid) :
    flowOf isInput p y ∈ b.rectifyDomainFlows copier flatFlows ↔
      ∃ x, flowOf isInput p x ∈ flatFlows ∧ y = b.far copier flatFlows isInput p x := by
  rw [mem_rectify_iff]
  constructor
  · rintro ⟨flow, hflow, ⟨hnone, heq⟩ | ⟨c, hc, heq⟩⟩
    · subst heq
      exact ⟨y, hflow, by rw [far, hnone]⟩
    · have hcopier := isCopier_of_copierOf hflow hc
      cases isInput with
      | false =>
          rcases heq with heq | heq <;> cases heq
          · exact ⟨flow.dst, hflow, by rw [far, show flowOf false flow.src flow.dst = flow from rfl, hc]⟩
          · exact absurd hcopier hp
      | true =>
          rcases heq with heq | heq <;> cases heq
          · exact absurd hcopier hp
          · exact ⟨flow.src, hflow, by rw [far, show flowOf true flow.dst flow.src = flow from rfl, hc]⟩
  · rintro ⟨x, hx, rfl⟩
    refine ⟨_, hx, ?_⟩
    cases hc : b.copierOf copier flatFlows (flowOf isInput p x) with
    | none => exact .inl ⟨rfl, by rw [far, hc]⟩
    | some c =>
        refine .inr ⟨c, rfl, ?_⟩
        rw [far, hc]
        cases isInput with
        | false => exact .inl rfl
        | true => exact .inr rfl

/-- The peers of a copier are those of the flows it is in. -/
theorem mem_rectify_copier (hnames : CopierNames copier flatFlows) {isInput : Bool} {c : String} {y : Port}
    (hc : IsCopier copier flatFlows c) :
    flowOf isInput ⟨c, "0"⟩ y ∈ b.rectifyDomainFlows copier flatFlows ↔
      ∃ flow ∈ flatFlows, b.copierOf copier flatFlows flow = some c ∧
        y = if isInput then flow.src else flow.dst := by
  rw [mem_rectify_iff]
  constructor
  · rintro ⟨flow, hflow, ⟨-, heq⟩ | ⟨d, hd, heq⟩⟩
    · have hends := hnames.new flow hflow
      cases isInput <;> cases heq
      · exact absurd hc hends.1
      · exact absurd hc hends.2
    · have hends := hnames.new flow hflow
      cases isInput with
      | false =>
          rcases heq with heq | heq
          · have hsrc : flow.src.uid = c := (congrArg (fun x : Flow => x.src.uid) heq).symm
            exact absurd (hsrc ▸ hc) hends.1
          · cases heq
            exact ⟨flow, hflow, hd, rfl⟩
      | true =>
          rcases heq with heq | heq
          · cases heq
            exact ⟨flow, hflow, hd, rfl⟩
          · have hdst : flow.dst.uid = c := (congrArg (fun x : Flow => x.dst.uid) heq).symm
            exact absurd (hdst ▸ hc) hends.2
  · rintro ⟨flow, hflow, hd, rfl⟩
    refine ⟨flow, hflow, .inr ⟨c, hd, ?_⟩⟩
    cases isInput with
    | false => exact .inr rfl
    | true => exact .inl rfl

/-! ### How many sources a destination has -/

theorem count_pushNew {flows : List Flow} {x : Flow} (h : flows.count x ≤ 1) (flow : Flow) :
    (pushNew flows flow).count x ≤ 1 := by
  unfold pushNew
  split
  next => exact h
  next hnew =>
    rw [List.count_append]
    by_cases hx : x = flow
    · subst hx
      rw [List.count_eq_zero_of_not_mem hnew]
      simp
    · rw [List.count_eq_zero_of_not_mem (show x ∉ [flow] by simp [hx])]
      exact h

/-- A flow to or from a copier is there once, also if the flows it replaces are not. -/
theorem count_rectify_le_one (hnames : CopierNames copier flatFlows) {x : Flow}
    (hx : IsCopier copier flatFlows x.src.uid ∨ IsCopier copier flatFlows x.dst.uid) :
    (b.rectifyDomainFlows copier flatFlows).count x ≤ 1 := by
  have hfold : ∀ flows : List Flow, (∀ flow ∈ flows, flow ∈ flatFlows) → ∀ safe : List Flow,
      safe.count x ≤ 1 → (flows.foldl (b.rectifyFlow copier flatFlows) safe).count x ≤ 1 := by
    intro flows
    induction flows with
    | nil => exact fun _ safe h => h
    | cons flow flows ih =>
        intro hsub safe h
        refine ih (fun f hf => hsub f (List.mem_cons_of_mem _ hf)) _ ?_
        unfold rectifyFlow
        split
        next => exact count_pushNew (count_pushNew h _) _
        next =>
          have hends := hnames.new flow (hsub flow List.mem_cons_self)
          have hne : x ∉ [flow] := by
            intro hmem
            rw [List.mem_singleton.mp hmem] at hx
            exact hx.elim hends.1 hends.2
          rw [List.count_append, List.count_eq_zero_of_not_mem hne]
          exact h
  exact hfold flatFlows (fun _ h => h) [] (Nat.zero_le 1)

theorem length_srcsOf_le_one {flows : List Flow} {dst : Port} :
    (srcsOf flows dst).length ≤ 1 ↔ (flows.filter (·.dst = dst)).length ≤ 1 := by
  rw [length_srcsOf]
  constructor
  · intro h
    by_contra hmany
    have hsquare := Nat.mul_le_mul (Nat.not_le.mp hmany) (Nat.not_le.mp hmany)
    omega
  · intro h
    exact Nat.mul_le_mul h h

theorem eq_of_length_le_one {α : Type} {l : List α} (h : l.length ≤ 1) {x y : α} (hx : x ∈ l) (hy : y ∈ l) :
    x = y := by
  match l, h with
  | [a], _ => rw [List.mem_singleton.mp hx, List.mem_singleton.mp hy]

theorem filter_pushNew {flows : List Flow} {flow : Flow} {P : Flow → Bool} (h : P flow = false) :
    (pushNew flows flow).filter P = flows.filter P := by
  unfold pushNew
  split
  next => rfl
  next => simp [h]

/-- The flows that no copier goes into stay as they are, also in order and number. -/
theorem filter_rectify {P : Flow → Bool}
    (h : ∀ flow ∈ flatFlows, ∀ c, b.copierOf copier flatFlows flow = some c →
      P flow = false ∧ P ⟨flow.src, ⟨c, "0"⟩⟩ = false ∧ P ⟨⟨c, "0"⟩, flow.dst⟩ = false) :
    (b.rectifyDomainFlows copier flatFlows).filter P = flatFlows.filter P := by
  have hfold : ∀ flows : List Flow, (∀ flow ∈ flows, flow ∈ flatFlows) → ∀ safe : List Flow,
      (flows.foldl (b.rectifyFlow copier flatFlows) safe).filter P = safe.filter P ++ flows.filter P := by
    intro flows
    induction flows with
    | nil => simp
    | cons flow flows ih =>
        intro hsub safe
        rw [List.foldl_cons, ih (fun f hf => hsub f (List.mem_cons_of_mem _ hf))]
        cases hc : b.copierOf copier flatFlows flow with
        | none =>
            rw [rectifyFlow, hc]
            cases hP : P flow <;> simp [hP]
        | some c =>
            obtain ⟨hP, hto, hfrom⟩ := h flow (hsub flow List.mem_cons_self) c hc
            simp only [rectifyFlow, hc]
            rw [filter_pushNew hfrom, filter_pushNew hto]
            simp [hP]
  exact hfold flatFlows (fun _ h => h) []

/-- The flows to a destination that are not cut. -/
theorem filter_dst_rectify {d : Port} (hd : ¬ IsCopier copier flatFlows d.uid)
    (hnone : ∀ flow ∈ flatFlows, flow.dst = d → b.copierOf copier flatFlows flow = none) :
    (b.rectifyDomainFlows copier flatFlows).filter (·.dst = d) = flatFlows.filter (·.dst = d) := by
  refine filter_rectify fun flow hflow c hc => ?_
  have hdst : flow.dst ≠ d := by
    intro h
    rw [hnone flow hflow h] at hc
    cases hc
  have hcopier : (⟨c, "0"⟩ : Port) ≠ d := by
    rintro rfl
    exact hd (isCopier_of_copierOf hflow hc)
  simp [hdst, hcopier]

/-- The flows from a source that are not cut. -/
theorem filter_src_rectify {src : Port} (hsrc : ¬ IsCopier copier flatFlows src.uid)
    (hnone : ∀ flow ∈ flatFlows, flow.src = src → b.copierOf copier flatFlows flow = none) :
    (b.rectifyDomainFlows copier flatFlows).filter (·.src = src) = flatFlows.filter (·.src = src) := by
  refine filter_rectify fun flow hflow c hc => ?_
  have hne : flow.src ≠ src := by
    intro h
    rw [hnone flow hflow h] at hc
    cases hc
  have hcopier : (⟨c, "0"⟩ : Port) ≠ src := by
    rintro rfl
    exact hsrc (isCopier_of_copierOf hflow hc)
  simp [hne, hcopier]

/-- A destination behind a copier has one source if all its peers are that copier. -/
theorem single_iff_of_cut (hnames : CopierNames copier flatFlows) {d x : Port}
    (hd : ¬ IsCopier copier flatFlows d.uid) (hx : flowOf true d x ∈ flatFlows)
    (hcut : b.Bad true flatFlows d ∨ b.Bad false flatFlows x) :
    (srcsOf (b.rectifyDomainFlows copier flatFlows) d).length ≤ 1 ↔
      ∀ y, flowOf true d y ∈ flatFlows → b.far copier flatFlows true d y = b.far copier flatFlows true d x := by
  obtain ⟨c, hc, hfar⟩ : ∃ c, IsCopier copier flatFlows c ∧ b.far copier flatFlows true d x = ⟨c, "0"⟩ :=
    far_of_cut hx hcut
  have hmem : ∀ y, flowOf true d y ∈ b.rectifyDomainFlows copier flatFlows ↔
      ∃ z, flowOf true d z ∈ flatFlows ∧ y = b.far copier flatFlows true d z := fun y => mem_rectify_flowOf hd
  rw [length_srcsOf_le_one]
  have hin : ∀ y, flowOf true d y ∈ flatFlows →
      (⟨b.far copier flatFlows true d y, d⟩ : Flow) ∈
        (b.rectifyDomainFlows copier flatFlows).filter (·.dst = d) := by
    intro y hy
    exact List.mem_filter.mpr ⟨(hmem _).mpr ⟨y, hy, rfl⟩, by simp⟩
  constructor
  · intro hone y hy
    exact congrArg Flow.src (eq_of_length_le_one hone (hin y hy) (hin x hx))
  · intro hall
    -- all flows to the destination are the one from the copier, which is there once
    have hsame : ∀ flow ∈ (b.rectifyDomainFlows copier flatFlows).filter (·.dst = d),
        (⟨⟨c, "0"⟩, d⟩ : Flow) = flow := by
      rintro ⟨src, dst⟩ hflow
      obtain ⟨hsafe, hdst⟩ := List.mem_filter.mp hflow
      obtain rfl : dst = d := by simpa using hdst
      obtain ⟨y, hy, rfl⟩ := (hmem src).mp hsafe
      rw [hall y hy, hfar]
    rw [← List.count_eq_length.mpr hsame]
    exact (List.filter_sublist.count_le _).trans (count_rectify_le_one hnames (.inl hc))

/-! ### Ports that were there before -/

theorem bad_iff {isInput : Bool} {flows : List Flow} {p : Port} :
    ¬ b.Bad isInput flows p ↔ (∃ x, flowOf isInput p x ∈ flows) ∧
      ∃ domain, (∀ x, flowOf isInput p x ∈ flows → b.domain x (!isInput) = domain) ∧
        (b.getBufferMode p domain isInput = .abdicate ∨
          b.getBufferMode p domain isInput = .custom ∧
            (isInput = true → (srcsOf flows p).length ≤ 1) ∧
            ∀ x, flowOf isInput p x ∈ flows → b.getBufferMode x (b.domain p isInput) (!isInput) = .abdicate) := by
  rw [Bad, Bool.not_eq_false, acceptable_iff]
  have hne : peers isInput flows p ≠ [] ↔ ∃ x, flowOf isInput p x ∈ flows := by
    constructor
    · intro h
      obtain ⟨x, hx⟩ := List.exists_mem_of_ne_nil _ h
      exact ⟨x, mem_peers.mp hx⟩
    · rintro ⟨x, hx⟩
      exact List.ne_nil_of_mem (mem_peers.mpr hx)
  have hlength : (isInput = true → (peers isInput flows p).length ≤ 1) ↔
      (isInput = true → (srcsOf flows p).length ≤ 1) := by
    refine imp_congr_right ?_
    rintro rfl
    rfl
  simp only [hne, hlength, mem_peers]

/-- Some flow of a port has a copier. -/
def Cut (b : Blocks) (flatFlows : List Flow) (isInput : Bool) (p x : Port) : Prop :=
  b.Bad isInput flatFlows p ∨ b.Bad (!isInput) flatFlows x

/-- Behind a good destination, sources with the same copier are the same. -/
theorem eq_of_far_eq (hnames : CopierNames copier flatFlows) {d x y : Port}
    (hd : ¬ b.Bad true flatFlows d) (hx : flowOf true d x ∈ flatFlows) (hy : flowOf true d y ∈ flatFlows)
    (hbad : b.Bad false flatFlows x)
    (hfar : b.far copier flatFlows true d y = b.far copier flatFlows true d x) : y = x := by
  have hcopier : ∀ z, b.Bad false flatFlows z → b.far copier flatFlows true d z = ⟨copier false z, "0"⟩ := by
    intro z hz
    have hof : b.copierOf copier flatFlows (flowOf true d z) = some (copier false z) := copierOf_src hd hz
    rw [far, hof]
  rw [hcopier x hbad] at hfar
  by_cases hybad : b.Bad false flatFlows y
  · rw [hcopier y hybad] at hfar
    exact hnames.src_inj hy hx (congrArg Port.uid hfar)
  · rw [far_of_kept hd hybad] at hfar
    have huid : y.uid = copier false x := congrArg Port.uid hfar
    exact absurd (huid ▸ isCopier_src hx) (hnames.new _ hy).1

/-- What is asked for a port with a flow that is cut. -/
structure Fits (b : Blocks) (flatFlows : List Flow) (isInput : Bool) (p : Port) : Prop where
  unspecified : b.getBufferMode p "" isInput ≠ .error
  kept : ∀ x, flowOf isInput p x ∈ flatFlows → ¬ b.Cut flatFlows isInput p x → b.domain x (!isInput) = ""
  one : isInput = true → ¬ b.Bad true flatFlows p → b.getBufferMode p "" true = .custom →
    ∀ x y, flowOf true p x ∈ flatFlows → flowOf true p y ∈ flatFlows → x = y

/-- **A port with a flow that is cut**: on its other side it has copiers, which are
nowhere and abdicate, and the peers that were kept. -/
theorem bad_iff_fits (hc : Copiers b copier flatFlows) {isInput : Bool} {p x : Port}
    (hx : flowOf isInput p x ∈ flatFlows) (hcut : b.Cut flatFlows isInput p x) :
    ¬ b.Bad isInput (b.rectifyDomainFlows copier flatFlows) p ↔ b.Fits flatFlows isInput p := by
  have hp : ¬ IsCopier copier flatFlows p.uid := by
    have hends := hc.new _ hx
    cases isInput with
    | false => exact hends.1
    | true => exact hends.2
  have hpeers : ∀ y, flowOf isInput p y ∈ b.rectifyDomainFlows copier flatFlows ↔
      ∃ z, flowOf isInput p z ∈ flatFlows ∧ y = b.far copier flatFlows isInput p z :=
    fun y => mem_rectify_flowOf hp
  obtain ⟨c, hcopier, hfar⟩ : ∃ c, IsCopier copier flatFlows c ∧ b.far copier flatFlows isInput p x = ⟨c, "0"⟩ :=
    far_of_cut hx hcut
  have hfarx : flowOf isInput p ⟨c, "0"⟩ ∈ b.rectifyDomainFlows copier flatFlows :=
    (hpeers _).mpr ⟨x, hx, hfar.symm⟩
  rw [bad_iff]
  constructor
  · rintro ⟨-, domain, hall, hmode⟩
    obtain rfl : domain = "" := (hall _ hfarx).symm.trans (hc.domain c hcopier _)
    refine ⟨?_, ?_, ?_⟩
    · rcases hmode with hmode | ⟨hmode, -⟩ <;> simp [hmode]
    · intro y hy hkept
      have hfary : b.far copier flatFlows isInput p y = y :=
        far_of_kept (fun h => hkept (.inl h)) (fun h => hkept (.inr h))
      exact hall y ((hpeers y).mpr ⟨y, hy, hfary.symm⟩)
    · rintro rfl hgood hcustom y z hy hz
      have hone : (srcsOf (b.rectifyDomainFlows copier flatFlows) p).length ≤ 1 := by
        rcases hmode with hmode | ⟨-, hone, -⟩
        · rw [hcustom] at hmode
          cases hmode
        · exact hone rfl
      have hsame := (single_iff_of_cut hc.toCopierNames hp hx hcut).mp hone
      have hbad := hcut.resolve_left hgood
      rw [eq_of_far_eq hc.toCopierNames hgood hx hy hbad (hsame y hy),
        eq_of_far_eq hc.toCopierNames hgood hx hz hbad (hsame z hz)]
  · intro hfits
    refine ⟨⟨_, hfarx⟩, "", ?_, ?_⟩
    · intro y hy
      obtain ⟨z, hz, rfl⟩ := (hpeers y).mp hy
      by_cases hcutz : b.Cut flatFlows isInput p z
      · obtain ⟨d, hd, hfarz⟩ : ∃ d, IsCopier copier flatFlows d ∧
            b.far copier flatFlows isInput p z = ⟨d, "0"⟩ := far_of_cut hz hcutz
        rw [hfarz, hc.domain d hd]
      · rw [far_of_kept (fun h => hcutz (.inl h)) (fun h => hcutz (.inr h))]
        exact hfits.kept z hz hcutz
    · cases hmode : b.getBufferMode p "" isInput with
      | error => exact absurd hmode hfits.unspecified
      | abdicate => exact .inl rfl
      | custom =>
          refine .inr ⟨rfl, ?_, ?_⟩
          · rintro rfl
            refine (single_iff_of_cut hc.toCopierNames hp hx hcut).mpr fun y hy => ?_
            by_cases hbad : b.Bad true flatFlows p
            · have hof : ∀ z, b.copierOf copier flatFlows (flowOf true p z) = some (copier true p) :=
                fun z => copierOf_dst hbad
              rw [far, hof, far, hof]
            · rw [hfits.one rfl hbad hmode y x hy hx]
          · intro y hy
            obtain ⟨z, hz, rfl⟩ := (hpeers y).mp hy
            by_cases hcutz : b.Cut flatFlows isInput p z
            · obtain ⟨d, hd, hfarz⟩ : ∃ d, IsCopier copier flatFlows d ∧
            b.far copier flatFlows isInput p z = ⟨d, "0"⟩ := far_of_cut hz hcutz
              rw [hfarz, hc.abdicate d hd]
            · -- the port is good, and had its manager for the unspecified domain before
              rw [far_of_kept (fun h => hcutz (.inl h)) (fun h => hcutz (.inr h))]
              obtain ⟨-, domain, hall, hold⟩ := bad_iff.mp (fun h => hcutz (.inl h))
              obtain rfl : domain = "" := (hall z hz).symm.trans (hfits.kept z hz hcutz)
              rcases hold with hold | ⟨-, -, habdicate⟩
              · rw [hmode] at hold
                cases hold
              · exact habdicate z hz

/-- A port with none of its flows cut is as it was. -/
theorem bad_of_no_cut {isInput : Bool} {p : Port} (hp : ¬ IsCopier copier flatFlows p.uid)
    (hnone : ∀ x, flowOf isInput p x ∈ flatFlows → ¬ b.Cut flatFlows isInput p x)
    (hgood : ¬ b.Bad isInput flatFlows p) : ¬ b.Bad isInput (b.rectifyDomainFlows copier flatFlows) p := by
  have hpeers : ∀ y, flowOf isInput p y ∈ b.rectifyDomainFlows copier flatFlows ↔
      flowOf isInput p y ∈ flatFlows := by
    intro y
    rw [mem_rectify_flowOf hp]
    constructor
    · rintro ⟨x, hx, rfl⟩
      rwa [far_of_kept hgood (fun h => hnone x hx (.inr h))]
    · intro hy
      exact ⟨y, hy, (far_of_kept hgood (fun h => hnone y hy (.inr h))).symm⟩
  have hsingle : isInput = true → ((srcsOf flatFlows p).length ≤ 1 →
      (srcsOf (b.rectifyDomainFlows copier flatFlows) p).length ≤ 1) := by
    rintro rfl hone
    rw [length_srcsOf_le_one, filter_dst_rectify hp ?_]
    · exact length_srcsOf_le_one.mp hone
    · rintro ⟨src, dst⟩ hflow rfl
      exact copierOf_none hgood (fun h => hnone src hflow (.inr h))
  obtain ⟨hex, domain, hall, hmode⟩ := bad_iff.mp hgood
  refine bad_iff.mpr ⟨?_, domain, ?_, ?_⟩
  · obtain ⟨x, hx⟩ := hex
    exact ⟨x, (hpeers x).mpr hx⟩
  · exact fun x hx => hall x ((hpeers x).mp hx)
  · refine hmode.imp_right (And.imp_right (And.imp (fun h hin => hsingle hin (h hin)) ?_))
    exact fun h x hx => h x ((hpeers x).mp hx)

/-! ### Copiers -/

theorem copierOf_inv {flow : Flow} {c : String} (h : b.copierOf copier flatFlows flow = some c) :
    b.Bad true flatFlows flow.dst ∧ c = copier true flow.dst ∨
      ¬ b.Bad true flatFlows flow.dst ∧ b.Bad false flatFlows flow.src ∧ c = copier false flow.src := by
  by_cases hdst : b.Bad true flatFlows flow.dst
  · rw [copierOf_dst hdst] at h
    exact .inl ⟨hdst, (Option.some.inj h).symm⟩
  · by_cases hsrc : b.Bad false flatFlows flow.src
    · rw [copierOf_src hdst hsrc] at h
      exact .inr ⟨hdst, hsrc, (Option.some.inj h).symm⟩
    · rw [copierOf_none hdst hsrc] at h
      cases h

/-- A copier abdicates, so all it needs is that its peers share a domain. -/
theorem copier_bad_iff (hc : Copiers b copier flatFlows) {isInput : Bool} {flow : Flow} {c : String}
    (hflow : flow ∈ flatFlows) (hof : b.copierOf copier flatFlows flow = some c) :
    ¬ b.Bad isInput (b.rectifyDomainFlows copier flatFlows) ⟨c, "0"⟩ ↔
      ∃ domain, ∀ f ∈ flatFlows, b.copierOf copier flatFlows f = some c →
        b.domain (if isInput then f.src else f.dst) (!isInput) = domain := by
  have hcopier := isCopier_of_copierOf hflow hof
  have hpeers : ∀ y, flowOf isInput ⟨c, "0"⟩ y ∈ b.rectifyDomainFlows copier flatFlows ↔
      ∃ f ∈ flatFlows, b.copierOf copier flatFlows f = some c ∧ y = if isInput then f.src else f.dst :=
    fun y => mem_rectify_copier hc.toCopierNames hcopier
  rw [bad_iff]
  constructor
  · rintro ⟨-, domain, hall, -⟩
    exact ⟨domain, fun f hf hfc => hall _ ((hpeers _).mpr ⟨f, hf, hfc, rfl⟩)⟩
  · rintro ⟨domain, hall⟩
    refine ⟨⟨_, (hpeers _).mpr ⟨flow, hflow, hof, rfl⟩⟩, domain, ?_, .inl (hc.abdicate c hcopier _ _)⟩
    intro y hy
    obtain ⟨f, hf, hfc, rfl⟩ := (hpeers y).mp hy
    exact hall f hf hfc

/-! ### All flows -/

/-- **When rectifying the domains works.** A port with a flow that is cut fits to that;
the sources of a bad destination share a domain, and so do the destinations of a bad
source that are not bad themselves. -/
structure Rectified (b : Blocks) (flatFlows : List Flow) : Prop where
  fits : ∀ isInput p x, flowOf isInput p x ∈ flatFlows → b.Cut flatFlows isInput p x →
    b.Fits flatFlows isInput p
  srcs : ∀ d, b.Bad true flatFlows d → ∀ f ∈ flatFlows, f.dst = d → ∀ g ∈ flatFlows, g.dst = d →
    b.domain f.src false = b.domain g.src false
  dsts : ∀ s, b.Bad false flatFlows s → ∀ f ∈ flatFlows, f.src = s → ¬ b.Bad true flatFlows f.dst →
    ∀ g ∈ flatFlows, g.src = s → ¬ b.Bad true flatFlows g.dst → b.domain f.dst true = b.domain g.dst true

theorem Rectified.port_ok (h : b.Rectified flatFlows) (hc : Copiers b copier flatFlows) {isInput : Bool}
    {p x : Port} (hx : flowOf isInput p x ∈ flatFlows) :
    ¬ b.Bad isInput (b.rectifyDomainFlows copier flatFlows) p := by
  by_cases hcut : ∃ y, flowOf isInput p y ∈ flatFlows ∧ b.Cut flatFlows isInput p y
  · obtain ⟨y, hy, hcut⟩ := hcut
    exact (bad_iff_fits hc hy hcut).mpr (h.fits isInput p y hy hcut)
  · have hnone : ∀ y, flowOf isInput p y ∈ flatFlows → ¬ b.Cut flatFlows isInput p y :=
      fun y hy h => hcut ⟨y, hy, h⟩
    have hends := hc.new _ hx
    refine bad_of_no_cut ?_ hnone (fun hbad => hnone x hx (.inl hbad))
    cases isInput with
    | false => exact hends.1
    | true => exact hends.2

theorem Rectified.copier_ok (h : b.Rectified flatFlows) (hc : Copiers b copier flatFlows) {isInput : Bool}
    {flow : Flow} {c : String} (hflow : flow ∈ flatFlows) (hof : b.copierOf copier flatFlows flow = some c) :
    ¬ b.Bad isInput (b.rectifyDomainFlows copier flatFlows) ⟨c, "0"⟩ := by
  refine (copier_bad_iff hc hflow hof).mpr
    ⟨b.domain (if isInput then flow.src else flow.dst) (!isInput), fun f hf hfc => ?_⟩
  rcases copierOf_inv hof with ⟨hbad, heq⟩ | ⟨hgood, hbad, heq⟩ <;>
    rcases copierOf_inv hfc with ⟨hfbad, hfeq⟩ | ⟨hfgood, hfbad, hfeq⟩
  · have hdst := hc.dst_inj hf hflow (hfeq.symm.trans heq)
    cases isInput with
    | false => exact congrArg (b.domain · true) hdst
    | true => exact h.srcs _ hbad f hf hdst flow hflow rfl
  · exact absurd (heq.symm.trans hfeq) (hc.dst_ne_src hflow hf)
  · exact absurd (hfeq.symm.trans heq) (hc.dst_ne_src hf hflow)
  · have hsrc := hc.src_inj hf hflow (hfeq.symm.trans heq)
    cases isInput with
    | false => exact h.dsts _ hbad f hf hsrc hfgood flow hflow rfl hgood
    | true => exact congrArg (b.domain · false) hsrc

theorem Rectified.src_ok (h : b.Rectified flatFlows) (hc : Copiers b copier flatFlows) {flow : Flow}
    (hflow : flow ∈ flatFlows) : ¬ b.Bad false (b.rectifyDomainFlows copier flatFlows) flow.src :=
  h.port_ok hc (show flowOf false flow.src flow.dst ∈ flatFlows from hflow)

theorem Rectified.dst_ok (h : b.Rectified flatFlows) (hc : Copiers b copier flatFlows) {flow : Flow}
    (hflow : flow ∈ flatFlows) : ¬ b.Bad true (b.rectifyDomainFlows copier flatFlows) flow.dst :=
  h.port_ok hc (show flowOf true flow.dst flow.src ∈ flatFlows from hflow)

/-- **The crossings are acceptable exactly when rectifying works.** -/
theorem accepted_iff_rectified (hc : Copiers b copier flatFlows) :
    b.Accepted (b.rectifyDomainFlows copier flatFlows) ↔ b.Rectified flatFlows := by
  have haccepted : b.Accepted (b.rectifyDomainFlows copier flatFlows) ↔
      ∀ flow ∈ b.rectifyDomainFlows copier flatFlows,
        ¬ b.Bad false (b.rectifyDomainFlows copier flatFlows) flow.src ∧
          ¬ b.Bad true (b.rectifyDomainFlows copier flatFlows) flow.dst := by
    refine forall₂_congr fun flow _ => ?_
    rw [Bad, Bad, Bool.not_eq_false, Bool.not_eq_false]
    rfl
  rw [haccepted]
  constructor
  · intro h
    refine ⟨?_, ?_, ?_⟩
    · intro isInput p x hx hcut
      refine (bad_iff_fits hc hx hcut).mp ?_
      have hends := hc.new _ hx
      cases isInput with
      | false => exact (h _ ((mem_rectify_flowOf hends.1).mpr ⟨x, hx, rfl⟩)).1
      | true => exact (h _ ((mem_rectify_flowOf hends.2).mpr ⟨x, hx, rfl⟩)).2
    · rintro d hbad f hf rfl g hg hgd
      have hof : b.copierOf copier flatFlows f = _ := copierOf_dst hbad
      have hog : b.copierOf copier flatFlows g = some (copier true f.dst) := by
        rw [← hgd] at hbad ⊢
        exact copierOf_dst hbad
      obtain ⟨domain, hall⟩ := (copier_bad_iff hc hf hof).mp
        (h _ (mem_rectify_iff.mpr ⟨f, hf, .inr ⟨_, hof, .inl rfl⟩⟩)).2
      exact (hall f hf hof).trans (hall g hg hog).symm
    · rintro s hbad f hf rfl hfgood g hg hgs hggood
      have hof : b.copierOf copier flatFlows f = _ := copierOf_src hfgood hbad
      have hog : b.copierOf copier flatFlows g = some (copier false f.src) := by
        rw [← hgs] at hbad ⊢
        exact copierOf_src hggood hbad
      obtain ⟨domain, hall⟩ := (copier_bad_iff hc hf hof).mp
        (h _ (mem_rectify_iff.mpr ⟨f, hf, .inr ⟨_, hof, .inr rfl⟩⟩)).1
      exact (hall f hf hof).trans (hall g hg hog).symm
  · intro h flow hflow
    obtain ⟨f, hf, hcases⟩ := mem_rectify_iff.mp hflow
    have hsrc := h.src_ok hc hf
    have hdst := h.dst_ok hc hf
    rcases hcases with ⟨-, rfl⟩ | ⟨c, hof, rfl | rfl⟩
    · exact ⟨hsrc, hdst⟩
    · exact ⟨hsrc, h.copier_ok hc hf hof⟩
    · exact ⟨h.copier_ok hc hf hof, hdst⟩

end Blocks

end PothosCore.Framework

import Mathlib.Data.Fintype.Basic
import PothosCore.Object.Convert

/-!
# PothosCore.Object.ConvertHistory

What a history of plugin events should mean: the converters that are registered, those
that were added and not removed since, in the order in which they were added. A history
in which the removed converters never occur has the same registered ones, and there
`canConvert` says what `convert` does (`predicts_fresh`).

In any other history the two behave in that way if and only if no null plugin stands in
their path, and no entry that a removal has overwritten (`predicts_iff`).
-/

namespace PothosCore.Objects

variable {τ ο π : Type}

/-- The first value in the order of a finite set. -/
theorem findSome?_sort {β : Type} (s : Finset Nat) (f : Nat → Option β) :
    ((s.sort (· ≤ ·)).findSome? f = none ↔ ∀ h ∈ s, f h = none) ∧
      ∀ b, (s.sort (· ≤ ·)).findSome? f = some b → ∃ h ∈ s, f h = some b ∧ ∀ h' ∈ s, h' < h → f h' = none := by
  constructor
  · rw [List.findSome?_eq_none_iff]
    simp
  · intro b hb
    obtain ⟨before, h, after, hsplit, hval, hnone⟩ := List.findSome?_eq_some_iff.mp hb
    have hmem : ∀ x, x ∈ s ↔ x ∈ before ++ h :: after := fun x => by rw [← hsplit, Finset.mem_sort]
    refine ⟨h, (hmem h).mpr (by simp), hval, fun h' hh' hlt => ?_⟩
    cases List.mem_append.mp ((hmem h').mp hh') with
    | inl hbefore => exact hnone h' hbefore
    | inr hafter =>
        have hsorted := s.pairwise_sort (· ≤ ·)
        rw [hsplit, List.pairwise_append, List.pairwise_cons] at hsorted
        cases List.mem_cons.mp hafter with
        | inl he => omega
        | inr hlater =>
            have := hsorted.2.1.1 h' hlater
            omega

namespace Runtime

variable (R : Runtime τ ο π)

/-- The conversion runs a chain of these converters, or needs none. -/
inductive RunsChain (plugins : List π) (x : ο) (type : τ) : Converted ο π → Prop
  | same : R.type x = type → RunsChain plugins x type ⟨[], .ok x⟩
  | make : type = R.objectType → RunsChain plugins x type ⟨[], .ok (R.make x)⟩
  | direct {p : π} {call : Callable τ ο} : p ∈ plugins → R.converterTypes p = some (R.type x, type) →
      R.callable p = some call → RunsChain plugins x type ⟨[p], call.opaqueCall [x]⟩
  | first {p q : π} {m : τ} {call : Callable τ ο} {e : Fault} : p ∈ plugins → q ∈ plugins →
      R.converterTypes p = some (R.type x, m) → R.converterTypes q = some (m, type) →
      R.callable p = some call → call.opaqueCall [x] = .error e → RunsChain plugins x type ⟨[p], .error e⟩
  | both {p q : π} {m : τ} {call₁ call₂ : Callable τ ο} {y : ο} : p ∈ plugins → q ∈ plugins →
      R.converterTypes p = some (R.type x, m) → R.converterTypes q = some (m, type) →
      R.callable p = some call₁ → R.callable q = some call₂ → call₁.opaqueCall [x] = .ok y →
      RunsChain plugins x type ⟨[p, q], call₂.opaqueCall [y]⟩

variable [DecidableEq τ]

/-- The pair of types has an entry that is not null. -/
def Live (events : List (PluginEvent π)) (s d : τ) : Prop := ∃ p, R.slot events s d = some (some p)

variable {R} {events : List (PluginEvent π)} {s d : τ}

variable {x : ο} {type : τ}

theorem convert_trivial (plugins : List π) (maps : ConvertMaps π) (h : R.type x = type ∨ type = R.objectType) :
    R.RunsChain plugins x type (R.convert maps x type) := by
  rw [convert]
  by_cases hsame : R.type x = type
  · rw [if_pos hsame]
    exact .same hsame
  · rw [if_neg hsame, if_pos (h.resolve_left hsame)]
    exact .make (h.resolve_left hsame)

omit [DecidableEq τ] in
theorem not_runsChain_error {plugins : List π} {e : Fault} : ¬ R.RunsChain plugins x type ⟨[], .error e⟩ := by
  intro h
  cases h

/-! ### The search -/

/-- The halves of an intermediate conversion, from the slots. -/
def slotHalves (R : Runtime τ ο π) (events : List (PluginEvent π)) (s m d : τ) : Option (Option π × Option π) :=
  match R.slot events s m, R.slot events m d with
  | some plugin₁, some plugin₂ => some (plugin₁, plugin₂)
  | _, _ => none

theorem halves_run (hinj : R.Injective) (events : List (PluginEvent π)) (s m d : τ) :
    R.halves (R.run events) s d (R.hashCode m) = R.slotHalves events s m d := by
  rw [halves, slotHalves, ← run_convertMap hinj events s m, ← run_convertMap hinj events m d]
  rfl

theorem slotHalves_eq_some {a b : Option π} {m : τ} :
    R.slotHalves events s m d = some (a, b) ↔ R.slot events s m = some a ∧ R.slot events m d = some b := by
  rw [slotHalves]
  cases R.slot events s m <;> cases R.slot events m d <;> simp

/-- No intermediate conversion is found. -/
theorem intermediate_eq_none (hinj : R.Injective) :
    R.intermediate (R.run events) s d = none ↔ ∀ m, R.Live events s m → R.slot events m d = none := by
  rw [intermediate, (findSome?_sort _ _).1]
  constructor
  · intro hnone m hm
    have hhalves := hnone (R.hashCode m) ((mem_run_convertIoMap hinj events s m).mpr hm)
    rw [halves_run hinj] at hhalves
    obtain ⟨p, hp⟩ := hm
    cases hslot : R.slot events m d with
    | none => rfl
    | some q =>
        rw [slotHalves_eq_some.mpr ⟨hp, hslot⟩] at hhalves
        cases hhalves
  · intro hnone h hh
    obtain ⟨m, rfl⟩ := exists_of_mem_convertIoMap hh
    rw [halves_run hinj, slotHalves, hnone m ((mem_run_convertIoMap hinj events s m).mp hh)]
    cases R.slot events s m <;> rfl

/-- **The intermediate conversion that is found** goes over the first type, in the order of
the hashes, that leads on. -/
theorem intermediate_eq_some (hinj : R.Injective) {a b : Option π}
    (h : R.intermediate (R.run events) s d = some (a, b)) :
    ∃ m p, a = some p ∧ R.slot events s m = some (some p) ∧ R.slot events m d = some b ∧
      ∀ m', R.hashCode m' < R.hashCode m → R.Live events s m' → R.slot events m' d = none := by
  obtain ⟨h₀, hmem, hval, hbefore⟩ := (findSome?_sort _ _).2 _ h
  obtain ⟨m, rfl⟩ := exists_of_mem_convertIoMap hmem
  rw [halves_run hinj] at hval
  obtain ⟨hsm, hmd⟩ := slotHalves_eq_some.mp hval
  obtain ⟨p, hp⟩ := (mem_run_convertIoMap hinj events s m).mp hmem
  refine ⟨m, p, Option.some.inj (hsm.symm.trans hp), hp, hmd, fun m' hlt hlive => ?_⟩
  have hnone := hbefore _ ((mem_run_convertIoMap hinj events s m').mpr hlive) hlt
  rw [halves_run hinj] at hnone
  obtain ⟨q, hq⟩ := hlive
  cases hslot : R.slot events m' d with
  | none => rfl
  | some b' =>
      rw [slotHalves_eq_some.mpr ⟨hq, hslot⟩] at hnone
      cases hnone

/-! ### Registered converters -/

/-- The registered converters of a pair. -/
def converters (R : Runtime τ ο π) (plugins : List π) (s d : τ) : List π :=
  plugins.filter (R.converterTypes · = some (s, d))

/-- Without removals the last converter stands in the slot. -/
theorem slot_map_add (plugins : List π) (s d : τ) :
    R.slot (plugins.map .add) s d = (R.converters plugins s d).getLast?.map some := by
  induction plugins using List.reverseRecOn with
  | nil => rfl
  | append_singleton plugins p ih =>
      rw [List.map_append, List.map_singleton, slot_concat, converters, List.filter_append]
      by_cases hp : R.converterTypes p = some (s, d)
      · simp [PluginEvent.plugin, PluginEvent.stored, hp]
      · simp [PluginEvent.plugin, hp, ih, converters]

variable [DecidableEq π] (R)

/-- The converters that are registered after a history. -/
def registered (events : List (PluginEvent π)) : List π :=
  events.foldl
    (fun plugins event =>
      match event with
      | .add p => plugins.filter (· ≠ p) ++ [p]
      | .remove p => plugins.filter (· ≠ p)) []

/-- The history in which the removed converters never occur. -/
def fresh (events : List (PluginEvent π)) : List (PluginEvent π) := (registered events).map .add

/-- `canConvert` predicts `convert`, and both behave as if the removed converters had never
been added. -/
structure Predicts (events : List (PluginEvent π)) (x : ο) (type : τ) : Prop where
  chain : R.canConvert (R.run events) x type = true ↔
    R.RunsChain (registered events) x type (R.convert (R.run events) x type)
  refuses : R.canConvert (R.run events) x type = false →
    ∃ what message, R.convert (R.run events) x type = ⟨[], .error (.thrown "ObjectConvertError" what message)⟩
  can_fresh : R.canConvert (R.run events) x type = R.canConvert (R.run (fresh events)) x type
  convert_fresh : R.convert (R.run events) x type = R.convert (R.run (fresh events)) x type

/-! ### The condition -/

/-- There is a registered converter for the pair. -/
def Registered (events : List (PluginEvent π)) (s d : τ) : Prop :=
  ∃ p ∈ registered events, R.converterTypes p = some (s, d)

/-- The type `m` between `s` and `d` leads to a null plugin, or it should lead to two
converters and an entry of them was overwritten. -/
def Misleads (events : List (PluginEvent π)) (s m d : τ) : Prop :=
  (R.Live events s m ∧ R.slot events m d = some none) ∨
    (R.Registered events s m ∧ R.Registered events m d ∧ ¬ (R.Live events s m ∧ R.Live events m d))

/-- No null plugin and no overwritten entry stands in the path of a conversion. -/
def Clear (events : List (PluginEvent π)) (s d : τ) : Prop :=
  R.Live events s d ∨
    (R.slot events s d = none ∧ ∀ m, R.Misleads events s m d →
      ∃ m', R.hashCode m' < R.hashCode m ∧ R.Live events s m' ∧ R.Live events m' d)

/-! ### Registered converters and slots -/

variable {R}

omit [DecidableEq τ] in
theorem registered_concat (events : List (PluginEvent π)) (event : PluginEvent π) :
    registered (events ++ [event]) =
      match event with
      | .add p => (registered events).filter (· ≠ p) ++ [p]
      | .remove p => (registered events).filter (· ≠ p) := by
  rw [registered, List.foldl_append]
  rfl

theorem converters_filter_ne (plugins : List π) {p : π} (hp : R.converterTypes p ≠ some (s, d)) :
    R.converters (plugins.filter (· ≠ p)) s d = R.converters plugins s d := by
  rw [converters, List.filter_filter]
  refine List.filter_congr fun q _ => ?_
  by_cases hq : q = p
  · subst hq
    simp [hp]
  · simp [hq]

/-- **A slot is the last registered converter of its pair**, unless it is null. -/
theorem slot_registered (events : List (PluginEvent π)) (s d : τ) :
    (∀ p, R.slot events s d = some (some p) → (R.converters (registered events) s d).getLast? = some p) ∧
      (R.slot events s d = none → R.converters (registered events) s d = []) := by
  induction events using List.reverseRecOn with
  | nil => exact ⟨fun p hp => (by cases hp), fun _ => rfl⟩
  | append_singleton events event ih =>
      rw [slot_concat, registered_concat]
      by_cases htypes : R.converterTypes event.plugin = some (s, d)
      · rw [if_pos htypes]
        cases event with
        | add q =>
            have hq : R.converterTypes q = some (s, d) := htypes
            refine ⟨fun p hp => ?_, fun hnone => (by cases hnone)⟩
            obtain rfl : q = p := Option.some.inj (Option.some.inj hp)
            rw [converters, List.filter_append]
            simp [hq]
        | remove q => exact ⟨fun p hp => (by cases hp), fun hnone => (by cases hnone)⟩
      · rw [if_neg htypes]
        cases event with
        | add q =>
            have hq : R.converterTypes q ≠ some (s, d) := htypes
            have hsame : R.converters ((registered events).filter (· ≠ q) ++ [q]) s d =
                R.converters (registered events) s d := by
              rw [← converters_filter_ne (registered events) hq, converters, List.filter_append]
              simp [hq, converters]
            simp only [hsame]
            exact ih
        | remove q =>
            have hq : R.converterTypes q ≠ some (s, d) := htypes
            simp only [converters_filter_ne (registered events) hq]
            exact ih

theorem slot_fresh_of_live {p : π} (h : R.slot events s d = some (some p)) :
    R.slot (fresh events) s d = some (some p) := by
  rw [fresh, slot_map_add, (slot_registered events s d).1 p h]
  rfl

theorem slot_fresh_of_none (h : R.slot events s d = none) : R.slot (fresh events) s d = none := by
  rw [fresh, slot_map_add, (slot_registered events s d).2 h]
  rfl

/-- A slot of the history without removals is empty, or has a registered converter. -/
theorem slot_fresh_cases (events : List (PluginEvent π)) (s d : τ) :
    R.slot (fresh events) s d = none ∨ ∃ p ∈ registered events, R.slot (fresh events) s d = some (some p) := by
  rw [fresh, slot_map_add]
  cases hlast : (R.converters (registered events) s d).getLast? with
  | none => exact .inl rfl
  | some p => exact .inr ⟨p, (List.mem_filter.mp (List.mem_of_getLast? hlast)).1, rfl⟩

theorem live_fresh_iff : R.Live (fresh events) s d ↔ R.Registered events s d := by
  constructor
  · intro hlive
    obtain ⟨p, hp⟩ := hlive
    obtain hnone | ⟨q, hq, hslot⟩ := slot_fresh_cases (R := R) events s d
    · rw [hnone] at hp
      cases hp
    · exact ⟨q, hq, slot_types hslot⟩
  · intro hregistered
    obtain ⟨p, hp, htypes⟩ := hregistered
    rw [Live, fresh, slot_map_add]
    have hmem : p ∈ R.converters (registered events) s d := List.mem_filter.mpr ⟨hp, by simpa using htypes⟩
    have hlast := List.getLast?_eq_some_getLast (List.ne_nil_of_mem hmem)
    exact ⟨_, by rw [hlast]; rfl⟩

theorem Live.registered (h : R.Live events s d) : R.Registered events s d := by
  obtain ⟨p, hp⟩ := h
  exact live_fresh_iff.mp ⟨p, slot_fresh_of_live hp⟩

/-- The search after a history that removes nothing. -/
theorem intermediate_fresh (hinj : R.Injective) {a b : Option π}
    (h : R.intermediate (R.run (fresh events)) s d = some (a, b)) :
    ∃ m p q, a = some p ∧ b = some q ∧ R.slot (fresh events) s m = some (some p) ∧
      R.slot (fresh events) m d = some (some q) ∧
      ∀ m', R.hashCode m' < R.hashCode m → ¬ (R.Registered events s m' ∧ R.Registered events m' d) := by
  obtain ⟨m, p, ha, hsm, hmd, hbefore⟩ := intermediate_eq_some hinj h
  obtain hnone | ⟨q, -, hq⟩ := slot_fresh_cases (R := R) events m d
  · rw [hnone] at hmd
    cases hmd
  · refine ⟨m, p, q, ha, Option.some.inj (hmd.symm.trans hq), hsm, hq, fun m' hlt hboth => ?_⟩
    have hnone := hbefore m' hlt (live_fresh_iff.mpr hboth.1)
    obtain ⟨p', hp'⟩ := live_fresh_iff.mpr hboth.2
    rw [hnone] at hp'
    cases hp'

/-- Two registered converters are found. -/
theorem intermediate_fresh_ne_none (hinj : R.Injective) {m : τ} (hsm : R.Registered events s m)
    (hmd : R.Registered events m d) : R.intermediate (R.run (fresh events)) s d ≠ none := by
  intro hnone
  obtain ⟨q, hq⟩ := live_fresh_iff.mpr hmd
  have hdead := (intermediate_eq_none hinj).mp hnone m (live_fresh_iff.mpr hsm)
  rw [hq] at hdead
  cases hdead

/-! ### What a conversion does -/

/-- **Where nothing was removed** `canConvert` predicts `convert`: it runs a chain of the
registered converters, or it throws. -/
theorem predicts_fresh (hinj : R.Injective) (events : List (PluginEvent π)) (x : ο) (type : τ) :
    (R.canConvert (R.run (fresh events)) x type = true ∧
        R.RunsChain (registered events) x type (R.convert (R.run (fresh events)) x type)) ∨
      (R.canConvert (R.run (fresh events)) x type = false ∧
        R.convert (R.run (fresh events)) x type = ⟨[], .error (R.unsupported x type)⟩) := by
  by_cases htrivial : R.type x = type ∨ type = R.objectType
  · exact .inl ⟨canConvert_trivial _ htrivial, convert_trivial _ _ htrivial⟩
  · obtain ⟨hsame, hobject⟩ := not_or.mp htrivial
    rw [canConvert_run hinj hsame hobject, convert_run hinj hsame hobject]
    obtain hnone | ⟨p, hp, hslot⟩ := slot_fresh_cases (R := R) events (R.type x) type
    · rw [hnone]
      cases hvia : R.intermediate (R.run (fresh events)) (R.type x) type with
      | none => exact .inr ⟨rfl, rfl⟩
      | some entries =>
          obtain ⟨a, b⟩ := entries
          obtain ⟨m, p, q, rfl, rfl, hsm, hmd, -⟩ := intermediate_fresh hinj hvia
          obtain ⟨p', hp', hptypes⟩ := live_fresh_iff.mp ⟨p, hsm⟩
          have hpm : p ∈ registered events := by
            obtain h | ⟨p₁, hp₁, hs₁⟩ := slot_fresh_cases (R := R) events (R.type x) m
            · rw [h] at hsm; cases hsm
            · obtain rfl : p₁ = p := by simpa using hs₁.symm.trans hsm
              exact hp₁
          have hqm : q ∈ registered events := by
            obtain h | ⟨q₁, hq₁, hs₁⟩ := slot_fresh_cases (R := R) events m type
            · rw [h] at hmd; cases hmd
            · obtain rfl : q₁ = q := by simpa using hs₁.symm.trans hmd
              exact hq₁
          obtain ⟨call₁, hcall₁⟩ := callable_of_types (slot_types hsm)
          obtain ⟨call₂, hcall₂⟩ := callable_of_types (slot_types hmd)
          refine .inl ⟨rfl, ?_⟩
          dsimp only
          rw [callTwo, extractCallable_some hcall₁, extractCallable_some hcall₂]
          dsimp only
          cases hrun : call₁.opaqueCall [x] with
          | error e => exact .first hpm hqm (slot_types hsm) (slot_types hmd) hcall₁ hrun
          | ok y => exact .both hpm hqm (slot_types hsm) (slot_types hmd) hcall₁ hcall₂ hrun
    · rw [hslot]
      obtain ⟨call, hcall⟩ := callable_of_types (slot_types hslot)
      refine .inl ⟨rfl, ?_⟩
      dsimp only
      rw [callOne, extractCallable_some hcall]
      exact .direct hp (slot_types hslot) hcall

/-- The behaviour is that of the history without the removed converters. -/
def AsFresh (R : Runtime τ ο π) (events : List (PluginEvent π)) (x : ο) (type : τ) : Prop :=
  R.canConvert (R.run events) x type = R.canConvert (R.run (fresh events)) x type ∧
    R.convert (R.run events) x type = R.convert (R.run (fresh events)) x type

/-- So it is enough to compare with that history. -/
theorem predicts_iff_asFresh (hinj : R.Injective) : R.Predicts events x type ↔ R.AsFresh events x type := by
  constructor
  · exact fun hpredicts => ⟨hpredicts.can_fresh, hpredicts.convert_fresh⟩
  · intro hsame
    obtain ⟨hcan, hconvert⟩ := hsame
    obtain ⟨htrue, hchain⟩ | ⟨hfalse, herror⟩ := predicts_fresh hinj events x type
    · refine ⟨?_, fun hno => ?_, hcan, hconvert⟩
      · rw [hcan, hconvert]
        exact iff_of_true htrue hchain
      · rw [hcan, htrue] at hno
        cases hno
    · refine ⟨?_, fun _ => ?_, hcan, hconvert⟩
      · rw [hcan, hconvert, hfalse, herror]
        exact iff_of_false Bool.false_ne_true not_runsChain_error
      · rw [hconvert, herror]
        exact ⟨_, _, rfl⟩

/-- **A clear path** leads as it would have without the removed converters. -/
theorem Clear.asFresh (hinj : R.Injective) (hsame : R.type x ≠ type) (hobject : type ≠ R.objectType)
    (hclear : R.Clear events (R.type x) type) : R.AsFresh events x type := by
  rw [AsFresh, canConvert_run hinj hsame hobject, convert_run hinj hsame hobject,
    canConvert_run hinj hsame hobject, convert_run hinj hsame hobject]
  cases hclear with
  | inl hlive =>
      obtain ⟨p, hp⟩ := hlive
      rw [hp, slot_fresh_of_live hp]
      exact ⟨rfl, rfl⟩
  | inr hnone =>
      obtain ⟨hslot, hmisleads⟩ := hnone
      rw [hslot, slot_fresh_of_none hslot]
      suffices hvia : R.intermediate (R.run events) (R.type x) type =
          R.intermediate (R.run (fresh events)) (R.type x) type by
        rw [hvia]
        exact ⟨rfl, rfl⟩
      cases hvia : R.intermediate (R.run events) (R.type x) type with
      | none =>
          have hdead := (intermediate_eq_none hinj).mp hvia
          refine ((intermediate_eq_none hinj).mpr fun m hm => ?_).symm
          cases hmd : R.slot (fresh events) m type with
          | none => rfl
          | some entry =>
              -- two registered converters, and not both of their entries are left
              exfalso
              have hboth : R.Registered events m type := by
                obtain h | ⟨q, -, hq⟩ := slot_fresh_cases (R := R) events m type
                · rw [h] at hmd; cases hmd
                · exact live_fresh_iff.mp ⟨q, hq⟩
              have hbad : R.Misleads events (R.type x) m type := by
                refine .inr ⟨live_fresh_iff.mp hm, hboth, fun hlive => ?_⟩
                obtain ⟨q, hq⟩ := hlive.2
                rw [hdead m hlive.1] at hq
                cases hq
              obtain ⟨m', -, hsm', q, hq⟩ := hmisleads m hbad
              rw [hdead m' hsm'] at hq
              cases hq
      | some entries =>
          obtain ⟨a, b⟩ := entries
          obtain ⟨m, p, rfl, hsm, hmd, hbefore⟩ := intermediate_eq_some hinj hvia
          have hnogood : ∀ m', R.hashCode m' < R.hashCode m →
              ¬ (R.Live events (R.type x) m' ∧ R.Live events m' type) := by
            intro m' hlt hgood
            obtain ⟨q, hq⟩ := hgood.2
            rw [hbefore m' hlt hgood.1] at hq
            cases hq
          cases b with
          | none =>
              obtain ⟨m', hlt, hgood⟩ := hmisleads m (.inl ⟨⟨p, hsm⟩, hmd⟩)
              exact absurd hgood (hnogood m' hlt)
          | some q =>
              have hcase : R.intermediate (R.run (fresh events)) (R.type x) type ≠ none :=
                intermediate_fresh_ne_none hinj (Live.registered ⟨p, hsm⟩) (Live.registered ⟨q, hmd⟩)
              obtain ⟨⟨a', b'⟩, hfresh⟩ := Option.ne_none_iff_exists'.mp hcase
              obtain ⟨m₁, p₁, q₁, rfl, rfl, hsm₁, hmd₁, hfirst⟩ := intermediate_fresh hinj hfresh
              -- neither type stands before the other
              have hle : ¬ R.hashCode m < R.hashCode m₁ := fun hlt =>
                hfirst m hlt ⟨Live.registered ⟨p, hsm⟩, Live.registered ⟨q, hmd⟩⟩
              have hge : ¬ R.hashCode m₁ < R.hashCode m := by
                intro hlt
                have hbad : R.Misleads events (R.type x) m₁ type :=
                  .inr ⟨live_fresh_iff.mp ⟨p₁, hsm₁⟩, live_fresh_iff.mp ⟨q₁, hmd₁⟩, hnogood m₁ hlt⟩
                obtain ⟨m', hlt', hgood⟩ := hmisleads m₁ hbad
                exact hnogood m' (hlt'.trans hlt) hgood
              obtain rfl : m = m₁ := hinj.hashCode (by omega)
              rw [hfresh]
              have hp : p = p₁ := by
                have := (slot_fresh_of_live hsm).symm.trans hsm₁
                simpa using this
              have hq : q = q₁ := by
                have := (slot_fresh_of_live hmd).symm.trans hmd₁
                simpa using this
              rw [hp, hq]

/-- Where nothing was removed, a conversion that is possible calls a converter. -/
theorem calls_fresh (hinj : R.Injective) (hsame : R.type x ≠ type) (hobject : type ≠ R.objectType)
    (hcan : R.canConvert (R.run (fresh events)) x type = true) :
    (R.convert (R.run (fresh events)) x type).calls ≠ [] := by
  intro hnil
  obtain ⟨-, hchain⟩ | ⟨hfalse, -⟩ := predicts_fresh hinj events x type
  · generalize R.convert (R.run (fresh events)) x type = c at hchain hnil
    cases hchain with
    | same he => exact hsame he
    | make he => exact hobject he
    | direct _ _ _ => cases hnil
    | first _ _ _ _ _ _ => cases hnil
    | both _ _ _ _ _ _ _ => cases hnil
  · rw [hfalse] at hcan
    cases hcan

/-- Where the search finds no intermediate type, a misleading one hides registered converters. -/
theorem Misleads.hides (hinj : R.Injective) {m : τ} (hbad : R.Misleads events s m d)
    (hvia : R.intermediate (R.run events) s d = none) : R.intermediate (R.run (fresh events)) s d ≠ none := by
  cases hbad with
  | inl hnull =>
      have hdead := (intermediate_eq_none hinj).mp hvia m hnull.1
      rw [hdead] at hnull
      cases hnull.2
  | inr hlost => exact intermediate_fresh_ne_none hinj hlost.1 hlost.2.1

/-- A misleading type comes after one that the search finds now and without removals. -/
theorem Misleads.after (hinj : R.Injective) {m found : τ} {p q : π} (hbad : R.Misleads events s m d)
    (hsm : R.slot events s found = some (some p)) (hmd : R.slot events found d = some (some q))
    (hbefore : ∀ m', R.hashCode m' < R.hashCode found → R.Live events s m' → R.slot events m' d = none)
    (hfirst : ∀ m', R.hashCode m' < R.hashCode found → ¬ (R.Registered events s m' ∧ R.Registered events m' d)) :
    R.hashCode found < R.hashCode m := by
  have hne : R.hashCode m ≠ R.hashCode found := by
    intro he
    obtain rfl := hinj.hashCode he
    cases hbad with
    | inl hnull =>
        rw [hmd] at hnull
        cases hnull.2
    | inr hlost => exact hlost.2.2 ⟨⟨p, hsm⟩, ⟨q, hmd⟩⟩
  have hnlt : ¬ R.hashCode m < R.hashCode found := by
    intro hlt
    cases hbad with
    | inl hnull =>
        rw [hbefore m hlt hnull.1] at hnull
        cases hnull.2
    | inr hlost => exact hfirst m hlt ⟨hlost.1, hlost.2.1⟩
  omega

/-- The converter that is called first tells the intermediate type. -/
theorem intermediate_of_head (hinj : R.Injective) {found : τ} {p : π}
    (hsm : R.slot events s found = some (some p))
    (hhead : (match R.intermediate (R.run (fresh events)) s d with
      | some (plugin₁, plugin₂) => R.callTwo plugin₁ plugin₂ x
      | none => ⟨[], .error (R.unsupported x d)⟩).calls.head? = some p) :
    ∀ m', R.hashCode m' < R.hashCode found → ¬ (R.Registered events s m' ∧ R.Registered events m' d) := by
  cases hfresh : R.intermediate (R.run (fresh events)) s d with
  | none =>
      rw [hfresh] at hhead
      cases hhead
  | some entries =>
      obtain ⟨a', b'⟩ := entries
      obtain ⟨m₁, p₁, q₁, rfl, rfl, hsm₁, hmd₁, hfirst⟩ := intermediate_fresh hinj hfresh
      obtain ⟨call₁, hcall₁⟩ := callable_of_types (slot_types hsm₁)
      obtain ⟨call₂, hcall₂⟩ := callable_of_types (slot_types hmd₁)
      rw [hfresh] at hhead
      dsimp only at hhead
      rw [callTwo_head hcall₁ hcall₂] at hhead
      obtain rfl := Option.some.inj hhead
      obtain rfl : m₁ = found := by
        have htypes := (slot_types hsm₁).symm.trans (slot_types hsm)
        simpa using htypes
      exact hfirst

/-- **And a path that is not clear** does not. -/
theorem AsFresh.clear (hinj : R.Injective) (hsame : R.type x ≠ type) (hobject : type ≠ R.objectType)
    (h : R.AsFresh events x type) : R.Clear events (R.type x) type := by
  obtain ⟨hcan, hconvert⟩ := h
  rw [canConvert_run hinj hsame hobject] at hcan
  rw [convert_run hinj hsame hobject] at hconvert
  cases hslot : R.slot events (R.type x) type with
  | some entry =>
      cases entry with
      | some p => exact .inl ⟨p, hslot⟩
      | none =>
          rw [hslot] at hcan hconvert
          obtain ⟨what, message, hnone⟩ := callOne_none (R := R) x
          dsimp only at hconvert
          rw [hnone] at hconvert
          exact absurd (by rw [← hconvert]) (calls_fresh hinj hsame hobject hcan.symm)
  | none =>
      refine .inr ⟨hslot, fun m hbad => ?_⟩
      rw [hslot] at hcan hconvert
      cases hvia : R.intermediate (R.run events) (R.type x) type with
      | none =>
          rw [hvia, canConvert_run hinj hsame hobject, slot_fresh_of_none hslot] at hcan
          exact absurd (Option.isNone_iff_eq_none.mp (by simpa using hcan.symm)) (hbad.hides hinj hvia)
      | some entries =>
          obtain ⟨a, b⟩ := entries
          rw [hvia] at hcan hconvert
          obtain ⟨found, p, rfl, hsm, hmd, hbefore⟩ := intermediate_eq_some hinj hvia
          obtain ⟨call₁, hcall₁⟩ := callable_of_types (slot_types hsm)
          cases b with
          | none =>
              obtain ⟨what, message, hnone⟩ := callTwo_none hcall₁ x
              dsimp only at hconvert
              rw [hnone] at hconvert
              exact absurd (by rw [← hconvert]) (calls_fresh hinj hsame hobject hcan.symm)
          | some q =>
              obtain ⟨call₂, hcall₂⟩ := callable_of_types (slot_types hmd)
              have hhead := callTwo_head hcall₁ hcall₂ x
              dsimp only at hconvert
              rw [hconvert, convert_run hinj hsame hobject, slot_fresh_of_none hslot] at hhead
              have hfirst := intermediate_of_head hinj hsm hhead
              exact ⟨found, hbad.after hinj hsm hmd hbefore hfirst, ⟨p, hsm⟩, ⟨q, hmd⟩⟩

/-- **`canConvert` predicts `convert`**, as if the removed converters had never been added, if
and only if the conversion needs no converter or its path is clear. -/
theorem predicts_iff (hinj : R.Injective) (events : List (PluginEvent π)) (x : ο) (type : τ) :
    R.Predicts events x type ↔
      R.type x = type ∨ type = R.objectType ∨ R.Clear events (R.type x) type := by
  rw [predicts_iff_asFresh hinj]
  by_cases htrivial : R.type x = type ∨ type = R.objectType
  · refine iff_of_true ⟨?_, convert_trivial_congr _ _ htrivial⟩ (or_assoc.mp (.inl htrivial))
    rw [canConvert_trivial _ htrivial, canConvert_trivial _ htrivial]
  · obtain ⟨hsame, hobject⟩ := not_or.mp htrivial
    constructor
    · exact fun hfresh => .inr (.inr (hfresh.clear hinj hsame hobject))
    · intro hcases
      exact ((hcases.resolve_left hsame).resolve_left hobject).asFresh hinj hsame hobject

end Runtime

/-! ### A converter that is removed -/

/-- Some types. -/
inductive Kind
  | null
  | object
  | callable
  | int
  | float
  | text
  deriving DecidableEq, Repr

instance : Fintype Kind where
  elems := {.null, .object, .callable, .int, .float, .text}
  complete k := by cases k <;> decide

/-- Objects that are a type and a number, and two converters from `int` to `float`. -/
def numbers : Runtime Kind (Kind × Nat) Nat where
  hashCode := Kind.ctorIdx
  typeString k := reprStr k
  nullType := .null
  objectType := .object
  callableType := .callable
  type := Prod.fst
  make x := (.object, x.2)
  callable plugin :=
    if plugin < 2 then
      some ⟨[.int], some .float, fun xs =>
        match xs with
        | [x] => .ok (.float, x.2)
        | _ => .error (.thrown "CallableArgumentError" "Pothos::Callable::call()" "")⟩
    else none

/-- A converter that was removed, and one that took its place. -/
theorem predicts_iff_replaced : numbers.Predicts [.add 0, .remove 0, .add 1] (.int, 5) .float :=
  (Runtime.predicts_iff (by unfold Runtime.Injective; decide +kernel) _ _ _).mpr (.inr (.inr (.inl ⟨1, rfl⟩)))

/-- After its only converter was removed `canConvert` still says that `int` can be converted to
`float`, and `convert` throws. -/
theorem not_predicts_removed : ¬ numbers.Predicts [.add 0, .remove 0] (.int, 5) .float ∧
    numbers.canConvert (numbers.run [.add 0, .remove 0]) (.int, 5) .float = true := by
  have hcan : numbers.canConvert (numbers.run [.add 0, .remove 0]) (.int, 5) .float = true := rfl
  refine ⟨fun hpredicts => ?_, hcan⟩
  have hchain := hpredicts.chain.mp hcan
  exact Runtime.not_runsChain_error hchain

end PothosCore.Objects

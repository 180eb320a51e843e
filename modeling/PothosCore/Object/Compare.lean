import PothosCore.Fault
import PothosCore.Lib.BlendedOrder

/-!
# PothosCore.Object.Compare

`Object::compareTo`, and the operators that fall back to the hash codes where it throws.
Two objects are compared by the comparator that is registered for their types, or as
doubles if both convert to one, or by hash code.

So `operator<` is a blend: comparators and doubles order blocks of objects, and the hash
code decides between blocks. As a container key it is right for a set of objects if and
only if no hash code falls between those of a block (`usableKeys_iff`).
-/

namespace PothosCore.Objects

open PothosCore.Lib

/-- What `compareTo` asks of types and objects. Doubles are the values of a linear order,
which leaves out NaN. -/
structure Comparison (τ ο D : Type) where
  type : ο → τ
  toString : ο → String
  /-- The comparator that is registered for a pair of types. -/
  compareMap : τ → τ → Option (ο → ο → Int)
  /-- `double(object)`; none where the conversion throws an `ObjectConvertError`. -/
  toDouble : ο → Option D
  hashCode : ο → Nat

namespace Comparison

variable {τ ο D : Type} [LinearOrder D] (C : Comparison τ ο D)

/-- `Util::compareTo(v0, v1)` -/
def compareValues (v0 v1 : D) : Int := if v0 = v1 then 0 else if v0 < v1 then -1 else 1

/-- `compareTo(other)` -/
def compareTo (x other : ο) : Except Fault Int :=
  match C.compareMap (C.type x) (C.type other) with
  | some call => .ok (call x other)
  | none =>
      -- try a number type just in the case that this is possible
      match C.toDouble x, C.toDouble other with
      | some v0, some v1 => .ok (compareValues v0 v1)
      | _, _ => .error (.thrown "ObjectCompareError" "Pothos::Object::compareTo()"
          ("not supported for " ++ C.toString x ++ ", " ++ C.toString other))

/-- The operators: a test of `compareTo`, or of the hash codes where it throws. -/
def tested (test : Int → Int → Bool) (x obj : ο) : Bool :=
  match C.compareTo x obj with
  | .ok r => test r 0
  | .error _ => test (C.hashCode x) (C.hashCode obj)

/-- `equals(obj)` -/
def equals (x obj : ο) : Bool := C.tested (fun a b => a == b) x obj

/-- `operator<(obj)` -/
def less (x obj : ο) : Bool := C.tested (fun a b => decide (a < b)) x obj

/-- `operator>(obj)` -/
def greater (x obj : ο) : Bool := C.tested (fun a b => decide (b < a)) x obj

/-! ### What container keys need -/

/-- On these objects `operator<` is a strict weak order, `operator>` is it turned around,
and objects are equal when neither is less. -/
structure UsableKeys (S : Set ο) : Prop where
  weak : WeakOn (fun x y => C.less x y = true) S
  flips : ∀ x ∈ S, ∀ y ∈ S, (C.less x y = true ↔ C.greater y x = true)
  equal : ∀ x ∈ S, ∀ y ∈ S, (C.equals x y = true ↔ C.less x y = false ∧ C.less y x = false)

/-- Comparators are registered for a type and itself, and they order its objects; these do
not convert to a double. -/
structure Registered : Prop where
  own : ∀ s t, (C.compareMap s t).isSome = true → s = t
  swap : ∀ t call, C.compareMap t t = some call →
    ∀ x y, C.type x = t → C.type y = t → (call x y ≤ 0 ↔ 0 ≤ call y x)
  trans : ∀ t call, C.compareMap t t = some call →
    ∀ x y z, C.type x = t → C.type y = t → C.type z = t → call x y ≤ 0 → call y z ≤ 0 → call x z ≤ 0
  apart : ∀ x, (C.compareMap (C.type x) (C.type x)).isSome = true → C.toDouble x = none

/-- The comparison of two objects by a comparator or as doubles. -/
def shared (x y : ο) : Option Int :=
  match C.compareMap (C.type x) (C.type y) with
  | some call => some (call x y)
  | none =>
      match C.toDouble x, C.toDouble y with
      | some v0, some v1 => some (compareValues v0 v1)
      | _, _ => none

variable {C}

theorem compareTo_eq (x y : ο) :
    (∃ i, C.shared x y = some i ∧ C.compareTo x y = .ok i) ∨
      (C.shared x y = none ∧ ∃ e, C.compareTo x y = .error e) := by
  rw [shared, compareTo]
  cases C.compareMap (C.type x) (C.type y) with
  | some call => exact .inl ⟨_, rfl, rfl⟩
  | none =>
      cases C.toDouble x with
      | none => exact .inr ⟨rfl, _, rfl⟩
      | some v0 =>
          cases C.toDouble y with
          | none => exact .inr ⟨rfl, _, rfl⟩
          | some v1 => exact .inl ⟨_, rfl, rfl⟩

/-- The three operators test the same blend. -/
theorem operators_eq (x y : ο) :
    (C.less x y = true ↔ blend C.shared C.hashCode x y < 0) ∧
      (C.greater x y = true ↔ 0 < blend C.shared C.hashCode x y) ∧
      (C.equals x y = true ↔ blend C.shared C.hashCode x y = 0) := by
  rw [less, greater, equals, tested, tested, tested]
  obtain ⟨i, hshared, hcompare⟩ | ⟨hshared, e, hcompare⟩ := compareTo_eq (C := C) x y
  · rw [hcompare, blend_some hshared]
    simp
  · rw [hcompare, blend_none hshared, keyRank]
    dsimp only
    split
    · simp
      omega
    · split
      · simp
        omega
      · simp
        omega

theorem compareValues_le (v0 v1 : D) : compareValues v0 v1 ≤ 0 ↔ v0 ≤ v1 := by
  rw [compareValues]
  split
  · next he => simp [he]
  · next hne =>
      split
      · next hlt => simp [hlt.le]
      · next hge =>
          have hlt := lt_of_le_of_ne (not_lt.mp hge) (Ne.symm hne)
          simp [hlt]

theorem compareValues_ge (v0 v1 : D) : 0 ≤ compareValues v0 v1 ↔ v1 ≤ v0 := by
  rw [compareValues]
  split
  · next he => simp [he]
  · next hne =>
      split
      · next hlt => simp [hlt]
      · next hge => simp [not_lt.mp hge]

/-- How two objects share a comparison: one type with a comparator, or two numbers. -/
theorem Registered.shared_cases (hr : C.Registered) {x y : ο} {i : Int} (h : C.shared x y = some i) :
    (∃ call, C.compareMap (C.type x) (C.type x) = some call ∧ C.type y = C.type x ∧ i = call x y) ∨
      (∃ v0 v1, C.toDouble x = some v0 ∧ C.toDouble y = some v1 ∧ i = compareValues v0 v1) := by
  rw [shared] at h
  cases hmap : C.compareMap (C.type x) (C.type y) with
  | some call =>
      rw [hmap] at h
      have htypes := hr.own (C.type x) (C.type y) (by rw [hmap]; rfl)
      rw [← htypes] at hmap
      exact .inl ⟨call, hmap, htypes.symm, (Option.some.inj h).symm⟩
  | none =>
      rw [hmap] at h
      cases hx : C.toDouble x with
      | none =>
          rw [hx] at h
          cases h
      | some v0 =>
          cases hy : C.toDouble y with
          | none =>
              rw [hx, hy] at h
              cases h
          | some v1 =>
              rw [hx, hy] at h
              exact .inr ⟨v0, v1, rfl, rfl, (Option.some.inj h).symm⟩

theorem shared_of_call {x y : ο} {call : ο → ο → Int} (hmap : C.compareMap (C.type x) (C.type x) = some call)
    (htypes : C.type y = C.type x) : C.shared x y = some (call x y) := by
  rw [shared, htypes, hmap]

theorem Registered.shared_of_doubles (hr : C.Registered) {x y : ο} {v0 v1 : D} (hx : C.toDouble x = some v0)
    (hy : C.toDouble y = some v1) : C.shared x y = some (compareValues v0 v1) := by
  rw [shared]
  cases hmap : C.compareMap (C.type x) (C.type y) with
  | some call =>
      have htypes := hr.own (C.type x) (C.type y) (by rw [hmap]; rfl)
      rw [← htypes] at hmap
      have hnone := hr.apart x (by rw [hmap]; rfl)
      rw [hx] at hnone
      cases hnone
  | none =>
      dsimp only
      rw [hx, hy]

/-- **Comparators and doubles order blocks of objects.** -/
theorem Registered.blocks (hr : C.Registered) : Blocks C.shared where
  swap {x y i} h := by
    obtain ⟨call, hmap, htypes, rfl⟩ | ⟨v0, v1, hx, hy, rfl⟩ := hr.shared_cases h
    · refine ⟨call y x, ?_, hr.swap _ call hmap x y rfl htypes, hr.swap _ call hmap y x htypes rfl⟩
      exact shared_of_call (by rw [htypes]; exact hmap) htypes.symm
    · refine ⟨compareValues v1 v0, hr.shared_of_doubles hy hx, ?_, ?_⟩
      · rw [compareValues_le, compareValues_ge]
      · rw [compareValues_le, compareValues_ge]
  trans {x y z i j} hxy hyz := by
    obtain ⟨call, hmap, htypes, rfl⟩ | ⟨v0, v1, hx, hy, rfl⟩ := hr.shared_cases hxy
    · obtain ⟨call', hmap', htypes', rfl⟩ | ⟨w0, w1, hy, -, -⟩ := hr.shared_cases hyz
      · rw [htypes] at hmap' htypes'
        obtain rfl := Option.some.inj (hmap.symm.trans hmap')
        exact ⟨call x z, shared_of_call hmap htypes', hr.trans _ call hmap x y z rfl htypes htypes'⟩
      · have hnone := hr.apart y (by rw [htypes, hmap]; rfl)
        rw [hy] at hnone
        cases hnone
    · obtain ⟨call', hmap', -, -⟩ | ⟨w0, w1, hy', hz, rfl⟩ := hr.shared_cases hyz
      · have hnone := hr.apart y (by rw [hmap']; rfl)
        rw [hy] at hnone
        cases hnone
      · obtain rfl := Option.some.inj (hy.symm.trans hy')
        refine ⟨compareValues v0 w1, hr.shared_of_doubles hx hz, fun h₁ h₂ => ?_⟩
        rw [compareValues_le] at h₁ h₂ ⊢
        exact h₁.trans h₂

/-- **`operator>` and `equals`** always go with `operator<`. -/
theorem Registered.flips (hr : C.Registered) (x y : ο) :
    (C.less x y = true ↔ C.greater y x = true) ∧
      (C.equals x y = true ↔ C.less x y = false ∧ C.less y x = false) := by
  have horiented := hr.blocks.oriented C.hashCode x y
  have horiented' := hr.blocks.oriented C.hashCode y x
  obtain ⟨hless, -, hequals⟩ := operators_eq (C := C) x y
  obtain ⟨hless', hgreater, -⟩ := operators_eq (C := C) y x
  rw [← Bool.not_eq_true, ← Bool.not_eq_true, hless, hless', hgreater, hequals]
  omega

/-- **Object ordering**: the objects of a set are usable as keys if and only if every object
fits every two that are compared by a comparator or as doubles. -/
theorem usableKeys_iff (hr : C.Registered) (S : Set ο) :
    C.UsableKeys S ↔ ∀ x ∈ S, ∀ y ∈ S, ∀ z ∈ S, Fits C.shared C.hashCode x y z := by
  rw [← blend_weakOn_iff hr.blocks]
  have hless : (fun x y => C.less x y = true) = fun x y => blend C.shared C.hashCode x y < 0 :=
    funext fun x => funext fun y => propext (operators_eq x y).1
  constructor
  · intro hkeys
    rw [← hless]
    exact hkeys.weak
  · intro hweak
    rw [← hless] at hweak
    exact ⟨hweak, fun x _ y _ => (hr.flips x y).1, fun x _ y _ => (hr.flips x y).2⟩

/-! ### Numbers and a string -/

/-- Numbers and strings of length one; a number is its own double, and the hash code of a
number is its 64-bit pattern, as for `std::hash<int>`. -/
def mixed : Comparison Bool (Int ⊕ Nat) Int where
  type := Sum.isLeft
  toString x := reprStr x
  compareMap s t :=
    if s = false ∧ t = false then
      some fun x y =>
        match x, y with
        | .inr a, .inr b => (a : Int) - b
        | _, _ => 0
    else none
  toDouble := Sum.getLeft?
  hashCode
    | .inl n => (n % 2 ^ 64).toNat
    | .inr a => a

theorem mixed_registered : mixed.Registered where
  own s t h := by
    cases s <;> cases t <;> simp_all [mixed]
  swap t call h x y hx hy := by
    cases t with
    | true => cases h
    | false =>
        obtain rfl := Option.some.inj h
        cases x with
        | inl n => cases hx
        | inr a =>
            cases y with
            | inl n => cases hy
            | inr b =>
                show (a : Int) - b ≤ 0 ↔ 0 ≤ (b : Int) - a
                omega
  trans t call h x y z hx hy hz := by
    cases t with
    | true => cases h
    | false =>
        obtain rfl := Option.some.inj h
        cases x with
        | inl n => cases hx
        | inr a =>
            cases y with
            | inl n => cases hy
            | inr b =>
                cases z with
                | inl n => cases hz
                | inr c =>
                    show (a : Int) - b ≤ 0 → (b : Int) - c ≤ 0 → (a : Int) - c ≤ 0
                    omega
  apart x h := by
    cases x with
    | inl n => cases h
    | inr a => rfl

/-- Two numbers and a string whose hash code is above both. -/
theorem usableKeys_iff_above : mixed.UsableKeys {.inl 1, .inl 5, .inr 100} := by
  refine (usableKeys_iff mixed_registered _).mpr ?_
  have hall : ∀ x ∈ [(.inl 1 : Int ⊕ Nat), .inl 5, .inr 100], ∀ y ∈ [(.inl 1 : Int ⊕ Nat), .inl 5, .inr 100],
      ∀ z ∈ [(.inl 1 : Int ⊕ Nat), .inl 5, .inr 100], Fits mixed.shared mixed.hashCode x y z := by
    decide +kernel
  intro x hx y hy z hz
  exact hall x (by simpa using hx) y (by simpa using hy) z (by simpa using hz)

/-- The numbers -1 and 5 and a string whose hash code is between theirs go round in a circle. -/
theorem not_usableKeys_circle : ¬ mixed.UsableKeys {.inl (-1), .inl 5, .inr 100} ∧
    mixed.less (.inl (-1)) (.inl 5) = true ∧ mixed.less (.inl 5) (.inr 100) = true ∧
    mixed.less (.inr 100) (.inl (-1)) = true := by
  refine ⟨fun hkeys => ?_, by decide +kernel, by decide +kernel, by decide +kernel⟩
  have htrans := hkeys.weak.trans (.inl (-1)) (by simp) (.inl 5) (by simp) (.inr 100) (by simp)
    (by decide +kernel) (by decide +kernel)
  have hasymm := hkeys.weak.asymm _ (by simp) _ (by simp) htrans
  exact hasymm (by decide +kernel)

end Comparison

end PothosCore.Objects

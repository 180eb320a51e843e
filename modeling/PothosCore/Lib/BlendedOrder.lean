import Mathlib.Data.Set.Insert
import Mathlib.Order.Basic

/-!
# PothosCore.Lib.BlendedOrder

Three-way comparisons that return a number, as C++ code compares: negative, zero,
positive. `WeakOn` is a strict weak order on a set; for an oriented comparison it comes
down to the transitivity of `≤ 0` (`weakOn_iff`).

A comparison may be put together from two: a partial one, which orders the values of each
of its blocks, and a key that orders all values and decides between blocks. `blend_weakOn_iff`
says when the result is a strict weak order.
-/

namespace PothosCore.Lib

variable {α : Type*}

/-- Swapping the arguments turns the sign around. -/
def Oriented (rank : α → α → Int) : Prop := ∀ x y, rank x y ≤ 0 ↔ 0 ≤ rank y x

/-- A strict weak order on a set: irreflexive, asymmetric, transitive, and incomparability
is transitive. -/
structure WeakOn (lt : α → α → Prop) (S : Set α) : Prop where
  irrefl : ∀ x ∈ S, ¬ lt x x
  asymm : ∀ x ∈ S, ∀ y ∈ S, lt x y → ¬ lt y x
  trans : ∀ x ∈ S, ∀ y ∈ S, ∀ z ∈ S, lt x y → lt y z → lt x z
  incomp_trans : ∀ x ∈ S, ∀ y ∈ S, ∀ z ∈ S,
    ¬ lt x y → ¬ lt y x → ¬ lt y z → ¬ lt z y → ¬ lt x z ∧ ¬ lt z x

/-- **A strict weak order is a transitive `≤`.** -/
theorem weakOn_iff {rank : α → α → Int} (horiented : Oriented rank) {S : Set α} :
    WeakOn (fun x y => rank x y < 0) S ↔
      ∀ x ∈ S, ∀ y ∈ S, ∀ z ∈ S, rank x y ≤ 0 → rank y z ≤ 0 → rank x z ≤ 0 := by
  constructor
  · intro hweak x hx y hy z hz hxy hyz
    have horder := horiented x z
    have hxy' := horiented x y
    have hyz' := horiented y z
    have hyx := horiented y x
    have hzy := horiented z y
    -- `z < x` together with either of the others gives a contradiction
    by_contra hno
    have hzx : rank z x < 0 := by omega
    by_cases hlt : rank x y < 0
    · have := hweak.trans z hz x hx y hy hzx hlt
      omega
    · by_cases hlt' : rank y z < 0
      · have := hweak.trans y hy z hz x hx hlt' hzx
        omega
      · have := hweak.incomp_trans x hx y hy z hz (by omega) (by omega) (by omega) (by omega)
        omega
  · intro htrans
    refine ⟨fun x _ hlt => ?_, fun x _ y _ hlt hlt' => ?_, fun x hx y hy z hz hxy hyz => ?_,
      fun x hx y hy z hz hxy hyx hyz hzy => ?_⟩
    · have := horiented x x
      omega
    · have := horiented x y
      omega
    · have hle := htrans x hx y hy z hz hxy.le hyz.le
      have hback := htrans y hy z hz x hx hyz.le
      have := horiented x y
      have := horiented y x
      have := horiented z x
      omega
    · have h₁ := htrans x hx y hy z hz
      have h₂ := htrans z hz y hy x hx
      have := horiented x y
      have := horiented y x
      have := horiented y z
      have := horiented z y
      have := horiented x z
      have := horiented z x
      omega

/-! ### Blends -/

/-- A partial comparison: the values that it compares fall into blocks, and it orders each. -/
structure Blocks (own : α → α → Option Int) : Prop where
  swap : ∀ {x y i}, own x y = some i → ∃ j, own y x = some j ∧ (i ≤ 0 ↔ 0 ≤ j) ∧ (j ≤ 0 ↔ 0 ≤ i)
  trans : ∀ {x y z i j}, own x y = some i → own y z = some j → ∃ k, own x z = some k ∧ (i ≤ 0 → j ≤ 0 → k ≤ 0)

/-- Three-way comparison of keys. -/
def keyRank (key : α → Nat) (x y : α) : Int :=
  if key x < key y then -1 else if key y < key x then 1 else 0

/-- The partial comparison, and the key where it does not compare. -/
def blend (own : α → α → Option Int) (key : α → Nat) (x y : α) : Int := (own x y).getD (keyRank key x y)

/-- A value `z` outside the block of `x` and `y` fits: its key is on the same side of both
keys, or the two are in the order of their keys. -/
def Fits (own : α → α → Option Int) (key : α → Nat) (x y z : α) : Prop :=
  ∀ i, own x y = some i → own x z = none →
    (key z < key x ∧ key z < key y) ∨ (key x < key z ∧ key y < key z) ∨
      ((i < 0 ↔ key x < key y) ∧ (0 < i ↔ key y < key x))

instance (own : α → α → Option Int) (key : α → Nat) (x y z : α) : Decidable (Fits own key x y z) :=
  inferInstanceAs (Decidable (∀ i ∈ own x y, own x z = none → _))

section
variable {own : α → α → Option Int} {key : α → Nat}

theorem keyRank_le (key : α → Nat) (x y : α) : keyRank key x y ≤ 0 ↔ key x ≤ key y := by
  rw [keyRank]
  split
  · omega
  · split <;> omega

theorem keyRank_ge (key : α → Nat) (x y : α) : 0 ≤ keyRank key x y ↔ key y ≤ key x := by
  rw [keyRank]
  split
  · omega
  · split <;> omega

theorem blend_some {x y : α} {i : Int} (h : own x y = some i) : blend own key x y = i := by
  rw [blend, h]
  rfl

theorem blend_none {x y : α} (h : own x y = none) : blend own key x y = keyRank key x y := by
  rw [blend, h]
  rfl

theorem Blocks.none_swap (hb : Blocks own) {x y : α} (h : own x y = none) : own y x = none := by
  cases hyx : own y x with
  | none => rfl
  | some i =>
      obtain ⟨j, hj, -⟩ := hb.swap hyx
      rw [h] at hj
      cases hj

/-- Outside the block of one is outside the block of the other. -/
theorem Blocks.outside (hb : Blocks own) {x y z : α} {i : Int} (hxy : own x y = some i)
    (hxz : own x z = none) : own y z = none := by
  cases hyz : own y z with
  | none => rfl
  | some j =>
      obtain ⟨k, hk, -⟩ := hb.trans hxy hyz
      rw [hxz] at hk
      cases hk

theorem Blocks.oriented (hb : Blocks own) (key : α → Nat) : Oriented (blend own key) := by
  intro x y
  cases hxy : own x y with
  | some i =>
      obtain ⟨j, hyx, hsign, -⟩ := hb.swap hxy
      rw [blend_some hxy, blend_some hyx]
      exact hsign
  | none => rw [blend_none hxy, blend_none (hb.none_swap hxy), keyRank_le, keyRank_ge]

/-- **A blend is a strict weak order** if and only if every value fits every block. -/
theorem blend_weakOn_iff (hb : Blocks own) (key : α → Nat) (S : Set α) :
    WeakOn (fun x y => blend own key x y < 0) S ↔ ∀ x ∈ S, ∀ y ∈ S, ∀ z ∈ S, Fits own key x y z := by
  rw [weakOn_iff (hb.oriented key)]
  constructor
  · intro htrans x hx y hy z hz i hxy hxz
    have hyz := hb.outside hxy hxz
    have hzx := hb.none_swap hxz
    have hzy := hb.none_swap hyz
    obtain ⟨j, hyx, hsign, hsign'⟩ := hb.swap hxy
    -- the six ways of going from one to another over the third
    have h₁ := htrans x hx z hz y hy
    have h₂ := htrans y hy z hz x hx
    have h₃ := htrans x hx y hy z hz
    have h₄ := htrans z hz x hx y hy
    have h₅ := htrans y hy x hx z hz
    have h₆ := htrans z hz y hy x hx
    simp only [blend_some hxy, blend_some hyx, blend_none hxz, blend_none hyz, blend_none hzx, blend_none hzy,
      keyRank_le] at h₁ h₂ h₃ h₄ h₅ h₆
    omega
  · intro hfits x hx y hy z hz hxy hyz
    cases hi : own x y with
    | some i =>
        rw [blend_some hi] at hxy
        cases hj : own y z with
        | some j =>
            rw [blend_some hj] at hyz
            obtain ⟨k, hk, hle⟩ := hb.trans hi hj
            rw [blend_some hk]
            exact hle hxy hyz
        | none =>
            have hxz : own x z = none := by
              obtain ⟨i', hi', -⟩ := hb.swap hi
              exact hb.outside hi' hj
            have hfit := hfits x hx y hy z hz i hi hxz
            rw [blend_none hj, keyRank_le] at hyz
            rw [blend_none hxz, keyRank_le]
            omega
    | none =>
        rw [blend_none hi, keyRank_le] at hxy
        cases hj : own y z with
        | some j =>
            rw [blend_some hj] at hyz
            have hyx := hb.none_swap hi
            have hxz := hb.none_swap (hb.outside hj hyx)
            have hfit := hfits y hy z hz x hx j hj hyx
            rw [blend_none hxz, keyRank_le]
            omega
        | none =>
            rw [blend_none hj, keyRank_le] at hyz
            cases hk : own x z with
            | some k =>
                have hfit := hfits x hx z hz y hy k hk hi
                rw [blend_some hk]
                omega
            | none =>
                rw [blend_none hk, keyRank_le]
                exact hxy.trans hyz

end

end PothosCore.Lib

import Mathlib.Algebra.Ring.Int.Defs
import Mathlib.Algebra.Ring.Nat
import Mathlib.Data.Nat.Log

/-!
# PothosCore.Lib.RoundToEven

Integers rounded to a significand of `p` bits, to the nearest and to the even one of two
that are as near: the conversion of an integer to a binary floating-point number whose
exponent does not overflow.

Rounding is monotone (`roundInt_mono`) and exact below `2 ^ p` (`roundInt_eq`). A comparison
of rounded numbers is decided by these two and by the rounding of its bounds.
-/

namespace PothosCore.Lib.RoundToEven

/-- The quotient to the nearest, ties to even. -/
def quotient (n d : Nat) : Nat :=
  let q := n / d
  if 2 * (n % d) < d ∨ 2 * (n % d) = d ∧ q % 2 = 0 then q else q + 1

/-- The unit in the last of `p` places. -/
def ulp (p n : Nat) : Nat := 2 ^ (n.log2 + 1 - p)

def round (p n : Nat) : Nat := quotient n (ulp p n) * ulp p n

def roundInt (p : Nat) : Int → Int
  | .ofNat n => round p n
  | .negSucc n => -round p (n + 1)

theorem quotient_mul (k : Nat) {d : Nat} (hd : 0 < d) : quotient (k * d) d = k := by
  rw [quotient, Nat.mul_mod_left, Nat.mul_div_cancel k hd]
  exact if_pos (.inl hd)

theorem quotient_mono {n m : Nat} (d : Nat) (h : n ≤ m) : quotient n d ≤ quotient m d := by
  have hdiv : n / d ≤ m / d := Nat.div_le_div_right h
  have hle : quotient n d ≤ n / d + 1 := by
    rw [quotient]
    split <;> omega
  have hge : m / d ≤ quotient m d := by
    rw [quotient]
    split <;> omega
  by_cases hlt : n / d < m / d
  · omega
  · have heq : n / d = m / d := by omega
    have hn := Nat.div_add_mod n d
    have hm := Nat.div_add_mod m d
    rw [heq] at hn
    have hmod : n % d ≤ m % d := by omega
    rw [quotient, quotient, heq]
    split
    · split <;> omega
    · rw [if_neg (by omega)]

theorem ulp_pos (p n : Nat) : 0 < ulp p n := Nat.two_pow_pos _

/-- Numbers of `p` bits are exact. -/
theorem round_eq {p n : Nat} (h : n < 2 ^ p) : round p n = n := by
  by_cases hn : n = 0
  · subst hn
    have hq := quotient_mul 0 (ulp_pos p 0)
    rw [Nat.zero_mul] at hq
    rw [round, hq, Nat.zero_mul]
  · have hlog : n.log2 < p := (Nat.log2_lt hn).mpr h
    have hulp : ulp p n = 1 := by rw [ulp, Nat.sub_eq_zero_of_le hlog, Nat.pow_zero]
    have hq := quotient_mul n Nat.one_pos
    rw [Nat.mul_one] at hq
    rw [round, hulp, hq, Nat.mul_one]

/-- A number is rounded between the powers of two that it lies between. -/
theorem round_bounds {p n : Nat} (hp : 0 < p) (hn : n ≠ 0) : 2 ^ n.log2 ≤ round p n ∧ round p n ≤ 2 ^ (n.log2 + 1) := by
  have hlow : 2 ^ n.log2 ≤ n := Nat.log2_self_le hn
  have hhigh : n ≤ 2 ^ (n.log2 + 1) := Nat.le_of_lt Nat.lt_log2_self
  have hpow {L : Nat} (hL : n.log2 ≤ L) : 2 ^ L = 2 ^ (L - (n.log2 + 1 - p)) * ulp p n := by
    rw [ulp, ← Nat.pow_add, Nat.sub_add_cancel (by omega)]
  constructor
  · calc
      2 ^ n.log2 = quotient (2 ^ n.log2) (ulp p n) * ulp p n := by
        rw [hpow (Nat.le_refl _), quotient_mul _ (ulp_pos p n)]
      _ ≤ round p n := Nat.mul_le_mul_right _ (quotient_mono _ hlow)
  · calc
      round p n ≤ quotient (2 ^ (n.log2 + 1)) (ulp p n) * ulp p n := Nat.mul_le_mul_right _ (quotient_mono _ hhigh)
      _ = 2 ^ (n.log2 + 1) := by
        rw [hpow (Nat.le_succ _), quotient_mul _ (ulp_pos p n)]

/-- **Rounding is monotone.** -/
theorem round_mono {p n m : Nat} (hp : 0 < p) (h : n ≤ m) : round p n ≤ round p m := by
  by_cases hn : n = 0
  · subst hn
    rw [round_eq (Nat.two_pow_pos p)]
    exact Nat.zero_le _
  have hm : m ≠ 0 := by omega
  rcases Nat.lt_or_ge n.log2 m.log2 with hlt | hge
  · calc
      round p n ≤ 2 ^ (n.log2 + 1) := (round_bounds hp hn).2
      _ ≤ 2 ^ m.log2 := Nat.pow_le_pow_right Nat.two_pos hlt
      _ ≤ round p m := (round_bounds hp hm).1
  · have hlog : n.log2 = m.log2 := by
      apply Nat.le_antisymm _ hge
      exact (Nat.le_log2 hm).mpr (Nat.le_trans (Nat.log2_self_le hn) h)
    have hulp : ulp p n = ulp p m := by rw [ulp, ulp, hlog]
    rw [round, round, hulp]
    exact Nat.mul_le_mul_right _ (quotient_mono _ h)

theorem roundInt_eq {p : Nat} {n : Int} (h : n.natAbs < 2 ^ p) : roundInt p n = n := by
  cases n with
  | ofNat n => exact congrArg Int.ofNat (round_eq h)
  | negSucc n =>
      have hround : round p (n + 1) = n + 1 := round_eq h
      rw [roundInt, hround]
      rfl

/-- **Rounding integers is monotone.** -/
theorem roundInt_mono {p : Nat} (hp : 0 < p) {n m : Int} (h : n ≤ m) : roundInt p n ≤ roundInt p m := by
  cases n with
  | ofNat n =>
      cases m with
      | ofNat m => exact Int.ofNat_le.mpr (round_mono hp (Int.ofNat_le.mp h))
      | negSucc m => exact absurd h (Int.not_le.mpr (Int.negSucc_lt_zero m |>.trans_le (Int.natCast_nonneg n)))
  | negSucc n =>
      cases m with
      | ofNat m =>
          rw [roundInt, roundInt]
          omega
      | negSucc m =>
          have hle : m ≤ n := by omega
          have hround : round p (m + 1) ≤ round p (n + 1) := round_mono hp (Nat.succ_le_succ hle)
          rw [roundInt, roundInt]
          omega

end PothosCore.Lib.RoundToEven

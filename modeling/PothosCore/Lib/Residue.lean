import Mathlib.Data.Nat.ModEq
import Mathlib.Tactic.Linarith
import Mathlib.Tactic.Ring

/-!
# PothosCore.Lib.Residue

Residues of consecutive naturals, as a ring of `n` slots or an `n`-byte
circular memory sees them: within any window of `n` consecutive positions a
position is determined by its residue, so two positions of one window that are
not equal never meet.

And sums, differences and products of a 64-bit `size_t`, on natural numbers: each
is reduced modulo `2 ^ 64`, and is the exact value where nothing wraps.
-/

namespace PothosCore.Lib

/-- Positions of one window of `n` consecutive naturals are equal as soon as
their residues are. -/
theorem eq_of_mod_eq_of_window {n a x y : Nat} (hx : a ≤ x) (hx' : x < a + n)
    (hy : a ≤ y) (hy' : y < a + n) (h : x % n = y % n) : x = y := by
  rcases Nat.le_total x y with hle | hle
  · have hd : (y - x) % n = 0 := Nat.sub_mod_eq_zero_of_mod_eq h.symm
    rw [Nat.mod_eq_of_lt (by omega)] at hd
    omega
  · have hd : (x - y) % n = 0 := Nat.sub_mod_eq_zero_of_mod_eq h
    rw [Nat.mod_eq_of_lt (by omega)] at hd
    omega

/-- Two different positions closer than `n` have different residues. -/
theorem mod_ne_of_lt_of_lt {n x y : Nat} (h : x < y) (h' : y < x + n) : x % n ≠ y % n := by
  intro he
  have := eq_of_mod_eq_of_window (le_refl x) (by omega) h.le h' he
  omega

/-- Advancing a residue by at most one full turn. -/
theorem add_mod_of_le {n p k : Nat} (hn : 0 < n) (hk : k ≤ n) :
    (p + k) % n = if p % n + k < n then p % n + k else p % n + k - n := by
  have hlt := Nat.mod_lt p hn
  rw [← Nat.mod_add_mod]
  by_cases hq : p % n + k < n
  · rw [if_pos hq, Nat.mod_eq_of_lt hq]
  · rw [if_neg hq, Nat.mod_eq_sub_mod (Nat.le_of_not_lt hq), Nat.mod_eq_of_lt (by omega)]

/-- Stepping a residue by one: the wrapping increment of a ring index. -/
theorem succ_mod_eq_ite {n k : Nat} (hn : 0 < n) :
    (k + 1) % n = if k % n + 1 = n then 0 else k % n + 1 := by
  have hlt := Nat.mod_lt k hn
  rw [add_mod_of_le hn hn]
  split <;> split <;> omega

/-- Every residue is met in a window of `n` consecutive naturals. -/
theorem exists_in_window_of_lt {n s : Nat} (a : Nat) (hs : s < n) :
    ∃ k, a ≤ k ∧ k < a + n ∧ k % n = s := by
  refine ⟨a + (s + n - a % n) % n, by omega, ?_, ?_⟩
  · have := Nat.mod_lt (s + n - a % n) (by omega : 0 < n)
    omega
  · have ha := Nat.mod_lt a (by omega : 0 < n)
    have hsum : a % n + (s + n - a % n) = s + n := by omega
    rw [Nat.add_mod_mod, ← Nat.mod_add_mod, hsum, Nat.add_mod_right, Nat.mod_eq_of_lt hs]

end PothosCore.Lib

namespace PothosCore.Lib.SizeT

def add (a b : Nat) : Nat := (a + b) % 2 ^ 64

/-- Both arguments are below `2 ^ 64`. -/
def sub (a b : Nat) : Nat := (a + 2 ^ 64 - b) % 2 ^ 64

def mul (a b : Nat) : Nat := (a * b) % 2 ^ 64

variable {a b : Nat}

theorem add_eq (h : a + b < 2 ^ 64) : add a b = a + b := Nat.mod_eq_of_lt h

theorem sub_eq (hle : b ≤ a) (ha : a < 2 ^ 64) : sub a b = a - b := by
  unfold sub
  omega

theorem mul_eq (h : a * b < 2 ^ 64) : mul a b = a * b := Nat.mod_eq_of_lt h

theorem mul_lt (a b : Nat) : mul a b < 2 ^ 64 := Nat.mod_lt _ (by decide)

end PothosCore.Lib.SizeT

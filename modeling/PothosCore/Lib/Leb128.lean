import Mathlib.Data.Nat.Digits.Defs
import Mathlib.Data.BitVec

/-!
# PothosCore.Lib.Leb128

Numbers in groups of seven bits, least significant first, one byte for a group: all
bytes but the last carry a continuation bit. The value of the groups is that of their
base-128 digits.

The second half is about building a word from such groups with shifts and
disjunctions, as long as each group lands above the bits that are there already.
-/

namespace PothosCore.Lib

/-- The bytes of a list of groups. -/
def continued : List Nat → List UInt8
  | [] => []
  | [c] => [UInt8.ofNat c]
  | c :: d :: cs => UInt8.ofNat (c + 128) :: continued (d :: cs)

theorem continued_cons {c : Nat} {cs : List Nat} (hcs : cs ≠ []) :
    continued (c :: cs) = UInt8.ofNat (c + 128) :: continued cs := by
  cases cs with
  | nil => exact absurd rfl hcs
  | cons d cs => rfl

@[simp] theorem continued_length (cs : List Nat) : (continued cs).length = cs.length := by
  induction cs with
  | nil => rfl
  | cons c cs ih =>
      cases cs with
      | nil => rfl
      | cons d cs => rw [continued, List.length_cons, ih, ← List.length_cons]

/-! ### The bits of a byte -/

theorem toNat_and_0x7f (b : UInt8) : (b &&& 0x7f).toNat = b.toNat % 128 := by
  rw [UInt8.toNat_and]
  exact Nat.and_two_pow_sub_one_eq_mod b.toNat 7

theorem and_0x80_eq_zero (b : UInt8) : b &&& 0x80 = 0 ↔ b.toNat < 128 := by
  obtain ⟨⟨⟨n, hn⟩⟩⟩ := b
  revert n
  decide +kernel

theorem and_0x40_eq_zero (b : UInt8) : b &&& 0x40 = 0 ↔ b.toNat % 128 < 64 := by
  obtain ⟨⟨⟨n, hn⟩⟩⟩ := b
  revert n
  decide +kernel

theorem toNat_or_0x80 {b : UInt8} (hb : b.toNat < 128) : (b ||| 0x80).toNat = b.toNat + 128 := by
  rw [UInt8.toNat_or, Nat.or_comm]
  exact (Nat.two_pow_add_eq_or_of_lt (i := 7) hb 1).symm.trans (Nat.add_comm _ _)

/-! ### Words from groups -/

/-- A shifted group above the bits that are there adds up. -/
theorem ofNat_or_shiftLeft {w t c s : Nat} (ht : t < 2 ^ s) :
    BitVec.ofNat w t ||| BitVec.ofNat w c <<< s = BitVec.ofNat w (t + c * 2 ^ s) := by
  refine BitVec.eq_of_toNat_eq ?_
  rw [BitVec.toNat_or, BitVec.toNat_shiftLeft, BitVec.toNat_ofNat, BitVec.toNat_ofNat,
    BitVec.toNat_ofNat, Nat.shiftLeft_eq]
  rcases Nat.lt_or_ge s w with hs | hs
  · -- the group is cut off at the width
    obtain ⟨d, rfl⟩ := Nat.exists_eq_add_of_lt hs
    have hpow : (2 : Nat) ^ (s + d + 1) = 2 ^ s * 2 ^ (d + 1) := by rw [Nat.add_assoc, Nat.pow_add]
    have hcut : c % 2 ^ (s + d + 1) * 2 ^ s % 2 ^ (s + d + 1) = 2 ^ s * (c % 2 ^ (d + 1)) := by
      rw [Nat.mul_comm, Nat.mul_mod, Nat.mod_mod, ← Nat.mul_mod, hpow, Nat.mul_mod_mul_left]
    rw [hcut, Nat.mod_eq_of_lt (ht.trans (Nat.pow_lt_pow_right Nat.one_lt_two hs)), Nat.or_comm,
      ← Nat.two_pow_add_eq_or_of_lt ht, hpow, Nat.mod_mul, Nat.add_mul_mod_self_right,
      Nat.mod_eq_of_lt ht, Nat.add_mul_div_right _ _ (Nat.two_pow_pos s), Nat.div_eq_of_lt ht,
      Nat.zero_add, Nat.add_comm]
  · have hdvd : 2 ^ w ∣ 2 ^ s := Nat.pow_dvd_pow 2 hs
    rw [Nat.mod_eq_zero_of_dvd (Dvd.dvd.mul_left hdvd _), Nat.or_zero,
      Nat.add_mod, Nat.mod_eq_zero_of_dvd (Dvd.dvd.mul_left hdvd c), Nat.add_zero, Nat.mod_mod]

/-- Ones above the bits that are there make a number negative. -/
theorem ofNat_or_ofInt {w t s : Nat} (ht : t < 2 ^ s) (hs : s < w) :
    BitVec.ofNat w t ||| BitVec.ofInt w (-(2 ^ s)) = BitVec.ofInt w ((t : Int) - 2 ^ s) := by
  have hlt : (2 : Nat) ^ s < 2 ^ w := Nat.pow_lt_pow_right Nat.one_lt_two hs
  have hpow : (2 : Nat) ^ w = 2 ^ s * 2 ^ (w - s) := by rw [← Nat.pow_add, Nat.add_sub_cancel' hs.le]
  have hmod : ∀ t : Nat, t < 2 ^ s →
      ((t : Int) - 2 ^ s) % ((2 ^ w : Nat) : Int) = ((t + (2 ^ w - 2 ^ s) : Nat) : Int) := by
    intro t ht
    have hcast : (2 : Int) ^ s = ((2 ^ s : Nat) : Int) := by push_cast; rfl
    clear hpow
    rw [hcast]
    generalize 2 ^ s = a at ht hlt
    generalize 2 ^ w = b at hlt
    rw [← Int.add_emod_right, Int.emod_eq_of_lt (by omega) (by omega)]
    omega
  have hones : (BitVec.ofInt w (-(2 ^ s))).toNat = 2 ^ s * (2 ^ (w - s) - 1) := by
    have h0 := hmod 0 (Nat.two_pow_pos s)
    rw [Int.natCast_zero, Int.zero_sub] at h0
    rw [BitVec.toNat_ofInt, h0, Int.toNat_natCast, Nat.mul_sub, Nat.mul_one, ← hpow, Nat.zero_add]
  refine BitVec.eq_of_toNat_eq ?_
  rw [BitVec.toNat_or, BitVec.toNat_ofNat, Nat.mod_eq_of_lt (ht.trans hlt), hones, Nat.or_comm,
    ← Nat.two_pow_add_eq_or_of_lt ht, BitVec.toNat_ofInt, hmod t ht, Int.toNat_natCast, Nat.mul_sub,
    Nat.mul_one, ← hpow, Nat.add_comm]

end PothosCore.Lib

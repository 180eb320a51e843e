import PothosCore.Archive.Numbers
import PothosCore.Lib.Leb128

/-!
# PothosCore.Archive.IntegerRoundTrip

Saving an integer and loading it again.

Both encoders write the groups of the value; the signed one stops at a group whose
top bit is the sign of the value. The loader builds the same word from the groups.
What is left is the sign extension: it is needed for a negative value whose groups
end below the width, and then shifts an `int`, which has room for the groups of a
32 bit type but not for all those of a 64 bit type.
-/

namespace PothosCore.Archive

open PothosCore.Lib

/-! ### The loop of load -/

theorem round_continued {w T c s : Nat} {byte : UInt8} {d : Bool} {rest : Stream} {b : UInt8}
    (hT : T < 2 ^ s) (hb : b.toNat % 128 = c) (hs : s + 7 < 2 ^ 32) :
    Load.round ⟨BitVec.ofNat w T, s, byte, d, b :: rest⟩ =
      ⟨BitVec.ofNat w (T + c * 2 ^ s), s + 7, b, d && decide (s < w), rest⟩ := by
  simp only [Load.round, readByte, toNat_and_0x7f, hb, ofNat_or_shiftLeft hT, Nat.mod_eq_of_lt hs]

/-- **The loader reads groups.** From a stream that starts with the bytes of `cs` it
takes just these, and appends the groups to the bits it has. -/
theorem loadLoop_continued {w : Nat} {cs : List Nat} (hcs : cs ≠ []) (hlt : ∀ c ∈ cs, c < 128)
    {fuel T s : Nat} {byte : UInt8} {d : Bool} {rest : Stream} (hfuel : cs.length ≤ fuel)
    (hT : T < 2 ^ s) (hs : s + 7 * cs.length < 2 ^ 32) :
    loadLoop fuel ⟨BitVec.ofNat w T, s, byte, d, continued cs ++ rest⟩ =
      .ok ⟨BitVec.ofNat w (T + Nat.ofDigits 128 cs * 2 ^ s), s + 7 * cs.length,
        UInt8.ofNat (cs.getLast hcs), d && decide (s + 7 * (cs.length - 1) < w), rest⟩ := by
  induction cs generalizing fuel T s byte d with
  | nil => exact absurd rfl hcs
  | cons c cs ih =>
      have hc : c < 128 := hlt c List.mem_cons_self
      cases fuel with
      | zero => cases hfuel
      | succ fuel =>
          cases cs with
          | nil =>
              have hbyte : (UInt8.ofNat c).toNat = c := by rw [UInt8.toNat_ofNat']; omega
              have hround : Load.round ⟨BitVec.ofNat w T, s, byte, d, UInt8.ofNat c :: rest⟩ = _ :=
                round_continued hT (show _ = c by rw [hbyte]; omega) hs
              have hstop : UInt8.ofNat c &&& more = 0 := (and_0x80_eq_zero _).mpr (by omega)
              show loadLoop (fuel + 1) ⟨_, _, _, _, UInt8.ofNat c :: rest⟩ = _
              rw [loadLoop, hround]
              simp [hstop]
          | cons e cs =>
              have hbyte : (UInt8.ofNat (c + 128)).toNat = c + 128 := by
                rw [UInt8.toNat_ofNat']; omega
              have hgo : UInt8.ofNat (c + 128) &&& more ≠ 0 := by
                rw [ne_eq, more, and_0x80_eq_zero]
                omega
              have hlen : (c :: e :: cs).length = (e :: cs).length + 1 := rfl
              rw [hlen] at hs hfuel
              have hround : Load.round ⟨BitVec.ofNat w T, s, byte, d,
                  UInt8.ofNat (c + 128) :: (continued (e :: cs) ++ rest)⟩ = _ :=
                round_continued hT (show _ = c by rw [hbyte]; omega) (by omega)
              have hT' : T + c * 2 ^ s < 2 ^ (s + 7) := by
                have hpow : (2 : Nat) ^ (s + 7) = 128 * 2 ^ s := by rw [Nat.pow_add, Nat.mul_comm]
                have hmul : c * 2 ^ s ≤ 127 * 2 ^ s := Nat.mul_le_mul_right _ (by omega)
                omega
              have hrest : loadLoop fuel ⟨BitVec.ofNat w (T + c * 2 ^ s), s + 7,
                  UInt8.ofNat (c + 128), d && decide (s < w), continued (e :: cs) ++ rest⟩ = _ :=
                ih (List.cons_ne_nil e cs) (fun x hx => hlt x (List.mem_cons_of_mem c hx))
                  (by omega) hT' (by omega)
              rw [continued_cons (List.cons_ne_nil e cs), List.cons_append, loadLoop, hround]
              simp only [hgo, ne_eq, not_false_eq_true, if_true]
              rw [hrest, hlen, List.getLast_cons (List.cons_ne_nil e cs)]
              have hdigits : T + c * 2 ^ s + Nat.ofDigits 128 (e :: cs) * 2 ^ (s + 7) =
                  T + Nat.ofDigits 128 (c :: e :: cs) * 2 ^ s := by
                have hcons : Nat.ofDigits 128 (c :: e :: cs) = c + 128 * Nat.ofDigits 128 (e :: cs) :=
                  Nat.ofDigits_cons
                rw [hcons, Nat.pow_add]
                generalize Nat.ofDigits 128 (e :: cs) = v
                ring
              have hshifts : (decide (s < w) && decide (s + 7 + 7 * ((e :: cs).length - 1) < w)) =
                  decide (s + 7 * ((e :: cs).length + 1 - 1) < w) := by
                have hpos : 0 < (e :: cs).length := Nat.succ_pos _
                rw [← Bool.decide_and]
                refine decide_eq_decide.mpr ?_
                omega
              have hshift : s + 7 + 7 * (e :: cs).length = s + 7 * ((e :: cs).length + 1) := by omega
              rw [hdigits, Bool.and_assoc, hshifts, hshift]

/-! ### save -/

/-- A signed value that its lowest `k + 1` groups determine. -/
def Fits (k : Nat) (u : Int) : Prop := -(64 * 128 ^ k) ≤ u ∧ u < 64 * 128 ^ k

instance (k : Nat) (u : Int) : Decidable (Fits k u) :=
  inferInstanceAs (Decidable (_ ∧ _))

theorem fits_succ {k : Nat} {u : Int} : Fits (k + 1) u ↔ Fits k (u / 128) := by
  unfold Fits
  rw [pow_succ]
  generalize (128 : Int) ^ k = p
  omega

section
variable {w : Nat}

/-- The lowest groups of a word do not depend on how its top bit is read. -/
theorem toInt_emod_128 (value : BitVec w) (hw : 8 ≤ w) :
    value.toInt % 128 = ((value.toNat % 128 : Nat) : Int) := by
  obtain ⟨d, rfl⟩ := Nat.exists_eq_add_of_le hw
  have hpow : (2 : Nat) ^ (8 + d) = 128 * 2 ^ (d + 1) := by
    rw [show 8 + d = 7 + (d + 1) by omega, Nat.pow_add]
  rw [BitVec.toInt_eq_toNat_cond, hpow]
  generalize 2 ^ (d + 1) = q
  split <;> omega

/-- The group that a byte of `save` takes from the value. -/
theorem saved_byte (value : BitVec w) :
    (UInt8.ofNat (value.toNat % 256) &&& 0x7f).toNat = value.toNat % 128 := by
  rw [toNat_and_0x7f, UInt8.toNat_ofNat']
  omega

theorem ofNat_of_toNat {b : UInt8} {n : Nat} (hb : b.toNat = n) : b = UInt8.ofNat n := by
  rw [← hb, UInt8.ofNat_toNat]

/-- The same byte with the continuation bit. -/
theorem saved_or_more (value : BitVec w) :
    (UInt8.ofNat (value.toNat % 256) &&& 0x7f) ||| more = UInt8.ofNat (value.toNat % 128 + 128) := by
  have hbyte := saved_byte value
  refine ofNat_of_toNat ?_
  rw [more, toNat_or_0x80 (by omega), hbyte]

/-- **One round of the signed encoder.** -/
theorem saveSignedLoop_succ (fuel : Nat) (value : BitVec w) (hw : 8 ≤ w) :
    saveSignedLoop (fuel + 1) value =
      if Fits 0 value.toInt then .ok [UInt8.ofNat (value.toNat % 128)]
      else (saveSignedLoop fuel (value.sshiftRight 7)).map
        (UInt8.ofNat (value.toNat % 128 + 128) :: ·) := by
  have hmod := toInt_emod_128 value hw
  have hshift : (value.sshiftRight 7).toInt = value.toInt / 128 := by
    rw [BitVec.toInt_sshiftRight, Int.shiftRight_eq_div_pow]
    rfl
  have hbyte := saved_byte value
  have hzero : value.sshiftRight 7 = 0 ↔ value.toInt / 128 = 0 := by
    rw [← hshift, ← BitVec.toInt_inj]
    simp
  have hneg : value.sshiftRight 7 = -1 ↔ value.toInt / 128 = -1 := by
    have hone : (-1 : BitVec w).toInt = -1 := by
      rw [show (-1 : BitVec w) = -1#w from rfl, BitVec.neg_one_eq_allOnes, BitVec.toInt_allOnes,
        if_pos (by omega)]
    rw [← hshift, ← BitVec.toInt_inj, hone]
  have hsign : (UInt8.ofNat (value.toNat % 256) &&& 0x7f) &&& 0x40 = 0 ↔ value.toNat % 128 < 64 := by
    rw [and_0x40_eq_zero, hbyte]
    omega
  have hstop : ((value.sshiftRight 7 ≠ 0 ∨ (UInt8.ofNat (value.toNat % 256) &&& 0x7f) &&& 0x40 ≠ 0) ∧
      (value.sshiftRight 7 ≠ -1 ∨ (UInt8.ofNat (value.toNat % 256) &&& 0x7f) &&& 0x40 = 0)) ↔
      ¬ Fits 0 value.toInt := by
    simp only [ne_eq, hzero, hneg, hsign, Fits, pow_zero]
    omega
  rw [saveSignedLoop]
  simp only [hstop]
  by_cases hfits : Fits 0 value.toInt
  · rw [if_neg (not_not.mpr hfits), if_pos hfits, ofNat_of_toNat hbyte]
  · rw [if_pos hfits, if_neg hfits, saved_or_more]
    cases saveSignedLoop fuel (value.sshiftRight 7) <;> rfl

end

theorem fits_of_fits_zero {k : Nat} {u : Int} (h : Fits 0 u) : Fits k u := by
  have hp : (0 : Int) < 128 ^ k := by positivity
  unfold Fits at *
  rw [pow_zero] at h
  constructor <;> nlinarith

theorem Fits.bounds {k : Nat} {u : Int} (h : Fits k u) :
    -(128 ^ (k + 1)) ≤ 2 * u ∧ 2 * u < 128 ^ (k + 1) := by
  unfold Fits at h
  rw [pow_succ]
  generalize (128 : Int) ^ k = p at *
  omega

/-- The groups the signed encoder takes from a value: the lowest ones, up to the first
from which the value can be told. -/
structure SignedGroups (u : Int) (cs : List Nat) : Prop where
  ne_nil : cs ≠ []
  lt : ∀ c ∈ cs, c < 128
  digits : ((Nat.ofDigits 128 cs : Nat) : Int) = u % 128 ^ cs.length
  length : ∀ k, cs.length ≤ k + 1 ↔ Fits k u
  sign : cs.getLast ne_nil < 64 ↔ 0 ≤ u

namespace SignedGroups

theorem single {u : Int} {c : Nat} (hc : u % 128 = (c : Int)) (hfits : Fits 0 u) :
    SignedGroups u [c] where
  ne_nil := List.cons_ne_nil _ _
  lt := by
    intro d hd
    rw [List.mem_singleton.mp hd]
    omega
  digits := by rw [Nat.ofDigits_singleton, List.length_singleton, pow_one, hc]
  length := fun k => iff_of_true (Nat.succ_le_succ (Nat.zero_le k)) (fits_of_fits_zero hfits)
  sign := by
    simp only [Fits, pow_zero] at hfits
    rw [List.getLast_singleton]
    omega

theorem cons {u : Int} {c : Nat} {cs : List Nat} (hc : u % 128 = (c : Int)) (hfits : ¬ Fits 0 u)
    (hcs : SignedGroups (u / 128) cs) : SignedGroups u (c :: cs) where
  ne_nil := List.cons_ne_nil _ _
  lt := by
    intro d hd
    cases hd with
    | head => omega
    | tail _ hd => exact hcs.lt d hd
  digits := by
    have hlow : u = 128 * (u / 128) + c := by omega
    rw [Nat.ofDigits_cons, List.length_cons, pow_succ, Int.mul_comm (128 ^ _) 128,
      Int.natCast_add, Int.natCast_mul, hcs.digits, Int.emod_def (u / 128), Int.emod_def u,
      Int.ediv_ediv_of_nonneg (by decide)]
    push_cast
    linarith
  length := by
    intro k
    cases k with
    | zero =>
        have hlen := List.length_pos_iff.mpr hcs.ne_nil
        refine iff_of_false ?_ hfits
        rw [List.length_cons]
        omega
    | succ k => rw [fits_succ, ← hcs.length k, List.length_cons, Nat.add_le_add_iff_right]
  sign := by
    rw [List.getLast_cons hcs.ne_nil, hcs.sign]
    omega

end SignedGroups

/-- **What the signed encoder writes.** -/
theorem saveSignedLoop_eq {w fuel : Nat} {value : BitVec w} (hw : 8 ≤ w)
    (hfits : Fits fuel value.toInt) :
    ∃ cs, SignedGroups value.toInt cs ∧ saveSignedLoop (fuel + 1) value = .ok (continued cs) := by
  induction fuel generalizing value with
  | zero =>
      refine ⟨_, .single (toInt_emod_128 value hw) hfits, ?_⟩
      rw [saveSignedLoop_succ 0 value hw, if_pos hfits]
      rfl
  | succ fuel ih =>
      have hmod := toInt_emod_128 value hw
      rw [saveSignedLoop_succ _ value hw]
      by_cases hzero : Fits 0 value.toInt
      · rw [if_pos hzero]
        exact ⟨_, .single hmod hzero, rfl⟩
      · have hshift : (value.sshiftRight 7).toInt = value.toInt / 128 := by
          rw [BitVec.toInt_sshiftRight, Int.shiftRight_eq_div_pow]
          rfl
        have hrest : Fits fuel (value.sshiftRight 7).toInt := by
          rw [hshift]
          exact fits_succ.mp hfits
        obtain ⟨cs, hcs, hsave⟩ := ih hrest
        rw [hshift] at hcs
        refine ⟨_, .cons hmod hzero hcs, ?_⟩
        rw [if_neg hzero, hsave, continued_cons hcs.ne_nil]
        rfl

/-- **One round of the unsigned encoder.** -/
theorem saveUnsignedLoop_succ {w : Nat} (fuel : Nat) (value : BitVec w) :
    saveUnsignedLoop (fuel + 1) value =
      if value.toNat < 128 then .ok [UInt8.ofNat (value.toNat % 128)]
      else (saveUnsignedLoop fuel (value >>> 7)).map
        (UInt8.ofNat (value.toNat % 128 + 128) :: ·) := by
  have hbyte := saved_byte value
  have hzero : value >>> 7 = 0 ↔ value.toNat < 128 := by
    rw [← BitVec.toNat_inj, BitVec.toNat_ushiftRight, Nat.shiftRight_eq_div_pow]
    simp
  rw [saveUnsignedLoop]
  simp only [ne_eq, hzero]
  by_cases hlast : value.toNat < 128
  · rw [if_neg (not_not.mpr hlast), if_pos hlast, ofNat_of_toNat hbyte]
  · rw [if_pos hlast, if_neg hlast, saved_or_more]
    cases saveUnsignedLoop fuel (value >>> 7) <;> rfl

/-- **What the unsigned encoder writes**: all groups of the value up to its highest
nonzero one. -/
theorem saveUnsignedLoop_eq {w fuel : Nat} {value : BitVec w}
    (hfits : value.toNat < 128 ^ (fuel + 1)) :
    ∃ cs, cs ≠ [] ∧ (∀ c ∈ cs, c < 128) ∧ Nat.ofDigits 128 cs = value.toNat ∧
      cs.length ≤ fuel + 1 ∧ saveUnsignedLoop (fuel + 1) value = .ok (continued cs) := by
  have hsingle : ∀ value : BitVec w, value.toNat < 128 →
      (∀ c ∈ [value.toNat % 128], c < 128) ∧ Nat.ofDigits 128 [value.toNat % 128] = value.toNat := by
    intro value hlast
    constructor
    · intro c hc
      rw [List.mem_singleton.mp hc]
      omega
    · rw [Nat.ofDigits_singleton]
      omega
  induction fuel generalizing value with
  | zero =>
      have hlast : value.toNat < 128 := by omega
      obtain ⟨hlt, hdigits⟩ := hsingle value hlast
      refine ⟨_, List.cons_ne_nil _ _, hlt, hdigits, Nat.le_refl 1, ?_⟩
      rw [saveUnsignedLoop_succ, if_pos hlast]
      rfl
  | succ fuel ih =>
      rw [saveUnsignedLoop_succ]
      by_cases hlast : value.toNat < 128
      · obtain ⟨hlt, hdigits⟩ := hsingle value hlast
        rw [if_pos hlast]
        exact ⟨_, List.cons_ne_nil _ _, hlt, hdigits, Nat.succ_le_succ (Nat.zero_le _), rfl⟩
      · have hshift : (value >>> 7).toNat = value.toNat / 128 := by
          rw [BitVec.toNat_ushiftRight, Nat.shiftRight_eq_div_pow]
        have hrest : (value >>> 7).toNat < 128 ^ (fuel + 1) := by
          rw [hshift]
          rw [pow_succ] at hfits
          exact Nat.div_lt_of_lt_mul (by rwa [Nat.mul_comm])
        obtain ⟨cs, hne, hlt, hdigits, hlen, hsave⟩ := ih hrest
        refine ⟨value.toNat % 128 :: cs, List.cons_ne_nil _ _, ?_, ?_, Nat.succ_le_succ hlen, ?_⟩
        · intro c hc
          cases hc with
          | head => omega
          | tail _ hc => exact hlt c hc
        · rw [Nat.ofDigits_cons, hdigits, hshift]
          exact Nat.mod_add_div _ _
        · rw [if_neg hlast, hsave, continued_cons hne]
          rfl

/-! ### The round trip -/

/-- Saving the value ends, and loading the bytes gives it back in at most as many rounds
as there are bytes, with no shift by the width of its type or more, and takes nothing of
what follows. -/
def RoundTrips (ty : IntType) (v : BitVec ty.bits) : Prop :=
  ∃ bytes, save ty v = .ok bytes ∧ ∀ (rest : Stream) (byte : UInt8) (fuel : Nat),
    bytes.length ≤ fuel → ∃ s, load ty fuel byte (bytes ++ rest) = .ok s ∧ s.t = v ∧
      s.stream = rest ∧ s.defined = true

theorem load_continued (ty : IntType) {cs : List Nat} (hcs : cs ≠ []) (hlt : ∀ c ∈ cs, c < 128)
    (hlen : cs.length ≤ ty.bits / 7 + 1) (rest : Stream) (byte : UInt8) {fuel : Nat}
    (hfuel : cs.length ≤ fuel) :
    load ty fuel byte (continued cs ++ rest) =
      .ok (let s := ⟨BitVec.ofNat _ (Nat.ofDigits 128 cs), 7 * cs.length,
        UInt8.ofNat (cs.getLast hcs), true, rest⟩
        if ty.signed then signExtend s else s) := by
  have hbits := ty.bits_eq
  have hloop : loadLoop fuel ⟨BitVec.ofNat ty.bits 0, 0, byte, true, continued cs ++ rest⟩ = _ :=
    loadLoop_continued hcs hlt hfuel Nat.one_pos (by omega)
  have hshifts : 7 * (cs.length - 1) < ty.bits := by omega
  simp only [Nat.zero_add, pow_zero, Nat.mul_one, hshifts, decide_true, Bool.and_self] at hloop
  rw [load]
  show (loadLoop fuel ⟨BitVec.ofNat ty.bits 0, 0, byte, true, continued cs ++ rest⟩ >>= _) = _
  rw [hloop]
  rfl

/-- Groups up to the width of the word or beyond determine it. -/
theorem ofInt_emod {w m : Nat} (u : Int) (hw : w ≤ m) : BitVec.ofInt w (u % 2 ^ m) = BitVec.ofInt w u := by
  refine BitVec.eq_of_toNat_eq ?_
  have hdvd : ((2 ^ w : Nat) : Int) ∣ 2 ^ m := by
    push_cast
    exact pow_dvd_pow 2 hw
  rw [BitVec.toNat_ofInt, BitVec.toNat_ofInt, Int.emod_emod_of_dvd u hdvd]

/-- **Sign extension rebuilds the value.** The `int` it shifts has no room for the
groups of a negative value of five bytes or more that end below the width. -/
theorem signExtend_groups {w : Nat} {v : BitVec w} {cs : List Nat} (hcs : SignedGroups v.toInt cs)
    (rest : Stream) :
    let s := signExtend ⟨BitVec.ofNat w (Nat.ofDigits 128 cs), 7 * cs.length,
      UInt8.ofNat (cs.getLast hcs.ne_nil), true, rest⟩
    s.t = v ∧ s.stream = rest ∧
      (s.defined = true ↔ ¬ (v.toInt < 0 ∧ 7 * cs.length < w ∧ 32 ≤ 7 * cs.length)) := by
  have hlast := hcs.lt _ (List.getLast_mem hcs.ne_nil)
  have hsign : UInt8.ofNat (cs.getLast hcs.ne_nil) &&& 0x40 ≠ 0 ↔ v.toInt < 0 := by
    rw [ne_eq, and_0x40_eq_zero, UInt8.toNat_ofNat', ← Int.not_le, ← hcs.sign]
    omega
  have hpow : (128 : Int) ^ cs.length = 2 ^ (7 * cs.length) := by rw [pow_mul]; rfl
  have hdigits := hcs.digits
  rw [hpow] at hdigits
  simp only [signExtend, hsign]
  have hpos := List.length_pos_iff.mpr hcs.ne_nil
  have hbounds : -(2 ^ (7 * cs.length)) ≤ 2 * v.toInt ∧ 2 * v.toInt < 2 ^ (7 * cs.length) := by
    have hfits : Fits (cs.length - 1) v.toInt := (hcs.length _).mp (by omega)
    have hbounds := hfits.bounds
    rwa [Nat.sub_add_cancel hpos, hpow] at hbounds
  by_cases hext : v.toInt < 0 ∧ 7 * cs.length < w
  · rw [if_pos hext]
    refine ⟨?_, rfl, ?_⟩
    · -- the groups hold the value plus the ones above them
      have hsum : v.toInt % 2 ^ (7 * cs.length) = v.toInt + 2 ^ (7 * cs.length) := by
        rw [← Int.add_emod_right]
        exact Int.emod_eq_of_lt (by omega) (by omega)
      have hlt : Nat.ofDigits 128 cs < 2 ^ (7 * cs.length) := by
        rw [pow_mul]
        exact Nat.ofDigits_lt_base_pow_length (by decide) hcs.lt
      show BitVec.ofNat w _ ||| BitVec.ofInt w (-(2 ^ (7 * cs.length))) = v
      rw [ofNat_or_ofInt hlt hext.2, hdigits, hsum, Int.add_sub_cancel, BitVec.ofInt_toInt]
    · simp
      omega
  · rw [if_neg hext]
    refine ⟨?_, rfl, iff_of_true rfl (fun h => hext ⟨h.1, h.2.1⟩)⟩
    show BitVec.ofNat w (Nat.ofDigits 128 cs) = v
    rw [← BitVec.ofInt_natCast, hdigits]
    by_cases hneg : v.toInt < 0
    · rw [ofInt_emod _ (by omega), BitVec.ofInt_toInt]
    · rw [Int.emod_eq_of_lt (by omega) (by omega), BitVec.ofInt_toInt]

/-! ### Which values make the round trip -/

/-- The bounds of a signed word. -/
theorem fits_toInt (ty : IntType) (v : BitVec ty.bits) : Fits (ty.bits / 7) v.toInt := by
  have hroom : (2 : Int) ^ (ty.bits - 1) ≤ 64 * 128 ^ (ty.bits / 7) := by
    rcases ty.bits_eq with hbits | hbits <;> rw [hbits] <;> decide
  have hlow := BitVec.le_toInt v
  have hhigh := BitVec.toInt_lt (x := v)
  exact ⟨by omega, by omega⟩

theorem roundTrips_unsigned {ty : IntType} (hty : ty.signed = false) (v : BitVec ty.bits) :
    RoundTrips ty v := by
  have hfits : v.toNat < 128 ^ (ty.bits / 7 + 1) := by
    refine v.isLt.trans_le ?_
    rcases ty.bits_eq with hbits | hbits <;> rw [hbits] <;> decide
  obtain ⟨cs, hne, hlt, hdigits, hlen, hsave⟩ := saveUnsignedLoop_eq hfits
  refine ⟨continued cs, by simp [save, hty, hsave], ?_⟩
  intro rest byte fuel hfuel
  rw [continued_length] at hfuel
  refine ⟨_, load_continued ty hne hlt hlen rest byte hfuel, ?_⟩
  simp [hty, hdigits]

theorem roundTrips_signed {ty : IntType} (hty : ty.signed = true) (v : BitVec ty.bits) :
    RoundTrips ty v ↔ (ty.bits = 64 → -2 ^ 27 ≤ v.toInt ∨ v.toInt < -2 ^ 62) := by
  have hbits := ty.bits_eq
  have hfits := fits_toInt ty v
  obtain ⟨cs, hcs, hsave⟩ := saveSignedLoop_eq (by omega) hfits
  have hlen : cs.length ≤ ty.bits / 7 + 1 := (hcs.length _).mpr hfits
  have hcond : ¬ (v.toInt < 0 ∧ 7 * cs.length < ty.bits ∧ 32 ≤ 7 * cs.length) ↔
      (ty.bits = 64 → -2 ^ 27 ≤ v.toInt ∨ v.toInt < -2 ^ 62) := by
    have hfive := hcs.length 3
    have hnine := hcs.length 8
    simp only [Fits] at hfive hnine
    omega
  have hload := fun (rest : Stream) (byte : UInt8) (fuel : Nat) (hfuel : cs.length ≤ fuel) =>
    load_continued ty hcs.ne_nil hcs.lt hlen rest byte hfuel
  simp only [hty, if_true] at hload
  have hsaved : save ty v = .ok (continued cs) := by simp [save, hty, hsave]
  constructor
  · rintro ⟨bytes, hbytes, htrip⟩
    cases hsaved.symm.trans hbytes
    obtain ⟨s, hs, -, -, hdefined⟩ := htrip [] 0 cs.length (continued_length cs).le
    cases (hload [] 0 cs.length (Nat.le_refl _)).symm.trans hs
    exact hcond.mp ((signExtend_groups hcs []).2.2.mp hdefined)
  · intro h
    refine ⟨continued cs, hsaved, ?_⟩
    intro rest byte fuel hfuel
    rw [continued_length] at hfuel
    obtain ⟨ht, hstream, hdefined⟩ := signExtend_groups hcs rest
    exact ⟨_, hload rest byte fuel hfuel, ht, hstream, hdefined.mpr (hcond.mpr h)⟩

/-- **Which integers make the round trip**: all of the unsigned types and of `int`, and
those of a 64 bit signed type that are no negative numbers of five to nine bytes. -/
theorem roundTrips_iff (ty : IntType) (v : BitVec ty.bits) :
    RoundTrips ty v ↔
      (ty.signed = true → ty.bits = 64 → -2 ^ 27 ≤ v.toInt ∨ v.toInt < -2 ^ 62) := by
  cases hty : ty.signed with
  | false => exact iff_of_true (roundTrips_unsigned hty v) (fun h => by cases h)
  | true => rw [roundTrips_signed hty v]; simp

/-- A `long long` just below the values the tests archive: five bytes, and a shift of an
`int` by 35. -/
theorem not_roundTrips_longLong :
    ¬ ∀ (ty : IntType) (v : BitVec ty.bits), RoundTrips ty v := by
  intro h
  obtain ⟨bytes, hsave, hload⟩ := h .longLong (BitVec.ofInt 64 (-134217729))
  have hbytes : save .longLong (BitVec.ofInt 64 (-134217729)) =
      .ok [0xff, 0xff, 0xff, 0xbf, 0x7f] := by decide +kernel
  cases hbytes.symm.trans hsave
  obtain ⟨s, hs, -, -, hdefined⟩ := hload [] 0 5 (by decide)
  have hrun : (load .longLong 5 0 ([0xff, 0xff, 0xff, 0xbf, 0x7f] ++ [])).map Load.defined =
      .ok false := by decide +kernel
  rw [hs] at hrun
  cases hdefined.symm.trans (Except.ok.inj hrun)

end PothosCore.Archive

import PothosCore.Fault
import PothosCore.Lib.RoundToEven

/-!
# PothosCore.Object.NumberConvert

The conversions between the integer types: `convertNum` of a number and `convertVec` of a
vector.

`convertNumCheck` compares a number and the limits of the output type as `double`s, which
have 53 bits. A comparison with a limit of up to 32 bits is exact. The limit of an
unsigned 64-bit type becomes `2 ^ 64`, which no number exceeds or has to; the limit of a
signed one becomes `2 ^ 63`, and so do the 1025 numbers above it (`rounds_below_iff`), which
an unsigned 64-bit type has.
-/

namespace PothosCore.Numbers

open Lib.RoundToEven

/-- The integer types that conversions are registered for. -/
inductive IntType
  | char | uchar | schar | ushort | sshort | uint | sint | ulong | slong | ullong | sllong
  deriving Repr, DecidableEq

/-- What the platform decides: the size of `long`, and whether `char` is signed. -/
structure Platform where
  longIs64 : Bool
  charIsSigned : Bool
  deriving Repr, DecidableEq

namespace IntType

variable (P : Platform)

/-- `sizeof` -/
def sizeof : IntType → Nat
  | .char | .uchar | .schar => 1
  | .ushort | .sshort => 2
  | .uint | .sint => 4
  | .ulong | .slong => if P.longIs64 then 8 else 4
  | .ullong | .sllong => 8

/-- `std::is_signed` -/
def isSigned : IntType → Bool
  | .char => P.charIsSigned
  | .schar | .sshort | .sint | .slong | .sllong => true
  | .uchar | .ushort | .uint | .ulong | .ullong => false

/-- `std::numeric_limits<T>::lowest()` -/
def lowest (t : IntType) : Int := if t.isSigned P then -2 ^ (8 * t.sizeof P - 1) else 0

/-- `std::numeric_limits<T>::max()` -/
def max (t : IntType) : Int := if t.isSigned P then 2 ^ (8 * t.sizeof P - 1) - 1 else 2 ^ (8 * t.sizeof P) - 1

/-- `typeInfoToString(typeid(T))` -/
def typeString : IntType → String
  | .char => "char"
  | .uchar => "unsigned char"
  | .schar => "signed char"
  | .ushort => "unsigned short"
  | .sshort => "short"
  | .uint => "unsigned int"
  | .sint => "int"
  | .ulong => "unsigned long"
  | .slong => "long"
  | .ullong => "unsigned long long"
  | .sllong => "long long"

/-- Is the integer a value of the type? -/
def Represents (t : IntType) (n : Int) : Prop := t.lowest P ≤ n ∧ n ≤ t.max P

instance (t : IntType) (n : Int) : Decidable (t.Represents P n) :=
  inferInstanceAs (Decidable (t.lowest P ≤ n ∧ n ≤ t.max P))

end IntType

/-- A value of an integer type. -/
structure Value (P : Platform) (t : IntType) where
  val : Int
  represents : t.Represents P val

/-- `double(n)`, for an integer of at most 64 bits. -/
def toDouble (n : Int) : Int := roundInt 53 n

variable {P : Platform}

theorem sizeof_cases (P : Platform) (t : IntType) :
    t.sizeof P = 1 ∨ t.sizeof P = 2 ∨ t.sizeof P = 4 ∨ t.sizeof P = 8 := by
  cases t with
  | ulong | slong =>
      unfold IntType.sizeof
      cases P.longIs64 <;> decide
  | _ => simp [IntType.sizeof]

theorem max_eq (P : Platform) (t : IntType) : t.max P = t.lowest P + 2 ^ (8 * t.sizeof P) - 1 := by
  unfold IntType.max IntType.lowest
  rcases sizeof_cases P t with h | h | h | h <;> rw [h] <;> cases t.isSigned P <;> decide

/-- `static_cast<OutType>(n)`: the value of the type that is the same modulo its range. -/
def staticCast (P : Platform) (outType : IntType) (n : Int) : Value P outType where
  val := outType.lowest P + (n - outType.lowest P) % 2 ^ (8 * outType.sizeof P)
  represents := by
    have hpos : (0 : Int) < 2 ^ (8 * outType.sizeof P) := Int.pow_pos (by decide)
    have hnonneg := Int.emod_nonneg (n - outType.lowest P) hpos.ne'
    have hlt := Int.emod_lt_of_pos (n - outType.lowest P) hpos
    constructor
    · omega
    · rw [max_eq]
      omega

/-- `Pothos::RangeException` of `convertNumCheck`. -/
def rangeException (outType : IntType) (n : Int) : Fault :=
  .thrown "RangeException" s!"value {n} out of range for output type {outType.typeString}" ""

/-- `convertNumCheck<OutType>(in)` -/
def convertNumCheck (P : Platform) (outType : IntType) (n : Int) : Except Fault Unit :=
  if toDouble n > toDouble (outType.max P) ∨ toDouble n < toDouble (outType.lowest P) then
    .error (rangeException outType n)
  else .ok ()

/-- `convertNum<InType, OutType>(in)` -/
def convertNum {inType : IntType} (outType : IntType) (x : Value P inType) : Except Fault (Value P outType) := do
  convertNumCheck P outType x.val
  .ok (staticCast P outType x.val)

/-- `CanConvertWithoutValidation<InType, OutType>` -/
def canConvertWithoutValidation (P : Platform) (inType outType : IntType) : Bool :=
  inType != outType && decide (inType.sizeof P < outType.sizeof P) &&
    (!inType.isSigned P && outType.isSigned P || inType.isSigned P == outType.isSigned P)

/-- `simdConvertVec`: a cast of each element. -/
def simdConvertVec {inType : IntType} (outType : IntType) (xs : List (Value P inType)) : List (Value P outType) :=
  xs.map fun x => staticCast P outType x.val

/-- `manualConvertVec` -/
def manualConvertVec {inType : IntType} (outType : IntType) (xs : List (Value P inType)) :
    Except Fault (List (Value P outType)) :=
  xs.mapM (convertNum outType)

/-- `convertVec<InType, OutType>(in)` -/
def convertVec {inType : IntType} (outType : IntType) (xs : List (Value P inType)) :
    Except Fault (List (Value P outType)) :=
  if h : inType = outType then .ok (h ▸ xs)
  else if canConvertWithoutValidation P inType outType then .ok (simdConvertVec outType xs)
  else manualConvertVec outType xs

/-! ### The comparison through `double` -/

theorem toDouble_eq {n : Int} (hlow : -2 ^ 53 < n) (hhigh : n < 2 ^ 53) : toDouble n = n :=
  roundInt_eq (by omega)

theorem toDouble_mono {n m : Int} (h : n ≤ m) : toDouble n ≤ toDouble m := roundInt_mono (by decide) h

/-- Above a bound of up to 53 bits the comparison is exact, -/
theorem toDouble_le_iff {b : Int} (hlow : -2 ^ 53 < b) (hhigh : b + 1 < 2 ^ 53) (n : Int) :
    toDouble n ≤ toDouble b ↔ n ≤ b := by
  constructor
  · intro h
    by_contra hlt
    have hnext := toDouble_mono (Int.add_one_le_of_lt (Int.not_le.mp hlt))
    rw [toDouble_eq hlow (by omega)] at h
    rw [toDouble_eq (by omega) hhigh] at hnext
    omega
  · exact toDouble_mono

/-- and below one. -/
theorem le_toDouble_iff {b : Int} (hlow : -2 ^ 53 < b - 1) (hhigh : b < 2 ^ 53) (n : Int) :
    toDouble b ≤ toDouble n ↔ b ≤ n := by
  constructor
  · intro h
    by_contra hlt
    have hnext : toDouble n ≤ toDouble (b - 1) := toDouble_mono (by omega)
    rw [toDouble_eq (by omega) hhigh] at h
    rw [toDouble_eq hlow (by omega)] at hnext
    omega
  · exact toDouble_mono

/-- The numbers that are not above the limit of a signed 64-bit type once they are rounded. -/
theorem rounds_below_iff (n : Int) : toDouble n ≤ toDouble (2 ^ 63 - 1) ↔ n ≤ 2 ^ 63 + 1024 := by
  constructor
  · intro h
    by_contra hlt
    have hnext : toDouble (2 ^ 63 + 1025) ≤ toDouble n := toDouble_mono (by omega)
    have hround : toDouble (2 ^ 63 - 1) < toDouble (2 ^ 63 + 1025) := by decide +kernel
    omega
  · intro h
    have hround : toDouble (2 ^ 63 + 1024) ≤ toDouble (2 ^ 63 - 1) := by decide +kernel
    exact Int.le_trans (toDouble_mono h) hround

/-- A number above the limit that is not refused: from an unsigned 64-bit type to a signed one. -/
def Slips (P : Platform) (inType outType : IntType) (n : Int) : Prop :=
  inType.sizeof P = 8 ∧ inType.isSigned P = false ∧ outType.sizeof P = 8 ∧ outType.isSigned P = true ∧
    2 ^ 63 ≤ n ∧ n ≤ 2 ^ 63 + 1024

theorem limits_signed {t : IntType} (h : t.isSigned P = true) :
    t.lowest P = -2 ^ (8 * t.sizeof P - 1) ∧ t.max P = 2 ^ (8 * t.sizeof P - 1) - 1 := by
  unfold IntType.lowest IntType.max
  rw [if_pos h, if_pos h]
  exact ⟨rfl, rfl⟩

theorem limits_unsigned {t : IntType} (h : t.isSigned P = false) :
    t.lowest P = 0 ∧ t.max P = 2 ^ (8 * t.sizeof P) - 1 := by
  unfold IntType.lowest IntType.max
  rw [h, if_neg Bool.false_ne_true, if_neg Bool.false_ne_true]
  exact ⟨rfl, rfl⟩

/-- The limits of a type of up to four bytes. -/
theorem limits_small {t : IntType} (h : t.sizeof P ≠ 8) :
    -2 ^ 31 ≤ t.lowest P ∧ t.lowest P ≤ 0 ∧ 0 ≤ t.max P ∧ t.max P < 2 ^ 32 := by
  cases hs : t.isSigned P with
  | false =>
      obtain ⟨hlow, hhigh⟩ := limits_unsigned hs
      rw [hlow, hhigh]
      rcases sizeof_cases P t with h' | h' | h' | h'
      all_goals first | exact absurd h' h | (rw [h']; decide)
  | true =>
      obtain ⟨hlow, hhigh⟩ := limits_signed hs
      rw [hlow, hhigh]
      rcases sizeof_cases P t with h' | h' | h' | h'
      all_goals first | exact absurd h' h | (rw [h']; decide)

/-- A value is one of 64 bits, and of an unsigned 64-bit type if it is `2 ^ 63` or more. -/
theorem Value.bounds {t : IntType} (x : Value P t) :
    -2 ^ 63 ≤ x.val ∧ x.val < 2 ^ 64 ∧ (2 ^ 63 ≤ x.val → t.sizeof P = 8 ∧ t.isSigned P = false) := by
  obtain ⟨hlow, hhigh⟩ := x.represents
  by_cases h8 : t.sizeof P = 8
  · cases hs : t.isSigned P with
    | false =>
        rw [(limits_unsigned hs).1] at hlow
        rw [(limits_unsigned hs).2, h8] at hhigh
        exact ⟨by omega, by omega, fun _ => ⟨h8, rfl⟩⟩
    | true =>
        rw [(limits_signed hs).1, h8] at hlow
        rw [(limits_signed hs).2, h8] at hhigh
        exact ⟨by omega, by omega, fun h => by omega⟩
  · have hsmall := limits_small h8
    exact ⟨by omega, by omega, fun h => by omega⟩

theorem convertNumCheck_ok_iff (outType : IntType) (n : Int) :
    convertNumCheck P outType n = .ok () ↔
      toDouble n ≤ toDouble (outType.max P) ∧ toDouble (outType.lowest P) ≤ toDouble n := by
  rw [convertNumCheck]
  split
  · next h => exact iff_of_false (fun he => nomatch he) (by omega)
  · next h => exact iff_of_true rfl (by omega)

/-- **What the check lets pass**: what the output type represents, and what slips. -/
theorem convertNumCheck_iff {inType : IntType} (outType : IntType) (x : Value P inType) :
    convertNumCheck P outType x.val = .ok () ↔ outType.Represents P x.val ∨ Slips P inType outType x.val := by
  obtain ⟨hlow, hhigh, hbig⟩ := x.bounds
  rw [convertNumCheck_ok_iff]
  by_cases h8 : outType.sizeof P = 8
  · cases hs : outType.isSigned P with
    | false =>
        -- every value is below the limit
        obtain ⟨hlowest, hmax⟩ := limits_unsigned hs
        rw [h8] at hmax
        have hpass : toDouble x.val ≤ toDouble (outType.max P) := toDouble_mono (by omega)
        have hslip : ¬ Slips P inType outType x.val := fun h => by
          rw [h.2.2.2.1] at hs
          cases hs
        have hzero : toDouble 0 ≤ toDouble x.val ↔ 0 ≤ x.val := le_toDouble_iff (by decide) (by decide) x.val
        rw [or_iff_left hslip, IntType.Represents, hlowest, hzero]
        omega
    | true =>
        -- every value is above the lower limit
        obtain ⟨hlowest, hmax⟩ := limits_signed hs
        rw [h8] at hlowest hmax
        have hpass : toDouble (outType.lowest P) ≤ toDouble x.val := toDouble_mono (by omega)
        have hmax : outType.max P = 2 ^ 63 - 1 := hmax
        rw [and_iff_left hpass, hmax, rounds_below_iff, IntType.Represents, hlowest, hmax]
        constructor
        · intro h
          by_cases hfits : x.val < 2 ^ 63
          · exact .inl ⟨by omega, by omega⟩
          · obtain ⟨hin8, hins⟩ := hbig (by omega)
            exact .inr ⟨hin8, hins, h8, hs, by omega, h⟩
        · intro h
          rcases h with ⟨_, h⟩ | h
          · omega
          · exact h.2.2.2.2.2
  · have hsmall := limits_small h8
    have hslip : ¬ Slips P inType outType x.val := fun h => h8 h.2.2.1
    rw [or_iff_left hslip, IntType.Represents, toDouble_le_iff (by omega) (by omega),
      le_toDouble_iff (by omega) (by omega)]
    omega

/-! ### One number -/

theorem staticCast_val {outType : IntType} {n : Int} (h : outType.Represents P n) :
    (staticCast P outType n).val = n := by
  obtain ⟨hlow, hhigh⟩ := h
  rw [max_eq] at hhigh
  show outType.lowest P + (n - outType.lowest P) % 2 ^ (8 * outType.sizeof P) = n
  rw [Int.emod_eq_of_lt (by omega) (by omega)]
  omega

theorem staticCast_val_iff {outType : IntType} {n : Int} :
    (staticCast P outType n).val = n ↔ outType.Represents P n := by
  constructor
  · intro h
    have hvalue := (staticCast P outType n).represents
    rwa [h] at hvalue
  · exact staticCast_val

/-- What slips is not represented, -/
theorem Slips.not_represents {inType outType : IntType} {n : Int} (h : Slips P inType outType n) :
    ¬ outType.Represents P n := by
  intro hrep
  have hmax := hrep.2
  rw [(limits_signed h.2.2.2.1).2, h.2.2.1] at hmax
  have hlow := h.2.2.2.2.1
  omega

/-- and from types with a value that slips, what is not above the slipping ones passes. -/
theorem Slips.passes_iff {inType outType : IntType} {n : Int} (h : Slips P inType outType n) (x : Value P inType) :
    outType.Represents P x.val ∨ Slips P inType outType x.val ↔ x.val ≤ 2 ^ 63 + 1024 := by
  obtain ⟨hin8, hins, h8, hs, _⟩ := h
  have hlow := x.represents.1
  rw [(limits_unsigned hins).1] at hlow
  rw [IntType.Represents, (limits_signed hs).1, (limits_signed hs).2, h8]
  constructor
  · intro hpass
    rcases hpass with hpass | hslip
    · omega
    · exact hslip.2.2.2.2.2
  · intro hle
    by_cases hfits : x.val < 2 ^ 63
    · exact .inl ⟨by omega, by omega⟩
    · exact .inr ⟨hin8, hins, h8, hs, by omega, hle⟩

/-- What `convertNum` returns. -/
theorem convertNum_ok {inType outType : IntType} {x : Value P inType}
    (h : outType.Represents P x.val ∨ Slips P inType outType x.val) :
    convertNum outType x = .ok (staticCast P outType x.val) := by
  rw [convertNum, (convertNumCheck_iff outType x).mpr h]
  rfl

theorem convertNum_error {inType outType : IntType} {x : Value P inType}
    (h : ¬ (outType.Represents P x.val ∨ Slips P inType outType x.val)) :
    convertNum outType x = .error (rangeException outType x.val) := by
  rw [← convertNumCheck_iff outType x] at h
  rw [convertNum, convertNumCheck]
  split
  · rfl
  · next hin => exact absurd (if_neg hin) h

/-- The conversion keeps the integer, or throws because the type does not represent it. -/
def ConvertsExactly {inType : IntType} (outType : IntType) (x : Value P inType) : Prop :=
  if outType.Represents P x.val then ∃ y, convertNum outType x = .ok y ∧ y.val = x.val
  else convertNum outType x = .error (rangeException outType x.val)

/-- **A number is converted exactly** unless it slips. -/
theorem convertsExactly_iff {inType : IntType} (outType : IntType) (x : Value P inType) :
    ConvertsExactly outType x ↔ ¬ Slips P inType outType x.val := by
  rw [ConvertsExactly]
  by_cases hrep : outType.Represents P x.val
  · rw [if_pos hrep]
    exact iff_of_true ⟨_, convertNum_ok (.inl hrep), staticCast_val hrep⟩ fun hslip => hslip.not_represents hrep
  · rw [if_neg hrep]
    constructor
    · intro h hslip
      rw [convertNum_ok (.inr hslip)] at h
      cases h
    · intro hslip
      apply convertNum_error
      rw [not_or]
      exact ⟨hrep, hslip⟩

/-! ### Vectors -/

theorem canConvertWithoutValidation_iff (inType outType : IntType) :
    canConvertWithoutValidation P inType outType = true ↔
      inType ≠ outType ∧ inType.sizeof P < outType.sizeof P ∧
        (inType.isSigned P = false ∧ outType.isSigned P = true ∨ inType.isSigned P = outType.isSigned P) := by
  simp [canConvertWithoutValidation, and_assoc]

/-- **The fast path** is taken where no element can be out of range. -/
theorem represents_of_canConvertWithoutValidation {inType outType : IntType}
    (h : canConvertWithoutValidation P inType outType = true) (x : Value P inType) :
    outType.Represents P x.val := by
  obtain ⟨_, hsize, hsign⟩ := (canConvertWithoutValidation_iff inType outType).mp h
  obtain ⟨hlow, hhigh⟩ := x.represents
  have hpow {a b : Nat} (hab : a ≤ b) : (2 : Int) ^ a ≤ 2 ^ b := by
    exact_mod_cast Nat.pow_le_pow_right Nat.two_pos hab
  cases hin : inType.isSigned P with
  | false =>
      rw [(limits_unsigned hin).1] at hlow
      rw [(limits_unsigned hin).2] at hhigh
      cases hout : outType.isSigned P with
      | false =>
          have hwide := hpow (by omega : 8 * inType.sizeof P ≤ 8 * outType.sizeof P)
          rw [IntType.Represents, (limits_unsigned hout).1, (limits_unsigned hout).2]
          omega
      | true =>
          have hwide := hpow (by omega : 8 * inType.sizeof P ≤ 8 * outType.sizeof P - 1)
          rw [IntType.Represents, (limits_signed hout).1, (limits_signed hout).2]
          omega
  | true =>
      have hout : outType.isSigned P = true := by
        rcases hsign with hsign | hsign
        · exact hsign.2
        · rw [← hsign, hin]
      have hwide := hpow (by omega : 8 * inType.sizeof P - 1 ≤ 8 * outType.sizeof P - 1)
      rw [(limits_signed hin).1] at hlow
      rw [(limits_signed hin).2] at hhigh
      rw [IntType.Represents, (limits_signed hout).1, (limits_signed hout).2]
      omega

/-- Where no element is refused, each is cast. -/
theorem mapM_convertNum_ok {inType outType : IntType} {xs : List (Value P inType)}
    (h : ∀ x ∈ xs, outType.Represents P x.val ∨ Slips P inType outType x.val) :
    xs.mapM (convertNum outType) = .ok (xs.map fun x => staticCast P outType x.val) :=
  mapM_ok_map_iff.mpr fun x hx => convertNum_ok (h x hx)

/-- **A vector is converted element by element**, on each of its paths. -/
theorem convertVec_eq {inType : IntType} (outType : IntType) (xs : List (Value P inType)) :
    convertVec outType xs = xs.mapM (convertNum outType) := by
  rw [convertVec]
  split
  · next hsame =>
      subst hsame
      rw [mapM_convertNum_ok fun x _ => .inl x.represents]
      have hcast (x : Value P inType) : staticCast P inType x.val = x := by
        have hval := staticCast_val x.represents
        cases h : staticCast P inType x.val with
        | mk val represents =>
            cases x with
            | mk val' represents' =>
                rw [h] at hval
                cases hval
                rfl
      rw [List.map_congr_left (g := id) fun x _ => hcast x, List.map_id]
  · split
    · next hfast =>
        rw [mapM_convertNum_ok fun x _ => .inl (represents_of_canConvertWithoutValidation hfast x)]
        rfl
    · rfl

/-- The vector is refused exactly when an element is, and its integers are kept otherwise. -/
def ConvertsVecExactly {inType : IntType} (outType : IntType) (xs : List (Value P inType)) : Prop :=
  ((∃ fault, convertVec outType xs = .error fault) ↔ ∃ x ∈ xs, ∃ fault, convertNum outType x = .error fault) ∧
    ∀ ys, convertVec outType xs = .ok ys → ys.map (·.val) = xs.map (·.val)

/-- **A vector is converted exactly** unless an element slips and none is refused. -/
theorem convertsVecExactly_iff {inType : IntType} (outType : IntType) (xs : List (Value P inType)) :
    ConvertsVecExactly outType xs ↔
      ¬ ((∃ x ∈ xs, Slips P inType outType x.val) ∧ ∀ x ∈ xs, x.val ≤ 2 ^ 63 + 1024) := by
  rw [ConvertsVecExactly, convertVec_eq, mapM_error_iff, and_iff_right Iff.rfl]
  by_cases hpass : ∀ x ∈ xs, outType.Represents P x.val ∨ Slips P inType outType x.val
  · have hkept : (∀ ys, xs.mapM (convertNum outType) = .ok ys → ys.map (·.val) = xs.map (·.val)) ↔
        ∀ x ∈ xs, outType.Represents P x.val := by
      rw [mapM_convertNum_ok hpass]
      simp [staticCast_val_iff]
    rw [hkept]
    constructor
    · intro h hslip
      obtain ⟨⟨x, hx, hslip⟩, _⟩ := hslip
      exact hslip.not_represents (h x hx)
    · intro h x hx
      by_contra hrep
      have hslip := (hpass x hx).resolve_left hrep
      exact h ⟨⟨x, hx, hslip⟩, fun y hy => (hslip.passes_iff y).mp (hpass y hy)⟩
  · obtain ⟨x, hx⟩ := not_forall.mp hpass
    obtain ⟨hx, hrefused⟩ := Classical.not_imp.mp hx
    refine iff_of_true ?_ ?_
    · intro ys hys
      obtain ⟨fault, hfault⟩ := mapM_error_iff.mpr ⟨x, hx, _, convertNum_error hrefused⟩
      rw [hfault] at hys
      cases hys
    · intro hslip
      obtain ⟨⟨y, _, hslip⟩, hle⟩ := hslip
      exact hrefused ((hslip.passes_iff x).mpr (hle x hx))

/-- **When integers are converted without a change**: unless a number of an unsigned 64-bit
type that the comparison rounds onto the limit goes to a signed one. The fast path is taken
only where no element can be out of range. -/
theorem conversion_exact_iff (P : Platform) (inType outType : IntType) (x : Value P inType)
    (xs : List (Value P inType)) :
    (ConvertsExactly outType x ↔ ¬ Slips P inType outType x.val) ∧
      (ConvertsVecExactly outType xs ↔
        ¬ ((∃ y ∈ xs, Slips P inType outType y.val) ∧ ∀ y ∈ xs, y.val ≤ 2 ^ 63 + 1024)) ∧
      (canConvertWithoutValidation P inType outType = true → outType.Represents P x.val) :=
  ⟨convertsExactly_iff outType x, convertsVecExactly_iff outType xs,
    fun hfast => represents_of_canConvertWithoutValidation hfast x⟩

/-- Integers to bytes, alone and in a vector that is refused, and bytes on the fast path. -/
theorem conversion_exact_bytes :
    ConvertsExactly .uchar (⟨200, by decide⟩ : Value ⟨true, true⟩ .sint) ∧
      ConvertsVecExactly .uchar [(⟨200, by decide⟩ : Value ⟨true, true⟩ .sint), ⟨300, by decide⟩] ∧
      canConvertWithoutValidation ⟨true, true⟩ .uchar .sshort = true ∧
      IntType.sshort.Represents ⟨true, true⟩ 255 := by
  have hkept : ∀ n, ¬ Slips ⟨true, true⟩ .sint .uchar n := fun n h => absurd h.1 (by decide)
  have hconvert := conversion_exact_iff ⟨true, true⟩ .sint .uchar ⟨200, by decide⟩
    [⟨200, by decide⟩, ⟨300, by decide⟩]
  refine ⟨hconvert.1.mpr (hkept 200), hconvert.2.1.mpr ?_, by decide, ?_⟩
  · rintro ⟨⟨y, -, hslip⟩, -⟩
    exact hkept y.val hslip
  · exact (conversion_exact_iff ⟨true, true⟩ .uchar .sshort ⟨255, by decide⟩ []).2.2 (by decide)

/-- The first number above the limit becomes the lowest one. -/
theorem not_conversion_exact :
    (convertNum .sllong (⟨2 ^ 63, by decide⟩ : Value ⟨true, true⟩ .ullong)).map (·.val) = .ok (-2 ^ 63) ∧
      ¬ ConvertsExactly .sllong (⟨2 ^ 63, by decide⟩ : Value ⟨true, true⟩ .ullong) ∧
      ¬ ConvertsVecExactly .sllong [(⟨2 ^ 63, by decide⟩ : Value ⟨true, true⟩ .ullong)] := by
  have hslip : Slips ⟨true, true⟩ .ullong .sllong (2 ^ 63) := ⟨rfl, rfl, rfl, rfl, by decide, by decide⟩
  refine ⟨by decide +kernel, ?_, ?_⟩
  · rw [convertsExactly_iff]
    exact not_not_intro hslip
  · rw [convertsVecExactly_iff]
    refine not_not_intro ⟨⟨_, List.mem_singleton_self _, hslip⟩, ?_⟩
    intro y hy
    rw [List.mem_singleton.mp hy]
    decide

end PothosCore.Numbers

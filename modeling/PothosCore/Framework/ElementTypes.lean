import PothosCore.Framework.BufferConvert
import PothosCore.Util.ExprSplit

/-!
# PothosCore.Framework.ElementTypes

`ElementTypeSuperMap`: the element types of a `DType`, and the table of their aliases as
the constructor fills it, on a platform where `long` has 64 bits and type names are
mangled as Itanium does.

An alias is looked up in lower case. It is found if it is in the table in some case
(`lookupAlias_ok`), except for the mangled names of the complex types, which are in the
table with capital letters.
-/

namespace PothosCore.Framework

open Lib Util

/-- `ElementTypes` -/
inductive ElementType
  | empty
  | custom
  | scalar (s : Scalar)
  deriving Repr, DecidableEq

namespace ElementType

/-- The enumerator. -/
def elemType : ElementType → Nat
  | empty => 0
  | custom => 1
  | scalar s => s.elemType

def elemSize : ElementType → Nat
  | empty => 1
  | custom => 1
  | scalar s => s.elemSize

/-- All enumerators. -/
def all : List ElementType :=
  [empty, custom] ++ Primitive.all.map (fun p => scalar ⟨p, false⟩) ++ Primitive.all.map fun p => scalar ⟨p, true⟩

theorem mem_all (t : ElementType) : t ∈ all := by
  rcases t with _ | _ | ⟨p, c⟩
  · decide
  · decide
  · cases c <;> cases p <;> decide

theorem elemSize_pos (t : ElementType) : 0 < t.elemSize := by
  cases t with
  | empty => decide
  | custom => decide
  | scalar s => exact s.elemSize_pos

theorem elemSize_le (t : ElementType) : t.elemSize ≤ 16 := by
  rcases t with _ | _ | ⟨p, c⟩
  · decide
  · decide
  · cases c <;> cases p <;> decide

end ElementType

/-- The type with `dimension` elements of the element type. -/
def DType.ofElementType (type : ElementType) (dimension : Nat) : DType := ⟨type.elemType, type.elemSize, dimension⟩

/-! ### The table -/

namespace ElementTypeSuperMap

/-- `loadType`: the type under its name, under `typeid(Type).name()` and under the type's text. -/
def loadType (type : ElementType) (name mangled text : Text) : List (Text × ElementType) :=
  [(name, type), (mangled, type), (text, type)]

/-- `loadNumericType`: the type and the complex type over it. -/
def loadNumericType (text mangled : Text) (code : Primitive) (name : Text) : List (Text × ElementType) :=
  loadType (.scalar ⟨code, false⟩) name mangled text ++
    loadType (.scalar ⟨code, true⟩) ("complex_".toList ++ name) ("St7complexI".toList ++ mangled ++ "E".toList)
      ("std::complex<".toList ++ text ++ ">".toList)

/-- `loadIntegerType`, with text and mangled name of the signed and of the unsigned type. -/
def loadIntegerType (signed unsigned : Text × Text) (code ucode : Primitive) (name : Text) :
    List (Text × ElementType) :=
  loadNumericType signed.1 signed.2 code ('s' :: name) ++ loadNumericType signed.1 signed.2 code name ++
    loadNumericType unsigned.1 unsigned.2 ucode ('u' :: name)

def declareNativeAlias (code ucode : Primitive) (name : Text) : List (Text × ElementType) :=
  [(name, .scalar ⟨code, false⟩), ('s' :: name, .scalar ⟨code, false⟩), ('u' :: name, .scalar ⟨ucode, false⟩)]

/-- The special cases that are not generated. -/
def specialCases : List (Text × ElementType) :=
  [("".toList, .empty), ("unspecified".toList, .empty), ("custom".toList, .custom),
    ("byte".toList, .scalar ⟨.int8, false⟩), ("octet".toList, .scalar ⟨.int8, false⟩),
    ("float".toList, .scalar ⟨.float32, false⟩), ("double".toList, .scalar ⟨.float64, false⟩),
    ("complex64".toList, .scalar ⟨.float32, true⟩), ("complex128".toList, .scalar ⟨.float64, true⟩)]

/-- What the constructor assigns to `_aliasToElementType`, in its order. -/
def aliases : List (Text × ElementType) :=
  loadNumericType "char".toList "c".toList .int8 "int8".toList ++
  loadIntegerType ("signed char".toList, "a".toList) ("unsigned char".toList, "h".toList) .int8 .uint8 "int8".toList ++
  loadIntegerType ("short".toList, "s".toList) ("unsigned short".toList, "t".toList) .int16 .uint16 "int16".toList ++
  loadIntegerType ("int".toList, "i".toList) ("unsigned int".toList, "j".toList) .int32 .uint32 "int32".toList ++
  loadIntegerType ("long".toList, "l".toList) ("unsigned long".toList, "m".toList) .int64 .uint64 "int64".toList ++
  loadIntegerType ("long long".toList, "x".toList) ("unsigned long long".toList, "y".toList) .int64 .uint64
    "int64".toList ++
  loadNumericType "float".toList "f".toList .float32 "float32".toList ++
  loadNumericType "double".toList "d".toList .float64 "float64".toList ++
  specialCases ++
  declareNativeAlias .int8 .uint8 "char".toList ++ declareNativeAlias .int16 .uint16 "short".toList ++
  declareNativeAlias .int32 .uint32 "int".toList ++ declareNativeAlias .int64 .uint64 "long".toList ++
  declareNativeAlias .int64 .uint64 "long long".toList ++ declareNativeAlias .int64 .uint64 "longlong".toList ++
  declareNativeAlias .int64 .uint64 "llong".toList

/-- `_aliasToElementType.find(key)`: what was assigned last. -/
def find (key : Text) : Option ElementType := (aliases.reverse.find? (·.1 == key)).map Prod.snd

/-- A text in lower case. -/
def toLower (text : Text) : Text := text.map Char.toLower

/-- `"Pothos::DType(" + text + ")"` -/
def unknownError (text : Text) (message : String) : Fault :=
  .thrown "DTypeUnknownError" ("Pothos::DType(" ++ String.ofList text ++ ")") message

def lookupAlias [PocoString] (name : Text) : Except Fault ElementType :=
  match find (PocoString.toLower name) with
  | none => .error (unknownError name "unknown type alias")
  | some type => .ok type

/-! ### What is found -/

/-- The table has the name in some case. -/
def KnownAs (name : Text) (type : ElementType) : Prop := ∃ key, (key, type) ∈ aliases ∧ toLower key = toLower name

/-- The table has the name in some case, with a capital letter. -/
def Capital (name : Text) : Prop := ∃ entry ∈ aliases, toLower entry.1 ≠ entry.1 ∧ toLower entry.1 = toLower name

theorem toNat_toLower (ch : Char) :
    ch.toLower.toNat = if 65 ≤ ch.toNat ∧ ch.toNat ≤ 90 then ch.toNat + 32 else ch.toNat := by
  by_cases h : ch.val ≥ 'A'.val ∧ ch.val ≤ 'Z'.val
  · have hlo : 65 ≤ ch.toNat := UInt32.le_iff_toNat_le.mp h.1
    have hhi : ch.toNat ≤ 90 := UInt32.le_iff_toNat_le.mp h.2
    have hlower : ch.toLower.val = ch.val + 32 := congrArg Char.val (dif_pos h)
    have hadd : (ch.val + 32).toNat = (ch.toNat + 32) % 2 ^ 32 := UInt32.toNat_add _ _
    rw [if_pos ⟨hlo, hhi⟩, Char.toNat, hlower, hadd]
    exact Nat.mod_eq_of_lt (by omega)
  · have hno : ¬(65 ≤ ch.toNat ∧ ch.toNat ≤ 90) := fun ⟨hlo, hhi⟩ =>
      h ⟨UInt32.le_iff_toNat_le.mpr hlo, UInt32.le_iff_toNat_le.mpr hhi⟩
    have hlower : ch.toLower = ch := dif_neg h
    rw [if_neg hno, hlower]

theorem toLower_toLower (text : Text) : toLower (toLower text) = toLower text := by
  have hch : ∀ ch : Char, ch.toLower.toLower = ch.toLower := by
    intro ch
    rw [← Char.toNat_inj, toNat_toLower, toNat_toLower]
    grind
  rw [toLower, toLower, List.map_map]
  exact List.map_congr_left fun ch _ => hch ch

set_option maxRecDepth 10000 in
/-- The table, entry by entry. -/
theorem aliases_checked : ∀ entry ∈ aliases,
    (toLower entry.1 = entry.1 → find entry.1 = some entry.2) ∧
      (toLower entry.1 ≠ entry.1 → find (toLower entry.1) = none) ∧
      ',' ∉ entry.1 ∧ Trimmed isspace entry.1 := by
  decide +kernel

/-- Names in lower case are each assigned one type. -/
theorem find_of_lower (entry : Text × ElementType) (h : entry ∈ aliases) :
    toLower entry.1 = entry.1 → find entry.1 = some entry.2 :=
  (aliases_checked entry h).1

/-- A name with a capital letter is not in the table in lower case. -/
theorem find_of_capital (entry : Text × ElementType) (h : entry ∈ aliases) :
    toLower entry.1 ≠ entry.1 → find (toLower entry.1) = none :=
  (aliases_checked entry h).2.1

theorem mem_of_find {key : Text} {type : ElementType} (h : find key = some type) : (key, type) ∈ aliases := by
  obtain ⟨entry, hentry, rfl⟩ := Option.map_eq_some_iff.mp h
  have hmem : entry ∈ aliases := List.mem_reverse.mp (List.mem_of_find?_eq_some hentry)
  have hkey : (entry.1 == key) = true := (List.find?_eq_some_iff_append.mp hentry).1
  rwa [← eq_of_beq hkey]

/-- **What is found**: the names of the table in any case, but for those with a capital letter. -/
theorem find_toLower_iff {name : Text} {type : ElementType} :
    find (toLower name) = some type ↔ KnownAs name type ∧ ¬Capital name := by
  constructor
  · intro h
    refine ⟨⟨toLower name, mem_of_find h, toLower_toLower name⟩, ?_⟩
    rintro ⟨entry, hentry, hcapital, hlower⟩
    have hnone := find_of_capital entry hentry hcapital
    rw [hlower, h] at hnone
    cases hnone
  · rintro ⟨⟨key, hkey, hlower⟩, hcapital⟩
    have hkeyLower : toLower key = key := by
      by_contra hne
      exact hcapital ⟨(key, type), hkey, hne, hlower⟩
    rw [← hlower, hkeyLower]
    exact find_of_lower (key, type) hkey hkeyLower

theorem poco_toLower [PocoString] (text : Text) : PocoString.toLower text = toLower text := PocoString.toLower_eq text

theorem lookupAlias_ok [PocoString] {name : Text} {type : ElementType} :
    lookupAlias name = .ok type ↔ KnownAs name type ∧ ¬Capital name := by
  rw [← find_toLower_iff, lookupAlias, poco_toLower]
  cases find (toLower name) with
  | none => exact iff_of_false (fun h => nomatch h) (fun h => nomatch h)
  | some found => rw [Except.ok.injEq, Option.some.injEq]

/-- The names of the types are among the aliases. -/
theorem lookupAlias_name [PocoString] (t : ElementType) (dimension : Nat) :
    lookupAlias (DType.ofElementType t dimension).name.toList = .ok t := by
  have hall : ∀ t ∈ ElementType.all, find (toLower (DType.ofElementType t 1).name.toList) = some t := by
    decide +kernel
  have hfound : find (toLower (DType.ofElementType t dimension).name.toList) = some t := hall t t.mem_all
  rw [lookupAlias, poco_toLower, hfound]

theorem Capital.known {name : Text} (h : Capital name) : ∃ type, KnownAs name type := by
  obtain ⟨entry, hentry, -, hlower⟩ := h
  exact ⟨entry.2, entry.1, hentry, hlower⟩

theorem KnownAs.unique {name : Text} {type type' : ElementType} (h : KnownAs name type) (h' : KnownAs name type')
    (hcapital : ¬Capital name) : type = type' := by
  have hfound := find_toLower_iff.mpr ⟨h, hcapital⟩
  rw [find_toLower_iff.mpr ⟨h', hcapital⟩] at hfound
  exact (Option.some.inj hfound).symm

/-! ### The form of an alias -/

/-- No name of the table has a comma, or white space at its ends. -/
theorem aliases_plain (entry : Text × ElementType) (h : entry ∈ aliases) : ',' ∉ entry.1 ∧ Trimmed isspace entry.1 :=
  (aliases_checked entry h).2.2

theorem isspace_toLower (ch : Char) : isspace ch.toLower = isspace ch := by
  have hspace : ∀ c : Char, (c == ' ') = decide (c.toNat = 32) := by
    intro c
    rw [beq_eq_decide]
    exact decide_eq_decide.mpr Char.toNat_inj.symm
  rw [isspace, isspace, hspace, hspace, toNat_toLower]
  grind

theorem comma_toLower (ch : Char) : ch.toLower = ',' ↔ ch = ',' := by
  rw [← Char.toNat_inj, ← Char.toNat_inj, toNat_toLower]
  have hcomma : ','.toNat = 44 := rfl
  grind

/-- Neither has a name in another case. -/
theorem KnownAs.plain {name : Text} {type : ElementType} (h : KnownAs name type) :
    ',' ∉ name ∧ Trimmed isspace name := by
  obtain ⟨key, hkey, hlower⟩ := h
  obtain ⟨hcomma, htrimmed⟩ := aliases_plain (key, type) hkey
  constructor
  · intro hmem
    have hmem' : ',' ∈ toLower key := by
      rw [hlower]
      exact List.mem_map.mpr ⟨',', hmem, rfl⟩
    obtain ⟨ch, hch, heq⟩ := List.mem_map.mp hmem'
    rw [(comma_toLower ch).mp heq] at hch
    exact hcomma hch
  · rw [← trimmed_map isspace_toLower]
    change Trimmed isspace (toLower name)
    rw [← hlower]
    exact (trimmed_map isspace_toLower).mpr htrimmed

end ElementTypeSuperMap

end PothosCore.Framework

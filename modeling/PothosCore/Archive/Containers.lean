import PothosCore.Archive.StreamArchiver
import PothosCore.Lib.Reader
import Mathlib.Logic.Function.Basic

/-!
# PothosCore.Archive.Containers

Saving and loading of values with a type: numbers, strings, containers, and the classes
`DType`, `Label`, `BufferChunk` and `Object`. A container is its size, narrowed to
`unsigned`, and its elements; an `Object` that is not null is the hash of the archive entry
of the type it holds, and then what the entry saves.

The registry of archive entries is one map, with a type under the hash code of its type
info and under the hash of its id (`entries`).
-/

namespace PothosCore.Archive

open PothosCore.Lib

/-! ### Types and values -/

/-- The types of what is saved and loaded. -/
inductive DataType
  | bool
  | char
  | short
  | unsignedInt
  | unsignedLongLong
  | string
  /-- `std::vector<bool>` has a load and a save of its own. -/
  | boolVector
  | vector (elem : DataType)
  | map (key mapped : DataType)
  | set (elem : DataType)
  | pair (first second : DataType)
  | dtype
  | label
  | object
  | bufferChunk
  deriving DecidableEq

/-- The fields of a `DType`. -/
structure DType where
  elemType : UInt8
  elemSize : UInt8
  dimension : BitVec 64
  deriving DecidableEq, Repr

/-- `DType()` -/
def DType.default : DType := ⟨0, 1, 1⟩

/-- A value; an object holds a value of one of the types `τ`. The elements of a map or of
a set are in the order of the container. -/
inductive Data (τ : Type)
  | bool (t : Bool)
  | char (t : UInt8)
  | short (t : BitVec 16)
  | unsignedInt (t : BitVec 32)
  | unsignedLongLong (t : BitVec 64)
  | string (t : List UInt8)
  | boolVector (t : List Bool)
  | vector (t : List (Data τ))
  | map (t : List (Data τ))
  | set (t : List (Data τ))
  | pair (first second : Data τ)
  | dtype (t : DType)
  | label (id : List UInt8) (data : Data τ) (index width : BitVec 64)
  /-- A null `Object`. -/
  | null
  | object (type : τ) (value : Data τ)
  /-- A chunk without a buffer is null. -/
  | bufferChunk (buffer : Option (List UInt8)) (dtype : DType)

/-- `t.first` -/
def Data.first {τ : Type} : Data τ → Data τ
  | .pair first _ => first
  | t => t

/-! ### The registry -/

/-- `hashString64(str)` -/
def hashString64 (str : List UInt8) : BitVec 64 :=
  str.foldl (fun h ch => (h * 0xf4243) ^^^ BitVec.ofNat 64 ch.toNat) 0

/-- The types that an object can hold: what they are, the hash code and the name of their
type info, and the id of their archive entry. -/
structure ObjectTypes (τ : Type) where
  valueType : τ → DataType
  hashCode : τ → BitVec 64
  name : τ → String
  id : τ → List UInt8

namespace ObjectTypes

variable {τ : Type} (E : ObjectTypes τ)

/-- `getHash()` -/
def getHash (type : τ) : BitVec 64 := hashString64 (E.id type)

/-- `ArchiveEntry(type, id)` -/
def register (map : BitVec 64 → Option τ) (type : τ) : BitVec 64 → Option τ :=
  Function.update (Function.update map (E.hashCode type) (some type)) (E.getHash type) (some type)

/-- The map after all static initialisers. -/
def entries (types : List τ) : BitVec 64 → Option τ := types.foldl E.register fun _ => none

end ObjectTypes

/-! ### save -/

def saveBool (t : Bool) : List UInt8 := [if t then 1 else 0]

def saveShort (t : BitVec 16) : List UInt8 := [UInt8.ofNat (t.toNat % 256), UInt8.ofNat (t.toNat / 256)]

/-- `ar << unsigned(size)` -/
def saveSize (size : Nat) : Except Fault (List UInt8) := save .unsignedInt (BitVec.ofNat 32 size)

def saveString (t : List UInt8) : Except Fault (List UInt8) := do
  let size ← saveSize t.length
  .ok (size ++ t)

def saveDType (t : DType) : Except Fault (List UInt8) := do
  let dimension ← save .unsignedLongLong t.dimension
  .ok ([t.elemType] ++ ([t.elemSize] ++ dimension))

/-- `ArchiveEntry::find(type)` throws. -/
def noEntryForType (name : String) : Fault :=
  .thrown "ArchiveException" ("ArchiveEntry::find(" ++ name ++ ")") "no entry registered for type"

section

variable {τ : Type} [DecidableEq τ] (E : ObjectTypes τ) (find : BitVec 64 → Option τ)

mutual

/-- `ar << t` -/
def saveData : Data τ → Except Fault (List UInt8)
  | .bool t => .ok (saveBool t)
  | .char t => .ok [t]
  | .short t => .ok (saveShort t)
  | .unsignedInt t => save .unsignedInt t
  | .unsignedLongLong t => save .unsignedLongLong t
  | .string t => saveString t
  | .boolVector t => do
      let size ← saveSize t.length
      .ok (size ++ t.flatMap saveBool)
  | .vector t | .map t | .set t => do
      let size ← saveSize t.length
      let elems ← saveElements t
      .ok (size ++ elems)
  | .pair first second => do
      let first ← saveData first
      let second ← saveData second
      .ok (first ++ second)
  | .dtype t => saveDType t
  | .label id data index width => do
      let id ← saveString id
      let data ← saveData data
      let index ← save .unsignedLongLong index
      let width ← save .unsignedLongLong width
      .ok (id ++ (data ++ (index ++ width)))
  | .null => .ok (saveBool true)
  | .object type value =>
      match find (E.hashCode type) with
      | none => .error (noEntryForType (E.name type))
      | some entry =>
          -- the entry of another type, with the same hash code, casts the pointer to that type
          if entry = type then do
            let hash ← save .unsignedLongLong (E.getHash entry)
            let value ← saveData value
            .ok (saveBool false ++ (hash ++ value))
          else .error (.undefined "static_cast<const T *>(t)")
  | .bufferChunk none _ => .ok (saveBool true)
  | .bufferChunk (some buffer) dtype => do
      let length ← saveSize buffer.length
      let dtype ← saveDType dtype
      .ok (saveBool false ++ (length ++ (buffer ++ dtype)))

def saveElements : List (Data τ) → Except Fault (List UInt8)
  | [] => .ok []
  | elem :: t => do
      let elem ← saveData elem
      let t ← saveElements t
      .ok (elem ++ t)

end

-- the equations of these functions are made here, once for all that unfold them
attribute [local simp] saveData saveElements

end

/-! ### load -/

/-- `resize(size)` and `readBytes`. -/
def loadBytes (size : Nat) (s : IStream) : List UInt8 × IStream :=
  let (t, bytes) := readBytes (List.replicate size 0) s.bytes
  (t, { s with bytes := bytes })

def loadDType (fuel : Nat) (s : IStream) : Except Fault (DType × IStream) := do
  let (elemType, s) := loadChar s
  let (elemSize, s) := loadChar s
  let (dimension, s) ← loadInteger .unsignedLongLong fuel s
  .ok (⟨elemType, elemSize, dimension⟩, s)

section Hint

variable {α : Type} (less : α → α → Bool) (key : α → α)

/-- Insert before the first element that is not less, unless it is equivalent. -/
def insertUnique (x : α) : List α → List α
  | [] => [x]
  | y :: t =>
      if less (key y) (key x) then y :: insertUnique x t
      else if less (key x) (key y) then x :: y :: t
      else y :: t

/-- `t.emplace_hint(t.end(), x)` -/
def emplaceHint (t : List α) (x : α) : List α :=
  match t.getLast? with
  | none => [x]
  | some last => if less (key last) (key x) then t ++ [x] else insertUnique less key x t

end Hint

section

variable {τ : Type} (E : ObjectTypes τ) (find : BitVec 64 → Option τ) (less : Data τ → Data τ → Bool)

/-- `ar >> t` for a `t` of the type. -/
def loadData : Nat → DataType → IStream → Except Fault (Data τ × IStream)
  | 0, _, _ => .error .diverged
  | fuel + 1, type, s =>
      match type with
      | .bool => .ok (.bool (loadBool s).1, (loadBool s).2)
      | .char => .ok (.char (loadChar s).1, (loadChar s).2)
      | .short => .ok (.short (loadShort s).1, (loadShort s).2)
      | .unsignedInt => do
          let (t, s) ← loadInteger .unsignedInt fuel s
          .ok (.unsignedInt t, s)
      | .unsignedLongLong => do
          let (t, s) ← loadInteger .unsignedLongLong fuel s
          .ok (.unsignedLongLong t, s)
      | .string => do
          let (t, s) ← loadString fuel s
          .ok (.string t, s)
      | .boolVector => do
          let (size, s) ← loadInteger .unsignedInt fuel s
          let (t, s) ← readLoop (fun s => .ok (loadBool s)) (fun (i, t) elem => (i + 1, t.set i elem))
            size.toNat (0, List.replicate size.toNat false) s
          .ok (.boolVector t.2, s)
      | .vector elem => do
          let (size, s) ← loadInteger .unsignedInt fuel s
          let (t, s) ← readLoop (loadData fuel elem) (fun t elem => t ++ [elem]) size.toNat [] s
          .ok (.vector t, s)
      | .map key mapped => do
          let (size, s) ← loadInteger .unsignedInt fuel s
          let (t, s) ← readLoop (loadData fuel (.pair key mapped)) (emplaceHint less Data.first) size.toNat [] s
          .ok (.map t, s)
      | .set elem => do
          let (size, s) ← loadInteger .unsignedInt fuel s
          let (t, s) ← readLoop (loadData fuel elem) (emplaceHint less id) size.toNat [] s
          .ok (.set t, s)
      | .pair first second => do
          let (first, s) ← loadData fuel first s
          let (second, s) ← loadData fuel second s
          .ok (.pair first second, s)
      | .dtype => do
          let (t, s) ← loadDType fuel s
          .ok (.dtype t, s)
      | .label => do
          let (id, s) ← loadString fuel s
          let (data, s) ← loadData fuel .object s
          let (index, s) ← loadInteger .unsignedLongLong fuel s
          let (width, s) ← loadInteger .unsignedLongLong fuel s
          .ok (.label id data index width, s)
      | .object => do
          let (isNull, s) := loadBool s
          if isNull then .ok (.null, s)
          else
            let (idHash, s) ← loadInteger .unsignedLongLong fuel s
            match find idHash with
            | none => .error (noEntry idHash)
            | some entry => do
                let (value, s) ← loadData fuel (E.valueType entry) s
                .ok (.object entry value, s)
      | .bufferChunk => do
          let (isNull, s) := loadBool s
          if isNull then .ok (.bufferChunk none .default, s)
          else
            let (length, s) ← loadInteger .unsignedInt fuel s
            let (dtype, s') ← loadDType fuel (loadBytes length.toNat s).2
            .ok (.bufferChunk (some (loadBytes length.toNat s).1) dtype, s')

attribute [local simp] loadData

end

/-! ### Archives -/

/-- `POTHOS_ARCHIVE_VERSION` -/
def archiveVersion : BitVec 32 := 2

section

variable {τ : Type} [DecidableEq τ] (E : ObjectTypes τ) (find : BitVec 64 → Option τ)

/-- `OStreamArchiver ar(os); ar << t` -/
def encode (t : Data τ) : Except Fault (List UInt8) := do
  let ver ← save .unsignedInt archiveVersion
  let bytes ← saveData E find t
  .ok (ver ++ bytes)

omit [DecidableEq τ] in
/-- `IStreamArchiver ar(is); ar >> t`; no load here asks for the version. -/
def decode (less : Data τ → Data τ → Bool) (type : DataType) (fuel : Nat) (s : IStream) :
    Except Fault (Data τ × IStream) := do
  let (_, s) ← loadInteger .unsignedInt fuel s
  loadData E find less fuel type s

end

end PothosCore.Archive

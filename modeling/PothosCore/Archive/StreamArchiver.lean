import PothosCore.Archive.Numbers

/-!
# PothosCore.Archive.StreamArchiver

Loading through an `IStreamArchiver`: numbers, containers and objects.

What a type is loaded from is its format. A number is one value, a container is a size
and that many elements, an `Object` is a null flag, the hash of an archive entry and
then what the entry loads. The registry of entries is a parameter: it is filled by
static initialisers, with hashes of type names that depend on the compiler.

The locals that are loaded into and not initialised hold arbitrary bytes, which are
seen only when the stream has ended. There is memory for every size that is read.
-/

namespace PothosCore.Archive

/-- The formats of what can be loaded. A `float` and a `double` are loaded as the
unsigned integers of their size, a set like a vector, and a class with a `serialize` of
its own as its fields one after the other. -/
inductive Format
  | bool
  /-- One byte. -/
  | char
  | short
  | integer (ty : IntType)
  | string
  /-- The `count` elements that a container has still to load. -/
  | elements (count : Nat) (elem : Format)
  | vector (elem : Format)
  | pair (first second : Format)
  /-- A pointer to a polymorphic class: whatever its archive entry loads. -/
  | pointer
  | object
  | bufferChunk
  | pluginRegistryInfoDump
  deriving DecidableEq

namespace Format

/-- `std::map<K, T>`: read like a vector of its pairs. -/
def map (k t : Format) : Format := .vector (.pair k t)

/-- `DType`: element type, element size and dimension. -/
def dtype : Format := .pair .char (.pair .char (.integer .unsignedLongLong))

/-- The fields of a `PluginRegistryInfoDump`: the module version is there since version
two of the archive. -/
def pluginRegistryInfoDumpFields (ver : BitVec 32) : Format :=
  .pair .string (.pair .string (.pair .string
    (if 1 < ver.toNat then .pair .string (.vector .pluginRegistryInfoDump)
      else .vector .pluginRegistryInfoDump)))

end Format

/-- What is loaded. -/
inductive Value
  | bool (t : Bool)
  | char (t : UInt8)
  | short (t : BitVec 16)
  | integer (bits : Nat) (t : BitVec bits)
  | string (t : List UInt8)
  | nil
  | cons (head tail : Value)
  | null
  /-- An object of the type of the entry with this hash. -/
  | entry (hash : BitVec 64) (value : Value)

/-- The stream, and what the locals that are loaded into will happen to hold: those of
`load` for `bool`, and the others. -/
structure IStream where
  bytes : Stream
  flag : Nat → UInt8
  byte : Nat → UInt8

/-- The entries of the archive by their hash, each with the format it loads. -/
abbrev EntryMap := BitVec 64 → Option Format

/-- `ArchiveEntry::find(hash)` throws. -/
def noEntry (hash : BitVec 64) : Fault :=
  .thrown "ArchiveException" ("ArchiveEntry::find(" ++ toString hash.toNat ++ ")")
    "no entry registered for hash"

/-! ### Numbers and strings -/

/-- `readBytes(buff, len)`: as many bytes as there are. -/
def readBytes (buff : List UInt8) (bytes : Stream) : List UInt8 × Stream :=
  (bytes.take buff.length ++ buff.drop bytes.length, bytes.drop buff.length)

/-- `load` for `bool`. -/
def loadBool (s : IStream) : Bool × IStream :=
  let (value, bytes) := readByte (s.flag 0) s.bytes
  (value != 0, { s with bytes := bytes, flag := fun n => s.flag (n + 1) })

/-- `load` for the types of one byte. -/
def loadChar (s : IStream) : UInt8 × IStream :=
  let (t, bytes) := readByte (s.byte 0) s.bytes
  (t, { s with bytes := bytes, byte := fun n => s.byte (n + 1) })

/-- `load` for `short`. -/
def loadShort (s : IStream) : BitVec 16 × IStream :=
  let (buff, bytes) := readBytes [s.byte 0, s.byte 1] s.bytes
  (BitVec.ofNat 16 (buff.getD 0 0).toNat ||| BitVec.ofNat 16 (buff.getD 1 0).toNat <<< 8,
    { s with bytes := bytes, byte := fun n => s.byte (n + 2) })

/-- `load` for the variable-length integers. -/
def loadInteger (ty : IntType) (fuel : Nat) (s : IStream) :
    Except Fault (BitVec ty.bits × IStream) := do
  let r ← load ty fuel (s.byte 0) s.bytes
  .ok (r.t, { s with bytes := r.stream, byte := fun n => s.byte (n + 1) })

/-- `load` for strings: the size, and then the bytes as one block. -/
def loadString (fuel : Nat) (s : IStream) : Except Fault (List UInt8 × IStream) := do
  let (size, s) ← loadInteger .unsignedInt fuel s
  let (t, bytes) := readBytes (List.replicate size.toNat 0) s.bytes
  .ok (t, { s with bytes := bytes })

/-! ### Containers and objects -/

/-- `ar >> value` for a value of the format, in an archive of version `ver`. -/
def loadFormat (find : EntryMap) (ver : BitVec 32) :
    Nat → Format → IStream → Except Fault (Value × IStream)
  | 0, _, _ => .error .diverged
  | fuel + 1, format, s =>
      match format with
      | .bool => .ok (.bool (loadBool s).1, (loadBool s).2)
      | .char => .ok (.char (loadChar s).1, (loadChar s).2)
      | .short => .ok (.short (loadShort s).1, (loadShort s).2)
      | .integer ty => do
          let (t, s) ← loadInteger ty fuel s
          .ok (.integer ty.bits t, s)
      | .string => do
          let (t, s) ← loadString fuel s
          .ok (.string t, s)
      | .elements 0 _ => .ok (.nil, s)
      | .elements (count + 1) elem => do
          let (v, s) ← loadFormat find ver fuel elem s
          let (vs, s) ← loadFormat find ver fuel (.elements count elem) s
          .ok (.cons v vs, s)
      | .vector elem => do
          let (size, s) ← loadInteger .unsignedInt fuel s
          loadFormat find ver fuel (.elements size.toNat elem) s
      | .pair first second => do
          let (v, s) ← loadFormat find ver fuel first s
          let (vs, s) ← loadFormat find ver fuel second s
          .ok (.cons v vs, s)
      | .pointer => do
          let (hash, s) ← loadInteger .unsignedLongLong fuel s
          match find hash with
          | none => .error (noEntry hash)
          | some entry => do
              let (v, s) ← loadFormat find ver fuel entry s
              .ok (.entry hash v, s)
      | .object =>
          let (isNull, s) := loadBool s
          if isNull then .ok (.null, s) else loadFormat find ver fuel .pointer s
      | .bufferChunk =>
          let (isNull, s) := loadBool s
          if isNull then .ok (.null, s)
          else loadFormat find ver fuel (.pair .string .dtype) s -- length, bytes and dtype
      | .pluginRegistryInfoDump =>
          loadFormat find ver fuel (.pluginRegistryInfoDumpFields ver) s

/-- `IStreamArchiver ar(is); ar >> value`: the archive starts with its version. -/
def loadArchive (find : EntryMap) (fuel : Nat) (format : Format) (s : IStream) :
    Except Fault (Value × IStream) := do
  let (ver, s) ← loadInteger .unsignedInt fuel s
  loadFormat find ver fuel format s

/-- `Object::deserialize(is)`. -/
def deserialize (find : EntryMap) (fuel : Nat) (s : IStream) : Except Fault (Value × IStream) :=
  match loadArchive find fuel .object s with
  | .error (.thrown _ _ _) =>
      .error (.thrown "ObjectSerializeError" "Pothos::Object::deserialize()" "Archive Exception")
  | r => r

end PothosCore.Archive

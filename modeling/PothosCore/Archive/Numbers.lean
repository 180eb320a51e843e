import Mathlib.Data.BitVec
import PothosCore.Fault

/-!
# PothosCore.Archive.Numbers

The variable-length encoding of the 32 and 64 bit integers, and the stream they are
read from.

`readBytes` ignores whether the stream had a byte, so at its end a load works on with
the byte it read before; the first byte of a load is a local that was not
initialised, and its value is a parameter here. A shift by the width of its type or
more is undefined: a load records that it made one, and its value is then of no use.
-/

namespace PothosCore.Archive

/-- What is left of the stream. -/
abbrev Stream := List UInt8

/-- `readBytes(&byte, 1)`. -/
def readByte (byte : UInt8) : Stream → UInt8 × Stream
  | [] => (byte, [])
  | b :: rest => (b, rest)

/-- The integer types with a variable-length encoding. -/
structure IntType where
  signed : Bool
  bits : Nat
  bits_eq : bits = 32 ∨ bits = 64
  deriving DecidableEq

namespace IntType

/-- `int`. -/
def int : IntType := ⟨true, 32, .inl rfl⟩

/-- `unsigned int`. -/
def unsignedInt : IntType := ⟨false, 32, .inl rfl⟩

/-- `long long`. -/
def longLong : IntType := ⟨true, 64, .inr rfl⟩

/-- `unsigned long long`. -/
def unsignedLongLong : IntType := ⟨false, 64, .inr rfl⟩

end IntType

/-! ### save -/

/-- The continuation bit. -/
def more : UInt8 := 0x80

/-- The loop of `save` for the signed types. -/
def saveSignedLoop {w : Nat} : Nat → BitVec w → Except Fault (List UInt8)
  | 0, _ => .error .diverged
  | fuel + 1, value =>
      let byte := UInt8.ofNat (value.toNat % 256) &&& 0x7f
      let value := value.sshiftRight 7 -- must be arithmetic shift
      let signbit := byte &&& 0x40
      if (value ≠ 0 ∨ signbit ≠ 0) ∧ (value ≠ -1 ∨ signbit = 0) then do
        let rest ← saveSignedLoop fuel value
        .ok ((byte ||| more) :: rest)
      else .ok [byte]

/-- The loop of `save` for the unsigned types. -/
def saveUnsignedLoop {w : Nat} : Nat → BitVec w → Except Fault (List UInt8)
  | 0, _ => .error .diverged
  | fuel + 1, value =>
      let byte := UInt8.ofNat (value.toNat % 256) &&& 0x7f
      let value := value >>> 7
      if value ≠ 0 then do
        let rest ← saveUnsignedLoop fuel value
        .ok ((byte ||| more) :: rest)
      else .ok [byte]

/-- `save(ar, t)`. A round of the loop takes seven bits off the value. -/
def save (ty : IntType) (t : BitVec ty.bits) : Except Fault (List UInt8) :=
  if ty.signed then saveSignedLoop (ty.bits / 7 + 1) t else saveUnsignedLoop (ty.bits / 7 + 1) t

/-! ### load -/

/-- The state of a load. `defined` says that every shift so far was by less than the
width of the shifted type. -/
structure Load (w : Nat) where
  t : BitVec w
  shift : Nat
  byte : UInt8
  defined : Bool
  stream : Stream
  deriving Repr, DecidableEq

/-- One round of the loop of `load`. -/
def Load.round {w : Nat} (s : Load w) : Load w :=
  let (byte, stream) := readByte s.byte s.stream
  { t := s.t ||| BitVec.ofNat w (byte &&& 0x7f).toNat <<< s.shift
    shift := (s.shift + 7) % 2 ^ 32
    byte := byte
    defined := s.defined && decide (s.shift < w)
    stream := stream }

/-- The loop of `load`, for at most `fuel` rounds. -/
def loadLoop {w : Nat} : Nat → Load w → Except Fault (Load w)
  | 0, _ => .error .diverged
  | fuel + 1, s =>
      let s := s.round
      if s.byte &&& more ≠ 0 then loadLoop fuel s else .ok s

/-- Sign extend the remaining bits when negative. `1 << shift` is an `int`. -/
def signExtend {w : Nat} (s : Load w) : Load w :=
  if s.byte &&& 0x40 ≠ 0 ∧ s.shift < w then
    { s with
      t := s.t ||| BitVec.ofInt w (-(2 ^ s.shift))
      defined := s.defined && decide (s.shift < 32) }
  else s

/-- `load(ar, t)`, in at most `fuel` rounds. `byte` is what the local of that name
happens to hold. -/
def load (ty : IntType) (fuel : Nat) (byte : UInt8) (stream : Stream) :
    Except Fault (Load ty.bits) := do
  let s ← loadLoop fuel ⟨0, 0, byte, true, stream⟩
  .ok (if ty.signed then signExtend s else s)

end PothosCore.Archive

import Mathlib.Tactic.Linarith
import PothosCore.Framework.ManagedBuffer

/-!
# PothosCore.Framework.BufferChunk

`BufferChunk`: an address range in the memory of a managed buffer. A chunk that
runs past the end of its own buffer also holds one reference on each of the
next buffers of the chain it runs into; only their number (`nextBuffers`) is
stored, the buffers themselves are found again by walking the chain. It has the
type of its elements, a `DType`: ports compare its size with that of their own.
-/

namespace PothosCore.Framework

/-- `DType`: element type descriptor, size of one element, dimension. -/
structure DType where
  elemType : Nat
  elemSize : Nat
  dimension : Nat
  deriving Repr, DecidableEq

namespace DType

/-- `DType()`: unspecified. -/
def unspecified : DType := ⟨0, 1, 1⟩

/-- `size()`. -/
def size (d : DType) : Nat := d.elemSize * d.dimension

/-- `operator bool`: is the type specified? -/
def isSpecified (d : DType) : Bool := d.elemType ≠ 0

end DType

/-- `BufferChunk`. -/
structure BufferChunk where
  address : Nat
  length : Nat
  dtype : DType
  managedBuffer : Option ManagedBuffer
  nextBuffers : Nat
  deriving Repr, DecidableEq

namespace BufferChunk

/-- `BufferChunk()` and `BufferChunk::null()`. -/
def null : BufferChunk := ⟨0, 0, .unspecified, none, 0⟩

/-- `operator bool`: does the chunk have a managed buffer? -/
def isSome (c : BufferChunk) : Bool := c.managedBuffer.isSome

/-- `getEnd()`. -/
def getEnd (c : BufferChunk) : Nat := c.address + c.length

/-- `getBuffer()`. -/
def getBuffer (h : Heap) (c : BufferChunk) : SharedBuffer := h.buffer c.managedBuffer

/-- `getAlias()`: the other address at which the bytes of a circular buffer are
mapped, `0` when there is none. -/
def getAlias (h : Heap) (c : BufferChunk) : Nat :=
  let buffer := c.getBuffer h
  if buffer.aliasAddress = 0 then 0
  else if c.address > buffer.aliasAddress then c.address - buffer.getAliasOffset
  else c.address + buffer.getAliasOffset

/-- `BufferChunk(managedBuffer)`: the whole memory of a managed buffer. -/
def ofManagedBuffer (h : Heap) (mb : ManagedBuffer) : BufferChunk :=
  ⟨(h.impl mb).buffer.address, (h.impl mb).buffer.length, .unspecified, some mb, 0⟩

/-! ### References -/

/-- The `n` buffers that follow `mb` in its chain. -/
def chain (h : Heap) : Option ManagedBuffer → Nat → List ManagedBuffer
  | _, 0 => []
  | none, _ + 1 => []
  | some mb, n + 1 => mb :: chain h (h.impl mb).nextBuffer n

/-- The buffers behind the implied references: `_decrNextBuffers` walks the
chain `_nextBuffers` times. -/
def nextList (h : Heap) (c : BufferChunk) : List ManagedBuffer :=
  match c.managedBuffer with
  | none => []
  | some mb => chain h (h.impl mb).nextBuffer c.nextBuffers

/-- Every buffer a chunk holds a reference on, its own first. -/
def handles (h : Heap) (c : BufferChunk) : List ManagedBuffer :=
  c.managedBuffer.toList ++ c.nextList h

/-- The loop of `_incrNextBuffers`: how many next buffers the remaining length
runs into. A chain that ends stops the walk. The bound is the remaining length,
which every buffer of a chain shortens by at least one byte. The length is not
reduced to an `int`; `NextBuffers` has the walk for chunks and buffers that no
`int` measures, and `NextBuffers.copy_eq` says when the two agree. -/
def countNext (h : Heap) : Nat → Option ManagedBuffer → Int → Nat
  | 0, _, _ => 0
  | _ + 1, none, _ => 0
  | bound + 1, some mb, lengthRemain =>
      if 0 < lengthRemain then
        1 + countNext h bound (h.impl mb).nextBuffer (lengthRemain - (h.impl mb).buffer.length)
      else 0

/-- `_incrNextBuffers()`: the new value of `_nextBuffers`. -/
def incrNextBuffers (h : Heap) (c : BufferChunk) : Nat :=
  match c.managedBuffer with
  | none => 0
  | some mb =>
      let lengthRemain : Int := c.getEnd - (c.getBuffer h).getEnd
      countNext h lengthRemain.toNat (h.impl mb).nextBuffer lengthRemain

/-- The copy constructor: the implied references are counted anew. -/
def copy (h : Heap) (c : BufferChunk) : BufferChunk :=
  { c with nextBuffers := c.incrNextBuffers h }

/-- References taken by the copy constructor, for the copy it made. -/
def acquire (h : Heap) (c : BufferChunk) : List RefOp := (c.handles h).map .incr

/-- `~BufferChunk()`: `_decrNextBuffers()`, then the handle itself. -/
def destroy (h : Heap) (c : BufferChunk) : List RefOp :=
  (c.nextList h).map .decr ++ c.managedBuffer.toList.map .decr

/-- Copy assignment `c = other`: the new value is a copy of `other`. -/
def assign (h : Heap) (c other : BufferChunk) : List RefOp :=
  (c.nextList h).map .decr ++ c.managedBuffer.toList.map .decr ++
    (other.copy h).acquire h

section
variable (h : Heap) (c : BufferChunk)

@[simp] theorem null_nextList : null.nextList h = [] := rfl
@[simp] theorem null_handles : null.handles h = [] := rfl
@[simp] theorem null_length : null.length = 0 := rfl
@[simp] theorem null_managedBuffer : null.managedBuffer = none := rfl
@[simp] theorem null_destroy : null.destroy h = [] := rfl
@[simp] theorem null_copy : null.copy h = null := rfl

@[simp] theorem copy_address : (c.copy h).address = c.address := rfl
@[simp] theorem copy_length : (c.copy h).length = c.length := rfl
@[simp] theorem copy_dtype : (c.copy h).dtype = c.dtype := rfl
@[simp] theorem copy_managedBuffer : (c.copy h).managedBuffer = c.managedBuffer := rfl

/-- A chunk inside its own buffer implies no further references. -/
theorem incrNextBuffers_of_le (hle : c.getEnd ≤ (c.getBuffer h).getEnd) :
    c.incrNextBuffers h = 0 := by
  unfold incrNextBuffers
  cases hmb : c.managedBuffer with
  | none => rfl
  | some mb =>
      have hnat : ((c.getEnd : Int) - (c.getBuffer h).getEnd).toNat = 0 := by omega
      simp only [hnat]
      rfl

theorem copy_of_le (hle : c.getEnd ≤ (c.getBuffer h).getEnd) (hn : c.nextBuffers = 0) :
    c.copy h = c := by
  obtain ⟨a, l, d, m, n⟩ := c
  simp only [copy, incrNextBuffers_of_le h _ hle]
  simp_all

end

end BufferChunk

end PothosCore.Framework

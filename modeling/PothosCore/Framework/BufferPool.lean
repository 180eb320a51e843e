import PothosCore.Framework.BufferChunk

/-!
# PothosCore.Framework.BufferPool

`BufferPool`: a collection of re-usable buffers. `get` hands out the first one
that nobody else refers to, and makes a new one when there is none.
-/

namespace PothosCore.Framework

/-- `BufferPool`. -/
structure BufferPool where
  minBuffSize : Nat
  buffs : List BufferChunk
  deriving Repr

namespace BufferPool

/-- The default size of allocations until the client requests larger buffers. -/
def defaultSize : Nat := 8 * 1024

/-- `BufferPool()`. -/
def make : BufferPool := ⟨defaultSize, []⟩

/-- A new allocation of `n` bytes: the managed buffer and the address that the
allocator returns. -/
def allocate (h : Heap) (fresh : Nat × Nat) (n : Nat) : Heap :=
  h.create fresh.1 ⟨fresh.2, n, 0⟩ 0

/-- A user asks for a larger buffer size: drop all entries. -/
def grow (pool : BufferPool) (h : Heap) (numBytes : Nat) : BufferPool × Heap :=
  if pool.minBuffSize < numBytes then
    (⟨numBytes, []⟩, h.apply (pool.buffs.flatMap (BufferChunk.destroy h)))
  else (pool, h)

/-- The first buffer of which the pool holds the only copy. -/
def findUnique (pool : BufferPool) (h : Heap) : Option BufferChunk :=
  pool.buffs.find? fun b => h.useCount b.managedBuffer == 1

/-- `get(numBytes)`; `fresh` is what the allocator would return. -/
def get (pool : BufferPool) (h : Heap) (fresh : Nat × Nat) (numBytes : Nat) :
    BufferPool × BufferChunk × Heap :=
  let (pool, h) := pool.grow h numBytes
  match pool.findUnique h with
  | some b => (pool, b, h)
  | none =>
      -- otherwise make a new buffer
      let h := allocate h fresh pool.minBuffSize
      let b := BufferChunk.ofManagedBuffer h fresh.1
      ({ pool with buffs := pool.buffs ++ [b] }, b, h)

end BufferPool

end PothosCore.Framework

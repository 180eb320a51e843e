import PothosCore.Framework.AccumulatorPool
import PothosCore.Lib.Transition

/-!
# PothosCore.Framework.AccumulatorStream

An accumulator in use, as a byte stream: the calls `push`, `require` and `pop`
in any order, between them anything the rest of the program does to memory and
references that leaves the queued bytes and the queue's own references alone.
`fifo` is what a byte queue would hold.

Two of the rewrites trust an address comparison. `push` takes a chunk's alias
for the same bytes (`AliasShows`), and `pop` takes the bytes before the chunk
behind a pool buffer for those left in the pool buffer (`PoolShows`). `Faithful`
says that the comparison tells the truth.
-/

namespace PothosCore.Framework

open PothosCore.Lib

namespace BufferAccumulator

/-- The bytes of a queue, front to back. -/
def content (mem : Memory) (queue : List BufferChunk) : List UInt8 :=
  queue.flatMap fun c => readBytes mem c.address c.length

/-- Two ranges have no byte in common. -/
def Apart (a n b m : Nat) : Prop := n = 0 ∨ m = 0 ∨ a + n ≤ b ∨ b + m ≤ a

instance (a n b m : Nat) : Decidable (Apart a n b m) := by unfold Apart; infer_instance

/-! ### When the comparisons tell the truth -/

/-- The loop of `push` would run through all of these chunks. -/
def Chained (h : Heap) : List BufferChunk → Prop
  | f :: b :: queue => Touches h f b ∧ Chained h (b :: queue)
  | _ => True

instance decidableChained (h : Heap) : ∀ queue, Decidable (Chained h queue)
  | [] => .isTrue trivial
  | [_] => .isTrue trivial
  | f :: b :: queue =>
      have := decidableChained h (b :: queue)
      inferInstanceAs (Decidable (Touches h f b ∧ Chained h (b :: queue)))

/-- Where the loop of `push` joins by alias, the bytes that follow `f` are those
of the chunks joined to it, and they are not the pool's. -/
def AliasShows (mem : Memory) (h : Heap) (buffs : List BufferChunk) : List BufferChunk → Prop
  | f :: b :: queue =>
      AliasShows mem h buffs (b :: queue) ∧
        (Chained h (b :: queue) → b.address ≠ f.getEnd → b.getAlias h = f.getEnd →
          readBytes mem f.getEnd (total (b :: queue)) =
              readBytes mem b.address (total (b :: queue)) ∧
            ∀ p ∈ buffs, Apart f.getEnd (total (b :: queue)) p.address p.length)
  | _ => True

instance decidableAliasShows (mem : Memory) (h : Heap) (buffs : List BufferChunk) :
    ∀ queue, Decidable (AliasShows mem h buffs queue)
  | [] => .isTrue trivial
  | [_] => .isTrue trivial
  | f :: b :: queue =>
      have := decidableAliasShows mem h buffs (b :: queue)
      inferInstanceAs (Decidable (AliasShows mem h buffs (b :: queue) ∧
        (Chained h (b :: queue) → b.address ≠ f.getEnd → b.getAlias h = f.getEnd → _)))

/-- Where `pop` absorbs what is left of a pool buffer `f` into the chunk `b`
behind it, the bytes before `b` are those left in `f`. -/
def PoolShows (mem : Memory) (h : Heap) (inPoolBuffer : Bool) (f b : BufferChunk) : Prop :=
  Absorbs h inPoolBuffer f b →
    readBytes mem (b.address - f.length) f.length = readBytes mem f.address f.length

instance (mem : Memory) (h : Heap) (p : Bool) (f b : BufferChunk) :
    Decidable (PoolShows mem h p f b) := by unfold PoolShows; infer_instance

/-! ### The stream -/

/-- An accumulator, the heap and memory it works on, and the byte queue it stands
for. -/
structure Stream where
  acc : BufferAccumulator
  heap : Heap
  mem : Memory
  fifo : List UInt8

/-- The calls, and what happens between them. -/
inductive Event
  | push (buffer : BufferChunk)
  | require (numBytes : Nat) (fresh : Nat × Nat)
  | pop (numBytes : Nat)
  | other (heap : Heap) (mem : Memory)

namespace Stream

/-- A fresh accumulator. -/
def start (heap : Heap) (mem : Memory) : Stream := ⟨.make, heap, mem, []⟩

/-- The references of the accumulator: its queue's and its pool's. -/
def held (s : Stream) : List ManagedBuffer :=
  refs s.heap s.acc.queue ++ refs s.heap s.acc.pool.buffs

/-- What the caller of `push` passes: a sub-range of the memory of its managed
buffer, with the references it stands for. Memory of other managed buffers is
not the pool's. -/
structure Pushable (s : Stream) (buffer : BufferChunk) : Prop where
  isSome : buffer.isSome = true
  starts : (buffer.getBuffer s.heap).address ≤ buffer.address
  ends : buffer.getEnd ≤ (buffer.getBuffer s.heap).getEnd
  owned : Owned s.heap (s.held ++ buffer.handles s.heap)
  linked : (buffer.nextList s.heap).length = buffer.nextBuffers
  separate : ∀ p ∈ s.acc.pool.buffs, p.managedBuffer = buffer.managedBuffer ∨
    Apart (buffer.getBuffer s.heap).address (buffer.getBuffer s.heap).length p.address p.length

instance (s : Stream) (buffer : BufferChunk) : Decidable (Pushable s buffer) :=
  decidable_of_iff
    (buffer.isSome = true ∧ (buffer.getBuffer s.heap).address ≤ buffer.address ∧
      buffer.getEnd ≤ (buffer.getBuffer s.heap).getEnd ∧
      Owned s.heap (s.held ++ buffer.handles s.heap) ∧
      (buffer.nextList s.heap).length = buffer.nextBuffers ∧
      ∀ p ∈ s.acc.pool.buffs, p.managedBuffer = buffer.managedBuffer ∨
        Apart (buffer.getBuffer s.heap).address (buffer.getBuffer s.heap).length
          p.address p.length)
    ⟨fun ⟨h₁, h₂, h₃, h₄, h₅, h₆⟩ => ⟨h₁, h₂, h₃, h₄, h₅, h₆⟩,
      fun ⟨h₁, h₂, h₃, h₄, h₅, h₆⟩ => ⟨h₁, h₂, h₃, h₄, h₅, h₆⟩⟩

/-- What an allocation returns overlaps nothing the accumulator refers to. -/
structure Allocates (s : Stream) (fresh : Nat × Nat) (size : Nat) : Prop where
  new : fresh.1 ∉ s.held
  queue : ∀ c ∈ s.acc.queue, c.getEnd ≤ fresh.2 ∨
    fresh.2 + size ≤ min (c.getBuffer s.heap).address c.address
  pool : ∀ p ∈ s.acc.pool.buffs, Apart fresh.2 size p.address p.length

instance (s : Stream) (fresh : Nat × Nat) (size : Nat) : Decidable (Allocates s fresh size) :=
  decidable_of_iff
    (fresh.1 ∉ s.held ∧ (∀ c ∈ s.acc.queue, c.getEnd ≤ fresh.2 ∨
        fresh.2 + size ≤ min (c.getBuffer s.heap).address c.address) ∧
      ∀ p ∈ s.acc.pool.buffs, Apart fresh.2 size p.address p.length)
    ⟨fun ⟨h₁, h₂, h₃⟩ => ⟨h₁, h₂, h₃⟩, fun ⟨h₁, h₂, h₃⟩ => ⟨h₁, h₂, h₃⟩⟩

/-- The rest of the program leaves the queued bytes, the managed buffers the
accumulator refers to, and the accumulator's references alone. -/
structure Undisturbed (s : Stream) (heap : Heap) (mem : Memory) : Prop where
  bytes : ∀ c ∈ s.acc.queue, ∀ i < c.length, mem (c.address + i) = s.mem (c.address + i)
  impls : ∀ mb ∈ s.held, (heap.impl mb).buffer = (s.heap.impl mb).buffer ∧
    (heap.impl mb).nextBuffer = (s.heap.impl mb).nextBuffer
  owned : Owned heap s.held

instance (s : Stream) (heap : Heap) (mem : Memory) : Decidable (Undisturbed s heap mem) :=
  decidable_of_iff
    ((∀ c ∈ s.acc.queue, ∀ i < c.length, mem (c.address + i) = s.mem (c.address + i)) ∧
      (∀ mb ∈ s.held, (heap.impl mb).buffer = (s.heap.impl mb).buffer ∧
        (heap.impl mb).nextBuffer = (s.heap.impl mb).nextBuffer) ∧ Owned heap s.held)
    ⟨fun ⟨h₁, h₂, h₃⟩ => ⟨h₁, h₂, h₃⟩, fun ⟨h₁, h₂, h₃⟩ => ⟨h₁, h₂, h₃⟩⟩

/-- May this event happen? -/
def Admits (s : Stream) : Event → Prop
  | .push buffer => Pushable s buffer
  | .require numBytes fresh => Allocates s fresh (max s.acc.pool.minBuffSize numBytes)
  | .pop numBytes => numBytes ≤ s.acc.front.length
  | .other heap mem => Undisturbed s heap mem

instance (s : Stream) (e : Event) : Decidable (s.Admits e) := by
  cases e <;> unfold Admits <;> infer_instance

/-- The call itself. -/
def call (s : Stream) : Event → Except Fault Stream
  | .push buffer => do
      let (acc, ops) ← s.acc.push s.heap buffer
      .ok ⟨acc, s.heap.apply ops, s.mem, s.fifo ++ readBytes s.mem buffer.address buffer.length⟩
  | .require numBytes fresh => do
      let (acc, heap, mem) ← s.acc.require s.heap s.mem fresh numBytes
      .ok ⟨acc, heap, mem, s.fifo⟩
  | .pop numBytes => do
      let (acc, ops) ← s.acc.pop s.heap numBytes
      .ok ⟨acc, s.heap.apply ops, s.mem, s.fifo.drop numBytes⟩
  | .other heap mem => .ok { s with heap := heap, mem := mem }

/-- One admissible event that returns. -/
def step (s : Stream) (e : Event) : Option Stream :=
  if s.Admits e then (s.call e).toOption else none

/-- Do the comparisons of this call tell the truth? -/
def Faithful (s : Stream) : Event → Prop
  | .push buffer =>
      AliasShows s.mem s.heap s.acc.pool.buffs ((removeDummy s.heap s.acc.queue).1 ++ [buffer])
  | .pop numBytes =>
      ∀ b ∈ s.acc.queue[1]?, PoolShows s.mem s.heap s.acc.inPoolBuffer (consume s.acc.front numBytes) b
  | _ => True

instance (s : Stream) (e : Event) : Decidable (s.Faithful e) := by
  cases e <;> unfold Faithful <;> infer_instance

theorem step_inv {s s' : Stream} {e : Event} (h : s.step e = some s') :
    s.Admits e ∧ s.call e = .ok s' :=
  ok_of_guarded h

end Stream

end BufferAccumulator

end PothosCore.Framework

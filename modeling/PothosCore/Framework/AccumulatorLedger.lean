import PothosCore.Framework.AccumulatorStream

/-!
# PothosCore.Framework.AccumulatorLedger

An accumulator in use, with a ledger of the chunks that were pushed: where the
last byte of each stands in the stream, and the managed buffers it referred to.
A buffer is owed a reference until the last byte of its chunk has been popped or
copied to the pool.

A call is looked at from one reference step to the next: its moments are the
reference steps in program order, each with the number of bytes that have been
popped or copied by then.
-/

namespace PothosCore.Framework

open PothosCore.Lib

namespace BufferAccumulator

/-- A pushed chunk. -/
structure Entry where
  stop : Nat
  refs : List ManagedBuffer
  deriving Repr, DecidableEq

/-- The references that came with the pushed chunks. -/
def handedIn (entries : List Entry) : List ManagedBuffer := entries.flatMap (·.refs)

theorem handedIn_concat (entries : List Entry) (e : Entry) :
    handedIn (entries ++ [e]) = handedIn entries ++ e.refs := by
  simp [handedIn]

/-- The buffers that are owed a reference when `mark` bytes are done with. -/
def owed (entries : List Entry) (mark : Nat) : List ManagedBuffer :=
  handedIn (entries.filter (mark < ·.stop))

/-- A reference step, and the bytes that are done with by then. -/
abbrev Moment := Nat × RefOp

/-- `n` counts the references of the queue. Whenever a step is done, every buffer
that is owed one has one. -/
def KeptOver (entries : List Entry) : (ManagedBuffer → Int) → List Moment → Prop
  | _, [] => True
  | n, (mark, op) :: moments =>
      (∀ mb ∈ owed entries mark, 0 < n mb + op.delta mb) ∧
        KeptOver entries (fun mb => n mb + op.delta mb) moments

/-- The moments of the copy loop, which starts with `mark` bytes done with. -/
def fillMoments (h : Heap) (mark room : Nat) : List BufferChunk → List Moment
  | [] => []
  | f :: queue =>
      let copied := min room f.length
      if f.length = copied then
        (f.destroy h).map (mark + copied, ·) ++ fillMoments h (mark + copied) (room - copied) queue
      else []

/-- `push` removes the chunk it appends to this queue: it has the same managed
buffer as the one before it, and its bytes go there, or it has none. -/
def RemovesFrom (h : Heap) (queue : List BufferChunk) (buffer : BufferChunk) : Prop :=
  ∃ f ∈ queue.getLast?, buffer.managedBuffer = f.managedBuffer ∧
    (Touches h f buffer ∨ buffer.length = 0)

instance (h : Heap) (queue : List BufferChunk) (buffer : BufferChunk) :
    Decidable (RemovesFrom h queue buffer) := by unfold RemovesFrom; infer_instance

/-- An accumulator, the heap and memory it works on, and the account of what was
pushed: the entries, the bytes pushed, popped and done with, and the reference
steps of the queue so far. -/
structure Ledger where
  acc : BufferAccumulator
  heap : Heap
  mem : Memory
  entries : List Entry
  pushed : Nat
  popped : Nat
  mark : Nat
  traffic : List RefOp

namespace Ledger

/-- A fresh accumulator. -/
def start (heap : Heap) (mem : Memory) : Ledger := ⟨.make, heap, mem, [], 0, 0, 0, []⟩

/-- The references of the accumulator: its queue's and its pool's. -/
def held (s : Ledger) : List ManagedBuffer :=
  refs s.heap s.acc.queue ++ refs s.heap s.acc.pool.buffs

/-- What the queue holds when an event starts: a pushed chunk brings its own
references along. -/
def holding (s : Ledger) : Event → List ManagedBuffer
  | .push buffer => refs s.heap (s.acc.queue ++ [buffer])
  | _ => refs s.heap s.acc.queue

/-- May this event happen? Whatever other accumulators and the producer do, they
give up references of their own. -/
def Admits (s : Ledger) : Event → Prop
  | .push buffer => buffer.isSome = true ∧ (buffer.nextList s.heap).length = buffer.nextBuffers ∧
      Owned s.heap (s.holding (.push buffer) ++ refs s.heap s.acc.pool.buffs)
  | .require _ fresh => fresh.1 ∉ s.held
  | .pop numBytes => numBytes ≤ s.acc.front.length
  | .other heap _ => Agree s.heap heap s.held ∧ Owned heap s.held

instance (s : Ledger) : (e : Event) → Decidable (s.Admits e)
  | .push buffer => inferInstanceAs (Decidable (_ ∧ _ ∧ Owned s.heap (s.holding (.push buffer) ++ _)))
  | .require _ fresh => inferInstanceAs (Decidable (fresh.1 ∉ s.held))
  | .pop numBytes => inferInstanceAs (Decidable (numBytes ≤ s.acc.front.length))
  | .other heap _ => inferInstanceAs (Decidable (Agree s.heap heap s.held ∧ Owned heap s.held))

/-- The call itself, and its moments. -/
def call (s : Ledger) : Event → Except Fault (Ledger × List Moment)
  | .push buffer => do
      let (acc, ops) ← s.acc.push s.heap buffer
      .ok ({ s with
          acc := acc, heap := s.heap.apply ops, pushed := s.pushed + buffer.length,
          entries := s.entries ++ [⟨s.pushed + buffer.length, buffer.handles s.heap⟩],
          traffic := s.traffic ++ ops }, ops.map (s.mark, ·))
  | .require numBytes fresh => do
      let (acc, heap, mem) ← s.acc.require s.heap s.mem fresh numBytes
      if s.acc.Suffices s.heap numBytes then .ok ({ s with acc := acc, heap := heap, mem := mem }, [])
      else
        let (_, b, h) := s.acc.pool.get s.heap fresh numBytes
        let moments := ((b.copy h).acquire h).map (s.mark, ·) ++
          (fillMoments h s.popped b.length s.acc.queue).map fun m => (max s.mark m.1, m.2)
        .ok ({ s with
            acc := acc, heap := heap, mem := mem, mark := max s.mark (s.popped + acc.front.length),
            traffic := s.traffic ++ moments.map Prod.snd }, moments)
  | .pop numBytes => do
      let (acc, ops) ← s.acc.pop s.heap numBytes
      let mark := max s.mark (s.popped + numBytes)
      .ok ({ s with
          acc := acc, heap := s.heap.apply ops, popped := s.popped + numBytes, mark := mark,
          traffic := s.traffic ++ ops }, ops.map (mark, ·))
  | .other heap mem => .ok ({ s with heap := heap, mem := mem }, [])

/-- One admissible event that returns. -/
def step (s : Ledger) (e : Event) : Option Ledger :=
  if s.Admits e then (s.call e).toOption.map Prod.fst else none

/-- Every buffer that is owed a reference of the queue has one, at every moment of
the call. -/
def Kept (s : Ledger) (e : Event) : Prop :=
  ∀ t moments, s.call e = .ok (t, moments) →
    KeptOver t.entries (fun mb => (s.holding e).count mb) moments

/-- The calls that keep what is owed. A chunk that `push` removes has next buffers
that other chunks hold, and a front that gives its bytes away in `pop` holds no
buffer that is owed a reference alone. -/
def Safe (s : Ledger) : Event → Prop
  | .push buffer => RemovesFrom s.heap (removeDummy s.heap s.acc.queue).1 buffer →
      s.mark < s.pushed + buffer.length →
      ∀ mb ∈ buffer.nextList s.heap, mb ∈ refs s.heap (removeDummy s.heap s.acc.queue).1
  | .pop numBytes => ∀ b ∈ s.acc.queue[1]?,
      (Absorbs s.heap s.acc.inPoolBuffer (consume s.acc.front numBytes) b ∨
        Overran s.heap (consume s.acc.front numBytes) b) →
      numBytes < s.acc.front.length →
      ∀ mb ∈ owed s.entries (max s.mark (s.popped + numBytes)), mb ∈ refs s.heap s.acc.queue.tail
  | _ => True

instance (s : Ledger) : (e : Event) → Decidable (s.Safe e)
  | .push _ => inferInstanceAs (Decidable (RemovesFrom _ _ _ → _ → ∀ mb ∈ _, mb ∈ refs _ _))
  | .pop _ => inferInstanceAs (Decidable (∀ b ∈ s.acc.queue[1]?, Absorbs _ _ _ b ∨ Overran _ _ b → _ →
      ∀ mb ∈ owed _ _, mb ∈ refs _ _))
  | .require .. => inferInstanceAs (Decidable True)
  | .other .. => inferInstanceAs (Decidable True)

theorem step_inv {s t : Ledger} {e : Event} (h : s.step e = some t) :
    s.Admits e ∧ ∃ moments, s.call e = .ok (t, moments) := by
  unfold step at h
  by_cases hadm : s.Admits e
  · rw [if_pos hadm] at h
    cases hc : s.call e with
    | error f => rw [hc] at h; cases h
    | ok r =>
        rw [hc] at h
        obtain rfl : r.1 = t := by simpa [Except.toOption] using h
        exact ⟨hadm, r.2, rfl⟩
  · rw [if_neg hadm] at h; cases h

end Ledger

end BufferAccumulator

end PothosCore.Framework

import PothosCore.Framework.AccumulatorRing
import PothosCore.Framework.AccumulatorSettled

/-!
# PothosCore.Framework.AccumulatorTally

The books of an accumulator in use: the calls `push`, `require` and `pop` in any order,
on the ring, with the bytes that were pushed and popped so far, and between the calls
whatever the rest of the program does with references of its own.

`Sums` is what the books say after every call. Each call that is admitted returns, so
that no assertion of the ring fails either, and `require` brings the bytes that are asked
for into the front, in a pool buffer that no chunk refers to.
-/

namespace PothosCore.Framework

open PothosCore.Lib PothosCore.Util

namespace RingAccumulator

open BufferAccumulator

/-- An accumulator, the heap and memory it works on, and the bytes pushed and popped. -/
structure Tally where
  ring : RingAccumulator
  heap : Heap
  mem : Memory
  pushed : Nat
  popped : Nat

namespace Tally

/-- A fresh accumulator. -/
def start (ring : RingAccumulator) (heap : Heap) (mem : Memory) : Tally := ⟨ring, heap, mem, 0, 0⟩

/-- The references of the accumulator: its queue's and its pool's. -/
def held (s : Tally) : List ManagedBuffer := refs s.heap s.ring.queue.elems ++ refs s.heap s.ring.pool.buffs

/-- May this event happen? A chunk that is pushed has a managed buffer and its references;
an allocation returns a new managed buffer; what the rest of the program does leaves the
references of the accumulator alone. -/
def Admits (s : Tally) : Event → Prop
  | .push buffer => buffer.isSome = true ∧ (buffer.nextList s.heap).length = buffer.nextBuffers ∧
      Owned s.heap (refs s.heap (s.ring.queue.elems ++ [buffer]) ++ refs s.heap s.ring.pool.buffs)
  | .require _ fresh => fresh.1 ∉ s.held
  | .pop numBytes => numBytes ≤ s.ring.acc.front.length
  | .other heap _ => Agree s.heap heap s.held ∧ Owned heap s.held

instance (s : Tally) : (e : Event) → Decidable (s.Admits e)
  | .push buffer => inferInstanceAs (Decidable (_ ∧ _ ∧ Owned s.heap (refs s.heap (_ ++ [buffer]) ++ _)))
  | .require _ fresh => inferInstanceAs (Decidable (fresh.1 ∉ s.held))
  | .pop numBytes => inferInstanceAs (Decidable (numBytes ≤ s.ring.acc.front.length))
  | .other heap _ => inferInstanceAs (Decidable (Agree s.heap heap s.held ∧ Owned heap s.held))

/-- The call itself. -/
def call (s : Tally) : Event → Except Fault Tally
  | .push buffer => do
      let (ring, ops) ← s.ring.push s.heap buffer
      .ok { s with ring := ring, heap := s.heap.apply ops, pushed := s.pushed + buffer.length }
  | .require numBytes fresh => do
      let (ring, heap, mem) ← s.ring.require s.heap s.mem fresh numBytes
      .ok { s with ring := ring, heap := heap, mem := mem }
  | .pop numBytes => do
      let (ring, ops) ← s.ring.pop s.heap numBytes
      .ok { s with ring := ring, heap := s.heap.apply ops, popped := s.popped + numBytes }
  | .other heap mem => .ok { s with heap := heap, mem := mem }

/-- One admissible event that returns. -/
def step (s : Tally) (e : Event) : Option Tally :=
  if s.Admits e then (s.call e).toOption else none

theorem step_inv {s t : Tally} {e : Event} (h : s.step e = some t) : s.Admits e ∧ s.call e = .ok t :=
  ok_of_guarded h

/-! ### The books -/

/-- What the books say: the bytes available are those of the queue, and those pushed and
not popped; the queue is not empty, and its ring is not overfull. -/
structure Sums (s : Tally) : Prop where
  nonempty : s.ring.queue.elems ≠ []
  available : s.ring.bytesAvailable = total s.ring.queue.elems
  balance : s.ring.bytesAvailable + s.popped = s.pushed
  room : s.ring.queue.size ≤ s.ring.queue.capacity

/-- Does a call of `require` take a buffer of the pool that is large enough, and that no
chunk of the queue refers to, nor any of the other chunks that are alive? -/
structure TakesUnshared (s : Tally) (numBytes : Nat) (fresh : Nat × Nat) (t : Tally) : Prop where
  front : t.ring.acc.front.managedBuffer = (s.ring.pool.get s.heap fresh numBytes).2.1.managedBuffer
  size : numBytes ≤ (s.ring.pool.get s.heap fresh numBytes).2.1.length
  unshared : ∀ live : List BufferChunk,
    Owned s.heap (refs s.heap (s.ring.queue.elems ++ live) ++ refs s.heap s.ring.pool.buffs) →
      fresh.1 ∉ refs s.heap live →
        ∀ mb ∈ (s.ring.pool.get s.heap fresh numBytes).2.1.managedBuffer,
          mb ∉ refs s.heap (s.ring.queue.elems ++ live)

/-- What a call does besides keeping the books. -/
def Delivers (s : Tally) : Event → Tally → Prop
  | .require numBytes fresh, t =>
      t.ring.bytesAvailable = s.ring.bytesAvailable ∧
        (numBytes ≤ s.ring.bytesAvailable → numBytes ≤ t.ring.acc.front.length) ∧
        (¬ s.ring.acc.Suffices s.heap numBytes → s.TakesUnshared numBytes fresh t)
  | _, _ => True

/-- **The invariant.** -/
structure Booked (s : Tally) : Prop where
  settled : Settled s.heap s.ring.acc
  balance : s.ring.bytesAvailable + s.popped = s.pushed
  room : s.ring.queue.Room

variable {s t : Tally}

theorem Booked.sums (hb : Booked s) : s.Sums :=
  ⟨hb.settled.queue.ne_nil, hb.settled.available, hb.balance, hb.room.le⟩

theorem Booked.start (heap : Heap) (mem : Memory) {ring : RingAccumulator} (h : RingAccumulator.make = .ok ring) :
    Booked (.start ring heap mem) := by
  obtain ⟨ring', hmake, hacc, hroom⟩ := make_ring
  obtain rfl : ring' = ring := Except.ok.inj (hmake.symm.trans h)
  have hbytes : ring'.bytesAvailable = 0 := congrArg BufferAccumulator.bytesAvailable hacc
  refine ⟨?_, ?_, hroom⟩
  · show Settled heap ring'.acc
    rw [hacc]
    exact .start heap
  · show ring'.bytesAvailable + 0 = 0
    rw [hbytes]

/-! ### The calls -/

theorem Booked.push (hb : Booked s) {buffer : BufferChunk} (hadm : s.Admits (.push buffer)) :
    ∃ t, s.call (.push buffer) = .ok t ∧ Booked t := by
  obtain ⟨hsome, hlinked, howned⟩ := hadm
  obtain ⟨acc', ops, hp, hsettled, havail⟩ := hb.settled.push hsome hlinked howned
  obtain ⟨ring', hring, rfl, hroom⟩ := push_ring hb.room hp
  refine ⟨{ s with ring := ring', heap := s.heap.apply ops, pushed := s.pushed + buffer.length },
    by simp only [call, hring, bind, Except.bind], hsettled, ?_, hroom⟩
  have havail : ring'.bytesAvailable = s.ring.bytesAvailable + buffer.length := havail
  show ring'.bytesAvailable + s.popped = s.pushed + buffer.length
  rw [havail, ← hb.balance]
  omega

theorem Booked.pop (hb : Booked s) {n : Nat} (hadm : s.Admits (.pop n)) :
    ∃ t, s.call (.pop n) = .ok t ∧ Booked t := by
  obtain ⟨acc', ops, hp, hsettled, havail⟩ := hb.settled.pop hadm
  obtain ⟨ring', hring, rfl, hroom⟩ := pop_ring hb.room hp
  refine ⟨{ s with ring := ring', heap := s.heap.apply ops, popped := s.popped + n },
    by simp only [call, hring, bind, Except.bind], hsettled, ?_, hroom⟩
  have havail : ring'.bytesAvailable = s.ring.bytesAvailable - n := havail
  have hle : n ≤ s.ring.bytesAvailable := Nat.le_trans hadm hb.settled.front_le
  show ring'.bytesAvailable + (s.popped + n) = s.pushed
  rw [havail, ← hb.balance]
  omega

theorem Booked.require (hb : Booked s) {n : Nat} {fresh : Nat × Nat} (hadm : s.Admits (.require n fresh)) :
    ∃ t, s.call (.require n fresh) = .ok t ∧ Booked t ∧ s.Delivers (.require n fresh) t := by
  obtain ⟨acc', h', mem', hreq, hgathered⟩ := hb.settled.require s.mem n hadm
  have hsize : ¬ s.ring.acc.Suffices s.heap n → n ≤ (s.ring.pool.get s.heap fresh n).2.1.length :=
    fun hsuff => (hgathered.front hsuff).1
  obtain ⟨ring', hring, rfl, hroom⟩ := require_ring hb.room hsize hreq
  have hbytes : ring'.bytesAvailable = s.ring.bytesAvailable := hgathered.available
  refine ⟨{ s with ring := ring', heap := h', mem := mem' },
    by simp only [call, hring, bind, Except.bind], ⟨hgathered.settled, ?_, hroom⟩, hbytes,
    hgathered.enough, fun hsuff => ⟨(hgathered.front hsuff).2, hsize hsuff, fun live howned hnew => ?_⟩⟩
  · show ring'.bytesAvailable + s.popped = s.pushed
    rw [hbytes]
    exact hb.balance
  · refine get_unshared howned fun hin => ?_
    rw [refs_append] at hin
    cases List.mem_append.mp hin with
    | inl hin => exact hadm (List.mem_append_left _ hin)
    | inr hin => exact hnew hin

/-! ### Runs -/

theorem Booked.other (hb : Booked s) {heap : Heap} {mem : Memory} (hadm : s.Admits (.other heap mem)) :
    Booked { s with heap := heap, mem := mem } :=
  ⟨hb.settled.other hadm.1 hadm.2, hb.balance, hb.room⟩

/-- **An admitted call returns**, and keeps the books. -/
theorem Booked.call (hb : Booked s) {e : Event} (hadm : s.Admits e) :
    ∃ t, s.call e = .ok t ∧ Booked t ∧ s.Delivers e t := by
  cases e with
  | push buffer =>
      obtain ⟨t, ht, hbt⟩ := hb.push hadm
      exact ⟨t, ht, hbt, trivial⟩
  | require n fresh => exact hb.require hadm
  | pop n =>
      obtain ⟨t, ht, hbt⟩ := hb.pop hadm
      exact ⟨t, ht, hbt, trivial⟩
  | other heap mem => exact ⟨_, rfl, hb.other hadm, trivial⟩

theorem Booked.run {es : List Event} (hb : Booked s) (hrun : Exec (ofPartial step) s es t) : Booked t := by
  refine hrun.invariant (fun u e v hu hstep => ?_) hb
  obtain ⟨hadm, hcall⟩ := step_inv hstep
  obtain ⟨w, hw, hbw, -⟩ := hu.call hadm
  obtain rfl : w = v := Except.ok.inj (hw.symm.trans hcall)
  exact hbw

/-- **The accounting of the accumulator**, in every run of calls. -/
theorem sums_of_run {ring : RingAccumulator} {heap : Heap} {mem : Memory} {es : List Event}
    (hmake : RingAccumulator.make = .ok ring) (hrun : Exec (ofPartial step) (.start ring heap mem) es s) :
    s.Sums ∧ ∀ e, s.Admits e → ∃ t, s.call e = .ok t ∧ t.Sums ∧ s.Delivers e t := by
  have hb := (Booked.start heap mem hmake).run hrun
  refine ⟨hb.sums, fun e hadm => ?_⟩
  obtain ⟨t, ht, hbt, hdelivers⟩ := hb.call hadm
  exact ⟨t, ht, hbt.sums, hdelivers⟩

/-- Two buffers behind each other in memory, not in a chain. -/
def twoBuffers : Heap := (Heap.empty.create 1 ⟨100, 8, 0⟩ 0).create 2 ⟨200, 8, 0⟩ 1

/-- Two chunks, the front of which `require` gathers in a pool buffer. -/
theorem sums_of_run_gathered : ∃ ring s, RingAccumulator.make = .ok ring ∧
    Exec (ofPartial step) (.start ring twoBuffers fun _ => 0)
      [.push ⟨100, 8, .unspecified, some 1, 0⟩, .push ⟨200, 8, .unspecified, some 2, 0⟩,
        .require 12 (3, 1000)] s ∧
    s.Sums ∧ (∀ e, s.Admits e → ∃ t, s.call e = .ok t ∧ t.Sums ∧ s.Delivers e t) ∧
    s.ring.queue.elems.map (fun c => (c.address, c.length)) = [(1000, 16)] := by
  obtain ⟨ring, hmake, hval⟩ : ∃ ring, RingAccumulator.make = .ok ring ∧
      ring = ⟨⟨[.null], 64⟩, 0, false, .make⟩ := ⟨_, rfl, rfl⟩
  have hrun : (runPartial step (.start ⟨⟨[.null], 64⟩, 0, false, .make⟩ twoBuffers fun _ => 0)
      [.push ⟨100, 8, .unspecified, some 1, 0⟩, .push ⟨200, 8, .unspecified, some 2, 0⟩,
        .require 12 (3, 1000)]).map (fun s => s.ring.queue.elems.map fun c => (c.address, c.length)) =
      some [(1000, 16)] := by decide +kernel
  rw [← hval] at hrun
  obtain ⟨s, hs, hqueue⟩ := Option.map_eq_some_iff.mp hrun
  have hexec := exec_of_runPartial hs
  obtain ⟨hsums, hcalls⟩ := sums_of_run hmake hexec
  exact ⟨ring, s, hmake, hexec, hsums, hcalls, hqueue⟩

end Tally

end RingAccumulator

end PothosCore.Framework

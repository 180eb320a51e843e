import PothosCore.Framework.InputPortConsume

/-!
# PothosCore.Framework.InputPortLabels

The labels on their way into an input port: `pushLabel` and `bufferLabelPush` from any
thread, `bufferAccumulatorFront` before a work call and `bufferAccumulatorPop` after it.

A label that waits between the two has an index in bytes from the front of the
accumulator, and the pop subtracts the consumed bytes from it. `bufferLabelPush` adds the
bytes that are queued, so its labels are behind all that the work call was offered;
`pushLabel` adds nothing. `subtracts_iff` says for every state of a port in use which
subtractions wrap.
-/

namespace PothosCore.Framework

open PothosCore.Lib PothosCore.Util

variable {δ : Type}

/-- `adjust(mult, div)` -/
def Label.adjust (l : Label δ) (mult div : UInt64) : Except Fault (Label δ) :=
  if div = 0 then .error (.undefined "this->index /= div")
  else .ok { l with index := l.index * mult / div, width := l.width * mult / div }

namespace InputPort

open BufferAccumulator RingAccumulator

/-! ### The calls -/

/-- `pushLabel(label)`: `inlineMessagesPush`. -/
def pushLabel (port : InputPort δ) (label : Label δ) : InputPort δ :=
  { port with inputInlineMessages := port.inputInlineMessages ++ [label] }

/-- The report of a buffer that is dropped: whose port, and the data types. -/
structure Dropped where
  blockName : String
  portAlias : String
  dtype : DType
  expected : DType
  deriving Repr, DecidableEq

/-- A data type is unspecified, or the sizes match. -/
def Accepts (port : InputPort δ) (buffer : BufferChunk) : Prop :=
  buffer.dtype.isSpecified = false ∨ port.dtype.isSpecified = false ∨
    UInt64.ofNat port.dtype.size = UInt64.ofNat buffer.dtype.size

instance (port : InputPort δ) (buffer : BufferChunk) : Decidable (port.Accepts buffer) := by
  unfold Accepts; infer_instance

/-- `bufferAccumulatorPushNoLock(buffer)`: the port, the reference steps and the report. -/
def bufferAccumulatorPushNoLock (port : InputPort δ) (h : Heap) (buffer : BufferChunk) :
    Except Fault (InputPort δ × List RefOp × Option Dropped) :=
  if port.Accepts buffer then do
    let buffer := if buffer.dtype.isSpecified then buffer else { buffer with dtype := port.dtype }
    let (acc, ops) ← port.bufferAccumulator.push h buffer
    .ok ({ port with bufferAccumulator := acc }, ops, none)
  else .ok (port, buffer.destroy h, some ⟨port.blockName, port.getAlias, buffer.dtype, port.dtype⟩)

/-- Push all buffers into the accumulator. -/
def pushBuffers (port : InputPort δ) (h : Heap) : List BufferChunk →
    Except Fault (InputPort δ × Heap × List Dropped)
  | [] => .ok (port, h, [])
  | buffer :: buffers => do
      let (port, ops, report) ← port.bufferAccumulatorPushNoLock h buffer
      let (port, h, reports) ← port.pushBuffers (h.apply ops) buffers
      .ok (port, h, report.toList ++ reports)

/-- `pushBuffer(buffer)`: `bufferAccumulatorPush`, with a copy that the caller has made. -/
def pushBuffer (port : InputPort δ) (h : Heap) (buffer : BufferChunk) :
    Except Fault (InputPort δ × Heap × List Dropped) :=
  port.pushBuffers h [buffer]

/-- Insert labels (in order) and adjust for the current offset. -/
def insertLabels (port : InputPort δ) (postedLabels : List (Label δ)) : InputPort δ :=
  let currentBytes := port.bufferAccumulator.bytesAvailable
  { port with
    inputInlineMessages := port.inputInlineMessages ++
      -- increment by enqueued bytes
      postedLabels.map fun l => { l with index := l.index + UInt64.ofNat currentBytes } }

/-- `bufferLabelPush(enableMove, postedLabels, postedBuffers)`: the port, the heap, the
reports, and what is left to the output port. Unless the buffers are moved they are copies
that have their references. -/
def bufferLabelPush (port : InputPort δ) (h : Heap) (enableMove : Bool) (postedLabels : List (Label δ))
    (postedBuffers : List BufferChunk) :
    Except Fault (InputPort δ × Heap × List Dropped × List (Label δ) × List BufferChunk) := do
  let (port, h, reports) ← (port.insertLabels postedLabels).pushBuffers h postedBuffers
  .ok (port, h, reports, if enableMove then ([], []) else (postedLabels, postedBuffers))

/-- `bufferAccumulatorRequire(numBytes)` -/
def bufferAccumulatorRequire (port : InputPort δ) (h : Heap) (mem : Memory) (fresh : Nat × Nat) (numBytes : Nat) :
    Except Fault (InputPort δ × Heap × Memory) := do
  let (acc, h, mem) ← port.bufferAccumulator.require h mem fresh numBytes
  .ok ({ port with bufferAccumulator := acc }, h, mem)

/-- `bufferAccumulatorFront(buff)`: the port and the front. -/
def bufferAccumulatorFront (port : InputPort δ) : Except Fault (InputPort δ × BufferChunk) := do
  let labels ← port.inputInlineMessages.mapM fun l => l.adjust 1 (UInt64.ofNat port.dtype.size)
  .ok ({ port with inlineMessages := port.inlineMessages ++ labels, inputInlineMessages := [] },
    port.bufferAccumulator.acc.front)

/-- Is every subtraction of `bufferAccumulatorPop`, if it comes to that, one of numbers? -/
def Subtracts (port : InputPort δ) (numBytes : UInt64) : Prop :=
  numBytes.toNat ≤ port.bufferAccumulator.bytesAvailable →
    ∀ l ∈ port.inputInlineMessages, (l.index - numBytes).toNat + numBytes.toNat = l.index.toNat

/-! ### A port in use -/

/-- How a label entered: with its own index, or with an index from the bytes that were
queued. -/
inductive Entry
  | pushed (index : UInt64)
  | posted (queued : Nat) (index : UInt64)
  deriving Repr, DecidableEq

namespace Entry

/-- The index it has in the queue. -/
def position : Entry → UInt64
  | .pushed index => index
  | .posted queued index => index + UInt64.ofNat queued

/-- Is the label behind the consumed bytes? `offered` are the bytes of the work call. -/
def Behind (offered numBytes : Nat) : Entry → Prop
  | .pushed index => numBytes ≤ index.toNat
  | .posted queued index =>
      if queued + index.toNat < 2 ^ 64 then offered < numBytes → numBytes ≤ queued + index.toNat
      else numBytes ≤ queued + index.toNat - 2 ^ 64

end Entry

/-- A port, the heap and the memory, the bytes of the front while there is a work call, and
how the labels entered since. -/
structure Intake (δ : Type) where
  port : InputPort δ
  heap : Heap
  mem : Memory
  offered : Option Nat
  entered : List Entry

/-- What happens to a port: calls from outside, the parts of a work cycle, and what the
rest of the program does with references of its own, those of `_buffer` among them. -/
inductive IntakeEvent (δ : Type)
  | pushLabel (label : Label δ)
  | pushBuffer (buffer : BufferChunk)
  | bufferLabelPush (enableMove : Bool) (postedLabels : List (Label δ)) (postedBuffers : List BufferChunk)
  | require (numBytes : Nat) (fresh : Nat × Nat)
  | front
  | postWork (pendingElements : UInt64)
  | other (heap : Heap) (mem : Memory)

/-- May this buffer be handed over? It has its references, and if it is queued, a managed
buffer, and the bytes can be counted. -/
def Receivable (port : InputPort δ) (h : Heap) (buffer : BufferChunk) : Prop :=
  Owned h (refs h (port.bufferAccumulator.queue.elems ++ [buffer]) ++ refs h port.bufferAccumulator.pool.buffs) ∧
    (port.Accepts buffer → buffer.isSome = true ∧ (buffer.nextList h).length = buffer.nextBuffers ∧
      port.bufferAccumulator.bytesAvailable + buffer.length < 2 ^ 64)

instance (port : InputPort δ) (h : Heap) (buffer : BufferChunk) : Decidable (port.Receivable h buffer) := by
  unfold Receivable; infer_instance

/-- May these buffers be handed over, one after the other? -/
def ReceivesAll (port : InputPort δ) (h : Heap) : List BufferChunk → Prop
  | [] => True
  | buffer :: buffers => port.Receivable h buffer ∧
      match port.bufferAccumulatorPushNoLock h buffer with
      | .ok r => r.1.ReceivesAll (h.apply r.2.1) buffers
      | .error _ => True

instance decidableReceivesAll : ∀ (port : InputPort δ) (h : Heap) (buffers : List BufferChunk),
    Decidable (port.ReceivesAll h buffers)
  | _, _, [] => isTrue trivial
  | port, h, buffer :: buffers => by
      unfold ReceivesAll
      have : ∀ r : Except Fault (InputPort δ × List RefOp × Option Dropped),
          Decidable (match r with
            | .ok r => r.1.ReceivesAll (h.apply r.2.1) buffers
            | .error _ => True) := fun r =>
        match r with
        | .ok r => decidableReceivesAll r.1 _ buffers
        | .error _ => isTrue trivial
      infer_instance

namespace Intake

/-- The references of the accumulator. -/
def held (s : Intake δ) : List ManagedBuffer :=
  refs s.heap s.port.bufferAccumulator.queue.elems ++ refs s.heap s.port.bufferAccumulator.pool.buffs

/-- May this event happen? There is one pop for a front. -/
def Admits (s : Intake δ) : IntakeEvent δ → Prop
  | .pushLabel _ => True
  | .pushBuffer buffer => s.port.ReceivesAll s.heap [buffer]
  | .bufferLabelPush _ postedLabels postedBuffers =>
      (s.port.insertLabels postedLabels).ReceivesAll s.heap postedBuffers
  | .require _ fresh => fresh.1 ∉ s.held
  | .front => True
  | .postWork _ => s.offered.isSome = true
  | .other heap _ => Agree s.heap heap s.held ∧ Owned heap s.held

instance (s : Intake δ) (e : IntakeEvent δ) : Decidable (s.Admits e) := by
  cases e <;> unfold Admits <;> infer_instance

/-- The event itself. -/
def call (s : Intake δ) : IntakeEvent δ → Except Fault (Intake δ)
  | .pushLabel label =>
      .ok { s with port := s.port.pushLabel label, entered := s.entered ++ [.pushed label.index] }
  | .pushBuffer buffer => do
      let (port, heap, _) ← s.port.pushBuffer s.heap buffer
      .ok { s with port := port, heap := heap }
  | .bufferLabelPush enableMove postedLabels postedBuffers => do
      let (port, heap, _) ← s.port.bufferLabelPush s.heap enableMove postedLabels postedBuffers
      .ok { s with
        port := port, heap := heap,
        entered := s.entered ++
          postedLabels.map fun l => .posted s.port.bufferAccumulator.bytesAvailable l.index }
  | .require numBytes fresh => do
      let (port, heap, mem) ← s.port.bufferAccumulatorRequire s.heap s.mem fresh numBytes
      .ok { s with port := port, heap := heap, mem := mem }
  | .front => do
      let (port, buff) ← s.port.bufferAccumulatorFront
      .ok { s with port := port, offered := some buff.length, entered := [] }
  | .postWork pendingElements => do
      let (port, posted) ← { s.port with pendingElements := pendingElements }.postWork s.heap
      .ok { s with port := port, heap := s.heap.apply posted.ops, offered := none }
  | .other heap mem => .ok { s with heap := heap, mem := mem }

/-- One admissible event that returns. -/
def step (s : Intake δ) (e : IntakeEvent δ) : Option (Intake δ) :=
  if s.Admits e then (s.call e).toOption else none

/-- A port that has just been allocated. -/
structure Fresh (port : InputPort δ) : Prop where
  accumulator : RingAccumulator.make = .ok port.bufferAccumulator
  buffer : port.buffer = .null

def start (port : InputPort δ) (heap : Heap) (mem : Memory) : Intake δ := ⟨port, heap, mem, none, []⟩

theorem step_inv {s t : Intake δ} {e : IntakeEvent δ} (h : s.step e = some t) :
    s.Admits e ∧ s.call e = .ok t :=
  ok_of_guarded h

end Intake

/-! ### Buffers that are pushed -/

/-- What the accumulator of a port keeps to. -/
structure Stored (h : Heap) (r : RingAccumulator) : Prop where
  settled : Settled h r.acc
  room : r.queue.Room
  count : r.bytesAvailable < 2 ^ 64

variable {h : Heap} {port : InputPort δ}

theorem balanced_dropBack (c : BufferChunk) (q : List BufferChunk) :
    Balanced h (c.destroy h) (q ++ [c]) q := by
  refine ⟨fun mb => ?_, fun mb hmb => ?_⟩
  · rw [net_destroy, refs_append, refs_cons, refs_nil, List.append_nil, List.count_append]
    omega
  · rw [refs_append]
    exact List.mem_append_left _ hmb

/-- A buffer that is dropped leaves the accumulator alone, and one that is queued adds to
the bytes. -/
theorem bufferAccumulatorPushNoLock_stored {buffer : BufferChunk} (hs : Stored h port.bufferAccumulator)
    (hr : port.Receivable h buffer) :
    ∃ r ops report, port.bufferAccumulatorPushNoLock h buffer =
        .ok ({ port with bufferAccumulator := r }, ops, report) ∧
      Stored (h.apply ops) r ∧ port.bufferAccumulator.bytesAvailable ≤ r.bytesAvailable := by
  obtain ⟨howned, hqueued⟩ := hr
  by_cases haccepts : port.Accepts buffer
  · obtain ⟨hsome, hlinked, hcount⟩ := hqueued haccepts
    let buffer' := if buffer.dtype.isSpecified then buffer else { buffer with dtype := port.dtype }
    -- the data type makes no difference to the accumulator
    have hsame : buffer'.isSome = buffer.isSome ∧ buffer'.nextList h = buffer.nextList h ∧
        buffer'.nextBuffers = buffer.nextBuffers ∧ buffer'.length = buffer.length ∧
        buffer'.handles h = buffer.handles h := by
      by_cases hd : buffer.dtype.isSpecified = true
      · have hb : buffer' = buffer := if_pos hd
        rw [hb]
        exact ⟨rfl, rfl, rfl, rfl, rfl⟩
      · have hb : buffer' = { buffer with dtype := port.dtype } := if_neg hd
        rw [hb]
        exact ⟨rfl, rfl, rfl, rfl, rfl⟩
    obtain ⟨hsome', hnext, hnexts, hlength, hhandles⟩ := hsame
    have howned' : Owned h (refs h (port.bufferAccumulator.acc.queue ++ [buffer']) ++
        refs h port.bufferAccumulator.acc.pool.buffs) := by
      rw [refs_append, refs_cons, hhandles, ← refs_cons, ← refs_append]
      exact howned
    obtain ⟨acc, ops, hpush, hsettled, havail⟩ :=
      hs.settled.push (hsome'.trans hsome) (by rw [hnext, hnexts]; exact hlinked) howned'
    obtain ⟨r, hring, rfl, hroom⟩ := push_ring hs.room hpush
    have havail : r.bytesAvailable = port.bufferAccumulator.bytesAvailable + buffer.length := by
      rw [← hlength]
      exact havail
    refine ⟨r, ops, none, ?_, ⟨hsettled, hroom, havail ▸ hcount⟩, havail ▸ Nat.le_add_right _ _⟩
    rw [bufferAccumulatorPushNoLock, if_pos haccepts]
    show (do let (acc, ops) ← port.bufferAccumulator.push h buffer'; _) = _
    rw [hring]
    rfl
  · refine ⟨port.bufferAccumulator, buffer.destroy h, _, if_neg haccepts, ⟨?_, hs.room, hs.count⟩, le_rfl⟩
    exact ⟨hs.settled.available, hs.settled.queue,
      hs.settled.stocked.change howned (balanced_dropBack buffer port.bufferAccumulator.acc.queue)⟩

theorem pushBuffers_stored {buffers : List BufferChunk} {h : Heap} {port : InputPort δ}
    (hs : Stored h port.bufferAccumulator) (hr : port.ReceivesAll h buffers) :
    ∃ r h' reports, port.pushBuffers h buffers = .ok ({ port with bufferAccumulator := r }, h', reports) ∧
      Stored h' r ∧ port.bufferAccumulator.bytesAvailable ≤ r.bytesAvailable := by
  induction buffers generalizing h port with
  | nil => exact ⟨port.bufferAccumulator, h, [], rfl, hs, le_rfl⟩
  | cons buffer buffers ih =>
      obtain ⟨hfirst, hrest⟩ := hr
      obtain ⟨r, ops, report, hpush, hstored, hle⟩ := bufferAccumulatorPushNoLock_stored hs hfirst
      rw [hpush] at hrest
      obtain ⟨r', h', reports, hall, hstored', hle'⟩ := ih hstored hrest
      refine ⟨r', h', report.toList ++ reports, ?_, hstored', hle.trans hle'⟩
      rw [pushBuffers, hpush]
      dsimp only [bind, Except.bind] at hall ⊢
      rw [hall]

/-! ### The parts of a work cycle -/

theorem pop_le {r r' : RingAccumulator} {n : Nat} {ops : List RefOp} (hp : r.pop h n = .ok (r', ops)) :
    n ≤ r.acc.front.length := by
  obtain ⟨⟨elems, capacity⟩, bytesAvailable, inPoolBuffer, pool⟩ := r
  rw [RingAccumulator.pop] at hp
  split at hp
  · cases hp
  · cases elems with
    | nil => cases hp
    | cons f elems =>
        dsimp only at hp
        split at hp
        · cases hp
        · next hle => exact Nat.le_of_not_lt hle

theorem pop_stored {r r' : RingAccumulator} {n : Nat} {ops : List RefOp} (hs : Stored h r)
    (hp : r.pop h n = .ok (r', ops)) : Stored (h.apply ops) r' := by
  obtain ⟨acc, ops', hpop, hsettled, havail⟩ := hs.settled.pop (pop_le hp)
  obtain ⟨r'', hring, rfl, hroom⟩ := pop_ring hs.room hpop
  obtain ⟨rfl, rfl⟩ := Prod.mk.inj (Except.ok.inj (hring.symm.trans hp))
  refine ⟨hsettled, hroom, ?_⟩
  have havail : r''.bytesAvailable = r.bytesAvailable - n := havail
  rw [havail]
  exact (Nat.sub_le _ _).trans_lt hs.count

theorem postWork_stored {port' : InputPort δ} {posted : Posted δ} (hs : Stored h port.bufferAccumulator)
    (hnull : port.buffer = .null) (hp : port.postWork h = .ok (port', posted)) :
    Stored (h.apply posted.ops) port'.bufferAccumulator ∧ port'.buffer = .null := by
  have hdestroy : port.buffer.destroy h = [] := by
    rw [hnull]
    rfl
  rw [postWork] at hp
  by_cases hzero : port.pendingBytes = 0
  · rw [if_neg (not_not.mpr hzero)] at hp
    obtain ⟨rfl, rfl⟩ := Prod.mk.inj (Except.ok.inj hp)
    refine ⟨?_, rfl⟩
    show Stored (h.apply ([] ++ port.buffer.destroy h)) port.bufferAccumulator
    rw [hdestroy]
    exact hs
  · rw [if_pos hzero, bufferAccumulatorPop] at hp
    by_cases hless : port.postLabels.bufferAccumulator.bytesAvailable < port.pendingBytes.toNat
    · rw [if_pos hless] at hp
      obtain ⟨rfl, rfl⟩ := Prod.mk.inj (Except.ok.inj hp)
      refine ⟨?_, rfl⟩
      show Stored (h.apply ([] ++ port.buffer.destroy h)) port.bufferAccumulator
      rw [hdestroy]
      exact hs
    · rw [if_neg hless] at hp
      obtain ⟨⟨port₁, ops, report⟩, hpop, hp⟩ := bind_ok hp
      obtain ⟨⟨r, ops'⟩, hring, hpop⟩ := bind_ok hpop
      obtain ⟨rfl, hrest⟩ := Prod.mk.inj (Except.ok.inj hpop)
      obtain ⟨rfl, rfl⟩ := Prod.mk.inj hrest
      obtain ⟨rfl, rfl⟩ := Prod.mk.inj (Except.ok.inj hp)
      refine ⟨?_, rfl⟩
      show Stored (h.apply (ops' ++ port.buffer.destroy h)) r
      rw [hdestroy, List.append_nil]
      exact pop_stored hs hring

namespace Intake

/-- The bytes that were queued when a label was posted are no fewer than those offered. -/
def Queued (offered : Nat) : Entry → Prop
  | .pushed _ => True
  | .posted queued _ => offered ≤ queued ∧ queued < 2 ^ 64

/-- What is known of the labels that have entered since the front was taken. -/
structure Tracked (s : Intake δ) (offered : Nat) : Prop where
  available : offered ≤ s.port.bufferAccumulator.bytesAvailable
  positions : s.port.inputInlineMessages.map (·.index) = s.entered.map Entry.position
  queued : ∀ e ∈ s.entered, Queued offered e

/-- **The invariant.** -/
structure Kept (s : Intake δ) : Prop where
  stored : Stored s.heap s.port.bufferAccumulator
  buffer : s.port.buffer = .null
  tracked : ∀ f ∈ s.offered, s.Tracked f

variable {s t : Intake δ}

theorem Kept.start (hfresh : Fresh port) (heap : Heap) (mem : Memory) : Kept (.start port heap mem) := by
  obtain ⟨r, hmake, hacc, hroom⟩ := make_ring
  obtain rfl : r = port.bufferAccumulator := Except.ok.inj (hmake.symm.trans hfresh.accumulator)
  have hbytes : port.bufferAccumulator.bytesAvailable = 0 := congrArg BufferAccumulator.bytesAvailable hacc
  refine ⟨⟨?_, hroom, ?_⟩, hfresh.buffer, fun f hf => (by cases hf)⟩
  · show Settled heap port.bufferAccumulator.acc
    rw [hacc]
    exact .start heap
  · show port.bufferAccumulator.bytesAvailable < 2 ^ 64
    rw [hbytes]
    decide

theorem Kept.pushLabel (hs : Kept s) (label : Label δ) (hcall : s.call (.pushLabel label) = .ok t) : Kept t := by
  obtain rfl := Except.ok.inj hcall
  refine ⟨hs.stored, hs.buffer, fun f hf => ?_⟩
  obtain ⟨havail, hpositions, hqueued⟩ := hs.tracked f hf
  refine ⟨havail, ?_, fun e he => ?_⟩
  · show (s.port.inputInlineMessages ++ [label]).map (·.index) =
      (s.entered ++ [Entry.pushed label.index]).map Entry.position
    rw [List.map_append, List.map_append, hpositions]
    rfl
  · cases List.mem_append.mp he with
    | inl he => exact hqueued e he
    | inr he =>
        obtain rfl := List.mem_singleton.mp he
        trivial

/-- Buffers that arrive leave the labels where they are. -/
theorem Kept.pushBuffer (hs : Kept s) {buffer : BufferChunk} (hadm : s.Admits (.pushBuffer buffer))
    (hcall : s.call (.pushBuffer buffer) = .ok t) : Kept t := by
  obtain ⟨r, heap, reports, hpush, hstored, hle⟩ := pushBuffers_stored hs.stored hadm
  rw [call, InputPort.pushBuffer, hpush] at hcall
  obtain rfl := Except.ok.inj hcall
  refine ⟨hstored, hs.buffer, fun f hf => ?_⟩
  obtain ⟨havail, hpositions, hqueued⟩ := hs.tracked f hf
  exact ⟨havail.trans hle, hpositions, hqueued⟩

/-- Labels that are posted are behind the bytes that are queued. -/
theorem Kept.bufferLabelPush (hs : Kept s) {enableMove : Bool} {postedLabels : List (Label δ)}
    {postedBuffers : List BufferChunk} (hadm : s.Admits (.bufferLabelPush enableMove postedLabels postedBuffers))
    (hcall : s.call (.bufferLabelPush enableMove postedLabels postedBuffers) = .ok t) : Kept t := by
  have hstored : Stored s.heap (s.port.insertLabels postedLabels).bufferAccumulator := hs.stored
  obtain ⟨r, heap, reports, hpush, hstored', hle⟩ := pushBuffers_stored hstored hadm
  rw [call, InputPort.bufferLabelPush, hpush] at hcall
  obtain rfl := Except.ok.inj hcall
  refine ⟨hstored', hs.buffer, fun f hf => ?_⟩
  obtain ⟨havail, hpositions, hqueued⟩ := hs.tracked f hf
  refine ⟨havail.trans hle, ?_, fun e he => ?_⟩
  · show (s.port.inputInlineMessages ++ postedLabels.map _).map Label.index =
      (s.entered ++ postedLabels.map _).map Entry.position
    rw [List.map_append, List.map_append, hpositions, List.map_map, List.map_map]
    rfl
  · cases List.mem_append.mp he with
    | inl he => exact hqueued e he
    | inr he =>
        obtain ⟨l, -, rfl⟩ := List.mem_map.mp he
        exact ⟨havail, hs.stored.count⟩

theorem Kept.require (hs : Kept s) {n : Nat} {fresh : Nat × Nat} (hadm : s.Admits (.require n fresh))
    (hcall : s.call (.require n fresh) = .ok t) : Kept t := by
  obtain ⟨acc, heap, mem, hreq, hgathered⟩ := hs.stored.settled.require s.mem n hadm
  obtain ⟨r, hring, rfl, hroom⟩ :=
    require_ring hs.stored.room (fun hsuff => (hgathered.front hsuff).1) hreq
  have hbytes : r.bytesAvailable = s.port.bufferAccumulator.bytesAvailable := hgathered.available
  rw [call, bufferAccumulatorRequire, hring] at hcall
  obtain rfl := Except.ok.inj hcall
  refine ⟨⟨hgathered.settled, hroom, hbytes ▸ hs.stored.count⟩, hs.buffer, fun f hf => ?_⟩
  obtain ⟨havail, hpositions, hqueued⟩ := hs.tracked f hf
  refine ⟨?_, hpositions, hqueued⟩
  show f ≤ r.bytesAvailable
  rw [hbytes]
  exact havail

/-- Taking the front takes the labels, and the front is queued. -/
theorem Kept.front (hs : Kept s) (hcall : s.call .front = .ok t) : Kept t := by
  obtain ⟨⟨port', buff⟩, hfront, hcall⟩ := bind_ok hcall
  obtain ⟨labels, -, hfront⟩ := bind_ok hfront
  obtain ⟨rfl, rfl⟩ := Prod.mk.inj (Except.ok.inj hfront)
  obtain rfl := Except.ok.inj hcall
  refine ⟨hs.stored, hs.buffer, fun f hf => ?_⟩
  obtain rfl := Option.some.inj hf
  exact ⟨hs.stored.settled.front_le, rfl, fun e he => (by cases he)⟩

theorem Kept.postWork (hs : Kept s) {pendingElements : UInt64}
    (hcall : s.call (.postWork pendingElements) = .ok t) : Kept t := by
  obtain ⟨⟨port', posted⟩, hwork, hcall⟩ := bind_ok hcall
  obtain rfl := Except.ok.inj hcall
  have hstored : Stored s.heap ({ s.port with pendingElements := pendingElements }).bufferAccumulator := hs.stored
  obtain ⟨hstored', hnull⟩ := postWork_stored hstored hs.buffer hwork
  exact ⟨hstored', hnull, fun f hf => (by cases hf)⟩

theorem Kept.step {e : IntakeEvent δ} (hs : Kept s) (hstep : s.step e = some t) : Kept t := by
  obtain ⟨hadm, hcall⟩ := step_inv hstep
  cases e with
  | pushLabel label => exact hs.pushLabel label hcall
  | pushBuffer buffer => exact hs.pushBuffer hadm hcall
  | bufferLabelPush enableMove postedLabels postedBuffers => exact hs.bufferLabelPush hadm hcall
  | require n fresh => exact hs.require hadm hcall
  | front => exact hs.front hcall
  | postWork pendingElements => exact hs.postWork hcall
  | other heap mem =>
      obtain rfl := Except.ok.inj hcall
      refine ⟨⟨hs.stored.settled.other hadm.1 hadm.2, hs.stored.room, hs.stored.count⟩, hs.buffer, fun f hf => ?_⟩
      obtain ⟨havail, hpositions, hqueued⟩ := hs.tracked f hf
      exact ⟨havail, hpositions, hqueued⟩

theorem Kept.run {heap : Heap} {mem : Memory} {es : List (IntakeEvent δ)} (hfresh : Fresh port)
    (hrun : Exec (ofPartial Intake.step) (.start port heap mem) es s) : Kept s :=
  hrun.invariant (fun _ _ _ ht hstep => ht.step hstep) (.start hfresh heap mem)

/-! ### Which subtractions wrap -/

theorem sub_toNat_iff (a b : UInt64) : (a - b).toNat + b.toNat = a.toNat ↔ b.toNat ≤ a.toNat := by
  have ha := a.toNat_lt
  have hb := b.toNat_lt
  rw [UInt64.toNat_sub]
  omega

/-- A label is behind the consumed bytes just if its place in the queue is. -/
theorem behind_iff {offered n : Nat} {e : Entry} (he : Queued offered e) :
    e.Behind offered n ↔ n ≤ e.position.toNat := by
  cases e with
  | pushed index => rfl
  | posted queued index =>
      obtain ⟨hle, hlt⟩ := he
      have hindex := index.toNat_lt
      have hposition : (Entry.posted queued index).position.toNat = (queued + index.toNat) % 2 ^ 64 := by
        rw [Entry.position, UInt64.toNat_add, UInt64.toNat_ofNat', Nat.mod_eq_of_lt hlt, Nat.add_comm]
      rw [hposition, Entry.Behind]
      by_cases hwrap : queued + index.toNat < 2 ^ 64
      · rw [if_pos hwrap, Nat.mod_eq_of_lt hwrap]
        -- what was offered was queued already
        constructor
        · intro hover
          by_cases hn : n ≤ offered
          · exact (hn.trans hle).trans (Nat.le_add_right _ _)
          · exact hover (Nat.lt_of_not_le hn)
        · intro hn _
          exact hn
      · rw [if_neg hwrap]
        omega

theorem Tracked.wraps_iff {f : Nat} (ht : s.Tracked f) (n : UInt64) :
    s.port.Subtracts n ↔
      (n.toNat ≤ s.port.bufferAccumulator.bytesAvailable → ∀ e ∈ s.entered, e.Behind f n.toNat) := by
  refine imp_congr_right fun _ => ?_
  calc (∀ l ∈ s.port.inputInlineMessages, (l.index - n).toNat + n.toNat = l.index.toNat)
      ↔ ∀ i ∈ s.port.inputInlineMessages.map (·.index), n.toNat ≤ i.toNat := by
        simp only [sub_toNat_iff, List.forall_mem_map]
    _ ↔ ∀ e ∈ s.entered, n.toNat ≤ e.position.toNat := by
        rw [ht.positions, List.forall_mem_map]
    _ ↔ ∀ e ∈ s.entered, e.Behind f n.toNat :=
        forall₂_congr fun e he => (behind_iff (ht.queued e he)).symm

/-- **The labels that wait**: whatever came between the front of a work call and its pop, no
index wraps if and only if every label that came is behind the consumed bytes. -/
theorem subtracts_iff {heap : Heap} {mem : Memory} {es : List (IntakeEvent δ)} (hfresh : Fresh port)
    (hrun : Exec (ofPartial Intake.step) (.start port heap mem) es s) {f : Nat} (hf : s.offered = some f)
    (n : UInt64) :
    s.port.Subtracts n ↔
      (n.toNat ≤ s.port.bufferAccumulator.bytesAvailable → ∀ e ∈ s.entered, e.Behind f n.toNat) :=
  ((Kept.run hfresh hrun).tracked f hf).wraps_iff n

/-- A port of four byte elements. -/
def fresh : InputPort Unit where
  blockName := "block"
  name := "0"
  portAlias := ""
  dtype := ⟨1, 4, 1⟩
  buffer := .null
  totalElements := 0
  totalLabels := 0
  pendingElements := 0
  workEvents := 0
  inlineMessages := []
  inputInlineMessages := []
  bufferAccumulator := ⟨⟨[.null], 64⟩, 0, false, .make⟩

theorem fresh_fresh : Fresh fresh := ⟨rfl, rfl⟩

/-- Eight bytes are offered, then two labels come, one of them with a buffer that does not
fit the port. -/
def twoLabels : List (IntakeEvent Unit) :=
  [.pushBuffer ⟨100, 8, .unspecified, some 1, 0⟩, .front, .pushLabel ⟨"label", (), 8, 1⟩,
    .bufferLabelPush true [⟨"label", (), 0, 1⟩] [⟨200, 8, ⟨2, 8, 1⟩, some 2, 0⟩]]

/-- Both labels are behind the two elements of the work call. -/
theorem subtracts_iff_two : ∃ s,
    Exec (ofPartial Intake.step) (.start fresh Tally.twoBuffers fun _ => 0) twoLabels s ∧
    s.offered = some 8 ∧ s.entered = [.pushed 8, .posted 8 0] ∧
    (s.port.Subtracts 8 ↔ ((8 : UInt64).toNat ≤ s.port.bufferAccumulator.bytesAvailable →
      ∀ e ∈ s.entered, e.Behind 8 (8 : UInt64).toNat)) := by
  obtain ⟨s, hs, hoffered, hentered⟩ : ∃ s ∈ runPartial Intake.step
      (.start fresh Tally.twoBuffers fun _ => 0) twoLabels,
      s.offered = some 8 ∧ s.entered = [.pushed 8, .posted 8 0] := by
    decide +kernel
  have hexec := exec_of_runPartial hs
  exact ⟨s, hexec, hoffered, hentered, subtracts_iff fresh_fresh hexec hoffered 8⟩

/-- A label at the first element of a buffer, pushed after the buffer, when the buffer has
been offered meanwhile. -/
def lateLabel : List (IntakeEvent Unit) :=
  [.pushBuffer ⟨100, 8, .unspecified, some 1, 0⟩, .front, .pushLabel ⟨"label", (), 0, 1⟩]

/-- When the work call has consumed the buffer, the label is `8` bytes below zero. -/
theorem not_subtracts_late : ∃ s,
    Exec (ofPartial Intake.step) (.start fresh Tally.twoBuffers fun _ => 0) lateLabel s ∧
    ¬ s.port.Subtracts 8 ∧
    (s.step (.postWork 2)).map (fun t => t.port.inputInlineMessages.map (·.index)) =
      some [18446744073709551608] := by
  obtain ⟨s, hs, havail, hlabels, hwork⟩ : ∃ s ∈ runPartial Intake.step
      (.start fresh Tally.twoBuffers fun _ => 0) lateLabel,
      s.port.bufferAccumulator.bytesAvailable = 8 ∧ s.port.inputInlineMessages = [⟨"label", (), 0, 1⟩] ∧
        (s.step (.postWork 2)).map (fun t => t.port.inputInlineMessages.map (·.index)) =
          some [18446744073709551608] := by
    decide +kernel
  refine ⟨s, exec_of_runPartial hs, fun hsub => ?_, hwork⟩
  have hmem : (⟨"label", (), 0, 1⟩ : Label Unit) ∈ s.port.inputInlineMessages := by
    rw [hlabels]
    exact List.mem_singleton.mpr rfl
  have hlabel := hsub (by rw [havail]; decide) _ hmem
  exact absurd hlabel (by decide)

end Intake

end InputPort

end PothosCore.Framework

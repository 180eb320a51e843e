import PothosCore.Framework.AccumulatorTally

/-!
# PothosCore.Framework.InputPortConsume

The input half of `WorkerActor::postWorkTasks`: what happens to the labels, the buffers
and the totals of an input port when `work()` has consumed elements of it.

The labels are shifted first, then `bufferAccumulatorPop` compares the bytes with all the
bytes that are queued, where `pop` takes no more than the front chunk has, and the total
grows in any case. So the only consumption that is right is one of the front chunk
(`consumesOrRejects_iff`).
-/

namespace PothosCore.Framework

open PothosCore.Lib PothosCore.Util

/-- `Label`, its data of any type. -/
structure Label (δ : Type) where
  id : String
  data : δ
  index : UInt64
  width : UInt64
  deriving Repr, DecidableEq

/-- `InputPort`, as far as consumption goes. -/
structure InputPort (δ : Type) where
  blockName : String
  name : String
  portAlias : String
  dtype : DType
  buffer : BufferChunk
  totalElements : UInt64
  totalLabels : Nat
  pendingElements : UInt64
  workEvents : Nat
  inlineMessages : List (Label δ)
  inputInlineMessages : List (Label δ)
  bufferAccumulator : RingAccumulator

namespace InputPort

open BufferAccumulator RingAccumulator

variable {δ : Type}

/-- `alias()` -/
def getAlias (port : InputPort δ) : String := if port.portAlias.isEmpty then port.name else port.portAlias

/-- `consume(numElements)` -/
def consume (port : InputPort δ) (numElements : UInt64) : InputPort δ :=
  { port with pendingElements := port.pendingElements + numElements }

/-- The text of the error report. -/
def overconsumed (port : InputPort δ) (numBytes : UInt64) : String :=
  s!"{port.blockName}[{port.getAlias}] overconsumed {numBytes.toNat} bytes, {port.bufferAccumulator.bytesAvailable} available"

/-- `bufferAccumulatorPop(numBytes)`: the port, the reference steps, and the error that is
reported. -/
def bufferAccumulatorPop (port : InputPort δ) (h : Heap) (numBytes : UInt64) :
    Except Fault (InputPort δ × List RefOp × Option String) :=
  if port.bufferAccumulator.bytesAvailable < numBytes.toNat then
    .ok (port, [], some (port.overconsumed numBytes))
  else do
    let (acc, ops) ← port.bufferAccumulator.pop h numBytes.toNat
    .ok ({ port with
        bufferAccumulator := acc,
        -- adjust enqueued inline messages for new offset
        inputInlineMessages := port.inputInlineMessages.map fun l => { l with index := l.index - numBytes },
        workEvents := port.workEvents + 1 }, ops, none)

/-- Is the label on a consumed element? -/
def Reached (port : InputPort δ) (l : Label δ) : Prop := l.index < port.pendingElements

instance (port : InputPort δ) (l : Label δ) : Decidable (port.Reached l) := by
  unfold Reached; infer_instance

/-- The number of labels on consumed elements. -/
def numLabels (port : InputPort δ) : Nat := port.inlineMessages.countP (port.Reached ·)

/-- Adjust the index of the other labels for the new relative position. -/
def shiftLabels (port : InputPort δ) : List (Label δ) :=
  port.inlineMessages.map fun l =>
    if port.Reached l then l else { l with index := l.index - port.pendingElements }

/-- Shift the labels and delete the old. -/
def postLabels (port : InputPort δ) : InputPort δ :=
  { port with
    inlineMessages := port.shiftLabels.drop port.numLabels,
    totalLabels := port.totalLabels + port.numLabels }

/-- The consumed bytes, as `postWorkTasks` computes them. -/
def pendingBytes (port : InputPort δ) : UInt64 := port.pendingElements * UInt64.ofNat port.dtype.size

/-- What `postWorkTasks` does besides changing the port: the labels it hands to
`propagateLabels`, which leaves the port alone, the reference steps, the error report. -/
structure Posted (δ : Type) where
  propagated : List (Label δ)
  ops : List RefOp
  report : Option String

/-- The input handling of `postWorkTasks`, for one port. -/
def postWork (port : InputPort δ) (h : Heap) : Except Fault (InputPort δ × Posted δ) := do
  let bytes := port.pendingBytes
  let propagated := port.shiftLabels.take port.numLabels
  let port := port.postLabels
  -- pop the consumed bytes from the accumulator
  let (port, ops, report) ←
    if bytes ≠ 0 then port.bufferAccumulatorPop h bytes else .ok (port, [], none)
  .ok ({ port with buffer := .null, totalElements := port.totalElements + port.pendingElements },
    ⟨propagated, ops ++ port.buffer.destroy h, report⟩)

/-! ### What consumption is meant to do -/

/-- The bytes of the consumed elements. -/
def consumedBytes (port : InputPort δ) : Nat := port.pendingElements.toNat * port.dtype.size

/-- Exactly the bytes of the consumed elements are gone, and nothing wrapped. -/
structure Removes (h : Heap) (port port' : InputPort δ) : Prop where
  available : port.bufferAccumulator.bytesAvailable = port.consumedBytes + port'.bufferAccumulator.bytesAvailable
  queue : total port.bufferAccumulator.queue.elems = port.consumedBytes + total port'.bufferAccumulator.queue.elems
  noWrap : NoWrap h port.bufferAccumulator.acc port.pendingBytes.toNat
  totalElements : port'.totalElements = port.totalElements + port.pendingElements

/-- The consumption is reported, and the port is as if there had been none. -/
structure Rejects (port port' : InputPort δ) (report : Option String) : Prop where
  reported : report.isSome = true
  accumulator : port'.bufferAccumulator = port.bufferAccumulator
  labels : (port.inlineMessages.filter (¬ port.Reached ·)).Sublist port'.inlineMessages
  enqueued : port'.inputInlineMessages = port.inputInlineMessages
  totalElements : port'.totalElements = port.totalElements

/-- Does `postWork` do one of the two? -/
def ConsumesOrRejects (port : InputPort δ) (h : Heap) : Prop :=
  ∃ port' posted, port.postWork h = .ok (port', posted) ∧
    (Removes h port port' ∨ Rejects port port' posted.report)

/-! ### What it does -/

variable {port : InputPort δ} {h : Heap}

theorem pendingBytes_toNat (port : InputPort δ) : port.pendingBytes.toNat = port.consumedBytes % 2 ^ 64 := by
  rw [pendingBytes, UInt64.toNat_mul, UInt64.toNat_ofNat', consumedBytes]
  simp

theorem pendingBytes_eq_zero : port.pendingBytes = 0 ↔ port.pendingBytes.toNat = 0 := by
  rw [← UInt64.toNat_inj]
  rfl

theorem pop_available {r r' : RingAccumulator} {n : Nat} {ops : List RefOp} (hp : r.pop h n = .ok (r', ops)) :
    r'.bytesAvailable = r.bytesAvailable - n := by
  rw [RingAccumulator.pop] at hp
  split at hp
  · cases hp
  · split at hp
    · cases hp
    · split at hp
      · cases hp
      · simp only [bind, Except.bind] at hp
        split at hp
        · cases hp
        · split at hp
          · cases hp
          · obtain ⟨rfl, -⟩ := Prod.mk.inj (Except.ok.inj hp)
            rfl

/-- The outcomes of `postWork`: nothing to pop, a report, a pop. -/
theorem postWork_cases {port' : InputPort δ} {posted : Posted δ} (hp : port.postWork h = .ok (port', posted)) :
    port'.totalElements = port.totalElements + port.pendingElements ∧
      ((port.pendingBytes.toNat = 0 ∧ posted.report = none ∧
          port'.bufferAccumulator = port.bufferAccumulator) ∨
        (port.bufferAccumulator.bytesAvailable < port.pendingBytes.toNat ∧
          port'.bufferAccumulator = port.bufferAccumulator) ∨
        ∃ acc ops, port.bufferAccumulator.pop h port.pendingBytes.toNat = .ok (acc, ops) ∧
          posted.report = none ∧ port'.bufferAccumulator = acc) := by
  rw [postWork] at hp
  by_cases hzero : port.pendingBytes = 0
  · rw [if_neg (not_not.mpr hzero)] at hp
    obtain ⟨rfl, rfl⟩ := Prod.mk.inj (Except.ok.inj hp)
    exact ⟨rfl, .inl ⟨pendingBytes_eq_zero.mp hzero, rfl, rfl⟩⟩
  · rw [if_pos hzero, bufferAccumulatorPop] at hp
    by_cases hless : port.bufferAccumulator.bytesAvailable < port.pendingBytes.toNat
    · have hless' : port.postLabels.bufferAccumulator.bytesAvailable < port.pendingBytes.toNat := hless
      rw [if_pos hless'] at hp
      obtain ⟨rfl, rfl⟩ := Prod.mk.inj (Except.ok.inj hp)
      exact ⟨rfl, .inr (.inl ⟨hless, rfl⟩)⟩
    · have hless' : ¬ port.postLabels.bufferAccumulator.bytesAvailable < port.pendingBytes.toNat := hless
      rw [if_neg hless'] at hp
      have hacc : port.postLabels.bufferAccumulator = port.bufferAccumulator := rfl
      rw [hacc] at hp
      cases hpop : port.bufferAccumulator.pop h port.pendingBytes.toNat with
      | error e =>
          rw [hpop] at hp
          cases hp
      | ok popped =>
          rw [hpop] at hp
          obtain ⟨rfl, rfl⟩ := Prod.mk.inj (Except.ok.inj hp)
          exact ⟨rfl, .inr (.inr ⟨popped.1, popped.2, rfl, rfl, rfl⟩)⟩

/-- **An over-consumption that is reported** shifts the labels and moves the total, though
nothing was popped. -/
theorem postWork_overconsumed (hless : port.bufferAccumulator.bytesAvailable < port.pendingBytes.toNat) :
    ∃ port' posted, port.postWork h = .ok (port', posted) ∧ posted.report.isSome = true ∧
      port'.bufferAccumulator = port.bufferAccumulator ∧
      port'.inlineMessages = port.shiftLabels.drop port.numLabels ∧
      port'.totalElements = port.totalElements + port.pendingElements := by
  have hzero : port.pendingBytes ≠ 0 := fun h0 => by
    rw [pendingBytes_eq_zero.mp h0] at hless
    exact Nat.not_lt_zero _ hless
  have hless' : port.postLabels.bufferAccumulator.bytesAvailable < port.pendingBytes.toNat := hless
  rw [postWork, if_pos hzero, bufferAccumulatorPop, if_pos hless']
  exact ⟨_, _, rfl, rfl, rfl, rfl, rfl⟩

/-! ### Accumulators in use -/

/-- A chunk that is pushed starts in its own buffer, and the count of bytes is a `size_t`. -/
def Inside (s : Tally) : Event → Prop
  | .push buffer => Based s.heap buffer ∧ s.ring.bytesAvailable + buffer.length < 2 ^ 64
  | _ => True

instance (s : Tally) : (e : Event) → Decidable (Inside s e)
  | .push buffer => inferInstanceAs (Decidable (Based s.heap buffer ∧ _ < _))
  | .require .. => inferInstanceAs (Decidable True)
  | .pop _ => inferInstanceAs (Decidable True)
  | .other .. => inferInstanceAs (Decidable True)

/-- What a port's accumulator keeps to. -/
structure Housed (s : Tally) : Prop where
  booked : s.Booked
  based : ∀ c ∈ s.ring.queue.elems.tail, Based s.heap c
  count : s.ring.bytesAvailable < 2 ^ 64

theorem Housed.step {s t : Tally} {e : Event} (hs : Housed s) (hstep : s.step e = some t) (hin : Inside s e) :
    Housed t := by
  obtain ⟨hadm, hcall⟩ := Tally.step_inv hstep
  obtain ⟨t', ht', hbooked, hdelivers⟩ := hs.booked.call hadm
  obtain rfl : t' = t := Except.ok.inj (ht'.symm.trans hcall)
  cases e with
  | push buffer =>
      obtain ⟨hsome, hlinked, howned⟩ := hadm
      obtain ⟨acc', ops, hp, -, havail⟩ := hs.booked.settled.push hsome hlinked howned
      obtain ⟨ring', hring, rfl, -⟩ := push_ring hs.booked.room hp
      simp only [Tally.call, hring, bind, Except.bind] at hcall
      obtain rfl := Except.ok.inj hcall
      refine ⟨hbooked, fun c hc => ?_, ?_⟩
      · have hbased := push_based hsome hlinked hin.1 hs.based hp c hc
        rw [Based, getBuffer_apply]
        exact hbased
      · show ring'.acc.bytesAvailable < 2 ^ 64
        rw [havail]
        exact hin.2
  | require n fresh =>
      obtain ⟨acc', h', mem', hreq, hgathered⟩ := hs.booked.settled.require s.mem n hadm
      obtain ⟨ring', hring, rfl, -⟩ := require_ring hs.booked.room (fun hsuff => (hgathered.front hsuff).1) hreq
      simp only [Tally.call, hring, bind, Except.bind] at hcall
      obtain rfl := Except.ok.inj hcall
      refine ⟨hbooked, hgathered.based hs.based, ?_⟩
      show ring'.acc.bytesAvailable < 2 ^ 64
      rw [hgathered.available]
      exact hs.count
  | pop n =>
      obtain ⟨acc', ops, hp, -, havail⟩ := hs.booked.settled.pop hadm
      obtain ⟨ring', hring, rfl, -⟩ := pop_ring hs.booked.room hp
      simp only [Tally.call, hring, bind, Except.bind] at hcall
      obtain rfl := Except.ok.inj hcall
      refine ⟨hbooked, fun c hc => ?_, ?_⟩
      · rw [Based, getBuffer_apply]
        exact hs.based c ((pop_shape hs.booked.settled.queue hp).2 c hc)
      · show ring'.acc.bytesAvailable < 2 ^ 64
        rw [havail]
        exact (Nat.sub_le _ _).trans_lt hs.count
  | other heap mem =>
      obtain rfl := Except.ok.inj hcall
      refine ⟨hbooked, fun c hc => ?_, hs.count⟩
      have hagree : Agree s.heap heap (refs s.heap s.ring.queue.elems) :=
        fun mb hmb => hadm.1 mb (List.mem_append_left _ hmb)
      rw [Based, hagree.getBuffer c (List.mem_of_mem_tail hc)]
      exact hs.based c hc

theorem Housed.run {ring : RingAccumulator} {heap : Heap} {mem : Memory} {es : List Event} {s : Tally}
    (hmake : RingAccumulator.make = .ok ring)
    (hrun : Exec (restrict (ofPartial Tally.step) Inside) (.start ring heap mem) es s) : Housed s := by
  refine hrun.invariant (fun t e u ht hstep => ht.step hstep.1 hstep.2) ?_
  have hbooked := Tally.Booked.start heap mem hmake
  obtain ⟨ring', hmake', hacc, -⟩ := make_ring
  obtain rfl : ring' = ring := Except.ok.inj (hmake'.symm.trans hmake)
  have hqueue : ring'.queue.elems = [.null] := congrArg BufferAccumulator.queue hacc
  have hbytes : ring'.bytesAvailable = 0 := congrArg BufferAccumulator.bytesAvailable hacc
  refine ⟨hbooked, fun c hc => ?_, ?_⟩
  · have hc : c ∈ ring'.queue.elems.tail := hc
    rw [hqueue] at hc
    cases hc
  · show ring'.bytesAvailable < 2 ^ 64
    rw [hbytes]
    decide

/-! ### When consumption does what it is meant to -/

/-- A consumption of the front chunk is removed. -/
theorem removes_of_le {s : Tally} (hs : Housed s) (hacc : port.bufferAccumulator = s.ring)
    (hle : port.consumedBytes ≤ s.ring.acc.front.length) : port.ConsumesOrRejects s.heap := by
  have hsmall : port.consumedBytes < 2 ^ 64 :=
    (hle.trans hs.booked.settled.front_le).trans_lt hs.count
  have hbytes : port.pendingBytes.toNat = port.consumedBytes := by
    rw [pendingBytes_toNat, Nat.mod_eq_of_lt hsmall]
  have hwrap : NoWrap s.heap port.bufferAccumulator.acc port.pendingBytes.toNat := by
    rw [hbytes, hacc]
    exact hs.booked.settled.noWrap hs.based hle
  by_cases hzero : port.pendingBytes = 0
  · have hnone : port.consumedBytes = 0 := hbytes ▸ pendingBytes_eq_zero.mp hzero
    rw [ConsumesOrRejects, postWork, if_neg (not_not.mpr hzero)]
    refine ⟨_, _, rfl, .inl ⟨?_, ?_, hwrap, rfl⟩⟩
    · rw [hnone]
      exact (Nat.zero_add _).symm
    · rw [hnone]
      exact (Nat.zero_add _).symm
  · obtain ⟨acc', ops, hp, hsettled, havail⟩ := hs.booked.settled.pop hle
    obtain ⟨ring', hring, rfl, -⟩ := pop_ring hs.booked.room hp
    have hless : ¬ port.postLabels.bufferAccumulator.bytesAvailable < port.pendingBytes.toNat :=
      Nat.not_lt.mpr hwrap.count
    have hring' : port.postLabels.bufferAccumulator.pop s.heap port.pendingBytes.toNat = .ok (ring', ops) := by
      rw [hbytes, ← hring, ← hacc]
      rfl
    rw [ConsumesOrRejects, postWork, if_pos hzero, bufferAccumulatorPop, if_neg hless, hring']
    have havail' : port.bufferAccumulator.bytesAvailable = port.consumedBytes + ring'.bytesAvailable := by
      have havail : ring'.bytesAvailable = s.ring.bytesAvailable - port.consumedBytes := havail
      have hcount : port.pendingBytes.toNat ≤ port.bufferAccumulator.bytesAvailable := hwrap.count
      rw [hbytes] at hcount
      rw [hacc] at hcount ⊢
      omega
    refine ⟨_, _, rfl, .inl ⟨havail', ?_, hwrap, rfl⟩⟩
    rw [hacc]
    exact pop_total hp

/-- **Over-consumption**: every call consumes exactly the elements it says, or rejects
them without damage, if and only if no more than the front chunk is consumed. -/
theorem consumesOrRejects_iff {ring : RingAccumulator} {heap : Heap} {mem : Memory} {es : List Event} {s : Tally}
    (hmake : RingAccumulator.make = .ok ring)
    (hrun : Exec (restrict (ofPartial Tally.step) Inside) (.start ring heap mem) es s)
    (hacc : port.bufferAccumulator = s.ring) :
    port.ConsumesOrRejects s.heap ↔ port.consumedBytes ≤ port.bufferAccumulator.acc.front.length := by
  have hs := Housed.run hmake hrun
  constructor
  · intro hport
    obtain ⟨port', posted, hp, hok⟩ := hport
    obtain ⟨htotal, hcases⟩ := postWork_cases hp
    cases hok with
    | inl hremoves =>
        have havail := hremoves.available
        obtain ⟨-, -, hsame⟩ | ⟨-, hsame⟩ | ⟨acc, ops, hpop, -, hsame⟩ := hcases
        · rw [hsame] at havail
          omega
        · rw [hsame] at havail
          omega
        · -- the bytes that were popped are those of the elements
          have hcount := hremoves.noWrap.count
          have hlength := hremoves.noWrap.length
          have hless := pop_available hpop
          have hcount : port.pendingBytes.toNat ≤ port.bufferAccumulator.bytesAvailable := hcount
          rw [hsame] at havail
          omega
    | inr hrejects =>
        obtain ⟨-, hreport, -⟩ | ⟨hless, -⟩ | ⟨acc, ops, -, hreport, -⟩ := hcases
        · rw [hreport] at hrejects
          cases hrejects.reported
        · -- the total moves by a number of elements that is not zero
          have hnone : port.pendingElements = 0 := by
            have hstays := htotal.symm.trans hrejects.totalElements
            simpa using hstays
          have hzero : port.pendingBytes.toNat = 0 := by
            rw [pendingBytes, hnone, UInt64.zero_mul]
            rfl
          omega
        · rw [hreport] at hrejects
          cases hrejects.reported
  · intro hle
    rw [hacc] at hle
    exact removes_of_le hs hacc hle

/-- A port of four byte elements with a label on the seventh, for an accumulator. -/
def labelled (ring : RingAccumulator) (pendingElements : UInt64) : InputPort Unit where
  blockName := "block"
  name := "0"
  portAlias := ""
  dtype := ⟨1, 4, 1⟩
  buffer := .null
  totalElements := 0
  totalLabels := 0
  pendingElements := pendingElements
  workEvents := 0
  inlineMessages := [⟨"label", (), 6, 1⟩]
  inputInlineMessages := []
  bufferAccumulator := ring

/-- Two chunks of eight bytes in different buffers. -/
def twoChunks : List Event :=
  [.push ⟨100, 8, .unspecified, some 1, 0⟩, .push ⟨200, 8, .unspecified, some 2, 0⟩]

/-- Two elements of the front chunk are consumed. -/
theorem consumesOrRejects_iff_front : ∃ ring s, RingAccumulator.make = .ok ring ∧
    Exec (restrict (ofPartial Tally.step) Inside) (.start ring Tally.twoBuffers fun _ => 0) twoChunks s ∧
    ((labelled s.ring 2).ConsumesOrRejects s.heap ↔
      (labelled s.ring 2).consumedBytes ≤ (labelled s.ring 2).bufferAccumulator.acc.front.length) ∧
    (labelled s.ring 2).consumedBytes ≤ (labelled s.ring 2).bufferAccumulator.acc.front.length := by
  obtain ⟨s, hs, hval⟩ : ∃ s ∈ runPartial (guarded Tally.step Inside)
      (.start ⟨⟨[.null], 64⟩, 0, false, .make⟩ Tally.twoBuffers fun _ => 0) twoChunks,
      (labelled s.ring 2).consumedBytes ≤ (labelled s.ring 2).bufferAccumulator.acc.front.length := by
    decide +kernel
  have hexec := exec_of_runPartial hs
  rw [ofPartial_guarded] at hexec
  exact ⟨_, s, rfl, hexec, consumesOrRejects_iff rfl hexec rfl, hval⟩

/-- Three elements are more than the front chunk and `pop` does not take them; five are more
than there are, they are reported, and then the label is shifted and the total is five. -/
theorem not_consumesOrRejects : ∃ ring s, RingAccumulator.make = .ok ring ∧
    Exec (restrict (ofPartial Tally.step) Inside) (.start ring Tally.twoBuffers fun _ => 0) twoChunks s ∧
    (¬ (labelled s.ring 3).ConsumesOrRejects s.heap) ∧
    ((labelled s.ring 5).postWork s.heap).toOption.map
        (fun r => (r.2.report, r.1.totalElements, r.1.inlineMessages.map (·.index))) =
      some (some "block[0] overconsumed 20 bytes, 16 available", 5, [1]) := by
  obtain ⟨s, hs, hfails, hreports⟩ : ∃ s ∈ runPartial (guarded Tally.step Inside)
      (.start ⟨⟨[.null], 64⟩, 0, false, .make⟩ Tally.twoBuffers fun _ => 0) twoChunks,
      ((labelled s.ring 3).postWork s.heap).toOption.isNone = true ∧
        ((labelled s.ring 5).postWork s.heap).toOption.map
            (fun r => (r.2.report, r.1.totalElements, r.1.inlineMessages.map (·.index))) =
          some (some "block[0] overconsumed 20 bytes, 16 available", 5, [1]) := by
    decide +kernel
  have hexec := exec_of_runPartial hs
  rw [ofPartial_guarded] at hexec
  refine ⟨_, s, rfl, hexec, fun hport => ?_, hreports⟩
  obtain ⟨port', posted, hp, -⟩ := hport
  rw [hp] at hfails
  cases hfails

end InputPort

end PothosCore.Framework

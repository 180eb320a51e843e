import PothosCore.Framework.BufferConvert
import PothosCore.Framework.CountedManager
import PothosCore.Lib.Transition

/-!
# PothosCore.Framework.OutputPort

An output port, its buffer manager, and whoever refers to the manager's buffers.

A call of the manager runs under `_bufferManagerLock`. Its reference steps are done one by
one, and others drop their references in between; the lock is held while some are left. A
buffer whose last reference is dropped without the lock is pushed back later, by the
thread that dropped it, when the lock is free. If it is dropped under the lock, `cleanup`
takes the lock again.

The worker's own references are those of `_buffer`, of the posted buffers, and what its
block and its input ports keep. Everyone else is downstream.

Amounts are of 64 bits: a product of elements and their size is what the machine computes.
Where the walk to the next buffers of a copy does not end, there is no step.
-/

namespace PothosCore.Framework

open PothosCore.Lib

/-- `OutputPort`. -/
structure OutputPort (M : Type) where
  dtype : DType
  bufferManager : M
  buffer : BufferChunk
  bufferFromManager : Bool
  elements : Nat
  pendingElements : Nat
  reserveElements : Nat
  workEvents : Nat
  postedBuffers : List BufferChunk
  /-- `_readBeforeWritePort` is set, and its elements have the size of these. -/
  readBeforeWrite : Bool

/-- What the worker does next. -/
inductive Phase
  /-- `preWorkTasks`. -/
  | idle
  /-- `preWorkTasks`, with the front of the read-before-write port in `_buffer`. -/
  | borrowed
  /-- A call of `work`, or `postWorkTasks`. -/
  | work
  /-- The reserve logic of `postWorkTasks`, with the front in a local. -/
  | reserve (buffer : BufferChunk)
  /-- Post `_buffer` when something was produced, and send what was posted. -/
  | send (produced : Bool)
  deriving DecidableEq

/-- The local of the reserve logic. -/
def Phase.reserved : Phase → Option BufferChunk
  | .reserve buffer => some buffer
  | _ => none

/-- A port and its surroundings. -/
structure PortSystem (M : Type) where
  heap : Heap
  port : OutputPort M
  /-- The buffers of the manager are `first`, …, `first + numBuffers - 1`. -/
  first : Nat
  numBuffers : Nat
  phase : Phase
  /-- The steps that are left under `_bufferManagerLock`. -/
  locked : List RefOp
  /-- The references of the block and of its input ports. -/
  kept : List ManagedBuffer
  downstream : List ManagedBuffer
  /-- The buffers in `cleanup`, on their way to `bufferManagerPush`. -/
  returning : List ManagedBuffer
  /-- A step under the lock has dropped a last reference. -/
  reentered : Bool

/-- The buffers and slabs of `h'`, with the counters of `h`. -/
def Heap.relink (h h' : Heap) : Heap :=
  { h with impl := fun mb => { h'.impl mb with counter := (h.impl mb).counter } }

namespace PortSystem

variable {M : Type} [CountedManager M]

/-- A port of which `bufferManagerSetup(manager)` was called. The manager is assigned and
gets its callback; this moves no references of its buffers. -/
def bufferManagerSetup (manager : M) (heap : Heap) (first numBuffers : Nat) (dtype : DType)
    (readBeforeWrite : Bool) : PortSystem M where
  heap := heap
  port := ⟨dtype, manager, .null, false, 0, 0, 0, 0, [], readBeforeWrite⟩
  first := first
  numBuffers := numBuffers
  phase := .idle
  locked := []
  kept := []
  downstream := []
  returning := []
  reentered := false

/-- The buffers of the port's manager. -/
def Owns (s : PortSystem M) (mb : ManagedBuffer) : Prop := s.first ≤ mb ∧ mb < s.first + s.numBuffers

instance (s : PortSystem M) (mb : ManagedBuffer) : Decidable (s.Owns mb) := by
  unfold Owns; infer_instance

/-- The buffer of the manager whose last reference this step drops. -/
def cleanup (s : PortSystem M) : RefOp → Option ManagedBuffer
  | .incr _ => none
  | .decr mb => if (s.heap.impl mb).counter = 1 ∧ s.Owns mb then some mb else none

/-- A step without the lock. -/
def unlocked (s : PortSystem M) (op : RefOp) : PortSystem M :=
  { s with heap := s.heap.applyOp op, returning := s.returning ++ (s.cleanup op).toList }

/-- The next step under the lock. -/
def lockedStep (s : PortSystem M) : Option (PortSystem M) :=
  match s.locked with
  | [] => none
  | op :: ops =>
      some { s with
        heap := s.heap.applyOp op
        locked := ops
        reentered := (s.cleanup op).isSome }

/-! ### The calls of the port -/

/-- `bufferManagerPop(numBytes)`. -/
def bufferManagerPop (s : PortSystem M) (numBytes : Nat) : Option (PortSystem M) :=
  match CountedManager.popT s.port.bufferManager s.heap numBytes with
  | .error _ => none
  | .ok (manager, heap) =>
      some { s with
        heap := s.heap.relink heap
        port := { s.port with bufferManager := manager }
        locked := CountedManager.popOps s.port.bufferManager s.heap numBytes }

/-- `bufferManagerFront(_buffer)`. -/
def bufferManagerFront (s : PortSystem M) : Option (PortSystem M) := do
  let front ← (NextBuffers.copy s.heap (BufferManager.front s.port.bufferManager)).toOption
  some { s with
    port := { s.port with buffer := front, bufferFromManager := true }
    locked := s.port.buffer.destroy s.heap ++ front.acquire s.heap }

/-- `_buffer.clear()`. -/
def clearBuffer (s : PortSystem M) : PortSystem M :=
  (s.port.buffer.destroy s.heap).foldl unlocked
    { s with port := { s.port with buffer := .null } }

/-- `popElements(numElements)`. -/
def popElements (s : PortSystem M) (numElements : Nat) : Option (PortSystem M) :=
  (s.bufferManagerPop (SizeT.mul numElements s.port.dtype.sizeT)).map fun s =>
    { s with port := { s.port with workEvents := s.port.workEvents + 1 } }

/-- `getBuffer(dtype, numElements)`; the block keeps the buffer. -/
def getBuffer (s : PortSystem M) (dtype : DType) (numElements : Nat) : Option (PortSystem M) :=
  let numBytes := SizeT.mul numElements dtype.sizeT
  -- use the front buffer if possible
  if numBytes ≤ s.port.buffer.length then
    let s' := { s with
      port := { s.port with buffer := { BufferChunk.null with dtype := s.port.buffer.dtype } }
      kept := s.port.buffer.handles s.heap ++ s.kept }
    if s.port.bufferFromManager then s'.bufferManagerPop numBytes else some s'
  -- otherwise use the internal pool, whose buffers are not the manager's
  else some s

/-- `postBuffer(buffer)`, of a buffer that the block keeps; `buffer` is the copy. -/
def postBuffer (s : PortSystem M) (buffer : BufferChunk) : PortSystem M :=
  let posted := if buffer.dtype.isSpecified then buffer else { buffer with dtype := s.port.dtype }
  (buffer.acquire s.heap).foldl unlocked
    { s with port := { s.port with
        postedBuffers := s.port.postedBuffers ++ [posted]
        workEvents := s.port.workEvents + 1 } }

/-! ### The tasks of the worker -/

/-- The buffer provided to the port. -/
def provide (s : PortSystem M) : Option (PortSystem M) :=
  if s.port.readBeforeWrite ∧ s.heap.useCount s.port.buffer.managedBuffer = 2 ∧
      s.port.buffer.getEnd % 2 ^ 64 ≤ (s.port.buffer.getBuffer s.heap).getEnd % 2 ^ 64 then
    some { s with port := { s.port with bufferFromManager := false } }
  else if BufferManager.empty s.port.bufferManager then
    let s' := s.clearBuffer
    some { s' with port := { s'.port with bufferFromManager := false } }
  else s.bufferManagerFront

/-- `preWorkTasks`, of this port; `proceeds` says whether the others let the block work. -/
def preWork (s : PortSystem M) (proceeds : Bool) : Option (PortSystem M) :=
  s.provide.map fun s' =>
    let buffer := { s'.port.buffer with dtype := s'.port.dtype }
    { s' with
      port := { s'.port with
        buffer := buffer
        elements := buffer.elements
        pendingElements := if buffer.elements = 0 then s'.port.pendingElements else 0
        workEvents := 0 }
      phase := if buffer.elements = 0 ∨ ¬ proceeds then .idle else .work }

/-- The number of bytes that `postWorkTasks` posts of `_buffer`. -/
def pendingBytes (s : PortSystem M) : Nat := SizeT.mul s.port.pendingElements s.port.buffer.dtype.sizeT

/-- What `postWorkTasks` pops for the produced bytes. -/
def producedPop (s : PortSystem M) (pendingBytes : Nat) : Option Nat :=
  let port := s.port
  if port.bufferFromManager then
    let available := (port.buffer.getBuffer s.heap).length
    -- overproduced
    if available < pendingBytes then none
    -- the remainder does not meet the reserve
    else if port.reserveElements ≠ 0 ∧ port.buffer.getAlias s.heap = 0 ∧
        SizeT.sub port.elements port.pendingElements < port.reserveElements then
      some available
    else some pendingBytes
  else none

/-- `postWorkTasks`, up to the pop. -/
def postWork (s : PortSystem M) : Option (PortSystem M) :=
  let port := s.port
  if s.pendingBytes ≠ 0 then
    let s' := { s with
      port := { port with buffer := { port.buffer with length := s.pendingBytes } }
      phase := .send true }
    match s.producedPop s.pendingBytes with
    | some numBytes => s'.bufferManagerPop numBytes
    | none => some s'
  else if port.workEvents ≠ 0 ∧ port.reserveElements ≠ 0 ∧ port.buffer.getAlias s.heap = 0 then do
    let buffer ← (NextBuffers.copy s.heap (BufferManager.front port.bufferManager)).toOption
    some { s with
      locked := buffer.acquire s.heap
      kept := buffer.handles s.heap ++ s.kept
      phase := .reserve buffer }
  else some { s with phase := .send false }

/-- The rest of the reserve logic. -/
def postReserve (s : PortSystem M) (buffer : BufferChunk) : Option (PortSystem M) :=
  let s' := { s with phase := .send false }
  if buffer.length ≠ 0 ∧ buffer.length < SizeT.mul s.port.reserveElements s.port.dtype.sizeT then
    s'.bufferManagerPop buffer.length
  else some s'

/-- `port.postBuffer(std::move(buffer))`, `_buffer.clear()`, and the posted buffers go to
the subscribers. -/
def send (s : PortSystem M) (produced : Bool) : PortSystem M :=
  let s₁ :=
    if produced then
      { s with port := { s.port with
          buffer := { BufferChunk.null with dtype := s.port.buffer.dtype }
          postedBuffers := s.port.postedBuffers ++ [s.port.buffer] } }
    else s
  let s₂ := s₁.clearBuffer
  { s₂ with
    port := { s₂.port with postedBuffers := [] }
    downstream := BufferAccumulator.refs s₂.heap s₂.port.postedBuffers ++ s₂.downstream
    phase := .idle }

/-! ### The steps -/

/-- Who does what. -/
inductive Action
  /-- `_readBeforeWritePort->bufferAccumulatorFront(_buffer)`. -/
  | readBeforeWrite (buffer : BufferChunk)
  | preWork (proceeds : Bool)
  | popElements (numElements : Nat)
  | getBuffer (dtype : DType) (numElements : Nat)
  | produce (numElements : Nat)
  | postBuffer (buffer : BufferChunk)
  | setReserve (numElements : Nat)
  | postWork
  | postReserve
  | send
  /-- The thread that has the lock goes on. -/
  | locked
  /-- The block or an input port drops a reference, or hands it on. -/
  | release (mb : ManagedBuffer)
  | give (mb : ManagedBuffer)
  /-- An input port gets a buffer. -/
  | receive (mb : ManagedBuffer)
  /-- Another chunk refers to a buffer. -/
  | share (mb : ManagedBuffer)
  | drop (mb : ManagedBuffer)
  /-- `bufferManagerPush`. -/
  | push (mb : ManagedBuffer)

/-- The worker is at this point, and nobody has the lock. -/
def At (s : PortSystem M) (phase : Phase) : Prop := s.locked = [] ∧ s.phase = phase

instance (s : PortSystem M) (phase : Phase) : Decidable (s.At phase) := by
  unfold At; infer_instance

/-- One step, unless a thread has waited for itself. -/
def step (s : PortSystem M) (a : Action) : Option (PortSystem M) :=
  if s.reentered then none
  else
    match a with
    | .readBeforeWrite buffer => do
        let copy ← (NextBuffers.copy s.heap buffer).toOption
        if s.At .idle ∧ s.port.readBeforeWrite ∧ ∀ mb ∈ copy.handles s.heap, mb ∈ s.kept then
          some ((s.port.buffer.destroy s.heap ++ copy.acquire s.heap).foldl unlocked
            { s with port := { s.port with buffer := copy }, phase := .borrowed })
        else none
    | .preWork proceeds =>
        if s.At (if s.port.readBeforeWrite then .borrowed else .idle) then s.preWork proceeds else none
    | .popElements numElements => if s.At .work then s.popElements numElements else none
    | .getBuffer dtype numElements => if s.At .work then s.getBuffer dtype numElements else none
    | .produce numElements =>
        if s.At .work then
          some { s with port := { s.port with
            pendingElements := SizeT.add s.port.pendingElements numElements } }
        else none
    | .postBuffer buffer => do
        let copy ← (NextBuffers.copy s.heap buffer).toOption
        if s.At .work ∧ ∀ mb ∈ copy.handles s.heap, mb ∈ s.kept then some (s.postBuffer copy) else none
    | .setReserve numElements =>
        if s.At .work then
          some { s with port := { s.port with
            reserveElements := numElements
            workEvents := s.port.workEvents + (if s.port.reserveElements < numElements then 1 else 0) } }
        else none
    | .postWork => if s.At .work then s.postWork else none
    | .postReserve =>
        match s.phase with
        | .reserve buffer => if s.locked = [] then s.postReserve buffer else none
        | _ => none
    | .send =>
        match s.phase with
        | .send produced => if s.locked = [] then some (s.send produced) else none
        | _ => none
    | .locked => s.lockedStep
    | .release mb =>
        if s.locked = [] ∧ s.phase ≠ .borrowed ∧ mb ∈ s.kept then
          some ({ s with kept := s.kept.erase mb }.unlocked (.decr mb))
        else none
    | .give mb =>
        if s.locked = [] ∧ s.phase ≠ .borrowed ∧ mb ∈ s.kept then
          some { s with kept := s.kept.erase mb, downstream := mb :: s.downstream }
        else none
    | .receive mb =>
        if mb ∈ s.downstream then
          some { s with kept := mb :: s.kept, downstream := s.downstream.erase mb }
        else none
    | .share mb =>
        if 0 < (s.heap.impl mb).counter then
          some ({ s with downstream := mb :: s.downstream }.unlocked (.incr mb))
        else none
    | .drop mb =>
        if mb ∈ s.downstream then some ({ s with downstream := s.downstream.erase mb }.unlocked (.decr mb))
        else none
    | .push mb =>
        if s.locked = [] ∧ mb ∈ s.returning then
          match BufferManager.push s.port.bufferManager s.heap mb with
          | .error _ => none
          | .ok (manager, heap) =>
              some { s with
                heap := (s.heap.relink heap).applyOp (.incr mb)
                port := { s.port with bufferManager := manager }
                locked := (CountedManager.pushOps s.port.bufferManager s.heap mb).tail
                returning := s.returning.erase mb }
        else none

end PortSystem

end PothosCore.Framework

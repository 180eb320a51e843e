import PothosCore.Framework.BufferConvert
import PothosCore.Framework.ManagerRotation
import PothosCore.Framework.OutputPort
import PothosCore.Framework.PoolMemory

/-!
# PothosCore.Framework.OutputPortUse

An output port in use: `preWorkTasks` offers a buffer, the block pops, produces and gets
buffers in `work`, `postWorkTasks` posts what was produced, and the buffers of the manager
come back from other threads. Sizes are of 64 bits, as the machine computes them.

The buffers of the manager, those of the port's own pool and those of the input ports are
three sets, each with a heap of its own. The references on the buffers of the manager are
the account of `OutputPortReferences`; what matters here is who may still see which bytes,
so the chunks that `getBuffer` returned are recorded until they are released.
-/

namespace PothosCore.Framework

open PothosCore.Lib

/-- `b` is outside of both mappings of `a`. -/
def SharedBuffer.Clear (a b : SharedBuffer) : Prop :=
  max a.aliasAddress a.address + a.length ≤ b.address ∨ b.getEnd ≤ a.address

instance (a b : SharedBuffer) : Decidable (a.Clear b) := by
  unfold SharedBuffer.Clear; infer_instance

/-- The bytes of a chunk. -/
def BufferChunk.range (c : BufferChunk) : SharedBuffer := ⟨c.address, c.length, 0⟩

/-- Where a chunk that `getBuffer` returned is from. -/
inductive Origin
  /-- The manager's front, that was `_buffer`. -/
  | manager
  /-- The input's buffer, that was `_buffer`. -/
  | input
  | pool
  deriving Repr, DecidableEq

/-- A chunk that `getBuffer` returned, and the memory of its managed buffer. -/
structure Returned where
  chunk : BufferChunk
  memory : SharedBuffer
  origin : Origin
  deriving Repr, DecidableEq

/-- What `postWorkTasks` sends and reports: the overproduced bytes and those that it
takes to be available. -/
structure Posted where
  sent : List BufferChunk
  overproduced : Option (Nat × Nat)
  deriving Repr, DecidableEq

/-- An output port, its manager in use, and its pool. -/
structure PortUse (M : Type) where
  port : OutputPort (Session M)
  /-- `_bufferPool`, and the managed buffers that it made. -/
  pool : BufferPool
  heap : Heap
  /-- The managed buffers of the input ports. -/
  inputs : Heap
  /-- The memory of the manager. -/
  memory : SharedBuffer
  /-- Between `preWorkTasks` and `postWorkTasks`. -/
  working : Bool
  /-- What `preWorkTasks` put into `_buffer`. -/
  offered : BufferChunk
  /-- All that was passed to `produce` since. -/
  produced : Nat
  /-- The chunks that `getBuffer` returned and that were not released, with copies. -/
  held : List Returned

namespace PortUse

variable {M : Type} [PartialManager M]

/-- A port of which `bufferManagerSetup(manager)` was called. -/
def bufferManagerSetup (manager : Session M) (memory : SharedBuffer) (dtype : DType) (readBeforeWrite : Bool)
    (heap inputs : Heap) : PortUse M where
  port := ⟨dtype, manager, .null, false, 0, 0, 0, 0, [], readBeforeWrite⟩
  pool := .make
  heap := heap
  inputs := inputs
  memory := memory
  working := false
  offered := .null
  produced := 0
  held := []

/-- The manager in use. -/
def session (w : PortUse M) : Session M := w.port.bufferManager

/-- The heap of the buffers of the manager, or of the inputs. -/
def heapOf (w : PortUse M) (fromManager : Bool) : Heap := if fromManager then w.session.heap else w.inputs

/-- The heap of the managed buffer of `_buffer`. -/
def bufferHeap (w : PortUse M) : Heap := w.heapOf w.port.bufferFromManager

/-! ### `preWorkTasks` -/

/-- The buffer provided to the port: `input` is the buffer that is read before it is
written, if it may be used. -/
def provide (w : PortUse M) : Option BufferChunk → BufferChunk × Bool
  | some buffer => (buffer, false)
  | none =>
      if BufferManager.empty w.session.mgr then (.null, false)
      else (w.session.front.copy w.session.heap, true)

/-- `preWorkTasks`; without elements the block does not work. -/
def preWork (w : PortUse M) (input : Option BufferChunk) : PortUse M :=
  let (buffer, fromManager) := w.provide input
  let buffer := { buffer with dtype := w.port.dtype }
  { w with
    port := { w.port with
      buffer := buffer
      bufferFromManager := fromManager
      elements := buffer.elements
      pendingElements := if buffer.elements = 0 then w.port.pendingElements else 0
      workEvents := 0 }
    working := buffer.elements ≠ 0
    offered := buffer
    produced := 0 }

/-! ### The calls of the block -/

/-- `bufferManagerPop(numBytes)`. -/
def bufferManagerPop (w : PortUse M) (numBytes : Nat) : Except Fault (PortUse M) := do
  let session ← w.session.pop numBytes
  .ok { w with port := { w.port with bufferManager := session } }

/-- `popElements(numElements)`. -/
def popElements (w : PortUse M) (numElements : Nat) : Except Fault (PortUse M) := do
  let w ← w.bufferManagerPop (SizeT.mul numElements w.port.dtype.sizeT)
  .ok { w with port := { w.port with workEvents := w.port.workEvents + 1 } }

/-- `produce(numElements)`. -/
def produce (w : PortUse M) (numElements : Nat) : PortUse M :=
  { w with
    port := { w.port with pendingElements := SizeT.add w.port.pendingElements numElements }
    produced := w.produced + numElements }

/-- `setReserve(numElements)`. -/
def setReserve (w : PortUse M) (numElements : Nat) : PortUse M :=
  { w with port := { w.port with
      reserveElements := numElements
      workEvents := w.port.workEvents + (if w.port.reserveElements < numElements then 1 else 0) } }

/-- `postBuffer(buffer)`. -/
def postBuffer (w : PortUse M) (buffer : BufferChunk) : PortUse M :=
  let posted := if buffer.dtype.isSpecified then buffer else { buffer with dtype := w.port.dtype }
  { w with port := { w.port with
      postedBuffers := w.port.postedBuffers ++ [posted]
      workEvents := w.port.workEvents + 1 } }

/-- What is taken of `_buffer` is popped from the manager, if it is the manager's. -/
def takeFront (w : PortUse M) (numBytes : Nat) : Except Fault (PortUse M) :=
  if w.port.bufferFromManager then w.bufferManagerPop numBytes else .ok w

/-- `getBuffer(dtype, numElements)`; `fresh` is what the allocator would return. -/
def getBuffer (w : PortUse M) (dtype : DType) (numElements : Nat) (fresh : Nat × Nat) :
    Except Fault (Returned × PortUse M) :=
  let numBytes := SizeT.mul numElements dtype.sizeT
  if numBytes ≤ w.port.buffer.length then do
    -- use the front buffer if possible
    let chunk := { w.port.buffer with length := numBytes }
    let w' ← w.takeFront numBytes
    let out : Returned :=
      ⟨chunk, chunk.getBuffer w'.bufferHeap, if w.port.bufferFromManager then .manager else .input⟩
    .ok (out, { w' with
      port := { w'.port with buffer := { BufferChunk.null with dtype := w.port.buffer.dtype } }
      held := w.held ++ [out] })
  else
    -- otherwise use the internal pool
    let (pool, b, heap) := w.pool.get w.heap fresh numBytes
    let chunk := { b.copy heap with length := numBytes, dtype := dtype }
    let out : Returned := ⟨chunk, chunk.getBuffer heap, .pool⟩
    .ok (out, { w with pool := pool, heap := heap.apply (b.acquire heap), held := w.held ++ [out] })

/-! ### `postWorkTasks` -/

/-- The number of bytes that `postWorkTasks` posts of `_buffer`. -/
def pendingBytes (w : PortUse M) : Nat := SizeT.mul w.port.pendingElements w.port.buffer.dtype.sizeT

/-- The bytes of the managed buffer of `_buffer`, which `postWorkTasks` takes to be available. -/
def available (w : PortUse M) : Nat := (w.port.buffer.getBuffer w.bufferHeap).length

/-- The remainder of a buffer that is not circular does not meet the reserve. -/
def Short (w : PortUse M) : Prop :=
  w.port.reserveElements ≠ 0 ∧ w.port.buffer.getAlias w.bufferHeap = 0 ∧
    SizeT.sub w.port.elements w.port.pendingElements < w.port.reserveElements

instance (w : PortUse M) : Decidable w.Short := by
  unfold Short; infer_instance

/-- What is popped for the produced bytes: nothing when they are reported. -/
def producedPop (w : PortUse M) : Option Nat :=
  if w.port.bufferFromManager then
    if w.available < w.pendingBytes then none
    else if w.Short then some w.available
    else some w.pendingBytes
  else none

/-- The report of too many bytes. -/
def overproduced (w : PortUse M) : Option (Nat × Nat) :=
  if w.port.bufferFromManager ∧ w.available < w.pendingBytes then some (w.pendingBytes, w.available) else none

/-- The reserve logic without production: the front that is there now is too short. -/
def ReservePops (w : PortUse M) : Prop :=
  w.port.workEvents ≠ 0 ∧ w.port.reserveElements ≠ 0 ∧ w.port.buffer.getAlias w.bufferHeap = 0 ∧
    w.session.front.length ≠ 0 ∧
    w.session.front.length < SizeT.mul w.port.reserveElements w.port.dtype.sizeT

instance (w : PortUse M) : Decidable w.ReservePops := by
  unfold ReservePops; infer_instance

/-- The pop for the produced bytes. -/
def popProduced (w : PortUse M) : Except Fault (PortUse M) :=
  match w.producedPop with
  | some numBytes => w.bufferManagerPop numBytes
  | none => .ok w

/-- The pop of the reserve logic. -/
def popReserve (w : PortUse M) : Except Fault (PortUse M) :=
  if w.ReservePops then w.bufferManagerPop w.session.front.length else .ok w

/-- `_buffer.clear()`, and the posted buffers go to the subscribers. -/
def finish (w : PortUse M) : PortUse M :=
  { w with
    port := { w.port with buffer := .null, postedBuffers := [] }
    working := false }

/-- The output handling of `postWorkTasks`. -/
def postWork (w : PortUse M) : Except Fault (Posted × PortUse M) :=
  if w.pendingBytes ≠ 0 then do
    let buffer := { w.port.buffer with length := w.pendingBytes }
    let w' ← w.popProduced
    let w' := w'.postBuffer buffer
    .ok (⟨w'.port.postedBuffers, w.overproduced⟩, w'.finish)
  else do
    let w' ← w.popReserve
    .ok (⟨w'.port.postedBuffers, none⟩, w'.finish)

/-! ### The steps -/

/-- The chunks of the pool that are held. -/
def pooled (held : List Returned) : List BufferChunk :=
  (held.filter (·.origin = .pool)).map (·.chunk)

/-- The buffers of the pool in use. -/
def poolRefs (w : PortUse M) : List ManagedBuffer := w.pool.refs w.heap (pooled w.held)

/-- Memory that is neither the manager's nor in use by the port or a holder. -/
def Room (w : PortUse M) (memory : SharedBuffer) : Prop :=
  w.memory.Clear memory ∧ (∀ r ∈ w.held, r.chunk.range.Apart memory) ∧ w.port.buffer.range.Apart memory

instance (w : PortUse M) (memory : SharedBuffer) : Decidable (w.Room memory) := by
  unfold Room; infer_instance

/-- What the allocator may return for a request of this size. -/
def Allocates (w : PortUse M) (numBytes : Nat) (fresh : Nat × Nat) : Prop :=
  w.pool.Allocates w.heap (pooled w.held) numBytes fresh ∧
    w.Room ⟨fresh.2, (w.pool.grow w.heap numBytes).1.minBuffSize, 0⟩

instance (w : PortUse M) (numBytes : Nat) (fresh : Nat × Nat) : Decidable (w.Allocates numBytes fresh) := by
  unfold Allocates; infer_instance

/-- The buffer of an input may be written to: only the accumulator and this port refer to
it, and it ends inside its own memory, which belongs to neither the manager nor the pool. -/
def Lends (w : PortUse M) (buffer : BufferChunk) : Prop :=
  w.port.readBeforeWrite = true ∧ buffer.isSome = true ∧ buffer.length < 2 ^ 64 ∧
    (buffer.getBuffer w.inputs).address ≤ buffer.address ∧
    buffer.getEnd ≤ (buffer.getBuffer w.inputs).getEnd ∧ w.memory.Clear buffer.range ∧
    (∀ mb ∈ w.poolRefs, (w.heap.impl mb).buffer.Apart buffer.range) ∧
    ∀ r ∈ w.held, r.chunk.range.Apart buffer.range

instance (w : PortUse M) (buffer : BufferChunk) : Decidable (w.Lends buffer) := by
  unfold Lends; infer_instance

/-- The port or a holder refers to this buffer of the manager. -/
def Refers (w : PortUse M) (mb : ManagedBuffer) : Prop :=
  (w.port.bufferFromManager = true ∧ w.port.buffer.managedBuffer = some mb) ∨
    ∃ r ∈ w.held, r.origin = .manager ∧ r.chunk.managedBuffer = some mb

instance (w : PortUse M) (mb : ManagedBuffer) : Decidable (w.Refers mb) := by
  unfold Refers; infer_instance

/-- Who does what. -/
inductive Action
  | preWork (input : Option BufferChunk)
  | popElements (numElements : Nat)
  | produce (numElements : Nat)
  | setReserve (numElements : Nat)
  | postBuffer (buffer : BufferChunk)
  | getBuffer (dtype : DType) (numElements : Nat) (fresh : Nat × Nat)
  | postWork
  /-- A chunk that `getBuffer` returned is copied, or a copy is released. -/
  | share (r : Returned)
  | release (r : Returned)
  /-- Another thread returns a buffer of the manager. -/
  | push (mb : ManagedBuffer)

/-- The references of a copy. -/
def share (w : PortUse M) (r : Returned) : PortUse M :=
  { w with
    heap := if r.origin = .pool then w.heap.apply (r.chunk.acquire w.heap) else w.heap
    held := w.held ++ [r] }

/-- A copy is released. -/
def release (w : PortUse M) (r : Returned) : PortUse M :=
  { w with
    heap := if r.origin = .pool then w.heap.apply (r.chunk.destroy w.heap) else w.heap
    held := w.held.erase r }

/-- What an action does, before anyone asks whether it may happen. -/
def call (w : PortUse M) : Action → Except Fault (PortUse M)
  | .preWork input => .ok (w.preWork input)
  | .popElements numElements => w.popElements numElements
  | .produce numElements => .ok (w.produce numElements)
  | .setReserve numElements => .ok (w.setReserve numElements)
  | .postBuffer buffer => .ok (w.postBuffer buffer)
  | .getBuffer dtype numElements fresh => (w.getBuffer dtype numElements fresh).map (·.2)
  | .postWork => w.postWork.map (·.2)
  | .share r => .ok (w.share r)
  | .release r => .ok (w.release r)
  | .push mb => do
      let (mgr, heap) ← w.session.call (.push mb)
      .ok { w with port := { w.port with bufferManager := w.session.record mgr heap (.push mb) } }

/-- May this action happen? -/
def Admits (w : PortUse M) : Action → Prop
  | .preWork input => w.working = false ∧ ∀ buffer ∈ input, w.Lends buffer
  | .popElements numElements => w.working = true ∧ numElements ≤ w.port.elements
  | .getBuffer dtype numElements fresh =>
      w.working = true ∧ w.Allocates (SizeT.mul numElements dtype.sizeT) fresh
  | .share r => r ∈ w.held
  | .release r => r ∈ w.held
  | .push mb => mb ∈ w.session.out ∧ ¬ w.Refers mb
  | _ => w.working = true

instance (w : PortUse M) (a : Action) : Decidable (w.Admits a) := by
  cases a <;> unfold Admits <;> infer_instance

/-- One admissible action that returns. -/
def step (w : PortUse M) (a : Action) : Option (PortUse M) :=
  if w.Admits a then (w.call a).toOption else none

theorem step_inv {w w' : PortUse M} {a : Action} (h : w.step a = some w') : w.Admits a ∧ w.call a = .ok w' :=
  ok_of_guarded h

end PortUse

end PothosCore.Framework

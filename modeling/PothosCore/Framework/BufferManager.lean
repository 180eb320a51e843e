import PothosCore.Framework.BufferChunk
import PothosCore.Lib.Transition

/-!
# PothosCore.Framework.BufferManager

The buffer manager interface and the way a port uses one: `pop` takes bytes from
the front, `push` gives back a managed buffer that was popped.

A `Session` is a manager under that protocol together with the record of what it
handed out. The record is taken through the interface only: the range a `pop`
takes is the start of the front, a managed buffer is popped when the front moves
on from it, and it is out until it is pushed back.
-/

namespace PothosCore.Framework

open PothosCore.Lib

/-- `BufferManagerArgs`. -/
structure BufferManagerArgs where
  numBuffers : Nat
  bufferSize : Nat
  deriving Repr, DecidableEq

/-- The virtual interface of `BufferManager`. -/
class BufferManager (M : Type) where
  empty : M → Bool
  front : M → BufferChunk
  pop : M → Heap → Nat → Except Fault (M × Heap)
  push : M → Heap → ManagedBuffer → Except Fault (M × Heap)

/-- `setFrontBuffer(buff)`: copy-assign the cached front. -/
def setFrontBuffer (h : Heap) (front buff : BufferChunk) : BufferChunk × Heap :=
  (buff.copy h, h.apply (front.assign h buff))

/-- `setFrontBuffer` of a local chunk: a temporary on a managed buffer, or an
edited copy of the front. The local holds its references during the assignment
and drops them at the end of the block. -/
def setFrontLocal (h : Heap) (front buff : BufferChunk) : BufferChunk × Heap :=
  let h₁ := h.apply (buff.acquire h)
  let (front', h₂) := setFrontBuffer h₁ front buff
  (front', h₂.apply (buff.destroy h₂))

/-- Setting the front to a chunk inside its own buffer makes it the front and
moves nothing but references. -/
theorem setFrontLocal_of_le (h : Heap) (front : BufferChunk) {buff : BufferChunk}
    (hle : buff.getEnd ≤ (buff.getBuffer h).getEnd) (hn : buff.nextBuffers = 0) :
    ∃ ops, setFrontLocal h front buff = (buff, h.apply ops) := by
  have hcopy : buff.copy (h.apply (buff.acquire h)) = buff :=
    BufferChunk.copy_of_le _ _ (by simpa [BufferChunk.getBuffer] using hle) hn
  refine ⟨buff.acquire h ++ (front.assign (h.apply (buff.acquire h)) buff ++
    buff.destroy ((h.apply (buff.acquire h)).apply
      (front.assign (h.apply (buff.acquire h)) buff))), ?_⟩
  simp only [setFrontLocal, setFrontBuffer, hcopy, Heap.apply_append]

/-! ### The protocol -/

/-- A byte range handed out by `pop`. -/
structure Handed where
  mb : ManagedBuffer
  address : Nat
  length : Nat
  deriving Repr, DecidableEq

/-- A manager in use. -/
structure Session (M : Type) where
  heap : Heap
  mgr : M
  /-- Every range handed out so far, oldest first. -/
  log : List Handed
  /-- The ranges whose managed buffer has not been returned since. -/
  live : List Handed
  /-- The managed buffers popped and not yet returned. -/
  out : List ManagedBuffer
  /-- The managed buffers offered as the front so far, oldest first. -/
  offers : List ManagedBuffer

/-- The two calls of the protocol. -/
inductive ManagerOp
  | pop (numBytes : Nat)
  | push (mb : ManagedBuffer)
  deriving Repr, DecidableEq

namespace Session

variable {M : Type} [BufferManager M]

/-- A manager that has handed out nothing yet. -/
def start (heap : Heap) (mgr : M) : Session M :=
  { heap := heap, mgr := mgr, log := [], live := [], out := [],
    offers := (BufferManager.front mgr).managedBuffer.toList }

/-- The front of the manager. -/
def front (s : Session M) : BufferChunk := BufferManager.front s.mgr

/-- The manager's own call, before any bookkeeping. -/
def call (s : Session M) : ManagerOp → Except Fault (M × Heap)
  | .pop numBytes => BufferManager.pop s.mgr s.heap numBytes
  | .push mb => BufferManager.push s.mgr s.heap mb

/-- May the protocol make this call? A pop takes no more than the front has, and
a buffer is pushed back once after it was popped. -/
def Admits (s : Session M) : ManagerOp → Prop
  | .pop numBytes => numBytes ≤ s.front.length
  | .push mb => mb ∈ s.out

instance (s : Session M) (op : ManagerOp) : Decidable (s.Admits op) := by
  cases op <;> unfold Admits <;> infer_instance

/-- The managed buffer newly at the front after a call, if the front moved on. -/
def offered (before after : BufferChunk) : List ManagedBuffer :=
  if after.managedBuffer = before.managedBuffer then [] else after.managedBuffer.toList

/-- The managed buffer that a pop removed, if the front moved on. -/
def retired (before after : BufferChunk) : List ManagedBuffer :=
  if after.managedBuffer = before.managedBuffer then [] else before.managedBuffer.toList

/-- Record a call that left the manager at `mgr'`. -/
def record (s : Session M) (mgr' : M) (heap' : Heap) : ManagerOp → Session M
  | .pop numBytes =>
      let handed := s.front.managedBuffer.toList.map (⟨·, s.front.address, numBytes⟩)
      { heap := heap', mgr := mgr',
        log := s.log ++ handed, live := s.live ++ handed,
        out := s.out ++ retired s.front (BufferManager.front mgr'),
        offers := s.offers ++ offered s.front (BufferManager.front mgr') }
  | .push mb =>
      { heap := heap', mgr := mgr', log := s.log,
        live := s.live.filter (·.mb ≠ mb), out := s.out.erase mb,
        offers := s.offers ++ offered s.front (BufferManager.front mgr') }

/-- One admissible call that returns. -/
def step (s : Session M) (op : ManagerOp) : Option (Session M) :=
  if s.Admits op then
    match s.call op with
    | .ok (mgr', heap') => some (s.record mgr' heap' op)
    | .error _ => none
  else none

/-- A run from a manager's initialisation under the step function `f`; `none`
when the initialisation or a step fails. -/
def run (f : Session M → ManagerOp → Option (Session M))
    (initialised : Except Fault (M × Heap)) (ops : List ManagerOp) : Option (Session M) :=
  match initialised with
  | .ok (mgr, heap) => runPartial f (start heap mgr) ops
  | .error _ => none

/-- What a step is: an admissible call that returned, recorded. -/
theorem step_inv {s s' : Session M} {op : ManagerOp} (h : s.step op = some s') :
    s.Admits op ∧ ∃ mgr' heap', s.call op = .ok (mgr', heap') ∧ s' = s.record mgr' heap' op := by
  unfold step at h
  by_cases hadm : s.Admits op
  · rw [if_pos hadm] at h
    cases hc : s.call op with
    | error e => rw [hc] at h; cases h
    | ok r =>
        obtain ⟨mgr', heap'⟩ := r
        rw [hc] at h
        exact ⟨hadm, mgr', heap', rfl, (Option.some.inj h).symm⟩
  · rw [if_neg hadm] at h; cases h

theorem exec_of_run {f : Session M → ManagerOp → Option (Session M)} {mgr : M} {heap : Heap}
    {initialised : Except Fault (M × Heap)} {ops : List ManagerOp} {s : Session M}
    (hinit : initialised = .ok (mgr, heap)) (h : run f initialised ops = some s) :
    Exec (ofPartial f) (start heap mgr) ops s := by
  subst hinit
  exact exec_of_runPartial h

end Session

end PothosCore.Framework

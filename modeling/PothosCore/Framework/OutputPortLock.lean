import PothosCore.Framework.Builtin.CircularReferences
import PothosCore.Framework.Builtin.GenericReferences
import PothosCore.Framework.OutputPort

/-!
# PothosCore.Framework.OutputPortLock

When the lock of the buffer manager is not taken again by the thread that has it.

The counters account for the references of the manager, of the worker and of everyone
downstream. Those downstream may go at any time, so a step under the lock is safe when the
manager and the worker alone have another reference. The queue and the cached front have
two on the front buffer; a pop that uses it up drops both, and needs one of the worker.
-/

namespace PothosCore.Framework

open PothosCore.Lib

namespace PortSystem

section
variable {M : Type} [CountedManager M]

/-- The references of the worker. -/
def workerRefs (s : PortSystem M) : List ManagedBuffer :=
  s.port.buffer.handles s.heap ++ BufferAccumulator.refs s.heap s.port.postedBuffers ++ s.kept

/-- A pop of this size re-uses the front buffer, or finds a reference of the worker on it. -/
def Holds (s : PortSystem M) (numBytes : Nat) : Prop :=
  CountedManager.reuses s.port.bufferManager numBytes = true ∨
    ∀ mb ∈ (BufferManager.front s.port.bufferManager).managedBuffer, mb ∈ s.workerRefs

instance (s : PortSystem M) (numBytes : Nat) : Decidable (s.Holds numBytes) := by
  unfold Holds; infer_instance

/-- Every pop that the action makes is such a pop. -/
def Holding (s : PortSystem M) : Action → Prop
  | .popElements numElements => s.Holds (SizeT.mul numElements s.port.dtype.sizeT)
  | .getBuffer dtype numElements =>
      SizeT.mul numElements dtype.sizeT ≤ s.port.buffer.length → s.port.bufferFromManager = true →
        s.Holds (SizeT.mul numElements dtype.sizeT)
  | .postWork => s.pendingBytes ≠ 0 → ∀ numBytes ∈ s.producedPop s.pendingBytes, s.Holds numBytes
  | .postReserve => ∀ buffer ∈ s.phase.reserved, s.Holds buffer.length
  | _ => True

instance (s : PortSystem M) (a : Action) : Decidable (s.Holding a) := by
  unfold Holding; split <;> infer_instance

/-! ### The account -/

/-- The references that are dropped by nobody else. -/
def known (s : PortSystem M) (mb : ManagedBuffer) : Int :=
  (CountedManager.refs s.port.bufferManager).count mb + s.workerRefs.count mb

/-- The counters account for all references, with the steps `pending` still to be done. -/
structure Accounted (s : PortSystem M) (pending : List RefOp) : Prop where
  count : ∀ mb, s.Owns mb → (s.heap.impl mb).counter + RefOp.net mb pending + RefOp.net mb s.locked =
    s.known mb + s.downstream.count mb
  nodup : s.returning.Nodup
  returning : ∀ mb ∈ s.returning, s.Owns mb ∧ (s.heap.impl mb).counter = 0 ∧
    ∀ op ∈ pending ++ s.locked, op.target ≠ mb

omit [CountedManager M] in
theorem foldl_unlocked (ops : List RefOp) (s : PortSystem M) :
    ∃ returning, ops.foldl unlocked s = { s with heap := s.heap.apply ops, returning := returning } := by
  induction ops generalizing s with
  | nil => exact ⟨s.returning, rfl⟩
  | cons op ops ih =>
      obtain ⟨returning, h⟩ := ih (s.unlocked op)
      exact ⟨returning, h⟩

theorem handles_links {h h' : Heap} (hl : h.SameLinks h') (c : BufferChunk) : c.handles h' = c.handles h :=
  BufferAccumulator.handles_congr fun m _ => (hl m).2

omit [CountedManager M] in
theorem workerRefs_links {s : PortSystem M} {heap : Heap} (hl : s.heap.SameLinks heap) :
    workerRefs { s with heap := heap } = s.workerRefs := by
  simp only [workerRefs, handles_links hl, BufferAccumulator.refs_congr_heap fun m _ => (hl m).2]

/-- One step without the lock, when all the steps that are left find their references. -/
theorem Accounted.unlocked {s : PortSystem M} {op : RefOp} {pending : List RefOp}
    (ha : s.Accounted (op :: pending))
    (hc : Covered s.Owns 1 (fun mb => (s.heap.impl mb).counter) (op :: (pending ++ s.locked))) :
    (s.unlocked op).Accounted pending := by
  have hcounter : ∀ mb, ((s.heap.applyOp op).impl mb).counter = (s.heap.impl mb).counter + op.delta mb :=
    fun mb => by rw [Heap.applyOp_impl]
  have hknown : (s.unlocked op).known = s.known := by
    funext mb
    have hrefs := workerRefs_links (s := s) (Heap.sameLinks_apply s.heap [op])
    simp only [known]
    rw [show (s.unlocked op).workerRefs = s.workerRefs from hrefs]
    rfl
  -- a buffer that is cleaned up has no reference left, so nobody looks at it again
  have hfreed : ∀ mb ∈ (s.cleanup op).toList, s.Owns mb ∧ (s.heap.impl mb).counter = 1 ∧ op = .decr mb := by
    intro mb hmb
    cases op with
    | incr x => simp [cleanup] at hmb
    | decr x =>
        simp only [cleanup] at hmb
        split at hmb
        next hx =>
          obtain rfl : mb = x := by simpa using hmb
          exact ⟨hx.2, hx.1, rfl⟩
        next => cases hmb
  have hold : ∀ mb ∈ s.returning, op.target ≠ mb ∧ ∀ op' ∈ pending ++ s.locked, op'.target ≠ mb := by
    intro mb hmb
    have htouch := (ha.returning mb hmb).2.2
    exact ⟨htouch op (by simp), fun op' hop => htouch op' (List.mem_cons_of_mem _ hop)⟩
  refine ⟨fun mb hmb => ?_, ?_, fun mb hmb => ?_⟩
  · have hcount := ha.count mb hmb
    rw [hknown]
    show ((s.heap.applyOp op).impl mb).counter + _ + RefOp.net mb s.locked = s.known mb + _
    rw [hcounter]
    rw [RefOp.net_cons] at hcount
    show _ = s.known mb + (s.downstream.count mb : Int)
    omega
  · refine List.nodup_append.mpr ⟨ha.nodup, ?_, fun mb hmb x hx => ?_⟩
    · cases s.cleanup op <;> simp
    · rintro rfl
      exact (hold mb hmb).1 (by rw [(hfreed mb hx).2.2]; rfl)
  · rcases List.mem_append.mp hmb with hmb | hmb
    · obtain ⟨hown, hzero, -⟩ := ha.returning mb hmb
      refine ⟨hown, ?_, (hold mb hmb).2⟩
      show ((s.heap.applyOp op).impl mb).counter = 0
      rw [hcounter, RefOp.delta_of_ne (hold mb hmb).1, hzero]
      rfl
    · obtain ⟨hown, hone, rfl⟩ := hfreed mb hmb
      have hzero : (s.heap.impl mb).counter + (RefOp.decr mb).delta mb = 0 := by
        simp [RefOp.delta, hone]
      refine ⟨hown, ?_, hc.2.untouched hown hzero.le⟩
      show ((s.heap.applyOp (.decr mb)).impl mb).counter = 0
      rw [hcounter, hzero]

theorem Accounted.foldl {s : PortSystem M} {ops : List RefOp} (ha : s.Accounted ops)
    (hc : Covered s.Owns 1 (fun mb => (s.heap.impl mb).counter) (ops ++ s.locked)) :
    (ops.foldl PortSystem.unlocked s).Accounted [] := by
  induction ops generalizing s with
  | nil => exact ha
  | cons op ops ih =>
      refine ih (ha.unlocked hc) ?_
      refine Covered.mono hc.2 fun mb _ => ?_
      show _ ≤ ((s.heap.applyOp op).impl mb).counter
      rw [Heap.applyOp_impl]

/-- The references that are there now, and that nobody downstream can drop. -/
def slack (s : PortSystem M) (mb : ManagedBuffer) : Int := s.known mb - RefOp.net mb s.locked

theorem known_links {s : PortSystem M} {heap : Heap} (hl : s.heap.SameLinks heap) :
    known { s with heap := heap } = s.known := by
  funext mb
  simp only [known, workerRefs_links hl]

theorem slack_of_unlocked {s : PortSystem M} (h : s.locked = []) : s.slack = s.known := by
  funext mb
  simp [slack, h]

end

/-! ### The invariant -/

section
variable {M : Type} [LawfulManager M]

/-- The steps that are left under the lock leave everybody a reference. -/
structure Core (s : PortSystem M) : Prop where
  fronted : CountedManager.Fronted s.Owns s.port.bufferManager s.heap
  accounted : s.Accounted []
  nonneg : ∀ mb, s.Owns mb → 0 ≤ s.slack mb
  covered : Covered s.Owns 2 s.slack s.locked
  reentered : s.reentered = false

variable {s s' : PortSystem M}

theorem Core.counter (hs : s.Core) {mb : ManagedBuffer} (hmb : s.Owns mb) :
    (s.heap.impl mb).counter = s.slack mb + s.downstream.count mb := by
  have hcount := hs.accounted.count mb hmb
  rw [RefOp.net_nil] at hcount
  rw [slack]
  omega

/-- References change hands, and then some steps without the lock follow. -/
theorem Core.rebook (hs : s.Core) (ops : List RefOp) (howns : s'.Owns = s.Owns)
    (hfronted : CountedManager.Fronted s.Owns s'.port.bufferManager s'.heap)
    (hcounter : ∀ mb, (s'.heap.impl mb).counter = (s.heap.impl mb).counter)
    (hreturning : s'.returning = s.returning) (hreentered : s'.reentered = false)
    (hbook : ∀ mb, s.Owns mb → 0 ≤ s'.slack mb ∧
      s'.slack mb + s'.downstream.count mb = s.slack mb + s.downstream.count mb + RefOp.net mb ops)
    (hlocked : Covered s.Owns 2 s'.slack s'.locked)
    (hops : Covered s.Owns 1 (fun mb => (s.heap.impl mb).counter) ops) : (ops.foldl unlocked s').Core := by
  -- the steps under the lock find their references whatever the others drop
  have hall : Covered s.Owns 1 (fun mb => (s.heap.impl mb).counter) (ops ++ s'.locked) := by
    refine hops.append (Covered.mono hlocked.one fun mb hmb => ?_)
    have hbook := (hbook mb hmb).2
    rw [hs.counter hmb]
    omega
  have haccounted : s'.Accounted ops := by
    refine ⟨fun mb hmb => ?_, hreturning ▸ hs.accounted.nodup, fun mb hmb => ?_⟩
    · rw [howns] at hmb
      have hbook := (hbook mb hmb).2
      rw [hcounter, hs.counter hmb]
      rw [slack] at hbook
      omega
    · rw [hreturning] at hmb
      obtain ⟨hown, hzero, -⟩ := hs.accounted.returning mb hmb
      exact ⟨howns ▸ hown, (hcounter mb).trans hzero, hall.untouched hown hzero.le⟩
  have hfold : (ops.foldl unlocked s').Accounted [] := by
    refine haccounted.foldl ?_
    rw [howns]
    simpa only [hcounter] using hall
  obtain ⟨returning, hstate⟩ := foldl_unlocked ops s'
  have hslack : (ops.foldl unlocked s').slack = s'.slack := by
    funext mb
    rw [hstate]
    simp only [slack]
    have hlinks := known_links (s := s') (Heap.sameLinks_apply s'.heap ops)
    exact congrArg (· - RefOp.net mb s'.locked) (congrFun hlinks mb)
  have howns' : (ops.foldl unlocked s').Owns = s.Owns := by
    rw [hstate, ← howns]
    rfl
  have hlocked' : (ops.foldl unlocked s').locked = s'.locked := by rw [hstate]
  refine ⟨?_, hfold, fun mb hmb => ?_, ?_, ?_⟩
  · rw [howns', hstate]
    exact hfronted.congr (CountedManager.sameBuffers_apply s'.heap ops)
  · rw [hslack]
    exact (hbook mb (howns' ▸ hmb)).1
  · rw [howns', hslack, hlocked']
    exact hlocked
  · rw [hstate]
    exact hreentered

/-- **A step under the lock** drops no last reference. -/
theorem Core.lockedStep (hs : s.Core) (h : s.lockedStep = some s') : s'.Core := by
  unfold PortSystem.lockedStep at h
  cases hlocked : s.locked with
  | nil =>
      rw [hlocked] at h
      cases h
  | cons op ops =>
      rw [hlocked] at h
      obtain rfl := Option.some.inj h
      have hcovered := hs.covered
      rw [hlocked] at hcovered
      obtain ⟨hfirst, hrest⟩ := hcovered
      have hkept : s.cleanup op = none := by
        cases op with
        | incr mb => rfl
        | decr mb =>
            refine if_neg fun hlast => ?_
            have htwo : 2 ≤ s.slack mb := hfirst hlast.2
            have hcounter := hs.counter hlast.2
            omega
      have hslack : ∀ mb, s.slack mb + op.delta mb = s.known mb - RefOp.net mb ops := by
        intro mb
        rw [slack, hlocked, RefOp.net_cons]
        omega
      have hknown := known_links (s := s) (Heap.sameLinks_apply s.heap [op])
      refine ⟨hs.fronted.congr (CountedManager.sameBuffers_apply s.heap [op]), ⟨fun mb hmb => ?_,
        hs.accounted.nodup, fun mb hmb => ?_⟩, fun mb hmb => ?_, ?_, by simp [hkept]⟩
      · have hcount := hs.accounted.count mb hmb
        rw [hlocked, RefOp.net_cons] at hcount
        show ((s.heap.applyOp op).impl mb).counter + _ + RefOp.net mb ops = _
        rw [Heap.applyOp_impl]
        show (s.heap.impl mb).counter + op.delta mb + _ + _ =
          known { s with heap := s.heap.apply [op] } mb + (s.downstream.count mb : Int)
        rw [hknown]
        omega
      · obtain ⟨hown, hzero, htargets⟩ := hs.accounted.returning mb hmb
        rw [hlocked] at htargets
        refine ⟨hown, ?_, fun op' hop => htargets op' (List.mem_cons_of_mem _ hop)⟩
        show ((s.heap.applyOp op).impl mb).counter = 0
        rw [Heap.applyOp_impl]
        show (s.heap.impl mb).counter + op.delta mb = 0
        rw [RefOp.delta_of_ne (htargets op (by simp)), hzero]
        rfl
      · have hnonneg := hs.nonneg mb hmb
        have hle : 0 ≤ s.slack mb + op.delta mb := by
          by_cases htarget : op.target = mb
          · have hfirst := hfirst (htarget ▸ hmb)
            rw [htarget] at hfirst
            cases op <;> simp only [RefOp.need, RefOp.delta] at hfirst ⊢ <;> split <;> omega
          · rw [RefOp.delta_of_ne htarget]
            omega
        show 0 ≤ known { s with heap := s.heap.apply [op] } mb - RefOp.net mb ops
        rw [hknown, ← hslack]
        exact hle
      · refine Covered.mono hrest fun mb _ => ?_
        show _ ≤ known { s with heap := s.heap.apply [op] } mb - RefOp.net mb ops
        rw [hknown, hslack]

end

end PortSystem

end PothosCore.Framework

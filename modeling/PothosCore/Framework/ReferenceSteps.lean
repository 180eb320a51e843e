import PothosCore.Framework.AccumulatorRefs
import PothosCore.Framework.BufferManager

/-!
# PothosCore.Framework.ReferenceSteps

Reference steps that others run between. Somebody knows of `c mb` references on `mb` that
nobody else can drop. `Covered 2 c ops` says that no step of `ops` can drop the last
reference then, and `Covered 1 c ops` that no step looks at a buffer without references.

Only some buffers are of interest, those with `own`.
-/

namespace PothosCore.Framework

/-- The buffer that a step is about. -/
def RefOp.target : RefOp → ManagedBuffer
  | .incr mb => mb
  | .decr mb => mb

/-- The references that a step needs: a new one is made of another one. -/
def RefOp.need (least : Int) : RefOp → Int
  | .incr _ => 1
  | .decr _ => least

theorem RefOp.delta_of_ne {mb : ManagedBuffer} {op : RefOp} (h : op.target ≠ mb) : op.delta mb = 0 := by
  cases op <;> simp_all [target, delta]

/-- Each step finds the references that it needs. -/
def Covered (own : ManagedBuffer → Prop) (least : Int) : (ManagedBuffer → Int) → List RefOp → Prop
  | _, [] => True
  | c, op :: ops =>
      (own op.target → op.need least ≤ c op.target) ∧ Covered own least (fun mb => c mb + op.delta mb) ops

namespace Covered

variable {own : ManagedBuffer → Prop} {least : Int} {c c' : ManagedBuffer → Int} {ops ops' : List RefOp}

theorem mono (h : Covered own least c ops) (hle : ∀ mb, own mb → c mb ≤ c' mb) : Covered own least c' ops := by
  induction ops generalizing c c' with
  | nil => trivial
  | cons op ops ih =>
      refine ⟨fun hown => (h.1 hown).trans (hle _ hown), ih h.2 fun mb hmb => ?_⟩
      exact Int.add_le_add_right (hle mb hmb) _

theorem one (h : Covered own 2 c ops) : Covered own 1 c ops := by
  induction ops generalizing c with
  | nil => trivial
  | cons op ops ih =>
      refine ⟨fun hown => ?_, ih h.2⟩
      have hneed := h.1 hown
      cases op <;> simp only [RefOp.need] at hneed ⊢ <;> omega

theorem append (h : Covered own least c ops) (h' : Covered own least (fun mb => c mb + RefOp.net mb ops) ops') :
    Covered own least c (ops ++ ops') := by
  induction ops generalizing c with
  | nil => simpa using h'
  | cons op ops ih =>
      refine ⟨h.1, ih h.2 ?_⟩
      simpa [Int.add_assoc] using h'

/-- A buffer without references is left alone. -/
theorem untouched (h : Covered own 1 c ops) {mb : ManagedBuffer} (hown : own mb) (hzero : c mb ≤ 0) :
    ∀ op ∈ ops, op.target ≠ mb := by
  induction ops generalizing c with
  | nil => simp
  | cons op ops ih =>
      have hne : op.target ≠ mb := by
        rintro rfl
        have hneed := h.1 hown
        cases op <;> simp only [RefOp.need] at hneed <;> omega
      intro op' hop
      rcases List.mem_cons.mp hop with rfl | hop
      · exact hne
      · refine ih h.2 ?_ op' hop
        rw [RefOp.delta_of_ne hne]
        omega

theorem incrs {l : List ManagedBuffer} (h : ∀ mb ∈ l, own mb → 1 ≤ c mb) : Covered own least c (l.map .incr) := by
  induction l generalizing c with
  | nil => trivial
  | cons x l ih =>
      refine ⟨h x List.mem_cons_self, ih fun mb hmb hown => ?_⟩
      have hle := h mb (List.mem_cons_of_mem x hmb) hown
      simp only [RefOp.delta]
      split <;> omega

theorem decrs {l : List ManagedBuffer} (h : ∀ mb ∈ l, own mb → least ≤ c mb - l.count mb + 1) :
    Covered own least c (l.map .decr) := by
  induction l generalizing c with
  | nil => trivial
  | cons x l ih =>
      refine ⟨fun hown => ?_, ih fun mb hmb hown => ?_⟩
      · have hle := h x List.mem_cons_self hown
        rw [List.count_cons_self] at hle
        show least ≤ c x
        omega
      · have hle := h mb (List.mem_cons_of_mem x hmb) hown
        rw [List.count_cons] at hle
        simp only [RefOp.delta]
        by_cases hx : x = mb
        · simp only [hx, beq_self_eq_true, if_true] at hle ⊢
          omega
        · simp only [hx, beq_eq_false_iff_ne.mpr hx, if_false, Bool.false_eq_true] at hle ⊢
          omega

end Covered

/-! ### Chunks -/

section
variable {own : ManagedBuffer → Prop} {least : Int} {c : ManagedBuffer → Int} {h : Heap} {front buff : BufferChunk}

/-- A chunk becomes a copy of another one. -/
theorem net_replace (h : Heap) (front buff : BufferChunk) (mb : ManagedBuffer) :
    RefOp.net mb (front.destroy h ++ buff.acquire h) = (buff.handles h).count mb - (front.handles h).count mb := by
  rw [RefOp.net_append, BufferAccumulator.net_destroy, BufferAccumulator.net_acquire]
  omega

/-- A chunk goes, with another reference left on each of its buffers. -/
theorem covered_destroy
    (hold : ∀ mb ∈ front.handles h, own mb → least ≤ c mb - (front.handles h).count mb + 1) :
    Covered own least c (front.destroy h) := by
  have hperm : (front.nextList h ++ front.managedBuffer.toList).Perm (front.handles h) := List.perm_append_comm
  rw [BufferChunk.destroy, ← List.map_append]
  refine Covered.decrs fun mb hmb hown => ?_
  rw [hperm.count_eq]
  exact hold mb (hperm.mem_iff.mp hmb) hown

theorem covered_replace
    (hold : ∀ mb ∈ front.handles h, own mb → least ≤ c mb - (front.handles h).count mb + 1)
    (hnew : ∀ mb ∈ buff.handles h, own mb → 1 ≤ c mb - (front.handles h).count mb) :
    Covered own least c (front.destroy h ++ buff.acquire h) := by
  refine (covered_destroy hold).append (Covered.incrs fun mb hmb hown => ?_)
  have hnew := hnew mb hmb hown
  rw [BufferAccumulator.net_destroy]
  omega

end

/-! ### Setting the front -/

/-- The reference steps of `setFrontBuffer` of a local chunk. -/
def setFrontOps (h : Heap) (front buff : BufferChunk) : List RefOp :=
  buff.acquire h ++ front.assign h buff ++ buff.destroy h

theorem incrNextBuffers_apply (h : Heap) (ops : List RefOp) (c : BufferChunk) :
    c.incrNextBuffers (h.apply ops) = c.incrNextBuffers h := by
  have hcount : ∀ bound mb remain, BufferChunk.countNext (h.apply ops) bound mb remain =
      BufferChunk.countNext h bound mb remain := by
    intro bound
    induction bound with
    | zero => intro mb remain; rfl
    | succ bound ih =>
        intro mb remain
        cases mb <;> simp [BufferChunk.countNext, ih]
  unfold BufferChunk.incrNextBuffers
  cases c.managedBuffer <;> simp [hcount, BufferChunk.getBuffer]

theorem assign_apply (h : Heap) (ops : List RefOp) (front buff : BufferChunk) :
    front.assign (h.apply ops) buff = front.assign h buff := by
  have hnext : front.nextList (h.apply ops) = front.nextList h := by
    have hhandles := BufferAccumulator.handles_apply h ops front
    simpa [BufferChunk.handles] using hhandles
  have hcopy : buff.copy (h.apply ops) = buff.copy h := by
    simp only [BufferChunk.copy, incrNextBuffers_apply]
  simp only [BufferChunk.assign, BufferChunk.acquire, hnext, hcopy, BufferAccumulator.handles_apply]

theorem setFrontLocal_eq (h : Heap) (front buff : BufferChunk) :
    setFrontLocal h front buff = (buff.copy h, h.apply (setFrontOps h front buff)) := by
  have hcopy : buff.copy (h.apply (buff.acquire h)) = buff.copy h := by
    simp only [BufferChunk.copy, incrNextBuffers_apply]
  simp only [setFrontLocal, setFrontBuffer, setFrontOps, Heap.apply_append, hcopy, assign_apply,
    BufferAccumulator.destroy_apply]

theorem setFrontOps_apply (h : Heap) (ops : List RefOp) (front buff : BufferChunk) :
    setFrontOps (h.apply ops) front buff = setFrontOps h front buff := by
  simp only [setFrontOps, BufferChunk.acquire, BufferAccumulator.handles_apply, assign_apply,
    BufferAccumulator.destroy_apply]

theorem ofManagedBuffer_apply (h : Heap) (ops : List RefOp) (mb : ManagedBuffer) :
    BufferChunk.ofManagedBuffer (h.apply ops) mb = BufferChunk.ofManagedBuffer h mb := by
  simp only [BufferChunk.ofManagedBuffer, Heap.apply_impl_buffer]

/-- A chunk that stays in its own buffer. -/
def BufferChunk.Within (h : Heap) (c : BufferChunk) : Prop :=
  c.getEnd ≤ (c.getBuffer h).getEnd ∧ c.nextBuffers = 0

section
variable {h : Heap} {front buff : BufferChunk}

theorem BufferChunk.handles_of_nextBuffers (hc : front.nextBuffers = 0) :
    front.handles h = front.managedBuffer.toList := by
  unfold handles nextList
  rw [hc]
  cases front.managedBuffer <;> simp [chain]

theorem assign_within (hf : front.nextBuffers = 0) (hb : buff.Within h) :
    front.assign h buff = front.managedBuffer.toList.map .decr ++ buff.managedBuffer.toList.map .incr := by
  have hnext : front.nextList h = [] := by
    have hhandles := BufferChunk.handles_of_nextBuffers (h := h) hf
    simpa [BufferChunk.handles] using hhandles
  rw [BufferChunk.assign, hnext, BufferChunk.copy_of_le h buff hb.1 hb.2, BufferChunk.acquire,
    BufferChunk.handles_of_nextBuffers hb.2]
  rfl

theorem setFrontOps_within (hf : front.nextBuffers = 0) (hb : buff.Within h) :
    setFrontOps h front buff = buff.managedBuffer.toList.map .incr ++ front.managedBuffer.toList.map .decr ++
      buff.managedBuffer.toList.map .incr ++ buff.managedBuffer.toList.map .decr := by
  have hnext : buff.nextList h = [] := by
    have hhandles := BufferChunk.handles_of_nextBuffers (h := h) hb.2
    simpa [BufferChunk.handles] using hhandles
  rw [setFrontOps, assign_within hf hb, BufferChunk.acquire, BufferChunk.handles_of_nextBuffers hb.2,
    BufferChunk.destroy, hnext]
  simp

end

end PothosCore.Framework

import PothosCore.Framework.OutputPortProduce

/-!
# PothosCore.Framework.OutputPortGetBuffer

What the block gets from `getBuffer`, be it the front buffer or a buffer of the pool: the
requested type and count, in memory that nobody else has and that the manager does not
offer until the chunk is released. The front buffer keeps the type of the port, and it may
be gone; otherwise the two are alike.
-/

namespace PothosCore.Framework

open PothosCore.Lib

namespace PortUse

section
variable {M : Type} [PartialManager M] (rot : Rotation M)

/-- What `getBuffer(dtype, numElements)` promises of the chunk `r`. -/
structure Uniform (w w' : PortUse M) (dtype : DType) (numElements : Nat) (r : Returned) : Prop where
  dtype : r.chunk.dtype = dtype
  /-- `elements()` divides by the size of the type. -/
  sizeT : r.chunk.dtype.sizeT ≠ 0
  elements : r.chunk.elements = numElements
  isSome : r.chunk.isSome = true
  address : r.memory.address ≤ r.chunk.address
  getEnd : r.chunk.getEnd ≤ r.memory.getEnd
  /-- The chunks that were returned before, and not released. -/
  others : ∀ x ∈ w.held, Disjoint rot x.chunk r.chunk
  /-- The space that is left in `_buffer`. -/
  buffer : Disjoint rot r.chunk w'.port.buffer
  /-- The space that the manager offers until the chunk is released. -/
  front : ∀ actions w'', Exec (ofPartial step) w' actions w'' → r ∈ w''.held →
    BufferManager.empty w''.session.mgr = false → Disjoint rot r.chunk w''.session.front

/-- The request has a size. If it is no more than `_buffer` has, it is for the type of the
port, `_buffer` was not moved out, and its manager grants the pop. -/
def Usable (w : PortUse M) (dtype : DType) (numElements : Nat) : Prop :=
  dtype.sizeT ≠ 0 ∧ numElements * dtype.sizeT < 2 ^ 64 ∧
    (numElements * dtype.sizeT ≤ w.port.buffer.length →
      w.port.dtype = dtype ∧ w.port.buffer.isSome = true ∧
        (w.port.bufferFromManager = true → w.session.Grants (numElements * dtype.sizeT)))

instance (w : PortUse M) (dtype : DType) (numElements : Nat) : Decidable (w.Usable dtype numElements) := by
  unfold Usable; infer_instance

end

section
variable {M : Type} [PartialManager M] {rot : Rotation M} {w w' : PortUse M} {r : Returned} {dtype : DType} {n : Nat}
  {fresh : Nat × Nat}

/-- What is returned is not offered before it is released. -/
theorem Kept.disjoint_later (hw : Kept rot w) (hsize : rot.bufferSize < 2 ^ 64) (actions : List Action)
    (w' : PortUse M) (hrun : Exec (ofPartial PortUse.step) w actions w') (hr : r ∈ w'.held)
    (hne : BufferManager.empty w'.session.mgr = false) : Disjoint rot r.chunk w'.session.front :=
  (hw.exec hsize hrun).disjoint_front hr hne

/-- A number of elements that fits is the number of the chunk's elements. -/
theorem elements_eq {c : BufferChunk} (hlength : c.length = n * c.dtype.sizeT) (hpos : c.dtype.sizeT ≠ 0) :
    c.elements = n := by
  rw [BufferChunk.elements, hlength, Nat.mul_div_cancel _ (Nat.pos_of_ne_zero hpos)]

/-- One that does not is not. -/
theorem elements_ne {c : BufferChunk} (hlength : c.length = SizeT.mul n c.dtype.sizeT)
    (hover : 2 ^ 64 ≤ n * c.dtype.sizeT) : c.elements ≠ n := by
  have hlt : SizeT.mul n c.dtype.sizeT < n * c.dtype.sizeT := (SizeT.mul_lt _ _).trans_le hover
  have hpos : 0 < c.dtype.sizeT := Nat.pos_of_ne_zero fun hzero => by rw [hzero, Nat.mul_zero] at hover; omega
  rw [BufferChunk.elements, hlength]
  exact ((Nat.div_lt_iff_lt_mul hpos).mpr hlt).ne

/-! ### The front buffer -/

theorem Kept.uniform_front (hw : Kept rot w) (hsize : rot.bufferSize < 2 ^ 64) (hworking : w.working = true)
    (hpos : dtype.sizeT ≠ 0) (hbytes : n * dtype.sizeT < 2 ^ 64) (hle : n * dtype.sizeT ≤ w.port.buffer.length)
    (hdtype : w.port.dtype = dtype) (hsome : w.port.buffer.isSome = true)
    (hnew : w.Allocates (SizeT.mul n dtype.sizeT) fresh) (h : w.getBuffer dtype n fresh = .ok (r, w')) :
    Uniform rot w w' dtype n r := by
  have hw' := hw.getBuffer hworking hnew h
  have hmul := SizeT.mul_eq hbytes
  have hport : w.port.buffer.dtype = dtype := (hw.buffer_dtype hworking).trans hdtype
  obtain ⟨w₁, htake, rfl, rfl⟩ := PortUse.getBuffer_front (hmul.symm ▸ hle) h
  have hlies : Lies rot w₁ w.port.buffer w.port.bufferFromManager := by
    have hworking₁ : w₁.working = true ∧ w₁.port.buffer = w.port.buffer ∧
        w₁.port.bufferFromManager = w.port.bufferFromManager := by
      rcases takeFront_inv htake with rfl | ⟨s, -, rfl⟩
      · exact ⟨hworking, rfl, rfl⟩
      · exact ⟨hworking, rfl, rfl⟩
    obtain ⟨hworking₁, hbuffer, hfrom⟩ := hworking₁
    rcases ((hw.takeFront htake).working hworking₁).buffer with hnull | hlies
    · rw [← hbuffer, hnull] at hsome
      cases hsome
    · rw [← hlies.1, hbuffer, hfrom] at hlies
      exact hlies.2
  have hheap : w₁.bufferHeap = w₁.heapOf w.port.bufferFromManager := by
    rcases takeFront_inv htake with rfl | ⟨s, -, rfl⟩ <;> rfl
  refine ⟨hport, hport ▸ hpos, elements_eq ?_ (hport ▸ hpos), hsome, ?_, ?_, fun x hx y z hy hz => ?_,
    disjoint_null rfl, fun actions w'' hrun hr => hw'.disjoint_later hsize actions w'' hrun hr⟩
  · rw [hport]
    exact hmul
  · rw [hheap]
    exact hlies.address
  · rw [hheap]
    exact (Nat.add_le_add_left (hmul.symm ▸ hle) _).trans hlies.getEnd
  · exact hw.free x hx y z hy (BufferChunk.covers_shorter (hmul.symm ▸ hle) hz)

/-! ### The pool -/

/-- A chunk outside of a buffer that is not the manager's has no byte of a chunk in it. -/
theorem disjoint_misses {c d : BufferChunk} {b : SharedBuffer} (hd : ∀ x, d.Covers x → ¬ rot.memory.Maps x)
    (haddr : b.address ≤ d.address) (hend : d.getEnd ≤ b.getEnd) (hc : c.Misses b) : Disjoint rot c d := by
  intro x y hx hy hsame
  rcases rot.same_maps hsame with rfl | ⟨-, hmaps⟩
  · have hmiss := hc x hx
    unfold BufferChunk.Covers at hy
    omega
  · exact hd y hy hmaps

omit [PartialManager M] in
/-- The buffer that is taken of the pool is apart from the buffers of the other holders. -/
theorem Spare.misses_held {numBytes : Nat} {pool : BufferPool} {b : BufferChunk} {heap : Heap} {mb : ManagedBuffer}
    (hs : Spare w numBytes fresh pool b heap mb) {x : Returned} (hx : x ∈ w.held) (horigin : x.origin = .pool) :
    x.chunk.Misses (heap.impl mb).buffer := by
  have hmem : x.chunk ∈ pooled w.held := List.mem_map_of_mem (List.mem_filter.mpr ⟨hx, decide_eq_true horigin⟩)
  obtain ⟨mb', hmb', -, haddr, hend⟩ := hs.supplied.part x.chunk hmem
  have hrefs := BufferAccumulator.mem_refs (h := heap) hmem hmb'
  have hne : mb' ≠ mb := fun heq => hs.unshared (heq ▸ hrefs)
  have hapart := hs.supplied.apart mb' (List.mem_append_left _ hrefs) mb hs.mem hne
  intro y hy
  unfold BufferChunk.Covers at hy
  unfold SharedBuffer.Apart at hapart
  omega

theorem Kept.uniform_pool (hw : Kept rot w) (hsize : rot.bufferSize < 2 ^ 64) (hworking : w.working = true)
    (hpos : dtype.sizeT ≠ 0) (hbytes : n * dtype.sizeT < 2 ^ 64) (hlt : w.port.buffer.length < n * dtype.sizeT)
    (hnew : w.Allocates (SizeT.mul n dtype.sizeT) fresh) :
    ∃ r w', w.getBuffer dtype n fresh = .ok (r, w') ∧ Uniform rot w w' dtype n r := by
  have hmul := SizeT.mul_eq hbytes
  obtain ⟨pool, b, heap, mb, hs⟩ := hw.spare hnew
  have hget := PortUse.getBuffer_pool (hmul.symm ▸ hlt) hs
  have hw' := hw.getBuffer hworking hnew hget
  obtain ⟨houtside, hmisses, hothers⟩ := hs.free hw
  obtain ⟨hmb, -, haddr, hend⟩ := hs.part
  refine ⟨_, _, hget, rfl, hpos, elements_eq hmul hpos, ?_, haddr, hend, fun x hx => ?_, ?_,
    fun actions w'' hrun hr => hw'.disjoint_later hsize actions w'' hrun hr⟩
  · exact Option.isSome_iff_exists.mpr ⟨mb, hmb⟩
  · refine disjoint_misses houtside haddr hend ?_
    by_cases horigin : x.origin = .pool
    · exact hs.misses_held hx horigin
    · exact hothers x hx horigin
  · exact disjoint_part houtside haddr hend hmisses

/-! ### When `getBuffer` keeps its promise -/

theorem Kept.uniform_of_usable (hw : Kept rot w) (hsize : rot.bufferSize < 2 ^ 64) (hworking : w.working = true)
    (hnew : w.Allocates (SizeT.mul n dtype.sizeT) fresh) (h : w.Usable dtype n) :
    ∃ r w', w.getBuffer dtype n fresh = .ok (r, w') ∧ Uniform rot w w' dtype n r := by
  obtain ⟨hpos, hbytes, hfront⟩ := h
  by_cases hle : n * dtype.sizeT ≤ w.port.buffer.length
  · obtain ⟨hdtype, hsome, hgrants⟩ := hfront hle
    have hmul := SizeT.mul_eq hbytes
    have htake : ∃ w₁, w.takeFront (SizeT.mul n dtype.sizeT) = .ok w₁ := by
      unfold PortUse.takeFront
      cases hfrom : w.port.bufferFromManager with
      | false => exact ⟨w, rfl⟩
      | true =>
          obtain ⟨s, hpop⟩ := (rot.grants hw.inv).mpr (hgrants hfrom)
          refine ⟨{ w with port := { w.port with bufferManager := s } }, ?_⟩
          rw [if_pos rfl, bufferManagerPop, hmul, hpop]
          rfl
    obtain ⟨w₁, htake⟩ := htake
    have hget : ∃ r w', w.getBuffer dtype n fresh = .ok (r, w') := by
      unfold PortUse.getBuffer
      simp only [if_pos (hmul.symm ▸ hle : SizeT.mul n dtype.sizeT ≤ w.port.buffer.length), htake]
      exact ⟨_, _, rfl⟩
    obtain ⟨r, w', hget⟩ := hget
    exact ⟨r, w', hget, hw.uniform_front hsize hworking hpos hbytes hle hdtype hsome hnew hget⟩
  · exact hw.uniform_pool hsize hworking hpos hbytes (not_le.mp hle) hnew

theorem Kept.usable_of_uniform (hw : Kept rot w) (hworking : w.working = true)
    (hnew : w.Allocates (SizeT.mul n dtype.sizeT) fresh) (hget : w.getBuffer dtype n fresh = .ok (r, w'))
    (h : Uniform rot w w' dtype n r) : w.Usable dtype n := by
  have hpos : dtype.sizeT ≠ 0 := h.dtype ▸ h.sizeT
  have hlength : r.chunk.length = SizeT.mul n dtype.sizeT := by
    by_cases hle : SizeT.mul n dtype.sizeT ≤ w.port.buffer.length
    · obtain ⟨w₁, -, rfl, -⟩ := PortUse.getBuffer_front hle hget
      rfl
    · obtain ⟨pool, b, heap, mb, hs⟩ := hw.spare hnew
      rw [PortUse.getBuffer_pool (not_le.mp hle) hs] at hget
      obtain ⟨rfl, -⟩ := Prod.mk.inj (Except.ok.inj hget)
      rfl
  have hbytes : n * dtype.sizeT < 2 ^ 64 := by
    by_contra hover
    have hdtype := h.dtype
    exact elements_ne (by rw [hdtype]; exact hlength) (by rw [hdtype]; exact not_lt.mp hover) h.elements
  have hmul := SizeT.mul_eq hbytes
  refine ⟨hpos, hbytes, fun hle => ?_⟩
  obtain ⟨w₁, htake, rfl, -⟩ := PortUse.getBuffer_front (hmul.symm ▸ hle) hget
  refine ⟨(hw.buffer_dtype hworking).symm.trans h.dtype, h.isSome, fun hfrom => ?_⟩
  rw [PortUse.takeFront, if_pos hfrom] at htake
  obtain ⟨s, hpop, -⟩ := bufferManagerPop_inv htake
  rw [hmul] at hpop
  exact (rot.grants hw.inv).mp ⟨s, hpop⟩

theorem Kept.uniform_iff (hw : Kept rot w) (hsize : rot.bufferSize < 2 ^ 64) (hworking : w.working = true)
    (hnew : w.Allocates (SizeT.mul n dtype.sizeT) fresh) :
    (∃ r w', w.getBuffer dtype n fresh = .ok (r, w') ∧ Uniform rot w w' dtype n r) ↔ w.Usable dtype n := by
  constructor
  · intro h
    obtain ⟨r, w', hget, huniform⟩ := h
    exact hw.usable_of_uniform hworking hnew hget huniform
  · exact hw.uniform_of_usable hsize hworking hnew

end

/-- **`getBuffer`.** In every call of `work` of a port with a generic or a circular
manager, whatever was called and released before, the chunk that `getBuffer` returns has
the requested type and count, and memory of its own until it is released, if and only if
the request is `Usable`. -/
theorem getBuffer_uniform_iff (portType : DType) (readBeforeWrite : Bool) (heap inputs : Heap) :
    (∀ (p : Slabs) (h : Heap), p.bufferSize < 2 ^ 64 →
      ∃ m h', GenericBufferManager.init ⟨p.numBuffers, p.bufferSize⟩ p.commonSlab p.first h = .ok (m, h') ∧
        ∀ actions w, Exec (ofPartial step)
            (bufferManagerSetup (Session.start h' m) p.commonSlab portType readBeforeWrite heap inputs) actions w →
          w.working = true → ∀ dtype n fresh, w.Allocates (SizeT.mul n dtype.sizeT) fresh →
            ((∃ r w', w.getBuffer dtype n fresh = .ok (r, w') ∧
              Uniform (GenericBufferManager.rotation p) w w' dtype n r) ↔ w.Usable dtype n)) ∧
      ∀ (r : Ring) (h : Heap), r.bufferSize < 2 ^ 64 →
        ∃ m h', CircularBufferManager.init ⟨r.numBuffers, r.bufferSize⟩ r.circBuff r.first h = .ok (m, h') ∧
          ∀ actions w, Exec (ofPartial step)
              (bufferManagerSetup (Session.start h' m) r.circBuff portType readBeforeWrite heap inputs) actions w →
            w.working = true → ∀ dtype n fresh, w.Allocates (SizeT.mul n dtype.sizeT) fresh →
              ((∃ out w', w.getBuffer dtype n fresh = .ok (out, w') ∧
                Uniform (CircularBufferManager.rotation r) w w' dtype n out) ↔ w.Usable dtype n) := by
  refine ⟨fun p h hsize => ?_, fun r h hsize => ?_⟩
  · obtain ⟨m, h', hinit, hkept⟩ := kept_generic p h hsize portType readBeforeWrite heap inputs
    refine ⟨m, h', hinit, fun actions w hrun hworking dtype n fresh hnew => ?_⟩
    exact (hkept actions w hrun).uniform_iff hsize hworking hnew
  · obtain ⟨m, h', hinit, hkept⟩ := kept_circular r h hsize portType readBeforeWrite heap inputs
    refine ⟨m, h', hinit, fun actions w hrun hworking dtype n fresh hnew => ?_⟩
    exact (hkept actions w hrun).uniform_iff hsize hworking hnew

/-- After 4 of 16 bytes were taken of the front, 20 elements of two bytes are of the pool. -/
theorem getBuffer_uniform_after :
    ∃ w, runTwoSlabs [.preWork none, .getBuffer ⟨1, 1, 1⟩ 4 (2, 1000)] = some w ∧
      ∃ r w', w.getBuffer ⟨2, 2, 1⟩ 20 (2, 1000) = .ok (r, w') ∧
        Uniform (GenericBufferManager.rotation twoSlabs) w w' ⟨2, 2, 1⟩ 20 r := by
  obtain ⟨w, hw, hstate⟩ := Option.map_eq_some_iff.mp
    (show (runTwoSlabs [.preWork none, .getBuffer ⟨1, 1, 1⟩ 4 (2, 1000)]).map
      (fun w => (w.working, decide (w.Allocates (SizeT.mul 20 2) (2, 1000)), decide (w.Usable ⟨2, 2, 1⟩ 20))) =
        some (true, true, true) by decide +kernel)
  obtain ⟨hworking, hstate⟩ := Prod.mk.inj hstate
  obtain ⟨hnew, husable⟩ := Prod.mk.inj hstate
  obtain ⟨m, h', hinit, huniform⟩ := (getBuffer_uniform_iff ⟨1, 1, 1⟩ false .empty .empty).1 twoSlabs .empty (by decide)
  refine ⟨w, hw, ?_⟩
  exact (huniform _ w (exec_of_runTwoSlabs hinit hw) hworking ⟨2, 2, 1⟩ 20 (2, 1000) (of_decide_eq_true hnew)).mpr
    (of_decide_eq_true husable)

/-- Four elements of two bytes fit into the front, and keep the type of its single bytes. -/
theorem not_getBuffer_uniform_typed :
    ¬ ∀ (portType : DType) (readBeforeWrite : Bool) (heap inputs : Heap) (p : Slabs) (h : Heap),
      p.bufferSize < 2 ^ 64 →
        ∃ m h', GenericBufferManager.init ⟨p.numBuffers, p.bufferSize⟩ p.commonSlab p.first h = .ok (m, h') ∧
          ∀ actions w, Exec (ofPartial step)
              (bufferManagerSetup (Session.start h' m) p.commonSlab portType readBeforeWrite heap inputs) actions w →
            w.working = true → ∀ dtype n fresh, w.Allocates (SizeT.mul n dtype.sizeT) fresh →
              ∃ r w', w.getBuffer dtype n fresh = .ok (r, w') ∧
                Uniform (GenericBufferManager.rotation p) w w' dtype n r := by
  intro hall
  obtain ⟨m, h', hinit, huniform⟩ := hall ⟨1, 1, 1⟩ false .empty .empty twoSlabs .empty (by decide)
  obtain ⟨w, hw, hstate⟩ := Option.map_eq_some_iff.mp
    (show (runTwoSlabs [.preWork none]).map (fun w => (w.working, decide (w.Allocates (SizeT.mul 4 2) (2, 1000)),
      (w.getBuffer ⟨2, 2, 1⟩ 4 (2, 1000)).toOption.map fun p => p.1.chunk.dtype)) =
        some (true, true, some ⟨1, 1, 1⟩) by decide +kernel)
  obtain ⟨hworking, hstate⟩ := Prod.mk.inj hstate
  obtain ⟨hnew, hdtype⟩ := Prod.mk.inj hstate
  obtain ⟨r, w', hget, hpromise⟩ := huniform _ w (exec_of_runTwoSlabs hinit hw) hworking ⟨2, 2, 1⟩ 4 (2, 1000)
    (of_decide_eq_true hnew)
  rw [hget] at hdtype
  have hmine : r.chunk.dtype = ⟨1, 1, 1⟩ := Option.some.inj hdtype
  rw [hpromise.dtype] at hmine
  cases hmine

end PortUse

end PothosCore.Framework

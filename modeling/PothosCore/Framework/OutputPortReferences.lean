import PothosCore.Framework.OutputPortLock

/-!
# PothosCore.Framework.OutputPortReferences

What each step does to the account. The worker starts its sections under the lock when
nobody else has it; from then on the steps that are left are the account's concern
(`Core.lockedStep`), and the others go on meanwhile.
-/

namespace PothosCore.Framework

open PothosCore.Lib

namespace PortSystem

section
variable {M : Type} [LawfulManager M] {s s' : PortSystem M}

theorem known_eq (s : PortSystem M) (mb : ManagedBuffer) :
    s.known mb = (CountedManager.refs s.port.bufferManager).count mb + (s.port.buffer.handles s.heap).count mb +
      (BufferAccumulator.refs s.heap s.port.postedBuffers).count mb + s.kept.count mb := by
  simp only [known, workerRefs, List.count_append]
  push_cast
  omega

/-- References change hands, and the manager and its lock are left alone. -/
theorem Core.settled (hs : s.Core) (hlocked : s'.locked = s.locked) (howns : s'.Owns = s.Owns)
    (hheap : s'.heap = s.heap) (hmanager : s'.port.bufferManager = s.port.bufferManager)
    (hreturning : s'.returning = s.returning) (hreentered : s'.reentered = s.reentered)
    (hbook : ∀ mb, s'.known mb + s'.downstream.count mb = s.known mb + s.downstream.count mb)
    (hle : s.locked = [] ∨ ∀ mb, s.known mb ≤ s'.known mb) : s'.Core := by
  have hslack : ∀ mb, s'.slack mb = s.slack mb + (s'.known mb - s.known mb) := by
    intro mb
    simp only [slack, hlocked]
    omega
  have hfronted : CountedManager.Fronted s.Owns s'.port.bufferManager s'.heap := by
    rw [hmanager, hheap]
    exact hs.fronted
  refine hs.rebook [] howns hfronted (fun mb => by rw [hheap]) hreturning (hreentered.trans hs.reentered)
    (fun mb hmb => ⟨?_, ?_⟩) ?_ trivial
  · rcases hle with hnil | hle
    · rw [slack_of_unlocked (hlocked.trans hnil), known_eq]
      omega
    · have hnonneg := hs.nonneg mb hmb
      have hle := hle mb
      rw [hslack]
      omega
  · have hbook := hbook mb
    rw [hslack, RefOp.net_nil]
    omega
  · rcases hle with hnil | hle
    · rw [hlocked, hnil]
      trivial
    · rw [hlocked]
      refine hs.covered.mono fun mb _ => ?_
      have hle := hle mb
      rw [hslack]
      omega

/-! ### Steps without the lock -/

theorem Core.clearBuffer (hs : s.Core) (hlocked : s.locked = []) : s.clearBuffer.Core := by
  have hknown : ∀ mb, known { s with port := { s.port with buffer := .null } } mb =
      s.known mb - (s.port.buffer.handles s.heap).count mb := by
    intro mb
    simp only [known_eq, BufferChunk.null_handles, List.count_nil]
    omega
  have hslack : ∀ mb, slack { s with port := { s.port with buffer := .null } } mb =
      s.known mb - (s.port.buffer.handles s.heap).count mb := by
    intro mb
    rw [slack_of_unlocked (by exact hlocked), hknown]
  refine hs.rebook _ rfl hs.fronted (fun _ => rfl) rfl hs.reentered (fun mb hmb => ⟨?_, ?_⟩) ?_ ?_
  · rw [hslack, known_eq]
    omega
  · rw [hslack, BufferAccumulator.net_destroy, slack_of_unlocked hlocked]
    show _ + (s.downstream.count mb : Int) = _
    omega
  · show Covered _ _ _ s.locked
    rw [hlocked]
    trivial
  · refine covered_destroy fun mb _ hown => ?_
    rw [hs.counter hown, slack_of_unlocked hlocked, known_eq]
    omega

/-- `_buffer` becomes a copy of a chunk to whose buffers the worker refers anyway. -/
theorem Core.readBeforeWrite (hs : s.Core) (hlocked : s.locked = []) {copy : BufferChunk} (phase : Phase)
    (hkept : ∀ mb ∈ copy.handles s.heap, mb ∈ s.kept) :
    ((s.port.buffer.destroy s.heap ++ copy.acquire s.heap).foldl unlocked
      { s with port := { s.port with buffer := copy }, phase := phase }).Core := by
  have hslack : ∀ mb, slack { s with port := { s.port with buffer := copy }, phase := phase } mb =
      s.known mb + RefOp.net mb (s.port.buffer.destroy s.heap ++ copy.acquire s.heap) := by
    intro mb
    rw [slack_of_unlocked (by exact hlocked), net_replace]
    simp only [known_eq]
    omega
  refine hs.rebook _ rfl hs.fronted (fun _ => rfl) rfl hs.reentered (fun mb hmb => ⟨?_, ?_⟩) ?_ ?_
  · rw [slack_of_unlocked (by exact hlocked), known_eq]
    omega
  · rw [hslack, slack_of_unlocked hlocked]
    show _ + (s.downstream.count mb : Int) = _
    omega
  · show Covered _ _ _ s.locked
    rw [hlocked]
    trivial
  · refine covered_replace (fun mb _ hown => ?_) fun mb hmb hown => ?_
    · rw [hs.counter hown, slack_of_unlocked hlocked, known_eq]
      omega
    · have hpos := List.count_pos_iff.mpr (hkept mb hmb)
      rw [hs.counter hown, slack_of_unlocked hlocked, known_eq]
      omega

/-- One more buffer is posted, with references on buffers that the worker keeps. -/
theorem Core.posted (hs : s.Core) (hlocked : s.locked = []) (posted : BufferChunk)
    (hkept : ∀ mb ∈ posted.handles s.heap, mb ∈ s.kept) :
    ((posted.acquire s.heap).foldl unlocked { s with port := { s.port with
      postedBuffers := s.port.postedBuffers ++ [posted]
      workEvents := s.port.workEvents + 1 } }).Core := by
  have hslack : ∀ mb, slack { s with port := { s.port with
      postedBuffers := s.port.postedBuffers ++ [posted]
      workEvents := s.port.workEvents + 1 } } mb = s.known mb + (posted.handles s.heap).count mb := by
    intro mb
    rw [slack_of_unlocked (by exact hlocked)]
    simp only [known_eq, BufferAccumulator.refs_append, BufferAccumulator.refs_cons, BufferAccumulator.refs_nil,
      List.append_nil, List.count_append]
    push_cast
    omega
  refine hs.rebook _ rfl hs.fronted (fun _ => rfl) rfl hs.reentered (fun mb hmb => ⟨?_, ?_⟩) ?_ ?_
  · rw [hslack, known_eq]
    omega
  · rw [hslack, BufferAccumulator.net_acquire, slack_of_unlocked hlocked]
    show _ + (s.downstream.count mb : Int) = _
    omega
  · show Covered _ _ _ s.locked
    rw [hlocked]
    trivial
  · refine Covered.incrs fun mb hmb hown => ?_
    have hpos := List.count_pos_iff.mpr (hkept mb hmb)
    rw [hs.counter hown, slack_of_unlocked hlocked, known_eq]
    omega

theorem Core.postBuffer (hs : s.Core) (hlocked : s.locked = []) {buffer : BufferChunk}
    (hkept : ∀ mb ∈ buffer.handles s.heap, mb ∈ s.kept) : (s.postBuffer buffer).Core := by
  unfold PortSystem.postBuffer
  dsimp only
  split
  · exact hs.posted hlocked buffer hkept
  · exact hs.posted hlocked { buffer with dtype := s.port.dtype } hkept

/-- The worker drops a reference that it keeps. -/
theorem Core.release (hs : s.Core) (hlocked : s.locked = []) {mb : ManagedBuffer} (hmb : mb ∈ s.kept) :
    (unlocked { s with kept := s.kept.erase mb } (.decr mb)).Core := by
  have hknown : ∀ x, known { s with kept := s.kept.erase mb } x = s.known x + (RefOp.decr mb).delta x := by
    intro x
    have hpos := List.count_pos_iff.mpr hmb
    simp only [known_eq, RefOp.delta]
    split
    next hx =>
      subst hx
      rw [List.count_erase_self]
      omega
    next hx =>
      rw [List.count_erase_of_ne (fun he => hx he.symm)]
      omega
  refine hs.rebook [.decr mb] rfl hs.fronted (fun _ => rfl) rfl hs.reentered (fun x hx => ⟨?_, ?_⟩) ?_ ?_
  · rw [slack_of_unlocked (by exact hlocked), known_eq]
    omega
  · rw [slack_of_unlocked (by exact hlocked), slack_of_unlocked hlocked, hknown, RefOp.net_cons, RefOp.net_nil]
    show _ + (s.downstream.count x : Int) = _
    omega
  · show Covered _ _ _ s.locked
    rw [hlocked]
    trivial
  · refine ⟨fun hown => ?_, trivial⟩
    have hpos := List.count_pos_iff.mpr hmb
    show 1 ≤ (s.heap.impl mb).counter
    rw [hs.counter (by exact hown), slack_of_unlocked hlocked, known_eq]
    omega

/-- Downstream refers to one buffer more, or one less. -/
theorem Core.downstream (hs : s.Core) {op : RefOp} {downstream : List ManagedBuffer}
    (hcount : ∀ mb, (downstream.count mb : Int) = s.downstream.count mb + op.delta mb)
    (hneed : s.Owns op.target → 1 ≤ (s.heap.impl op.target).counter) :
    (unlocked { s with downstream := downstream } op).Core := by
  refine hs.rebook [op] rfl hs.fronted (fun _ => rfl) rfl hs.reentered (fun mb hmb => ⟨hs.nonneg mb hmb, ?_⟩)
    hs.covered ⟨fun hown => ?_, trivial⟩
  · show s.slack mb + (downstream.count mb : Int) = _
    rw [hcount, RefOp.net_cons, RefOp.net_nil]
    omega
  · cases op <;> exact hneed hown

/-! ### Sections under the lock -/

/-- A section begins: its steps are the difference to what is known by its end. -/
theorem Core.enter (hs : s.Core) (hlocked : s.locked = []) (howns : s'.Owns = s.Owns)
    (hfronted : CountedManager.Fronted s.Owns s'.port.bufferManager s'.heap)
    (hcounter : ∀ mb, (s'.heap.impl mb).counter = (s.heap.impl mb).counter)
    (hreturning : s'.returning = s.returning) (hreentered : s'.reentered = s.reentered)
    (hdownstream : s'.downstream = s.downstream)
    (hknown : ∀ mb, s'.known mb = s.known mb + RefOp.net mb s'.locked)
    (hcovered : Covered s.Owns 2 s.known s'.locked) : s'.Core := by
  have hslack : s'.slack = s.known := by
    funext mb
    rw [slack, hknown]
    omega
  refine hs.rebook [] howns hfronted hcounter hreturning (hreentered.trans hs.reentered)
    (fun mb hmb => ⟨?_, ?_⟩) ?_ trivial
  · rw [hslack, known_eq]
    omega
  · rw [hslack, hdownstream, slack_of_unlocked hlocked, RefOp.net_nil]
    omega
  · rw [hslack]
    exact hcovered

/-- A copy of the front is the front. -/
theorem Core.copy_front (hs : s.Core) :
    NextBuffers.copy s.heap (BufferManager.front s.port.bufferManager) =
      .ok (BufferManager.front s.port.bufferManager) :=
  hs.fronted.ends.copy

/-- The front is one of the references of the manager. -/
theorem Core.front_handles (hs : s.Core) {mb : ManagedBuffer}
    (hmb : mb ∈ (BufferManager.front s.port.bufferManager).handles s.heap) :
    mb ∈ (BufferManager.front s.port.bufferManager).managedBuffer ∧
      mb ∈ CountedManager.refs s.port.bufferManager := by
  rw [BufferChunk.handles_of_nextBuffers hs.fronted.ends.2] at hmb
  exact ⟨by simpa using hmb, List.mem_append_right _ hmb⟩

/-- Each buffer of `_buffer` has a reference besides. -/
def Spare (s : PortSystem M) : Prop :=
  ∀ mb ∈ s.port.buffer.handles s.heap, s.Owns mb → ((s.port.buffer.handles s.heap).count mb : Int) < s.known mb

theorem Core.bufferManagerFront (hs : s.Core) (hlocked : s.locked = []) (hspare : s.Spare)
    (h : s.bufferManagerFront = some s') : s'.Core ∧
      s'.port.readBeforeWrite = s.port.readBeforeWrite ∧ s'.port.bufferManager = s.port.bufferManager ∧
      ∀ mb ∈ s'.port.buffer.handles s'.heap, mb ∈ (BufferManager.front s.port.bufferManager).managedBuffer := by
  unfold PortSystem.bufferManagerFront at h
  rw [hs.copy_front] at h
  obtain rfl := Option.some.inj h
  refine ⟨?_, rfl, rfl, fun mb hmb => (hs.front_handles hmb).1⟩
  refine hs.enter hlocked rfl hs.fronted (fun _ => rfl) rfl rfl rfl (fun mb => ?_) (covered_replace ?_ ?_)
  · simp only [net_replace, known_eq]
    omega
  · intro mb hmb hown
    have hspare := hspare mb hmb hown
    omega
  · intro mb hmb _
    have hpos := List.count_pos_iff.mpr (hs.front_handles hmb).2
    rw [known_eq]
    omega

theorem Core.bufferManagerPop (hs : s.Core) (hlocked : s.locked = []) {numBytes : Nat} (hholds : s.Holds numBytes)
    (h : s.bufferManagerPop numBytes = some s') : s'.Core := by
  unfold PortSystem.bufferManagerPop at h
  split at h
  next => cases h
  next manager heap hpop =>
    obtain rfl := Option.some.inj h
    obtain ⟨hfronted, hpopped⟩ := LawfulManager.pop_spec hs.fronted hpop
    have hlinks : s.heap.SameLinks (s.heap.relink heap) := hpopped.links
    have hworker : workerRefs { s with heap := s.heap.relink heap } = s.workerRefs := workerRefs_links hlinks
    refine hs.enter hlocked rfl (hfronted.congr fun _ => ⟨rfl, rfl⟩) (fun _ => rfl) rfl rfl rfl
      (fun mb => ?_) (hpopped.covered s.known (fun mb _ => ?_) ?_)
    · have hrefs := hpopped.refs mb
      have hcount := congrArg (List.count mb) hworker
      simp only [known, workerRefs] at hcount ⊢
      omega
    · rw [known]
      omega
    · refine hholds.imp_right fun hheld mb hmb => ?_
      have hpos := List.count_pos_iff.mpr (hheld mb hmb)
      rw [known]
      omega

/-- The first step of a push comes before any other thread goes on. -/
theorem Core.push (hs : s.Core) (hlocked : s.locked = []) {mb : ManagedBuffer} (hmb : mb ∈ s.returning)
    {manager : M} {heap : Heap} (hpush : BufferManager.push s.port.bufferManager s.heap mb = .ok (manager, heap)) :
    Core { s with
      heap := (s.heap.relink heap).applyOp (.incr mb)
      port := { s.port with bufferManager := manager }
      locked := (CountedManager.pushOps s.port.bufferManager s.heap mb).tail
      returning := s.returning.erase mb } ∧
    s.heap.SameLinks heap ∧
    (CountedManager.readyBuffs s.port.bufferManager).readyElems <+: (CountedManager.readyBuffs manager).readyElems := by
  obtain ⟨hown, hzero, -⟩ := hs.accounted.returning mb hmb
  have hnone : s.known mb ≤ 0 := by
    have hcounter := hs.counter hown
    rw [slack_of_unlocked hlocked] at hcounter
    omega
  have hnew : mb ∉ (CountedManager.readyBuffs s.port.bufferManager).elems := by
    intro hmem
    have hrefs : mb ∈ CountedManager.refs s.port.bufferManager := List.mem_append_left _ hmem
    have hpos := List.count_pos_iff.mpr hrefs
    rw [known_eq] at hnone
    omega
  obtain ⟨hfronted, hpushed⟩ := LawfulManager.push_spec hs.fronted hown hnew hpush
  refine ⟨?_, hpushed.links, hpushed.ready⟩
  obtain ⟨ops, hops, hcovered⟩ := hpushed.covered
  rw [hops, List.tail_cons]
  generalize hafter : ({ s with
    heap := (s.heap.relink heap).applyOp (.incr mb)
    port := { s.port with bufferManager := manager }
    locked := ops
    returning := s.returning.erase mb } : PortSystem M) = after
  have hcounter : ∀ x, (after.heap.impl x).counter = (s.heap.impl x).counter + (RefOp.incr mb).delta x := by
    intro x
    rw [← hafter]
    exact congrArg Impl.counter (Heap.applyOp_impl (s.heap.relink heap) (.incr mb) x)
  have hlinks : s.heap.SameLinks after.heap := by
    rw [← hafter]
    exact hpushed.links.trans (Heap.sameLinks_apply (s.heap.relink heap) [.incr mb])
  have hslack : ∀ x, after.slack x = s.known x + (RefOp.incr mb).delta x := by
    intro x
    have hrefs := hpushed.refs x
    have hworker := congrArg (List.count x) (workerRefs_links hlinks)
    rw [hops, RefOp.net_cons] at hrefs
    rw [← hafter] at hworker ⊢
    simp only [slack, known, workerRefs] at hworker ⊢
    omega
  have hcovered : Covered s.Owns 2 after.slack ops := by
    refine (hcovered s.known fun x _ => ?_).mono fun x _ => (hslack x).ge
    rw [known]
    omega
  have hnonneg : ∀ x, 0 ≤ after.slack x := by
    intro x
    rw [hslack, known_eq]
    simp only [RefOp.delta]
    split <;> omega
  have howns : after.Owns = s.Owns := by
    rw [← hafter]
    rfl
  refine ⟨?_, ⟨fun x hx => ?_, ?_, fun x hx => ?_⟩, fun x _ => hnonneg x, ?_, ?_⟩
  · rw [howns, ← hafter]
    exact (hfronted.congr fun _ => ⟨rfl, rfl⟩).congr
      (CountedManager.sameBuffers_apply (s.heap.relink heap) [.incr mb])
  · have hcount := hs.counter (howns ▸ hx : s.Owns x)
    have hslack := hslack x
    rw [slack_of_unlocked hlocked] at hcount
    rw [slack] at hslack
    rw [hcounter, RefOp.net_nil, hcount]
    rw [← hafter] at hslack ⊢
    dsimp only at hslack ⊢
    omega
  · rw [← hafter]
    exact hs.accounted.nodup.erase mb
  · rw [← hafter] at hx
    obtain ⟨hne, hmem⟩ := hs.accounted.nodup.mem_erase_iff.mp hx
    obtain ⟨hxown, hxzero, -⟩ := hs.accounted.returning x hmem
    have hdelta : (RefOp.incr mb).delta x = 0 := RefOp.delta_of_ne fun he => hne he.symm
    refine ⟨howns ▸ hxown, ?_, ?_⟩
    · rw [hcounter, hdelta, hxzero]
      rfl
    · have huntouched := hcovered.one.untouched hxown (by
        have hcount := hs.counter hxown
        rw [slack_of_unlocked hlocked] at hcount
        rw [hslack, hdelta]
        omega)
      rw [← hafter]
      exact huntouched
  · rw [howns]
    rw [← hafter] at hcovered ⊢
    exact hcovered
  · rw [← hafter]
    exact hs.reentered

end

end PortSystem

end PothosCore.Framework

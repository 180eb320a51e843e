import PothosCore.Framework.OutputPortReferences

/-!
# PothosCore.Framework.OutputPortRuns

The account over whole runs. Between two calls of `work` it also has to be known where
the references of `_buffer` are from: the next section under the lock drops them.
-/

namespace PothosCore.Framework

open PothosCore.Lib

namespace PortSystem

section
variable {M : Type} [LawfulManager M] {s s' : PortSystem M}

/-- The invariant of a run. -/
structure Guarded (s : PortSystem M) : Prop extends Core s where
  idle : s.phase = .idle → s.port.readBeforeWrite = false → ∀ mb ∈ s.port.buffer.handles s.heap, s.Owns mb →
    mb ∈ (CountedManager.readyBuffs s.port.bufferManager).readyElems
  borrowed : s.phase = .borrowed → ∀ mb ∈ s.port.buffer.handles s.heap, mb ∈ s.kept

theorem Core.busy (hs : s.Core) (hidle : s.phase ≠ .idle) (hborrowed : s.phase ≠ .borrowed) : s.Guarded :=
  ⟨hs, fun h => absurd h hidle, fun h => absurd h hborrowed⟩

/-- A step that leaves `_buffer` alone. -/
theorem Guarded.carry (hs : s.Guarded) (hcore : s'.Core) (hphase : s'.phase = s.phase)
    (hread : s'.port.readBeforeWrite = s.port.readBeforeWrite) (hbuffer : s'.port.buffer = s.port.buffer)
    (howns : s'.Owns = s.Owns) (hlinks : s.heap.SameLinks s'.heap)
    (hready : (CountedManager.readyBuffs s.port.bufferManager).readyElems ⊆
      (CountedManager.readyBuffs s'.port.bufferManager).readyElems)
    (hkept : s.phase = .borrowed → s.kept ⊆ s'.kept) : s'.Guarded := by
  refine ⟨hcore, fun hidle hnot mb hmb hown => ?_, fun hborrowed mb hmb => ?_⟩
  · rw [hbuffer, handles_links hlinks] at hmb
    exact hready (hs.idle (hphase ▸ hidle) (hread ▸ hnot) mb hmb (howns ▸ hown))
  · rw [hbuffer, handles_links hlinks] at hmb
    exact hkept (hphase ▸ hborrowed) (hs.borrowed (hphase ▸ hborrowed) mb hmb)

/-! ### `preWorkTasks` -/

theorem Guarded.spare (hs : s.Guarded) (hphase : s.phase = if s.port.readBeforeWrite then .borrowed else .idle) :
    s.Spare := by
  intro mb hmb hown
  rw [known_eq]
  cases hread : s.port.readBeforeWrite with
  | true =>
      have hpos := List.count_pos_iff.mpr (hs.borrowed (by simp [hphase, hread]) mb hmb)
      omega
  | false =>
      have hready := hs.idle (by simp [hphase, hread]) hread mb hmb hown
      have hrefs : mb ∈ CountedManager.refs s.port.bufferManager :=
        List.mem_append_left _ (List.mem_append_left _ hready)
      have hpos := List.count_pos_iff.mpr hrefs
      omega

omit [LawfulManager M] in
theorem clearBuffer_eq [CountedManager M] (s : PortSystem M) :
    ∃ returning, s.clearBuffer = { s with
      heap := s.heap.apply (s.port.buffer.destroy s.heap)
      port := { s.port with buffer := .null }
      returning := returning } :=
  foldl_unlocked _ _

/-- What the worker is provided with. -/
theorem Guarded.provide (hs : s.Guarded) (hlocked : s.locked = [])
    (hphase : s.phase = if s.port.readBeforeWrite then .borrowed else .idle) (h : s.provide = some s') :
    s'.Core ∧ s'.port.readBeforeWrite = s.port.readBeforeWrite ∧
      (s.port.readBeforeWrite = false → ∀ mb ∈ s'.port.buffer.handles s'.heap,
        mb ∈ (CountedManager.readyBuffs s'.port.bufferManager).readyElems) := by
  unfold PortSystem.provide at h
  split at h
  next hread =>
    obtain rfl := Option.some.inj h
    refine ⟨?_, rfl, fun hnot => absurd hread.1 (by simp [hnot])⟩
    exact hs.toCore.settled rfl rfl rfl rfl rfl rfl (fun _ => rfl) (.inl hlocked)
  next =>
    split at h
    next =>
      obtain rfl := Option.some.inj h
      obtain ⟨returning, hclear⟩ := clearBuffer_eq s
      have hcore := hs.toCore.clearBuffer hlocked
      rw [hclear] at hcore ⊢
      refine ⟨hcore.settled rfl rfl rfl rfl rfl rfl (fun _ => rfl) (.inl hlocked), rfl, fun _ mb hmb => ?_⟩
      rw [show _ = [] from BufferChunk.null_handles _] at hmb
      cases hmb
    next hempty =>
      obtain ⟨hcore, hread, hmanager, hfirst⟩ := hs.toCore.bufferManagerFront hlocked (hs.spare hphase) h
      refine ⟨hcore, hread, fun _ mb hmb => ?_⟩
      have hready : (CountedManager.readyBuffs s.port.bufferManager).readyElems ≠ [] := by
        rw [LawfulManager.ready_of_empty] at hempty
        simpa [Util.OrderedQueue.empty] using hempty
      have hfirst := hfirst mb hmb
      rw [hs.fronted.front hready] at hfirst
      rw [hmanager]
      exact List.mem_of_head? hfirst

theorem Guarded.preWork (hs : s.Guarded) (hlocked : s.locked = [])
    (hphase : s.phase = if s.port.readBeforeWrite then .borrowed else .idle) (proceeds : Bool)
    (h : s.preWork proceeds = some s') : s'.Guarded := by
  obtain ⟨s₁, hprovide, rfl⟩ := Option.map_eq_some_iff.mp h
  obtain ⟨hcore, hread, hready⟩ := hs.provide hlocked hphase hprovide
  refine ⟨hcore.settled rfl rfl rfl rfl rfl rfl (fun _ => rfl) (.inr fun _ => le_rfl), fun _ hnot mb hmb _ => ?_,
    fun hborrowed => ?_⟩
  · exact hready (hread ▸ hnot) mb hmb
  · dsimp only at hborrowed
    split at hborrowed <;> cases hborrowed

/-! ### `work` and `postWorkTasks` -/

omit [LawfulManager M] in
theorem bufferManagerPop_phase [CountedManager M] {numBytes : Nat} (h : s.bufferManagerPop numBytes = some s') :
    s'.phase = s.phase := by
  unfold PortSystem.bufferManagerPop at h
  split at h
  · cases h
  · obtain rfl := Option.some.inj h
    rfl

/-- A pop of the worker, in the middle of `work` or later. -/
theorem Core.popBusy (hs : s.Core) (hlocked : s.locked = []) (hidle : s.phase ≠ .idle) (hborrowed : s.phase ≠ .borrowed)
    {numBytes : Nat} (hholds : s.Holds numBytes) (h : s.bufferManagerPop numBytes = some s') : s'.Guarded := by
  have hphase := bufferManagerPop_phase h
  exact (hs.bufferManagerPop hlocked hholds h).busy (hphase ▸ hidle) (hphase ▸ hborrowed)

theorem Guarded.popElements (hs : s.Guarded) (hat : s.At .work) {numElements : Nat}
    (hholds : s.Holds (SizeT.mul numElements s.port.dtype.sizeT)) (h : s.popElements numElements = some s') :
    s'.Guarded := by
  obtain ⟨hlocked, hwork⟩ := hat
  unfold PortSystem.popElements at h
  cases hpop : s.bufferManagerPop (SizeT.mul numElements s.port.dtype.sizeT) with
  | none =>
      rw [hpop] at h
      cases h
  | some s₁ =>
      rw [hpop] at h
      obtain rfl := Option.some.inj h
      have hphase := bufferManagerPop_phase hpop
      have hcore := hs.toCore.bufferManagerPop hlocked hholds hpop
      refine Core.busy (hcore.settled rfl rfl rfl rfl rfl rfl (fun _ => rfl) (.inr fun _ => le_rfl)) ?_ ?_ <;>
        simp [hphase, hwork]

theorem Guarded.getBuffer (hs : s.Guarded) (hat : s.At .work) {dtype : DType} {numElements : Nat}
    (hholds : SizeT.mul numElements dtype.sizeT ≤ s.port.buffer.length → s.port.bufferFromManager = true →
      s.Holds (SizeT.mul numElements dtype.sizeT)) (h : s.getBuffer dtype numElements = some s') : s'.Guarded := by
  obtain ⟨hlocked, hwork⟩ := hat
  unfold PortSystem.getBuffer at h
  dsimp only at h
  split at h
  next hle =>
    -- the references of `_buffer` go to the block
    have hcore : Core { s with
        port := { s.port with buffer := { BufferChunk.null with dtype := s.port.buffer.dtype } }
        kept := s.port.buffer.handles s.heap ++ s.kept } := by
      refine hs.toCore.settled rfl rfl rfl rfl rfl rfl (fun mb => ?_) (.inl hlocked)
      simp only [known_eq, List.count_append]
      rw [show List.count mb (BufferChunk.handles s.heap { BufferChunk.null with dtype := s.port.buffer.dtype }) = 0
        from rfl]
      push_cast
      omega
    split at h
    next hfrom =>
      refine hcore.popBusy hlocked (by simp [hwork]) (by simp [hwork]) ?_ h
      refine (hholds hle hfrom).imp_right fun hheld mb hmb => ?_
      have hheld := hheld mb hmb
      simp only [workerRefs, List.mem_append] at hheld ⊢
      tauto
    next =>
      obtain rfl := Option.some.inj h
      exact hcore.busy (by simp [hwork]) (by simp [hwork])
  next =>
    obtain rfl := Option.some.inj h
    exact hs

theorem Guarded.postWork (hs : s.Guarded) (hat : s.At .work) (hholds : s.Holding .postWork)
    (h : s.postWork = some s') : s'.Guarded := by
  obtain ⟨hlocked, hwork⟩ := hat
  unfold PortSystem.postWork at h
  dsimp only at h
  split at h
  next hpending =>
    have hcore : Core { s with
        port := { s.port with buffer := { s.port.buffer with length := s.pendingBytes } }
        phase := .send true } :=
      hs.toCore.settled rfl rfl rfl rfl rfl rfl (fun _ => rfl) (.inl hlocked)
    split at h
    next numBytes hpop =>
      exact hcore.popBusy hlocked (by simp) (by simp) (hholds hpending numBytes hpop) h
    next =>
      obtain rfl := Option.some.inj h
      exact hcore.busy (by simp) (by simp)
  next =>
    split at h
    next =>
      rw [hs.toCore.copy_front] at h
      obtain rfl := Option.some.inj h
      refine Core.busy ?_ (by simp) (by simp)
      refine hs.toCore.enter hlocked rfl hs.fronted (fun _ => rfl) rfl rfl rfl (fun mb => ?_)
        (Covered.incrs fun mb hmb _ => ?_)
      · simp only [known_eq, BufferAccumulator.net_acquire, List.count_append]
        push_cast
        omega
      · have hpos := List.count_pos_iff.mpr (hs.toCore.front_handles hmb).2
        rw [known_eq]
        omega
    next =>
      obtain rfl := Option.some.inj h
      refine Core.busy ?_ (by simp) (by simp)
      exact hs.toCore.settled rfl rfl rfl rfl rfl rfl (fun _ => rfl) (.inl hlocked)

theorem Guarded.postReserve (hs : s.Guarded) (hlocked : s.locked = []) {buffer : BufferChunk}
    (hholds : s.Holds buffer.length) (h : s.postReserve buffer = some s') : s'.Guarded := by
  have hcore : Core { s with phase := .send false } :=
    hs.toCore.settled rfl rfl rfl rfl rfl rfl (fun _ => rfl) (.inl hlocked)
  unfold PortSystem.postReserve at h
  dsimp only at h
  split at h
  next => exact hcore.popBusy hlocked (by simp) (by simp) hholds h
  next =>
    obtain rfl := Option.some.inj h
    exact hcore.busy (by simp) (by simp)

theorem Guarded.send (hs : s.Guarded) (hlocked : s.locked = []) (produced : Bool) : (s.send produced).Guarded := by
  unfold PortSystem.send
  generalize hfirst : (if produced then
      { s with port := { s.port with
          buffer := { BufferChunk.null with dtype := s.port.buffer.dtype }
          postedBuffers := s.port.postedBuffers ++ [s.port.buffer] } }
    else s) = s₁
  have hfirst : s₁.Core ∧ s₁.locked = [] := by
    rw [← hfirst]
    split
    next =>
      refine ⟨hs.toCore.settled rfl rfl rfl rfl rfl rfl (fun mb => ?_) (.inl hlocked), hlocked⟩
      simp only [known_eq, BufferAccumulator.refs_append, BufferAccumulator.refs_cons, BufferAccumulator.refs_nil,
        List.append_nil, List.count_append]
      rw [show List.count mb (BufferChunk.handles s.heap { BufferChunk.null with dtype := s.port.buffer.dtype }) = 0
        from rfl]
      push_cast
      omega
    next => exact ⟨hs.toCore, hlocked⟩
  obtain ⟨returning, hclear⟩ := clearBuffer_eq s₁
  have hcore := hfirst.1.clearBuffer hfirst.2
  dsimp only
  rw [hclear] at hcore ⊢
  refine ⟨hcore.settled rfl rfl rfl rfl rfl rfl (fun mb => ?_) (.inl hfirst.2), fun _ _ mb hmb => ?_, fun hne => ?_⟩
  · simp only [known_eq, BufferAccumulator.refs_nil, List.count_append, List.count_nil]
    push_cast
    omega
  · rw [show _ = [] from BufferChunk.null_handles _] at hmb
    cases hmb
  · cases hne

/-! ### The others -/

/-- A step that moves references and leaves the port alone. -/
theorem Guarded.beside (hs : s.Guarded) {op : RefOp} {kept downstream : List ManagedBuffer}
    (hcore : (unlocked { s with kept := kept, downstream := downstream } op).Core)
    (hkept : s.phase = .borrowed → s.kept ⊆ kept) :
    (unlocked { s with kept := kept, downstream := downstream } op).Guarded :=
  hs.carry hcore rfl rfl rfl rfl (Heap.sameLinks_apply s.heap [op]) (fun _ => id) hkept

theorem Guarded.give (hs : s.Guarded) (hlocked : s.locked = []) (hphase : s.phase ≠ .borrowed) {mb : ManagedBuffer}
    (hmb : mb ∈ s.kept) : Guarded { s with kept := s.kept.erase mb, downstream := mb :: s.downstream } := by
  have hpos := List.count_pos_iff.mpr hmb
  refine hs.carry ?_ rfl rfl rfl rfl (fun _ => ⟨rfl, rfl⟩) (fun _ => id) fun hborrowed => absurd hborrowed hphase
  refine hs.toCore.settled rfl rfl rfl rfl rfl rfl (fun x => ?_) (.inl hlocked)
  simp only [known_eq, List.count_erase, List.count_cons]
  by_cases hx : mb = x
  · subst hx
    simp only [beq_self_eq_true, if_true]
    omega
  · simp [hx]

theorem Guarded.receive (hs : s.Guarded) {mb : ManagedBuffer} (hmb : mb ∈ s.downstream) :
    Guarded { s with kept := mb :: s.kept, downstream := s.downstream.erase mb } := by
  have hpos := List.count_pos_iff.mpr hmb
  refine hs.carry ?_ rfl rfl rfl rfl (fun _ => ⟨rfl, rfl⟩) (fun _ => id) fun _ => List.subset_cons_self _ _
  refine hs.toCore.settled rfl rfl rfl rfl rfl rfl (fun x => ?_) (.inr fun x => ?_)
  · simp only [known_eq, List.count_erase, List.count_cons]
    by_cases hx : mb = x
    · subst hx
      simp only [beq_self_eq_true, if_true]
      omega
    · simp [hx]
  · simp only [known_eq, List.count_cons]
    omega

theorem Guarded.drop (hs : s.Guarded) {mb : ManagedBuffer} (hmb : mb ∈ s.downstream) :
    (unlocked { s with downstream := s.downstream.erase mb } (.decr mb)).Guarded := by
  have hpos := List.count_pos_iff.mpr hmb
  refine hs.beside (hs.toCore.downstream (fun x => ?_) fun hown => ?_) fun _ => List.Subset.refl _
  · simp only [RefOp.delta]
    split
    next hx =>
      subst hx
      rw [List.count_erase_self]
      omega
    next hx =>
      rw [List.count_erase_of_ne (fun he => hx he.symm)]
      omega
  · have hnonneg := hs.nonneg mb hown
    show 1 ≤ (s.heap.impl mb).counter
    rw [hs.toCore.counter (by exact hown)]
    omega

theorem Guarded.share (hs : s.Guarded) {mb : ManagedBuffer} (hpos : 0 < (s.heap.impl mb).counter) :
    (unlocked { s with downstream := mb :: s.downstream } (.incr mb)).Guarded := by
  refine hs.beside (hs.toCore.downstream (fun x => ?_) fun _ => hpos) fun _ => List.Subset.refl _
  simp only [List.count_cons, RefOp.delta]
  by_cases hx : mb = x <;> simp [hx]

theorem Guarded.push (hs : s.Guarded) (hlocked : s.locked = []) {mb : ManagedBuffer} (hmb : mb ∈ s.returning)
    {manager : M} {heap : Heap} (hpush : BufferManager.push s.port.bufferManager s.heap mb = .ok (manager, heap)) :
    Guarded { s with
      heap := (s.heap.relink heap).applyOp (.incr mb)
      port := { s.port with bufferManager := manager }
      locked := (CountedManager.pushOps s.port.bufferManager s.heap mb).tail
      returning := s.returning.erase mb } := by
  obtain ⟨hcore, hlinks, hprefix⟩ := hs.toCore.push hlocked hmb hpush
  refine hs.carry hcore rfl rfl rfl rfl ?_ hprefix.subset fun _ => List.Subset.refl _
  exact hlinks.trans (Heap.sameLinks_apply (s.heap.relink heap) [.incr mb])

/-! ### Steps and runs -/

theorem Guarded.lockedStep (hs : s.Guarded) (h : s.lockedStep = some s') : s'.Guarded := by
  have hcore := hs.toCore.lockedStep h
  unfold PortSystem.lockedStep at h
  split at h
  next => cases h
  next op ops hlocked =>
    obtain rfl := Option.some.inj h
    exact hs.carry hcore rfl rfl rfl rfl (Heap.sameLinks_apply s.heap [op]) (fun _ => id) fun _ => List.Subset.refl _

theorem Guarded.readBeforeWrite (hs : s.Guarded) (hlocked : s.locked = []) {copy : BufferChunk}
    (hkept : ∀ mb ∈ copy.handles s.heap, mb ∈ s.kept) :
    ((s.port.buffer.destroy s.heap ++ copy.acquire s.heap).foldl unlocked
      { s with port := { s.port with buffer := copy }, phase := .borrowed }).Guarded := by
  have hcore := hs.toCore.readBeforeWrite hlocked .borrowed hkept
  obtain ⟨returning, hstate⟩ := foldl_unlocked (s.port.buffer.destroy s.heap ++ copy.acquire s.heap)
    { s with port := { s.port with buffer := copy }, phase := .borrowed }
  rw [hstate] at hcore ⊢
  refine ⟨hcore, fun hidle => ?_, fun _ mb hmb => ?_⟩
  · cases hidle
  · rw [handles_links (Heap.sameLinks_apply s.heap _)] at hmb
    exact hkept mb hmb

theorem Guarded.postBuffer (hs : s.Guarded) (hat : s.At .work) {buffer : BufferChunk}
    (hkept : ∀ mb ∈ buffer.handles s.heap, mb ∈ s.kept) : (s.postBuffer buffer).Guarded := by
  have hphase : (s.postBuffer buffer).phase = .work := by
    simp only [PortSystem.postBuffer]
    obtain ⟨returning, hstate⟩ := foldl_unlocked (buffer.acquire s.heap) { s with port := { s.port with
      postedBuffers := s.port.postedBuffers ++ [if buffer.dtype.isSpecified then buffer
        else { buffer with dtype := s.port.dtype }]
      workEvents := s.port.workEvents + 1 } }
    rw [hstate]
    exact hat.2
  exact (hs.toCore.postBuffer hat.1 hkept).busy (by simp [hphase]) (by simp [hphase])

/-- A step that only counts. -/
theorem Guarded.counting (hs : s.Guarded) (hat : s.At .work) (pendingElements reserveElements workEvents : Nat) :
    Guarded { s with port := { s.port with
      pendingElements := pendingElements
      reserveElements := reserveElements
      workEvents := workEvents } } := by
  refine Core.busy ?_ (by simp [hat.2]) (by simp [hat.2])
  exact hs.toCore.settled rfl rfl rfl rfl rfl rfl (fun _ => rfl) (.inl hat.1)

/-- **One step.** A step whose pops hold keeps the account. -/
theorem Guarded.step {a : Action} (hs : s.Guarded) (hholds : s.Holding a) (h : s.step a = some s') : s'.Guarded := by
  unfold PortSystem.step at h
  rw [if_neg (by simp [hs.reentered])] at h
  cases a with
  | readBeforeWrite buffer =>
      obtain ⟨copy, -, h⟩ := Option.bind_eq_some_iff.mp h
      simp only [Option.ite_none_right_eq_some, Option.some.injEq] at h
      obtain ⟨⟨⟨hlocked, -⟩, -, hkept⟩, rfl⟩ := h
      exact hs.readBeforeWrite hlocked hkept
  | preWork proceeds =>
      simp only [Option.ite_none_right_eq_some] at h
      obtain ⟨⟨hlocked, hphase⟩, h⟩ := h
      exact hs.preWork hlocked hphase proceeds h
  | popElements numElements =>
      simp only [Option.ite_none_right_eq_some] at h
      exact hs.popElements h.1 hholds h.2
  | getBuffer dtype numElements =>
      simp only [Option.ite_none_right_eq_some] at h
      exact hs.getBuffer h.1 hholds h.2
  | produce numElements =>
      simp only [Option.ite_none_right_eq_some, Option.some.injEq] at h
      obtain ⟨hat, rfl⟩ := h
      exact hs.counting hat _ _ _
  | postBuffer buffer =>
      obtain ⟨copy, -, h⟩ := Option.bind_eq_some_iff.mp h
      simp only [Option.ite_none_right_eq_some, Option.some.injEq] at h
      obtain ⟨⟨hat, hkept⟩, rfl⟩ := h
      exact hs.postBuffer hat hkept
  | setReserve numElements =>
      simp only [Option.ite_none_right_eq_some, Option.some.injEq] at h
      obtain ⟨hat, rfl⟩ := h
      exact hs.counting hat _ _ _
  | postWork =>
      simp only [Option.ite_none_right_eq_some] at h
      exact hs.postWork h.1 hholds h.2
  | postReserve =>
      dsimp only at h
      split at h
      next buffer hphase =>
        simp only [Option.ite_none_right_eq_some] at h
        exact hs.postReserve h.1 (hholds buffer (by rw [hphase]; rfl)) h.2
      next => cases h
  | send =>
      dsimp only at h
      split at h
      next produced hphase =>
        simp only [Option.ite_none_right_eq_some, Option.some.injEq] at h
        obtain ⟨hlocked, rfl⟩ := h
        exact hs.send hlocked produced
      next => cases h
  | locked => exact hs.lockedStep h
  | release mb =>
      simp only [Option.ite_none_right_eq_some, Option.some.injEq] at h
      obtain ⟨⟨hlocked, hphase, hmb⟩, rfl⟩ := h
      exact hs.beside (hs.toCore.release hlocked hmb) fun hborrowed => absurd hborrowed hphase
  | give mb =>
      simp only [Option.ite_none_right_eq_some, Option.some.injEq] at h
      obtain ⟨⟨hlocked, hphase, hmb⟩, rfl⟩ := h
      exact hs.give hlocked hphase hmb
  | receive mb =>
      simp only [Option.ite_none_right_eq_some, Option.some.injEq] at h
      obtain ⟨hmb, rfl⟩ := h
      exact hs.receive hmb
  | share mb =>
      simp only [Option.ite_none_right_eq_some, Option.some.injEq] at h
      obtain ⟨hpos, rfl⟩ := h
      exact hs.share hpos
  | drop mb =>
      simp only [Option.ite_none_right_eq_some, Option.some.injEq] at h
      obtain ⟨hmb, rfl⟩ := h
      exact hs.drop hmb
  | push mb =>
      simp only [Option.ite_none_right_eq_some] at h
      obtain ⟨⟨hlocked, hmb⟩, h⟩ := h
      split at h
      next => cases h
      next manager heap hpush =>
        obtain rfl := Option.some.inj h
        exact hs.push hlocked hmb hpush

/-- **A run.** -/
theorem Guarded.run {as : List Action} (hs : s.Guarded)
    (h : Exec (restrict (ofPartial PortSystem.step) Holding) s as s') : s'.Guarded :=
  h.invariant (fun _ _ _ hs hstep => hs.step hstep.2 hstep.1) hs

end

end PortSystem

end PothosCore.Framework

import PothosCore.Framework.OutputPortOffer

/-!
# PothosCore.Framework.OutputPortProduce

What `postWorkTasks` makes of the elements that `work` produced. It compares them with the
whole managed buffer, while the offer may be the rest of one, and reports without cutting
what it posts: no over-production is handled soundly, and what was produced of the offer
is, as long as the offer is still the front of the manager.
-/

namespace PothosCore.Framework

open PothosCore.Lib

namespace PortUse

section
variable {M : Type} [PartialManager M]

/-- More was produced than the elements that were offered. -/
def Exceeds (w : PortUse M) : Prop := w.port.elements < w.produced

instance (w : PortUse M) : Decidable w.Exceeds := by
  unfold Exceeds; infer_instance

/-- The bytes of the produced elements. -/
def producedBytes (w : PortUse M) : Nat := w.produced * w.port.dtype.sizeT

/-- The chunk is in the space offered to this call of `work`. -/
def InOffer (w : PortUse M) (c : BufferChunk) : Prop :=
  c.managedBuffer = w.offered.managedBuffer ∧ w.offered.address ≤ c.address ∧
    c.getEnd ≤ w.offered.address + w.port.elements * w.port.dtype.sizeT

/-- The first bytes of the offer, as many as were produced. -/
def due (w : PortUse M) : List BufferChunk :=
  if w.produced = 0 then [] else [{ w.offered with length := w.producedBytes }]

/-- The manager hands out the first `n` bytes of the offer, and has them. -/
def HandsOut (w w' : PortUse M) (n : Nat) : Prop :=
  w.session.step (.pop n) = some w'.session ∧
    w'.session.log = w.session.log ++ w.offered.managedBuffer.toList.map (⟨·, w.offered.address, n⟩)

/-- Over-production is reported, and nothing outside of the offer is posted. -/
structure Detected (w w' : PortUse M) (r : Posted) : Prop where
  reported : r.overproduced.isSome = true
  within : ∃ posted, r.sent = w.port.postedBuffers ++ posted ∧ ∀ c ∈ posted, w.InOffer c
  consistent : w'.session.Consistent

/-- What was produced is posted, and the manager goes past it, or past all of its front. -/
structure Delivered (w w' : PortUse M) (r : Posted) : Prop where
  unreported : r.overproduced = none
  sent : r.sent = w.port.postedBuffers ++ w.due
  advances : w.produced ≠ 0 → w.port.bufferFromManager = true →
    ∃ n, (n = w.producedBytes ∨ n = w.session.front.length) ∧ HandsOut w w' n
  stays : w.produced ≠ 0 → w.port.bufferFromManager = false → w'.session = w.session
  reserve : w.produced = 0 →
    w'.session = w.session ∨ w.session.step (.pop w.session.front.length) = some w'.session

/-- `postWorkTasks` returns, and over-production is detected. -/
def Sound (w : PortUse M) : Prop :=
  ∃ r w', w.postWork = .ok (r, w') ∧ (w.Exceeds → Detected w w' r) ∧ (¬ w.Exceeds → Delivered w w' r)

/-- Nothing is produced that was not offered, and `_buffer` is still the front of the
manager when something is. The front that the reserve logic removes is in the queue. -/
def Orderly (w : PortUse M) : Prop :=
  w.produced ≤ w.port.elements ∧
    (w.produced ≠ 0 → w.port.buffer.isSome = true ∧
      (w.port.bufferFromManager = true → BufferManager.empty w.session.mgr = false ∧
        w.session.front.managedBuffer = w.offered.managedBuffer ∧
        w.session.front.address = w.offered.address)) ∧
    (w.produced = 0 → w.ReservePops → BufferManager.empty w.session.mgr = false)

instance (w : PortUse M) : Decidable w.Orderly := by
  unfold Orderly; infer_instance

end

section
variable {M : Type} [PartialManager M] {rot : Rotation M} {w w' : PortUse M} {r : Posted}

/-! ### What is pending -/

theorem Offering.sizeT_pos (ho : Offering rot w) : 0 < w.port.dtype.sizeT := by
  have hpos := ho.pos
  rw [ho.elements] at hpos
  exact Nat.pos_of_ne_zero fun hzero => absurd hpos (by rw [hzero, Nat.div_zero]; exact lt_irrefl 0)

/-- The elements are no more than the offer has room for. -/
theorem Offering.elements_le (ho : Offering rot w) : w.port.elements * w.port.dtype.sizeT ≤ w.offered.length := by
  rw [ho.elements]
  exact Nat.div_mul_le_self _ _

theorem Offering.producedBytes_le (ho : Offering rot w) (hle : w.produced ≤ w.port.elements) :
    w.producedBytes ≤ w.offered.length :=
  (Nat.mul_le_mul_right _ hle).trans ho.elements_le

/-- Nothing wraps while the elements are those of the offer. -/
theorem Kept.pendingBytes_eq (hw : Kept rot w) (hworking : w.working = true) (hle : w.produced ≤ w.port.elements) :
    w.pendingBytes = w.producedBytes := by
  have ho := hw.working hworking
  have hbytes := (ho.producedBytes_le hle).trans_lt ho.length
  have hproduced : w.produced < 2 ^ 64 := (Nat.le_mul_of_pos_right _ ho.sizeT_pos).trans_lt hbytes
  rw [pendingBytes, hw.buffer_dtype hworking, ho.pending, Nat.mod_eq_of_lt hproduced]
  exact SizeT.mul_eq hbytes

theorem producedBytes_ne_zero (ho : Offering rot w) (hproduced : w.produced ≠ 0) : w.producedBytes ≠ 0 :=
  Nat.mul_ne_zero hproduced ho.sizeT_pos.ne'

/-! ### What is posted -/

/-- `_buffer`, with the pending bytes. -/
def pendingChunk (w : PortUse M) : BufferChunk := { w.port.buffer with length := w.pendingBytes }

/-- What `popProduced` may have done. -/
theorem popProduced_inv (h : w.popProduced = .ok w') :
    (w.producedPop = none ∧ w' = w) ∨ ∃ n s, w.producedPop = some n ∧ w.session.pop n = .ok s ∧
      w' = { w with port := { w.port with bufferManager := s } } := by
  unfold popProduced at h
  cases hproduced : w.producedPop with
  | none =>
      rw [hproduced] at h
      exact .inl ⟨rfl, (Except.ok.inj h).symm⟩
  | some n =>
      rw [hproduced] at h
      obtain ⟨s, hpop, hw'⟩ := bufferManagerPop_inv h
      exact .inr ⟨n, s, rfl, hpop, hw'⟩

theorem popReserve_inv (h : w.popReserve = .ok w') :
    w' = w ∨ ∃ s, w.session.pop w.session.front.length = .ok s ∧
      w' = { w with port := { w.port with bufferManager := s } } := by
  unfold popReserve at h
  split at h
  · exact .inr (bufferManagerPop_inv h)
  · exact .inl (Except.ok.inj h).symm

omit [PartialManager M] in
theorem postBuffer_postedBuffers {c : BufferChunk} (hdtype : c.dtype = w.port.dtype) :
    (w.postBuffer c).port.postedBuffers = w.port.postedBuffers ++ [c] := by
  unfold postBuffer
  rw [← hdtype]
  simp

/-- With pending bytes, `_buffer` is posted. -/
theorem postWork_pending (hdtype : w.port.buffer.dtype = w.port.dtype) (hpending : w.pendingBytes ≠ 0) :
    w.postWork = .ok (r, w') ↔ ∃ w₁, w.popProduced = .ok w₁ ∧ w' = (w₁.postBuffer w.pendingChunk).finish ∧
      r = ⟨w.port.postedBuffers ++ [w.pendingChunk], w.overproduced⟩ := by
  have hsent : ∀ w₁, w.popProduced = .ok w₁ →
      (w₁.postBuffer w.pendingChunk).port.postedBuffers = w.port.postedBuffers ++ [w.pendingChunk] := by
    intro w₁ hpop
    rcases popProduced_inv hpop with ⟨-, rfl⟩ | ⟨n, s, -, -, rfl⟩
    · exact postBuffer_postedBuffers hdtype
    · exact postBuffer_postedBuffers (c := w.pendingChunk) hdtype
  unfold postWork
  rw [if_pos hpending]
  constructor
  · intro h
    obtain ⟨w₁, hpop, hok⟩ := bind_ok h
    obtain ⟨rfl, rfl⟩ := Prod.mk.inj (Except.ok.inj hok)
    exact ⟨w₁, hpop, rfl, congrArg (Posted.mk · w.overproduced) (hsent w₁ hpop)⟩
  · intro h
    obtain ⟨w₁, hpop, rfl, rfl⟩ := h
    rw [hpop, ← hsent w₁ hpop]
    rfl

/-- Without, the reserve logic has its turn. -/
theorem postWork_idle (hpending : w.pendingBytes = 0) :
    w.postWork = .ok (r, w') ↔ ∃ w₁, w.popReserve = .ok w₁ ∧ w' = w₁.finish ∧ r = ⟨w.port.postedBuffers, none⟩ := by
  have hsent : ∀ w₁, w.popReserve = .ok w₁ → w₁.port.postedBuffers = w.port.postedBuffers := by
    intro w₁ hpop
    rcases popReserve_inv hpop with rfl | ⟨s, -, rfl⟩ <;> rfl
  unfold postWork
  rw [if_neg (not_not.mpr hpending)]
  constructor
  · intro h
    obtain ⟨w₁, hpop, hok⟩ := bind_ok h
    obtain ⟨rfl, rfl⟩ := Prod.mk.inj (Except.ok.inj hok)
    exact ⟨w₁, hpop, rfl, congrArg (Posted.mk · none) (hsent w₁ hpop)⟩
  · intro h
    obtain ⟨w₁, hpop, rfl, rfl⟩ := h
    rw [hpop, ← hsent w₁ hpop]
    rfl

/-! ### Over-production -/

/-- The managed buffer has at least the bytes of the offer. -/
theorem Lies.length_le {c : BufferChunk} {fromManager : Bool} (hc : Lies rot w c fromManager) :
    c.length ≤ (c.getBuffer (w.heapOf fromManager)).length := by
  have haddress := hc.address
  have hgetEnd := hc.getEnd
  unfold BufferChunk.getEnd SharedBuffer.getEnd at hgetEnd
  omega

/-- **What is reported was posted outside of the offer.** -/
theorem Kept.not_detected (hw : Kept rot w) (hworking : w.working = true) (hpost : w.postWork = .ok (r, w')) :
    ¬ Detected w w' r := by
  intro hdetected
  have ho := hw.working hworking
  have hreported := hdetected.reported
  by_cases hpending : w.pendingBytes = 0
  · obtain ⟨w₁, -, -, rfl⟩ := (postWork_idle hpending).mp hpost
    cases hreported
  · obtain ⟨w₁, -, -, rfl⟩ := (postWork_pending (hw.buffer_dtype hworking) hpending).mp hpost
    obtain ⟨posted, hsent, hwithin⟩ := hdetected.within
    obtain rfl := List.append_cancel_left hsent
    obtain ⟨hmb, -, hend⟩ := hwithin _ (List.mem_singleton_self _)
    have hexceeds : w.available < w.pendingBytes := by
      by_contra hle
      unfold overproduced at hreported
      rw [if_neg fun h => hle h.2] at hreported
      cases hreported
    rcases ho.buffer with hnull | ⟨hbuffer, hlies⟩
    · have hsome := ho.isSome
      rw [BufferChunk.isSome, ← hmb, pendingChunk, hnull] at hsome
      cases hsome
    · have hlength := hlies.length_le
      have helements := ho.elements_le
      rw [available, hbuffer] at hexceeds
      rw [BufferChunk.getEnd, pendingChunk, hbuffer] at hend
      have hlt := hlength.trans_lt hexceeds
      dsimp only at hend
      omega

/-! ### Production of what was offered -/

/-- While `_buffer` is the front of the manager, the two end where the managed buffer does. -/
theorem Kept.front_length (hw : Kept rot w) (hlies : Lies rot w w.offered true)
    (hne : BufferManager.empty w.session.mgr = false)
    (hmb : w.session.front.managedBuffer = w.offered.managedBuffer)
    (haddress : w.session.front.address = w.offered.address) : w.session.front.length = w.offered.length := by
  obtain ⟨mb, hsome⟩ := Option.isSome_iff_exists.mp hlies.isSome
  have hfront := rot.front_getEnd hw.inv hne (hmb.trans hsome)
  have hoffered := (hlies.past rfl mb hsome).2
  unfold BufferChunk.getEnd at hfront hoffered
  omega

/-- The pop of `postWorkTasks`, while `_buffer` is the front: the bytes that were produced,
or the whole front. -/
theorem Kept.pop_produced (hw : Kept rot w) (hfrom : w.port.bufferFromManager = true)
    (hbuffer : w.port.buffer = w.offered) (hlies : Lies rot w w.offered true)
    (hle : w.pendingBytes ≤ w.offered.length) (hpos : 0 < w.pendingBytes)
    (hne : BufferManager.empty w.session.mgr = false)
    (hmb : w.session.front.managedBuffer = w.offered.managedBuffer)
    (haddress : w.session.front.address = w.offered.address) :
    ∃ n s, (n = w.pendingBytes ∨ n = w.session.front.length) ∧ w.session.step (.pop n) = some s ∧
      w.popProduced = .ok { w with port := { w.port with bufferManager := s } } := by
  have hlength := hw.front_length hlies hne hmb haddress
  have havailable : w.offered.length ≤ w.available := by
    rw [available, hbuffer, bufferHeap, hfrom]
    exact hlies.length_le
  have hpops : ∀ n s, w.producedPop = some n → w.session.pop n = .ok s →
      w.popProduced = .ok { w with port := { w.port with bufferManager := s } } := by
    intro n s hproduced hpop
    unfold popProduced
    rw [hproduced]
    show w.bufferManagerPop n = _
    rw [bufferManagerPop, hpop]
    rfl
  have hgrants : ∀ n, n ≤ w.session.front.length → ∃ s, w.session.pop n = .ok s :=
    fun n hn => (rot.grants hw.inv).mpr ⟨hne, .inr hn⟩
  have hproduced : w.producedPop = if w.Short then some w.available else some w.pendingBytes := by
    unfold producedPop
    rw [if_pos hfrom, if_neg (hle.trans havailable).not_gt]
  by_cases hshort : w.Short
  · rw [if_pos hshort] at hproduced
    -- a buffer that is mapped twice is exempt
    have hclips : PartialManager.clips M = true := by
      by_contra hclips
      have halias := hshort.2.1
      rw [bufferHeap, hfrom] at halias
      refine rot.mapped_twice hw.inv (by simpa using hclips) hne ?_ ?_ halias
      · omega
      · rw [hbuffer]
        exact hmb.symm
    obtain ⟨s, hpop⟩ := hgrants w.session.front.length (le_refl _)
    refine ⟨_, s, .inr rfl, Session.step_of_pop (le_refl _) hpop, hpops _ s hproduced ?_⟩
    have hover : w.session.front.length ≤ w.available := hlength ▸ havailable
    rw [Session.pop, rot.clip hw.inv hclips hne hover, Nat.min_eq_right hover]
    rw [Session.pop, Nat.min_self] at hpop
    exact hpop
  · rw [if_neg hshort] at hproduced
    obtain ⟨s, hpop⟩ := hgrants w.pendingBytes (hlength ▸ hle)
    exact ⟨_, s, .inl rfl, Session.step_of_pop (hlength ▸ hle) hpop, hpops _ s hproduced hpop⟩

/-- The log of a pop names the front. -/
theorem handsOut_front {n : Nat} (hsome : w.offered.isSome = true) (h : HandsOut w w' n) :
    w.session.front.managedBuffer = w.offered.managedBuffer ∧ w.session.front.address = w.offered.address := by
  obtain ⟨hstep, hlog⟩ := h
  obtain ⟨mb, hmb⟩ := Option.isSome_iff_exists.mp hsome
  obtain ⟨-, mgr, heap, -, hrecord⟩ := Session.step_inv hstep
  rw [hrecord, Session.record] at hlog
  have hhanded := List.append_cancel_left hlog
  rw [hmb] at hhanded ⊢
  cases hfront : w.session.front.managedBuffer with
  | none =>
      rw [hfront] at hhanded
      cases hhanded
  | some x =>
      rw [hfront] at hhanded
      simp only [Option.toList_some, List.map_cons, List.map_nil, List.cons.injEq, Handed.mk.injEq] at hhanded
      exact ⟨congrArg some hhanded.1.1, hhanded.1.2.1⟩

theorem handsOut_of_front {n : Nat} (hstep : w.session.step (.pop n) = some w'.session)
    (hmb : w.session.front.managedBuffer = w.offered.managedBuffer)
    (haddress : w.session.front.address = w.offered.address) : HandsOut w w' n := by
  refine ⟨hstep, ?_⟩
  obtain ⟨-, mgr, heap, -, hrecord⟩ := Session.step_inv hstep
  rw [hrecord, ← hmb, ← haddress]
  rfl

omit [PartialManager M] in
/-- Without over-production nothing is reported. -/
theorem overproduced_none (h : w.port.bufferFromManager = true → w.pendingBytes ≤ w.available) :
    w.overproduced = none := by
  unfold overproduced
  rw [if_neg fun hover => (h hover.1).not_gt hover.2]

theorem Kept.sound_of_orderly (hw : Kept rot w) (hworking : w.working = true) (h : w.Orderly) : w.Sound := by
  obtain ⟨hle, hproduced, hreserve⟩ := h
  have ho := hw.working hworking
  have hbytes := hw.pendingBytes_eq hworking hle
  have hexceeds : ¬ w.Exceeds := hle.not_gt
  by_cases hzero : w.produced = 0
  · have hpending : w.pendingBytes = 0 := by rw [hbytes, producedBytes, hzero, Nat.zero_mul]
    have hpop : ∃ w₁, w.popReserve = .ok w₁ ∧
        (w₁.session = w.session ∨ w.session.step (.pop w.session.front.length) = some w₁.session) := by
      unfold popReserve
      by_cases hpops : w.ReservePops
      · obtain ⟨s, hpop⟩ := (rot.grants hw.inv).mpr ⟨hreserve hzero hpops, .inr (le_refl w.session.front.length)⟩
        refine ⟨{ w with port := { w.port with bufferManager := s } }, ?_, .inr (Session.step_of_pop (le_refl _) hpop)⟩
        rw [if_pos hpops, bufferManagerPop, hpop]
        rfl
      · exact ⟨w, if_neg hpops, .inl rfl⟩
    obtain ⟨w₁, hpop, hsession⟩ := hpop
    refine ⟨_, _, (postWork_idle hpending).mpr ⟨w₁, hpop, rfl, rfl⟩, fun h => absurd h hexceeds, fun _ => ?_⟩
    refine ⟨rfl, ?_, fun h => absurd hzero h, fun h => absurd hzero h, fun _ => hsession⟩
    rw [due, if_pos hzero, List.append_nil]
  · have hpending : w.pendingBytes ≠ 0 := hbytes ▸ producedBytes_ne_zero ho hzero
    have hdtype := hw.buffer_dtype hworking
    obtain ⟨hsome, hfront⟩ := hproduced hzero
    have hpresent : w.port.buffer = w.offered ∧ Lies rot w w.offered w.port.bufferFromManager := by
      refine ho.buffer.resolve_left fun hnull => ?_
      rw [hnull] at hsome
      cases hsome
    obtain ⟨hbuffer, hlies⟩ := hpresent
    have hlength : w.pendingBytes ≤ w.offered.length := hbytes ▸ ho.producedBytes_le hle
    have hnone : w.overproduced = none := by
      refine overproduced_none fun hfrom => ?_
      rw [available, hbuffer]
      exact hlength.trans hlies.length_le
    have hdue : [w.pendingChunk] = w.due := by rw [due, if_neg hzero, pendingChunk, hbuffer, hbytes]
    cases hfrom : w.port.bufferFromManager with
    | false =>
        have hpop : w.popProduced = .ok w := by
          unfold popProduced producedPop
          rw [hfrom]
          rfl
        refine ⟨_, _, (postWork_pending hdtype hpending).mpr ⟨w, hpop, rfl, rfl⟩, fun h => absurd h hexceeds,
          fun _ => ?_⟩
        refine ⟨hnone, by rw [hdue], fun _ h => ?_, fun _ _ => rfl, fun h => absurd h hzero⟩
        rw [hfrom] at h
        cases h
    | true =>
        obtain ⟨hne, hmb, haddress⟩ := hfront hfrom
        rw [hfrom] at hlies
        obtain ⟨n, s, hn, hstep, hpop⟩ := hw.pop_produced hfrom hbuffer hlies hlength (Nat.pos_of_ne_zero hpending)
          hne hmb haddress
        refine ⟨_, _, (postWork_pending hdtype hpending).mpr ⟨_, hpop, rfl, rfl⟩, fun h => absurd h hexceeds,
          fun _ => ?_⟩
        refine ⟨hnone, by rw [hdue], fun _ _ => ⟨n, hbytes ▸ hn, ?_⟩, fun _ h => ?_, fun h => absurd h hzero⟩
        · exact handsOut_of_front hstep hmb haddress
        · rw [hfrom] at h
          cases h

theorem Kept.orderly_of_sound (hw : Kept rot w) (hworking : w.working = true) (h : w.Sound) : w.Orderly := by
  obtain ⟨r, w', hpost, hexceeds, hdelivered⟩ := h
  have ho := hw.working hworking
  have hnot : ¬ w.Exceeds := fun h => hw.not_detected hworking hpost (hexceeds h)
  have hle : w.produced ≤ w.port.elements := Nat.le_of_not_lt hnot
  have hbytes := hw.pendingBytes_eq hworking hle
  have hdelivered := hdelivered hnot
  refine ⟨hle, fun hproduced => ⟨?_, fun hfrom => ?_⟩, fun hzero hpops => ?_⟩
  · have hpending : w.pendingBytes ≠ 0 := hbytes ▸ producedBytes_ne_zero ho hproduced
    obtain ⟨w₁, -, -, rfl⟩ := (postWork_pending (hw.buffer_dtype hworking) hpending).mp hpost
    have hsent := List.append_cancel_left hdelivered.sent
    rw [due, if_neg hproduced] at hsent
    have hmb := congrArg BufferChunk.managedBuffer (List.singleton_inj.mp hsent)
    have hsome := ho.isSome
    rw [BufferChunk.isSome, ← show w.port.buffer.managedBuffer = w.offered.managedBuffer from hmb] at hsome
    exact hsome
  · obtain ⟨n, -, hhands⟩ := hdelivered.advances hproduced hfrom
    have hgrants := (rot.grants hw.inv).mp ⟨_, Session.pop_of_step hhands.1⟩
    exact ⟨hgrants.1, handsOut_front ho.isSome hhands⟩
  · have hpending : w.pendingBytes = 0 := by rw [hbytes, producedBytes, hzero, Nat.zero_mul]
    obtain ⟨w₁, hpop, -, -⟩ := (postWork_idle hpending).mp hpost
    rw [popReserve, if_pos hpops] at hpop
    obtain ⟨s, hpop, -⟩ := bufferManagerPop_inv hpop
    exact ((rot.grants hw.inv).mp ⟨s, hpop⟩).1

end

/-- **Over-production.** In every call of `work` of a port with a generic or a circular
manager, whatever was popped and produced before, `postWorkTasks` detects over-production
and posts exactly what was produced if and only if no more was produced than was offered,
and what was produced is of a buffer that is still at the front of the manager. -/
theorem postWork_sound_iff (dtype : DType) (readBeforeWrite : Bool) (heap inputs : Heap) :
    (∀ (p : Slabs) (h : Heap), p.bufferSize < 2 ^ 64 →
      ∃ m h', GenericBufferManager.init ⟨p.numBuffers, p.bufferSize⟩ p.commonSlab p.first h = .ok (m, h') ∧
        ∀ actions w, Exec (ofPartial step)
            (bufferManagerSetup (Session.start h' m) p.commonSlab dtype readBeforeWrite heap inputs) actions w →
          w.working = true → (w.Sound ↔ w.Orderly)) ∧
      ∀ (r : Ring) (h : Heap), r.bufferSize < 2 ^ 64 →
        ∃ m h', CircularBufferManager.init ⟨r.numBuffers, r.bufferSize⟩ r.circBuff r.first h = .ok (m, h') ∧
          ∀ actions w, Exec (ofPartial step)
              (bufferManagerSetup (Session.start h' m) r.circBuff dtype readBeforeWrite heap inputs) actions w →
            w.working = true → (w.Sound ↔ w.Orderly) := by
  refine ⟨fun p h hsize => ?_, fun r h hsize => ?_⟩
  · obtain ⟨m, h', hinit, hkept⟩ := kept_generic p h hsize dtype readBeforeWrite heap inputs
    refine ⟨m, h', hinit, fun actions w hrun hworking => ?_⟩
    exact ⟨(hkept actions w hrun).orderly_of_sound hworking, (hkept actions w hrun).sound_of_orderly hworking⟩
  · obtain ⟨m, h', hinit, hkept⟩ := kept_circular r h hsize dtype readBeforeWrite heap inputs
    refine ⟨m, h', hinit, fun actions w hrun hworking => ?_⟩
    exact ⟨(hkept actions w hrun).orderly_of_sound hworking, (hkept actions w hrun).sound_of_orderly hworking⟩

/-! ### A front that was popped in part -/

/-- Two slabs of 16 bytes. -/
def twoSlabs : Slabs := ⟨⟨2, 0, Nat.two_pos⟩, ⟨16, 32, 0⟩, 16, by decide⟩

/-- A run of a port of single bytes over the two slabs. -/
def runTwoSlabs (actions : List Action) : Option (PortUse GenericBufferManager) :=
  (GenericBufferManager.init ⟨2, 16⟩ ⟨16, 32, 0⟩ 0 .empty).toOption.bind fun r =>
    runPartial step (bufferManagerSetup (Session.start r.2 r.1) ⟨16, 32, 0⟩ ⟨1, 1, 1⟩ false .empty .empty) actions

theorem exec_of_runTwoSlabs {m : GenericBufferManager} {h' : Heap} {actions : List Action}
    {w : PortUse GenericBufferManager}
    (hinit : GenericBufferManager.init ⟨2, 16⟩ ⟨16, 32, 0⟩ 0 .empty = .ok (m, h')) (h : runTwoSlabs actions = some w) :
    Exec (ofPartial step) (bufferManagerSetup (Session.start h' m) ⟨16, 32, 0⟩ ⟨1, 1, 1⟩ false .empty .empty) actions
      w := by
  unfold runTwoSlabs at h
  rw [hinit] at h
  exact exec_of_runPartial h

/-- The first call of `work` produces 4 bytes, and the second all of the other 12. -/
theorem postWork_sound_rest :
    ∃ w, runTwoSlabs [.preWork none, .produce 4, .postWork, .preWork none, .produce 12] = some w ∧ w.Sound := by
  obtain ⟨w, hw, hstate⟩ := Option.map_eq_some_iff.mp
    (show (runTwoSlabs [.preWork none, .produce 4, .postWork, .preWork none, .produce 12]).map
      (fun w => (w.working, decide w.Orderly)) = some (true, true) by decide +kernel)
  obtain ⟨hworking, horderly⟩ := Prod.mk.inj hstate
  obtain ⟨m, h', hinit, hsound⟩ := (postWork_sound_iff ⟨1, 1, 1⟩ false .empty .empty).1 twoSlabs .empty (by decide)
  exact ⟨w, hw, (hsound _ w (exec_of_runTwoSlabs hinit hw) hworking).mpr (of_decide_eq_true horderly)⟩

/-- Of the other 12 bytes it produces 13, which the whole buffer would have room for. -/
theorem not_postWork_sound_rest :
    ¬ ∀ (dtype : DType) (readBeforeWrite : Bool) (heap inputs : Heap) (p : Slabs) (h : Heap),
      p.bufferSize < 2 ^ 64 →
        ∃ m h', GenericBufferManager.init ⟨p.numBuffers, p.bufferSize⟩ p.commonSlab p.first h = .ok (m, h') ∧
          ∀ actions w, Exec (ofPartial step)
              (bufferManagerSetup (Session.start h' m) p.commonSlab dtype readBeforeWrite heap inputs) actions w →
            w.working = true → w.Sound := by
  intro hall
  obtain ⟨m, h', hinit, hsound⟩ := hall ⟨1, 1, 1⟩ false .empty .empty twoSlabs .empty (by decide)
  obtain ⟨w, hw, hstate⟩ := Option.map_eq_some_iff.mp
    (show (runTwoSlabs [.preWork none, .produce 4, .postWork, .preWork none, .produce 13]).map
      (fun w => (w.working, decide w.Exceeds, w.postWork.toOption.map fun p => p.1.overproduced)) =
        some (true, true, some none) by decide +kernel)
  obtain ⟨hworking, hstate⟩ := Prod.mk.inj hstate
  obtain ⟨hexceeds, hnone⟩ := Prod.mk.inj hstate
  obtain ⟨r, w', hpost, hdetected, -⟩ := hsound _ w (exec_of_runTwoSlabs hinit hw) hworking
  have hreported := (hdetected (of_decide_eq_true hexceeds)).reported
  rw [hpost] at hnone
  rw [show r.overproduced = none from Option.some.inj hnone] at hreported
  cases hreported

end PortUse

end PothosCore.Framework

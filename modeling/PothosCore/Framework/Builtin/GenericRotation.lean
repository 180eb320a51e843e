import PothosCore.Framework.Builtin.GenericSession
import PothosCore.Framework.ManagerRotation

/-!
# PothosCore.Framework.Builtin.GenericRotation

A generic manager in use, whatever the order in which its buffers come back. A buffer out
of order over an empty queue spoils the front, and nothing else: `Standing` says what a
session keeps to, and `rotation` reads off it what the port relies on while a slab is
ready.
-/

namespace PothosCore.Framework

open PothosCore.Lib PothosCore.Util

namespace GenericBufferManager

instance : PartialManager GenericBufferManager where
  bufferSize := bufferSize
  bytesPopped := bytesPopped
  clips := true

/-- What a session keeps to whatever the order of the pushes. -/
structure Standing (s : Session GenericBufferManager) (p : Slabs) (head tail : Nat) : Prop where
  stands : Stands s.mgr p head tail
  slabbed : p.Slabbed s.heap
  laid : p.Laid s.heap
  lending : p.Lending s.out s.mgr.readyBuffs head tail

theorem standing_start {m : GenericBufferManager} {h : Heap} {p : Slabs} (w : Offers m p 0 p.numBuffers)
    (hs : p.Slabbed h) (hl : p.Laid h) : Standing (Session.start h m) p 0 p.numBuffers where
  stands := w.stands
  slabbed := hs
  laid := hl
  lending := Row.Lending.start p.toRow m.readyBuffs p.numBuffers

section
variable {s s' : Session GenericBufferManager} {p : Slabs} {head tail : Nat}

theorem Standing.front (hs : Standing s p head tail) (hlt : head < tail) : s.front =
    ⟨p.slabStart (head % p.numBuffers) + s.mgr.bytesPopped,
      p.bufferSize - s.mgr.bytesPopped, .unspecified, some (p.ident head), 0⟩ :=
  hs.stands.front hlt

theorem Standing.lt_iff (hs : Standing s p head tail) : head < tail ↔ BufferManager.empty s.mgr = false := by
  constructor
  · exact hs.stands.stock.not_empty
  · intro hne
    refine Nat.lt_of_le_of_ne hs.stands.stock.head_le fun heq => ?_
    have hempty : BufferManager.empty s.mgr = true := hs.stands.stock.empty_iff.mpr heq
    rw [hne] at hempty
    cases hempty

theorem Standing.laid_ident (hs : Standing s p head tail) (k : Nat) :
    (s.heap.impl (p.ident k)).buffer.address = p.slabStart (k % p.numBuffers) ∧
      (s.heap.impl (p.ident k)).buffer.length = p.bufferSize :=
  hs.laid _ (Nat.mod_lt k p.pos)

/-- A pop uses the front again, or lends it. -/
theorem Standing.pop (hs : Standing s p head tail) (hlt : head < tail) (n : Nat) :
    ∃ s', s.pop n = .ok s' ∧
      (((s.mgr.bytesPopped + n) * 2 < p.bufferSize ∧ Standing s' p head tail ∧
          s'.mgr.readyBuffs = s.mgr.readyBuffs ∧ s'.mgr.bytesPopped = s.mgr.bytesPopped + n) ∨
        (Standing s' p (head + 1) tail ∧ p.ident head ∈ s'.out ∧
          ∀ k, p.Lent s'.mgr.readyBuffs (head + 1) tail k ↔ p.Lent s.mgr.readyBuffs head tail k ∨ k = head)) := by
  have hoffers := hs.stands.offers hlt
  have hsf : s.front.managedBuffer = some (p.ident head) := by rw [hs.front hlt]
  by_cases hsmall : (s.mgr.bytesPopped + n) * 2 < p.bufferSize
  · obtain ⟨m', ops, hpop, hw', hready, hbytes⟩ := pop_reuse hoffers hs.laid hlt hsmall
    have hcall : s.call (.pop n) = .ok (m', s.heap.apply ops) := hpop
    refine ⟨_, by rw [Session.pop, hcall], .inl ⟨hsmall, ?_, hready, hbytes⟩⟩
    have hmb : (BufferManager.front m').managedBuffer = s.front.managedBuffer := by
      rw [hsf]
      simp only [BufferManager.front, hw'.front hlt]
    refine ⟨hw'.stands, hs.slabbed.of_links (s.heap.sameLinks_apply ops), hs.laid.of_apply ops, ?_⟩
    simp only [Session.record, Session.retired, if_pos hmb, List.append_nil, hready]
    exact hs.lending
  · obtain ⟨m', ops, hpop, hw', hlent, -⟩ := pop_move hoffers hs.laid hlt hsmall
    have hcall : s.call (.pop n) = .ok (m', s.heap.apply ops) := hpop
    have hmb' : (BufferManager.front m').managedBuffer =
        if head + 1 < tail then some (p.ident (head + 1)) else none := by
      by_cases hlt' : head + 1 < tail
      · rw [if_pos hlt']
        simp only [BufferManager.front, hw'.front hlt']
      · rw [if_neg hlt']
        simp only [BufferManager.front, (hw'.idle (by omega)).1, BufferChunk.null_managedBuffer]
    obtain ⟨hretired, -⟩ := Row.moved hsf hmb' hs.stands.stock.tail_le
    refine ⟨_, by rw [Session.pop, hcall], .inr ⟨?_, ?_, hlent⟩⟩
    · refine ⟨hw'.stands, hs.slabbed.of_links (s.heap.sameLinks_apply ops), hs.laid.of_apply ops, ?_⟩
      simp only [Session.record, hretired]
      exact hs.lending.retire hlt hlent
    · simp only [Session.record, hretired, List.mem_append, List.mem_singleton, or_true]

/-- A pop that returned. -/
theorem Standing.pop_cases (hs : Standing s p head tail) {n : Nat} (h : s.pop n = .ok s') :
    head < tail ∧
      (((s.mgr.bytesPopped + n) * 2 < p.bufferSize ∧ Standing s' p head tail ∧
          s'.mgr.readyBuffs = s.mgr.readyBuffs ∧ s'.mgr.bytesPopped = s.mgr.bytesPopped + n) ∨
        (Standing s' p (head + 1) tail ∧ p.ident head ∈ s'.out ∧
          ∀ k, p.Lent s'.mgr.readyBuffs (head + 1) tail k ↔ p.Lent s.mgr.readyBuffs head tail k ∨ k = head)) := by
  have hlt : head < tail := by
    refine Nat.lt_of_le_of_ne hs.stands.stock.head_le fun heq => ?_
    obtain ⟨mgr, heap, hcall, -⟩ := Session.pop_inv h
    have hfail : s.mgr.pop s.heap n = .ok (mgr, heap) := hcall
    rw [GenericBufferManager.pop, if_pos (hs.stands.stock.empty_iff.mpr heq)] at hfail
    cases hfail
  obtain ⟨s₁, hpop, hcases⟩ := hs.pop hlt n
  obtain rfl : s₁ = s' := Except.ok.inj (hpop.symm.trans h)
  exact ⟨hlt, hcases⟩

/-- A push, in order or not. -/
theorem Standing.push_cases (hs : Standing s p head tail) {mb : ManagedBuffer}
    (h : s.step (.push mb) = some s') :
    ∃ tail', tail ≤ tail' ∧ Standing s' p head tail' ∧ (head < tail → s'.front = s.front) ∧
      s'.mgr.bytesPopped = s.mgr.bytesPopped ∧
      ∀ k, p.Lent s'.mgr.readyBuffs head tail' k ↔ p.Lent s.mgr.readyBuffs head tail k ∧ p.ident k ≠ mb := by
  obtain ⟨hadm, m', heap', hcall, rfl⟩ := Session.step_inv h
  obtain ⟨j, hj, rfl⟩ := (hs.lending.out mb).mp hadm
  have hjlt := Nat.mod_lt j p.pos
  obtain ⟨ha, hn⟩ := hs.laid _ hjlt
  obtain ⟨m₁, ops, tail', hpush, hstands, hlent, -, hle, -, -, hbytes, hkeep, -⟩ :=
    push_spec hs.stands (hs.slabbed _ hjlt) ha hn hj.2.2
  obtain ⟨rfl, rfl⟩ : m₁ = m' ∧ s.heap.apply ops = heap' := by simpa using hpush.symm.trans hcall
  simp only [← ne_eq, ← Row.ident_inj.not] at hlent
  exact ⟨tail', hle, ⟨hstands, hs.slabbed.of_links (s.heap.sameLinks_apply ops), hs.laid.of_apply ops,
    hs.lending.back hlent⟩, hkeep, hbytes, hlent⟩

/-- The front is what is left of the slab at the front of the queue. -/
theorem Standing.consistent (hs : Standing s p head tail) : s.Consistent := by
  intro hne
  have hlt := hs.lt_iff.mpr hne
  obtain ⟨ha, hn⟩ := hs.laid_ident head
  have hbytes := hs.stands.bytesPopped
  have hsize : PartialManager.bufferSize s.mgr = p.bufferSize := hs.stands.bufferSize
  have hpopped : PartialManager.bytesPopped s.mgr = s.mgr.bytesPopped := rfl
  rw [hs.front hlt]
  refine ⟨_, rfl, by rw [ha, hpopped], ?_, hn.trans hsize.symm⟩
  rw [hsize, hpopped]
  show _ + (_ - _) = _
  omega

/-- A pop of more than the front has is a pop of the whole front. -/
theorem Standing.clip (hs : Standing s p head tail) (hne : BufferManager.empty s.mgr = false) {n : Nat}
    (hle : s.front.length ≤ n) : s.call (.pop n) = s.call (.pop s.front.length) := by
  have hlt := hs.lt_iff.mpr hne
  have hbytes := hs.stands.bytesPopped
  have hsize := hs.stands.bufferSize
  -- either pop uses the front up, and what is left does not depend on its size
  have hlarge : ∀ k, s.front.length ≤ k → ¬ (s.mgr.bytesPopped + k) * 2 < s.mgr.bufferSize := by
    intro k hk
    rw [hs.front hlt] at hk
    have hk : p.bufferSize - s.mgr.bytesPopped ≤ k := hk
    omega
  show s.mgr.pop s.heap n = s.mgr.pop s.heap s.front.length
  rw [GenericBufferManager.pop, GenericBufferManager.pop]
  simp only [hlarge n hle, hlarge _ (le_refl _), if_false]

/-- The whole front lies in the common slab. -/
theorem Standing.mapped (hs : Standing s p head tail) (hne : BufferManager.empty s.mgr = false) {y : Nat}
    (hy : s.front.Covers y) : p.commonSlab.Maps y := by
  have hlt := hs.lt_iff.mpr hne
  have hbytes := hs.stands.bytesPopped
  simp only [BufferChunk.Covers, BufferChunk.getEnd, hs.front hlt, Slabs.slabStart] at hy
  have hmod := Nat.mod_lt head p.pos
  have hcut : p.bufferSize * (head % p.numBuffers) + p.bufferSize ≤ p.commonSlab.length := by
    calc p.bufferSize * (head % p.numBuffers) + p.bufferSize = p.bufferSize * (head % p.numBuffers + 1) := rfl
      _ ≤ p.bufferSize * p.numBuffers := Nat.mul_le_mul_left _ hmod
      _ = p.numBuffers * p.bufferSize := Nat.mul_comm _ _
      _ ≤ p.commonSlab.length := p.fits
  have hmax := Nat.le_max_right p.commonSlab.aliasAddress p.commonSlab.address
  exact ⟨by omega, by omega⟩

end

/-! ### What the manager has gone past -/

/-- The bytes are of a check-out that is lent, or before the front. -/
def Past (p : Slabs) (s : Session GenericBufferManager) (e : Handed) : Prop :=
  ∃ head tail k, Standing s p head tail ∧ e.mb = p.ident k ∧ p.slabStart (k % p.numBuffers) ≤ e.address ∧
    (p.Lent s.mgr.readyBuffs head tail k ∨
      (k = head ∧ head < tail ∧
        e.address + e.length ≤ p.slabStart (head % p.numBuffers) + s.mgr.bytesPopped))

section
variable {s s' : Session GenericBufferManager} {p : Slabs} {e : Handed} {n : Nat}

theorem Past.pop (he : Past p s e) (h : s.pop n = .ok s') :
    Past p s' { e with length := e.length + n } ∧
      (s'.heap.impl e.mb).buffer.address = (s.heap.impl e.mb).buffer.address ∧
      (s'.heap.impl e.mb).buffer.length = (s.heap.impl e.mb).buffer.length := by
  obtain ⟨head, tail, k, hs, hmb, hlo, hk⟩ := he
  obtain ⟨hlt, ⟨hsmall, hs', hready, hbytes⟩ | ⟨hs', -, hlent⟩⟩ := hs.pop_cases h
  all_goals
    obtain ⟨ha, hn⟩ := hs.laid_ident k
    obtain ⟨ha', hn'⟩ := hs'.laid_ident k
    rw [hmb]
    refine ⟨?_, by rw [ha, ha'], by rw [hn, hn']⟩
  · refine ⟨head, tail, k, hs', rfl, hlo, ?_⟩
    rw [hready, hbytes]
    refine hk.imp_right fun hfront => ⟨hfront.1, hlt, ?_⟩
    have hend := hfront.2.2
    show e.address + (e.length + n) ≤ _
    omega
  · exact ⟨head + 1, tail, k, hs', rfl, hlo, .inl ((hlent k).mpr (hk.imp_right And.left))⟩

theorem Past.push (he : Past p s e) {mb : ManagedBuffer} (h : s.step (.push mb) = some s') (hne : e.mb ≠ mb) :
    Past p s' e ∧ (s'.heap.impl e.mb).buffer.address = (s.heap.impl e.mb).buffer.address ∧
      (s'.heap.impl e.mb).buffer.length = (s.heap.impl e.mb).buffer.length := by
  obtain ⟨head, tail, k, hs, hmb, hlo, hk⟩ := he
  obtain ⟨tail', hle, hs', -, hbytes, hlent⟩ := hs.push_cases h
  obtain ⟨ha, hn⟩ := hs.laid_ident k
  obtain ⟨ha', hn'⟩ := hs'.laid_ident k
  rw [hmb] at hne ⊢
  refine ⟨⟨head, tail', k, hs', hmb, hlo, ?_⟩, by rw [ha, ha'], by rw [hn, hn']⟩
  rcases hk with hk | ⟨rfl, hlt, hend⟩
  · exact .inl ((hlent k).mpr ⟨hk, hne⟩)
  · exact .inr ⟨rfl, hlt.trans_le hle, hbytes.symm ▸ hend⟩

/-- Slabs of different buffers do not meet. -/
theorem slab_apart (p : Slabs) {i j x y : Nat} (hij : i ≠ j) (hx : p.slabStart i ≤ x)
    (hx' : x < p.slabStart i + p.bufferSize) (hy : p.slabStart j ≤ y)
    (hy' : y < p.slabStart j + p.bufferSize) : x ≠ y := by
  unfold Slabs.slabStart at *
  rcases Nat.lt_or_gt_of_ne hij with hlt | hlt
  · have hmul := Nat.mul_le_mul_left p.bufferSize (Nat.succ_le_of_lt hlt)
    rw [Nat.mul_succ] at hmul
    omega
  · have hmul := Nat.mul_le_mul_left p.bufferSize (Nat.succ_le_of_lt hlt)
    rw [Nat.mul_succ] at hmul
    omega

theorem Past.apart (he : Past p s e)
    (hin : e.address + e.length ≤ (s.heap.impl e.mb).buffer.getEnd) (hne : BufferManager.empty s.mgr = false)
    {x y : Nat} (hx : e.address ≤ x) (hx' : x < e.address + e.length) (hy : s.front.Covers y) : x ≠ y := by
  obtain ⟨head, tail, k, hs, hmb, hlo, hk⟩ := he
  have hlt := hs.lt_iff.mpr hne
  obtain ⟨ha, hn⟩ := hs.laid_ident k
  have hbytes := hs.stands.bytesPopped
  rw [hmb, SharedBuffer.getEnd, ha, hn] at hin
  simp only [BufferChunk.Covers, BufferChunk.getEnd, hs.front hlt] at hy
  rcases hk with hk | ⟨rfl, -, hend⟩
  · have hij : k % p.numBuffers ≠ head % p.numBuffers := Row.ident_inj.not.mp (hk.ident_ne hlt)
    exact slab_apart p hij (hlo.trans hx) (hx'.trans_le hin) (by omega) (by omega)
  · omega

end

/-- A generic manager in use. -/
def rotation (p : Slabs) : Rotation GenericBufferManager where
  Inv s := ∃ head tail, Standing s p head tail
  Past := Past p
  memory := p.commonSlab
  Same := Eq
  bufferSize := p.bufferSize
  bufferSize_eq := by
    intro s hs
    obtain ⟨head, tail, hs⟩ := hs
    exact hs.stands.bufferSize
  pop_inv := by
    intro s s' n hs h
    obtain ⟨head, tail, hs⟩ := hs
    obtain ⟨-, ⟨-, hs', -⟩ | ⟨hs', -⟩⟩ := hs.pop_cases h
    · exact ⟨head, tail, hs'⟩
    · exact ⟨head + 1, tail, hs'⟩
  push_inv := by
    intro s s' mb hs h
    obtain ⟨head, tail, hs⟩ := hs
    obtain ⟨tail', -, hs', -⟩ := hs.push_cases h
    exact ⟨head, tail', hs'⟩
  consistent := by
    intro s hs
    obtain ⟨head, tail, hs⟩ := hs
    exact hs.consistent
  grants := by
    intro s n hs
    obtain ⟨head, tail, hs⟩ := hs
    constructor
    · intro h
      obtain ⟨s', h⟩ := h
      exact ⟨hs.lt_iff.mp (hs.pop_cases h).1, .inl rfl⟩
    · intro hgrants
      obtain ⟨s', hpop, -⟩ := hs.pop (hs.lt_iff.mpr hgrants.1) n
      exact ⟨s', hpop⟩
  clip := by
    intro s n hs _ hne hle
    obtain ⟨head, tail, hs⟩ := hs
    exact hs.clip hne hle
  mapped_twice := fun _ hclips => by cases hclips
  unlent := by
    intro s hs hne mb hmb hout
    obtain ⟨head, tail, hs⟩ := hs
    have hlt := hs.lt_iff.mpr hne
    rw [hs.front hlt] at hmb
    obtain rfl : p.ident head = mb := Option.some.inj hmb
    exact hs.lending.front_not_mem hlt hout
  pop_front := by
    intro s s' n hs h
    obtain ⟨head, tail, hs⟩ := hs
    obtain ⟨hlt, ⟨-, hs', -, hbytes⟩ | ⟨-, hout, -⟩⟩ := hs.pop_cases h
    · refine .inl ⟨hs'.lt_iff.mp hlt, ?_⟩
      rw [hs'.front hlt, hs.front hlt, hbytes, Nat.add_assoc, Nat.sub_sub]
    · refine .inr fun mb hmb => ?_
      rw [hs.front hlt] at hmb
      obtain rfl : p.ident head = mb := Option.some.inj hmb
      exact hout
  push_front := by
    intro s s' mb hs hne h
    obtain ⟨head, tail, hs⟩ := hs
    have hlt := hs.lt_iff.mpr hne
    obtain ⟨tail', hle, hs', hkeep, -⟩ := hs.push_cases h
    exact ⟨hs'.lt_iff.mp (hlt.trans_le hle), hkeep hlt⟩
  past_front := by
    intro s mb hs hne hmb
    obtain ⟨head, tail, hs⟩ := hs
    have hlt := hs.lt_iff.mpr hne
    rw [hs.front hlt] at hmb ⊢
    obtain rfl : p.ident head = mb := Option.some.inj hmb
    exact ⟨head, tail, head, hs, rfl, Nat.le_add_right _ _, .inr ⟨rfl, hlt, le_refl _⟩⟩
  past_pop := fun _ he h => he.pop h
  past_push := fun _ he h hne => he.push h hne
  past_shorter := by
    intro s e n he hle
    obtain ⟨head, tail, k, hs, hmb, hlo, hk⟩ := he
    refine ⟨head, tail, k, hs, hmb, hlo, hk.imp_right fun hfront => ⟨hfront.1, hfront.2.1, ?_⟩⟩
    exact (Nat.add_le_add_left hle _).trans hfront.2.2
  apart := fun _ he hin hne hx hx' hy => he.apart hin hne hx hx' hy
  mapped := by
    intro s y hs hne hy
    obtain ⟨head, tail, hs⟩ := hs
    exact hs.mapped hne hy
  same_refl _ := rfl
  same_maps := .inl

end GenericBufferManager

end PothosCore.Framework

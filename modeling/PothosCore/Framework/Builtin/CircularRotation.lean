import PothosCore.Framework.Builtin.CircularSession
import PothosCore.Framework.ManagerRotation

/-!
# PothosCore.Framework.Builtin.CircularRotation

A circular manager in use, as its port sees it. What the manager has gone past is told by
positions: bytes before the front, of a window that did not come back.
-/

namespace PothosCore.Framework

open PothosCore.Lib PothosCore.Util

/-- A chunk of a buffer that is mapped twice in a row has another address. -/
theorem BufferChunk.getAlias_ne_zero {h : Heap} {c : BufferChunk} {b : SharedBuffer} {n : Nat}
    (hb : c.getBuffer h = b) (halias : b.aliasAddress = b.address + n) (hn : 0 < n) : c.getAlias h ≠ 0 := by
  have hmapped : b.aliasAddress ≠ 0 := by omega
  unfold BufferChunk.getAlias SharedBuffer.getAliasOffset
  rw [hb]
  dsimp only
  rw [if_neg hmapped, if_pos hmapped]
  split <;> omega

namespace CircularBufferManager

instance : PartialManager CircularBufferManager where
  bufferSize := bufferSize
  bytesPopped := bytesToPop
  clips := false

section
variable {s s' : Session CircularBufferManager} {r : Ring} {head tail : Nat} {start : Nat → Nat}

theorem Handouts.front (hh : Handouts s r head tail start) (hlt : head < tail) : s.front =
    ⟨r.addressAt (start head) + s.mgr.bytesToPop, r.bufferSize - s.mgr.bytesToPop, .unspecified,
      some (r.ident head), 0⟩ :=
  hh.windows.front hlt

theorem Handouts.lt_iff (hh : Handouts s r head tail start) : head < tail ↔ BufferManager.empty s.mgr = false := by
  constructor
  · exact hh.windows.stock.not_empty
  · intro hne
    refine Nat.lt_of_le_of_ne hh.windows.stock.head_le fun heq => ?_
    have hempty : BufferManager.empty s.mgr = true := hh.windows.stock.empty_iff.mpr heq
    rw [hne] at hempty
    cases hempty

/-- The memory of a buffer that is lent, or at the front, is its window. -/
theorem Handouts.window (hh : Handouts s r head tail start) {k : Nat}
    (hk : r.Lent s.mgr.readyBuffs head tail k ∨ (k = head ∧ head < tail)) :
    (s.heap.impl (r.ident k)).buffer = r.window (start k) := by
  rcases hk with hk | ⟨rfl, hlt⟩
  · exact hh.windows.lent k hk
  · exact hh.windows.front_held hlt

/-- A pop of more than the front has asserts. -/
theorem pop_overrun {m : CircularBufferManager} {h : Heap} (w : Windows m h r head tail start)
    (hlt : head < tail) {numBytes : Nat} (hover : r.bufferSize < m.bytesToPop + numBytes) :
    m.pop h numBytes = .error (.assertion "_bufferSize >= _bytesToPop") := by
  obtain ⟨q', hpop, -⟩ := w.stock.pop hlt
  rw [CircularBufferManager.pop, if_neg (by simp [w.stock.not_empty hlt]),
    if_neg (by rw [w.bufferSize]; omega), hpop]
  show (if m.bufferSize < m.bytesToPop + numBytes then _ else _) = _
  rw [if_pos (by rw [w.bufferSize]; exact hover)]

/-- A pop that returned uses the front again, or lends it. -/
theorem Handouts.pop_cases (hh : Handouts s r head tail start) {n : Nat} (h : s.pop n = .ok s') :
    head < tail ∧ n ≤ s.front.length ∧
      ((Handouts s' r head tail start ∧ s'.mgr.readyBuffs = s.mgr.readyBuffs ∧
          s'.mgr.bytesToPop = s.mgr.bytesToPop + n) ∨
        ∃ start', Handouts s' r (head + 1) tail start' ∧ (∀ k ≤ head, start' k = start k) ∧
          start' (head + 1) = start head + (s.mgr.bytesToPop + n) ∧ s'.mgr.bytesToPop = 0 ∧
          ∀ k, r.Lent s'.mgr.readyBuffs (head + 1) tail k ↔
            r.Lent s.mgr.readyBuffs head tail k ∨ k = head) := by
  obtain ⟨m', h', hcall, rfl⟩ := Session.pop_inv h
  have hcall : s.mgr.pop s.heap n = .ok (m', h') := hcall
  have hlt := hh.lt_of_pop hcall
  have hbytes := hh.windows.bytesToPop
  have hlength : s.front.length = r.bufferSize - s.mgr.bytesToPop := by rw [hh.front hlt]
  have hn : n ≤ s.front.length := by
    by_contra hover
    rw [pop_overrun hh.windows hlt (by omega)] at hcall
    cases hcall
  refine ⟨hlt, hn, ?_⟩
  rw [Nat.min_eq_left hn]
  by_cases hsmall : (s.mgr.bytesToPop + n) * 2 < r.bufferSize
  · obtain ⟨m₁, h₁, hpop, hh', hready, hbytes'⟩ := hh.pop_reuse hlt hsmall
    obtain ⟨rfl, rfl⟩ : m₁ = m' ∧ h₁ = h' := by simpa using hpop.symm.trans hcall
    exact .inl ⟨hh', hready, hbytes'⟩
  · obtain ⟨m₁, h₁, start', hpop, hh', hstart, hnew, hlent, hzero⟩ := hh.pop_move hlt (by omega) hsmall
    obtain ⟨rfl, rfl⟩ : m₁ = m' ∧ h₁ = h' := by simpa using hpop.symm.trans hcall
    exact .inr ⟨start', hh', hstart, hnew, hzero, hlent⟩

theorem Handouts.push_cases (hh : Handouts s r head tail start) {mb : ManagedBuffer}
    (h : s.step (.push mb) = some s') :
    ∃ tail', tail ≤ tail' ∧ Handouts s' r head tail' start ∧ (head < tail → s'.front = s.front) ∧
      s'.mgr.bytesToPop = s.mgr.bytesToPop ∧
      ∀ k, r.Lent s'.mgr.readyBuffs head tail' k ↔ r.Lent s.mgr.readyBuffs head tail k ∧ r.ident k ≠ mb := by
  obtain ⟨hadm, m', h', hcall, rfl⟩ := Session.step_inv h
  obtain ⟨m₁, h₁, tail', hpush, hh', hle, hlent, hbytes⟩ := hh.push hadm
  obtain ⟨rfl, rfl⟩ : m₁ = m' ∧ h₁ = h' := by simpa using hpush.symm.trans hcall
  refine ⟨tail', hle, hh', fun hlt => ?_, hbytes, hlent⟩
  have hbytes' : (s.record m₁ h₁ (.push mb)).mgr.bytesToPop = s.mgr.bytesToPop := hbytes
  rw [hh'.front (hlt.trans_le hle), hh.front hlt, hbytes']

/-- The front is what is left of the buffer at the front of the queue. -/
theorem Handouts.consistent (hh : Handouts s r head tail start) : s.Consistent := by
  intro hne
  have hlt := hh.lt_iff.mpr hne
  have hbytes := hh.windows.bytesToPop
  have hwindow := hh.windows.front_held hlt
  have hsize : PartialManager.bufferSize s.mgr = r.bufferSize := hh.windows.bufferSize
  have hpopped : PartialManager.bytesPopped s.mgr = s.mgr.bytesToPop := rfl
  rw [hh.front hlt]
  refine ⟨_, rfl, by rw [hwindow, hpopped]; rfl, ?_, by rw [hwindow, hsize]; rfl⟩
  rw [hsize, hpopped]
  show _ + (_ - _) = _
  omega

/-- The whole front lies in the circular buffer. -/
theorem Handouts.mapped (hh : Handouts s r head tail start) (hne : BufferManager.empty s.mgr = false) {y : Nat}
    (hy : s.front.Covers y) : r.circBuff.Maps y := by
  have hlt := hh.lt_iff.mpr hne
  have hbytes := hh.windows.bytesToPop
  have hlength := r.bufferSize_le
  have hcirc : r.circBuff.aliasAddress = r.circBuff.address + r.circBuff.length := r.circular
  have haddr := hh.windows.addressAt_le
  simp only [BufferChunk.Covers, BufferChunk.getEnd, hh.front hlt] at hy
  have hlow : r.circBuff.address ≤ r.addressAt (start head) := Nat.le_add_right _ _
  refine ⟨by omega, ?_⟩
  rw [hcirc, Nat.max_eq_left (Nat.le_add_right _ _)]
  omega

/-- What shares a buffer with a front that is not used up has an alias. -/
theorem Handouts.getAlias_ne_zero (hh : Handouts s r head tail start)
    (hne : BufferManager.empty s.mgr = false) {c : BufferChunk} (hpos : 0 < s.front.length)
    (hmb : c.managedBuffer = s.front.managedBuffer) : c.getAlias s.heap ≠ 0 := by
  have hlt := hh.lt_iff.mpr hne
  rw [hh.front hlt] at hpos hmb
  have hlength := r.bufferSize_le
  have hL : 0 < r.circBuff.length := by
    have hpos : 0 < r.bufferSize - s.mgr.bytesToPop := hpos
    omega
  have hbuffer : c.getBuffer s.heap = r.window (start head) := by
    rw [BufferChunk.getBuffer, hmb]
    exact hh.windows.front_held hlt
  exact BufferChunk.getAlias_ne_zero hbuffer rfl hL

end

/-! ### What the manager has gone past -/

/-- The bytes are before the front, in a window that did not come back. -/
def Past (r : Ring) (s : Session CircularBufferManager) (e : Handed) : Prop :=
  ∃ head tail start k off, Handouts s r head tail start ∧ e.mb = r.ident k ∧
    e.address = r.addressAt (start k) + off ∧
    (r.Lent s.mgr.readyBuffs head tail k ∨ (k = head ∧ head < tail)) ∧
    start k + off + e.length ≤ start head + s.mgr.bytesToPop

section
variable {s s' : Session CircularBufferManager} {r : Ring} {e : Handed} {n : Nat}

theorem Past.pop (he : Past r s e) (h : s.pop n = .ok s') :
    Past r s' { e with length := e.length + n } ∧
      (s'.heap.impl e.mb).buffer = (s.heap.impl e.mb).buffer := by
  obtain ⟨head, tail, start, k, off, hh, hmb, haddr, hk, hend⟩ := he
  obtain ⟨hlt, -, ⟨hh', hready, hbytes⟩ | ⟨start', hh', hstart, hnew, hzero, hlent⟩⟩ := hh.pop_cases h
  · have hk' : r.Lent s'.mgr.readyBuffs head tail k ∨ (k = head ∧ head < tail) := hready.symm ▸ hk
    rw [hmb]
    refine ⟨⟨head, tail, start, k, off, hh', rfl, haddr, hk', ?_⟩, by rw [hh.window hk, hh'.window hk']⟩
    show start k + off + (e.length + n) ≤ _
    omega
  · have hkh : k ≤ head := by
      rcases hk with hk | hk
      · exact hk.1.le
      · exact hk.1.le
    have hk' : r.Lent s'.mgr.readyBuffs (head + 1) tail k := (hlent k).mpr (hk.imp_right And.left)
    rw [hmb]
    refine ⟨⟨head + 1, tail, start', k, off, hh', rfl, by rw [hstart k hkh]; exact haddr, .inl hk', ?_⟩,
      by rw [hh.window hk, hh'.window (.inl hk'), hstart k hkh]⟩
    rw [hstart k hkh, hnew, hzero]
    show start k + off + (e.length + n) ≤ _
    omega

theorem Past.push (he : Past r s e) {mb : ManagedBuffer} (h : s.step (.push mb) = some s') (hne : e.mb ≠ mb) :
    Past r s' e ∧ (s'.heap.impl e.mb).buffer = (s.heap.impl e.mb).buffer := by
  obtain ⟨head, tail, start, k, off, hh, hmb, haddr, hk, hend⟩ := he
  obtain ⟨tail', hle, hh', -, hbytes, hlent⟩ := hh.push_cases h
  have hk' : r.Lent s'.mgr.readyBuffs head tail' k ∨ (k = head ∧ head < tail') := by
    rcases hk with hk | ⟨rfl, hlt⟩
    · exact .inl ((hlent k).mpr ⟨hk, hmb ▸ hne⟩)
    · exact .inr ⟨rfl, hlt.trans_le hle⟩
  refine ⟨⟨head, tail', start, k, off, hh', hmb, haddr, hk', by rw [hbytes]; exact hend⟩, ?_⟩
  rw [hmb, hh.window hk, hh'.window hk']

theorem Past.apart (he : Past r s e) (hne : BufferManager.empty s.mgr = false) {x y : Nat}
    (hx : e.address ≤ x) (hx' : x < e.address + e.length) (hy : s.front.Covers y) :
    x % r.circBuff.length ≠ y % r.circBuff.length := by
  obtain ⟨head, tail, start, k, off, hh, hmb, haddr, hk, hend⟩ := he
  have hlt := hh.lt_iff.mpr hne
  rw [haddr] at hx hx'
  rcases hk with hk | ⟨rfl, -⟩
  · exact mod_ne_of_before hh.windows hlt hk.1.le hk.2.1 hend hx hx' hy.1 hy.2
  · exact mod_ne_of_before hh.windows hlt (le_refl _) hh.windows.stock.tail_le hend hx hx' hy.1 hy.2

end

/-- A circular manager in use. The bytes of its buffer have two addresses each. -/
def rotation (r : Ring) : Rotation CircularBufferManager where
  Inv s := ∃ head tail start, Handouts s r head tail start
  Past := Past r
  memory := r.circBuff
  Same x y := x = y ∨ (r.circBuff.Maps x ∧ r.circBuff.Maps y ∧ x ≡ y [MOD r.circBuff.length])
  bufferSize := r.bufferSize
  bufferSize_eq := by
    intro s hs
    obtain ⟨head, tail, start, hh⟩ := hs
    exact hh.windows.bufferSize
  pop_inv := by
    intro s s' n hs h
    obtain ⟨head, tail, start, hh⟩ := hs
    obtain ⟨-, -, ⟨hh', -⟩ | ⟨start', hh', -⟩⟩ := hh.pop_cases h
    · exact ⟨head, tail, start, hh'⟩
    · exact ⟨head + 1, tail, start', hh'⟩
  push_inv := by
    intro s s' mb hs h
    obtain ⟨head, tail, start, hh⟩ := hs
    exact hh.step h
  consistent := by
    intro s hs
    obtain ⟨head, tail, start, hh⟩ := hs
    exact hh.consistent
  grants := by
    intro s n hs
    obtain ⟨head, tail, start, hh⟩ := hs
    constructor
    · intro h
      obtain ⟨s', h⟩ := h
      obtain ⟨hlt, hn, -⟩ := hh.pop_cases h
      exact ⟨hh.lt_iff.mp hlt, .inr hn⟩
    · intro hgrants
      have hlt := hh.lt_iff.mpr hgrants.1
      have hn : n ≤ s.front.length := hgrants.2.resolve_left (by intro hclips; cases hclips)
      have hadm : s.Admits (.pop n) := hn
      rcases hh.returns hadm with ⟨res, hcall⟩ | ⟨hnone, -⟩
      · exact ⟨_, by rw [Session.pop, hcall]⟩
      · rw [hh.front_isSome.mpr hlt] at hnone
        cases hnone
  clip := fun _ hclips => by cases hclips
  mapped_twice := by
    intro s c hs _ hne hpos hmb
    obtain ⟨head, tail, start, hh⟩ := hs
    exact hh.getAlias_ne_zero hne hpos hmb
  unlent := by
    intro s hs hne mb hmb hout
    obtain ⟨head, tail, start, hh⟩ := hs
    have hlt := hh.lt_iff.mpr hne
    rw [hh.front hlt] at hmb
    obtain rfl : r.ident head = mb := Option.some.inj hmb
    exact hh.lending.front_not_mem hlt hout
  pop_front := by
    intro s s' n hs h
    obtain ⟨head, tail, start, hh⟩ := hs
    obtain ⟨hlt, -, ⟨hh', -, hbytes⟩ | ⟨start', hh', -, -, -, hlent⟩⟩ := hh.pop_cases h
    · refine .inl ⟨hh'.lt_iff.mp hlt, ?_⟩
      rw [hh'.front hlt, hh.front hlt, hbytes, Nat.add_assoc, Nat.sub_sub]
    · refine .inr fun mb hmb => (hh'.out mb).mpr ⟨head, (hlent head).mpr (.inr rfl), ?_⟩
      rw [hh.front hlt] at hmb
      exact (Option.some.inj hmb).symm
  push_front := by
    intro s s' mb hs hne h
    obtain ⟨head, tail, start, hh⟩ := hs
    have hlt := hh.lt_iff.mpr hne
    obtain ⟨tail', hle, hh', hkeep, -⟩ := hh.push_cases h
    exact ⟨hh'.lt_iff.mp (hlt.trans_le hle), hkeep hlt⟩
  past_front := by
    intro s mb hs hne hmb
    obtain ⟨head, tail, start, hh⟩ := hs
    have hlt := hh.lt_iff.mpr hne
    rw [hh.front hlt] at hmb ⊢
    obtain rfl : r.ident head = mb := Option.some.inj hmb
    exact ⟨head, tail, start, head, s.mgr.bytesToPop, hh, rfl, rfl, .inr ⟨rfl, hlt⟩, le_refl _⟩
  past_pop := fun _ he h => by
    obtain ⟨he', hbuffer⟩ := he.pop h
    exact ⟨he', by rw [hbuffer], by rw [hbuffer]⟩
  past_push := fun _ he h hne => by
    obtain ⟨he', hbuffer⟩ := he.push h hne
    exact ⟨he', by rw [hbuffer], by rw [hbuffer]⟩
  past_shorter := by
    intro s e n he hle
    obtain ⟨head, tail, start, k, off, hh, hmb, haddr, hk, hend⟩ := he
    exact ⟨head, tail, start, k, off, hh, hmb, haddr, hk, (Nat.add_le_add_left hle _).trans hend⟩
  apart := by
    intro s e x y _ he _ hne hx hx' hy hsame
    have hmod := he.apart hne hx hx' hy
    rcases hsame with rfl | ⟨-, -, hsame⟩
    · exact hmod rfl
    · exact hmod hsame
  mapped := by
    intro s y hs hne hy
    obtain ⟨head, tail, start, hh⟩ := hs
    exact hh.mapped hne hy
  same_refl _ := .inl rfl
  same_maps := fun hsame => hsame.imp_right fun hsame => ⟨hsame.1, hsame.2.1⟩

end CircularBufferManager

end PothosCore.Framework

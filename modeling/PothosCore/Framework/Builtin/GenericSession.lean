import PothosCore.Framework.Builtin.GenericBufferManager

/-!
# PothosCore.Framework.Builtin.GenericSession

Runs of a generic buffer manager. `Handouts` ties the record of a session to
the invariant of its manager. Every call keeps it, save a push that returns to
an empty queue a buffer other than the next one in slab order; such a push
leaves the manager incoherent at once, so the runs that stay coherent are
exactly the runs of `InOrder` steps.
-/

namespace PothosCore.Framework

open PothosCore.Lib PothosCore.Util

/-- The bytes handed out of `mb` since it was last returned. -/
def Session.popped {M : Type} (s : Session M) (mb : ManagedBuffer) : Nat :=
  ((s.live.filter (·.mb = mb)).map (·.length)).sum

theorem Slabs.Laid.of_apply {p : Slabs} {h : Heap} (hl : p.Laid h) (ops : List RefOp) :
    p.Laid (h.apply ops) := by
  intro s hs
  rw [Heap.apply_impl_buffer]
  exact hl s hs

namespace GenericBufferManager

/-- Two ranges of one managed buffer in order, without overlap. -/
def Before (e e' : Handed) : Prop := e.mb = e'.mb → e.address + e.length ≤ e'.address

/-- A buffer returned while the queue is empty is the next in slab order. -/
def InOrder (s : Session GenericBufferManager) : ManagerOp → Prop
  | .pop _ => True
  | .push mb => s.mgr.readyBuffs.empty = true →
      (s.heap.impl mb).slabIndex = s.mgr.readyBuffs.indexToAck

instance (s : Session GenericBufferManager) : (op : ManagerOp) → Decidable (InOrder s op)
  | .pop _ => inferInstanceAs (Decidable True)
  | .push mb => inferInstanceAs (Decidable (s.mgr.readyBuffs.empty = true →
      (s.heap.impl mb).slabIndex = s.mgr.readyBuffs.indexToAck))

/-- What a user of a generic manager may rely on. -/
structure Coherent (p : Slabs) (s : Session GenericBufferManager) : Prop where
  /-- The front is null exactly when the manager is empty. -/
  null_iff : s.front.isSome = false ↔ s.mgr.empty = true
  /-- The front is what is left of the buffer at the front of the queue. -/
  rest : s.mgr.empty = false → ∃ mb, s.mgr.readyBuffs.front = some mb ∧
    s.front.managedBuffer = some mb ∧
    s.front.address = (s.heap.impl mb).buffer.address + s.popped mb ∧
    s.front.length = p.bufferSize - s.popped mb
  /-- Who sees a front can pop from it. -/
  returns : s.front.isSome = true → ∀ n, s.Admits (.pop n) → ∃ res, s.call (.pop n) = .ok res
  /-- The ranges lie inside the slab they were cut from. -/
  inside : p.Laid s.heap ∧ ∀ e ∈ s.live, (s.heap.impl e.mb).buffer.address ≤ e.address ∧
    e.address + e.length ≤ (s.heap.impl e.mb).buffer.address + p.bufferSize
  /-- The ranges of one check-out follow one another without overlap. -/
  apart : s.live.Pairwise Before
  /-- The front is not held downstream. -/
  unheld : ∀ mb ∈ s.front.managedBuffer, mb ∉ s.out
  /-- The managed buffers come to the front in cyclic slab order. -/
  cyclic : s.offers.map (fun mb => (s.heap.impl mb).slabIndex) =
    (List.range s.offers.length).map (· % p.numBuffers)

/-- A range that was handed out and not returned since. -/
def Handout (m : GenericBufferManager) (p : Slabs) (head tail : Nat) (e : Handed) : Prop :=
  ∃ k, e.mb = p.ident k ∧ p.slabStart (k % p.numBuffers) ≤ e.address ∧
    e.address + e.length ≤ p.slabStart (k % p.numBuffers) + p.bufferSize ∧
    (p.Lent m.readyBuffs head tail k ∨ (k = head ∧ head < tail))

/-- The record of a session agrees with its manager. -/
structure Handouts (s : Session GenericBufferManager) (p : Slabs) (head tail : Nat) : Prop where
  offered : Offers s.mgr p head tail
  slabbed : p.Slabbed s.heap
  laid : p.Laid s.heap
  out : ∀ mb, mb ∈ s.out ↔ ∃ k, p.Lent s.mgr.readyBuffs head tail k ∧ mb = p.ident k
  nodup : s.out.Nodup
  live : ∀ e ∈ s.live, s.mgr.Handout p head tail e
  apart : s.live.Pairwise Before
  used : head < tail → ∀ e ∈ s.live, e.mb = p.ident head →
    e.address + e.length ≤ p.slabStart (head % p.numBuffers) + s.mgr.bytesPopped
  popped : head < tail → s.popped (p.ident head) = s.mgr.bytesPopped
  offers : s.offers = (List.range (if head < tail then head + 1 else head)).map p.ident

/-- A manager just set up has handed out nothing. -/
theorem handouts_start {m : GenericBufferManager} {h : Heap} {p : Slabs}
    (w : Offers m p 0 p.numBuffers) (hz : m.bytesPopped = 0) (hs : p.Slabbed h) (hl : p.Laid h) :
    Handouts (Session.start h m) p 0 p.numBuffers where
  offered := w
  slabbed := hs
  laid := hl
  out := (Row.Lending.start p.toRow m.readyBuffs p.numBuffers).out
  nodup := List.nodup_nil
  live := fun e he => by cases he
  apart := List.Pairwise.nil
  used := fun _ e he => by cases he
  popped := fun _ => hz.symm
  offers := by
    have hfront := w.front p.pos
    rw [if_pos p.pos]
    simp only [Session.start, BufferManager.front, hfront]
    rfl

section
variable {s : Session GenericBufferManager} {p : Slabs} {head tail : Nat}

theorem Handouts.lending (hh : Handouts s p head tail) : p.Lending s.out s.mgr.readyBuffs head tail :=
  ⟨hh.out, hh.nodup⟩

/-- An admissible pop that returns finds a slab at the front. -/
theorem Handouts.lt_of_pop (hh : Handouts s p head tail) {n : Nat}
    {res : GenericBufferManager × Heap} (hcall : s.mgr.pop s.heap n = .ok res) : head < tail := by
  rcases Nat.lt_or_eq_of_le hh.offered.stock.head_le with hlt | heq
  · exact hlt
  · rw [GenericBufferManager.pop, if_pos (hh.offered.stock.empty_iff.mpr heq)] at hcall
    cases hcall

theorem Handouts.front (hh : Handouts s p head tail) (hlt : head < tail) : s.front =
    ⟨p.slabStart (head % p.numBuffers) + s.mgr.bytesPopped,
      p.bufferSize - s.mgr.bytesPopped, .unspecified, some (p.ident head), 0⟩ :=
  hh.offered.front hlt

/-- What a pop of `n` bytes hands out. -/
theorem Handouts.handed (hh : Handouts s p head tail) (hlt : head < tail) (n : Nat) :
    s.front.managedBuffer.toList.map (fun mb => (⟨mb, s.front.address, n⟩ : Handed)) =
      [⟨p.ident head, p.slabStart (head % p.numBuffers) + s.mgr.bytesPopped, n⟩] := by
  simp [hh.front hlt]

/-- The range just handed out comes after those of the same check-out. -/
theorem Handouts.apart_snoc (hh : Handouts s p head tail) (hlt : head < tail) (n : Nat) :
    List.Pairwise Before
      (s.live ++ [⟨p.ident head, p.slabStart (head % p.numBuffers) + s.mgr.bytesPopped, n⟩]) := by
  refine List.pairwise_append.mpr ⟨hh.apart, List.pairwise_singleton _ _, ?_⟩
  intro e he e' he' hmb
  obtain rfl := List.mem_singleton.mp he'
  exact hh.used hlt e he hmb

/-- When all live ranges are lent, none is of the buffer at the front. -/
theorem popped_eq_zero {q : OrderedQueue ManagedBuffer} {live : List Handed} {t : Nat}
    (hlive : ∀ e ∈ live, ∃ k, e.mb = p.ident k ∧ p.Lent q head t k) (hlt : head < t) :
    (∀ e ∈ live, e.mb ≠ p.ident head) ∧
      ((live.filter (·.mb = p.ident head)).map (·.length)).sum = 0 := by
  have hne : ∀ e ∈ live, e.mb ≠ p.ident head := by
    intro e he
    obtain ⟨k, hmb, hk⟩ := hlive e he
    rw [hmb]
    exact hk.ident_ne hlt
  refine ⟨hne, ?_⟩
  rw [List.filter_eq_nil_iff.mpr fun e he => by simpa using hne e he]
  rfl

theorem Handouts.pop_reuse (hh : Handouts s p head tail) (hlt : head < tail) {n : Nat}
    (hsmall : (s.mgr.bytesPopped + n) * 2 < p.bufferSize) :
    ∃ m' h', s.mgr.pop s.heap n = .ok (m', h') ∧ Handouts (s.record m' h' (.pop n)) p head tail := by
  obtain ⟨m', ops, hpop, hw', hready, hbytes⟩ :=
    GenericBufferManager.pop_reuse hh.offered hh.laid hlt hsmall
  refine ⟨m', _, hpop, ?_⟩
  have hmb : (BufferManager.front m').managedBuffer = s.front.managedBuffer := by
    simp only [hh.front hlt, BufferManager.front, hw'.front hlt]
  have hlent : ∀ k, p.Lent m'.readyBuffs head tail k ↔ p.Lent s.mgr.readyBuffs head tail k := by
    intro k
    rw [hready]
  exact {
    offered := hw'
    slabbed := hh.slabbed.of_links (s.heap.sameLinks_apply ops)
    laid := hh.laid.of_apply ops
    out := fun mb => by
      simp only [Session.record, Session.retired, if_pos hmb, List.append_nil, hlent]
      exact hh.out mb
    nodup := by
      simp only [Session.record, Session.retired, if_pos hmb, List.append_nil]
      exact hh.nodup
    live := fun e he => by
      simp only [Session.record, hh.handed hlt, List.mem_append, List.mem_singleton] at he
      rcases he with he | rfl
      · obtain ⟨k, hmb, hlo, hhi, hk⟩ := hh.live e he
        exact ⟨k, hmb, hlo, hhi, hk.imp_left (hlent k).mpr⟩
      · exact ⟨head, rfl, by simp, by simp only; omega, .inr ⟨rfl, hlt⟩⟩
    apart := by
      simp only [Session.record, hh.handed hlt]
      exact hh.apart_snoc hlt n
    used := fun _ e he hmb => by
      simp only [Session.record, hh.handed hlt, List.mem_append, List.mem_singleton] at he
      rw [show (s.record m' _ (.pop n)).mgr.bytesPopped = _ from hbytes]
      rcases he with he | rfl
      · have := hh.used hlt e he hmb
        omega
      · simp only; omega
    popped := fun _ => by
      have hold := hh.popped hlt
      simp only [Session.popped, Session.record, hh.handed hlt, List.filter_append,
        List.map_append, List.sum_append] at hold ⊢
      rw [hold, hbytes]
      simp
    offers := by
      simp only [Session.record, Session.offered, if_pos hmb, List.append_nil]
      exact hh.offers }

theorem Handouts.pop_move (hh : Handouts s p head tail) (hlt : head < tail) {n : Nat}
    (hn : s.mgr.bytesPopped + n ≤ p.bufferSize)
    (hbig : ¬ (s.mgr.bytesPopped + n) * 2 < p.bufferSize) :
    ∃ m' h', s.mgr.pop s.heap n = .ok (m', h') ∧
      Handouts (s.record m' h' (.pop n)) p (head + 1) tail := by
  obtain ⟨m', ops, hpop, hw', hlent, hzero⟩ :=
    GenericBufferManager.pop_move hh.offered hh.laid hlt hbig
  refine ⟨m', _, hpop, ?_⟩
  have htail := hh.offered.stock.tail_le
  have hsf : s.front.managedBuffer = some (p.ident head) := by rw [hh.front hlt]
  have hmb' : (BufferManager.front m').managedBuffer =
      if head + 1 < tail then some (p.ident (head + 1)) else none := by
    by_cases hlt' : head + 1 < tail
    · rw [if_pos hlt']
      simp only [BufferManager.front, hw'.front hlt']
    · rw [if_neg hlt']
      simp only [BufferManager.front, (hw'.idle (by omega)).1, BufferChunk.null_managedBuffer]
  obtain ⟨hretired, hoffered⟩ := Row.moved hsf hmb' htail
  have hout := hh.lending.retire hlt hlent
  have hlive : ∀ e ∈ (s.record m' (s.heap.apply ops) (.pop n)).live,
      ∃ k, e.mb = p.ident k ∧ p.slabStart (k % p.numBuffers) ≤ e.address ∧
        e.address + e.length ≤ p.slabStart (k % p.numBuffers) + p.bufferSize ∧
        p.Lent m'.readyBuffs (head + 1) tail k := by
    intro e he
    simp only [Session.record, hh.handed hlt, List.mem_append, List.mem_singleton] at he
    rcases he with he | rfl
    · obtain ⟨k, hmb, hlo, hhi, hk⟩ := hh.live e he
      exact ⟨k, hmb, hlo, hhi, (hlent k).mpr (hk.imp_right And.left)⟩
    · exact ⟨head, rfl, by simp, by simp only; omega, (hlent head).mpr (.inr rfl)⟩
  have hother : ∀ e ∈ (s.record m' (s.heap.apply ops) (.pop n)).live,
      ∃ k, e.mb = p.ident k ∧ p.Lent m'.readyBuffs (head + 1) tail k := by
    intro e he
    obtain ⟨k, hmb, -, -, hk⟩ := hlive e he
    exact ⟨k, hmb, hk⟩
  exact {
    offered := hw'
    slabbed := hh.slabbed.of_links (s.heap.sameLinks_apply ops)
    laid := hh.laid.of_apply ops
    out := by
      simp only [Session.record, hretired]
      exact hout.out
    nodup := by
      simp only [Session.record, hretired]
      exact hout.nodup
    live := fun e he => by
      obtain ⟨k, hmb, hlo, hhi, hk⟩ := hlive e he
      exact ⟨k, hmb, hlo, hhi, .inl hk⟩
    apart := by
      simp only [Session.record, hh.handed hlt]
      exact hh.apart_snoc hlt n
    used := fun hlt' e he hmb => absurd hmb ((popped_eq_zero hother hlt').1 e he)
    popped := fun hlt' => (popped_eq_zero hother hlt').2.trans hzero.symm
    offers := by
      simp only [Session.record, hoffered, hh.offers, if_pos hlt]
      by_cases hlt' : head + 1 < tail
      · simp only [if_pos hlt', List.range_succ, List.map_append, List.map_singleton]
      · simp only [if_neg hlt', List.append_nil] }

/-- A push returns whatever the order. In order, it keeps the record in
agreement; out of order, it leaves a front over an empty queue. -/
theorem Handouts.push (hh : Handouts s p head tail) {mb : ManagedBuffer} (hmem : mb ∈ s.out) :
    ∃ m' h', s.mgr.push s.heap mb = .ok (m', h') ∧
      (InOrder s (.push mb) → ∃ tail', Handouts (s.record m' h' (.push mb)) p head tail') ∧
      (¬ InOrder s (.push mb) → m'.frontBuffer.isSome = true ∧ m'.empty = true) := by
  obtain ⟨j, hj, rfl⟩ := (hh.out mb).mp hmem
  have hjlt := Nat.mod_lt j p.pos
  have hslab := hh.slabbed _ hjlt
  obtain ⟨ha, hn⟩ := hh.laid _ hjlt
  obtain ⟨m', ops, tail', hpush, hstands, hlent, -, hle, hin, hstay, hbytes, hkeep, hset, hoffers⟩ :=
    push_spec hh.offered.stands hslab ha hn hj.2.2
  simp only [← ne_eq, ← Row.ident_inj.not] at hlent
  refine ⟨m', _, hpush, fun hord => ⟨tail', ?_⟩, fun hord => ?_⟩
  · have hw' := hoffers fun he => hslab.symm.trans (hord he)
    have hlive : ∀ e ∈ (s.record m' (s.heap.apply ops) (.push (p.ident j))).live,
        e ∈ s.live ∧ e.mb ≠ p.ident j := by
      intro e he
      simpa [Session.record] using he
    have hother : ¬ head < tail →
        ∀ e ∈ (s.record m' (s.heap.apply ops) (.push (p.ident j))).live,
          ∃ k, e.mb = p.ident k ∧ p.Lent m'.readyBuffs head tail' k := by
      intro hlt e he
      obtain ⟨hel, hne⟩ := hlive e he
      obtain ⟨k, hmb, -, -, hk | hk⟩ := hh.live e hel
      · exact ⟨k, hmb, (hlent k).mpr ⟨hk, hmb ▸ hne⟩⟩
      · exact absurd hk.2 hlt
    exact {
      offered := hw'
      slabbed := hh.slabbed.of_links (s.heap.sameLinks_apply ops)
      laid := hh.laid.of_apply ops
      out := (hh.lending.back hlent).out
      nodup := hh.nodup.erase _
      live := fun e he => by
        obtain ⟨hel, hne⟩ := hlive e he
        obtain ⟨k, hmb, hlo, hhi, hk | hk⟩ := hh.live e hel
        · exact ⟨k, hmb, hlo, hhi, .inl ((hlent k).mpr ⟨hk, hmb ▸ hne⟩)⟩
        · exact ⟨k, hmb, hlo, hhi, .inr ⟨hk.1, hk.2.trans_le hle⟩⟩
      apart := hh.apart.filter _
      used := fun hlt' e he hmb => by
        by_cases hlt : head < tail
        · rw [show (s.record m' _ (.push (p.ident j))).mgr.bytesPopped = _ from hbytes]
          exact hh.used hlt e (hlive e he).1 hmb
        · exact absurd hmb ((popped_eq_zero (hother hlt) hlt').1 e he)
      popped := fun hlt' => by
        by_cases hlt : head < tail
        · have hold := hh.popped hlt
          simp only [Session.popped, Session.record, List.filter_filter] at hold ⊢
          rw [hbytes, ← hold]
          congr 2
          refine List.filter_congr fun e _ => ?_
          by_cases he : e.mb = p.ident head
          · simp [he, (hj.ident_ne hlt).symm]
          · simp [he]
        · have heq : head = tail :=
            Nat.le_antisymm hh.offered.stock.head_le (Nat.le_of_not_lt hlt)
          refine (popped_eq_zero (hother hlt) hlt').2.trans ?_
          exact ((hbytes.trans (hh.offered.idle heq).2)).symm
      offers := by
        by_cases hlt : head < tail
        · have hsame : (BufferManager.front m').managedBuffer = s.front.managedBuffer := by
            simp only [Session.front, BufferManager.front, hkeep hlt]
          simp only [Session.record, Session.offered, if_pos hsame, List.append_nil, hh.offers,
            if_pos hlt, if_pos (hlt.trans_le hle)]
        · have heq : head = tail :=
            Nat.le_antisymm hh.offered.stock.head_le (Nat.le_of_not_lt hlt)
          have hlt' : head < tail' :=
            heq ▸ hin (hslab.symm.trans (hord (hh.offered.stock.empty_iff.mpr heq)))
          have hnull : s.front.managedBuffer = none := by
            simp only [Session.front, BufferManager.front, (hh.offered.idle heq).1,
              BufferChunk.null_managedBuffer]
          have hfront' : (BufferManager.front m').managedBuffer = some (p.ident head) := by
            simp only [BufferManager.front, hw'.front hlt']
          simp only [Session.record, Session.offered, hnull, hfront', hh.offers, if_neg hlt,
            if_pos hlt', List.range_succ, List.map_append, List.map_singleton]
          rfl }
  · simp only [InOrder, Classical.not_imp] at hord
    obtain ⟨hempty, hne⟩ := hord
    have heq := hh.offered.stock.empty_iff.mp hempty
    have hne' : j % p.numBuffers ≠ s.mgr.readyBuffs.indexToAck := by
      intro he
      exact hne (hslab.trans he)
    refine ⟨?_, hstands.stock.empty_iff.mpr (heq.trans (hstay hne').symm)⟩
    rw [hset heq]
    rfl

/-! ### What the record says -/

theorem Handouts.returns (hh : Handouts s p head tail) (hlt : head < tail) {n : Nat}
    (hadm : s.Admits (.pop n)) : ∃ res, s.call (.pop n) = .ok res := by
  have hn : n ≤ p.bufferSize - s.mgr.bytesPopped := by
    simpa [Session.Admits, hh.front hlt] using hadm
  have hbytes := hh.offered.bytesPopped
  by_cases hsmall : (s.mgr.bytesPopped + n) * 2 < p.bufferSize
  · obtain ⟨m', h', hpop, -⟩ := hh.pop_reuse hlt hsmall
    exact ⟨(m', h'), hpop⟩
  · obtain ⟨m', h', hpop, -⟩ := hh.pop_move hlt (by omega) hsmall
    exact ⟨(m', h'), hpop⟩

theorem Handouts.coherent (hh : Handouts s p head tail) : Coherent p s := by
  have hmb : ∀ k, (s.heap.impl (p.ident k)).buffer.address = p.slabStart (k % p.numBuffers) :=
    fun k => (hh.laid _ (Nat.mod_lt k p.pos)).1
  have hidle : ¬ head < tail → s.front = .null ∧ s.mgr.empty = true := by
    intro hlt
    have heq := Nat.le_antisymm hh.offered.stock.head_le (Nat.le_of_not_lt hlt)
    exact ⟨(hh.offered.idle heq).1, hh.offered.stock.empty_iff.mpr heq⟩
  have hbusy : head < tail → s.front.isSome = true ∧ s.mgr.empty = false := by
    intro hlt
    exact ⟨by rw [hh.front hlt]; rfl, hh.offered.stock.not_empty hlt⟩
  exact {
    null_iff := by
      by_cases hlt : head < tail
      · simp [hbusy hlt]
      · simp [hidle hlt, BufferChunk.isSome]
    rest := fun hne => by
      have hlt : head < tail := by
        by_contra hlt
        simp [(hidle hlt).2] at hne
      refine ⟨p.ident head, hh.offered.stock.front_eq hlt, by rw [hh.front hlt], ?_, ?_⟩
      · rw [hh.front hlt, hmb, hh.popped hlt]
      · rw [hh.front hlt, hh.popped hlt]
    returns := fun hsome n hadm => by
      have hlt : head < tail := by
        by_contra hlt
        simp [(hidle hlt).1, BufferChunk.isSome] at hsome
      exact hh.returns hlt hadm
    inside := by
      refine ⟨hh.laid, fun e he => ?_⟩
      obtain ⟨k, hk, hlo, hhi, -⟩ := hh.live e he
      rw [hk, hmb]
      exact ⟨hlo, hhi⟩
    apart := hh.apart
    unheld := fun mb hmb hout => by
      have hlt : head < tail := by
        by_contra hlt
        simp [(hidle hlt).1] at hmb
      obtain rfl : p.ident head = mb := by simpa [hh.front hlt] using hmb
      exact hh.lending.front_not_mem hlt hout
    cyclic := by
      rw [hh.offers, List.length_map, List.length_range, List.map_map]
      refine List.map_congr_left fun k _ => ?_
      exact hh.slabbed _ (Nat.mod_lt k p.pos) }

/-- **One call.** A call in order keeps the record in agreement with the
manager; a call out of order leaves the manager incoherent. -/
theorem Handouts.step (hh : Handouts s p head tail) {s' : Session GenericBufferManager}
    {op : ManagerOp} (hstep : s.step op = some s') :
    (InOrder s op → ∃ head' tail', Handouts s' p head' tail') ∧
      (¬ InOrder s op → ¬ Coherent p s') := by
  obtain ⟨hadm, m', h', hcall, rfl⟩ := Session.step_inv hstep
  cases op with
  | pop n =>
      refine ⟨fun _ => ?_, fun hord => absurd trivial hord⟩
      have hlt := hh.lt_of_pop hcall
      have hn : n ≤ p.bufferSize - s.mgr.bytesPopped := by
        simpa [Session.Admits, hh.front hlt] using hadm
      by_cases hsmall : (s.mgr.bytesPopped + n) * 2 < p.bufferSize
      · obtain ⟨m₁, h₁, hpop, hh'⟩ := hh.pop_reuse hlt hsmall
        obtain ⟨rfl, rfl⟩ : m₁ = m' ∧ h₁ = h' := by simpa using hpop.symm.trans hcall
        exact ⟨head, tail, hh'⟩
      · have hbytes := hh.offered.bytesPopped
        obtain ⟨m₁, h₁, hpop, hh'⟩ := hh.pop_move hlt (by omega) hsmall
        obtain ⟨rfl, rfl⟩ : m₁ = m' ∧ h₁ = h' := by simpa using hpop.symm.trans hcall
        exact ⟨head + 1, tail, hh'⟩
  | push mb =>
      obtain ⟨m₁, h₁, hpush, hin, hout⟩ := hh.push hadm
      obtain ⟨rfl, rfl⟩ : m₁ = m' ∧ h₁ = h' := by simpa using hpush.symm.trans hcall
      refine ⟨fun hord => ?_, fun hord hcoh => ?_⟩
      · obtain ⟨tail', hh'⟩ := hin hord
        exact ⟨head, tail', hh'⟩
      · obtain ⟨hsome, hempty⟩ := hout hord
        have hnull := hcoh.null_iff.mpr hempty
        rw [show (s.record m₁ h₁ (.push mb)).front.isSome = true from hsome] at hnull
        cases hnull

end

/-- **Front coherence.** A generic manager whose slabs fit the allocation is set
up without a fault, and stays coherent on every run of calls in order. From any
state of such a run a further call keeps it coherent exactly when the call is
in order. -/
theorem front_coherent_iff_inOrder (p : Slabs) (h : Heap) :
    ∃ m h', init ⟨p.numBuffers, p.bufferSize⟩ p.commonSlab p.first h = .ok (m, h') ∧
      ∀ ops s, Exec (restrict (ofPartial Session.step) InOrder) (Session.start h' m) ops s →
        Coherent p s ∧ ∀ op s', s.step op = some s' → (Coherent p s' ↔ InOrder s op) := by
  obtain ⟨m, h', hinit, hw, hzero, hslabbed, hlaid⟩ := init_spec p h
  refine ⟨m, h', hinit, fun ops s hrun => ?_⟩
  have hinv : ∃ head tail, Handouts s p head tail := by
    refine hrun.invariant (P := fun s => ∃ head tail, Handouts s p head tail) ?_
      ⟨0, _, handouts_start hw hzero hslabbed hlaid⟩
    intro s op s' hs hstep
    obtain ⟨head, tail, hh⟩ := hs
    exact (hh.step hstep.1).1 hstep.2
  obtain ⟨head, tail, hh⟩ := hinv
  refine ⟨hh.coherent, fun op s' hstep => ?_⟩
  obtain ⟨hin, hout⟩ := hh.step hstep
  constructor
  · intro hcoh
    by_contra hord
    exact hout hord hcoh
  · intro hord
    obtain ⟨head', tail', hh'⟩ := hin hord
    exact hh'.coherent

/-- Two slabs of 16 bytes, both lent out, returned in slab order. -/
theorem front_coherent_in_slab_order :
    ∃ p : Slabs, ∃ m h' s,
      init ⟨2, 16⟩ ⟨16, 32, 0⟩ 0 .empty = .ok (m, h') ∧
        Exec (restrict (ofPartial Session.step) InOrder) (Session.start h' m)
          [.pop 16, .pop 16, .push 0, .push 1] s ∧ Coherent p s := by
  let p : Slabs := ⟨⟨2, 0, by decide⟩, ⟨16, 32, 0⟩, 16, by decide⟩
  obtain ⟨m, h', hinit, hcoh⟩ := front_coherent_iff_inOrder p .empty
  have hrun : (Session.run (guarded Session.step InOrder) (init ⟨2, 16⟩ ⟨16, 32, 0⟩ 0 .empty)
      [.pop 16, .pop 16, .push 0, .push 1]).isSome = true := by decide +kernel
  obtain ⟨s, hs⟩ := Option.isSome_iff_exists.mp hrun
  have hexec := Session.exec_of_run hinit hs
  rw [ofPartial_guarded] at hexec
  exact ⟨p, m, h', s, hinit, hexec, (hcoh _ s hexec).1⟩

/-- The same two slabs, the second returned first: the manager is empty and yet
offers a front. -/
theorem front_not_coherent_out_of_order :
    ¬ ∀ (p : Slabs) (h : Heap),
      ∃ m h', init ⟨p.numBuffers, p.bufferSize⟩ p.commonSlab p.first h = .ok (m, h') ∧
        ∀ ops s, Exec (ofPartial Session.step) (Session.start h' m) ops s → Coherent p s := by
  intro hall
  let p : Slabs := ⟨⟨2, 0, by decide⟩, ⟨16, 32, 0⟩, 16, by decide⟩
  obtain ⟨m, h', hinit, hcoh⟩ := hall p .empty
  have hrun : (Session.run Session.step (init ⟨2, 16⟩ ⟨16, 32, 0⟩ 0 .empty)
      [.pop 16, .pop 16, .push 1]).map (fun s => (s.front.isSome, s.mgr.empty)) =
      some (true, true) := by decide +kernel
  obtain ⟨s, hs, hstate⟩ := Option.map_eq_some_iff.mp hrun
  obtain ⟨hsome, hempty⟩ := Prod.mk.inj hstate
  have hnull := (hcoh _ s (Session.exec_of_run hinit hs)).null_iff.mpr hempty
  rw [hsome] at hnull
  cases hnull

end GenericBufferManager

end PothosCore.Framework

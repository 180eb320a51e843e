import Mathlib.Data.List.Chain
import Mathlib.Data.List.Nodup
import PothosCore.Framework.Builtin.CircularBufferManager

/-!
# PothosCore.Framework.Builtin.CircularSession

Runs of a circular buffer manager. `Handouts` ties the record of a session to
the window invariant of its manager; one lemma for each call keeps it, and the
exclusivity of the front window, the order of the ranges and the order of the
managed buffers are read off it.
-/

namespace PothosCore.Framework

open PothosCore.Lib PothosCore.Util

namespace CircularBufferManager

/-- A range that was handed out and not returned since: it lies in the part of
its window that was consumed. -/
def Handout (m : CircularBufferManager) (r : Ring) (head tail : Nat) (start : Nat → Nat)
    (e : Handed) : Prop :=
  ∃ k off, e.mb = r.ident k ∧ e.address = r.addressAt (start k) + off ∧
    ((r.Lent m.readyBuffs head tail k ∧ start k + off + e.length ≤ start (k + 1)) ∨
      (k = head ∧ head < tail ∧ off + e.length ≤ m.bytesToPop))

/-- `e'` starts where `e` ends, in a circular buffer of `n` bytes. -/
def Follows (n : Nat) (e e' : Handed) : Prop := e.address + e.length ≡ e'.address [MOD n]

/-- The record of a session agrees with the windows of its manager. -/
structure Handouts (s : Session CircularBufferManager) (r : Ring) (head tail : Nat)
    (start : Nat → Nat) : Prop where
  windows : Windows s.mgr s.heap r head tail start
  slabbed : r.Slabbed s.heap
  linked : r.Linked s.heap
  served : r.numBuffers ≤ tail
  out : ∀ mb, mb ∈ s.out ↔ ∃ k, r.Lent s.mgr.readyBuffs head tail k ∧ mb = r.ident k
  nodup : s.out.Nodup
  live : ∀ e ∈ s.live, s.mgr.Handout r head tail start e
  chain : s.log.IsChain (Follows r.circBuff.length)
  last : ∀ e ∈ s.log.getLast?,
    e.address + e.length ≡ r.addressAt (start head) + s.mgr.bytesToPop [MOD r.circBuff.length]
  offers : s.offers = (List.range (if head < tail then head + 1 else head)).map r.ident

/-- A manager just set up has handed out nothing. -/
theorem handouts_start {m : CircularBufferManager} {h : Heap} {r : Ring}
    (w : Windows m h r 0 r.numBuffers fun _ => 0) (hl : r.Linked h) (hs : r.Slabbed h) :
    Handouts (Session.start h m) r 0 r.numBuffers fun _ => 0 where
  windows := w
  slabbed := hs
  linked := hl
  served := le_refl _
  out := (Row.Lending.start r.toRow m.readyBuffs r.numBuffers).out
  nodup := List.nodup_nil
  live := fun e he => by cases he
  chain := List.isChain_nil
  last := fun e he => by cases he
  offers := by
    have hfront := w.front r.pos
    rw [if_pos r.pos]
    simp only [Session.start, BufferManager.front, hfront]
    rfl

section
variable {s : Session CircularBufferManager} {r : Ring} {head tail : Nat} {start : Nat → Nat}

theorem Handouts.lending (hh : Handouts s r head tail start) : r.Lending s.out s.mgr.readyBuffs head tail :=
  ⟨hh.out, hh.nodup⟩

/-- An admissible pop that returns finds a window at the front. -/
theorem Handouts.lt_of_pop (hh : Handouts s r head tail start) {n : Nat}
    {res : CircularBufferManager × Heap} (hcall : s.mgr.pop s.heap n = .ok res) : head < tail := by
  rcases Nat.lt_or_eq_of_le hh.windows.stock.head_le with hlt | heq
  · exact hlt
  · have hempty : s.mgr.readyBuffs.empty = true := hh.windows.stock.empty_iff.mpr heq
    rw [CircularBufferManager.pop, if_pos hempty] at hcall
    cases hcall

/-- What a pop hands out starts where the last range ended. -/
theorem Handouts.follows (hh : Handouts s r head tail start) (e : Handed)
    (he : e.address = r.addressAt (start head) + s.mgr.bytesToPop) :
    (s.log ++ [e]).IsChain (Follows r.circBuff.length) := by
  refine List.isChain_append.mpr ⟨hh.chain, List.isChain_singleton _, fun x hx y hy => ?_⟩
  obtain rfl : e = y := by simpa using hy
  rw [Follows, he]
  exact hh.last x hx

/-- The last range and what is to be handed out next, after a pop of `n`. -/
theorem last_snoc {L T n : Nat} {log : List Handed} {mb : ManagedBuffer} {a b : Nat}
    (ha : a = T) (hb : T + n ≡ b [MOD L]) :
    ∀ e ∈ (log ++ [(⟨mb, a, n⟩ : Handed)]).getLast?, e.address + e.length ≡ b [MOD L] := by
  intro e he
  obtain rfl : (⟨mb, a, n⟩ : Handed) = e := by simpa using he
  rw [ha]
  exact hb

theorem Handouts.pop_reuse (hh : Handouts s r head tail start) (hlt : head < tail) {n : Nat}
    (hsmall : (s.mgr.bytesToPop + n) * 2 < r.bufferSize) :
    ∃ m' h', s.mgr.pop s.heap n = .ok (m', h') ∧
      Handouts (s.record m' h' (.pop n)) r head tail start ∧
      m'.readyBuffs = s.mgr.readyBuffs ∧ m'.bytesToPop = s.mgr.bytesToPop + n := by
  obtain ⟨m', h', hpop, hw', hready, hbytes, hlinks⟩ :=
    CircularBufferManager.pop_reuse hh.windows hlt hsmall
  refine ⟨m', h', hpop, ?_, hready, hbytes⟩
  have hfront := hh.windows.front hlt
  have hfront' := hw'.front hlt
  have hmb : (BufferManager.front m').managedBuffer = s.front.managedBuffer := by
    simp only [Session.front, BufferManager.front, hfront, hfront']
  have hlent : ∀ k, r.Lent m'.readyBuffs head tail k ↔ r.Lent s.mgr.readyBuffs head tail k := by
    intro k
    rw [hready]
  have hhanded : s.front.managedBuffer.toList.map
      (fun mb => (⟨mb, s.front.address, n⟩ : Handed)) =
      [⟨r.ident head, r.addressAt (start head) + s.mgr.bytesToPop, n⟩] := by
    simp [Session.front, BufferManager.front, hfront]
  exact {
    windows := hw'
    slabbed := hh.slabbed.of_links hlinks
    linked := hh.linked.of_links hlinks
    served := hh.served
    out := fun mb => by
      simp only [Session.record, Session.retired, if_pos hmb, List.append_nil, hlent]
      exact hh.out mb
    nodup := by
      simp only [Session.record, Session.retired, if_pos hmb, List.append_nil]
      exact hh.nodup
    live := fun e he => by
      simp only [Session.record, hhanded, List.mem_append, List.mem_singleton] at he
      rcases he with he | rfl
      · obtain ⟨k, off, hmb, haddr, hk | ⟨rfl, hk, hoff⟩⟩ := hh.live e he
        · exact ⟨k, off, hmb, haddr, .inl ⟨(hlent k).mpr hk.1, hk.2⟩⟩
        · exact ⟨k, off, hmb, haddr, .inr ⟨rfl, hk, hoff.trans (hbytes ▸ Nat.le_add_right _ n)⟩⟩
      · exact ⟨head, s.mgr.bytesToPop, rfl, rfl, .inr ⟨rfl, hlt, hbytes.ge⟩⟩
    chain := by
      simp only [Session.record, hhanded]
      exact hh.follows _ rfl
    last := by
      simp only [Session.record, hhanded]
      refine last_snoc rfl ?_
      rw [hbytes, Nat.add_assoc]
    offers := by
      simp only [Session.record, Session.offered, if_pos hmb, List.append_nil]
      exact hh.offers }

theorem Handouts.pop_move (hh : Handouts s r head tail start) (hlt : head < tail) {n : Nat}
    (hle : s.mgr.bytesToPop + n ≤ r.bufferSize)
    (hbig : ¬ (s.mgr.bytesToPop + n) * 2 < r.bufferSize) :
    ∃ m' h' start', s.mgr.pop s.heap n = .ok (m', h') ∧
      Handouts (s.record m' h' (.pop n)) r (head + 1) tail start' ∧
      (∀ k ≤ head, start' k = start k) ∧
      start' (head + 1) = start head + (s.mgr.bytesToPop + n) ∧
      (∀ k, r.Lent m'.readyBuffs (head + 1) tail k ↔
        r.Lent s.mgr.readyBuffs head tail k ∨ k = head) ∧ m'.bytesToPop = 0 := by
  obtain ⟨m', h', hpop, hw', hlent, hzero, hlinks⟩ :=
    CircularBufferManager.pop_move hh.windows hlt hle hbig
  let start' := Function.update start (head + 1) (start head + (s.mgr.bytesToPop + n))
  have hstart : ∀ k, k ≤ head → start' k = start k := fun k hk =>
    Function.update_of_ne (by omega) _ _
  have hnew : start' (head + 1) = start head + (s.mgr.bytesToPop + n) := Function.update_self ..
  refine ⟨m', h', start', hpop, ?_, hstart, hnew, hlent, hzero⟩
  have htail := hh.windows.stock.tail_le
  have hfront := hh.windows.front hlt
  have hsf : s.front.managedBuffer = some (r.ident head) := by
    simp only [Session.front, BufferManager.front, hfront]
  have hmb' : (BufferManager.front m').managedBuffer =
      if head + 1 < tail then some (r.ident (head + 1)) else none := by
    by_cases hlt' : head + 1 < tail
    · rw [if_pos hlt']
      simp only [BufferManager.front, hw'.front hlt']
    · rw [if_neg hlt']
      simp only [BufferManager.front, (hw'.idle (by omega)).1, BufferChunk.null_managedBuffer]
  obtain ⟨hretired, hoffered⟩ := Row.moved hsf hmb' htail
  have hout := hh.lending.retire hlt hlent
  have hhanded : s.front.managedBuffer.toList.map
      (fun mb => (⟨mb, s.front.address, n⟩ : Handed)) =
      [⟨r.ident head, r.addressAt (start head) + s.mgr.bytesToPop, n⟩] := by
    rw [hsf]
    simp [Session.front, BufferManager.front, hfront]
  exact {
    windows := hw'
    slabbed := hh.slabbed.of_links hlinks
    linked := hh.linked.of_links hlinks
    served := hh.served
    out := by
      simp only [Session.record, hretired]
      exact hout.out
    nodup := by
      simp only [Session.record, hretired]
      exact hout.nodup
    live := fun e he => by
      simp only [Session.record, hhanded, List.mem_append, List.mem_singleton] at he
      rcases he with he | rfl
      · obtain ⟨k, off, hmb, haddr, ⟨hk, hoff⟩ | ⟨rfl, -, hoff⟩⟩ := hh.live e he
        · refine ⟨k, off, hmb, by rw [hstart k hk.1.le]; exact haddr,
            .inl ⟨(hlent k).mpr (.inl hk), ?_⟩⟩
          rw [hstart k hk.1.le, hstart (k + 1) hk.1]
          exact hoff
        · refine ⟨k, off, hmb, by rw [hstart k (le_refl k)]; exact haddr,
            .inl ⟨(hlent k).mpr (.inr rfl), ?_⟩⟩
          rw [hstart k (le_refl k), hnew]
          omega
      · refine ⟨head, s.mgr.bytesToPop, rfl, by rw [hstart head (le_refl _)],
          .inl ⟨(hlent head).mpr (.inr rfl), ?_⟩⟩
        rw [hstart head (le_refl _), hnew, Nat.add_assoc]
    chain := by
      simp only [Session.record, hhanded]
      exact hh.follows _ rfl
    last := by
      simp only [Session.record, hhanded]
      refine last_snoc rfl ?_
      rw [show _ = _ from hzero, hnew, Nat.add_zero, Nat.add_assoc]
      simp only [Ring.addressAt]
      rw [Nat.add_assoc]
      exact (Nat.ModEq.trans (Nat.mod_add_mod _ _ _) (Nat.mod_mod _ _).symm).add_left _
    offers := by
      simp only [Session.record, hoffered, hh.offers, if_pos hlt]
      by_cases hlt' : head + 1 < tail
      · simp only [if_pos hlt', List.range_succ, List.map_append, List.map_singleton]
      · simp only [if_neg hlt', List.append_nil] }

theorem Handouts.push (hh : Handouts s r head tail start) {mb : ManagedBuffer}
    (hmem : mb ∈ s.out) :
    ∃ m' h' tail', s.mgr.push s.heap mb = .ok (m', h') ∧
      Handouts (s.record m' h' (.push mb)) r head tail' start ∧ tail ≤ tail' ∧
      (∀ k, r.Lent m'.readyBuffs head tail' k ↔
        r.Lent s.mgr.readyBuffs head tail k ∧ r.ident k ≠ mb) ∧
      m'.bytesToPop = s.mgr.bytesToPop := by
  obtain ⟨j, hj, rfl⟩ := (hh.out mb).mp hmem
  have hjlt := Nat.mod_lt j r.pos
  obtain ⟨m', h', tail', hpush, hle, hw', hlent, -, -, hbytes, hkeep, hlinks⟩ :=
    push_spec hh.windows (hh.slabbed _ hjlt) hj.2.2
  simp only [← ne_eq, ← Row.ident_inj.not] at hlent
  refine ⟨m', h', tail', hpush, ?_, hle, hlent, hbytes⟩
  have hidle : ¬ head < tail → s.mgr.frontBuffer = .null ∧ s.mgr.bytesToPop = 0 := fun hlt =>
    hh.windows.idle (Nat.le_antisymm hh.windows.stock.head_le (Nat.le_of_not_lt hlt))
  exact {
    windows := hw'
    slabbed := hh.slabbed.of_links hlinks
    linked := hh.linked.of_links hlinks
    served := hh.served.trans hle
    out := (hh.lending.back hlent).out
    nodup := hh.nodup.erase _
    live := fun e he => by
      simp only [Session.record, List.mem_filter, decide_eq_true_eq] at he
      obtain ⟨k, off, hmb, haddr, ⟨hk, hoff⟩ | ⟨rfl, hlt, hoff⟩⟩ := hh.live e he.1
      · exact ⟨k, off, hmb, haddr, .inl ⟨(hlent k).mpr ⟨hk, hmb ▸ he.2⟩, hoff⟩⟩
      · exact ⟨k, off, hmb, haddr, .inr ⟨rfl, hlt.trans_le hle, hbytes.symm ▸ hoff⟩⟩
    chain := hh.chain
    last := fun e he => by
      rw [show (s.record m' h' (.push (r.ident j))).mgr.bytesToPop = _ from hbytes]
      exact hh.last e he
    offers := by
      by_cases hlt : head < tail
      · have hsame : (BufferManager.front m').managedBuffer = s.front.managedBuffer := by
          simp only [Session.front, BufferManager.front, hkeep hlt]
        simp only [Session.record, Session.offered, if_pos hsame, List.append_nil, hh.offers,
          if_pos hlt, if_pos (hlt.trans_le hle)]
      · have hnull : s.front.managedBuffer = none := by
          simp only [Session.front, BufferManager.front, (hidle hlt).1,
            BufferChunk.null_managedBuffer]
        by_cases hlt' : head < tail'
        · have hfront' : (BufferManager.front m').managedBuffer = some (r.ident head) := by
            simp only [BufferManager.front, hw'.front hlt']
          simp only [Session.record, Session.offered, hnull, hfront', hh.offers, if_neg hlt,
            if_pos hlt', List.range_succ, List.map_append, List.map_singleton]
          rfl
        · have hfront' : (BufferManager.front m').managedBuffer = none := by
            have heq : head = tail' :=
              Nat.le_antisymm hw'.stock.head_le (Nat.le_of_not_lt hlt')
            simp only [BufferManager.front, (hw'.idle heq).1, BufferChunk.null_managedBuffer]
          simp only [Session.record, Session.offered, hnull, hfront', hh.offers, if_neg hlt,
            if_neg hlt']
          exact List.append_nil _ }

/-- **One call.** Every call of the protocol keeps the record in agreement with
the windows. -/
theorem Handouts.step (hh : Handouts s r head tail start) {s' : Session CircularBufferManager}
    {op : ManagerOp} (hstep : s.step op = some s') :
    ∃ head' tail' start', Handouts s' r head' tail' start' := by
  obtain ⟨hadm, m', h', hcall, rfl⟩ := Session.step_inv hstep
  cases op with
  | pop n =>
      have hlt := hh.lt_of_pop hcall
      have hfront := hh.windows.front hlt
      have hn : n ≤ r.bufferSize - s.mgr.bytesToPop := by
        simpa [Session.Admits, Session.front, BufferManager.front, hfront] using hadm
      by_cases hsmall : (s.mgr.bytesToPop + n) * 2 < r.bufferSize
      · obtain ⟨m₁, h₁, hpop, hh', -⟩ := hh.pop_reuse hlt hsmall
        obtain ⟨rfl, rfl⟩ : m₁ = m' ∧ h₁ = h' := by simpa using hpop.symm.trans hcall
        exact ⟨head, tail, start, hh'⟩
      · have hbytes := hh.windows.bytesToPop
        obtain ⟨m₁, h₁, start', hpop, hh', -⟩ := hh.pop_move hlt (by omega) hsmall
        obtain ⟨rfl, rfl⟩ : m₁ = m' ∧ h₁ = h' := by simpa using hpop.symm.trans hcall
        exact ⟨head + 1, tail, start', hh'⟩
  | push mb =>
      obtain ⟨m₁, h₁, tail', hpush, hh', -⟩ := hh.push hadm
      obtain ⟨rfl, rfl⟩ : m₁ = m' ∧ h₁ = h' := by simpa using hpush.symm.trans hcall
      exact ⟨head, tail', start, hh'⟩

/-! ### What the record says -/

theorem Handouts.front_isSome (hh : Handouts s r head tail start) :
    s.front.isSome = true ↔ head < tail := by
  constructor
  · intro hsome
    refine Nat.lt_of_le_of_ne hh.windows.stock.head_le fun heq => ?_
    simp [Session.front, BufferManager.front, (hh.windows.idle heq).1, BufferChunk.isSome] at hsome
  · intro hlt
    simp [Session.front, BufferManager.front, hh.windows.front hlt, BufferChunk.isSome]

/-- A byte before the front and a byte of the front window are closer than the buffer is
long, so they stay apart modulo its length. -/
theorem mod_ne_of_before {m : CircularBufferManager} {h : Heap} (hw : Windows m h r head tail start)
    (hlt : head < tail) {k off n : Nat} (hk : k ≤ head) (htail : tail ≤ k + r.numBuffers)
    (hend : start k + off + n ≤ start head + m.bytesToPop) {x y : Nat}
    (hx : r.addressAt (start k) + off ≤ x) (hx' : x < r.addressAt (start k) + off + n)
    (hy : m.frontBuffer.address ≤ y) (hy' : y < m.frontBuffer.getEnd) :
    x % r.circBuff.length ≠ y % r.circBuff.length := by
  have hspan := hw.span hlt hk htail
  simp only [hw.front hlt, BufferChunk.getEnd] at hy hy'
  obtain ⟨i, rfl⟩ := Nat.exists_eq_add_of_le hx
  obtain ⟨j, rfl⟩ := Nat.exists_eq_add_of_le hy
  rw [Nat.add_assoc, Nat.add_assoc (r.addressAt (start head)), r.addressAt_add_mod,
    r.addressAt_add_mod]
  exact mod_ne_of_lt_of_lt (by omega) (by omega)

/-- A handed-out byte is before the front. -/
theorem Handouts.disjoint (hh : Handouts s r head tail start) (hlt : head < tail) {e : Handed}
    (he : e ∈ s.live) {x y : Nat} (hx : e.address ≤ x) (hx' : x < e.address + e.length)
    (hy : s.front.address ≤ y) (hy' : y < s.front.getEnd) :
    x % r.circBuff.length ≠ y % r.circBuff.length := by
  obtain ⟨k, off, -, haddr, hk⟩ := hh.live e he
  rw [haddr] at hx hx'
  rcases hk with ⟨hlent, hoff⟩ | ⟨rfl, -, hoff⟩
  · have hle : start (k + 1) ≤ start head := hh.windows.start_le hlent.1
    exact mod_ne_of_before hh.windows hlt hlent.1.le hlent.2.1 (by omega) hx hx' hy hy'
  · exact mod_ne_of_before hh.windows hlt (le_refl _) hh.windows.stock.tail_le (by omega) hx hx' hy hy'

/-- A call fails only where `pop` asserts that the queue is not empty. -/
theorem Handouts.returns (hh : Handouts s r head tail start) {op : ManagerOp}
    (hadm : s.Admits op) : (∃ res, s.call op = .ok res) ∨
      (s.front.isSome = false ∧
        s.call op = .error (.assertion "not _readyBuffs.empty()")) := by
  cases op with
  | pop n =>
      rcases Nat.lt_or_eq_of_le hh.windows.stock.head_le with hlt | heq
      · have hfront := hh.windows.front hlt
        have hn : n ≤ r.bufferSize - s.mgr.bytesToPop := by
          simpa [Session.Admits, Session.front, BufferManager.front, hfront] using hadm
        have hbytes := hh.windows.bytesToPop
        by_cases hsmall : (s.mgr.bytesToPop + n) * 2 < r.bufferSize
        · obtain ⟨m', h', hpop, -⟩ := hh.pop_reuse hlt hsmall
          exact .inl ⟨(m', h'), hpop⟩
        · obtain ⟨m', h', -, hpop, -⟩ := hh.pop_move hlt (by omega) hsmall
          exact .inl ⟨(m', h'), hpop⟩
      · have hempty : s.mgr.readyBuffs.empty = true := hh.windows.stock.empty_iff.mpr heq
        refine .inr ⟨?_, ?_⟩
        · rw [Bool.eq_false_iff]
          intro hsome
          exact (hh.front_isSome.mp hsome).ne heq
        · show s.mgr.pop s.heap n = _
          rw [CircularBufferManager.pop, if_pos hempty]
  | push mb =>
      obtain ⟨m', h', -, hpush, -⟩ := hh.push hadm
      exact .inl ⟨(m', h'), hpush⟩

end

/-- What a user of a circular manager may rely on. -/
structure Exclusive (r : Ring) (s : Session CircularBufferManager) : Prop where
  /-- The front window meets no range that is still held, modulo the length. -/
  disjoint : s.front.isSome = true → ∀ e ∈ s.live, ∀ x y, e.address ≤ x →
    x < e.address + e.length → s.front.address ≤ y → y < s.front.getEnd →
      x % r.circBuff.length ≠ y % r.circBuff.length
  /-- The ranges follow one another in the order they were handed out. -/
  consecutive : s.log.IsChain (Follows r.circBuff.length)
  /-- The front window follows the last range. -/
  continues : s.front.isSome = true → ∀ e ∈ s.log.getLast?,
    e.address + e.length ≡ s.front.address [MOD r.circBuff.length]
  /-- The managed buffers come to the front in cyclic slab order. -/
  cyclic : s.offers.map (fun mb => (s.heap.impl mb).slabIndex) =
    (List.range s.offers.length).map (· % r.numBuffers)
  /-- No call throws: at worst `pop` finds nothing at the front and asserts. -/
  returns : ∀ op, s.Admits op → (∃ res, s.call op = .ok res) ∨
    (s.front.isSome = false ∧ s.call op = .error (.assertion "not _readyBuffs.empty()"))

theorem Handouts.exclusive {s : Session CircularBufferManager} {r : Ring} {head tail : Nat}
    {start : Nat → Nat} (hh : Handouts s r head tail start) : Exclusive r s where
  disjoint := fun hsome _ he _ _ hx hx' hy hy' =>
    hh.disjoint (hh.front_isSome.mp hsome) he hx hx' hy hy'
  consecutive := hh.chain
  continues := fun hsome e he => by
    have hfront : s.front = _ := hh.windows.front (hh.front_isSome.mp hsome)
    rw [hfront]
    exact hh.last e he
  cyclic := by
    rw [hh.offers, List.length_map, List.length_range, List.map_map]
    refine List.map_congr_left fun k _ => ?_
    exact hh.slabbed _ (Nat.mod_lt k r.pos)
  returns := fun _ hadm => hh.returns hadm

/-- **Window exclusivity.** A circular manager over a double-mapped buffer with
room for all its windows is set up without a fault, and in every state its users
can reach by popping at most what the front has and by returning, in any order,
what they popped, the front window is exclusively theirs. -/
theorem front_exclusive (r : Ring) (h : Heap) :
    ∃ m h', init ⟨r.numBuffers, r.bufferSize⟩ r.circBuff r.first h = .ok (m, h') ∧
      ∀ ops s, Exec (ofPartial Session.step) (Session.start h' m) ops s → Exclusive r s := by
  obtain ⟨m, h', hinit, hw, hlinked, hslabbed, -⟩ := init_spec r h
  refine ⟨m, h', hinit, fun ops s hrun => ?_⟩
  have hinv : ∃ head tail start, Handouts s r head tail start := by
    refine hrun.invariant (P := fun s => ∃ head tail start, Handouts s r head tail start) ?_
      ⟨0, _, _, handouts_start hw hlinked hslabbed⟩
    intro s op s' hs hstep
    obtain ⟨head, tail, start, hh⟩ := hs
    exact hh.step hstep
  obtain ⟨head, tail, start, hh⟩ := hinv
  exact hh.exclusive

/-- Two windows of eight bytes, returned out of order across the wrap. -/
theorem front_exclusive_across_wrap :
    ∃ r : Ring, ∃ m h' s,
      init ⟨2, 8⟩ ⟨16, 16, 32⟩ 0 .empty = .ok (m, h') ∧
        Exec (ofPartial Session.step) (Session.start h' m)
          [.pop 5, .pop 8, .push 1, .push 0, .pop 6] s ∧
        s.log = [⟨0, 16, 5⟩, ⟨1, 21, 8⟩, ⟨0, 29, 6⟩] ∧ Exclusive r s := by
  let r : Ring := ⟨⟨2, 0, by decide⟩, ⟨16, 16, 32⟩, 8, rfl, by decide⟩
  obtain ⟨m, h', hinit, hexcl⟩ := front_exclusive r .empty
  have hrun : (Session.run Session.step (init ⟨2, 8⟩ ⟨16, 16, 32⟩ 0 .empty)
      [.pop 5, .pop 8, .push 1, .push 0, .pop 6]).map (·.log) =
      some [⟨0, 16, 5⟩, ⟨1, 21, 8⟩, ⟨0, 29, 6⟩] := by decide +kernel
  obtain ⟨s, hs, hlog⟩ := Option.map_eq_some_iff.mp hrun
  have hexec := Session.exec_of_run hinit hs
  exact ⟨r, m, h', s, hinit, hexec, hlog, hexcl _ s hexec⟩

end CircularBufferManager

end PothosCore.Framework

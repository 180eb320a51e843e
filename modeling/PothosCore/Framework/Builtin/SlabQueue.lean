import Mathlib.Data.List.Nodup
import PothosCore.Framework.BufferManager
import PothosCore.Util.OrderedQueue

/-!
# PothosCore.Framework.Builtin.SlabQueue

The ready queue of a buffer manager. Both managers allocate their managed
buffers in a row, the one of slab `s` at `first + s`, and keep those that are
ready in an `OrderedQueue` indexed by slab.

Number the check-outs `0, 1, 2, …`; check-out `k` uses slab `k % numBuffers`.
`Stock` says that check-outs `head … tail - 1` are ready, `Lent` that a
check-out was popped and not returned since.
-/

namespace PothosCore.Framework

open PothosCore.Lib PothosCore.Util

/-- The slab of a managed buffer of the manager; `numBuffers` for a stranger. -/
def slabOf (first numBuffers mb : Nat) : Nat :=
  if first ≤ mb then mb - first else numBuffers

@[simp] theorem slabOf_add (first numBuffers s : Nat) :
    slabOf first numBuffers (first + s) = s := by simp [slabOf]

theorem eq_add_of_slabOf {first numBuffers s mb : Nat}
    (h : slabOf first numBuffers mb = s) (hs : s < numBuffers) : mb = first + s := by
  unfold slabOf at h
  split at h <;> omega

/-- `setNextBuffer` along a row of `numBuffers` buffers; the last keeps its own. -/
def linkBuffers (first numBuffers : Nat) (h : Heap) : Heap :=
  (List.range (numBuffers - 1)).foldl (fun h i => h.setNextBuffer (first + i) (first + (i + 1))) h

theorem linkBuffers_impl (first numBuffers : Nat) (h : Heap) (mb : Nat) :
    (linkBuffers first numBuffers h).impl mb =
      { h.impl mb with nextBuffer :=
          if first ≤ mb ∧ mb < first + (numBuffers - 1) then some (mb + 1)
          else (h.impl mb).nextBuffer } := by
  unfold linkBuffers
  induction numBuffers - 1 with
  | zero =>
      rw [if_neg (by omega)]
      rfl
  | succ n ih =>
      rw [List.range_succ, List.foldl_append, List.foldl_cons, List.foldl_nil,
        Heap.setNextBuffer_impl]
      by_cases hmb : mb = first + n
      · subst hmb
        rw [if_pos rfl, if_pos (by omega), ih, Nat.add_assoc]
      · rw [if_neg hmb, ih]
        by_cases hin : first ≤ mb ∧ mb < first + n
        · rw [if_pos hin, if_pos (by omega)]
        · rw [if_neg hin, if_neg (by omega)]

/-! ### Rows of managed buffers -/

/-- A manager's managed buffers, allocated from `first` on. -/
structure Row where
  numBuffers : Nat
  first : Nat
  pos : 0 < numBuffers

namespace Row

variable (r : Row)

/-- The managed buffer of check-out `k`. -/
def ident (k : Nat) : Nat := r.first + k % r.numBuffers

/-- The slab of a managed buffer. -/
abbrev slab : ManagedBuffer → Nat := slabOf r.first r.numBuffers

/-- The managed buffers form a cycle in check-out order. -/
def Linked (h : Heap) : Prop :=
  ∀ k, (h.impl (r.ident k)).nextBuffer = some (r.ident (k + 1))

/-- The slab indices stored in the managed buffers are their own. -/
def Slabbed (h : Heap) : Prop :=
  ∀ s < r.numBuffers, (h.impl (r.first + s)).slabIndex = s

/-- Check-out `k` was popped and not returned since. -/
def Lent (q : OrderedQueue ManagedBuffer) (head tail k : Nat) : Prop :=
  k < head ∧ tail ≤ k + r.numBuffers ∧ q.CheckedOut r.slab (k % r.numBuffers)

/-- The check-outs `head … tail - 1` are ready. -/
structure Stock (q : OrderedQueue ManagedBuffer) (head tail : Nat) : Prop where
  capacity : q.capacity = r.numBuffers
  serving : OrderedQueue.Serving q r.slab head tail

variable {r} {q : OrderedQueue ManagedBuffer} {head tail : Nat}

theorem ident_ne {j k : Nat} (h : j < k) (h' : k < j + r.numBuffers) : r.ident j ≠ r.ident k := by
  intro he
  exact mod_ne_of_lt_of_lt h h' (Nat.add_left_cancel he)

theorem ident_inj {j k : Nat} :
    r.ident j = r.ident k ↔ j % r.numBuffers = k % r.numBuffers := Nat.add_left_cancel_iff

theorem Slabbed.of_links {h h' : Heap} (hs : r.Slabbed h) (hl : h.SameLinks h') : r.Slabbed h' :=
  fun s hlt => (hl _).1.trans (hs s hlt)

theorem Linked.of_links {h h' : Heap} (hn : r.Linked h) (hl : h.SameLinks h') : r.Linked h' :=
  fun k => (hl _).2.trans (hn k)

/-- A lent buffer is not the one at the front. -/
theorem Lent.ident_ne {k : Nat} (hk : r.Lent q head tail k) (hlt : head < tail) :
    r.ident k ≠ r.ident head :=
  Row.ident_ne hk.1 (by have := hk.2.1; omega)

namespace Stock

theorem head_le (w : r.Stock q head tail) : head ≤ tail := w.serving.head_le

theorem tail_le (w : r.Stock q head tail) : tail ≤ head + r.numBuffers :=
  w.capacity ▸ w.serving.tail_le

theorem empty_iff (w : r.Stock q head tail) : q.empty = true ↔ head = tail :=
  w.serving.empty_iff

theorem not_empty (w : r.Stock q head tail) (hlt : head < tail) : q.empty = false := by
  rw [Bool.eq_false_iff]
  intro he
  exact hlt.ne (w.empty_iff.mp he)

theorem front_none (w : r.Stock q head tail) (heq : head = tail) : q.front = none := by
  have hempty := w.empty_iff.mpr heq
  simpa [OrderedQueue.front, OrderedQueue.empty] using hempty

/-- The queue offers the managed buffer of the head check-out. -/
theorem front_eq (w : r.Stock q head tail) (hlt : head < tail) :
    q.front = some (r.ident head) := by
  cases hf : q.front with
  | none =>
      have hne := w.not_empty hlt
      simp_all [OrderedQueue.front, OrderedQueue.empty]
  | some mb =>
      obtain ⟨-, hslot⟩ := w.serving.front_slot hf
      rw [w.capacity] at hslot
      rw [eq_add_of_slabOf hslot (Nat.mod_lt _ r.pos)]
      rfl

/-- A slot that is out belongs to no ready check-out. -/
theorem lent_of_checkedOut (w : r.Stock q head tail) {k t : Nat} (hk : k < head)
    (ht : head ≤ t) (hwin : t ≤ k + r.numBuffers)
    (hout : q.CheckedOut r.slab (k % r.numBuffers)) : r.Lent q head tail k := by
  refine ⟨hk, ?_, hout⟩
  by_contra hlt
  refine hout.1 (w.serving.mem_ready.mpr ⟨k + r.numBuffers, ht.trans hwin, by omega, ?_⟩)
  rw [w.capacity, Nat.add_mod_right]

/-- Popping lends out the head check-out. -/
theorem pop (w : r.Stock q head tail) (hlt : head < tail) :
    ∃ q', q.pop = .ok q' ∧ r.Stock q' (head + 1) tail ∧
      ∀ k, r.Lent q' (head + 1) tail k ↔ r.Lent q head tail k ∨ k = head := by
  obtain ⟨q', hpop, hserving, hcap, -, -, hout⟩ :=
    OrderedQueue.pop_spec w.serving (w.front_eq hlt)
  have hslot : r.slab (r.ident head) = head % r.numBuffers := slabOf_add _ _ _
  have htail := w.tail_le
  refine ⟨q', hpop, ⟨hcap.trans w.capacity, hserving⟩, fun k => ?_⟩
  simp only [Lent, hout, hslot]
  constructor
  · intro hk
    obtain ⟨hk, hwin, hck⟩ := hk
    rcases Nat.lt_succ_iff_lt_or_eq.mp hk with hk' | rfl
    · rcases hck with hck | hck
      · exact .inl ⟨hk', hwin, hck⟩
      · exact absurd hck (mod_ne_of_lt_of_lt hk' (by omega))
    · exact .inr rfl
  · intro hk
    rcases hk with ⟨hk, hwin, hck⟩ | rfl
    · exact ⟨by omega, hwin, .inl hck⟩
    · exact ⟨Nat.lt_succ_self _, htail, .inr rfl⟩

/-- Pushing back a buffer that is out never fails, and ends its check-out. Only
the buffer that is next in slab order makes the queue grow. -/
theorem push (w : r.Stock q head tail) {s : Nat} (hs : q.CheckedOut r.slab s) :
    ∃ q' tail', q.push (r.first + s) s = .ok q' ∧ r.Stock q' head tail' ∧ s < r.numBuffers ∧
      tail ≤ tail' ∧ (s = q.indexToAck → tail < tail') ∧ (s ≠ q.indexToAck → tail' = tail) ∧
      (∀ s', q'.CheckedOut r.slab s' ↔ q.CheckedOut r.slab s' ∧ s' ≠ s) ∧
      ∀ k, r.Lent q' head tail' k ↔ r.Lent q head tail k ∧ k % r.numBuffers ≠ s := by
  have hslot : r.slab (r.first + s) = s := slabOf_add _ _ _
  obtain ⟨k, -, -, hmod⟩ := hs.exists_position w.serving
  have hlt : s < r.numBuffers := by
    rw [← hmod, w.capacity]
    exact Nat.mod_lt _ r.pos
  obtain ⟨q', tail', hpush, hserving, hcap, -, hout, hin, hstay⟩ :=
    OrderedQueue.push_spec w.serving (x := r.first + s) (by rw [hslot]; exact hs)
  rw [hslot] at hpush hout hin hstay
  have hle : tail ≤ tail' := by
    by_cases hack : s = q.indexToAck
    · exact (hin hack).le
    · exact (hstay hack).1.ge
  have hq' : r.Stock q' head tail' := ⟨hcap.trans w.capacity, hserving⟩
  refine ⟨q', tail', hpush, hq', hlt, hle, hin, fun hne => (hstay hne).1, hout, fun k => ?_⟩
  constructor
  · intro hk
    obtain ⟨hck, hne⟩ := (hout _).mp hk.2.2
    exact ⟨⟨hk.1, hle.trans hk.2.1, hck⟩, hne⟩
  · intro hk
    exact hq'.lent_of_checkedOut hk.1.1 w.head_le hk.1.2.1 ((hout _).mpr ⟨hk.1.2.2, hk.2⟩)

end Stock

/-! ### The buffers that are out -/

/-- The list `out` of a session has the managed buffers of the check-outs that are lent. -/
structure Lending (r : Row) (lent : List ManagedBuffer) (q : OrderedQueue ManagedBuffer) (head tail : Nat) :
    Prop where
  out : ∀ mb, mb ∈ lent ↔ ∃ k, r.Lent q head tail k ∧ mb = r.ident k
  nodup : lent.Nodup

namespace Lending

variable {lent : List ManagedBuffer} {q' : OrderedQueue ManagedBuffer} {tail' : Nat} {mb : ManagedBuffer}

theorem start (r : Row) (q : OrderedQueue ManagedBuffer) (tail : Nat) : r.Lending [] q 0 tail where
  out := fun mb => by
    constructor
    · intro hmb; cases hmb
    · intro hmb
      obtain ⟨k, hk, -⟩ := hmb
      exact absurd hk.1 (Nat.not_lt_zero k)
  nodup := List.nodup_nil

/-- The buffer at the front is not out. -/
theorem front_not_mem (hl : r.Lending lent q head tail) (hlt : head < tail) : r.ident head ∉ lent := by
  intro hmem
  obtain ⟨k, hk, he⟩ := (hl.out _).mp hmem
  exact hk.ident_ne hlt he.symm

/-- The check-out at the front is lent. -/
theorem retire (hl : r.Lending lent q head tail) (hlt : head < tail)
    (hlent : ∀ k, r.Lent q' (head + 1) tail k ↔ r.Lent q head tail k ∨ k = head) :
    r.Lending (lent ++ [r.ident head]) q' (head + 1) tail where
  out := fun mb => by
    simp only [List.mem_append, List.mem_singleton, hl.out, hlent]
    constructor
    · intro h
      rcases h with ⟨k, hk, rfl⟩ | rfl
      · exact ⟨k, .inl hk, rfl⟩
      · exact ⟨head, .inr rfl, rfl⟩
    · intro h
      obtain ⟨k, hk | rfl, rfl⟩ := h
      · exact .inl ⟨k, hk, rfl⟩
      · exact .inr rfl
  nodup := by
    refine List.nodup_append.mpr ⟨hl.nodup, List.nodup_singleton _, ?_⟩
    intro mb hmem mb' hmem'
    rw [List.mem_singleton.mp hmem']
    intro he
    exact hl.front_not_mem hlt (he ▸ hmem)

/-- A buffer comes back. -/
theorem back (hl : r.Lending lent q head tail)
    (hlent : ∀ k, r.Lent q' head tail' k ↔ r.Lent q head tail k ∧ r.ident k ≠ mb) :
    r.Lending (lent.erase mb) q' head tail' where
  out := fun x => by
    simp only [hl.nodup.mem_erase_iff, hl.out, hlent]
    constructor
    · intro h
      obtain ⟨hne, k, hk, rfl⟩ := h
      exact ⟨k, ⟨hk, hne⟩, rfl⟩
    · intro h
      obtain ⟨k, ⟨hk, hne⟩, rfl⟩ := h
      exact ⟨hne, k, hk, rfl⟩
  nodup := hl.nodup.erase mb

end Lending

/-- What a session records when the front moves on to the next check-out. -/
theorem moved {front front' : BufferChunk} (hfront : front.managedBuffer = some (r.ident head))
    (hfront' : front'.managedBuffer = if head + 1 < tail then some (r.ident (head + 1)) else none)
    (htail : tail ≤ head + r.numBuffers) :
    Session.retired front front' = [r.ident head] ∧
      Session.offered front front' = if head + 1 < tail then [r.ident (head + 1)] else [] := by
  have hmb : ¬ front'.managedBuffer = front.managedBuffer := by
    rw [hfront', hfront]
    split
    · next hlt =>
        intro he
        exact Row.ident_ne (Nat.lt_succ_self head) (by omega) (Option.some.inj he).symm
    · intro he; cases he
  refine ⟨?_, ?_⟩
  · rw [Session.retired, if_neg hmb, hfront]
    rfl
  · rw [Session.offered, if_neg hmb, hfront']
    split <;> rfl

/-! ### Filling the queue -/

/-- The first `i` buffers were pushed, and no others. -/
structure Filled (r : Row) (q : OrderedQueue ManagedBuffer) (i : Nat) : Prop where
  stock : r.Stock q 0 i
  rest : ∀ s, q.CheckedOut r.slab s ↔ i ≤ s ∧ s < r.numBuffers

/-- A fresh queue. -/
theorem make_filled (r : Row) : ∃ q, OrderedQueue.make r.numBuffers = .ok q ∧ r.Filled q 0 := by
  obtain ⟨q, hq⟩ : ∃ q, OrderedQueue.make r.numBuffers = .ok q := by
    simp only [OrderedQueue.make, if_pos r.pos]
    exact ⟨_, rfl⟩
  obtain ⟨hserving, hcap, hfree⟩ := OrderedQueue.make_serving r.slab hq
  exact ⟨q, hq, ⟨hcap, hserving⟩, fun s => by rw [hfree]; simp⟩

theorem Filled.checkedOut {i : Nat} (w : r.Filled q i) (hi : i < r.numBuffers) :
    q.CheckedOut r.slab i := (w.rest i).mpr ⟨le_refl i, hi⟩

/-- Pushing the next buffer in order makes just that one ready. -/
theorem Filled.push {i tail' : Nat} {q' : OrderedQueue ManagedBuffer} (w : r.Filled q i)
    (hi : i < r.numBuffers) (hq' : r.Stock q' 0 tail') (hin : i = q.indexToAck → i < tail')
    (hout : ∀ s', q'.CheckedOut r.slab s' ↔ q.CheckedOut r.slab s' ∧ s' ≠ i) :
    tail' = i + 1 ∧ r.Filled q' (i + 1) := by
  have hrest : ∀ s, q'.CheckedOut r.slab s ↔ i + 1 ≤ s ∧ s < r.numBuffers := by
    intro s
    rw [hout, w.rest]
    omega
  have hack : i = q.indexToAck := by
    rw [w.stock.serving.ack, w.stock.capacity, Nat.mod_eq_of_lt hi]
  have hlt := hin hack
  have htail := hq'.tail_le
  have heq : tail' = i + 1 := by
    by_contra hne
    -- otherwise the slot after `i` would be ready, but it is still to be pushed
    have hck := (hrest (i + 1)).mpr ⟨le_refl _, by omega⟩
    refine hck.1 (hq'.serving.mem_ready.mpr ⟨i + 1, Nat.zero_le _, by omega, ?_⟩)
    rw [hq'.capacity]
    exact Nat.mod_eq_of_lt (by omega)
  subst heq
  exact ⟨rfl, hq', hrest⟩

end Row

end PothosCore.Framework

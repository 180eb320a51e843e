import PothosCore.Fault
import PothosCore.Lib.Residue

/-!
# PothosCore.Util.OrderedQueue

The `OrderedQueue` template: a queue whose elements carry the index of the slot
they belong to and become ready in cyclic slot order, whatever the order in
which they are pushed. The buffer managers keep their managed buffers in one.

`Serving q slot head tail` is the invariant of a queue used under the check-out
protocol (an element is pushed again only after it was popped). `head` counts
the elements popped so far and `tail` the elements that became ready so far;
the ready elements are the positions `head … tail - 1` of the endless cyclic
slot order, and everything parked lies strictly between `tail` and
`head + capacity`. The window argument of `Lib.Residue` then identifies the
slot that equals the acknowledge index with position `tail` itself, which is
what bounds the ring and stops the drain loop.
-/

namespace PothosCore.Util

open PothosCore.Lib

/-- `OrderedQueue<T>`. A parked pair `(elem, true)` of `_pushedElems` is
`some elem`, a pair whose flag is down is `none`. -/
structure OrderedQueue (α : Type*) where
  indexToAck : Nat
  pushedElems : List (Option α)
  readyElems : List α
  /-- The capacity of the ready ring. -/
  capacity : Nat
  deriving Repr, DecidableEq

namespace OrderedQueue

variable {α : Type*}

/-- `OrderedQueue(capacity)`; the ready ring asserts a positive capacity. -/
def make (capacity : Nat) : Except Fault (OrderedQueue α) :=
  if 0 < capacity then
    .ok { indexToAck := 0, pushedElems := List.replicate capacity none,
          readyElems := [], capacity := capacity }
  else .error (.assertion "capacity > 0")

/-- `empty()`: no element is available at the front. -/
def empty (q : OrderedQueue α) : Bool := q.readyElems.isEmpty

/-- `_readyElems.full()`. -/
def full (q : OrderedQueue α) : Bool := q.readyElems.length == q.capacity

/-- `_wrapIndex()`. -/
def wrapIndex (q : OrderedQueue α) : OrderedQueue α :=
  { q with indexToAck :=
      if q.indexToAck + 1 = q.pushedElems.length then 0 else q.indexToAck + 1 }

/-- Move `elem` to the back of the ready ring and step the acknowledge index. -/
def acknowledge (q : OrderedQueue α) (elem : α) : Except Fault (OrderedQueue α) :=
  if q.full then .error (.assertion "not _readyElems.full()")
  else .ok ({ q with readyElems := q.readyElems ++ [elem] }.wrapIndex)

/-- The loop at the end of `push`: while the slot to acknowledge is parked,
move it to the ready ring. The bound is the number of iterations allowed. -/
def drain : Nat → OrderedQueue α → Except Fault (OrderedQueue α)
  | bound, q =>
      match q.pushedElems[q.indexToAck]? with
      | none => .error (.undefined "_pushedElems[_indexToAck]")
      | some none => .ok q
      | some (some elem) =>
          match bound with
          | 0 => .error .diverged
          | bound + 1 => do
              let q' ← acknowledge { q with pushedElems := q.pushedElems.set q.indexToAck none } elem
              drain bound q'

/-- `push(elem, index)`. -/
def push (q : OrderedQueue α) (elem : α) (index : Nat) : Except Fault (OrderedQueue α) :=
  if index = q.indexToAck then do
    -- element was pushed in order, go directly to the queue
    let q' ← q.acknowledge elem
    q'.drain q'.capacity
  else if index < q.pushedElems.length then
    -- store the element into its position
    let q' := { q with pushedElems := q.pushedElems.set index (some elem) }
    q'.drain q'.capacity
  else .error (.assertion "index < _pushedElems.size()")

/-- `front()`, when there is one. -/
def front (q : OrderedQueue α) : Option α := q.readyElems.head?

/-- `pop()`; popping an empty ring asserts. -/
def pop (q : OrderedQueue α) : Except Fault (OrderedQueue α) :=
  match q.readyElems with
  | [] => .error (.assertion "not this->empty()")
  | _ :: rest => .ok { q with readyElems := rest }

/-! ### The check-out invariant -/

/-- A slot is checked out: its element is neither ready nor parked. -/
def CheckedOut (q : OrderedQueue α) (slot : α → Nat) (s : Nat) : Prop :=
  s ∉ q.readyElems.map slot ∧ q.pushedElems[s]? = some none

/-- The queue between calls, with every parked slot at a position `≥ low` of the
cyclic order. Between calls `low` is `tail + 1`; inside `push`, while the drain
loop runs, it is `tail`. -/
structure Parking (q : OrderedQueue α) (slot : α → Nat) (head tail low : Nat) : Prop where
  pos : 0 < q.capacity
  size : q.pushedElems.length = q.capacity
  ack : q.indexToAck = tail % q.capacity
  head_le : head ≤ tail
  tail_le : tail ≤ head + q.capacity
  ready : q.readyElems.map slot = (List.range' head (tail - head)).map (· % q.capacity)
  parked : ∀ i x, q.pushedElems[i]? = some (some x) →
    slot x = i ∧ ∃ k, low ≤ k ∧ k < head + q.capacity ∧ k % q.capacity = i

/-- The invariant of a queue under the check-out protocol. -/
abbrev Serving (q : OrderedQueue α) (slot : α → Nat) (head tail : Nat) : Prop :=
  Parking q slot head tail (tail + 1)

section
variable {q : OrderedQueue α} {slot : α → Nat} {head tail low : Nat}

theorem Parking.ready_length (h : Parking q slot head tail low) :
    q.readyElems.length = tail - head := by
  have := congrArg List.length h.ready
  simpa using this

theorem Parking.mem_ready (h : Parking q slot head tail low) {s : Nat} :
    s ∈ q.readyElems.map slot ↔ ∃ k, head ≤ k ∧ k < tail ∧ k % q.capacity = s := by
  rw [h.ready, List.mem_map]
  constructor
  · rintro ⟨k, hk, rfl⟩
    rw [List.mem_range'_1] at hk
    exact ⟨k, hk.1, by omega, rfl⟩
  · rintro ⟨k, hk, hk', rfl⟩
    exact ⟨k, List.mem_range'_1.mpr ⟨hk, by omega⟩, rfl⟩

/-- A slot that is out sits at a position of the window not yet ready. -/
theorem CheckedOut.exists_position (h : Parking q slot head tail low) {s : Nat}
    (hs : q.CheckedOut slot s) : ∃ k, tail ≤ k ∧ k < head + q.capacity ∧ k % q.capacity = s := by
  have hlt : s < q.capacity := by
    rw [← h.size]
    exact (List.getElem?_eq_some_iff.mp hs.2).1
  obtain ⟨k, hk, hk', rfl⟩ := exists_in_window_of_lt head hlt
  refine ⟨k, ?_, hk', rfl⟩
  by_contra hlt'
  exact hs.1 (h.mem_ready.mpr ⟨k, hk, by omega, rfl⟩)

/-- A fresh queue serves nothing yet; every slot is out. -/
theorem make_serving {capacity : Nat} {q : OrderedQueue α} (slot : α → Nat)
    (h : make capacity = .ok q) :
    Serving q slot 0 0 ∧ q.capacity = capacity ∧
      ∀ s, q.CheckedOut slot s ↔ s < capacity := by
  unfold make at h
  split at h
  · next hpos =>
      obtain rfl := Except.ok.inj h
      refine ⟨⟨hpos, by simp, by simp, le_refl _, by simp, by simp, ?_⟩, rfl, fun s => ?_⟩
      · intro i x hx
        simp [List.getElem?_replicate] at hx
      · simp [CheckedOut, List.getElem?_replicate]
  · cases h

/-- The front element carries the slot of position `head`. -/
theorem Parking.front_slot (h : Parking q slot head tail low) {x : α}
    (hx : q.front = some x) : head < tail ∧ slot x = head % q.capacity := by
  cases hr : q.readyElems with
  | nil => simp [front, hr] at hx
  | cons y rest =>
      obtain rfl : y = x := by simpa [front, hr] using hx
      have hlen := h.ready_length
      have hready := h.ready
      rw [hr, List.length_cons] at hlen
      rw [hr] at hready
      obtain ⟨d, hd⟩ : ∃ d, tail - head = d + 1 := ⟨rest.length, by omega⟩
      rw [hd, List.range'_succ] at hready
      simp only [List.map_cons, List.cons.injEq] at hready
      exact ⟨by omega, hready.1⟩

theorem Parking.empty_iff (h : Parking q slot head tail low) :
    q.empty = true ↔ head = tail := by
  have hlen := h.ready_length
  have := h.head_le
  rw [empty, List.isEmpty_iff_length_eq_zero]
  omega

/-- **Acknowledging position `tail`.** The element whose slot is the
acknowledge index goes to the ready ring, which still has room for it. -/
theorem acknowledge_spec (h : Parking q slot head tail (tail + 1))
    (hroom : tail < head + q.capacity) {x : α} (hx : slot x = q.indexToAck) :
    ∃ q', q.acknowledge x = .ok q' ∧ Parking q' slot head (tail + 1) (tail + 1) ∧
      q'.capacity = q.capacity ∧ q'.readyElems = q.readyElems ++ [x] ∧
      q'.pushedElems = q.pushedElems := by
  have hlen := h.ready_length
  have hle := h.head_le
  have hfull : q.full = false := by
    simp only [full, beq_eq_false_iff_ne]
    omega
  refine ⟨{ q with readyElems := q.readyElems ++ [x] }.wrapIndex, by simp [acknowledge, hfull], ?_,
    rfl, rfl, rfl⟩
  refine ⟨h.pos, h.size, ?_, by omega, ?_, ?_, h.parked⟩
  · show (if q.indexToAck + 1 = q.pushedElems.length then 0 else q.indexToAck + 1)
      = (tail + 1) % q.capacity
    rw [h.ack, h.size, succ_mod_eq_ite h.pos]
  · show tail + 1 ≤ head + q.capacity
    omega
  · show (q.readyElems ++ [x]).map slot = (List.range' head (tail + 1 - head)).map (· % q.capacity)
    have hsub : tail + 1 - head = (tail - head) + 1 := by omega
    have hlast : head + (tail - head) = tail := by omega
    rw [List.map_append, h.ready, hsub, List.range'_concat, List.map_append, List.map_singleton,
      List.map_singleton, hx, h.ack, Nat.one_mul, hlast]

/-- Clearing a parked slot that has just been taken for acknowledging. -/
theorem Parking.clear (h : Parking q slot head tail tail) {x : α}
    (hx : q.pushedElems[q.indexToAck]? = some (some x)) :
    Parking { q with pushedElems := q.pushedElems.set q.indexToAck none } slot head tail (tail + 1) ∧
      tail < head + q.capacity := by
  obtain ⟨-, k, hk, hk', hmod⟩ := h.parked _ _ hx
  have hle := h.head_le
  have heq : k = tail :=
    eq_of_mod_eq_of_window (n := q.capacity) hk (by omega) (le_refl tail)
      (by have := h.pos; omega) (by rw [hmod, h.ack])
  subst heq
  refine ⟨⟨h.pos, by simpa using h.size, h.ack, h.head_le, h.tail_le, h.ready, ?_⟩, hk'⟩
  intro i y hy
  rw [List.getElem?_set] at hy
  split at hy
  · split at hy <;> simp at hy
  · next hne =>
      obtain ⟨hslot, j, hj, hj', hjmod⟩ := h.parked i y hy
      refine ⟨hslot, j, ?_, hj', hjmod⟩
      rcases Nat.eq_or_lt_of_le hj with rfl | hlt
      · exact absurd (hjmod ▸ h.ack) hne
      · exact hlt

/-- With the acknowledge slot unparked, nothing is parked at position `tail`. -/
theorem Parking.stop (h : Parking q slot head tail tail)
    (hnone : q.pushedElems[q.indexToAck]? = some none) : Serving q slot head tail := by
  refine ⟨h.pos, h.size, h.ack, h.head_le, h.tail_le, h.ready, fun i x hx => ?_⟩
  obtain ⟨hslot, k, hk, hk', hmod⟩ := h.parked i x hx
  refine ⟨hslot, k, ?_, hk', hmod⟩
  rcases Nat.eq_or_lt_of_le hk with rfl | hlt
  · rw [← hmod, ← h.ack, hnone] at hx
    simp at hx
  · exact hlt

/-- Moving the element of a parked slot to the ready ring leaves the slots that
are out as they were. -/
theorem checkedOut_of_moved {q₁ : OrderedQueue α} {x : α} (hslot : slot x = q.indexToAck)
    (hx : q.pushedElems[q.indexToAck]? = some (some x))
    (hready : q₁.readyElems = q.readyElems ++ [x])
    (hpushed : q₁.pushedElems = q.pushedElems.set q.indexToAck none) (s : Nat) :
    q₁.CheckedOut slot s ↔ q.CheckedOut slot s := by
  have hlt : q.indexToAck < q.pushedElems.length := (List.getElem?_eq_some_iff.mp hx).1
  simp only [CheckedOut, hready, hpushed, List.map_append, List.map_singleton, List.mem_append,
    List.mem_singleton, not_or, List.getElem?_set, hslot]
  by_cases hs : q.indexToAck = s
  · subst hs; simp [hx]
  · have hs' : s ≠ q.indexToAck := fun h => hs h.symm
    simp [hs, hs']

/-- Between calls the slot to acknowledge is not parked. -/
theorem Parking.ack_unparked (h : Serving q slot head tail) :
    q.pushedElems[q.indexToAck]? = some none := by
  have hlt : q.indexToAck < q.pushedElems.length := by
    rw [h.size, h.ack]; exact Nat.mod_lt _ h.pos
  have hle := h.head_le
  cases hp : q.pushedElems[q.indexToAck]? with
  | none => exact absurd (List.getElem?_eq_none_iff.mp hp) (by omega)
  | some e =>
      cases e with
      | none => rfl
      | some x =>
          obtain ⟨-, k, hk, hk', hmod⟩ := h.parked _ _ hp
          have := eq_of_mod_eq_of_window (n := q.capacity) (a := tail) (le_refl tail)
            (by have := h.pos; omega) (by omega) (by omega) (h.ack.symm.trans hmod.symm)
          omega

/-- A slot whose element is ready is not parked. -/
theorem Parking.ready_unparked (h : Serving q slot head tail) {x : α} (hx : x ∈ q.readyElems) :
    q.pushedElems[slot x]? = some none := by
  obtain ⟨k, hk, hk', hmod⟩ := h.mem_ready.mp (List.mem_map_of_mem hx)
  have hlt : slot x < q.pushedElems.length := by
    rw [h.size, ← hmod]; exact Nat.mod_lt _ h.pos
  cases hp : q.pushedElems[slot x]? with
  | none => exact absurd (List.getElem?_eq_none_iff.mp hp) (by omega)
  | some e =>
      cases e with
      | none => rfl
      | some z =>
          obtain ⟨-, j, hj, hj', hjmod⟩ := h.parked _ _ hp
          have := eq_of_mod_eq_of_window (n := q.capacity) (a := head) hk (by omega) (by omega)
            (by omega) (hmod.trans hjmod.symm)
          omega

/-- **The drain loop.** It stops within one iteration for each slot that is not
ready, never overfills the ring, and leaves the acknowledge slot unparked. A
slot that is out before it is out after it, and conversely. -/
theorem drain_spec (bound : Nat) (h : Parking q slot head tail tail)
    (hbound : head + q.capacity ≤ tail + bound) :
    ∃ q' tail', q.drain bound = .ok q' ∧ Serving q' slot head tail' ∧ tail ≤ tail' ∧
      q'.capacity = q.capacity ∧ q.readyElems <+: q'.readyElems ∧
      (∀ s, q'.CheckedOut slot s ↔ q.CheckedOut slot s) ∧
      (q.pushedElems[q.indexToAck]? = some none → q' = q ∧ tail' = tail) := by
  induction bound generalizing q tail with
  | zero =>
      have hlt : q.indexToAck < q.pushedElems.length := by
        rw [h.size, h.ack]; exact Nat.mod_lt _ h.pos
      cases hp : q.pushedElems[q.indexToAck]? with
      | none => exact absurd (List.getElem?_eq_none_iff.mp hp) (by omega)
      | some e =>
          cases e with
          | none =>
              exact ⟨q, tail, by unfold drain; simp [hp], h.stop hp, le_refl _, rfl, List.prefix_rfl,
                fun _ => Iff.rfl, fun _ => ⟨rfl, rfl⟩⟩
          | some x =>
              have := (h.clear hp).2
              omega
  | succ bound ih =>
      have hlt : q.indexToAck < q.pushedElems.length := by
        rw [h.size, h.ack]; exact Nat.mod_lt _ h.pos
      cases hp : q.pushedElems[q.indexToAck]? with
      | none => exact absurd (List.getElem?_eq_none_iff.mp hp) (by omega)
      | some e =>
          cases e with
          | none =>
              exact ⟨q, tail, by unfold drain; simp [hp], h.stop hp, le_refl _, rfl, List.prefix_rfl,
                fun _ => Iff.rfl, fun _ => ⟨rfl, rfl⟩⟩
          | some x =>
              obtain ⟨hclear, hroom⟩ := h.clear hp
              obtain ⟨q₁, hack, hq₁, hcap, hready, hpushed⟩ :=
                acknowledge_spec hclear hroom (x := x) (h.parked _ _ hp).1
              obtain ⟨q', tail', hdrain, hserving, hle, hcap', hpre, hout, -⟩ :=
                ih hq₁ (by rw [hcap]; show head + q.capacity ≤ tail + 1 + bound; omega)
              refine ⟨q', tail', ?_, hserving, by omega, hcap'.trans hcap, ?_, fun s => ?_, by simp⟩
              · unfold drain
                simp only [hp, hack]
                exact hdrain
              · exact (hready ▸ List.prefix_append _ _).trans hpre
              · rw [hout s]
                exact checkedOut_of_moved (h.parked _ _ hp).1 hp hready hpushed s

/-- **`push` under the check-out protocol.** Pushing back an element whose slot
is out returns, keeps the invariant, and marks exactly that slot as no longer
out. Only a push of the acknowledge slot makes elements ready. -/
theorem push_spec (h : Serving q slot head tail) {x : α} (hx : q.CheckedOut slot (slot x)) :
    ∃ q' tail', q.push x (slot x) = .ok q' ∧ Serving q' slot head tail' ∧
      q'.capacity = q.capacity ∧ q.readyElems <+: q'.readyElems ∧
      (∀ s, q'.CheckedOut slot s ↔ q.CheckedOut slot s ∧ s ≠ slot x) ∧
      (slot x = q.indexToAck → tail < tail') ∧
      (slot x ≠ q.indexToAck → tail' = tail ∧ q'.readyElems = q.readyElems) := by
  obtain ⟨k, hk, hk', hmod⟩ := hx.exists_position h
  have hle := h.head_le
  by_cases hack : slot x = q.indexToAck
  · have hroom : tail < head + q.capacity := by omega
    obtain ⟨q₁, hq₁, hpark, hcap, hready, hpushed⟩ := acknowledge_spec h hroom hack
    obtain ⟨q', tail', hdrain, hserving, hle', hcap', hpre, hout, -⟩ :=
      drain_spec q₁.capacity hpark (by omega)
    refine ⟨q', tail', ?_, hserving, hcap'.trans hcap, ?_, fun s => ?_, fun _ => by omega,
      fun hne => absurd hack hne⟩
    · simp only [push, if_pos hack, hq₁]
      exact hdrain
    · exact (hready ▸ List.prefix_append _ _).trans hpre
    · rw [hout s, CheckedOut, CheckedOut, hready, hpushed, List.map_append, List.mem_append]
      simp only [List.map_singleton, List.mem_singleton, not_or]
      tauto
  · have hlt : slot x < q.pushedElems.length := (List.getElem?_eq_some_iff.mp hx.2).1
    have hkt : k ≠ tail := by
      rintro rfl
      exact hack (by rw [← hmod, h.ack])
    have hpark : Parking { q with pushedElems := q.pushedElems.set (slot x) (some x) }
        slot head tail tail := by
      refine ⟨h.pos, by simpa using h.size, h.ack, h.head_le, h.tail_le, h.ready, ?_⟩
      intro i y hy
      rw [List.getElem?_set] at hy
      split at hy
      · next hi =>
          obtain rfl : x = y := by simpa [hi ▸ hlt] using hy
          exact ⟨hi, k, hk, hk', hmod.trans hi⟩
      · obtain ⟨hslot, j, hj, hj', hjmod⟩ := h.parked i y hy
        exact ⟨hslot, j, by omega, hj', hjmod⟩
    obtain ⟨q', tail', hdrain, hserving, -, hcap', -, hout, hstay⟩ :=
      drain_spec q.capacity hpark (by show head + q.capacity ≤ tail + q.capacity; omega)
    have hunparked : (q.pushedElems.set (slot x) (some x))[q.indexToAck]? = some none := by
      rw [List.getElem?_set_ne hack]
      exact h.ack_unparked
    obtain ⟨rfl, rfl⟩ := hstay hunparked
    refine ⟨_, tail', ?_, hserving, rfl, List.prefix_rfl, fun s => ?_, fun h' => absurd h' hack,
      fun _ => ⟨rfl, rfl⟩⟩
    · simp only [push, if_neg hack, if_pos hlt]
      exact hdrain
    · simp only [CheckedOut, List.getElem?_set]
      by_cases hs : slot x = s
      · subst hs; simp [hlt]
      · rw [if_neg hs]
        exact ⟨fun h' => ⟨h', Ne.symm hs⟩, fun h' => h'.1⟩

/-- **`pop` under the check-out protocol.** The front element leaves; its slot,
position `head` of the cyclic order, is now out. -/
theorem pop_spec (h : Serving q slot head tail) {x : α} (hx : q.front = some x) :
    ∃ q', q.pop = .ok q' ∧ Serving q' slot (head + 1) tail ∧ q'.capacity = q.capacity ∧
      q.readyElems = x :: q'.readyElems ∧ q'.pushedElems = q.pushedElems ∧
      (∀ s, q'.CheckedOut slot s ↔ q.CheckedOut slot s ∨ s = slot x) := by
  obtain ⟨hlt, hslot⟩ := h.front_slot hx
  cases hr : q.readyElems with
  | nil => simp [front, hr] at hx
  | cons y rest =>
      obtain rfl : y = x := by simpa [front, hr] using hx
      have hready := h.ready
      obtain ⟨d, hd⟩ : ∃ d, tail - head = d + 1 := ⟨tail - head - 1, by omega⟩
      rw [hr, hd, List.range'_succ] at hready
      simp only [List.map_cons, List.cons.injEq] at hready
      have hd' : tail - (head + 1) = d := by omega
      have hq' : Serving { q with readyElems := rest } slot (head + 1) tail := by
        refine ⟨h.pos, h.size, h.ack, by omega, by have := h.tail_le; show tail ≤ head + 1 + q.capacity; omega,
          by rw [hd']; exact hready.2, ?_⟩
        intro i z hz
        obtain ⟨hz', k, hk, hk', hmod⟩ := h.parked i z hz
        exact ⟨hz', k, hk, by show k < head + 1 + q.capacity; omega, hmod⟩
      refine ⟨{ q with readyElems := rest }, by simp [pop, hr], hq', rfl, rfl, rfl, fun s => ?_⟩
      have hunparked : q.pushedElems[slot y]? = some none := h.ready_unparked (by simp [hr])
      have hnotin : slot y ∉ rest.map slot := by
        intro hmem
        obtain ⟨k, hk, hk', hmod⟩ := hq'.mem_ready.mp hmem
        have := eq_of_mod_eq_of_window (n := q.capacity) (a := head) (le_refl head)
          (by have := h.pos; omega) (by omega) (by have := h.tail_le; omega)
          (hslot.symm.trans hmod.symm)
        omega
      simp only [CheckedOut, hr, List.map_cons, List.mem_cons, not_or]
      by_cases hs : s = slot y
      · subst hs; simp [hnotin, hunparked]
      · simp [hs]

end

/-! ### The elements of a queue

What the calls do to the elements, whatever the slots are. -/

/-- All elements, ready or parked. -/
def elems (q : OrderedQueue α) : List α := q.readyElems ++ q.pushedElems.filterMap id

/-- The slot to acknowledge is not parked. -/
def Settled (q : OrderedQueue α) : Prop := q.pushedElems[q.indexToAck]? = some none

theorem filterMap_set {l : List (Option α)} {i : Nat} {a : Option α} (b : Option α) (h : l[i]? = some a) :
    ((l.set i b).filterMap id ++ a.toList).Perm (l.filterMap id ++ b.toList) := by
  induction l generalizing i with
  | nil => simp at h
  | cons x l ih =>
      cases i with
      | zero =>
          obtain rfl : x = a := by simpa using h
          have hmove : ∀ y : α, (l.filterMap id ++ [y]).Perm (y :: l.filterMap id) :=
            fun y => List.perm_append_singleton y _
          cases x with
          | none =>
              cases b with
              | none => simp
              | some y => simpa using (hmove y).symm
          | some x =>
              cases b with
              | none => simp
              | some y =>
                  have hswap := ((hmove x).cons y).trans (.swap _ _ _)
                  simpa using hswap.trans ((hmove y).symm.cons x)
      | succ i =>
          have ih := ih (i := i) (by simpa using h)
          cases x with
          | none => simpa using ih
          | some x => simpa using ih.cons x

theorem make_elems {capacity : Nat} {q : OrderedQueue α} (h : make capacity = .ok q) :
    q.elems = [] ∧ q.Settled := by
  unfold make at h
  split at h
  · next hpos =>
      obtain rfl := Except.ok.inj h
      refine ⟨?_, by simp [Settled, hpos]⟩
      simp [elems, List.filterMap_replicate_of_none]
  · cases h

theorem acknowledge_elems {q q' : OrderedQueue α} {x : α} (h : q.acknowledge x = .ok q') :
    q'.readyElems = q.readyElems ++ [x] ∧ q'.pushedElems = q.pushedElems := by
  unfold acknowledge at h
  split at h
  · cases h
  · obtain rfl := Except.ok.inj h
    exact ⟨rfl, rfl⟩

theorem drain_elems {bound : Nat} {q q' : OrderedQueue α} (h : q.drain bound = .ok q') :
    q'.elems.Perm q.elems ∧ q.readyElems <+: q'.readyElems ∧ q'.Settled ∧
      ∀ (i : Nat) (x : α), q'.pushedElems[i]? = some (some x) → q.pushedElems[i]? = some (some x) := by
  induction bound generalizing q with
  | zero =>
      unfold drain at h
      split at h
      · cases h
      · next hnone =>
          obtain rfl := Except.ok.inj h
          exact ⟨.refl _, List.prefix_rfl, hnone, fun _ _ => id⟩
      · cases h
  | succ bound ih =>
      unfold drain at h
      split at h
      · cases h
      · next hnone =>
          obtain rfl := Except.ok.inj h
          exact ⟨.refl _, List.prefix_rfl, hnone, fun _ _ => id⟩
      · next x hx =>
          cases hack : acknowledge { q with pushedElems := q.pushedElems.set q.indexToAck none } x with
          | error e => rw [hack] at h; cases h
          | ok q₁ =>
              rw [hack] at h
              obtain ⟨hready, hpushed⟩ := acknowledge_elems hack
              obtain ⟨hperm, hprefix, hsettled, hparked⟩ := ih h
              refine ⟨hperm.trans ?_, ?_, hsettled, fun i y hy => ?_⟩
              · have hset := filterMap_set none hx
                simp only [elems, hready, hpushed, List.append_assoc]
                refine List.Perm.append_left _ ?_
                simpa using (List.perm_append_comm.trans hset)
              · exact (List.prefix_append _ _).trans (hready ▸ hprefix)
              · have hy := hparked i y hy
                rw [hpushed, List.getElem?_set] at hy
                split at hy
                · split at hy <;> cases hy
                · exact hy

/-- Pushing an element to a slot that is not parked. -/
theorem push_elems {q q' : OrderedQueue α} {x : α} {index : Nat} (h : q.push x index = .ok q')
    (hsettled : q.Settled) (hfree : ∀ y, q.pushedElems[index]? ≠ some (some y)) :
    q'.elems.Perm (x :: q.elems) ∧ q.readyElems <+: q'.readyElems ∧ q'.Settled ∧
      (∀ (i : Nat) (y : α), q'.pushedElems[i]? = some (some y) →
        q.pushedElems[i]? = some (some y) ∨ i = index ∧ y = x) ∧
      (q.readyElems = [] → q'.readyElems = [] ∨ q'.readyElems.head? = some x) ∧
      x ∈ q'.elems := by
  have hmem : q'.elems.Perm (x :: q.elems) → x ∈ q'.elems := fun hperm => hperm.mem_iff.mpr List.mem_cons_self
  unfold push at h
  split at h
  · next hindex =>
      cases hack : q.acknowledge x with
      | error e => rw [hack] at h; cases h
      | ok q₁ =>
          rw [hack] at h
          obtain ⟨hready, hpushed⟩ := acknowledge_elems hack
          obtain ⟨hperm, hprefix, hset, hparked⟩ := drain_elems h
          have hall : q'.elems.Perm (x :: q.elems) := by
            refine hperm.trans ?_
            simp only [elems, hready, hpushed, List.append_assoc]
            exact List.perm_middle
          refine ⟨hall, (List.prefix_append _ _).trans (hready ▸ hprefix), hset,
            fun i y hy => .inl (hpushed ▸ hparked i y hy), fun hnil => .inr ?_, hmem hall⟩
          obtain ⟨rest, hrest⟩ := hprefix
          rw [← hrest, hready, hnil]
          rfl
  · split at h
    · next hne hlt =>
        have hslot : q.pushedElems[index]? = some none := by
          rw [List.getElem?_eq_getElem hlt] at hfree ⊢
          cases hx : q.pushedElems[index] with
          | none => rfl
          | some y => exact absurd (by rw [hx]) (hfree y)
        have hstay : (q.pushedElems.set index (some x))[q.indexToAck]? = some none := by
          rw [List.getElem?_set_ne hne]
          exact hsettled
        have hq : q' = { q with pushedElems := q.pushedElems.set index (some x) } := by
          unfold drain at h
          simp only [hstay] at h
          exact (Except.ok.inj h).symm
        subst hq
        have hall : ({ q with pushedElems := q.pushedElems.set index (some x) } : OrderedQueue α).elems.Perm
            (x :: q.elems) := by
          have hset := filterMap_set (some x) hslot
          simp only [elems]
          refine (List.Perm.append_left _ (by simpa using hset)).trans ?_
          rw [← List.append_assoc]
          exact List.perm_append_comm
        refine ⟨hall, List.prefix_rfl, hstay, fun i y hy => ?_, fun hnil => .inl hnil, hmem hall⟩
        rw [List.getElem?_set] at hy
        split at hy
        · next hi =>
            cases hy
            exact .inr ⟨hi.symm, rfl⟩
        · exact .inl hy
    · cases h

end OrderedQueue

end PothosCore.Util

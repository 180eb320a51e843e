import PothosCore.Util.OrderedQueue
import PothosCore.Lib.Transition

/-!
# PothosCore.Util.OrderedQueueRuns

An `OrderedQueue` over whole runs of the check-out protocol: every index starts
with the user, who hands elements over in any order and may hand an index over
again once its element has been popped.

The queue does not record the index an element was pushed at, so a `Session`
keeps the elements together with it. `run_map` says that the calls do the same
to a queue that keeps the elements alone. `Session.Kept` extends the invariant
`Serving` by what the user knows, and a permitted call keeps it.
-/

namespace PothosCore.Util

open PothosCore.Lib

namespace OrderedQueue

variable {α β : Type*}

/-- What a user of a queue may call. -/
inductive Call (α : Type*)
  | push (elem : α) (index : Nat)
  | pop
  deriving Repr, DecidableEq

/-- One call and the element it gives out. -/
def call (q : OrderedQueue α) : Call α → Except Fault (OrderedQueue α × Option α)
  | .push elem index => do
      let q' ← q.push elem index
      .ok (q', none)
  | .pop => do
      let q' ← q.pop
      .ok (q', q.front)

/-- One call after the other, and the elements they give out. -/
def run (q : OrderedQueue α) : List (Call α) → Except Fault (OrderedQueue α × List α)
  | [] => .ok (q, [])
  | c :: cs => do
      let (q', x) ← q.call c
      let (q'', xs) ← q'.run cs
      .ok (q'', x.toList ++ xs)

/-! ### The calls do not look at the elements -/

def map (f : α → β) (q : OrderedQueue α) : OrderedQueue β where
  indexToAck := q.indexToAck
  pushedElems := q.pushedElems.map (Option.map f)
  readyElems := q.readyElems.map f
  capacity := q.capacity

def Call.map (f : α → β) : Call α → Call β
  | .push elem index => .push (f elem) index
  | .pop => .pop

theorem acknowledge_map (f : α → β) (q : OrderedQueue α) (elem : α) :
    (q.map f).acknowledge (f elem) = (q.acknowledge elem).map (map f) := by
  have hfull : (q.map f).full = q.full := by simp [full, map]
  rw [acknowledge, acknowledge, hfull]
  split
  · rfl
  · simp [Except.map, wrapIndex, map]

theorem drain_map (f : α → β) (bound : Nat) (q : OrderedQueue α) :
    (q.map f).drain bound = (q.drain bound).map (map f) := by
  have hslot : (q.map f).pushedElems[(q.map f).indexToAck]?
      = (q.pushedElems[q.indexToAck]?).map (Option.map f) := by
    simp [map]
  induction bound generalizing q with
  | zero =>
      unfold drain
      rw [hslot]
      rcases q.pushedElems[q.indexToAck]? with - | - | x <;> rfl
  | succ bound ih =>
      unfold drain
      rw [hslot]
      rcases q.pushedElems[q.indexToAck]? with - | - | x
      · rfl
      · rfl
      · have hclear : ({ q.map f with
            pushedElems := (q.map f).pushedElems.set (q.map f).indexToAck none } : OrderedQueue β)
            = map f { q with pushedElems := q.pushedElems.set q.indexToAck none } := by
          simp [map, List.map_set]
        simp only [Option.map_some, hclear, acknowledge_map]
        cases acknowledge { q with pushedElems := q.pushedElems.set q.indexToAck none } x with
        | error e => rfl
        | ok q₁ => exact ih q₁ (by simp [map])

theorem push_map (f : α → β) (q : OrderedQueue α) (elem : α) (index : Nat) :
    (q.map f).push (f elem) index = (q.push elem index).map (map f) := by
  have hindex : (q.map f).indexToAck = q.indexToAck := rfl
  have hlen : (q.map f).pushedElems.length = q.pushedElems.length := by simp [map]
  rw [push, push, hindex, hlen, acknowledge_map]
  split
  · cases q.acknowledge elem with
    | error e => rfl
    | ok q₁ => exact drain_map f q₁.capacity q₁
  · split
    · refine (congrArg (drain q.capacity) ?_).trans (drain_map f _ _)
      simp [map, List.map_set]
    · rfl

theorem call_map (f : α → β) (q : OrderedQueue α) (c : Call α) :
    (q.map f).call (c.map f) = (q.call c).map (Prod.map (map f) (Option.map f)) := by
  cases c with
  | push elem index =>
      simp only [call, Call.map, push_map]
      cases q.push elem index <;> rfl
  | pop =>
      simp only [call, Call.map, pop, front, map]
      cases q.readyElems <;> rfl

/-- **The calls do not look at the elements**: replacing each element by `f` of
it, before or after the calls, is the same. -/
theorem run_map (f : α → β) (q : OrderedQueue α) (cs : List (Call α)) :
    (q.map f).run (cs.map (Call.map f)) = (q.run cs).map (Prod.map (map f) (List.map f)) := by
  induction cs generalizing q with
  | nil => rfl
  | cons c cs ih =>
      simp only [List.map_cons, run, call_map]
      cases q.call c with
      | error e => rfl
      | ok r =>
          obtain ⟨q₁, x⟩ := r
          simp only [Except.map, bind, Except.bind, Prod.map, ih]
          cases q₁.run cs with
          | error e => rfl
          | ok r₂ => simp [Option.toList_map]

theorem make_map (f : α → β) (capacity : Nat) :
    (make capacity : Except Fault (OrderedQueue β)) = (make capacity).map (map f) := by
  unfold make
  split
  · simp [Except.map, map]
  · rfl

/-! ### The check-out protocol -/

/-- A queue and its user. -/
structure Session (α : Type*) where
  /-- The elements with the index they were pushed at. -/
  queue : OrderedQueue (α × Nat)
  /-- The indices whose element the queue has. -/
  inside : List Nat
  /-- What was pushed so far, in order. -/
  pushed : List (α × Nat)
  /-- What was popped so far, in order. -/
  popped : List (α × Nat)

namespace Session

/-- The user has every index. -/
def start (queue : OrderedQueue (α × Nat)) : Session α where
  queue := queue
  inside := []
  pushed := []
  popped := []

/-- A call the protocol permits: an index is pushed when the queue does not have
its element, and an element is popped when there is one at the front. -/
inductive Step : Session α → Call α → Session α → Prop
  | push {s : Session α} {elem : α} {index : Nat} {q' : OrderedQueue (α × Nat)} :
      index < s.queue.capacity → index ∉ s.inside →
      s.queue.push (elem, index) index = .ok q' →
      Step s (.push elem index)
        { s with queue := q', inside := index :: s.inside, pushed := s.pushed ++ [(elem, index)] }
  | pop {s : Session α} {x : α × Nat} {q' : OrderedQueue (α × Nat)} :
      s.queue.front = some x → s.queue.pop = .ok q' →
      Step s .pop
        { s with queue := q', inside := s.inside.filter (· ≠ x.2), popped := s.popped ++ [x] }

/-- What a permitted call keeps. -/
structure Kept (capacity : Nat) (s : Session α) : Prop where
  serving : ∃ tail, Serving s.queue Prod.snd s.popped.length tail
  size : s.queue.capacity = capacity
  out : ∀ i, s.queue.CheckedOut Prod.snd i ↔ i < capacity ∧ i ∉ s.inside
  distinct : (s.queue.elems.map Prod.snd).Nodup
  inside : ∀ i, i ∈ s.queue.elems.map Prod.snd ↔ i ∈ s.inside
  order : s.popped.map Prod.snd = (List.range s.popped.length).map (· % capacity)
  rounds : ∀ i, (s.popped ++ s.queue.elems).filter (·.2 = i) = s.pushed.filter (·.2 = i)

/-- With distinct indices, the elements of one index do not depend on the order. -/
theorem filter_eq_of_perm {l l' : List (α × Nat)} (h : l'.Perm l) (hd : (l.map Prod.snd).Nodup)
    (i : Nat) : l'.filter (·.2 = i) = l.filter (·.2 = i) := by
  have hperm := h.filter (·.2 = i)
  have hsame : (l.filter (·.2 = i)).map Prod.snd
      = List.replicate (l.filter (·.2 = i)).length i := by
    rw [List.eq_replicate_iff]
    refine ⟨List.length_map _, fun b hb => ?_⟩
    obtain ⟨x, hx, rfl⟩ := List.mem_map.mp hb
    simpa using (List.mem_filter.mp hx).2
  have hone : (l.filter (·.2 = i)).length ≤ 1 := by
    have hnodup : ((l.filter (·.2 = i)).map Prod.snd).Nodup :=
      hd.sublist (List.filter_sublist.map Prod.snd)
    rw [hsame] at hnodup
    exact List.nodup_replicate.mp hnodup
  generalize l.filter (·.2 = i) = kept at hperm hone
  match kept with
  | [] => exact List.perm_nil.mp hperm
  | [x] => exact List.perm_singleton.mp hperm
  | x :: y :: rest => simp at hone

theorem start_kept {capacity : Nat} {q : OrderedQueue (α × Nat)} (h : make capacity = .ok q) :
    (start q).Kept capacity := by
  obtain ⟨hserving, hsize, hout⟩ := make_serving Prod.snd h
  have helems : q.elems = [] := (make_elems h).1
  refine ⟨⟨0, hserving⟩, hsize, fun i => ?_, ?_, fun i => ?_, rfl, fun i => ?_⟩
  · show q.CheckedOut Prod.snd i ↔ _
    simp [hout, start]
  · simp [start, helems]
  · simp [start, helems]
  · simp [start, helems]

/-- A push the protocol permits returns. -/
theorem Kept.push_returns {capacity : Nat} {s : Session α} (h : s.Kept capacity) {elem : α} {index : Nat}
    (hlt : index < capacity) (hout : index ∉ s.inside) :
    ∃ q', s.queue.push (elem, index) index = .ok q' := by
  obtain ⟨tail, hserving⟩ := h.serving
  have hx : s.queue.CheckedOut Prod.snd index := (h.out index).mpr ⟨hlt, hout⟩
  obtain ⟨q', -, hq', -⟩ := push_spec (x := (elem, index)) hserving hx
  exact ⟨q', hq'⟩

/-- So does a pop when there is an element at the front. -/
theorem Kept.pop_returns {capacity : Nat} {s : Session α} (h : s.Kept capacity) {x : α × Nat}
    (hx : s.queue.front = some x) : ∃ q', s.queue.pop = .ok q' := by
  obtain ⟨tail, hserving⟩ := h.serving
  obtain ⟨q', hq', -⟩ := pop_spec hserving hx
  exact ⟨q', hq'⟩

theorem Kept.push {capacity : Nat} {s : Session α} (h : s.Kept capacity) {elem : α} {index : Nat}
    {q' : OrderedQueue (α × Nat)} (hlt : index < capacity) (hout : index ∉ s.inside)
    (hq' : s.queue.push (elem, index) index = .ok q') :
    ({ s with queue := q', inside := index :: s.inside, pushed := s.pushed ++ [(elem, index)] } :
      Session α).Kept capacity := by
  obtain ⟨tail, hserving⟩ := h.serving
  have hx : s.queue.CheckedOut Prod.snd index := (h.out index).mpr ⟨hlt, hout⟩
  obtain ⟨q₁, tail', hq₁, hserving', hsize, -, hout', -⟩ := push_spec (x := (elem, index)) hserving hx
  obtain rfl : q₁ = q' := Except.ok.inj (hq₁.symm.trans hq')
  have hfree : ∀ y, s.queue.pushedElems[index]? ≠ some (some y) := by
    intro y hy
    simp [hx.2] at hy
  obtain ⟨hperm, -⟩ := push_elems hq' hserving.ack_unparked hfree
  have hnew : index ∉ s.queue.elems.map Prod.snd := fun hmem => hout ((h.inside index).mp hmem)
  have hlast : (s.queue.elems ++ [(elem, index)]).Perm ((elem, index) :: s.queue.elems) :=
    List.perm_append_singleton _ _
  have hdistinct : ((s.queue.elems ++ [(elem, index)]).map Prod.snd).Nodup :=
    (hlast.map Prod.snd).nodup_iff.mpr (List.nodup_cons.mpr ⟨hnew, h.distinct⟩)
  have hperm' : q₁.elems.Perm (s.queue.elems ++ [(elem, index)]) := hperm.trans hlast.symm
  refine ⟨⟨tail', hserving'⟩, hsize.trans h.size, fun i => ?_, ?_, fun i => ?_, h.order, fun i => ?_⟩
  · show q₁.CheckedOut Prod.snd i ↔ _
    rw [hout' i, h.out i]
    simp
    tauto
  · exact (hperm'.map Prod.snd).nodup_iff.mpr hdistinct
  · show i ∈ q₁.elems.map Prod.snd ↔ i ∈ index :: s.inside
    rw [(hperm.map Prod.snd).mem_iff, List.map_cons, List.mem_cons, List.mem_cons, h.inside i]
  · show (s.popped ++ q₁.elems).filter (·.2 = i) = (s.pushed ++ [(elem, index)]).filter (·.2 = i)
    rw [List.filter_append, filter_eq_of_perm hperm' hdistinct i, List.filter_append,
      ← List.append_assoc, ← List.filter_append, h.rounds i, List.filter_append]

theorem Kept.pop {capacity : Nat} {s : Session α} (h : s.Kept capacity) {x : α × Nat}
    {q' : OrderedQueue (α × Nat)} (hx : s.queue.front = some x) (hq' : s.queue.pop = .ok q') :
    ({ s with queue := q', inside := s.inside.filter (· ≠ x.2), popped := s.popped ++ [x] } :
      Session α).Kept capacity := by
  obtain ⟨tail, hserving⟩ := h.serving
  obtain ⟨q₁, hq₁, hserving', hsize, hready, hpushed, hout'⟩ := pop_spec hserving hx
  obtain rfl : q₁ = q' := Except.ok.inj (hq₁.symm.trans hq')
  have helems : s.queue.elems = x :: q₁.elems := by
    rw [elems, elems, hready, hpushed, List.cons_append]
  have hdistinct : x.2 ∉ q₁.elems.map Prod.snd ∧ (q₁.elems.map Prod.snd).Nodup := by
    have := h.distinct
    rwa [helems, List.map_cons, List.nodup_cons] at this
  have hinside : ∀ i, i ∈ s.inside ↔ i = x.2 ∨ i ∈ q₁.elems.map Prod.snd := by
    intro i
    rw [← h.inside i, helems, List.map_cons, List.mem_cons]
  have hslot : x.2 = s.popped.length % capacity := by
    rw [(hserving.front_slot hx).2, h.size]
  have hlt : x.2 < capacity := by
    rw [hslot]
    exact Nat.mod_lt _ (h.size ▸ hserving.pos)
  refine ⟨⟨tail, ?_⟩, hsize.trans h.size, fun i => ?_, hdistinct.2, fun i => ?_, ?_, fun i => ?_⟩
  · simpa using hserving'
  · show q₁.CheckedOut Prod.snd i ↔ _
    rw [hout' i, h.out i, List.mem_filter, decide_eq_true_eq]
    constructor
    · rintro (⟨hi, hni⟩ | rfl)
      · exact ⟨hi, fun hmem => hni hmem.1⟩
      · exact ⟨hlt, fun hmem => hmem.2 rfl⟩
    · rintro ⟨hi, hni⟩
      by_cases heq : i = x.2
      · exact .inr heq
      · exact .inl ⟨hi, fun hmem => hni ⟨hmem, heq⟩⟩
  · show i ∈ q₁.elems.map Prod.snd ↔ i ∈ s.inside.filter (· ≠ x.2)
    rw [List.mem_filter, decide_eq_true_eq, hinside i]
    constructor
    · intro hi
      exact ⟨.inr hi, fun heq => hdistinct.1 (heq ▸ hi)⟩
    · rintro ⟨heq | hi, hne⟩
      · exact absurd heq hne
      · exact hi
  · show (s.popped ++ [x]).map Prod.snd = (List.range (s.popped ++ [x]).length).map (· % capacity)
    rw [List.length_append, List.length_singleton, List.range_succ, List.map_append, List.map_append,
      h.order, List.map_singleton, List.map_singleton, hslot]
  · show (s.popped ++ [x] ++ q₁.elems).filter (·.2 = i) = s.pushed.filter (·.2 = i)
    rw [List.append_assoc, List.singleton_append, ← helems, h.rounds i]

theorem Step.kept {capacity : Nat} {s t : Session α} {c : Call α} (h : s.Kept capacity) (hst : Step s c t) :
    t.Kept capacity := by
  cases hst with
  | push hlt hout hq' => exact h.push (h.size ▸ hlt) hout hq'
  | pop hx hq' => exact h.pop hx hq'

/-- The elements available so far are those of the positions `0, 1, …`. -/
theorem Kept.available {capacity : Nat} {s : Session α} (h : s.Kept capacity) :
    (s.popped ++ s.queue.readyElems).map Prod.snd
      = (List.range (s.popped.length + s.queue.readyElems.length)).map (· % capacity) := by
  obtain ⟨tail, hserving⟩ := h.serving
  have hjoin := @List.range'_append_1 0 s.popped.length (tail - s.popped.length)
  rw [Nat.zero_add] at hjoin
  rw [List.map_append, h.order, hserving.ready, hserving.ready_length, h.size, ← List.map_append,
    List.range_eq_range', List.range_eq_range', hjoin]

theorem Kept.empty_iff {capacity : Nat} {s : Session α} (h : s.Kept capacity) :
    s.queue.empty = true ↔ s.popped.length % capacity ∉ s.inside := by
  obtain ⟨tail, hserving⟩ := h.serving
  have hlt : s.popped.length % capacity < capacity := Nat.mod_lt _ (h.size ▸ hserving.pos)
  have hout : s.popped.length % capacity ∉ s.inside
      ↔ s.queue.CheckedOut Prod.snd (s.popped.length % capacity) := by
    rw [h.out]
    exact (and_iff_right hlt).symm
  rw [hout, hserving.empty_iff]
  have hle := hserving.head_le
  constructor
  · intro heq
    refine ⟨fun hmem => ?_, ?_⟩
    · obtain ⟨k, hk, hk', -⟩ := hserving.mem_ready.mp hmem
      omega
    · have hack := hserving.ack_unparked
      rwa [hserving.ack, ← heq, h.size] at hack
  · intro hchecked
    by_contra hne
    exact hchecked.1 (hserving.mem_ready.mpr ⟨s.popped.length, le_refl _, by omega, by rw [h.size]⟩)

theorem Kept.room {capacity : Nat} {s : Session α} (h : s.Kept capacity) :
    s.queue.readyElems.length ≤ capacity := by
  obtain ⟨tail, hserving⟩ := h.serving
  have := hserving.ready_length
  have := hserving.tail_le
  have := h.size
  omega

/-- A call together with the index of its element. -/
def tag : Call α → Call (α × Nat)
  | .push elem index => .push (elem, index) index
  | .pop => .pop

theorem tag_map (c : Call α) : (tag c).map Prod.fst = c := by
  cases c <;> rfl

/-- A session is a run of its queue. -/
theorem run_of_exec {s t : Session α} {calls : List (Call α)} (h : Exec Step s calls t) :
    ∃ xs, s.queue.run (calls.map tag) = .ok (t.queue, xs) ∧ t.popped = s.popped ++ xs := by
  induction h with
  | nil s => exact ⟨[], rfl, (List.append_nil _).symm⟩
  | cons hst _ ih =>
      obtain ⟨xs, hrun, hpopped⟩ := ih
      cases hst with
      | push hlt hout hq' =>
          refine ⟨xs, ?_, hpopped⟩
          simp only [List.map_cons, tag, run, call, hq', bind, Except.bind]
          rw [hrun]
          rfl
      | @pop x q' hx hq' =>
          refine ⟨x :: xs, ?_, ?_⟩
          · simp only [List.map_cons, tag, run, call, hq', hx, bind, Except.bind]
            rw [hrun]
            rfl
          · rw [hpopped, List.append_assoc]
            rfl

/-- **Elements come back in order.** After any calls the protocol permits, on a
queue of any capacity: the calls did the same to a queue without the tags; the
elements available so far are those of the indices `0, 1, …, capacity - 1, 0, …`;
each index gave out what was pushed there, in that order, and has the rest; the
queue is empty exactly when the next index of that order is with the user; the
ready ring is within its capacity; every push that is permitted returns, its
loop having stopped within `capacity` rounds; and so does every pop of a queue
that is not empty. -/
theorem available_in_order {capacity : Nat} {q : OrderedQueue (α × Nat)} (hq : make capacity = .ok q)
    {calls : List (Call α)} {s : Session α} (h : Exec Step (start q) calls s) :
    (∃ q₀, make capacity = .ok q₀ ∧ q₀.run calls = .ok (s.queue.map Prod.fst, s.popped.map Prod.fst)) ∧
    (s.popped ++ s.queue.readyElems).map Prod.snd
      = (List.range (s.popped.length + s.queue.readyElems.length)).map (· % capacity) ∧
    (∀ i, (s.popped ++ s.queue.elems).filter (·.2 = i) = s.pushed.filter (·.2 = i)) ∧
    (s.queue.empty = true ↔ s.popped.length % capacity ∉ s.inside) ∧
    s.queue.readyElems.length ≤ capacity ∧
    (∀ elem index, index < capacity → index ∉ s.inside →
      ∃ q', s.queue.push (elem, index) index = .ok q') ∧
    (s.queue.empty = false → ∃ q', s.queue.pop = .ok q') := by
  have hkept : s.Kept capacity := h.invariant (fun _ _ _ hs hst => Step.kept hs hst) (start_kept hq)
  refine ⟨⟨q.map Prod.fst, ?_, ?_⟩, hkept.available, hkept.rounds, hkept.empty_iff, hkept.room,
    fun _ _ => hkept.push_returns, fun hempty => ?_⟩
  · rw [make_map Prod.fst, hq]
    rfl
  · obtain ⟨xs, hrun, hpopped⟩ := run_of_exec h
    obtain rfl : s.popped = xs := hpopped
    have hid : (Call.map Prod.fst ∘ tag : Call α → Call α) = id := funext tag_map
    have hcalls : (calls.map tag).map (Call.map Prod.fst) = calls := by
      rw [List.map_map, hid, List.map_id]
    have hrun : q.run (calls.map tag) = .ok (s.queue, s.popped) := hrun
    rw [← hcalls, run_map, hrun]
    rfl
  · cases hready : s.queue.readyElems with
    | nil =>
        rw [empty, hready] at hempty
        cases hempty
    | cons x rest => exact hkept.pop_returns (x := x) (by rw [front, hready]; rfl)

/-- Two indices, pushed out of order. The first is pushed again after its element was
popped, and comes behind the second. -/
theorem available_in_order_two : ∃ s : Session Nat,
    Exec Step (start ⟨0, [none, none], [], 2⟩) [.push 11 1, .push 10 0, .pop, .push 12 0] s ∧
      (s.popped ++ s.queue.readyElems).map Prod.fst = [10, 11, 12] ∧
      (s.popped ++ s.queue.readyElems).map Prod.snd = [0, 1, 0] := by
  let parked : Session Nat := ⟨⟨0, [none, some (11, 1)], [], 2⟩, [1], [(11, 1)], []⟩
  let ready : Session Nat := ⟨⟨0, [none, none], [(10, 0), (11, 1)], 2⟩, [0, 1], [(11, 1), (10, 0)], []⟩
  let popped : Session Nat := ⟨⟨0, [none, none], [(11, 1)], 2⟩, [1], [(11, 1), (10, 0)], [(10, 0)]⟩
  let again : Session Nat :=
    ⟨⟨1, [none, none], [(11, 1), (12, 0)], 2⟩, [0, 1], [(11, 1), (10, 0), (12, 0)], [(10, 0)]⟩
  have hmake : make 2 = .ok (⟨0, [none, none], [], 2⟩ : OrderedQueue (Nat × Nat)) := rfl
  have hparked : Step (start ⟨0, [none, none], [], 2⟩) (.push 11 1) parked := .push (by decide) (by decide) rfl
  have hready : Step parked (.push 10 0) ready := .push (by decide) (by decide) rfl
  have hpopped : Step ready .pop popped := .pop (x := (10, 0)) rfl rfl
  have hagain : Step popped (.push 12 0) again := .push (by decide) (by decide) rfl
  have hrun : Exec Step (start ⟨0, [none, none], [], 2⟩) [.push 11 1, .push 10 0, .pop, .push 12 0] again :=
    .cons hparked (.cons hready (.cons hpopped (.cons hagain (.nil _))))
  have horder := (available_in_order hmake hrun).2.1
  exact ⟨again, hrun, rfl, horder.trans (by decide)⟩

end Session

end OrderedQueue

end PothosCore.Util

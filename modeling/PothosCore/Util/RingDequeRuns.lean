import PothosCore.Util.RingDequeMemory
import Mathlib.Data.List.Flatten

/-!
# PothosCore.Util.RingDequeRuns

Programs over any number of deques, run on the memory (`World.step`) and on
lists (`specify`). `Agrees` relates the two: each deque shows the list of its
number, and the ledger accounts for the objects that are alive. One operation
keeps it as long as the capacity that it asks for is at most `2 ^ 63`; beyond
that `nextPow2` has no power of two to give and does not return.
-/

namespace PothosCore.Util

namespace RingDeque

variable {α : Type}

/-- What a program does with its deques, which are numbered in the order of
their construction. -/
inductive Op (α : Type)
  | construct (capacity : BitVec 64)
  | copyConstruct (other : Nat)
  | moveConstruct (other : Nat)
  | copyAssign (this other : Nat)
  | moveAssign (this other : Nat)
  | pushFront (this : Nat) (elem : α)
  | pushBack (this : Nat) (elem : α)
  | popFront (this : Nat)
  | popBack (this : Nat)
  | assign (this : Nat) (offset : BitVec 64) (elem : α)
  | setCapacity (this : Nat) (capacity : BitVec 64)
  | clear (this : Nat)
  | destruct (this : Nat)
  deriving Repr

/-- The capacity an operation asks for. -/
def Op.requests : Op α → Option (BitVec 64)
  | .construct capacity => some capacity
  | .setCapacity _ capacity => some capacity
  | _ => none

/-! ### On the memory -/

/-- The deques, those after their destructor `none`, and the ledger of their objects. -/
structure World (α : Type) where
  deques : List (Option (Store α))
  ledger : Ledger
  deriving Repr, DecidableEq

namespace World

def start : World α := ⟨[], ⟨0, []⟩⟩

def deque (w : World α) (this : Nat) : Except Fault (Store α) :=
  match w.deques[this]? with
  | some (some q) => .ok q
  | _ => .error (.undefined "a deque outside its lifetime")

/-- A call on one deque. -/
def update (w : World α) (this : Nat) (call : Store α → Ledger → Except Fault (Store α × Ledger)) :
    Except Fault (World α) := do
  let q ← w.deque this
  let (q, ledger) ← call q w.ledger
  .ok ⟨w.deques.set this (some q), ledger⟩

def step (w : World α) : Op α → Except Fault (World α)
  | .construct capacity => do
      let q ← Store.make capacity
      .ok ⟨w.deques ++ [some q], w.ledger⟩
  | .copyConstruct other => do
      let o ← w.deque other
      let (q, ledger) ← o.copyConstruct w.ledger
      .ok ⟨w.deques ++ [some q], ledger⟩
  | .moveConstruct other => do
      let o ← w.deque other
      let (q, o) := o.moveConstruct
      .ok ⟨w.deques.set other (some o) ++ [some q], w.ledger⟩
  | .copyAssign this other => do
      let o ← w.deque other
      w.update this fun q ledger => q.copyAssign o ledger
  | .moveAssign this other => do
      let q ← w.deque this
      let o ← w.deque other
      let (q, o, ledger) ← q.moveAssign o w.ledger
      .ok ⟨(w.deques.set this (some q)).set other (some o), ledger⟩
  | .pushFront this elem => w.update this fun q ledger => q.emplaceFront (some elem) ledger
  | .pushBack this elem => w.update this fun q ledger => q.emplaceBack (some elem) ledger
  | .popFront this => w.update this Store.popFront
  | .popBack this => w.update this Store.popBack
  | .assign this offset elem => w.update this fun q ledger => do
      let q ← q.assign offset (some elem)
      .ok (q, ledger)
  | .setCapacity this capacity => w.update this fun q ledger => q.setCapacity capacity ledger
  | .clear this => w.update this Store.clear
  | .destruct this => do
      let q ← w.deque this
      let ledger ← q.destruct w.ledger
      .ok ⟨w.deques.set this none, ledger⟩

def run (w : World α) (ops : List (Op α)) : Except Fault (World α) := ops.foldlM step w

end World

/-! ### On lists -/

/-- The list of a deque that was moved from. -/
def gone : RingDeque α := ⟨[], 0⟩

def deque? (qs : List (Option (RingDeque α))) (this : Nat) : Option (RingDeque α) := (qs[this]?).join

/-- A deque that was not moved from. -/
def held? (qs : List (Option (RingDeque α))) (this : Nat) : Option (RingDeque α) := do
  let q ← deque? qs this
  if 0 < q.capacity then some q else none

/-- An operation on lists, when it is permitted: pushes with room, pops of an
element, offsets of an element, positive capacities, and copies and moves
between distinct deques that were not moved from. -/
def specify (qs : List (Option (RingDeque α))) : Op α → Option (List (Option (RingDeque α)))
  | .construct capacity => do
      let q ← (make capacity.toNat).toOption
      some (qs ++ [some q])
  | .copyConstruct other => do
      let o ← held? qs other
      some (qs ++ [some o])
  | .moveConstruct other => do
      let o ← held? qs other
      some (qs.set other (some gone) ++ [some o])
  | .copyAssign this other => do
      let _ ← held? qs this
      let o ← held? qs other
      if this = other then none else some (qs.set this (some o))
  | .moveAssign this other => do
      let _ ← held? qs this
      let o ← held? qs other
      if this = other then none else some ((qs.set this (some o)).set other (some gone))
  | .pushFront this elem => do
      let q ← deque? qs this
      let q ← (q.pushFront elem).toOption
      some (qs.set this (some q))
  | .pushBack this elem => do
      let q ← deque? qs this
      let q ← (q.pushBack elem).toOption
      some (qs.set this (some q))
  | .popFront this => do
      let q ← deque? qs this
      if q.empty then none else some (qs.set this (some { q with elems := q.elems.tail }))
  | .popBack this => do
      let q ← deque? qs this
      if q.empty then none else some (qs.set this (some { q with elems := q.elems.dropLast }))
  | .assign this offset elem => do
      let q ← deque? qs this
      if offset.toNat < q.size then
        some (qs.set this (some { q with elems := q.elems.set offset.toNat elem }))
      else none
  | .setCapacity this capacity => do
      let q ← deque? qs this
      let q ← (q.setCapacity capacity.toNat).toOption
      some (qs.set this (some q))
  | .clear this => do
      let q ← deque? qs this
      some (qs.set this (some { q with elems := [] }))
  | .destruct this => do
      let _ ← deque? qs this
      some (qs.set this none)

def specifyAll (qs : List (Option (RingDeque α))) (ops : List (Op α)) :
    Option (List (Option (RingDeque α))) := ops.foldlM specify qs

/-! ### The objects that are alive -/

/-- The objects in the memory of a deque. -/
def Store.live (q : Store α) : List Nat := (q.container.getD []).filterMap (Option.map Object.id)

def liveIn (d : Option (Store α)) : List Nat := (d.map Store.live).getD []

def World.live (w : World α) : List Nat := w.deques.flatMap liveIn

theorem Store.Shows.live {q : Store α} {capacity : Nat} {objs : List (Object α)}
    (h : q.Shows capacity objs) : q.live.Perm (Store.ids objs) := by
  rcases h with ⟨-, slots, hmem⟩ | ⟨⟨hgone, -, -⟩, -, rfl⟩
  · rw [Store.live, hmem.container, Option.getD_some]
    have hrotate := (List.rotate_perm slots q.frontIndex.toNat).symm.filterMap (Option.map Object.id)
    rw [hmem.laid.2, List.filterMap_append, List.filterMap_replicate_of_none rfl, List.append_nil,
      List.filterMap_map] at hrotate
    refine hrotate.trans ?_
    have hids : objs.filterMap (Option.map Object.id ∘ some) = Store.ids objs :=
      List.filterMap_eq_map (f := Object.id) ▸ rfl
    rw [hids]
  · rw [Store.live, hgone]
    exact .refl _

/-- What is alive in one deque, and elsewhere. -/
theorem flatMap_set {ds : List (Option (Store α))} {this : Nat} (hlt : this < ds.length)
    (d : Option (Store α)) :
    ((ds.set this d).flatMap liveIn).Perm (liveIn d ++ (ds.set this none).flatMap liveIn) := by
  induction ds generalizing this with
  | nil => exact absurd hlt (Nat.not_lt_zero _)
  | cons e ds ih =>
      cases this with
      | zero => exact .refl _
      | succ this =>
          have hperm := (ih (Nat.lt_of_succ_lt_succ hlt)).append_left (liveIn e)
          rw [List.set_cons_succ, List.set_cons_succ, List.flatMap_cons, List.flatMap_cons]
          refine hperm.trans ?_
          rw [← List.append_assoc, ← List.append_assoc]
          exact List.perm_append_comm.append_right _

theorem flatMap_get {ds : List (Option (Store α))} {this : Nat} {d : Option (Store α)}
    (h : ds[this]? = some d) :
    (ds.flatMap liveIn).Perm (liveIn d ++ (ds.set this none).flatMap liveIn) := by
  obtain ⟨hlt, rfl⟩ := List.getElem?_eq_some_iff.mp h
  have hperm := flatMap_set hlt ds[this]
  rwa [List.set_getElem_self] at hperm

/-! ### Agreement -/

/-- A deque shows its list. -/
def Matches : Option (Store α) → Option (RingDeque α) → Prop
  | none, none => True
  | some q, some l => ∃ objs, q.Shows l.capacity objs ∧ objs.map Object.value = l.elems.map some
  | _, _ => False

theorem matches_gone (o : Store α) : Matches (some o.movedFrom) (some gone) :=
  ⟨[], Store.movedFrom_shows o, rfl⟩

/-- Each deque shows the list of its number. -/
structure Aligned (ds : List (Option (Store α))) (qs : List (Option (RingDeque α))) : Prop where
  length : ds.length = qs.length
  each : ∀ (this : Nat) (d : Option (Store α)) (m : Option (RingDeque α)),
    ds[this]? = some d → qs[this]? = some m → Matches d m

structure Agrees (w : World α) (qs : List (Option (RingDeque α))) : Prop where
  aligned : Aligned w.deques qs
  accounts : w.ledger.Accounts w.live

section
variable {w : World α} {ds : List (Option (Store α))} {qs qs' : List (Option (RingDeque α))}
  {this other : Nat} {l o : RingDeque α}

theorem Aligned.set (h : Aligned ds qs) {d : Option (Store α)} {m : Option (RingDeque α)}
    (hm : Matches d m) : Aligned (ds.set this d) (qs.set this m) := by
  refine ⟨by rw [List.length_set, List.length_set, h.length], fun v d' m' hd' hm' => ?_⟩
  rw [List.getElem?_set] at hd' hm'
  by_cases hv : this = v
  · rw [if_pos hv] at hd' hm'
    split at hd'
    · split at hm'
      · cases hd'
        cases hm'
        exact hm
      · cases hm'
    · cases hd'
  · rw [if_neg hv] at hd' hm'
    exact h.each v d' m' hd' hm'

theorem Aligned.append (h : Aligned ds qs) {d : Option (Store α)} {m : Option (RingDeque α)}
    (hm : Matches d m) : Aligned (ds ++ [d]) (qs ++ [m]) := by
  refine ⟨by simp [h.length], fun v d' m' hd' hm' => ?_⟩
  rcases Nat.lt_trichotomy v ds.length with hlt | rfl | hgt
  · rw [List.getElem?_append_left hlt] at hd'
    rw [List.getElem?_append_left (h.length ▸ hlt)] at hm'
    exact h.each v d' m' hd' hm'
  · rw [List.getElem?_concat_length] at hd'
    rw [h.length, List.getElem?_concat_length] at hm'
    cases hd'
    cases hm'
    exact hm
  · rw [List.getElem?_eq_none (by simp; omega)] at hd'
    cases hd'

/-- The deque of a list. -/
theorem Aligned.deque (h : Aligned ds qs) (hl : deque? qs this = some l) :
    ∃ q objs, ds[this]? = some (some q) ∧ q.Shows l.capacity objs ∧
      objs.map Object.value = l.elems.map some := by
  have hm : qs[this]? = some (some l) := Option.join_eq_some_iff.mp hl
  have hlt : this < ds.length := h.length ▸ (List.getElem?_eq_some_iff.mp hm).1
  have hd := List.getElem?_eq_getElem hlt
  have hmatch := h.each this _ _ hd hm
  cases hq : ds[this] with
  | none =>
      rw [hq] at hmatch
      exact hmatch.elim
  | some q =>
      rw [hq] at hmatch hd
      obtain ⟨objs, hshows, hvalues⟩ := hmatch
      exact ⟨q, objs, hd, hshows, hvalues⟩

theorem held?_eq_some (h : held? qs this = some l) : deque? qs this = some l ∧ 0 < l.capacity := by
  unfold held? at h
  obtain ⟨q, hq, hif⟩ := Option.bind_eq_some_iff.mp h
  split at hif
  · cases hif
    exact ⟨hq, ‹_›⟩
  · cases hif

theorem deque_eq {q : Store α} (h : w.deques[this]? = some (some q)) : w.deque this = .ok q := by
  rw [World.deque, h]

theorem size_eq {objs : List (Object α)} (h : objs.map Object.value = l.elems.map some) :
    objs.length = l.elems.length := by
  simpa using congrArg List.length h

theorem live_append (ds : List (Option (Store α))) (d : Option (Store α)) :
    (ds ++ [d]).flatMap liveIn = ds.flatMap liveIn ++ liveIn d := by
  rw [List.flatMap_append, List.flatMap_singleton]

/-- **A new deque.** -/
theorem Agrees.append (h : Agrees w qs) {q : Store α} {new : List (Object α)} {ledger' : Ledger}
    (hshows : q.Shows l.capacity new) (hvalues : new.map Object.value = l.elems.map some)
    (hturns : w.ledger.Turns [] ledger' (Store.ids new)) :
    Agrees ⟨w.deques ++ [some q], ledger'⟩ (qs ++ [some l]) := by
  refine ⟨h.aligned.append ⟨new, hshows, hvalues⟩, ?_⟩
  refine (hturns w.live h.accounts).perm ?_
  show List.Perm _ ((w.deques ++ [some q]).flatMap liveIn)
  rw [live_append]
  exact List.perm_append_comm.trans (hshows.live.symm.append_left _)

/-- **A call on one deque** that takes its objects to others. -/
theorem Agrees.update (h : Agrees w qs) {q q' : Store α} {objs objs' : List (Object α)} {ledger' : Ledger}
    {f : Store α → Ledger → Except Fault (Store α × Ledger)} {capacity : Nat}
    (hd : w.deques[this]? = some (some q)) (hshows : q.Shows capacity objs)
    (hcall : f q w.ledger = .ok (q', ledger')) (hshows' : q'.Shows l.capacity objs')
    (hvalues : objs'.map Object.value = l.elems.map some)
    (hturns : w.ledger.Turns (Store.ids objs) ledger' (Store.ids objs')) :
    ∃ w', w.update this f = .ok w' ∧ Agrees w' (qs.set this (some l)) := by
  have hlt : this < w.deques.length := (List.getElem?_eq_some_iff.mp hd).1
  refine ⟨⟨w.deques.set this (some q'), ledger'⟩, ?_, h.aligned.set ⟨objs', hshows', hvalues⟩, ?_⟩
  · rw [World.update, deque_eq hd]
    dsimp only [bind, Except.bind]
    rw [hcall]
  · have hbefore := h.accounts.perm ((flatMap_get hd).trans (hshows.live.append_right _))
    exact (hturns _ hbefore).perm ((flatMap_set hlt _).trans (hshows'.live.append_right _)).symm

/-! ### What is permitted on lists -/

theorem make_eq_ok {capacity : Nat} (h : make capacity = .ok l) : 0 < capacity ∧ l = ⟨[], capacity⟩ := by
  unfold make at h
  split at h
  · cases h
    exact ⟨‹_›, rfl⟩
  · cases h

theorem not_full {elem : α} (h : l.pushFront elem = .ok o ∨ l.pushBack elem = .ok o) :
    l.elems.length ≠ l.capacity := by
  intro hfull
  have hfull : l.full = true := by
    rw [full, beq_iff_eq]
    exact hfull
  rw [pushFront, pushBack, hfull, if_pos rfl, if_pos rfl] at h
  rcases h with h | h <;> cases h

theorem setCapacity_eq_ok {capacity : Nat} (h : l.setCapacity capacity = .ok o) :
    (capacity < l.elems.length ∧ o = l) ∨
      (l.elems.length ≤ capacity ∧ 0 < capacity ∧ o = ⟨l.elems, capacity⟩) := by
  by_cases hlt : capacity < l.size
  · rw [setCapacity, if_pos hlt] at h
    cases h
    exact .inl ⟨hlt, rfl⟩
  · have hle : l.size ≤ capacity := Nat.le_of_not_lt hlt
    by_cases hpos : 0 < capacity
    · rw [setCapacity_ok hle hpos] at h
      cases h
      exact .inr ⟨hle, hpos, rfl⟩
    · rw [setCapacity, if_neg hlt, make, if_neg hpos] at h
      cases h

end

/-! ### One operation -/

section
variable {w : World α} {qs qs' : List (Option (RingDeque α))}

theorem Agrees.construct {capacity : BitVec 64} (h : Agrees w qs)
    (hs : specify qs (.construct capacity) = some qs') (hle : capacity.toNat ≤ 2 ^ 63) :
    ∃ w', w.step (.construct capacity) = .ok w' ∧ Agrees w' qs' := by
  obtain ⟨l, hl, hqs⟩ := Option.bind_eq_some_iff.mp hs
  obtain ⟨hpos, rfl⟩ := make_eq_ok (ok_of_toOption hl)
  cases hqs
  obtain ⟨q, hmake, hholds⟩ := Store.make_spec (α := α) hpos hle
  refine ⟨⟨w.deques ++ [some q], w.ledger⟩, ?_, h.append (.inl hholds) rfl (.refl _ _)⟩
  simp only [World.step, bind, Except.bind, hmake]

theorem Agrees.copyConstruct {other : Nat} (h : Agrees w qs)
    (hs : specify qs (.copyConstruct other) = some qs') :
    ∃ w', w.step (.copyConstruct other) = .ok w' ∧ Agrees w' qs' := by
  obtain ⟨l, hl, hqs⟩ := Option.bind_eq_some_iff.mp hs
  cases hqs
  obtain ⟨hl, hpos⟩ := held?_eq_some hl
  obtain ⟨o, objs, hd, hshows, hvalues⟩ := h.aligned.deque hl
  obtain ⟨q', ledger', new, hcall, hholds, hnew, hturns⟩ :=
    Store.copyConstruct_spec (hshows.holds hpos) w.ledger
  refine ⟨⟨w.deques ++ [some q'], ledger'⟩, ?_, h.append (.inl hholds) (hnew.trans hvalues) hturns⟩
  simp only [World.step, deque_eq hd, bind, Except.bind, hcall]

theorem Agrees.moveConstruct {other : Nat} (h : Agrees w qs)
    (hs : specify qs (.moveConstruct other) = some qs') :
    ∃ w', w.step (.moveConstruct other) = .ok w' ∧ Agrees w' qs' := by
  obtain ⟨l, hl, hqs⟩ := Option.bind_eq_some_iff.mp hs
  cases hqs
  obtain ⟨hl, hpos⟩ := held?_eq_some hl
  obtain ⟨o, objs, hd, hshows, hvalues⟩ := h.aligned.deque hl
  have hlt : other < w.deques.length := (List.getElem?_eq_some_iff.mp hd).1
  refine ⟨⟨w.deques.set other (some o.movedFrom) ++ [some o], w.ledger⟩, ?_, ?_, ?_⟩
  · simp only [World.step, deque_eq hd, bind, Except.bind, Store.moveConstruct]
  · exact (h.aligned.set (matches_gone o)).append ⟨objs, hshows, hvalues⟩
  · refine h.accounts.perm ?_
    show List.Perm _ ((w.deques.set other (some o.movedFrom) ++ [some o]).flatMap liveIn)
    rw [live_append]
    have hafter := (flatMap_set hlt (some o.movedFrom)).append_right (liveIn (some o))
    exact ((flatMap_get hd).trans List.perm_append_comm).trans hafter.symm

theorem Agrees.copyAssign {this other : Nat} (h : Agrees w qs)
    (hs : specify qs (.copyAssign this other) = some qs') :
    ∃ w', w.step (.copyAssign this other) = .ok w' ∧ Agrees w' qs' := by
  obtain ⟨l, hl, hs⟩ := Option.bind_eq_some_iff.mp hs
  obtain ⟨lo, hlo, hs⟩ := Option.bind_eq_some_iff.mp hs
  split at hs
  · cases hs
  cases hs
  obtain ⟨hl, -⟩ := held?_eq_some hl
  obtain ⟨hlo, hpos⟩ := held?_eq_some hlo
  obtain ⟨q, objs, hd, hshows, -⟩ := h.aligned.deque hl
  obtain ⟨o, objs', hd', hshows', hvalues'⟩ := h.aligned.deque hlo
  obtain ⟨q', ledger', new, hcall, hholds, hnew, hturns⟩ :=
    Store.copyAssign_spec hshows (hshows'.holds hpos) hpos w.ledger
  obtain ⟨w', hw', hagrees⟩ := h.update (l := lo) hd hshows
    (f := fun q ledger => q.copyAssign o ledger) hcall (.inl hholds) (hnew.trans hvalues') hturns
  refine ⟨w', ?_, hagrees⟩
  simp only [World.step, deque_eq hd', bind, Except.bind]
  exact hw'

theorem Agrees.moveAssign {this other : Nat} (h : Agrees w qs)
    (hs : specify qs (.moveAssign this other) = some qs') :
    ∃ w', w.step (.moveAssign this other) = .ok w' ∧ Agrees w' qs' := by
  obtain ⟨l, hl, hs⟩ := Option.bind_eq_some_iff.mp hs
  obtain ⟨lo, hlo, hs⟩ := Option.bind_eq_some_iff.mp hs
  split at hs
  · cases hs
  next hne =>
  cases hs
  obtain ⟨hl, -⟩ := held?_eq_some hl
  obtain ⟨hlo, hpos⟩ := held?_eq_some hlo
  obtain ⟨q, objs, hd, hshows, -⟩ := h.aligned.deque hl
  obtain ⟨o, objs', hd', hshows', hvalues'⟩ := h.aligned.deque hlo
  obtain ⟨ledger', hcall, hturns⟩ := Store.moveAssign_spec hshows o w.ledger
  have hlt : this < w.deques.length := (List.getElem?_eq_some_iff.mp hd).1
  have hlt' : other < w.deques.length := (List.getElem?_eq_some_iff.mp hd').1
  have hother : (w.deques.set this none)[other]? = some (some o) := by
    rw [List.getElem?_set_ne hne, hd']
  -- what is alive apart from the two deques
  let rest := ((w.deques.set this none).set other none).flatMap liveIn
  have hbefore : w.live.Perm (Store.ids objs ++ (liveIn (some o) ++ rest)) :=
    (flatMap_get hd).trans (hshows.live.append (flatMap_get hother))
  have hafter : (((w.deques.set this (some o)).set other (some o.movedFrom)).flatMap liveIn).Perm
      (liveIn (some o) ++ rest) := by
    rw [List.set_comm _ _ hne]
    refine (flatMap_set (by rw [List.length_set]; exact hlt) _).trans (List.Perm.append_left _ ?_)
    rw [List.set_comm _ _ (Ne.symm hne)]
    exact flatMap_set (by rw [List.length_set]; exact hlt') (some o.movedFrom)
  refine ⟨⟨(w.deques.set this (some o)).set other (some o.movedFrom), ledger'⟩, ?_, ?_, ?_⟩
  · simp only [World.step, deque_eq hd, deque_eq hd', bind, Except.bind, hcall]
  · have hmoved : Matches (some o) (some lo) := ⟨objs', hshows', hvalues'⟩
    exact (h.aligned.set hmoved).set (matches_gone o)
  · exact (hturns _ (h.accounts.perm hbefore)).perm hafter.symm

theorem Agrees.pushFront {this : Nat} {elem : α} (h : Agrees w qs)
    (hs : specify qs (.pushFront this elem) = some qs') :
    ∃ w', w.step (.pushFront this elem) = .ok w' ∧ Agrees w' qs' := by
  obtain ⟨l, hl, hs⟩ := Option.bind_eq_some_iff.mp hs
  obtain ⟨l', hl', hqs⟩ := Option.bind_eq_some_iff.mp hs
  cases hqs
  have hok := ok_of_toOption hl'
  have hfull := not_full (.inl hok)
  obtain ⟨q, objs, hd, hshows, hvalues⟩ := h.aligned.deque hl
  have hsize := size_eq hvalues
  have hroom : objs.length < l.capacity := by
    have := hshows.room
    omega
  rw [pushFront_ok (by rw [size]; omega)] at hok
  cases hok
  obtain ⟨q', ledger', obj, hcall, hholds, hvalue, hturns⟩ :=
    Store.emplaceFront_spec (hshows.holds (by omega)) hroom (some elem) w.ledger
  refine h.update (l := ⟨elem :: l.elems, l.capacity⟩) hd hshows hcall (.inl hholds) ?_ hturns
  rw [List.map_cons, List.map_cons, hvalue, hvalues]

theorem Agrees.pushBack {this : Nat} {elem : α} (h : Agrees w qs)
    (hs : specify qs (.pushBack this elem) = some qs') :
    ∃ w', w.step (.pushBack this elem) = .ok w' ∧ Agrees w' qs' := by
  obtain ⟨l, hl, hs⟩ := Option.bind_eq_some_iff.mp hs
  obtain ⟨l', hl', hqs⟩ := Option.bind_eq_some_iff.mp hs
  cases hqs
  have hok := ok_of_toOption hl'
  have hfull := not_full (.inr hok)
  obtain ⟨q, objs, hd, hshows, hvalues⟩ := h.aligned.deque hl
  have hsize := size_eq hvalues
  have hroom : objs.length < l.capacity := by
    have := hshows.room
    omega
  rw [pushBack_ok (by rw [size]; omega)] at hok
  cases hok
  obtain ⟨q', ledger', obj, hcall, hholds, hvalue, hturns⟩ :=
    Store.emplaceBack_spec (hshows.holds (by omega)) hroom (some elem) w.ledger
  refine h.update (l := ⟨l.elems ++ [elem], l.capacity⟩) hd hshows hcall (.inl hholds) ?_ hturns
  rw [List.map_append, List.map_append, List.map_singleton, List.map_singleton, hvalue, hvalues]

theorem Agrees.popFront {this : Nat} (h : Agrees w qs) (hs : specify qs (.popFront this) = some qs') :
    ∃ w', w.step (.popFront this) = .ok w' ∧ Agrees w' qs' := by
  obtain ⟨l, hl, hs⟩ := Option.bind_eq_some_iff.mp hs
  split at hs
  · cases hs
  next hempty =>
  cases hs
  obtain ⟨q, objs, hd, hshows, hvalues⟩ := h.aligned.deque hl
  obtain ⟨obj, rest, rfl⟩ : ∃ obj rest, objs = obj :: rest := by
    refine List.exists_cons_of_ne_nil fun hnil => hempty ?_
    rw [hnil] at hvalues
    rw [empty, List.map_eq_nil_iff.mp hvalues.symm]
    rfl
  have hpos : 0 < l.capacity := Nat.lt_of_lt_of_le (Nat.succ_pos _) hshows.room
  obtain ⟨q', ledger', hcall, hholds, hturns⟩ := Store.popFront_spec (hshows.holds hpos) w.ledger
  refine h.update (l := ⟨l.elems.tail, l.capacity⟩) hd hshows hcall (.inl hholds) ?_ hturns
  rw [List.map_tail, ← hvalues]
  rfl

theorem Agrees.popBack {this : Nat} (h : Agrees w qs) (hs : specify qs (.popBack this) = some qs') :
    ∃ w', w.step (.popBack this) = .ok w' ∧ Agrees w' qs' := by
  obtain ⟨l, hl, hs⟩ := Option.bind_eq_some_iff.mp hs
  split at hs
  · cases hs
  next hempty =>
  cases hs
  obtain ⟨q, objs, hd, hshows, hvalues⟩ := h.aligned.deque hl
  obtain ⟨rest, obj, rfl⟩ : ∃ rest obj, objs = rest ++ [obj] := by
    rcases List.eq_nil_or_concat' objs with rfl | hconcat
    · refine absurd ?_ hempty
      rw [empty, List.map_eq_nil_iff.mp hvalues.symm]
      rfl
    · exact hconcat
  have hpos : 0 < l.capacity := by
    have := hshows.room
    rw [List.length_append, List.length_singleton] at this
    omega
  obtain ⟨q', ledger', hcall, hholds, hturns⟩ := Store.popBack_spec (hshows.holds hpos) w.ledger
  refine h.update (l := ⟨l.elems.dropLast, l.capacity⟩) hd hshows hcall (.inl hholds) ?_ hturns
  have hinit := congrArg List.dropLast hvalues
  rwa [List.map_append, List.map_singleton, List.dropLast_concat, ← List.map_dropLast] at hinit

theorem Agrees.assign {this : Nat} {offset : BitVec 64} {elem : α} (h : Agrees w qs)
    (hs : specify qs (.assign this offset elem) = some qs') :
    ∃ w', w.step (.assign this offset elem) = .ok w' ∧ Agrees w' qs' := by
  obtain ⟨l, hl, hs⟩ := Option.bind_eq_some_iff.mp hs
  split at hs
  next hlt =>
    cases hs
    obtain ⟨q, objs, hd, hshows, hvalues⟩ := h.aligned.deque hl
    have hsize := size_eq hvalues
    have hi : offset.toNat < objs.length := by
      rw [hsize]
      exact hlt
    have hpos : 0 < l.capacity := by
      have := hshows.room
      omega
    obtain ⟨q', hcall, hholds⟩ := Store.assign_spec (hshows.holds hpos) hi rfl (some elem)
    have hids : Store.ids (objs.set offset.toNat { objs[offset.toNat] with value := some elem })
        = Store.ids objs := by
      have hlen : offset.toNat < (objs.map Object.id).length := by simpa using hi
      have hid : objs[offset.toNat].id = (objs.map Object.id)[offset.toNat] := by simp
      rw [Store.ids, List.map_set, hid, List.set_getElem_self, Store.ids]
    have hupdate : (do let q ← q.assign offset (some elem); .ok (q, w.ledger))
        = (.ok (q', w.ledger) : Except Fault (Store α × Ledger)) := by
      rw [hcall]
      rfl
    refine h.update (l := ⟨l.elems.set offset.toNat elem, l.capacity⟩)
      (f := fun q ledger => do let q ← q.assign offset (some elem); .ok (q, ledger)) hd hshows hupdate
      (.inl hholds) ?_ ?_
    · rw [List.map_set, List.map_set, hvalues]
    · rw [hids]
      exact .refl _ _
  · cases hs

theorem Agrees.setCapacity {this : Nat} {capacity : BitVec 64} (h : Agrees w qs)
    (hs : specify qs (.setCapacity this capacity) = some qs') (hle : capacity.toNat ≤ 2 ^ 63) :
    ∃ w', w.step (.setCapacity this capacity) = .ok w' ∧ Agrees w' qs' := by
  obtain ⟨l, hl, hs⟩ := Option.bind_eq_some_iff.mp hs
  obtain ⟨l', hl', hqs⟩ := Option.bind_eq_some_iff.mp hs
  cases hqs
  obtain ⟨q, objs, hd, hshows, hvalues⟩ := h.aligned.deque hl
  have hsize := size_eq hvalues
  rcases setCapacity_eq_ok (ok_of_toOption hl') with ⟨hlt, rfl⟩ | ⟨hge, hpos, rfl⟩
  · exact h.update hd hshows (Store.setCapacity_keep hshows (hsize ▸ hlt) w.ledger) hshows hvalues (.refl _ _)
  · obtain ⟨q', ledger', new, hcall, hholds, hnew, hturns⟩ :=
      Store.setCapacity_spec hshows (hsize ▸ hge) hpos hle w.ledger
    exact h.update (l := ⟨l.elems, capacity.toNat⟩) hd hshows hcall (.inl hholds) (hnew.trans hvalues) hturns

theorem Agrees.clear {this : Nat} (h : Agrees w qs) (hs : specify qs (.clear this) = some qs') :
    ∃ w', w.step (.clear this) = .ok w' ∧ Agrees w' qs' := by
  obtain ⟨l, hl, hqs⟩ := Option.bind_eq_some_iff.mp hs
  cases hqs
  obtain ⟨q, objs, hd, hshows, hvalues⟩ := h.aligned.deque hl
  obtain ⟨q', ledger', hcall, hshows', hturns⟩ := Store.clear_spec hshows w.ledger
  exact h.update (l := ⟨[], l.capacity⟩) hd hshows hcall hshows' rfl hturns

theorem Agrees.destruct {this : Nat} (h : Agrees w qs) (hs : specify qs (.destruct this) = some qs') :
    ∃ w', w.step (.destruct this) = .ok w' ∧ Agrees w' qs' := by
  obtain ⟨l, hl, hqs⟩ := Option.bind_eq_some_iff.mp hs
  cases hqs
  obtain ⟨q, objs, hd, hshows, hvalues⟩ := h.aligned.deque hl
  obtain ⟨ledger', hcall, hturns⟩ := Store.destruct_spec hshows w.ledger
  refine ⟨⟨w.deques.set this none, ledger'⟩, ?_, h.aligned.set (d := none) (m := none) trivial, ?_⟩
  · simp only [World.step, deque_eq hd, bind, Except.bind, hcall]
  · exact hturns _ (h.accounts.perm ((flatMap_get hd).trans (hshows.live.append_right _)))

/-- **One operation**, as long as the capacity it asks for has a power of two. -/
theorem Agrees.step {op : Op α} (h : Agrees w qs) (hs : specify qs op = some qs')
    (hle : ∀ capacity ∈ op.requests, capacity.toNat ≤ 2 ^ 63) :
    ∃ w', w.step op = .ok w' ∧ Agrees w' qs' := by
  cases op with
  | construct capacity => exact h.construct hs (hle capacity rfl)
  | copyConstruct other => exact h.copyConstruct hs
  | moveConstruct other => exact h.moveConstruct hs
  | copyAssign this other => exact h.copyAssign hs
  | moveAssign this other => exact h.moveAssign hs
  | pushFront this elem => exact h.pushFront hs
  | pushBack this elem => exact h.pushBack hs
  | popFront this => exact h.popFront hs
  | popBack this => exact h.popBack hs
  | assign this offset elem => exact h.assign hs
  | setCapacity this capacity => exact h.setCapacity hs (hle capacity rfl)
  | clear this => exact h.clear hs
  | destruct this => exact h.destruct hs

/-- A larger capacity is never reached. -/
theorem Agrees.diverges {op : Op α} (h : Agrees w qs) (hs : specify qs op = some qs')
    {capacity : BitVec 64} (hop : capacity ∈ op.requests) (hlt : 2 ^ 63 < capacity.toNat) :
    w.step op = .error .diverged := by
  cases op with
  | construct c =>
      cases hop
      simp only [World.step, Store.make_diverges hlt, bind, Except.bind]
  | setCapacity this c =>
      cases hop
      obtain ⟨l, hl, -⟩ := Option.bind_eq_some_iff.mp hs
      obtain ⟨q, objs, hd, hshows, -⟩ := h.aligned.deque hl
      simp only [World.step, World.update, deque_eq hd, Store.setCapacity_diverges hshows hlt, bind,
        Except.bind]
  | _ => cases hop

end

/-! ### Whole programs -/

/-- The deques show the lists of their numbers, and their objects are accounted for. -/
structure Refines (w : World α) (qs : List (Option (RingDeque α))) : Prop where
  contents : ∀ (this : Nat) (l : RingDeque α), deque? qs this = some l → ∃ q, w.deque this = .ok q ∧
    q.numElements.toNat = l.size ∧ q.capacity.toNat = l.capacity ∧ q.live.length = l.size ∧
    ∀ (i : BitVec 64) (hi : i.toNat < l.elems.length), ∃ id, q.get i = .ok ⟨id, some l.elems[i.toNat]⟩
  ended : ∀ this : Nat, qs[this]? = some none → w.deques[this]? = some none
  /-- Every object constructed was destroyed once or is an element of a deque. -/
  objects : (w.ledger.destroyed ++ w.live).Perm (List.range w.ledger.constructed)

theorem Agrees.refines {w : World α} {qs : List (Option (RingDeque α))} (h : Agrees w qs) :
    Refines w qs := by
  refine ⟨fun this l hl => ?_, fun this hnone => ?_, h.accounts⟩
  · obtain ⟨q, objs, hd, hshows, hvalues⟩ := h.aligned.deque hl
    have hsize := size_eq hvalues
    refine ⟨q, deque_eq hd, hshows.size.trans hsize, hshows.capacity_eq, ?_, fun i hi => ?_⟩
    · rw [hshows.live.length_eq, Store.ids, List.length_map]
      exact hsize
    · have hi' : i.toNat < objs.length := hsize ▸ hi
      have hpos : 0 < l.capacity := Nat.lt_of_lt_of_le (Nat.zero_lt_of_lt hi') hshows.room
      have hvalue : objs[i.toNat].value = some l.elems[i.toNat] := by
        have hget := congrArg (·[i.toNat]?) hvalues
        simpa [hi, hi'] using hget
      exact ⟨objs[i.toNat].id, by rw [(hshows.holds hpos).get hi' rfl, ← hvalue]⟩
  · have hlt : this < w.deques.length := h.aligned.length ▸ (List.getElem?_eq_some_iff.mp hnone).1
    have hd := List.getElem?_eq_getElem hlt
    have hmatch := h.aligned.each this _ _ hd hnone
    cases hq : w.deques[this] with
    | none => rw [hd, hq]
    | some q =>
        rw [hq] at hmatch
        exact hmatch.elim

theorem start_agrees : Agrees (World.start : World α) [] :=
  ⟨⟨rfl, fun _ _ _ hd => (by simp [World.start] at hd)⟩, .refl _⟩

theorem Agrees.run {w : World α} {qs qs' : List (Option (RingDeque α))} {ops : List (Op α)}
    (h : Agrees w qs) (hs : specifyAll qs ops = some qs')
    (hle : ∀ op ∈ ops, ∀ capacity ∈ op.requests, capacity.toNat ≤ 2 ^ 63) :
    ∃ w', w.run ops = .ok w' ∧ Agrees w' qs' := by
  induction ops generalizing w qs with
  | nil =>
      cases hs
      exact ⟨w, rfl, h⟩
  | cons op ops ih =>
      obtain ⟨qs₁, hs₁, hs⟩ := Option.bind_eq_some_iff.mp hs
      obtain ⟨w₁, hstep, h₁⟩ := h.step hs₁ (hle op List.mem_cons_self)
      obtain ⟨w₂, hrun, h₂⟩ := ih h₁ hs fun o ho => hle o (List.mem_cons_of_mem _ ho)
      refine ⟨w₂, ?_, h₂⟩
      rw [World.run, List.foldlM_cons, hstep]
      exact hrun

theorem Agrees.run_diverges {w : World α} {qs qs' : List (Option (RingDeque α))} {ops : List (Op α)}
    (h : Agrees w qs) (hs : specifyAll qs ops = some qs') {op : Op α} (hop : op ∈ ops)
    {capacity : BitVec 64} (hcap : capacity ∈ op.requests) (hlt : 2 ^ 63 < capacity.toNat) :
    w.run ops = .error .diverged := by
  induction ops generalizing w qs with
  | nil => cases hop
  | cons op₁ ops ih =>
      obtain ⟨qs₁, hs₁, hs⟩ := Option.bind_eq_some_iff.mp hs
      rw [World.run, List.foldlM_cons]
      by_cases hle : ∀ capacity ∈ op₁.requests, capacity.toNat ≤ 2 ^ 63
      · obtain ⟨w₁, hstep, h₁⟩ := h.step hs₁ hle
        rcases List.mem_cons.mp hop with rfl | hop
        · exact absurd (hle capacity hcap) (Nat.not_le.mpr hlt)
        · rw [hstep]
          exact ih h₁ hs hop
      · push Not at hle
        obtain ⟨c, hc, hclt⟩ := hle
        rw [h.diverges hs₁ hc hclt]
        rfl

/-- **Deques refine lists**, exactly as long as no capacity beyond `2 ^ 63` is
asked for. A program that is permitted on lists runs on the memory, every deque
shows its list by index, and every object was constructed once and destroyed
once unless it is still an element. -/
theorem run_refines_iff {ops : List (Op α)} {qs : List (Option (RingDeque α))}
    (h : specifyAll [] ops = some qs) :
    (∃ w, World.start.run ops = .ok w ∧ Refines w qs) ↔
      ∀ op ∈ ops, ∀ capacity ∈ op.requests, capacity.toNat ≤ 2 ^ 63 := by
  constructor
  · rintro ⟨w, hrun, -⟩ op hop capacity hcap
    by_contra hlt
    rw [start_agrees.run_diverges h hop hcap (Nat.lt_of_not_le hlt)] at hrun
    cases hrun
  · intro hle
    obtain ⟨w, hrun, hagrees⟩ := start_agrees.run h hle
    exact ⟨w, hrun, hagrees.refines⟩

/-- A front index that goes below zero, a larger capacity, and a copy. -/
theorem run_refines_iff_copy :
    (∃ w, World.start.run [.construct 3, .pushFront 0 7, .pushBack 0 8, .setCapacity 0 5, .copyConstruct 0]
        = .ok w ∧ Refines w [some ⟨[7, 8], 5⟩, some ⟨[7, 8], 5⟩]) ↔
      ∀ op ∈ ([.construct 3, .pushFront 0 7, .pushBack 0 8, .setCapacity 0 5, .copyConstruct 0] : List (Op Nat)),
        ∀ capacity ∈ op.requests, capacity.toNat ≤ 2 ^ 63 :=
  run_refines_iff rfl

/-- A deque for `2 ^ 63 + 1` elements is never constructed: the loop of
`nextPow2` goes on, whatever the number of rounds. -/
theorem construct_never_returns :
    (∀ bound, nextPow2From bound 1 (BitVec.ofNat 64 (2 ^ 63 + 1)) = .error .diverged) ∧
      ¬ ∀ (ops : List (Op Nat)) (qs : List (Option (RingDeque Nat))), specifyAll [] ops = some qs →
        ∃ w, World.start.run ops = .ok w ∧ Refines w qs := by
  have hlt : 2 ^ 63 < (BitVec.ofNat 64 (2 ^ 63 + 1)).toNat := by decide
  refine ⟨fun bound => Store.nextPow2From_diverges hlt bound 0, fun hall => ?_⟩
  have hs : specifyAll [] [(.construct (BitVec.ofNat 64 (2 ^ 63 + 1)) : Op Nat)]
      = some [some ⟨[], (BitVec.ofNat 64 (2 ^ 63 + 1)).toNat⟩] := rfl
  obtain ⟨w, hrun, -⟩ := hall _ _ hs
  have hdiverges := start_agrees.run_diverges hs List.mem_cons_self rfl hlt
  rw [hdiverges] at hrun
  cases hrun

end RingDeque

end PothosCore.Util

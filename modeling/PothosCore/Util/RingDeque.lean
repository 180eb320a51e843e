import PothosCore.Fault
import Mathlib.Data.List.Basic

/-!
# PothosCore.Util.RingDeque

The `RingDeque` template: a double-ended queue with a capacity. Adding an element to a
full queue is an error the code asserts against; `set_capacity` makes a queue of another
capacity and moves the elements over.

`Room` is what a queue in use keeps to. A queue that is given twice its size whenever it
is full takes any number of elements (`pushGrowing_ok`).
-/

namespace PothosCore.Util

/-- `RingDeque<T>`, the elements from front to back. -/
structure RingDeque (α : Type*) where
  elems : List α
  capacity : Nat
  deriving Repr, DecidableEq

namespace RingDeque

variable {α : Type*}

/-- `RingDeque(capacity)` -/
def make (capacity : Nat) : Except Fault (RingDeque α) :=
  if 0 < capacity then .ok ⟨[], capacity⟩ else .error (.assertion "capacity > 0")

def empty (q : RingDeque α) : Bool := q.elems.isEmpty

def size (q : RingDeque α) : Nat := q.elems.length

def full (q : RingDeque α) : Bool := q.size == q.capacity

def pushFront (q : RingDeque α) (elem : α) : Except Fault (RingDeque α) :=
  if q.full then .error (.assertion "not this->full()")
  else .ok { q with elems := elem :: q.elems }

def pushBack (q : RingDeque α) (elem : α) : Except Fault (RingDeque α) :=
  if q.full then .error (.assertion "not this->full()")
  else .ok { q with elems := q.elems ++ [elem] }

/-- `set_capacity`: the elements are moved to a new queue, one by one. -/
def setCapacity (q : RingDeque α) (capacity : Nat) : Except Fault (RingDeque α) :=
  if capacity < q.size then .ok q
  else do
    let newRing ← make capacity
    q.elems.foldlM pushBack newRing

/-- Resize the queue before pushing if it is full. -/
def pushGrowing (q : RingDeque α) (elem : α) : Except Fault (RingDeque α) :=
  if q.full then do
    let q ← q.setCapacity (q.size * 2)
    q.pushBack elem
  else q.pushBack elem

/-- The elements fit, and a queue that has none has room for one. -/
structure Room (q : RingDeque α) : Prop where
  pos : 0 < q.capacity
  le : q.size ≤ q.capacity

theorem pushBack_ok {q : RingDeque α} (h : q.size < q.capacity) (elem : α) :
    q.pushBack elem = .ok { q with elems := q.elems ++ [elem] } := by
  have hfull : q.full = false := by
    rw [full, beq_eq_false_iff_ne]
    exact Nat.ne_of_lt h
  rw [pushBack, hfull, if_neg Bool.false_ne_true]

theorem pushFront_ok {q : RingDeque α} (h : q.size < q.capacity) (elem : α) :
    q.pushFront elem = .ok { q with elems := elem :: q.elems } := by
  have hfull : q.full = false := by
    rw [full, beq_eq_false_iff_ne]
    exact Nat.ne_of_lt h
  rw [pushFront, hfull, if_neg Bool.false_ne_true]

/-- Moving elements over to a queue with room for them. -/
theorem foldlM_pushBack_ok (elems : List α) {q : RingDeque α} (h : q.size + elems.length ≤ q.capacity) :
    elems.foldlM pushBack q = .ok { q with elems := q.elems ++ elems } := by
  induction elems generalizing q with
  | nil => rw [List.append_nil]; rfl
  | cons e elems ih =>
      rw [List.length_cons] at h
      have hsize : ({ q with elems := q.elems ++ [e] } : RingDeque α).size + elems.length ≤ q.capacity := by
        rw [size, List.length_append, List.length_singleton]
        rw [size] at h
        omega
      rw [List.foldlM_cons, pushBack_ok (by omega)]
      show elems.foldlM pushBack { q with elems := q.elems ++ [e] } = _
      rw [ih hsize, List.append_assoc]
      rfl

/-- Another capacity keeps the elements. -/
theorem setCapacity_ok {q : RingDeque α} {capacity : Nat} (h : q.size ≤ capacity) (hpos : 0 < capacity) :
    q.setCapacity capacity = .ok ⟨q.elems, capacity⟩ := by
  rw [setCapacity, if_neg (Nat.not_lt.mpr h), make, if_pos hpos]
  exact foldlM_pushBack_ok q.elems (by rw [size, List.length_nil, Nat.zero_add]; exact h)

/-- **A growing queue takes any element.** -/
theorem pushGrowing_ok {q : RingDeque α} (h : q.Room) (elem : α) :
    ∃ q', q.pushGrowing elem = .ok q' ∧ q'.elems = q.elems ++ [elem] ∧ q'.Room := by
  have hroom : ∀ capacity, q.size < capacity → (⟨q.elems ++ [elem], capacity⟩ : RingDeque α).Room := by
    intro capacity hlt
    refine ⟨Nat.zero_lt_of_lt hlt, ?_⟩
    rw [size, List.length_append, List.length_singleton]
    exact hlt
  by_cases hfull : q.full = true
  · have hsize : q.size = q.capacity := by
      rw [full, beq_iff_eq] at hfull
      exact hfull
    have hpos : 0 < q.size := hsize ▸ h.pos
    have hlt : q.size < q.size * 2 := by omega
    rw [pushGrowing, if_pos hfull, setCapacity_ok (Nat.le_of_lt hlt) (by omega)]
    exact ⟨_, pushBack_ok (q := ⟨q.elems, q.size * 2⟩) hlt elem, rfl, hroom _ hlt⟩
  · have hlt : q.size < q.capacity := by
      rw [full, beq_iff_eq] at hfull
      exact Nat.lt_of_le_of_ne h.le hfull
    rw [pushGrowing, if_neg hfull]
    exact ⟨_, pushBack_ok hlt elem, rfl, hroom _ hlt⟩

theorem foldlM_pushGrowing_ok (elems : List α) {q : RingDeque α} (h : q.Room) :
    ∃ q', elems.foldlM pushGrowing q = .ok q' ∧ q'.elems = q.elems ++ elems ∧ q'.Room := by
  induction elems generalizing q with
  | nil => exact ⟨q, rfl, (List.append_nil _).symm, h⟩
  | cons e elems ih =>
      obtain ⟨q₁, hq₁, helems₁, hroom₁⟩ := pushGrowing_ok h e
      obtain ⟨q₂, hq₂, helems₂, hroom₂⟩ := ih hroom₁
      rw [List.foldlM_cons, hq₁]
      exact ⟨q₂, hq₂, by rw [helems₂, helems₁, List.append_assoc]; rfl, hroom₂⟩

/-- Fewer elements fit as well. -/
theorem Room.shrink {q : RingDeque α} (h : q.Room) {elems : List α} (hle : elems.length ≤ q.elems.length) :
    ({ q with elems := elems } : RingDeque α).Room :=
  ⟨h.pos, Nat.le_trans hle h.le⟩

end RingDeque

end PothosCore.Util

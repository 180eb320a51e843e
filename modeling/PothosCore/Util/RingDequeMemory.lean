import PothosCore.Util.RingDeque
import PothosCore.Lib.RingLayout

/-!
# PothosCore.Util.RingDequeMemory

The `RingDeque` template as its fields: a mask, a capacity, the index of the
front, the number of elements and the memory. The mask is one less than a power
of two and the front index is never reduced, it runs through all of `size_t`
and around its end.

A slot of the memory is raw or holds an object. Constructing an object needs a
raw slot, and reading or destroying one needs an object; the `Ledger` counts the
constructions and lists the destructions. `Holds` is what the memory of a deque
in use looks like, in terms of `Lib.Laid`.
-/

namespace PothosCore.Util

open PothosCore.Lib

namespace RingDeque

variable {α : Type}

/-- An object of type `T`: the construction it comes from, and its value unless
that was moved out. -/
structure Object (α : Type) where
  id : Nat
  value : Option α
  deriving Repr, DecidableEq

/-- What was constructed and destroyed so far. -/
structure Ledger where
  constructed : Nat
  destroyed : List Nat
  deriving Repr, DecidableEq

/-- `RingDeque<T>`, its fields. `container` is `none` for the null pointer. -/
structure Store (α : Type) where
  mask : BitVec 64
  capacity : BitVec 64
  frontIndex : BitVec 64
  numElements : BitVec 64
  container : Option (List (Option (Object α)))
  deriving Repr, DecidableEq

/-- The loop of `nextPow2`, which may go round `bound` times. -/
def nextPow2From (bound : Nat) (out n : BitVec 64) : Except Fault (BitVec 64) :=
  if out < n then
    match bound with
    | 0 => .error .diverged
    | bound + 1 => nextPow2From bound (out <<< 1) n
  else .ok out

/-- `nextPow2(in)`; `out` has no bit left after 64 rounds. -/
def nextPow2 (n : BitVec 64) : Except Fault (BitVec 64) := nextPow2From 64 1 n

namespace Store

/-- `_allocator.allocate(count)` -/
def allocate (count : BitVec 64) : List (Option (Object α)) := List.replicate count.toNat none

/-- `RingDeque(capacity)` -/
def make (capacity : BitVec 64) : Except Fault (Store α) := do
  let pow2 ← nextPow2 capacity
  let mask := pow2 - 1
  if capacity = 0 then .error (.assertion "capacity > 0")
  else .ok { mask := mask, capacity := capacity, frontIndex := 0, numElements := 0,
             container := some (allocate (mask + 1)) }

def empty (q : Store α) : Bool := q.numElements == 0

def full (q : Store α) : Bool := q.numElements == q.capacity

/-- The place of `_container[(_frontIndex + offset) & _mask]`. -/
def place (q : Store α) (offset : BitVec 64) : Nat := ((q.frontIndex + offset) &&& q.mask).toNat

/-- The slot there, when it is inside the memory. -/
def slot? (q : Store α) (offset : BitVec 64) : Option (Option (Object α)) :=
  q.container.bind fun slots => slots[q.place offset]?

def setSlot (q : Store α) (offset : BitVec 64) (slot : Option (Object α)) : Store α :=
  { q with container := q.container.map fun slots => slots.set (q.place offset) slot }

/-- `operator[](offset)` -/
def get (q : Store α) (offset : BitVec 64) : Except Fault (Object α) :=
  match q.slot? offset with
  | some (some obj) => .ok obj
  | _ => .error (.undefined "_container[(_frontIndex + offset) & _mask]")

/-- `operator[](offset) = value`; no value is left behind by a move. -/
def assign (q : Store α) (offset : BitVec 64) (value : Option α) : Except Fault (Store α) :=
  match q.slot? offset with
  | some (some obj) => .ok (q.setSlot offset (some { obj with value := value }))
  | _ => .error (.undefined "_container[(_frontIndex + offset) & _mask]")

/-- `new(&operator[](offset)) T(value)` -/
def construct (q : Store α) (offset : BitVec 64) (value : Option α) (ledger : Ledger) :
    Except Fault (Store α × Ledger) :=
  match q.slot? offset with
  | some none =>
      .ok (q.setSlot offset (some ⟨ledger.constructed, value⟩),
        { ledger with constructed := ledger.constructed + 1 })
  | _ => .error (.undefined "new(&_container[(_frontIndex + offset) & _mask]) T(...)")

/-- `operator[](offset).~T()` -/
def destroy (q : Store α) (offset : BitVec 64) (ledger : Ledger) : Except Fault (Store α × Ledger) :=
  match q.slot? offset with
  | some (some obj) =>
      .ok (q.setSlot offset none, { ledger with destroyed := ledger.destroyed ++ [obj.id] })
  | _ => .error (.undefined "_container[(_frontIndex + offset) & _mask].~T()")

/-- The offset that `front()` reads. -/
def front (q : Store α) : Except Fault (BitVec 64) :=
  if q.empty then .error (.assertion "not this->empty()") else .ok 0

/-- The offset that `back()` reads. -/
def back (q : Store α) : Except Fault (BitVec 64) :=
  if q.empty then .error (.assertion "not this->empty()") else .ok (q.numElements - 1)

/-- `emplace_front(value)`, which `push_front(value)` calls -/
def emplaceFront (q : Store α) (value : Option α) (ledger : Ledger) : Except Fault (Store α × Ledger) :=
  if q.full then .error (.assertion "not this->full()")
  else do
    let q := { q with frontIndex := q.frontIndex - 1, numElements := q.numElements + 1 }
    let offset ← q.front
    q.construct offset value ledger

/-- `emplace_back(value)`, which `push_back(value)` calls -/
def emplaceBack (q : Store α) (value : Option α) (ledger : Ledger) : Except Fault (Store α × Ledger) :=
  if q.full then .error (.assertion "not this->full()")
  else do
    let q := { q with numElements := q.numElements + 1 }
    let offset ← q.back
    q.construct offset value ledger

def popFront (q : Store α) (ledger : Ledger) : Except Fault (Store α × Ledger) :=
  if q.empty then .error (.assertion "not this->empty()")
  else do
    let offset ← q.front
    let (q, ledger) ← q.destroy offset ledger
    .ok ({ q with frontIndex := q.frontIndex + 1, numElements := q.numElements - 1 }, ledger)

def popBack (q : Store α) (ledger : Ledger) : Except Fault (Store α × Ledger) :=
  if q.empty then .error (.assertion "not this->empty()")
  else do
    let offset ← q.back
    let (q, ledger) ← q.destroy offset ledger
    .ok ({ q with numElements := q.numElements - 1 }, ledger)

/-- The loop of `clear()`. -/
def clearLoop (bound : Nat) (q : Store α) (ledger : Ledger) : Except Fault (Store α × Ledger) :=
  if q.empty then .ok (q, ledger)
  else
    match bound with
    | 0 => .error .diverged
    | bound + 1 => do
        let (q, ledger) ← q.popFront ledger
        clearLoop bound q ledger

def clear (q : Store α) (ledger : Ledger) : Except Fault (Store α × Ledger) :=
  clearLoop q.numElements.toNat q ledger

/-- `~RingDeque()` -/
def destruct (q : Store α) (ledger : Ledger) : Except Fault Ledger :=
  match q.container with
  | none => .ok ledger
  | some _ => do
      let (_, ledger) ← q.clear ledger
      .ok ledger

/-- What a move leaves of `other`. -/
def movedFrom (other : Store α) : Store α :=
  { other with numElements := 0, capacity := 0, container := none }

/-- `RingDeque(std::move(other))`: the new deque and what is left of `other`. -/
def moveConstruct (other : Store α) : Store α × Store α := (other, other.movedFrom)

/-- `operator=(std::move(other))`: both deques after it. -/
def moveAssign (q other : Store α) (ledger : Ledger) : Except Fault (Store α × Store α × Ledger) := do
  let (_, ledger) ← q.clear ledger
  .ok (other, other.movedFrom, ledger)

/-- The loop that appends the elements of `other` from `i` on. -/
def copyLoop (bound : Nat) (q other : Store α) (i : BitVec 64) (ledger : Ledger) :
    Except Fault (Store α × Ledger) :=
  if i < other.numElements then
    match bound with
    | 0 => .error .diverged
    | bound + 1 => do
        let obj ← other.get i
        let (q, ledger) ← q.emplaceBack obj.value ledger
        copyLoop bound q other (i + 1) ledger
  else .ok (q, ledger)

/-- `RingDeque(other)` -/
def copyConstruct (other : Store α) (ledger : Ledger) : Except Fault (Store α × Ledger) :=
  copyLoop other.numElements.toNat
    { mask := other.mask, capacity := other.capacity, frontIndex := 0, numElements := 0,
      container := some (allocate (other.mask + 1)) } other 0 ledger

/-- The loop of `set_capacity` that moves the elements to `newRing`. -/
def moveLoop (bound : Nat) (q newRing : Store α) (ledger : Ledger) :
    Except Fault (Store α × Store α × Ledger) :=
  if q.empty then .ok (q, newRing, ledger)
  else
    match bound with
    | 0 => .error .diverged
    | bound + 1 => do
        let offset ← q.front
        let obj ← q.get offset
        let (newRing, ledger) ← newRing.emplaceBack obj.value ledger
        let q ← q.assign offset none
        let (q, ledger) ← q.popFront ledger
        moveLoop bound q newRing ledger

/-- `set_capacity(capacity)`; `newRing` ends as a deque that was moved from. -/
def setCapacity (q : Store α) (capacity : BitVec 64) (ledger : Ledger) : Except Fault (Store α × Ledger) :=
  if capacity < q.numElements then .ok (q, ledger)
  else do
    let newRing ← make capacity
    let (q, newRing, ledger) ← moveLoop q.numElements.toNat q newRing ledger
    let (q, newRing, ledger) ← q.moveAssign newRing ledger
    let ledger ← newRing.destruct ledger
    .ok (q, ledger)

/-- `operator=(other)` -/
def copyAssign (q other : Store α) (ledger : Ledger) : Except Fault (Store α × Ledger) := do
  let (q, ledger) ← q.clear ledger
  let (q, ledger) ← q.setCapacity other.capacity ledger
  copyLoop other.numElements.toNat q other 0 ledger

/-! ### The power of two -/

theorem toNat_pow2 {k : Nat} (hk : k ≤ 63) : (BitVec.ofNat 64 (2 ^ k)).toNat = 2 ^ k := by
  have : 2 ^ k ≤ 2 ^ 63 := Nat.pow_le_pow_right (by omega) hk
  rw [BitVec.toNat_ofNat, Nat.mod_eq_of_lt (by omega)]

theorem toNat_pow2_le (k : Nat) : (BitVec.ofNat 64 (2 ^ k)).toNat ≤ 2 ^ 63 := by
  by_cases hk : k ≤ 63
  · rw [toNat_pow2 hk]
    exact Nat.pow_le_pow_right (by omega) hk
  · have hdvd : 2 ^ 64 ∣ 2 ^ k := Nat.pow_dvd_pow 2 (by omega)
    rw [BitVec.toNat_ofNat, Nat.mod_eq_zero_of_dvd hdvd]
    omega

theorem shiftLeft_pow2 (k : Nat) : BitVec.ofNat 64 (2 ^ k) <<< 1 = BitVec.ofNat 64 (2 ^ (k + 1)) := by
  refine BitVec.eq_of_toNat_eq ?_
  rw [BitVec.toNat_shiftLeft, BitVec.toNat_ofNat, BitVec.toNat_ofNat, Nat.shiftLeft_eq, Nat.pow_one,
    Nat.mod_mul_mod, ← Nat.pow_succ]

theorem nextPow2From_ok {bound k : Nat} {n : BitVec 64} (hn : n.toNat ≤ 2 ^ 63) (hk : k ≤ 63)
    (hbound : 63 ≤ k + bound) :
    ∃ j ≤ 63, nextPow2From bound (BitVec.ofNat 64 (2 ^ k)) n = .ok (BitVec.ofNat 64 (2 ^ j)) ∧
      n.toNat ≤ 2 ^ j := by
  induction bound generalizing k with
  | zero =>
      obtain rfl : k = 63 := by omega
      have hlt : ¬ BitVec.ofNat 64 (2 ^ 63) < n := by
        rw [BitVec.lt_def, toNat_pow2 hk]
        omega
      exact ⟨63, hk, by rw [nextPow2From, if_neg hlt], hn⟩
  | succ bound ih =>
      by_cases hlt : BitVec.ofNat 64 (2 ^ k) < n
      · have hk' : k + 1 ≤ 63 := by
          rw [BitVec.lt_def, toNat_pow2 hk] at hlt
          have := (Nat.pow_lt_pow_iff_right (by omega)).mp (Nat.lt_of_lt_of_le hlt hn)
          omega
        obtain ⟨j, hj, hrun, hle⟩ := ih hk' (by omega)
        exact ⟨j, hj, by rw [nextPow2From, if_pos hlt, shiftLeft_pow2]; exact hrun, hle⟩
      · refine ⟨k, hk, by rw [nextPow2From, if_neg hlt], ?_⟩
        rw [BitVec.lt_def, toNat_pow2 hk] at hlt
        omega

/-- Up to `2 ^ 63`, `nextPow2` gives the power of two. -/
theorem nextPow2_ok {n : BitVec 64} (hn : n.toNat ≤ 2 ^ 63) :
    ∃ j ≤ 63, nextPow2 n = .ok (BitVec.ofNat 64 (2 ^ j)) ∧ n.toNat ≤ 2 ^ j :=
  nextPow2From_ok (k := 0) hn (by omega) (by omega)

/-- Beyond `2 ^ 63`, its loop goes on, however many rounds it is given. -/
theorem nextPow2From_diverges {n : BitVec 64} (hn : 2 ^ 63 < n.toNat) (bound k : Nat) :
    nextPow2From bound (BitVec.ofNat 64 (2 ^ k)) n = .error .diverged := by
  have hlt : BitVec.ofNat 64 (2 ^ k) < n := by
    rw [BitVec.lt_def]
    exact Nat.lt_of_le_of_lt (toNat_pow2_le k) hn
  induction bound generalizing k with
  | zero => rw [nextPow2From, if_pos hlt]
  | succ bound ih =>
      rw [nextPow2From, if_pos hlt, shiftLeft_pow2]
      exact ih (k + 1) (Nat.lt_of_le_of_lt (toNat_pow2_le _) hn)

/-! ### The ledger -/

end Store

/-- The objects `ids` are alive, and every other object was destroyed once. -/
def Ledger.Accounts (ledger : Ledger) (ids : List Nat) : Prop :=
  (ledger.destroyed ++ ids).Perm (List.range ledger.constructed)

/-- What happened between two ledgers turned the live objects `ids` into `ids'`,
whatever else is alive. -/
def Ledger.Turns (ledger : Ledger) (ids : List Nat) (ledger' : Ledger) (ids' : List Nat) : Prop :=
  ∀ rest, ledger.Accounts (ids ++ rest) → ledger'.Accounts (ids' ++ rest)

namespace Ledger

variable {l l' l'' : Ledger} {ids ids' ids'' : List Nat}

theorem Accounts.perm (h : l.Accounts ids) (hperm : ids.Perm ids') : l.Accounts ids' :=
  (hperm.symm.append_left l.destroyed).trans h

theorem Turns.refl (l : Ledger) (ids : List Nat) : l.Turns ids l ids := fun _ h => h

theorem Turns.trans (h : l.Turns ids l' ids') (h' : l'.Turns ids' l'' ids'') : l.Turns ids l'' ids'' :=
  fun rest hrest => h' rest (h rest hrest)

theorem Turns.perm {jds jds' : List Nat} (h : l.Turns ids l' ids') (hids : jds.Perm ids)
    (hids' : ids'.Perm jds') : l.Turns jds l' jds' :=
  fun rest hrest => (h rest (hrest.perm (hids.append_right rest))).perm (hids'.append_right rest)

/-- Objects elsewhere stay as they are. -/
theorem Turns.frame (h : l.Turns ids l' ids') (others : List Nat) :
    l.Turns (ids ++ others) l' (ids' ++ others) := by
  intro rest hrest
  rw [List.append_assoc] at hrest ⊢
  exact h _ hrest

theorem turns_construct (l : Ledger) (ids : List Nat) :
    l.Turns ids { l with constructed := l.constructed + 1 } (l.constructed :: ids) := by
  intro rest hrest
  show (l.destroyed ++ (l.constructed :: ids ++ rest)).Perm (List.range (l.constructed + 1))
  rw [List.range_succ]
  exact (List.perm_middle.trans (hrest.cons l.constructed)).trans (List.perm_append_singleton _ _).symm

theorem turns_destroy (l : Ledger) (id : Nat) (ids : List Nat) :
    l.Turns (id :: ids) { l with destroyed := l.destroyed ++ [id] } ids := by
  intro rest hrest
  show (l.destroyed ++ [id] ++ (ids ++ rest)).Perm _
  rw [List.append_assoc]
  exact hrest

end Ledger

/-! ### A deque in use -/

namespace Store

/-- The mask of a memory of `n` slots. -/
def Masked (mask : BitVec 64) (n : Nat) : Prop := ∃ k ≤ 63, n = 2 ^ k ∧ mask.toNat = 2 ^ k - 1

/-- The deque holds `objs`, from front to back, in the memory `slots`. -/
structure Memory (q : Store α) (slots : List (Option (Object α))) (objs : List (Object α)) : Prop where
  container : q.container = some slots
  masked : Masked q.mask slots.length
  fits : q.capacity.toNat ≤ slots.length
  size : q.numElements.toNat = objs.length
  room : objs.length ≤ q.capacity.toNat
  laid : Laid slots q.frontIndex.toNat objs

/-- The deque holds `objs` and has its capacity. -/
def Holds (q : Store α) (capacity : Nat) (objs : List (Object α)) : Prop :=
  q.capacity.toNat = capacity ∧ ∃ slots, q.Memory slots objs

def ids (objs : List (Object α)) : List Nat := objs.map Object.id

section
variable {q other : Store α} {slots : List (Option (Object α))} {objs : List (Object α)} {obj : Object α}
  {capacity : Nat} {ledger : Ledger}

theorem Masked.dvd {mask : BitVec 64} {n : Nat} (h : Masked mask n) : n ∣ 2 ^ 64 := by
  obtain ⟨k, hk, rfl, -⟩ := h
  exact Nat.pow_dvd_pow 2 (by omega)

theorem Masked.le {mask : BitVec 64} {n : Nat} (h : Masked mask n) : n ≤ 2 ^ 63 := by
  obtain ⟨k, hk, rfl, -⟩ := h
  exact Nat.pow_le_pow_right (by omega) hk

theorem Masked.toNat_and {mask : BitVec 64} {n : Nat} (h : Masked mask n) (x : BitVec 64) :
    (x &&& mask).toNat = x.toNat % n := by
  obtain ⟨k, hk, rfl, hmask⟩ := h
  rw [BitVec.toNat_and, hmask, Nat.and_two_pow_sub_one_eq_mod]

/-- A place is a position of the endless ring, reduced. -/
theorem place_eq {n : Nat} (h : Masked q.mask n) (offset : BitVec 64) :
    q.place offset = (q.frontIndex.toNat + offset.toNat) % n := by
  rw [place, h.toNat_and, BitVec.toNat_add, Nat.mod_mod_of_dvd _ h.dvd]

/-- Elements are at their index. -/
theorem Memory.slot? (h : q.Memory slots objs) {i : Nat} (hi : i < objs.length) {offset : BitVec 64}
    (hoffset : offset.toNat = i) : q.slot? offset = some (some objs[i]) := by
  rw [Store.slot?, h.container, Option.bind_some, place_eq h.masked, hoffset]
  exact h.laid.slot hi

theorem Memory.get (h : q.Memory slots objs) {i : Nat} (hi : i < objs.length) {offset : BitVec 64}
    (hoffset : offset.toNat = i) : q.get offset = .ok objs[i] := by
  rw [Store.get, h.slot? hi hoffset]

theorem Memory.empty_iff (h : q.Memory slots objs) : q.empty = true ↔ objs = [] := by
  rw [empty, beq_iff_eq, ← List.length_eq_zero_iff, ← h.size]
  exact ⟨fun heq => by rw [heq]; rfl, fun heq => BitVec.eq_of_toNat_eq heq⟩

theorem Memory.full_eq_false (h : q.Memory slots objs) (hroom : objs.length < q.capacity.toNat) :
    q.full = false := by
  rw [full, beq_eq_false_iff_ne]
  intro heq
  rw [← heq, h.size] at hroom
  omega

theorem Memory.size_le (h : q.Memory slots objs) : objs.length ≤ 2 ^ 63 := by
  have := h.room
  have := h.fits
  have := h.masked.le
  omega

theorem one_toNat : (1 : BitVec 64).toNat = 1 := rfl

/-- One element more than `q` has. -/
theorem Memory.toNat_succ (h : q.Memory slots objs) : (q.numElements + 1).toNat = objs.length + 1 := by
  have := h.size_le
  rw [BitVec.toNat_add, h.size, one_toNat, Nat.mod_eq_of_lt (by omega)]

/-- One element less than `q` has. -/
theorem Memory.toNat_pred (h : q.Memory slots objs) (hpos : 0 < objs.length) :
    (q.numElements - 1).toNat = objs.length - 1 := by
  have := h.size_le
  rw [BitVec.toNat_sub_of_le, h.size, one_toNat]
  rw [BitVec.le_def, h.size, one_toNat]
  exact hpos

theorem sub_one_toNat_add_one (x : BitVec 64) : x.toNat = ((x - 1).toNat + 1) % 2 ^ 64 := by
  have hone : x - 1 + 1 = x := BitVec.sub_add_cancel x 1
  rw [← one_toNat, ← BitVec.toNat_add, hone]

/-! ### What each call does -/

/-- A deque with room keeps counting. -/
theorem Memory.succ_ne_zero (h : q.Memory slots objs) : q.numElements + 1 ≠ 0 := by
  intro heq
  have hsucc := h.toNat_succ
  rw [heq] at hsucc
  cases hsucc

theorem slot?_eq (hcontainer : q.container = some slots) (hmask : Masked q.mask slots.length)
    (offset : BitVec 64) :
    q.slot? offset = slots[(q.frontIndex.toNat + offset.toNat) % slots.length]? := by
  rw [slot?, hcontainer, Option.bind_some, place_eq hmask]

theorem setSlot_eq (hcontainer : q.container = some slots) (hmask : Masked q.mask slots.length)
    (offset : BitVec 64) (slot : Option (Object α)) :
    q.setSlot offset slot = { q with
      container := some (slots.set ((q.frontIndex.toNat + offset.toNat) % slots.length) slot) } := by
  rw [setSlot, hcontainer, Option.map_some, place_eq hmask]

/-- An object in a free slot. -/
theorem construct_eq (hcontainer : q.container = some slots) (hmask : Masked q.mask slots.length)
    (offset : BitVec 64)
    (hfree : slots[(q.frontIndex.toNat + offset.toNat) % slots.length]? = some none)
    (value : Option α) (ledger : Ledger) :
    q.construct offset value ledger = .ok
      ({ q with container := some (slots.set ((q.frontIndex.toNat + offset.toNat) % slots.length)
          (some ⟨ledger.constructed, value⟩)) },
        { ledger with constructed := ledger.constructed + 1 }) := by
  rw [construct, slot?_eq hcontainer hmask, hfree, setSlot_eq hcontainer hmask]

/-- The end of an object. -/
theorem destroy_eq (hcontainer : q.container = some slots) (hmask : Masked q.mask slots.length)
    (offset : BitVec 64)
    (hslot : slots[(q.frontIndex.toNat + offset.toNat) % slots.length]? = some (some obj))
    (ledger : Ledger) :
    q.destroy offset ledger = .ok
      ({ q with container := some (slots.set ((q.frontIndex.toNat + offset.toNat) % slots.length) none) },
        { ledger with destroyed := ledger.destroyed ++ [obj.id] }) := by
  rw [destroy, slot?_eq hcontainer hmask, hslot, setSlot_eq hcontainer hmask]

theorem emplaceBack_spec (h : q.Holds capacity objs) (hroom : objs.length < capacity) (value : Option α)
    (ledger : Ledger) :
    ∃ q' ledger' obj, q.emplaceBack value ledger = .ok (q', ledger') ∧
      q'.Holds capacity (objs ++ [obj]) ∧ obj.value = value ∧
      ledger.Turns (ids objs) ledger' (ids (objs ++ [obj])) := by
  obtain ⟨hcap, slots, hmem⟩ := h
  subst hcap
  have hroom' : objs.length < slots.length := Nat.lt_of_lt_of_le hroom hmem.fits
  have hback : ({ q with numElements := q.numElements + 1 } : Store α).back = .ok q.numElements := by
    rw [back, empty, beq_false_of_ne hmem.succ_ne_zero, if_neg Bool.false_ne_true, BitVec.add_sub_cancel]
  have hfree := hmem.laid.free hroom'
  rw [← hmem.size] at hfree
  have hconstruct := construct_eq (q := { q with numElements := q.numElements + 1 }) hmem.container
    hmem.masked q.numElements hfree value ledger
  have hcall : q.emplaceBack value ledger
      = construct { q with numElements := q.numElements + 1 } q.numElements value ledger := by
    rw [emplaceBack, hmem.full_eq_false hroom, if_neg Bool.false_ne_true]
    dsimp only
    rw [hback]
    rfl
  refine ⟨_, _, ⟨ledger.constructed, value⟩, hcall.trans hconstruct, ⟨rfl, _, rfl, ?_, ?_, ?_, ?_, ?_⟩, rfl, ?_⟩
  · simpa using hmem.masked
  · simpa using hmem.fits
  · rw [List.length_append]
    exact hmem.toNat_succ
  · rw [List.length_append]
    exact Nat.succ_le_of_lt hroom
  · rw [hmem.size]
    exact hmem.laid.pushBack hroom'
  · refine (Ledger.turns_construct ledger (ids objs)).perm (.refl _) ?_
    rw [ids, ids, List.map_append]
    exact (List.perm_append_singleton _ _).symm

theorem emplaceFront_spec (h : q.Holds capacity objs) (hroom : objs.length < capacity) (value : Option α)
    (ledger : Ledger) :
    ∃ q' ledger' obj, q.emplaceFront value ledger = .ok (q', ledger') ∧
      q'.Holds capacity (obj :: objs) ∧ obj.value = value ∧
      ledger.Turns (ids objs) ledger' (ids (obj :: objs)) := by
  obtain ⟨hcap, slots, hmem⟩ := h
  subst hcap
  have hroom' : objs.length < slots.length := Nat.lt_of_lt_of_le hroom hmem.fits
  -- seen from the decremented front index the values begin one position later
  have hlaid : Laid slots ((q.frontIndex - 1).toNat + 1) objs := by
    rw [← laid_mod hmem.masked.dvd, ← sub_one_toNat_add_one]
    exact hmem.laid
  obtain ⟨hfree, hlaid'⟩ := @Laid.pushFront _ _ _ _ (⟨ledger.constructed, value⟩ : Object α) hlaid hroom'
  have hfront : ({ q with frontIndex := q.frontIndex - 1, numElements := q.numElements + 1 } :
      Store α).front = .ok 0 := by
    rw [front, empty, beq_false_of_ne hmem.succ_ne_zero, if_neg Bool.false_ne_true]
  have hconstruct := construct_eq
    (q := { q with frontIndex := q.frontIndex - 1, numElements := q.numElements + 1 })
    hmem.container hmem.masked 0 hfree value ledger
  have hcall : q.emplaceFront value ledger
      = construct { q with frontIndex := q.frontIndex - 1, numElements := q.numElements + 1 } 0
          value ledger := by
    rw [emplaceFront, hmem.full_eq_false hroom, if_neg Bool.false_ne_true]
    dsimp only
    rw [hfront]
    rfl
  refine ⟨_, _, ⟨ledger.constructed, value⟩, hcall.trans hconstruct,
    ⟨rfl, _, rfl, ?_, ?_, hmem.toNat_succ, Nat.succ_le_of_lt hroom, hlaid'⟩, rfl, ?_⟩
  · simpa using hmem.masked
  · simpa using hmem.fits
  · exact Ledger.turns_construct ledger (ids objs)

theorem popFront_spec (h : q.Holds capacity (obj :: objs)) (ledger : Ledger) :
    ∃ q' ledger', q.popFront ledger = .ok (q', ledger') ∧ q'.Holds capacity objs ∧
      ledger.Turns (ids (obj :: objs)) ledger' (ids objs) := by
  obtain ⟨hcap, slots, hmem⟩ := h
  subst hcap
  have hempty : q.empty = false := by
    rw [Bool.eq_false_iff, Ne, hmem.empty_iff]
    exact List.cons_ne_nil _ _
  have hlen : objs.length + 1 ≤ q.capacity.toNat := hmem.room
  have hslot : slots[(q.frontIndex.toNat + 0) % slots.length]? = some (some obj) :=
    hmem.laid.slot (i := 0) (Nat.succ_pos _)
  have hdestroy := destroy_eq hmem.container hmem.masked 0 hslot ledger
  have hcall : q.popFront ledger = (q.destroy 0 ledger).map fun r =>
      ({ r.1 with frontIndex := r.1.frontIndex + 1, numElements := r.1.numElements - 1 }, r.2) := by
    rw [popFront, front, hempty, if_neg Bool.false_ne_true, if_neg Bool.false_ne_true]
    rfl
  rw [hdestroy] at hcall
  refine ⟨_, _, hcall, ⟨rfl, _, rfl, ?_, ?_, ?_, Nat.le_of_succ_le hlen, ?_⟩, ?_⟩
  · simpa using hmem.masked
  · simpa using hmem.fits
  · exact hmem.toNat_pred (Nat.succ_pos _)
  · show Laid _ (q.frontIndex + 1).toNat objs
    rw [BitVec.toNat_add, one_toNat, laid_mod (by simpa using hmem.masked.dvd)]
    exact hmem.laid.popFront
  · exact Ledger.turns_destroy ledger obj.id (ids objs)

theorem popBack_spec (h : q.Holds capacity (objs ++ [obj])) (ledger : Ledger) :
    ∃ q' ledger', q.popBack ledger = .ok (q', ledger') ∧ q'.Holds capacity objs ∧
      ledger.Turns (ids (objs ++ [obj])) ledger' (ids objs) := by
  obtain ⟨hcap, slots, hmem⟩ := h
  subst hcap
  have hlen : (objs ++ [obj]).length = objs.length + 1 := by simp
  have hempty : q.empty = false := by
    rw [Bool.eq_false_iff, Ne, hmem.empty_iff]
    simp
  have hroom := hmem.room
  have hpred : (q.numElements - 1).toNat = objs.length := by
    rw [hmem.toNat_pred (by omega), hlen, Nat.add_sub_cancel]
  have hslot := hmem.laid.slot (i := objs.length) (by omega)
  rw [List.getElem_concat_length rfl, ← hpred] at hslot
  have hdestroy := destroy_eq hmem.container hmem.masked (q.numElements - 1) hslot ledger
  have hcall : q.popBack ledger = (q.destroy (q.numElements - 1) ledger).map fun r =>
      ({ r.1 with numElements := r.1.numElements - 1 }, r.2) := by
    rw [popBack, back, hempty, if_neg Bool.false_ne_true, if_neg Bool.false_ne_true]
    rfl
  rw [hdestroy] at hcall
  refine ⟨_, _, hcall, ⟨rfl, _, rfl, ?_, ?_, hpred, ?_, ?_⟩, ?_⟩
  · simpa using hmem.masked
  · simpa using hmem.fits
  · show objs.length ≤ q.capacity.toNat
    omega
  · rw [hpred]
    exact hmem.laid.popBack
  · refine (Ledger.turns_destroy ledger obj.id (ids objs)).perm ?_ (.refl _)
    rw [ids, ids, List.map_append]
    exact List.perm_append_singleton _ _

theorem assign_spec (h : q.Holds capacity objs) {i : Nat} (hi : i < objs.length) {offset : BitVec 64}
    (hoffset : offset.toNat = i) (value : Option α) :
    ∃ q', q.assign offset value = .ok q' ∧
      q'.Holds capacity (objs.set i { objs[i] with value := value }) := by
  obtain ⟨hcap, slots, hmem⟩ := h
  have hcall : q.assign offset value = .ok (q.setSlot offset (some { objs[i] with value := value })) := by
    rw [assign, hmem.slot? hi hoffset]
  rw [setSlot_eq hmem.container hmem.masked, hoffset] at hcall
  refine ⟨_, hcall, ⟨hcap, _, rfl, ?_, ?_, ?_, ?_, hmem.laid.set hi⟩⟩
  · simpa using hmem.masked
  · simpa using hmem.fits
  · simpa using hmem.size
  · simpa using hmem.room

/-- Up to `2 ^ 63`, a capacity gives an empty deque. -/
theorem make_spec {capacity : BitVec 64} (hpos : 0 < capacity.toNat) (hle : capacity.toNat ≤ 2 ^ 63) :
    ∃ q : Store α, make capacity = .ok q ∧ q.Holds capacity.toNat [] := by
  obtain ⟨k, hk, hpow, hcap⟩ := nextPow2_ok hle
  have hne : capacity ≠ 0 := by
    rintro rfl
    exact Nat.lt_irrefl 0 hpos
  have hmask : (BitVec.ofNat 64 (2 ^ k) - 1).toNat = 2 ^ k - 1 := by
    have h2 := Nat.two_pow_pos k
    have hle : 1 ≤ BitVec.ofNat 64 (2 ^ k) := by
      rw [BitVec.le_def, toNat_pow2 hk, one_toNat]
      exact h2
    rw [BitVec.toNat_sub_of_le hle, toNat_pow2 hk, one_toNat]
  have hlen : (allocate (BitVec.ofNat 64 (2 ^ k) - 1 + 1) : List (Option (Object α))).length = 2 ^ k := by
    rw [allocate, List.length_replicate, BitVec.sub_add_cancel, toNat_pow2 hk]
  have hcall : (make capacity : Except Fault (Store α)) = .ok ⟨BitVec.ofNat 64 (2 ^ k) - 1, capacity, 0, 0,
      some (allocate (BitVec.ofNat 64 (2 ^ k) - 1 + 1))⟩ := by
    rw [make, hpow]
    exact if_neg hne
  refine ⟨_, hcall, rfl, _, rfl, ?_, ?_, rfl, Nat.zero_le _, laid_empty _ _⟩
  · exact ⟨k, hk, hlen, hmask⟩
  · rw [hlen]
    exact hcap

/-- Beyond `2 ^ 63` it does not return. -/
theorem make_diverges {capacity : BitVec 64} (h : 2 ^ 63 < capacity.toNat) :
    (make capacity : Except Fault (Store α)) = .error .diverged := by
  have hpow : nextPow2 capacity = .error .diverged := nextPow2From_diverges h 64 0
  rw [make, hpow]
  rfl

/-- The deque holds `objs` and has its capacity, or it was moved from. -/
def Shows (q : Store α) (capacity : Nat) (objs : List (Object α)) : Prop :=
  q.Holds capacity objs ∨
    (q.container = none ∧ q.numElements = 0 ∧ q.capacity = 0) ∧ capacity = 0 ∧ objs = []

theorem Holds.size (h : q.Holds capacity objs) : q.numElements.toNat = objs.length := by
  obtain ⟨-, slots, hmem⟩ := h
  exact hmem.size

theorem Holds.room (h : q.Holds capacity objs) : objs.length ≤ capacity := by
  obtain ⟨rfl, slots, hmem⟩ := h
  exact hmem.room

theorem Holds.empty_iff (h : q.Holds capacity objs) : q.empty = true ↔ objs = [] := by
  obtain ⟨-, slots, hmem⟩ := h
  exact hmem.empty_iff

theorem Holds.front (h : q.Holds capacity (obj :: objs)) : q.front = .ok 0 := by
  have hempty : q.empty = false := by
    rw [Bool.eq_false_iff, Ne, h.empty_iff]
    exact List.cons_ne_nil _ _
  rw [Store.front, hempty, if_neg Bool.false_ne_true]

theorem Holds.get (h : q.Holds capacity objs) {i : Nat} (hi : i < objs.length) {offset : BitVec 64}
    (hoffset : offset.toNat = i) : q.get offset = .ok objs[i] := by
  obtain ⟨-, slots, hmem⟩ := h
  exact hmem.get hi hoffset

theorem Shows.size (h : q.Shows capacity objs) : q.numElements.toNat = objs.length := by
  rcases h with h | ⟨⟨-, hzero, -⟩, -, rfl⟩
  · exact h.size
  · rw [hzero]
    rfl

theorem Shows.room (h : q.Shows capacity objs) : objs.length ≤ capacity := by
  rcases h with h | ⟨-, -, rfl⟩
  · exact h.room
  · exact Nat.zero_le _

theorem Shows.capacity_eq (h : q.Shows capacity objs) : q.capacity.toNat = capacity := by
  rcases h with h | ⟨⟨-, -, hzero⟩, rfl, -⟩
  · exact h.1
  · rw [hzero]
    rfl

theorem Shows.holds (h : q.Shows capacity objs) (hpos : 0 < capacity) : q.Holds capacity objs := by
  rcases h with h | ⟨-, rfl, -⟩
  · exact h
  · exact absurd hpos (Nat.lt_irrefl 0)

theorem movedFrom_shows (q : Store α) : q.movedFrom.Shows 0 [] :=
  .inr ⟨⟨rfl, rfl, rfl⟩, rfl, rfl⟩

theorem clearLoop_spec (bound : Nat) (h : q.Holds capacity objs) (hbound : objs.length ≤ bound)
    (ledger : Ledger) :
    ∃ q' ledger', clearLoop bound q ledger = .ok (q', ledger') ∧ q'.Holds capacity [] ∧
      ledger.Turns (ids objs) ledger' [] := by
  induction bound generalizing q objs ledger with
  | zero =>
      obtain rfl : objs = [] := List.length_eq_zero_iff.mp (Nat.le_zero.mp hbound)
      exact ⟨q, ledger, by rw [clearLoop, if_pos (h.empty_iff.mpr rfl)], h, .refl _ _⟩
  | succ bound ih =>
      cases objs with
      | nil => exact ⟨q, ledger, by rw [clearLoop, if_pos (h.empty_iff.mpr rfl)], h, .refl _ _⟩
      | cons obj objs =>
          have hempty : ¬ q.empty = true := fun he => List.cons_ne_nil _ _ (h.empty_iff.mp he)
          obtain ⟨q₁, l₁, hpop, hholds, hturns⟩ := popFront_spec h ledger
          obtain ⟨q₂, l₂, hloop, hholds₂, hturns₂⟩ := ih hholds (Nat.le_of_succ_le_succ hbound) l₁
          refine ⟨q₂, l₂, ?_, hholds₂, hturns.trans hturns₂⟩
          rw [clearLoop, if_neg hempty]
          dsimp only
          rw [hpop]
          exact hloop

/-- `clear` ends every object of the deque. -/
theorem clear_spec (h : q.Shows capacity objs) (ledger : Ledger) :
    ∃ q' ledger', q.clear ledger = .ok (q', ledger') ∧ q'.Shows capacity [] ∧
      ledger.Turns (ids objs) ledger' [] := by
  rcases h with h | ⟨hgone, rfl, rfl⟩
  · obtain ⟨q', l', hcall, hholds, hturns⟩ := clearLoop_spec q.numElements.toNat h (Nat.le_of_eq h.size.symm)
      ledger
    exact ⟨q', l', hcall, .inl hholds, hturns⟩
  · refine ⟨q, ledger, ?_, .inr ⟨hgone, rfl, rfl⟩, .refl _ _⟩
    rw [clear, hgone.2.1]
    unfold clearLoop
    rw [empty, hgone.2.1]
    rfl

theorem destruct_spec (h : q.Shows capacity objs) (ledger : Ledger) :
    ∃ ledger', q.destruct ledger = .ok ledger' ∧ ledger.Turns (ids objs) ledger' [] := by
  obtain ⟨q', l', hclear, -, hturns⟩ := clear_spec h ledger
  rcases h with ⟨-, slots, hmem⟩ | ⟨hgone, rfl, rfl⟩
  · refine ⟨l', ?_, hturns⟩
    rw [destruct, hmem.container, hclear]
    rfl
  · refine ⟨ledger, ?_, .refl _ _⟩
    rw [destruct, hgone.1]

theorem moveAssign_spec (h : q.Shows capacity objs) (other : Store α) (ledger : Ledger) :
    ∃ ledger', q.moveAssign other ledger = .ok (other, other.movedFrom, ledger') ∧
      ledger.Turns (ids objs) ledger' [] := by
  obtain ⟨q', l', hclear, -, hturns⟩ := clear_spec h ledger
  refine ⟨l', ?_, hturns⟩
  rw [moveAssign, hclear]
  rfl

/-- **Copying elements over.** The copies of `rest` are put behind what is there. -/
theorem copyLoop_spec (bound : Nat) {capacity' : Nat} {done rest : List (Object α)} {i : BitVec 64}
    (hother : other.Holds capacity' (done ++ rest)) (h : q.Holds capacity objs)
    (hi : i.toNat = done.length) (hbound : rest.length ≤ bound)
    (hroom : objs.length + rest.length ≤ capacity) (ledger : Ledger) :
    ∃ q' ledger' new, copyLoop bound q other i ledger = .ok (q', ledger') ∧
      q'.Holds capacity (objs ++ new) ∧ new.map Object.value = rest.map Object.value ∧
      ledger.Turns (ids objs) ledger' (ids (objs ++ new)) := by
  have hsize := hother.size
  rw [List.length_append] at hsize
  induction bound generalizing q objs done rest i ledger with
  | zero =>
      obtain rfl : rest = [] := List.length_eq_zero_iff.mp (Nat.le_zero.mp hbound)
      have hlt : ¬ i < other.numElements := by
        rw [BitVec.lt_def, hsize, hi]
        simp
      refine ⟨q, ledger, [], by rw [copyLoop, if_neg hlt], ?_, rfl, ?_⟩
      · rwa [List.append_nil]
      · rw [List.append_nil]
        exact .refl _ _
  | succ bound ih =>
      cases rest with
      | nil =>
          have hlt : ¬ i < other.numElements := by
            rw [BitVec.lt_def, hsize, hi]
            simp
          refine ⟨q, ledger, [], by rw [copyLoop, if_neg hlt], ?_, rfl, ?_⟩
          · rwa [List.append_nil]
          · rw [List.append_nil]
            exact .refl _ _
      | cons obj rest =>
          rw [List.length_cons] at hbound hroom hsize
          have hlt : i < other.numElements := by
            rw [BitVec.lt_def, hsize, hi]
            omega
          have hget : other.get i = .ok obj := by
            rw [hother.get (by rw [List.length_append]; simp) hi]
            simp
          obtain ⟨q₁, l₁, copy, hcall, hholds, hvalue, hturns⟩ :=
            emplaceBack_spec h (by omega) obj.value ledger
          have hsucc : (i + 1).toNat = (done ++ [obj]).length := by
            have hbelow := other.numElements.isLt
            rw [BitVec.toNat_add, one_toNat, hi, List.length_append, List.length_singleton,
              Nat.mod_eq_of_lt (by omega)]
          rw [← List.singleton_append, ← List.append_assoc] at hother
          obtain ⟨q₂, l₂, new, hloop, hholds₂, hvalues, hturns₂⟩ :=
            ih hother hholds hsucc (by omega)
              (by rw [List.length_append, List.length_singleton]; omega) l₁
              (by rw [List.length_append, List.length_singleton, hsize]; omega)
          refine ⟨q₂, l₂, copy :: new, ?_, ?_, ?_, ?_⟩
          · rw [copyLoop, if_pos hlt]
            dsimp only [bind, Except.bind]
            rw [hget]
            dsimp only
            rw [hcall]
            exact hloop
          · rwa [List.append_assoc] at hholds₂
          · rw [List.map_cons, List.map_cons, hvalue, hvalues]
          · rw [List.append_assoc] at hturns₂
            exact hturns.trans hturns₂

/-- **Moving elements over.** Each goes to the new deque, and what is left of it ends. -/
theorem moveLoop_spec (bound : Nat) {newRing : Store α} {capacity' : Nat} {moved : List (Object α)}
    (h : q.Holds capacity objs) (hnew : newRing.Holds capacity' moved) (hbound : objs.length ≤ bound)
    (hroom : moved.length + objs.length ≤ capacity') (ledger : Ledger) :
    ∃ q' newRing' ledger' new, moveLoop bound q newRing ledger = .ok (q', newRing', ledger') ∧
      q'.Holds capacity [] ∧ newRing'.Holds capacity' (moved ++ new) ∧
      new.map Object.value = objs.map Object.value ∧
      ledger.Turns (ids objs ++ ids moved) ledger' (ids (moved ++ new)) := by
  induction bound generalizing q newRing objs moved ledger with
  | zero =>
      obtain rfl : objs = [] := List.length_eq_zero_iff.mp (Nat.le_zero.mp hbound)
      refine ⟨q, newRing, ledger, [], by rw [moveLoop, if_pos (h.empty_iff.mpr rfl)], h, ?_, rfl, ?_⟩
      · rwa [List.append_nil]
      · rw [List.append_nil]
        exact .refl _ _
  | succ bound ih =>
      cases objs with
      | nil =>
          refine ⟨q, newRing, ledger, [], by rw [moveLoop, if_pos (h.empty_iff.mpr rfl)], h, ?_, rfl, ?_⟩
          · rwa [List.append_nil]
          · rw [List.append_nil]
            exact .refl _ _
      | cons obj objs =>
          rw [List.length_cons] at hbound hroom
          have hempty : ¬ q.empty = true := fun he => List.cons_ne_nil _ _ (h.empty_iff.mp he)
          have hget : q.get 0 = .ok obj := h.get (i := 0) (Nat.succ_pos _) rfl
          obtain ⟨newRing₁, l₁, made, hcall, hholds₁, hvalue, hturns₁⟩ :=
            emplaceBack_spec hnew (by omega) obj.value ledger
          have hzero : (0 : BitVec 64).toNat = 0 := rfl
          obtain ⟨q₁, hassign, hholds₂⟩ := assign_spec h (Nat.succ_pos _) hzero none
          have hleft : q₁.Holds capacity ({ obj with value := none } :: objs) := hholds₂
          obtain ⟨q₂, l₂, hpop, hholds₃, hturns₂⟩ := popFront_spec hleft l₁
          obtain ⟨q₃, newRing₂, l₃, new, hloop, hholds₄, hholds₅, hvalues, hturns₃⟩ :=
            ih hholds₃ hholds₁ (by omega) (by rw [List.length_append, List.length_singleton]; omega) l₂
          refine ⟨q₃, newRing₂, l₃, made :: new, ?_, hholds₄, ?_, ?_, ?_⟩
          · rw [moveLoop, if_neg hempty]
            dsimp only [bind, Except.bind]
            rw [h.front]
            dsimp only
            rw [hget]
            dsimp only
            rw [hcall]
            dsimp only
            rw [hassign]
            dsimp only
            rw [hpop]
            exact hloop
          · rwa [List.append_assoc] at hholds₅
          · rw [List.map_cons, List.map_cons, hvalue, hvalues]
          · rw [List.append_assoc] at hturns₃
            refine Ledger.Turns.trans ?_ hturns₃
            -- first the new object is made, then the old one ends
            have hmade := (hturns₁.frame (ids (obj :: objs))).perm List.perm_append_comm (.refl _)
            have hended := (hturns₂.frame (ids (moved ++ [made]))).perm List.perm_append_comm (.refl _)
            exact hmade.trans hended

/-- A capacity below the number of elements changes nothing. -/
theorem setCapacity_keep {capacity' : BitVec 64} (h : q.Shows capacity objs)
    (hlt : capacity'.toNat < objs.length) (ledger : Ledger) :
    q.setCapacity capacity' ledger = .ok (q, ledger) := by
  have hcond : capacity' < q.numElements := by
    rw [BitVec.lt_def, h.size]
    exact hlt
  rw [setCapacity, if_pos hcond]

/-- Another capacity keeps the elements. -/
theorem setCapacity_spec {capacity' : BitVec 64} (h : q.Shows capacity objs)
    (hge : objs.length ≤ capacity'.toNat) (hpos : 0 < capacity'.toNat) (hle : capacity'.toNat ≤ 2 ^ 63)
    (ledger : Ledger) :
    ∃ q' ledger' new, q.setCapacity capacity' ledger = .ok (q', ledger') ∧
      q'.Holds capacity'.toNat new ∧ new.map Object.value = objs.map Object.value ∧
      ledger.Turns (ids objs) ledger' (ids new) := by
  have hcond : ¬ capacity' < q.numElements := by
    rw [BitVec.lt_def, h.size]
    exact Nat.not_lt.mpr hge
  obtain ⟨newRing, hmake, hnew⟩ := make_spec (α := α) hpos hle
  obtain ⟨q₁, newRing₁, l₁, new, hloop, hshows₁, hholds₁, hvalues, hturns₁⟩ :
      ∃ q₁ newRing₁ l₁ new, moveLoop q.numElements.toNat q newRing ledger = .ok (q₁, newRing₁, l₁) ∧
        q₁.Shows capacity [] ∧ newRing₁.Holds capacity'.toNat new ∧
        new.map Object.value = objs.map Object.value ∧ ledger.Turns (ids objs) l₁ (ids new) := by
    rcases h with h | ⟨hgone, rfl, rfl⟩
    · obtain ⟨q₁, newRing₁, l₁, new, hloop, hholds, hholds₁, hvalues, hturns₁⟩ :=
        moveLoop_spec q.numElements.toNat h hnew (Nat.le_of_eq h.size.symm) (by simpa using hge) ledger
      refine ⟨q₁, newRing₁, l₁, new, hloop, .inl hholds, hholds₁, hvalues, ?_⟩
      simpa [ids] using hturns₁
    · refine ⟨q, newRing, ledger, [], ?_, .inr ⟨hgone, rfl, rfl⟩, hnew, rfl, .refl _ _⟩
      unfold moveLoop
      rw [empty, hgone.2.1]
      rfl
  obtain ⟨l₂, hmove, hturns₂⟩ := moveAssign_spec hshows₁ newRing₁ l₁
  obtain ⟨l₃, hdestruct, hturns₃⟩ := destruct_spec (movedFrom_shows newRing₁) l₂
  refine ⟨newRing₁, l₃, new, ?_, hholds₁, hvalues, ?_⟩
  · rw [setCapacity, if_neg hcond]
    dsimp only [bind, Except.bind]
    rw [hmake]
    dsimp only
    rw [hloop]
    dsimp only
    rw [hmove]
    dsimp only
    rw [hdestruct]
  · exact hturns₁.trans ((hturns₂.frame (ids new)).trans (hturns₃.frame (ids new)))

/-- Beyond `2 ^ 63` it does not return. -/
theorem setCapacity_diverges {capacity' : BitVec 64} (h : q.Shows capacity objs)
    (hlt : 2 ^ 63 < capacity'.toNat) (ledger : Ledger) :
    q.setCapacity capacity' ledger = .error .diverged := by
  have hsize : objs.length ≤ 2 ^ 63 := by
    rcases h with ⟨-, slots, hmem⟩ | ⟨-, -, rfl⟩
    · exact hmem.size_le
    · exact Nat.zero_le _
  have hcond : ¬ capacity' < q.numElements := by
    rw [BitVec.lt_def, h.size]
    omega
  rw [setCapacity, if_neg hcond, make_diverges hlt]
  rfl

theorem Holds.capacity_le (h : q.Holds capacity objs) : capacity ≤ 2 ^ 63 := by
  obtain ⟨rfl, slots, hmem⟩ := h
  exact Nat.le_trans hmem.fits hmem.masked.le

theorem copyConstruct_spec (h : other.Holds capacity objs) (ledger : Ledger) :
    ∃ q' ledger' new, copyConstruct other ledger = .ok (q', ledger') ∧ q'.Holds capacity new ∧
      new.map Object.value = objs.map Object.value ∧ ledger.Turns [] ledger' (ids new) := by
  have hempty : Holds ⟨other.mask, other.capacity, 0, 0, some (allocate (other.mask + 1))⟩ capacity
      ([] : List (Object α)) := by
    obtain ⟨rfl, slots, hmem⟩ := h
    have hlen : (allocate (other.mask + 1) : List (Option (Object α))).length = slots.length := by
      obtain ⟨k, hk, hslots, hmask⟩ := hmem.masked
      have hpow := Nat.two_pow_pos k
      have hle := hmem.masked.le
      rw [allocate, List.length_replicate, BitVec.toNat_add, hmask, one_toNat,
        Nat.sub_add_cancel hpow, ← hslots, Nat.mod_eq_of_lt (by omega)]
    refine ⟨rfl, _, rfl, ?_, ?_, rfl, Nat.zero_le _, laid_empty _ _⟩
    · rw [hlen]
      exact hmem.masked
    · rw [hlen]
      exact hmem.fits
  have hnone : other.Holds capacity ([] ++ objs) := h
  have hzero : (0 : BitVec 64).toNat = ([] : List (Object α)).length := rfl
  obtain ⟨q', l', new, hloop, hholds, hvalues, hturns⟩ :=
    copyLoop_spec other.numElements.toNat hnone hempty hzero (Nat.le_of_eq h.size.symm)
      (by simpa using h.room) ledger
  exact ⟨q', l', new, hloop, hholds, hvalues, hturns⟩

theorem copyAssign_spec {capacity' : Nat} {objs' : List (Object α)} (h : q.Shows capacity objs)
    (hother : other.Holds capacity' objs') (hpos : 0 < capacity') (ledger : Ledger) :
    ∃ q' ledger' new, q.copyAssign other ledger = .ok (q', ledger') ∧ q'.Holds capacity' new ∧
      new.map Object.value = objs'.map Object.value ∧ ledger.Turns (ids objs) ledger' (ids new) := by
  have hcap : other.capacity.toNat = capacity' := hother.1
  obtain ⟨q₁, l₁, hclear, hshows₁, hturns₁⟩ := clear_spec h ledger
  have hcap_pos : 0 < other.capacity.toNat := hcap ▸ hpos
  obtain ⟨q₂, l₂, kept, hset, hholds₂, hkept, hturns₂⟩ :=
    setCapacity_spec hshows₁ (Nat.zero_le _) hcap_pos (hcap ▸ hother.capacity_le) l₁
  obtain rfl : kept = [] := List.map_eq_nil_iff.mp hkept
  rw [hcap] at hholds₂
  have hnone : other.Holds capacity' ([] ++ objs') := hother
  have hzero : (0 : BitVec 64).toNat = ([] : List (Object α)).length := rfl
  obtain ⟨q₃, l₃, new, hloop, hholds₃, hvalues, hturns₃⟩ :=
    copyLoop_spec other.numElements.toNat hnone hholds₂ hzero
      (Nat.le_of_eq hother.size.symm) (by simpa using hother.room) l₂
  refine ⟨q₃, l₃, new, ?_, hholds₃, hvalues, hturns₁.trans (hturns₂.trans hturns₃)⟩
  rw [copyAssign, hclear]
  dsimp only [bind, Except.bind]
  rw [hset]
  exact hloop

end

end Store

end RingDeque

end PothosCore.Util

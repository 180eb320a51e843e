import Mathlib.Logic.Function.Basic
import PothosCore.Lib.Residue

/-!
# PothosCore.Lib.Memory

Byte memory as a function of the address, over any type of bytes: reading a
range, copying a range, and the frame facts of a copy. The second half is the
memory of a ring of `L` cells, where an address stands for its residue.
-/

namespace PothosCore.Lib

variable {β : Type*}

/-- The bytes at `[a, a + n)`. -/
def readBytes (m : Nat → β) (a n : Nat) : List β := (List.range n).map fun i => m (a + i)

/-- `memcpy(dst, src, n)`. -/
def copyBytes (m : Nat → β) (dst src n : Nat) : Nat → β :=
  fun x => if dst ≤ x ∧ x < dst + n then m (src + (x - dst)) else m x

section
variable (m : Nat → β) (a : Nat)

@[simp] theorem readBytes_length (n : Nat) : (readBytes m a n).length = n := by
  simp [readBytes]

@[simp] theorem readBytes_zero : readBytes m a 0 = [] := rfl

/-- A range is read in two parts. -/
theorem readBytes_add (k n : Nat) :
    readBytes m a (k + n) = readBytes m a k ++ readBytes m (a + k) n := by
  simp [readBytes, List.range_add, Nat.add_assoc]

theorem readBytes_drop (k n : Nat) :
    (readBytes m a n).drop k = readBytes m (a + k) (n - k) := by
  rcases Nat.le_total k n with hk | hk
  · obtain ⟨d, rfl⟩ := Nat.exists_eq_add_of_le hk
    rw [readBytes_add, List.drop_left' (readBytes_length m a k), Nat.add_sub_cancel_left]
  · rw [Nat.sub_eq_zero_of_le hk, readBytes_zero]
    exact List.drop_of_length_le (by simpa using hk)

end

theorem readBytes_congr {m m' : Nat → β} {a n : Nat} (h : ∀ x, a ≤ x → x < a + n → m x = m' x) :
    readBytes m a n = readBytes m' a n := by
  refine List.map_congr_left fun i hi => h _ (by omega) ?_
  have := List.mem_range.mp hi
  omega

theorem copyBytes_of_outside (m : Nat → β) {dst src n x : Nat} (h : x < dst ∨ dst + n ≤ x) :
    copyBytes m dst src n x = m x := by
  unfold copyBytes
  rw [if_neg (by omega)]

/-- A range the copy does not touch reads as before. -/
theorem readBytes_copyBytes_of_disjoint (m : Nat → β) {dst src n a k : Nat}
    (h : a + k ≤ dst ∨ dst + n ≤ a) :
    readBytes (copyBytes m dst src n) a k = readBytes m a k :=
  readBytes_congr fun _ _ _ => copyBytes_of_outside m (by omega)

/-- The copy reads as its source did. -/
theorem readBytes_copyBytes_self (m : Nat → β) (dst src n : Nat) :
    readBytes (copyBytes m dst src n) dst n = readBytes m src n := by
  refine List.map_congr_left fun i hi => ?_
  have := List.mem_range.mp hi
  unfold copyBytes
  rw [if_pos (by omega), Nat.add_sub_cancel_left]

/-! ### Rings of cells -/

/-- The bytes at the cells of `[a, a + n)` in a ring of `L` cells. -/
def readCyclic (L : Nat) (m : Nat → β) (a n : Nat) : List β :=
  (List.range n).map fun i => m ((a + i) % L)

/-- Write a list of bytes to the cells from `a` on. -/
def writeCyclic (L : Nat) (m : Nat → β) (a : Nat) : List β → Nat → β
  | [] => m
  | b :: bs => writeCyclic L (Function.update m (a % L) b) (a + 1) bs

section
variable {L : Nat} (m : Nat → β)

@[simp] theorem readCyclic_length (a n : Nat) : (readCyclic L m a n).length = n := by
  simp [readCyclic]

theorem readCyclic_add (a k n : Nat) :
    readCyclic L m a (k + n) = readCyclic L m a k ++ readCyclic L m (a + k) n := by
  simp [readCyclic, List.range_add, Nat.add_assoc]

theorem readCyclic_drop (a k n : Nat) :
    (readCyclic L m a n).drop k = readCyclic L m (a + k) (n - k) := by
  rcases Nat.le_total k n with hk | hk
  · obtain ⟨d, rfl⟩ := Nat.exists_eq_add_of_le hk
    rw [readCyclic_add, List.drop_left' (readCyclic_length m a k), Nat.add_sub_cancel_left]
  · rw [Nat.sub_eq_zero_of_le hk, List.drop_of_length_le (by simpa using hk)]
    rfl

theorem readCyclic_take (a k n : Nat) (hk : k ≤ n) :
    (readCyclic L m a n).take k = readCyclic L m a k := by
  obtain ⟨d, rfl⟩ := Nat.exists_eq_add_of_le hk
  rw [readCyclic_add, List.take_left' (readCyclic_length m a k)]

/-- Addresses with the same residue are the same cell. -/
theorem readCyclic_congr {a a' : Nat} (h : a ≡ a' [MOD L]) (n : Nat) :
    readCyclic L m a n = readCyclic L m a' n :=
  List.map_congr_left fun i _ => congrArg m (h.add_right i)

theorem writeCyclic_congr {a a' : Nat} (h : a ≡ a' [MOD L]) (bs : List β) :
    writeCyclic L m a bs = writeCyclic L m a' bs := by
  induction bs generalizing m a a' with
  | nil => rfl
  | cons b bs ih =>
      rw [writeCyclic, writeCyclic, show a % L = a' % L from h]
      exact ih _ (h.add_right 1)

theorem writeCyclic_of_outside (a : Nat) {bs : List β} {x : Nat}
    (h : ∀ i < bs.length, (a + i) % L ≠ x) : writeCyclic L m a bs x = m x := by
  induction bs generalizing m a with
  | nil => rfl
  | cons b bs ih =>
      have hhead : a % L ≠ x := h 0 (Nat.succ_pos _)
      rw [writeCyclic, ih, Function.update_of_ne hhead.symm]
      intro i hi
      have := h (i + 1) (Nat.succ_lt_succ hi)
      rwa [Nat.add_comm i 1, ← Nat.add_assoc] at this

/-- Cells before the written ones, and less than a turn away, read as before. -/
theorem readCyclic_writeCyclic_before {a n b : Nat} {bs : List β} (hab : a + n ≤ b)
    (hturn : b + bs.length ≤ a + L) :
    readCyclic L (writeCyclic L m b bs) a n = readCyclic L m a n := by
  refine List.map_congr_left fun i hi => writeCyclic_of_outside m b fun j hj => ?_
  have := List.mem_range.mp hi
  exact (mod_ne_of_lt_of_lt (by omega) (by omega)).symm

/-- No more than a turn of bytes reads as it was written. -/
theorem readCyclic_writeCyclic_self (a : Nat) {bs : List β} (hturn : bs.length ≤ L) :
    readCyclic L (writeCyclic L m a bs) a bs.length = bs := by
  induction bs generalizing m a with
  | nil => rfl
  | cons b bs ih =>
      have hle : bs.length + 1 ≤ L := hturn
      have hhead : writeCyclic L (Function.update m (a % L) b) (a + 1) bs (a % L) = b := by
        rw [writeCyclic_of_outside _ (a + 1) fun i hi => ?_, Function.update_self]
        rw [Nat.add_assoc]
        exact (mod_ne_of_lt_of_lt (by omega) (by omega)).symm
      have hone : ∀ m' : Nat → β, readCyclic L m' a 1 = [m' (a % L)] := fun _ => rfl
      rw [List.length_cons, Nat.add_comm bs.length 1, readCyclic_add, hone, writeCyclic, hhead,
        ih _ (a + 1) (by omega)]
      rfl

end

end PothosCore.Lib

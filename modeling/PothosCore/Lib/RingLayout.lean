import Mathlib.Data.List.Rotate
import PothosCore.Lib.Residue

/-!
# PothosCore.Lib.RingLayout

Values laid around a ring of memory slots. `Laid slots first objs` says that the
slots, read from `first` on and around the end, hold the values `objs` one after
the other and nothing else. `first` is any number; only its residue counts.

The rules say what one write does to the layout: a value is put behind or before
the others, taken from either end, or replaced.
-/

namespace PothosCore.Lib

variable {α : Type*} {slots : List (Option α)} {first : Nat} {objs : List α} {obj : α}

theorem replicate_room {n k : Nat} (h : k < n) :
    List.replicate (n - k) (none : Option α) = none :: List.replicate (n - (k + 1)) none := by
  have hsucc : n - k = n - (k + 1) + 1 := by omega
  rw [hsucc, List.replicate_succ]

/-- The slots from `first` on hold `objs` and are free after them. -/
def Laid (slots : List (Option α)) (first : Nat) (objs : List α) : Prop :=
  objs.length ≤ slots.length ∧
    slots.rotate first = objs.map some ++ List.replicate (slots.length - objs.length) none

theorem rotate_set {β : Type*} (l : List β) (first : Nat) {i : Nat} (x : β) (h : i < l.length) :
    (l.set ((first + i) % l.length) x).rotate first = (l.rotate first).set i x := by
  refine List.ext_getElem? fun k => ?_
  by_cases hk : k < l.length
  · rw [List.getElem?_rotate (by simpa using hk), List.length_set, List.getElem?_set,
      List.getElem?_set, List.length_rotate, if_pos (Nat.mod_lt _ (by omega)), if_pos h]
    by_cases hik : i = k
    · subst hik
      rw [if_pos (by rw [Nat.add_comm]), if_pos rfl]
    · rw [if_neg hik, if_neg, List.getElem?_rotate hk]
      intro heq
      have hsum : first + i = first + k :=
        eq_of_mod_eq_of_window (a := first) (by omega) (by omega) (by omega) (by omega)
          (heq.trans (by rw [Nat.add_comm]))
      exact hik (Nat.add_left_cancel hsum)
  · rw [List.getElem?_eq_none (by simp; omega), List.getElem?_eq_none (by simp; omega)]

/-- Reading one slot further: the first value moves to the end. -/
theorem rotate_succ_iff {β : Type*} {l rest : List β} {x : β} :
    l.rotate (first + 1) = rest ++ [x] ↔ l.rotate first = x :: rest := by
  have hone : (x :: rest).rotate 1 = rest ++ [x] := by
    rw [List.rotate_cons_succ, List.rotate_zero]
  rw [← List.rotate_rotate, ← hone]
  exact (List.rotate_injective 1).eq_iff

theorem laid_empty (n first : Nat) : Laid (List.replicate n none) first ([] : List α) := by
  simp [Laid]

/-- Only the residue of `first` counts, and so its residue by a multiple. -/
theorem laid_mod {n : Nat} (hdvd : slots.length ∣ n) :
    Laid slots (first % n) objs ↔ Laid slots first objs := by
  have hmod : slots.rotate (first % n) = slots.rotate first := by
    rw [← List.rotate_mod, Nat.mod_mod_of_dvd _ hdvd, List.rotate_mod]
  rw [Laid, Laid, hmod]

theorem Laid.getElem? (h : Laid slots first objs) {i : Nat} (hi : i < slots.length) :
    slots[(first + i) % slots.length]?
      = (objs.map some ++ List.replicate (slots.length - objs.length) none)[i]? := by
  rw [← h.2, List.getElem?_rotate hi, Nat.add_comm]

/-- The slot of a value. -/
theorem Laid.slot (h : Laid slots first objs) {i : Nat} (hi : i < objs.length) :
    slots[(first + i) % slots.length]? = some (some objs[i]) := by
  rw [h.getElem? (Nat.lt_of_lt_of_le hi h.1), List.getElem?_append_left (by simpa using hi)]
  simp [hi]

/-- The slot behind the values is free. -/
theorem Laid.free (h : Laid slots first objs) (hroom : objs.length < slots.length) :
    slots[(first + objs.length) % slots.length]? = some none := by
  rw [h.getElem? hroom, replicate_room hroom, List.getElem?_append_right (by simp)]
  simp

/-- **A value behind the others.** -/
theorem Laid.pushBack (h : Laid slots first objs) (hroom : objs.length < slots.length) :
    Laid (slots.set ((first + objs.length) % slots.length) (some obj)) first (objs ++ [obj]) := by
  refine ⟨by simpa using Nat.succ_le_of_lt hroom, ?_⟩
  rw [rotate_set slots first (some obj) hroom, h.2, replicate_room hroom]
  simp

/-- **The last value goes.** -/
theorem Laid.popBack (h : Laid slots first (objs ++ [obj])) :
    Laid (slots.set ((first + objs.length) % slots.length) none) first objs := by
  have hroom : objs.length < slots.length := by
    have := h.1
    rw [List.length_append, List.length_singleton] at this
    omega
  refine ⟨by simpa using Nat.le_of_lt hroom, ?_⟩
  rw [rotate_set slots first none hroom, h.2, List.length_set, replicate_room hroom]
  simp

/-- **The first value goes.** -/
theorem Laid.popFront (h : Laid slots first (obj :: objs)) :
    Laid (slots.set (first % slots.length) none) (first + 1) objs := by
  have hlen : objs.length + 1 ≤ slots.length := h.1
  refine ⟨by rw [List.length_set]; omega, ?_⟩
  have hset := rotate_set slots first (i := 0) none (by omega)
  rw [Nat.add_zero, h.2] at hset
  have hlast : objs.map some ++ List.replicate (slots.length - objs.length) none
      = (objs.map some ++ List.replicate (slots.length - (objs.length + 1)) none) ++ [(none : Option α)] := by
    have hsucc : slots.length - objs.length = slots.length - (objs.length + 1) + 1 := by omega
    rw [hsucc, List.replicate_succ', List.append_assoc]
  rw [List.length_set, hlast, rotate_succ_iff, hset]
  rfl

/-- The slot before the values is free. -/
theorem Laid.free_before (h : Laid slots (first + 1) objs) (hroom : objs.length < slots.length) :
    slots.rotate first
      = none :: (objs.map some ++ List.replicate (slots.length - (objs.length + 1)) none) := by
  have hsucc : slots.length - objs.length = slots.length - (objs.length + 1) + 1 := by omega
  have hlast := h.2
  rw [hsucc, List.replicate_succ', ← List.append_assoc] at hlast
  exact rotate_succ_iff.mp hlast

/-- **A value before the others.** -/
theorem Laid.pushFront (h : Laid slots (first + 1) objs) (hroom : objs.length < slots.length) :
    slots[first % slots.length]? = some none ∧
      Laid (slots.set (first % slots.length) (some obj)) first (obj :: objs) := by
  have hbefore := h.free_before hroom
  have hpos : 0 < slots.length := by omega
  constructor
  · have hget := List.getElem?_rotate (l := slots) (n := first) hpos
    rw [hbefore, Nat.zero_add] at hget
    exact hget.symm
  · have hset := rotate_set slots first (i := 0) (some obj) hpos
    rw [Nat.add_zero, hbefore] at hset
    refine ⟨by simpa using Nat.succ_le_of_lt hroom, ?_⟩
    rw [hset, List.length_set]
    rfl

/-- **A value replaced.** -/
theorem Laid.set (h : Laid slots first objs) {i : Nat} (hi : i < objs.length) :
    Laid (slots.set ((first + i) % slots.length) (some obj)) first (objs.set i obj) := by
  refine ⟨by simpa using h.1, ?_⟩
  rw [rotate_set slots first (some obj) (Nat.lt_of_lt_of_le hi h.1), h.2,
    List.set_append_left _ _ (by simpa using hi)]
  simp [List.map_set]

end PothosCore.Lib

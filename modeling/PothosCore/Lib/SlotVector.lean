import Mathlib.Data.List.Basic
import Mathlib.Data.List.DropRight

/-!
# PothosCore.Lib.SlotVector

A vector of pointers that may be null, read as a map from its indices: past the end is
null. It grows when a pointer is installed, and a pointer is removed by making it null and
stripping what is null at the end.
-/

namespace PothosCore.Lib.SlotVector

variable {α : Type*} {v : List (Option α)} {k : Nat} {a : α}

/-- The pointer at an index, if there is one. -/
def slot (v : List (Option α)) (k : Nat) : Option α := v[k]?.join

/-- `v.resize(n, nullptr)` -/
def resize (v : List (Option α)) (n : Nat) : List (Option α) := v.take n ++ List.replicate (n - v.length) none

/-- `v.resize(std::max(k+1, v.size()), nullptr); v[k] = a` -/
def install (v : List (Option α)) (k : Nat) (a : α) : List (Option α) :=
  (resize v (max (k + 1) v.length)).set k (some a)

/-- `while (not v.empty() and v.back() == nullptr) v.resize(v.size()-1)` -/
def strip (v : List (Option α)) : List (Option α) := v.rdropWhile (·.isNone)

/-- The last pointer is not null. -/
def Stripped (v : List (Option α)) : Prop := v.getLast? ≠ some none

theorem stripped_nil : Stripped ([] : List (Option α)) := nofun

theorem slot_eq_some : slot v k = some a ↔ v[k]? = some (some a) := by
  rw [slot, Option.join_eq_some_iff]

/-! ### Growing -/

theorem length_resize (n : Nat) : (resize v n).length = n := by
  rw [resize, List.length_append, List.length_take, List.length_replicate]
  omega

theorem slot_resize {n : Nat} (h : v.length ≤ n) : slot (resize v n) k = slot v k := by
  rw [slot, slot, resize, List.take_of_length_le h]
  by_cases hk : k < v.length
  · rw [List.getElem?_append_left hk]
  · have hk : v.length ≤ k := Nat.le_of_not_lt hk
    rw [List.getElem?_append_right hk, List.getElem?_eq_none hk]
    rw [List.getElem?_replicate]
    split <;> rfl

theorem length_install : (install v k a).length = max (k + 1) v.length := by
  rw [install, List.length_set, length_resize]

theorem slot_install (v : List (Option α)) (k : Nat) (a : α) (j : Nat) :
    slot (install v k a) j = if j = k then some a else slot v j := by
  by_cases hj : j = k
  · subst hj
    have hlt : j < (resize v (max (j + 1) v.length)).length := by
      rw [length_resize]
      omega
    rw [if_pos rfl, slot, install, List.getElem?_set_self hlt]
    rfl
  · rw [if_neg hj, slot, install, List.getElem?_set_ne (Ne.symm hj)]
    exact slot_resize (le_max_right _ _)

theorem stripped_install (h : Stripped v) : Stripped (install v k a) := by
  rw [Stripped, List.getLast?_eq_getElem?, length_install]
  intro hnull
  have hslot := slot_install v k a (max (k + 1) v.length - 1)
  rw [slot, hnull] at hslot
  by_cases hk : max (k + 1) v.length - 1 = k
  · rw [if_pos hk] at hslot
    cases hslot
  · -- then the last pointer is that of the old vector
    have hlen : max (k + 1) v.length = v.length := by omega
    rw [install, hlen, resize, List.take_length, Nat.sub_self, List.replicate_zero, List.append_nil,
      List.getElem?_set_ne (by omega)] at hnull
    rw [Stripped, List.getLast?_eq_getElem?] at h
    exact h hnull

/-! ### Shrinking -/

theorem slot_set_none (v : List (Option α)) (k j : Nat) :
    slot (v.set k none) j = if j = k then none else slot v j := by
  by_cases hj : j = k
  · subst hj
    rw [if_pos rfl, slot, List.getElem?_set]
    by_cases hlt : j < v.length
    · simp [hlt]
    · simp [hlt]
  · rw [if_neg hj, slot, slot, List.getElem?_set_ne (Ne.symm hj)]

theorem slot_strip (v : List (Option α)) (k : Nat) : slot (strip v) k = slot v k := by
  induction v using List.reverseRecOn with
  | nil => rfl
  | append_singleton v x ih =>
      rw [strip, List.rdropWhile_concat]
      cases x with
      | some a => rfl
      | none =>
          rw [if_pos (show (none : Option α).isNone = true from rfl)]
          have ih : slot (v.rdropWhile (·.isNone)) k = slot v k := ih
          rw [ih, slot, slot]
          by_cases hk : k < v.length
          · rw [List.getElem?_append_left hk]
          · have hk : v.length ≤ k := Nat.le_of_not_lt hk
            rw [List.getElem?_append_right hk, List.getElem?_eq_none hk]
            cases k - v.length with
            | zero => rfl
            | succ n => rfl

theorem length_strip_le (v : List (Option α)) : (strip v).length ≤ v.length :=
  List.IsPrefix.length_le (List.rdropWhile_prefix _ v)

/-- The last pointer of a vector that is not empty. -/
theorem Stripped.last (h : Stripped v) (hne : v ≠ []) : ∃ a, slot v (v.length - 1) = some a := by
  rw [Stripped, List.getLast?_eq_getElem?] at h
  have hlt : v.length - 1 < v.length := Nat.sub_lt (List.length_pos_of_ne_nil hne) Nat.one_pos
  rw [List.getElem?_eq_getElem hlt] at h
  cases hlast : v[v.length - 1] with
  | none => exact absurd (by rw [hlast]) h
  | some a => exact ⟨a, by rw [slot, List.getElem?_eq_getElem hlt, hlast]; rfl⟩

theorem lt_length (h : slot v k = some a) : k < v.length := by
  obtain ⟨hlt, -⟩ := List.getElem?_eq_some_iff.mp (slot_eq_some.mp h)
  exact hlt

theorem stripped_strip (v : List (Option α)) : Stripped (strip v) := by
  intro hnull
  have hne : v.rdropWhile (·.isNone) ≠ [] := by
    intro hnil
    rw [strip, hnil] at hnull
    cases hnull
  have hlast := List.rdropWhile_last_not (fun x : Option α => x.isNone) v hne
  rw [strip, List.getLast?_eq_some_getLast hne] at hnull
  rw [Option.some.inj hnull] at hlast
  exact hlast rfl

end PothosCore.Lib.SlotVector

import Mathlib.Data.List.DropRight

/-!
# PothosCore.Lib.Trim

A list without what it begins and ends with of a kind `p`: `trim p`. A list is its trimmed
part between two parts of the kind (`trim_split`), and the trimmed part is the only one
between two such parts that has none of the kind at its ends (`trim_eq`).
-/

namespace PothosCore.Lib

variable {α : Type*} {p : α → Bool}

def trim (p : α → Bool) (l : List α) : List α := (l.dropWhile p).rdropWhile p

/-- Neither the first nor the last element is of the kind. -/
def Trimmed (p : α → Bool) (l : List α) : Prop :=
  (∀ a ∈ l.head?, p a = false) ∧ ∀ a ∈ l.getLast?, p a = false

instance (l : List α) : Decidable (Trimmed p l) := inferInstanceAs (Decidable (_ ∧ _))

theorem trimmed_map {f : α → α} (hf : ∀ a, p (f a) = p a) {l : List α} : Trimmed p (l.map f) ↔ Trimmed p l := by
  rw [Trimmed, Trimmed, List.head?_map, List.getLast?_map]
  simp only [Option.mem_def, Option.map_eq_some_iff, forall_exists_index, and_imp, forall_apply_eq_imp_iff₂, hf]

theorem trimmed_of_all {l : List α} (h : ∀ a ∈ l, p a = false) : Trimmed p l :=
  ⟨fun a ha => h a (List.mem_of_mem_head? ha), fun a ha => h a (List.mem_of_getLast? ha)⟩

theorem dropWhile_of_head {l : List α} (h : ∀ a ∈ l.head?, p a = false) : l.dropWhile p = l := by
  cases l with
  | nil => rfl
  | cons a l => exact List.dropWhile_cons_of_neg (by rw [h a rfl]; exact Bool.false_ne_true)

theorem rdropWhile_append {l r : List α} (hr : ∀ a ∈ r, p a = true) (hl : ∀ a ∈ l.getLast?, p a = false) :
    (l ++ r).rdropWhile p = l := by
  rw [List.rdropWhile, List.reverse_append, List.dropWhile_append_of_pos (by simpa using hr),
    dropWhile_of_head (by simpa using hl), List.reverse_reverse]

/-- **What is left** of a list whose ends are of the kind. -/
theorem trim_eq {w l w' : List α} (hw : ∀ a ∈ w, p a = true) (hw' : ∀ a ∈ w', p a = true) (hl : Trimmed p l) :
    trim p (w ++ l ++ w') = l := by
  rw [trim, List.append_assoc, List.dropWhile_append_of_pos hw]
  cases l with
  | nil =>
      have hnil : w'.dropWhile p = [] := List.dropWhile_eq_nil_iff.mpr hw'
      rw [List.nil_append, hnil]
      rfl
  | cons a l =>
      have hhead : ∀ b ∈ (a :: l ++ w').head?, p b = false := hl.1
      rw [dropWhile_of_head hhead, rdropWhile_append hw' hl.2]

/-- **A list is its trimmed part** between two parts of the kind. -/
theorem trim_split (p : α → Bool) (l : List α) :
    ∃ w w', (∀ a ∈ w, p a = true) ∧ (∀ a ∈ w', p a = true) ∧ l = w ++ trim p l ++ w' := by
  refine ⟨l.takeWhile p, (l.dropWhile p).rtakeWhile p, fun a ha => List.mem_takeWhile_imp ha, ?_, ?_⟩
  · intro a ha
    exact List.mem_rtakeWhile_imp ha
  · rw [trim, List.append_assoc, List.rdropWhile_append_rtakeWhile, List.takeWhile_append_dropWhile]

theorem dropWhile_head {l : List α} {a : α} (h : (l.dropWhile p).head? = some a) : p a = false := by
  have hnot := List.head?_dropWhile_not p l
  rw [h] at hnot
  exact hnot

theorem trimmed_trim (p : α → Bool) (l : List α) : Trimmed p (trim p l) := by
  constructor
  · intro a ha
    have ha' : ((l.dropWhile p).rdropWhile p).head? = some a := ha
    obtain ⟨r, hr⟩ := List.rdropWhile_prefix p (l.dropWhile p)
    have hhead : (l.dropWhile p).head? = some a := by
      rw [← hr, List.head?_append, ha']
      rfl
    exact dropWhile_head hhead
  · intro a ha
    rw [trim, List.rdropWhile, List.getLast?_reverse] at ha
    exact dropWhile_head ha

end PothosCore.Lib

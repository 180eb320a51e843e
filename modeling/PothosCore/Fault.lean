import Mathlib.Algebra.Ring.Int.Defs
import Mathlib.Algebra.Ring.Nat
import Mathlib.Data.List.Forall2

/-!
# PothosCore.Fault

How a modelled call ends when it does not return: a failed `assert`, a C++
exception, an access the language leaves undefined, or a loop that did not
stop within its bound. Calls that return are taken apart by `bind_ok` and
`ok_of_guarded`, and a call for each element of a list by `mapM_ok_iff`.
-/

namespace PothosCore

/-- The ways a modelled call fails. -/
inductive Fault
  /-- A failed `assert(expr)`. -/
  | assertion (expr : String)
  /-- A thrown exception: its type, the location text and the message. -/
  | thrown (type what message : String)
  /-- An out-of-range access or a null dereference. -/
  | undefined (expr : String)
  /-- A loop ran out of the iterations its model allows. -/
  | diverged
  deriving Repr, DecidableEq

variable {α β : Type}

theorem bind_ok {x : Except Fault α} {f : α → Except Fault β} {b : β} (h : x >>= f = .ok b) :
    ∃ a, x = .ok a ∧ f a = .ok b := by
  cases x with
  | error fault => cases h
  | ok a => exact ⟨a, rfl, h⟩

theorem map_ok {x : Except Fault α} {f : α → β} {b : β} (h : x.map f = .ok b) : ∃ a, x = .ok a ∧ f a = b := by
  cases x with
  | error fault => cases h
  | ok a => exact ⟨a, rfl, Except.ok.inj h⟩

theorem ok_of_toOption {x : Except Fault α} {a : α} (h : x.toOption = some a) : x = .ok a := by
  cases x with
  | error fault => cases h
  | ok a' =>
      cases h
      rfl

/-- A step that is taken only where it is admitted, and only if the call returns. -/
theorem ok_of_guarded {p : Prop} [Decidable p] {x : Except Fault α} {a : α}
    (h : (if p then x.toOption else none) = some a) : p ∧ x = .ok a := by
  by_cases hp : p
  · rw [if_pos hp] at h
    exact ⟨hp, ok_of_toOption h⟩
  · rw [if_neg hp] at h
    cases h

/-- A call for each element returns if each call does. -/
theorem mapM_ok_iff {f : α → Except Fault β} {l : List α} {out : List β} :
    l.mapM f = .ok out ↔ List.Forall₂ (fun a b => f a = .ok b) l out := by
  induction l generalizing out with
  | nil =>
      rw [List.mapM_nil, List.forall₂_nil_left_iff]
      exact ⟨fun h => (Except.ok.inj h).symm, fun h => by rw [h]; rfl⟩
  | cons a l ih =>
      rw [List.mapM_cons]
      constructor
      · intro h
        obtain ⟨b, hb, h⟩ := bind_ok h
        obtain ⟨out', hout', h⟩ := bind_ok h
        cases h
        exact .cons hb (ih.mp hout')
      · intro h
        cases h with
        | cons hb hout =>
            rw [hb, ih.mpr hout]
            rfl

theorem mapM_ok_map_iff {f : α → Except Fault β} {g : α → β} {l : List α} :
    l.mapM f = .ok (l.map g) ↔ ∀ a ∈ l, f a = .ok (g a) := by
  rw [mapM_ok_iff, List.forall₂_map_right_iff, List.forall₂_same]

/-- It fails if one of them does. -/
theorem mapM_error_iff {f : α → Except Fault β} {l : List α} :
    (∃ fault, l.mapM f = .error fault) ↔ ∃ a ∈ l, ∃ fault, f a = .error fault := by
  induction l with
  | nil =>
      refine iff_of_false ?_ (fun ⟨_, ha, _⟩ => nomatch ha)
      rintro ⟨fault, h⟩
      cases h
  | cons a l ih =>
      rw [List.mapM_cons, List.exists_mem_cons_iff]
      cases ha : f a with
      | error fault => exact iff_of_true ⟨fault, rfl⟩ (.inl ⟨fault, rfl⟩)
      | ok b =>
          rw [← ih]
          cases l.mapM f with
          | error fault => exact iff_of_true ⟨fault, rfl⟩ (.inr ⟨fault, rfl⟩)
          | ok out =>
              refine iff_of_false (fun ⟨_, h⟩ => nomatch h) ?_
              rintro (⟨_, h⟩ | ⟨_, h⟩)
              · cases h
              · cases h

end PothosCore

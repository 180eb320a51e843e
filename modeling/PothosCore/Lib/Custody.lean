import Mathlib.Tactic.Basic

/-!
# PothosCore.Lib.Custody

Tokens that are out, each with one owner; an owner has at most one token. A step passes a
token from one owner to another (`Custody.pass`), brings a token out (`Custody.issue`), or
takes one in (`Custody.redeem`); the others keep what they have. So what is out and what
the owners have are the same at all times, and no token has two owners.
-/

namespace PothosCore.Lib

variable {O ι : Type*} {owned owned' : O → Option ι} {out out' : ι → Prop}

/-- What is out is what the owners have, each token with one of them. -/
structure Custody (owned : O → Option ι) (out : ι → Prop) : Prop where
  unique : ∀ {o o' : O} {i : ι}, owned o = some i → owned o' = some i → o = o'
  out_iff : ∀ i, out i ↔ ∃ o, owned o = some i

namespace Custody

theorem congr (h : Custody owned out) (howned : ∀ o, owned' o = owned o) (hout : ∀ i, out' i ↔ out i) :
    Custody owned' out' := by
  obtain rfl : owned' = owned := funext howned
  exact ⟨h.unique, fun i => (hout i).trans (h.out_iff i)⟩

/-- One owner passes its token to another. -/
theorem pass (h : Custody owned out) (o₁ o₂ : O) {i : ι} (h₁ : owned o₁ = some i) (h₁' : owned' o₁ = none)
    (h₂ : owned o₂ = none) (h₂' : owned' o₂ = some i) (hrest : ∀ o, o ≠ o₁ → o ≠ o₂ → owned' o = owned o)
    (hout : ∀ i, out' i ↔ out i) : Custody owned' out' := by
  -- who has a token, seen from before
  have hback : ∀ o j, owned' o = some j → o = o₂ ∧ j = i ∨ o ≠ o₁ ∧ o ≠ o₂ ∧ owned o = some j := by
    intro o j ho
    by_cases ho₁ : o = o₁
    · simp [ho₁, h₁'] at ho
    · by_cases ho₂ : o = o₂
      · subst ho₂
        exact .inl ⟨rfl, by simpa [h₂'] using ho.symm⟩
      · exact .inr ⟨ho₁, ho₂, hrest o ho₁ ho₂ ▸ ho⟩
  refine ⟨fun {o o' j} ho ho' => ?_, fun j => ?_⟩
  · rcases hback o j ho with ⟨rfl, rfl⟩ | ⟨hne, -, hold⟩ <;> rcases hback o' _ ho' with ⟨rfl, hj⟩ | ⟨hne', -, hold'⟩
    · rfl
    · exact absurd (h.unique hold' h₁) hne'
    · exact absurd (h.unique (hj ▸ hold) h₁) hne
    · exact h.unique hold hold'
  · rw [hout, h.out_iff]
    constructor
    · rintro ⟨o, ho⟩
      by_cases ho₁ : o = o₁
      · subst ho₁
        exact ⟨o₂, by rw [h₂', ← h₁, ho]⟩
      · have ho₂ : o ≠ o₂ := fun heq => by simp [heq, h₂] at ho
        exact ⟨o, by rw [hrest o ho₁ ho₂, ho]⟩
    · rintro ⟨o, ho⟩
      rcases hback o j ho with ⟨-, rfl⟩ | ⟨-, -, hold⟩
      · exact ⟨o₁, h₁⟩
      · exact ⟨o, hold⟩

/-- A token comes out, to an owner that has none. -/
theorem issue (h : Custody owned out) (o₁ : O) {i : ι} (hi : ¬ out i) (h₁ : owned o₁ = none)
    (h₁' : owned' o₁ = some i) (hrest : ∀ o, o ≠ o₁ → owned' o = owned o) (hout : ∀ j, out' j ↔ j = i ∨ out j) :
    Custody owned' out' := by
  have hback : ∀ o j, owned' o = some j → o = o₁ ∧ j = i ∨ o ≠ o₁ ∧ owned o = some j := by
    intro o j ho
    by_cases ho₁ : o = o₁
    · subst ho₁
      exact .inl ⟨rfl, by simpa [h₁'] using ho.symm⟩
    · exact .inr ⟨ho₁, hrest o ho₁ ▸ ho⟩
  have hnot : ∀ o, owned o ≠ some i := fun o ho => hi ((h.out_iff i).mpr ⟨o, ho⟩)
  refine ⟨fun {o o' j} ho ho' => ?_, fun j => ?_⟩
  · rcases hback o j ho with ⟨rfl, rfl⟩ | ⟨-, hold⟩ <;> rcases hback o' _ ho' with ⟨rfl, hj⟩ | ⟨-, hold'⟩
    · rfl
    · exact absurd hold' (hnot o')
    · exact absurd (hj ▸ hold) (hnot o)
    · exact h.unique hold hold'
  · rw [hout, h.out_iff]
    constructor
    · rintro (rfl | ⟨o, ho⟩)
      · exact ⟨o₁, h₁'⟩
      · have ho₁ : o ≠ o₁ := fun heq => by simp [heq, h₁] at ho
        exact ⟨o, by rw [hrest o ho₁, ho]⟩
    · rintro ⟨o, ho⟩
      rcases hback o j ho with ⟨-, rfl⟩ | ⟨-, hold⟩
      · exact .inl rfl
      · exact .inr ⟨o, hold⟩

/-- The owner of a token gives it back. -/
theorem redeem (h : Custody owned out) {o₁ : O} {i : ι} (h₁ : owned o₁ = some i) (h₁' : owned' o₁ = none)
    (hrest : ∀ o, o ≠ o₁ → owned' o = owned o) (hout : ∀ j, out' j ↔ j ≠ i ∧ out j) : Custody owned' out' := by
  have hback : ∀ o j, owned' o = some j → o ≠ o₁ ∧ owned o = some j := by
    intro o j ho
    have ho₁ : o ≠ o₁ := fun heq => by simp [heq, h₁'] at ho
    exact ⟨ho₁, hrest o ho₁ ▸ ho⟩
  refine ⟨fun ho ho' => h.unique (hback _ _ ho).2 (hback _ _ ho').2, fun j => ?_⟩
  rw [hout, h.out_iff]
  constructor
  · rintro ⟨hj, o, ho⟩
    have ho₁ : o ≠ o₁ := fun heq => hj (by simpa [heq, h₁] using ho.symm)
    exact ⟨o, by rw [hrest o ho₁, ho]⟩
  · rintro ⟨o, ho⟩
    obtain ⟨hne, hold⟩ := hback o j ho
    exact ⟨fun heq => hne (h.unique (heq ▸ hold) h₁), o, hold⟩

end Custody

end PothosCore.Lib

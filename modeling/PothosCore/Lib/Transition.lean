import Mathlib.Algebra.Ring.Int.Defs
import Mathlib.Algebra.Ring.Nat
import Mathlib.Data.List.Basic

/-!
# PothosCore.Lib.Transition

Finite executions of a labelled transition system, over any state type `σ` and
any label type `α`. A system is a relation `step : σ → α → σ → Prop`; a system
given by a partial function is read as one through `ofPartial`.

Two rules carry every run-level result: `Exec.invariant` (a predicate that
holds at the start and is kept by each step holds at the end) and its relative
form for systems whose steps are restricted by a condition (`restrict`). A bound on
the weight of all labels together has a rule of its own, `Exec.weighted_invariant`.
-/

namespace PothosCore.Lib

variable {σ α : Type*}

/-- `Exec step s as t`: the labels `as`, taken one after the other, lead from
`s` to `t`. -/
inductive Exec (step : σ → α → σ → Prop) : σ → List α → σ → Prop
  | nil (s : σ) : Exec step s [] s
  | cons {s t u : σ} {a : α} {as : List α} :
      step s a t → Exec step t as u → Exec step s (a :: as) u

/-- The relation of a partial step function. -/
def ofPartial (f : σ → α → Option σ) : σ → α → σ → Prop :=
  fun s a t => f s a = some t

/-- The steps of `step` that satisfy `cond` in the state they start from. -/
def restrict (step : σ → α → σ → Prop) (cond : σ → α → Prop) : σ → α → σ → Prop :=
  fun s a t => step s a t ∧ cond s a

/-- A partial step function that refuses the steps outside `cond`. -/
def guarded (f : σ → α → Option σ) (cond : σ → α → Prop) [∀ s a, Decidable (cond s a)] :
    σ → α → Option σ :=
  fun s a => if cond s a then f s a else none

/-- Run a partial step function over a list of labels. -/
def runPartial (f : σ → α → Option σ) : σ → List α → Option σ
  | s, [] => some s
  | s, a :: as => (f s a).bind fun t => runPartial f t as

namespace Exec

variable {step : σ → α → σ → Prop}

/-- **The invariant rule.** What one step preserves, a whole execution
preserves. -/
theorem invariant {P : σ → Prop} (hstep : ∀ s a t, P s → step s a t → P t)
    {s t : σ} {as : List α} (h : Exec step s as t) (hs : P s) : P t := by
  induction h with
  | nil => exact hs
  | cons hst _ ih => exact ih (hstep _ _ _ hs hst)

/-- The invariant rule for an invariant that knows the weight of the labels so far, as
long as that weight stays below a bound. -/
theorem weighted_invariant {P : ℕ → σ → Prop} {weight : α → ℕ} {bound : ℕ}
    (hstep : ∀ k s a t, P k s → k + weight a < bound → step s a t → P (k + weight a) t)
    {k : ℕ} {s t : σ} {as : List α} (h : Exec step s as t) (hs : P k s)
    (hbound : k + (as.map weight).sum < bound) : P (k + (as.map weight).sum) t := by
  induction h generalizing k with
  | nil => exact hs
  | cons hst _ ih =>
      rw [List.map_cons, List.sum_cons, ← Nat.add_assoc] at hbound ⊢
      exact ih (hstep _ _ _ _ hs (by omega) hst) hbound

theorem append {s t u : σ} {as bs : List α} (h₁ : Exec step s as t)
    (h₂ : Exec step t bs u) : Exec step s (as ++ bs) u := by
  induction h₁ with
  | nil => exact h₂
  | cons hst _ ih => exact .cons hst (ih h₂)

theorem snoc {s t u : σ} {as : List α} {a : α} (h₁ : Exec step s as t)
    (h₂ : step t a u) : Exec step s (as ++ [a]) u :=
  h₁.append (.cons h₂ (.nil u))

/-- The last step of an execution. -/
theorem of_snoc {s u : σ} {as : List α} {a : α} (h : Exec step s (as ++ [a]) u) :
    ∃ t, Exec step s as t ∧ step t a u := by
  induction as generalizing s with
  | nil =>
      cases h with
      | cons hst hrest =>
          cases hrest
          exact ⟨s, .nil s, hst⟩
  | cons b as ih =>
      cases h with
      | cons hst hrest =>
          obtain ⟨t, hrun, hlast⟩ := ih hrest
          exact ⟨t, .cons hst hrun, hlast⟩

/-- **The refinement rule.** Let each step either be a step of another system, seen through
`abs`, or change nothing there; a step that changes nothing has a label that is not
`visible`. Then a run is a run of the other system with the same visible labels. -/
theorem refine {τ : Type*} {step' : τ → α → τ → Prop} {P : σ → Prop} {abs : σ → τ} {visible : α → Bool}
    (hstep : ∀ s a t, P s → step s a t → P t ∧ (visible a = false ∧ abs t = abs s ∨ step' (abs s) a (abs t)))
    {s t : σ} {as : List α} (h : Exec step s as t) (hs : P s) :
    ∃ bs, bs.Sublist as ∧ bs.filter visible = as.filter visible ∧ Exec step' (abs s) bs (abs t) := by
  induction h with
  | nil s => exact ⟨[], .slnil, rfl, .nil _⟩
  | @cons s t u a as hst _ ih =>
      obtain ⟨ht, hrefines⟩ := hstep _ _ _ hs hst
      obtain ⟨bs, hsub, hfilter, hrun⟩ := ih ht
      rcases hrefines with ⟨hhidden, heq⟩ | hstep'
      · exact ⟨bs, hsub.cons a, by simp [hhidden, hfilter], heq ▸ hrun⟩
      · refine ⟨a :: bs, hsub.cons_cons a, ?_, .cons hstep' hrun⟩
        cases hvisible : visible a <;> simp [hvisible, hfilter]

/-- An execution of some labels and then others. -/
theorem of_append {s u : σ} {as bs : List α} (h : Exec step s (as ++ bs) u) :
    ∃ t, Exec step s as t ∧ Exec step t bs u := by
  induction as generalizing s with
  | nil => exact ⟨s, .nil s, h⟩
  | cons a as ih =>
      cases h with
      | cons hst hrest =>
          obtain ⟨t, hrun, hlast⟩ := ih hrest
          exact ⟨t, .cons hst hrun, hlast⟩

/-- A condition that all labels meet restricts nothing. -/
theorem restrict_of_forall {cond : α → Prop} {s t : σ} {as : List α} (h : Exec step s as t)
    (has : ∀ a ∈ as, cond a) : Exec (restrict step fun _ a => cond a) s as t := by
  induction h with
  | nil => exact .nil _
  | cons hst _ ih =>
      obtain ⟨ha, has⟩ := List.forall_mem_cons.mp has
      exact .cons ⟨hst, ha⟩ (ih has)

/-- Forgetting a restriction keeps the execution. -/
theorem of_restrict {cond : σ → α → Prop} {s t : σ} {as : List α}
    (h : Exec (restrict step cond) s as t) : Exec step s as t := by
  induction h with
  | nil => exact .nil _
  | cons hst _ ih => exact .cons hst.1 ih

end Exec

/-- A successful run of a partial step function is an execution. -/
theorem exec_of_runPartial {f : σ → α → Option σ} :
    ∀ {as : List α} {s t : σ}, runPartial f s as = some t → Exec (ofPartial f) s as t
  | [], s, t, h => by
      obtain rfl : s = t := by simpa [runPartial] using h
      exact .nil s
  | a :: as, s, t, h => by
      cases hf : f s a with
      | none => simp [runPartial, hf] at h
      | some s' =>
          have h' : runPartial f s' as = some t := by simpa [runPartial, hf] using h
          exact .cons hf (exec_of_runPartial h')

theorem ofPartial_guarded (f : σ → α → Option σ) (cond : σ → α → Prop)
    [∀ s a, Decidable (cond s a)] :
    ofPartial (guarded f cond) = restrict (ofPartial f) cond := by
  funext s a t
  by_cases h : cond s a <;> simp [ofPartial, guarded, restrict, h]

end PothosCore.Lib

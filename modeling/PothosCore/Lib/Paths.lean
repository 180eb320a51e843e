import Mathlib.Logic.Basic

/-!
# PothosCore.Lib.Paths

Paths in a graph whose edges `E` lead from an outlet to an inlet, and on from an inlet
to the outlets it feeds, which `T` says. Two kinds of nodes in between can be dealt with
one after the other: the paths through both are the paths through the second kind whose
edges are the paths through the first.
-/

namespace PothosCore.Lib

variable {α : Type*}

/-- `b` is reached from `a` by an edge, or by edges with inlets and outlets between. -/
inductive Joined (T E : α → α → Prop) : α → α → Prop
  | direct {a b : α} : E a b → Joined T E a b
  | through {a b c d : α} : E a b → T b c → Joined T E c d → Joined T E a d

namespace Joined

variable {T T₁ T₂ E E' : α → α → Prop} {a b c d : α}

theorem append (h : Joined T E a b) (ht : T b c) (h' : Joined T E c d) : Joined T E a d := by
  induction h with
  | direct he => exact .through he ht h'
  | through he hT _ ih => exact .through he hT (ih ht)

theorem mono (hT : ∀ a b, T₁ a b → T₂ a b) (h : Joined T₁ E a b) : Joined T₂ E a b := by
  induction h with
  | direct he => exact .direct he
  | through he ht _ ih => exact .through he (hT _ _ ht) ih

/-- **Two kinds of nodes, one after the other.** -/
theorem or_iff : Joined (fun a b => T₁ a b ∨ T₂ a b) E a b ↔ Joined T₂ (Joined T₁ E) a b := by
  constructor
  · intro h
    induction h with
    | direct he => exact .direct (.direct he)
    | through he ht _ ih =>
        rcases ht with ht | ht
        · cases ih with
          | direct h₁ => exact .direct (.through he ht h₁)
          | through h₁ ht₂ hrest => exact .through (.through he ht h₁) ht₂ hrest
        · exact .through (.direct he) ht ih
  · intro h
    induction h with
    | direct h₁ => exact h₁.mono (fun _ _ => .inl)
    | through h₁ ht _ ih => exact (h₁.mono (fun _ _ => .inl)).append (.inr ht) ih

/-- A path between good nodes, with good nodes between, does not depend on edges of
other nodes. -/
theorem congr_on {good : α → Prop} (hE : ∀ a b, good a → good b → E a b → E' a b)
    (hT : ∀ a b, T a b → good a ∧ good b) (ha : good a) (hb : good b) (h : Joined T E a b) :
    Joined T E' a b := by
  induction h with
  | direct he => exact .direct (hE _ _ ha hb he)
  | through he ht _ ih => exact .through (hE _ _ ha (hT _ _ ht).1 he) ht (ih (hT _ _ ht).2 hb)

end Joined

end PothosCore.Lib

import Mathlib.Data.List.Nodup

/-!
# PothosCore.Lib.PathTree

Trees with a value at each node and the subtrees of a node by key, as nested maps make
them. A walk down a path creates the nodes that are not there, with a default value, so
it may change the tree even if it only wants to read; `descend` is such a walk, with a
function that is applied at its end.

A node that is not there and a node with the default value are told apart by `has`
only: `sub` and `valueAt` read the default for both. What a walk does is said by what
`sub` and `valueAt` read afterwards.
-/

namespace PothosCore.Lib

universe u v

/-- A value, and the subtrees by their keys. -/
inductive PathTree (κ : Type u) (α : Type v)
  | node (value : α) (children : List (κ × PathTree κ α))

namespace PathTree

variable {κ : Type u} {α : Type v} {β : Type*}

/-- Induction over the subtrees. -/
theorem induct {motive : PathTree κ α → Prop}
    (node : ∀ value children, (∀ k s, (k, s) ∈ children → motive s) → motive (.node value children)) :
    ∀ t, motive t
  | .node value children => node value children (go children)
where
  go : ∀ children : List (κ × PathTree κ α), ∀ k s, (k, s) ∈ children → motive s
    | [], _, _, h => nomatch h
    | (k', s') :: children, k, s, h => by
        rcases List.mem_cons.mp h with h | h
        · obtain ⟨rfl, rfl⟩ := Prod.mk.inj h
          exact induct node s
        · exact go children k s h

/-- The value of the root. -/
def value : PathTree κ α → α
  | .node value _ => value

/-- The subtrees of the root. -/
def children : PathTree κ α → List (κ × PathTree κ α)
  | .node _ children => children

/-- A root with no subtrees. -/
def leaf (d : α) : PathTree κ α := .node d []

@[simp] theorem value_node (a : α) (cs : List (κ × PathTree κ α)) : (node a cs).value = a := rfl
@[simp] theorem children_node (a : α) (cs : List (κ × PathTree κ α)) : (node a cs).children = cs := rfl
@[simp] theorem value_leaf (d : α) : (leaf d : PathTree κ α).value = d := rfl
@[simp] theorem children_leaf (d : α) : (leaf d : PathTree κ α).children = [] := rfl

/-- Change the value of the root. -/
def mapValue (f : α → α) (t : PathTree κ α) : PathTree κ α := .node (f t.value) t.children

@[simp] theorem mapValue_id (t : PathTree κ α) : t.mapValue (fun a => a) = t := by cases t; rfl

/-- The number of nodes whose value satisfies `p`. -/
def count (p : α → Bool) : PathTree κ α → Nat
  | .node a cs => (if p a then 1 else 0) + countIn cs
where
  countIn : List (κ × PathTree κ α) → Nat
    | [] => 0
    | (_, s) :: cs => count p s + countIn cs

/-- No two subtrees of a node have the same key. -/
inductive Keyed : PathTree κ α → Prop
  | node {a : α} {cs : List (κ × PathTree κ α)} :
      (cs.map Prod.fst).Nodup → (∀ k s, (k, s) ∈ cs → Keyed s) → Keyed (.node a cs)

theorem keyed_leaf (d : α) : Keyed (leaf d : PathTree κ α) :=
  .node List.nodup_nil (fun _ _ h => nomatch h)

theorem Keyed.mapValue {t : PathTree κ α} (h : Keyed t) (f : α → α) : Keyed (t.mapValue f) := by
  cases h with
  | node hkeys hsub => exact .node hkeys hsub

theorem countIn_ne_zero_iff {p : α → Bool} {cs : List (κ × PathTree κ α)} :
    count.countIn p cs ≠ 0 ↔ ∃ k s, (k, s) ∈ cs ∧ count p s ≠ 0 := by
  induction cs with
  | nil => simp [count.countIn]
  | cons c cs ih =>
      obtain ⟨k, s⟩ := c
      rw [count.countIn, ne_eq, Nat.add_eq_zero_iff, not_and_or, ← ne_eq (count.countIn p cs), ih]
      constructor
      · rintro (h | ⟨k', s', hmem, h⟩)
        · exact ⟨k, s, List.mem_cons_self, h⟩
        · exact ⟨k', s', List.mem_cons_of_mem _ hmem, h⟩
      · rintro ⟨k', s', hmem, h⟩
        rcases List.mem_cons.mp hmem with hmem | hmem
        · obtain ⟨rfl, rfl⟩ := Prod.mk.inj hmem
          exact .inl h
        · exact .inr ⟨k', s', hmem, h⟩

variable [DecidableEq κ]

/-! ### One step down -/

/-- The subtree at a key. -/
def childIn (k : κ) : List (κ × PathTree κ α) → Option (PathTree κ α)
  | [] => none
  | (k', s) :: cs => if k' = k then some s else childIn k cs

/-- Put a subtree at a key, in the place of the one that is there. -/
def putIn (k : κ) (s : PathTree κ α) : List (κ × PathTree κ α) → List (κ × PathTree κ α)
  | [] => [(k, s)]
  | (k', s') :: cs => if k' = k then (k', s) :: cs else (k', s') :: putIn k s cs

-- the equations of the recursive functions are made here, once for all that unfold them
attribute [local simp] childIn putIn

def child (t : PathTree κ α) (k : κ) : Option (PathTree κ α) := childIn k t.children

/-- The subtree at a key, or a new one. -/
def childD (t : PathTree κ α) (d : α) (k : κ) : PathTree κ α := (t.child k).getD (leaf d)

def setChild (t : PathTree κ α) (k : κ) (s : PathTree κ α) : PathTree κ α :=
  .node t.value (putIn k s t.children)

@[simp] theorem value_setChild (k : κ) (s t : PathTree κ α) : (t.setChild k s).value = t.value := rfl

@[simp] theorem child_mapValue (k : κ) (f : α → α) (t : PathTree κ α) :
    (t.mapValue f).child k = t.child k := rfl

@[simp] theorem child_leaf (k : κ) (d : α) : (leaf d : PathTree κ α).child k = none := rfl

theorem childIn_putIn (k k' : κ) (s : PathTree κ α) (cs : List (κ × PathTree κ α)) :
    childIn k' (putIn k s cs) = if k' = k then some s else childIn k' cs := by
  induction cs with
  | nil => simp [putIn, childIn, eq_comm]
  | cons c cs ih =>
      obtain ⟨j, r⟩ := c
      rw [putIn]
      by_cases hj : j = k
      · subst hj
        rw [if_pos rfl, childIn, childIn]
        by_cases hk : j = k'
        · rw [if_pos hk, if_pos hk.symm]
        · rw [if_neg hk, if_neg (Ne.symm hk), if_neg hk]
      · rw [if_neg hj, childIn, childIn, ih]
        by_cases hk : j = k'
        · rw [if_pos hk, if_pos hk, if_neg (hk ▸ hj)]
        · rw [if_neg hk, if_neg hk]

theorem child_setChild (k k' : κ) (s t : PathTree κ α) :
    (t.setChild k s).child k' = if k' = k then some s else t.child k' :=
  childIn_putIn k k' s t.children

theorem childD_setChild (d : α) (k k' : κ) (s t : PathTree κ α) :
    (t.setChild k s).childD d k' = if k' = k then s else t.childD d k' := by
  rw [childD, child_setChild]
  split <;> rfl

@[simp] theorem childD_mapValue (d : α) (k : κ) (f : α → α) (t : PathTree κ α) :
    (t.mapValue f).childD d k = t.childD d k := rfl

@[simp] theorem childD_leaf (d : α) (k : κ) : (leaf d : PathTree κ α).childD d k = leaf d := rfl

theorem putIn_of_childIn {k : κ} {s : PathTree κ α} {cs : List (κ × PathTree κ α)}
    (h : childIn k cs = some s) : putIn k s cs = cs := by
  induction cs with
  | nil => cases h
  | cons c cs ih =>
      obtain ⟨j, r⟩ := c
      rw [childIn] at h
      rw [putIn]
      by_cases hj : j = k
      · rw [if_pos hj] at h ⊢
        rw [Option.some.inj h]
      · rw [if_neg hj] at h ⊢
        rw [ih h]

/-- Putting back what is there changes nothing. -/
theorem setChild_of_child {k : κ} {s t : PathTree κ α} (h : t.child k = some s) : t.setChild k s = t := by
  cases t
  rw [setChild, putIn_of_childIn h, value_node, children_node]

theorem mem_of_childIn {k : κ} {s : PathTree κ α} {cs : List (κ × PathTree κ α)}
    (h : childIn k cs = some s) : (k, s) ∈ cs := by
  induction cs with
  | nil => cases h
  | cons c cs ih =>
      obtain ⟨j, r⟩ := c
      rw [childIn] at h
      by_cases hj : j = k
      · rw [if_pos hj] at h
        rw [hj, Option.some.inj h]
        exact List.mem_cons_self
      · rw [if_neg hj] at h
        exact List.mem_cons_of_mem _ (ih h)

/-- With distinct keys every subtree is found. -/
theorem childIn_of_mem {k : κ} {s : PathTree κ α} {cs : List (κ × PathTree κ α)}
    (hkeys : (cs.map Prod.fst).Nodup) (h : (k, s) ∈ cs) : childIn k cs = some s := by
  induction cs with
  | nil => cases h
  | cons c cs ih =>
      obtain ⟨j, r⟩ := c
      rw [List.map_cons, List.nodup_cons] at hkeys
      rw [childIn]
      rcases List.mem_cons.mp h with h | h
      · obtain ⟨rfl, rfl⟩ := Prod.mk.inj h
        exact if_pos rfl
      · have hne : j ≠ k := by
          intro hj
          subst hj
          exact hkeys.1 (List.mem_map.mpr ⟨_, h, rfl⟩)
        rw [if_neg hne]
        exact ih hkeys.2 h

theorem mem_putIn {k j : κ} {s r : PathTree κ α} {cs : List (κ × PathTree κ α)}
    (h : (j, r) ∈ putIn k s cs) : (j, r) ∈ cs ∨ r = s := by
  induction cs with
  | nil =>
      obtain ⟨-, rfl⟩ := Prod.mk.inj (List.mem_singleton.mp h)
      exact .inr rfl
  | cons c cs ih =>
      obtain ⟨i, t⟩ := c
      rw [putIn] at h
      split at h
      · rcases List.mem_cons.mp h with h | h
        · obtain ⟨-, rfl⟩ := Prod.mk.inj h
          exact .inr rfl
        · exact .inl (List.mem_cons_of_mem _ h)
      · rcases List.mem_cons.mp h with h | h
        · exact .inl (h ▸ List.mem_cons_self)
        · exact (ih h).imp_left (List.mem_cons_of_mem _)

theorem keys_putIn (k : κ) (s : PathTree κ α) (cs : List (κ × PathTree κ α)) :
    (putIn k s cs).map Prod.fst =
      if k ∈ cs.map Prod.fst then cs.map Prod.fst else cs.map Prod.fst ++ [k] := by
  induction cs with
  | nil => simp [putIn]
  | cons c cs ih =>
      obtain ⟨j, r⟩ := c
      rw [putIn]
      by_cases hj : j = k
      · subst hj
        simp
      · rw [if_neg hj, List.map_cons, ih, List.map_cons]
        by_cases hk : k ∈ cs.map Prod.fst
        · rw [if_pos hk, if_pos (List.mem_cons_of_mem _ hk)]
        · rw [if_neg hk, if_neg (by simpa [Ne.symm hj] using hk), List.cons_append]

theorem Keyed.setChild {t s : PathTree κ α} (ht : Keyed t) (hs : Keyed s) (k : κ) :
    Keyed (t.setChild k s) := by
  cases ht with
  | @node a cs hkeys hsub =>
      refine .node ?_ (fun j r hr => ?_)
      · rw [keys_putIn]
        split
        · exact hkeys
        · next hk => exact List.nodup_append.mpr ⟨hkeys, List.nodup_singleton k, by
            rintro x hx y hy rfl
            rw [List.mem_singleton.mp hy] at hx
            exact hk hx⟩
      · rcases mem_putIn hr with hr | rfl
        · exact hsub j r hr
        · exact hs

theorem Keyed.childD {t : PathTree κ α} (ht : Keyed t) (d : α) (k : κ) : Keyed (t.childD d k) := by
  cases ht with
  | @node a cs hkeys hsub =>
      cases hc : childIn k cs with
      | none =>
          rw [PathTree.childD, child, children_node, hc]
          exact keyed_leaf d
      | some s =>
          rw [PathTree.childD, child, children_node, hc]
          exact hsub k s (mem_of_childIn hc)

/-! ### Along a path -/

/-- Is there a node at the path? -/
def has : List κ → PathTree κ α → Bool
  | [], _ => true
  | k :: p, t =>
      match t.child k with
      | none => false
      | some s => has p s

/-- The subtree at a path, or a new one. -/
def sub (d : α) : List κ → PathTree κ α → PathTree κ α
  | [], t => t
  | k :: p, t => sub d p (t.childD d k)

/-- The value at a path, or the default. -/
def valueAt (d : α) (p : List κ) (t : PathTree κ α) : α := (sub d p t).value

/-- Walk down a path and apply `body` at its end. Nodes that are not there are created,
and on the way down `step` is applied to each value, with the key the walk goes on to. -/
def descend (step : κ → α → α) (d : α) (body : PathTree κ α → β × PathTree κ α) :
    List κ → PathTree κ α → β × PathTree κ α
  | [], t => body t
  | k :: p, t =>
      let (r, s) := descend step d body p (t.childD d k)
      (r, (t.mapValue (step k)).setChild k s)

attribute [local simp] has sub descend

@[simp] theorem sub_nil (d : α) (t : PathTree κ α) : sub d [] t = t := rfl

@[simp] theorem sub_leaf (d : α) (p : List κ) : sub d p (leaf d) = leaf d := by
  induction p with
  | nil => rfl
  | cons k p ih => exact ih

theorem sub_append (d : α) (p q : List κ) (t : PathTree κ α) : sub d (p ++ q) t = sub d q (sub d p t) := by
  induction p generalizing t with
  | nil => rfl
  | cons k p ih => exact ih _

theorem valueAt_append (d : α) (p q : List κ) (t : PathTree κ α) :
    valueAt d (p ++ q) t = valueAt d q (sub d p t) := by
  rw [valueAt, sub_append, valueAt]

theorem has_append (d : α) (p q : List κ) (t : PathTree κ α) :
    has (p ++ q) t = true ↔ has p t = true ∧ has q (sub d p t) = true := by
  induction p generalizing t with
  | nil => simp [has]
  | cons k p ih =>
      rw [List.cons_append, has, has, sub, childD]
      cases t.child k with
      | none => simp
      | some s => exact ih s

/-- A node that was made to look at it changes no value. -/
theorem valueAt_setChild_childD (d : α) (k : κ) (q : List κ) (t : PathTree κ α) :
    valueAt d q (t.setChild k (t.childD d k)) = valueAt d q t := by
  cases q with
  | nil => rfl
  | cons j q =>
      rw [valueAt, sub, childD_setChild]
      by_cases hj : j = k
      · subst hj
        rw [if_pos rfl]
        rfl
      · rw [if_neg hj]
        rfl

theorem has_setChild_childD {d : α} {k : κ} {q : List κ} {t : PathTree κ α} (h : has q t = true) :
    has q (t.setChild k (t.childD d k)) = true := by
  cases q with
  | nil => rfl
  | cons j q =>
      rw [has] at h ⊢
      rw [child_setChild]
      by_cases hj : j = k
      · subst hj
        rw [if_pos rfl]
        cases hc : t.child j with
        | none => rw [hc] at h; cases h
        | some s =>
            rw [hc] at h
            rw [childD, hc, Option.getD_some]
            exact h
      · rw [if_neg hj]
        exact h

theorem has_prefix {p q : List κ} {t : PathTree κ α} (hpq : p <+: q) (h : has q t = true) :
    has p t = true := by
  induction p generalizing q t with
  | nil => rfl
  | cons k p ih =>
      obtain ⟨r, rfl⟩ := hpq
      rw [List.cons_append, has] at h
      rw [has]
      cases hc : t.child k with
      | none => rw [hc] at h; cases h
      | some s =>
          rw [hc] at h
          exact ih ⟨r, rfl⟩ h

section
variable {step : κ → α → α} {d : α} {body : PathTree κ α → β × PathTree κ α}

theorem Keyed.sub {t : PathTree κ α} (ht : Keyed t) (d : α) (p : List κ) : Keyed (sub d p t) := by
  induction p generalizing t with
  | nil => exact ht
  | cons k p ih => exact ih (ht.childD d k)

theorem Keyed.descend {t : PathTree κ α} (ht : Keyed t) (p : List κ)
    (hbody : ∀ s, Keyed s → Keyed (body s).2) : Keyed (descend step d body p t).2 := by
  induction p generalizing t with
  | nil => exact hbody t ht
  | cons k p ih => exact (ht.mapValue _).setChild (ih (ht.childD d k)) k

/-- A walk returns what its body finds at the end of the path. -/
theorem descend_fst (p : List κ) (t : PathTree κ α) :
    (descend step d body p t).1 = (body (sub d p t)).1 := by
  induction p generalizing t with
  | nil => rfl
  | cons k p ih => exact ih _

/-- At the end of the path and below it stands what the body left. -/
theorem sub_descend (p q : List κ) (t : PathTree κ α) :
    sub d (p ++ q) (descend step d body p t).2 = sub d q (body (sub d p t)).2 := by
  induction p generalizing t with
  | nil => rfl
  | cons k p ih =>
      rw [descend, List.cons_append, sub, childD_setChild, if_pos rfl, ih]
      rfl

/-- On the way each value got its step. -/
theorem valueAt_descend_above (q : List κ) (k : κ) (r : List κ) (t : PathTree κ α) :
    valueAt d q (descend step d body (q ++ k :: r) t).2 = step k (valueAt d q t) := by
  induction q generalizing t with
  | nil => rfl
  | cons j q ih =>
      rw [List.cons_append, descend, valueAt, sub, childD_setChild, if_pos rfl]
      exact ih _

/-- Beside the path nothing has changed. -/
theorem valueAt_descend_beside {p q : List κ} (t : PathTree κ α) (hpq : ¬ p <+: q) (hqp : ¬ q <+: p) :
    valueAt d q (descend step d body p t).2 = valueAt d q t := by
  induction p generalizing q t with
  | nil => exact absurd List.nil_prefix hpq
  | cons k p ih =>
      cases q with
      | nil => exact absurd List.nil_prefix hqp
      | cons j q =>
          rw [descend, valueAt, sub, childD_setChild, childD_mapValue]
          by_cases hj : j = k
          · subst hj
            rw [if_pos rfl]
            exact ih _ (fun h => hpq (List.cons_prefix_cons.mpr ⟨rfl, h⟩))
              (fun h => hqp (List.cons_prefix_cons.mpr ⟨rfl, h⟩))
          · rw [if_neg hj]
            rfl

/-- A walk that only looks, with a body that keeps the values, keeps them. -/
theorem valueAt_descend_keep {p : List κ} {t : PathTree κ α}
    (hbody : ∀ q, valueAt d q (body (sub d p t)).2 = valueAt d q (sub d p t)) (q : List κ) :
    valueAt d q (descend (fun _ a => a) d body p t).2 = valueAt d q t := by
  induction p generalizing q t with
  | nil => exact hbody q
  | cons k p ih =>
      cases q with
      | nil => rfl
      | cons j q =>
          rw [descend, valueAt, sub, childD_setChild, mapValue_id]
          by_cases hj : j = k
          · subst hj
            rw [if_pos rfl]
            exact ih hbody q
          · rw [if_neg hj]
            rfl

/-- A walk leaves no node away that its body leaves. -/
theorem has_descend {p : List κ} {t : PathTree κ α}
    (hbody : ∀ q, has q (sub d p t) = true → has q (body (sub d p t)).2 = true) {q : List κ}
    (h : has q t = true) : has q (descend step d body p t).2 = true := by
  induction p generalizing q t with
  | nil => exact hbody q h
  | cons k p ih =>
      cases q with
      | nil => rfl
      | cons j q =>
          rw [has] at h
          rw [descend, has, child_setChild, child_mapValue]
          by_cases hj : j = k
          · subst hj
            rw [if_pos rfl]
            cases hc : t.child j with
            | none => rw [hc] at h; cases h
            | some s =>
                rw [hc] at h
                have hs : t.childD d j = s := by rw [childD, hc, Option.getD_some]
                rw [sub, hs] at hbody
                rw [hs]
                exact ih hbody h
          · rw [if_neg hj]
            exact h

/-- The path of a walk is there afterwards. -/
theorem has_descend_path (p : List κ) (t : PathTree κ α) : has p (descend step d body p t).2 = true := by
  induction p generalizing t with
  | nil => rfl
  | cons k p ih =>
      rw [descend, has, child_setChild, if_pos rfl]
      exact ih _

/-- A walk that only looks leaves the tree as it is exactly if the node is there and the
body leaves it as it is. -/
theorem descend_eq_self_iff (p : List κ) (t : PathTree κ α) :
    (descend (fun _ a => a) d body p t).2 = t ↔ has p t = true ∧ (body (sub d p t)).2 = sub d p t := by
  induction p generalizing t with
  | nil => simp [descend, has]
  | cons k p ih =>
      rw [descend, mapValue_id, has, sub]
      constructor
      · intro h
        have hchild : t.child k = some (descend (fun _ a => a) d body p (t.childD d k)).2 := by
          rw [← h, child_setChild, if_pos rfl, h]
        have hsub : t.childD d k = (descend (fun _ a => a) d body p (t.childD d k)).2 := by
          conv_lhs => rw [childD, hchild, Option.getD_some]
        obtain ⟨hhas, hbody⟩ := (ih _).mp hsub.symm
        rw [hchild, ← hsub]
        exact ⟨hhas, hbody⟩
      · rintro ⟨hhas, hbody⟩
        cases hc : t.child k with
        | none => rw [hc] at hhas; cases hhas
        | some s =>
            have hs : t.childD d k = s := by rw [childD, hc, Option.getD_some]
            rw [hc] at hhas
            rw [hs] at hbody ⊢
            exact setChild_of_child (((ih s).mpr ⟨hhas, hbody⟩).symm ▸ hc)

/-! ### Counting -/

/-- **Counting finds every node**: some value in the tree satisfies `p`, if the default
does not. -/
theorem count_ne_zero_iff {p : α → Bool} {t : PathTree κ α} (ht : Keyed t) (hd : p d = false) :
    count p t ≠ 0 ↔ ∃ q, p (valueAt d q t) = true := by
  induction t using induct with
  | node a cs ih =>
      cases ht with
      | node hkeys hsub =>
          rw [count, ne_eq, Nat.add_eq_zero_iff, not_and_or, ← ne_eq (count.countIn p cs),
            countIn_ne_zero_iff]
          constructor
          · rintro (h | ⟨k, s, hmem, h⟩)
            · exact ⟨[], by simpa [valueAt] using h⟩
            · obtain ⟨q, hq⟩ := (ih k s hmem (hsub k s hmem)).mp h
              have hs : (node a cs).childD d k = s := by
                rw [childD, child, children_node, childIn_of_mem hkeys hmem, Option.getD_some]
              refine ⟨k :: q, ?_⟩
              rw [valueAt, sub, hs]
              exact hq
          · rintro ⟨q, hq⟩
            cases q with
            | nil => exact .inl (by simpa [valueAt] using hq)
            | cons k q =>
                rw [valueAt, sub, childD] at hq
                cases hc : childIn k cs with
                | none =>
                    rw [child, children_node, hc, Option.getD_none, sub_leaf, value_leaf, hd] at hq
                    cases hq
                | some s =>
                    rw [child, children_node, hc, Option.getD_some] at hq
                    have hmem := mem_of_childIn hc
                    exact .inr ⟨k, s, hmem, (ih k s hmem (hsub k s hmem)).mpr ⟨q, hq⟩⟩

end

end PathTree

end PothosCore.Lib

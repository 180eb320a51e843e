import PothosCore.Plugin.Registry
import Mathlib.Data.List.Infix

/-!
# PothosCore.Plugin.RegistryMap

What the registry is for: a map from paths to plugins, which also knows in which order
the names below a path were used first. A call that throws leaves it as it is.

The tree of entries refines the map. `Refines` says what the entry at each path holds,
whether or not there is a node, and each section under the lock gives what the map gives
and keeps `Refines`. Nodes that a look-up made or that a removal left play no part in it.
-/

namespace PothosCore.Plugins

open PothosCore.Lib

/-- The plugins by their paths, and the paths that were added, in order. -/
structure PathMap where
  plugin : List Name → Option Plugin
  used : List (List Name)

namespace PathMap

open PluginRegistry

def empty : PathMap := ⟨fun _ => none, []⟩

/-- The name that `q` goes on with below `p`. -/
def childOf (p q : List Name) : Option Name := if p <+: q then q[p.length]? else none

/-- The names used below `p`, in the order of their first uses. -/
def childNames (m : PathMap) (p : List Name) : List Name := (m.used.filterMap (childOf p)).eraseDups

/-- Is a plugin registered at `p` or below it? -/
def Occupied (m : PathMap) (p : List Name) : Prop := ∃ q, (m.plugin (p ++ q)).isSome = true

/-- The plugins above the last name of `p`, the nearest first. -/
def parents (m : PathMap) (p : List Name) : List Plugin :=
  p.dropLast.inits.reverse.map fun q => (m.plugin q).getD {}

open Classical in
/-- What a section gives. -/
noncomputable def answer (m : PathMap) : Op → Answer
  | .add active plugin =>
      .plugin (match m.plugin plugin.path.listNodes with
        | some current => .error (alreadyRegistered plugin.path active current.module)
        | none => .ok { plugin with module := active })
  | .remove path =>
      .plugin (match m.plugin path.listNodes with
        | some plugin => .ok plugin
        | none => .error (notFound "remove" path))
  | .lookup (.get path) =>
      .plugin (match m.plugin path.listNodes with
        | some plugin => .ok plugin
        | none => .error (notFound "get" path))
  | .lookup (.empty path) => .flag (m.plugin path.listNodes).isNone
  | .lookup (.exists' path) => .flag (decide (m.Occupied path.listNodes))
  | .lookup (.list path) =>
      .names ((m.childNames path.listNodes).filter fun n => decide (m.Occupied (path.listNodes ++ [n])))
  | .lookup (.parentPlugins path) => .plugins (m.parents path.listNodes)

/-- Enter or take away what is at a path. -/
def put (m : PathMap) (p : List Name) (x : Option Plugin) : List Name → Option Plugin :=
  fun q => if q = p then x else m.plugin q

@[simp] theorem put_self (m : PathMap) (p : List Name) (x : Option Plugin) : m.put p x p = x := if_pos rfl

theorem put_ne (m : PathMap) {p q : List Name} (x : Option Plugin) (h : q ≠ p) : m.put p x q = m.plugin q :=
  if_neg h

/-- What a section does: an add of a free path enters the plugin, a removal takes it
away. -/
def next (m : PathMap) : Op → PathMap
  | .add active plugin =>
      let path := plugin.path.listNodes
      if (m.plugin path).isSome then m
      else ⟨m.put path (some { plugin with module := active }), m.used ++ [path]⟩
  | .remove path => { m with plugin := m.put path.listNodes none }
  | .lookup _ => m

/-- The answers to one section after the other. -/
noncomputable def answers : PathMap → List Op → List Answer
  | _, [] => []
  | m, op :: ops => m.answer op :: (m.next op).answers ops

/-- The entry for a path. -/
def entry (m : PathMap) (p : List Name) : Entry :=
  { plugin := (m.plugin p).getD {}, hasPlugin := (m.plugin p).isSome, nodeNamesOrdered := m.childNames p }

theorem entry_mk (plugin : List Name → Option Plugin) (used : List (List Name)) (q : List Name) :
    (PathMap.mk plugin used).entry q =
      { plugin := (plugin q).getD {}, hasPlugin := (plugin q).isSome,
        nodeNamesOrdered := (PathMap.mk plugin used).childNames q } := rfl

theorem childOf_append (p : List Name) (k : Name) (q : List Name) : childOf p (p ++ k :: q) = some k := by
  rw [childOf, if_pos ⟨k :: q, rfl⟩]
  simp

theorem childOf_self_append (p q : List Name) : childOf (p ++ q) p = none := by
  rw [childOf]
  split
  · exact List.getElem?_eq_none (by simp)
  · rfl

theorem childOf_beside {p q : List Name} (h : ¬ q <+: p) : childOf q p = none := if_neg h

theorem mem_childNames {m : PathMap} {p : List Name} {n : Name} :
    n ∈ m.childNames p ↔ ∃ q ∈ m.used, childOf p q = some n := by
  rw [childNames, List.mem_eraseDups, List.mem_filterMap]

theorem eraseDups_concat (names : List Name) (n : Name) :
    (names ++ [n]).eraseDups = if n ∈ names then names.eraseDups else names.eraseDups ++ [n] := by
  rw [List.eraseDups_append]
  by_cases hn : n ∈ names
  · have hgone : [n].removeAll names = [] := by simp [List.removeAll, hn]
    rw [if_pos hn, hgone, List.eraseDups_nil, List.append_nil]
  · have hkept : [n].removeAll names = [n] := by simp [List.removeAll, hn]
    rw [if_neg hn, hkept]
    rfl

/-- One more path: its name below `p` comes last, unless it was used before. -/
theorem childNames_concat (plugin : List Name → Option Plugin) (used : List (List Name)) (p q : List Name) :
    (PathMap.mk plugin (used ++ [q])).childNames p =
      match childOf p q with
      | none => (used.filterMap (childOf p)).eraseDups
      | some n =>
          if n ∈ used.filterMap (childOf p) then (used.filterMap (childOf p)).eraseDups
          else (used.filterMap (childOf p)).eraseDups ++ [n] := by
  rw [childNames, List.filterMap_append]
  cases hc : childOf p q with
  | none => rw [List.filterMap_cons_none hc, List.filterMap_nil, List.append_nil]
  | some n => rw [List.filterMap_cons_some hc, List.filterMap_nil, eraseDups_concat]

end PathMap

/-- Where two paths stand to each other. -/
theorem prefix_trichotomy (p q : List Name) :
    (∃ r, q = p ++ r) ∨ (∃ k r, p = q ++ k :: r) ∨ (¬ p <+: q ∧ ¬ q <+: p) := by
  by_cases hpq : p <+: q
  · obtain ⟨r, rfl⟩ := hpq
    exact .inl ⟨r, rfl⟩
  · by_cases hqp : q <+: p
    · obtain ⟨r, rfl⟩ := hqp
      cases r with
      | nil => exact absurd ⟨[], by simp⟩ hpq
      | cons k r => exact .inr (.inl ⟨k, r, rfl⟩)
    · exact .inr (.inr ⟨hpq, hqp⟩)

namespace PluginRegistry

open PathMap

/-- The tree holds the entries of the map. -/
structure Refines (root : RegistryEntry) (m : PathMap) : Prop where
  keyed : root.Keyed
  entry : ∀ p, root.valueAt {} p = m.entry p
  used : ∀ p, (m.plugin p).isSome = true → p ∈ m.used

theorem refines_init : Refines .init .empty where
  keyed := PathTree.keyed_leaf _
  entry p := by
    rw [PathTree.valueAt, RegistryEntry.init, PathTree.sub_leaf]
    rfl
  used p h := by cases h

variable {root : RegistryEntry} {m : PathMap}

/-! ### Look-ups -/

/-- What stands at and below a path. -/
theorem Refines.sub_entry (h : Refines root m) (p q : List Name) :
    PathTree.valueAt {} q (PathTree.sub {} p root) = m.entry (p ++ q) := by
  rw [← PathTree.valueAt_append, h.entry]

theorem Refines.value_sub (h : Refines root m) (p : List Name) : (PathTree.sub {} p root).value = m.entry p :=
  h.entry p

/-- Counting plugins sees exactly the registered ones. -/
theorem Refines.getNumPlugins (h : Refines root m) (p : List Name) :
    RegistryEntry.getNumPlugins (PathTree.sub {} p root) ≠ 0 ↔ m.Occupied p := by
  rw [RegistryEntry.getNumPlugins, PathTree.count_ne_zero_iff (d := {}) (h.keyed.sub _ _) rfl]
  simp only [h.sub_entry]
  rfl

/-- A walk whose body keeps the values keeps the map. -/
theorem Refines.walk {β : Type} {body : RegistryEntry → β × RegistryEntry} (h : Refines root m)
    (path : PluginPath) (hkeyed : ∀ s, s.Keyed → (body s).2.Keyed)
    (hbody : ∀ s q, PathTree.valueAt {} q (body s).2 = PathTree.valueAt {} q s) :
    Refines (RegistryEntry.walk body path root).2 m where
  keyed := h.keyed.descend _ hkeyed
  entry p := by
    rw [RegistryEntry.walk, PathTree.valueAt_descend_keep (hbody _), h.entry]
  used := h.used

/-- A walk that leaves what it finds at the end. -/
theorem Refines.look {β : Type} (h : Refines root m) (find : RegistryEntry → β) (path : PluginPath) :
    Refines (RegistryEntry.walk (fun s => (find s, s)) path root).2 m :=
  h.walk path (fun _ hs => hs) (fun _ _ => rfl)

theorem listNames_snd (names : List Name) (root : RegistryEntry) (q : List Name) :
    PathTree.valueAt {} q (listNames names root).2 = PathTree.valueAt {} q root := by
  induction names generalizing root with
  | nil => rfl
  | cons n names ih =>
      rw [listNames, ih]
      exact PathTree.valueAt_setChild_childD {} n q root

theorem listNames_keyed {names : List Name} {root : RegistryEntry} (h : root.Keyed) :
    (listNames names root).2.Keyed := by
  induction names generalizing root with
  | nil => exact h
  | cons n names ih => exact ih (h.setChild (h.childD _ n) n)

/-- `list` keeps the names with a plugin at or below them. -/
theorem listNames_fst {names : List Name} {root : RegistryEntry} :
    (listNames names root).1 = names.filter fun n => RegistryEntry.getNumPlugins (root.childD {} n) ≠ 0 := by
  induction names generalizing root with
  | nil => rfl
  | cons n names ih =>
      have hsame : ∀ k, (root.setChild n (root.childD {} n)).childD {} k = root.childD {} k := by
        intro k
        rw [PathTree.childD_setChild]
        split
        · next hk => rw [hk]
        · rfl
      have hstep : (listNames (n :: names) root).1 =
          if RegistryEntry.getNumPlugins (root.childD {} n) ≠ 0 then
            n :: (listNames names (root.setChild n (root.childD {} n))).1
          else (listNames names (root.setChild n (root.childD {} n))).1 := rfl
      rw [hstep, List.filter_cons, ih]
      simp only [hsame, decide_eq_true_eq]

/-- The parents are read from the entries above. -/
theorem parentsOf_fst (p : List Name) (root : RegistryEntry) :
    (parentsOf p root).1 = p.dropLast.inits.reverse.map fun q => (PathTree.valueAt {} q root).plugin := by
  induction p generalizing root with
  | nil => rfl
  | cons n p ih =>
      cases p with
      | nil => rfl
      | cons k p =>
          have hstep : (parentsOf (n :: k :: p) root).1 =
              (parentsOf (k :: p) (root.childD {} n)).1 ++ [root.value.plugin] := rfl
          rw [hstep, ih, List.dropLast_cons_of_ne_nil (List.cons_ne_nil k p), List.inits_cons]
          simp only [List.reverse_cons, List.map_append, List.map_cons, List.map_nil, List.map_reverse,
            List.map_map]
          rfl

theorem parentsOf_snd (p : List Name) (root : RegistryEntry) (q : List Name) :
    PathTree.valueAt {} q (parentsOf p root).2 = PathTree.valueAt {} q root := by
  induction p generalizing q root with
  | nil => rfl
  | cons n p ih =>
      cases p with
      | nil => rfl
      | cons k p =>
          rw [parentsOf]
          cases q with
          | nil => rfl
          | cons j q =>
              rw [PathTree.valueAt, PathTree.sub, PathTree.childD_setChild]
              by_cases hj : j = n
              · subst hj
                rw [if_pos rfl]
                exact ih _ q
              · rw [if_neg hj]
                rfl

theorem parentsOf_keyed {p : List Name} {root : RegistryEntry} (h : root.Keyed) : (parentsOf p root).2.Keyed := by
  induction p generalizing root with
  | nil => exact h
  | cons n p ih =>
      cases p with
      | nil => exact h
      | cons k p => exact h.setChild (ih (h.childD _ n)) n

theorem Refines.lookup (h : Refines root m) (l : Lookup) : Refines (l.run root).2 m := by
  cases l with
  | get path =>
      rw [Lookup.run, Prod.map_snd]
      exact h.look _ path
  | empty path =>
      rw [Lookup.run, Prod.map_snd]
      exact h.look _ path
  | exists' path =>
      rw [Lookup.run, Prod.map_snd]
      exact h.look _ path
  | list path => exact h.walk path (fun _ hs => listNames_keyed hs) (fun _ _ => listNames_snd _ _ _)
  | parentPlugins path =>
      exact ⟨parentsOf_keyed h.keyed, fun p => (parentsOf_snd _ _ p).trans (h.entry p), h.used⟩

theorem Refines.lookup_answer (h : Refines root m) (l : Lookup) : (l.run root).1 = m.answer (.lookup l) := by
  classical
  cases l with
  | get path =>
      rw [Lookup.run, PluginRegistry.get, RegistryEntry.walk, Prod.map_fst, PathTree.descend_fst, h.value_sub,
        PathMap.answer, PathMap.entry]
      cases m.plugin path.listNodes <;> rfl
  | empty path =>
      rw [Lookup.run, PluginRegistry.empty, RegistryEntry.walk, Prod.map_fst, PathTree.descend_fst, h.value_sub,
        PathMap.answer, PathMap.entry]
      cases m.plugin path.listNodes <;> rfl
  | exists' path =>
      rw [Lookup.run, PluginRegistry.exists', RegistryEntry.walk, Prod.map_fst, PathTree.descend_fst,
        PathMap.answer, Answer.flag.injEq, Bool.eq_iff_iff, bne_iff_ne, decide_eq_true_eq]
      exact h.getNumPlugins _
  | list path =>
      rw [Lookup.run, PluginRegistry.list, RegistryEntry.walk, Prod.map_fst, PathTree.descend_fst, listNames_fst,
        h.value_sub, PathMap.answer, Answer.names.injEq]
      exact List.filter_congr fun n _ => by
        rw [decide_eq_decide, ← h.getNumPlugins, PathTree.sub_append]
        rfl
  | parentPlugins path =>
      rw [Lookup.run, PluginRegistry.parentPlugins, Prod.map_fst, parentsOf_fst, PathMap.answer, PathMap.parents]
      simp only [h.entry]
      rfl

/-- The sections by themselves: what they give, and that the tree they leave holds the
same entries. -/
theorem Refines.get (h : Refines root m) {path : PluginPath} {result : Except Fault Plugin}
    {root' : RegistryEntry} (hget : PluginRegistry.get path root = (result, root')) :
    (result = match m.plugin path.listNodes with
      | some plugin => .ok plugin
      | none => .error (notFound "get" path)) ∧ Refines root' m := by
  have hanswer := h.lookup_answer (.get path)
  have hkept := h.lookup (.get path)
  rw [Lookup.run, hget] at hanswer hkept
  exact ⟨Answer.plugin.inj hanswer, hkept⟩

open Classical in
theorem Refines.list (h : Refines root m) {path : PluginPath} {names : List Name} {root' : RegistryEntry}
    (hlist : PluginRegistry.list path root = (names, root')) :
    names = (m.childNames path.listNodes).filter (fun n => decide (m.Occupied (path.listNodes ++ [n]))) ∧
      Refines root' m := by
  have hanswer := h.lookup_answer (.list path)
  have hkept := h.lookup (.list path)
  rw [Lookup.run, hlist] at hanswer hkept
  exact ⟨Answer.names.inj hanswer, hkept⟩

theorem Refines.parentPlugins (h : Refines root m) {path : PluginPath} {parents : List Plugin}
    {root' : RegistryEntry} (hparents : PluginRegistry.parentPlugins path root = (parents, root')) :
    parents = m.parents path.listNodes ∧ Refines root' m := by
  have hanswer := h.lookup_answer (.parentPlugins path)
  have hkept := h.lookup (.parentPlugins path)
  rw [Lookup.run, hparents] at hanswer hkept
  exact ⟨Answer.plugins.inj hanswer, hkept⟩

/-! ### Changes -/

theorem store_keyed {active : PluginModule} {plugin : Plugin} {s : RegistryEntry} (h : s.Keyed) :
    (store active plugin s).2.Keyed := by
  unfold store
  split
  · exact h
  · dsimp only
    exact h.mapValue _

theorem clear_keyed {path : PluginPath} {s : RegistryEntry} (h : s.Keyed) : (clear path s).2.Keyed := by
  unfold clear
  split
  · dsimp only
    exact h.mapValue _
  · exact h

/-- Below the end of the path an added or removed plugin changes nothing. -/
theorem valueAt_mapValue_below (f : Entry → Entry) (k : Name) (q : List Name) (s : RegistryEntry) :
    PathTree.valueAt {} (k :: q) (s.mapValue f) = PathTree.valueAt {} (k :: q) s := rfl

/-- A name that was used has its place already. -/
theorem orderName_of_used {p : List Name} {k : Name} {r : List Name} (h : p ++ k :: r ∈ m.used) :
    orderName k (m.entry p) = m.entry p :=
  if_pos (mem_childNames.mpr ⟨_, h, childOf_append p k r⟩)

/-- An add of an occupied path fails and leaves the map as it is. -/
theorem Refines.add_occupied (h : Refines root m) (active : PluginModule) {plugin current : Plugin}
    (hp : m.plugin plugin.path.listNodes = some current) :
    (add active plugin root).1 = .error (alreadyRegistered plugin.path active current.module) ∧
      Refines (add active plugin root).2 m := by
  have hvalue : (PathTree.sub {} plugin.path.listNodes root).value = m.entry plugin.path.listNodes :=
    h.value_sub _
  have hstore : store active plugin (PathTree.sub {} plugin.path.listNodes root) =
      (.error (alreadyRegistered plugin.path active current.module),
        PathTree.sub {} plugin.path.listNodes root) := by
    rw [store, hvalue, PathMap.entry, hp]
    rfl
  have hused : plugin.path.listNodes ∈ m.used := h.used _ (by rw [hp]; rfl)
  constructor
  · rw [add, PathTree.descend_fst, hstore]
  · exact {
      keyed := h.keyed.descend _ fun s hs => store_keyed hs
      used := h.used
      entry := fun q => by
        rw [add]
        obtain ⟨r, rfl⟩ | ⟨k, r, hpath⟩ | ⟨hpq, hqp⟩ := prefix_trichotomy plugin.path.listNodes q
        · rw [PathTree.valueAt, PathTree.sub_descend, hstore, ← PathTree.sub_append]
          exact h.entry _
        · rw [hpath] at hused ⊢
          rw [PathTree.valueAt_descend_above, h.entry, orderName_of_used hused]
        · rw [PathTree.valueAt_descend_beside _ hpq hqp, h.entry] }

/-- An add of a free path enters the plugin. -/
theorem Refines.add_free (h : Refines root m) (active : PluginModule) {plugin : Plugin}
    (hp : m.plugin plugin.path.listNodes = none) :
    (add active plugin root).1 = .ok { plugin with module := active } ∧
      Refines (add active plugin root).2 (m.next (.add active plugin)) := by
  have hvalue : (PathTree.sub {} plugin.path.listNodes root).value = m.entry plugin.path.listNodes :=
    h.value_sub _
  have hstore : store active plugin (PathTree.sub {} plugin.path.listNodes root) =
      (.ok { plugin with module := active }, (PathTree.sub {} plugin.path.listNodes root).mapValue
        fun entry => { entry with hasPlugin := true, plugin := { plugin with module := active } }) := by
    rw [store, hvalue, PathMap.entry, hp]
    rfl
  have hnext : m.next (.add active plugin) =
      ⟨m.put plugin.path.listNodes (some { plugin with module := active }),
        m.used ++ [plugin.path.listNodes]⟩ := by
    rw [PathMap.next, hp]
    rfl
  constructor
  · rw [add, PathTree.descend_fst, hstore]
  · rw [hnext]
    exact {
      keyed := h.keyed.descend _ fun s hs => store_keyed hs
      used := fun q hq => by
        by_cases hqp : q = plugin.path.listNodes
        · exact List.mem_append_right _ (List.mem_singleton.mpr hqp)
        · dsimp only at hq
          rw [put_ne _ _ hqp] at hq
          exact List.mem_append_left _ (h.used q hq)
      entry := fun q => by
        rw [add, entry_mk, childNames_concat]
        obtain ⟨r, rfl⟩ | ⟨k, r, hpath⟩ | ⟨hpq, hqp⟩ := prefix_trichotomy plugin.path.listNodes q
        · rw [PathTree.valueAt, PathTree.sub_descend, hstore, childOf_self_append]
          cases r with
          | nil =>
              rw [PathTree.sub_nil, PathTree.mapValue, PathTree.value_node, hvalue, List.append_nil, put_self]
              rfl
          | cons k r =>
              have hne : plugin.path.listNodes ++ k :: r ≠ plugin.path.listNodes := by simp
              have hbelow := valueAt_mapValue_below
                (fun entry => { entry with hasPlugin := true, plugin := { plugin with module := active } })
                k r (PathTree.sub {} plugin.path.listNodes root)
              rw [put_ne _ _ hne]
              exact hbelow.trans (h.sub_entry _ _)
        · have hne : q ≠ plugin.path.listNodes := by
            intro heq
            rw [hpath] at heq
            simpa using congrArg List.length heq
          rw [put_ne _ _ hne, hpath, PathTree.valueAt_descend_above, h.entry, childOf_append, orderName,
            PathMap.entry]
          simp only [PathMap.childNames, List.mem_eraseDups]
          split <;> rfl
        · have hne : q ≠ plugin.path.listNodes := by
            intro heq
            rw [heq] at hpq
            exact hpq (List.prefix_refl _)
          rw [PathTree.valueAt_descend_beside _ hpq hqp, h.entry, childOf_beside hqp, put_ne _ _ hne]
          rfl }

theorem Refines.add (h : Refines root m) (active : PluginModule) (plugin : Plugin) :
    ((Op.add active plugin).run root).1 = m.answer (.add active plugin) ∧
      Refines ((Op.add active plugin).run root).2 (m.next (.add active plugin)) := by
  rw [Op.run, Prod.map_fst, Prod.map_snd, PathMap.answer]
  cases hp : m.plugin plugin.path.listNodes with
  | some current =>
      obtain ⟨hanswer, hkept⟩ := h.add_occupied active hp
      rw [hanswer, PathMap.next, hp]
      exact ⟨rfl, hkept⟩
  | none =>
      obtain ⟨hanswer, hentered⟩ := h.add_free active hp
      rw [hanswer]
      exact ⟨rfl, hentered⟩

theorem entry_remove_self (m : PathMap) (path : PluginPath) :
    (m.next (.remove path)).entry path.listNodes =
      { m.entry path.listNodes with hasPlugin := false, plugin := {} } := by
  rw [PathMap.next, entry_mk, put_self]
  rfl

theorem entry_remove_ne (m : PathMap) {path : PluginPath} {q : List Name} (h : q ≠ path.listNodes) :
    (m.next (.remove path)).entry q = m.entry q := by
  rw [PathMap.next, entry_mk, put_ne _ _ h]
  rfl

/-- What a removal leaves at the end of its path. -/
theorem Refines.clear_sub (h : Refines root m) (path : PluginPath) (q : List Name) :
    PathTree.valueAt {} q (clear path (PathTree.sub {} path.listNodes root)).2 =
      (m.next (.remove path)).entry (path.listNodes ++ q) := by
  have hvalue : (PathTree.sub {} path.listNodes root).value = m.entry path.listNodes := h.value_sub _
  rw [clear, hvalue]
  cases q with
  | nil =>
      rw [List.append_nil, entry_remove_self]
      split
      · rw [PathTree.valueAt, PathTree.sub_nil, PathTree.mapValue, PathTree.value_node, hvalue]
      · next hfree =>
          have hp : m.plugin path.listNodes = none := by simpa [PathMap.entry] using hfree
          rw [h.sub_entry, List.append_nil, PathMap.entry, hp]
          rfl
  | cons k q =>
      have hne : path.listNodes ++ k :: q ≠ path.listNodes := by simp
      rw [entry_remove_ne _ hne]
      split
      · rw [valueAt_mapValue_below, h.sub_entry]
      · rw [h.sub_entry]

theorem Refines.remove (h : Refines root m) (path : PluginPath) :
    ((Op.remove path).run root).1 = m.answer (.remove path) ∧
      Refines ((Op.remove path).run root).2 (m.next (.remove path)) := by
  rw [Op.run, Prod.map_fst, Prod.map_snd, id, PluginRegistry.remove, RegistryEntry.walk]
  constructor
  · rw [PathTree.descend_fst, clear, h.value_sub, PathMap.answer, PathMap.entry]
    cases m.plugin path.listNodes <;> rfl
  · exact {
      keyed := h.keyed.descend _ fun s hs => clear_keyed hs
      used := fun q hq => by
        simp only [PathMap.next] at hq
        by_cases hqp : q = path.listNodes
        · rw [hqp, put_self] at hq
          cases hq
        · rw [put_ne _ _ hqp] at hq
          exact h.used q hq
      entry := fun q => by
        obtain ⟨r, rfl⟩ | ⟨k, r, hpath⟩ | ⟨hpq, hqp⟩ := prefix_trichotomy path.listNodes q
        · rw [PathTree.valueAt, PathTree.sub_descend]
          exact h.clear_sub path r
        · have hne : q ≠ path.listNodes := by
            intro heq
            rw [hpath] at heq
            simpa using congrArg List.length heq
          rw [entry_remove_ne _ hne, hpath, PathTree.valueAt_descend_above, h.entry]
        · have hne : q ≠ path.listNodes := by
            intro heq
            rw [heq] at hpq
            exact hpq (List.prefix_refl _)
          rw [entry_remove_ne _ hne, PathTree.valueAt_descend_beside _ hpq hqp, h.entry] }

/-! ### Runs -/

/-- One section gives what the map gives, and leaves the entries of the changed map. -/
theorem Refines.step (h : Refines root m) (op : Op) :
    (op.run root).1 = m.answer op ∧ Refines (op.run root).2 (m.next op) := by
  cases op with
  | add active plugin => exact h.add active plugin
  | remove path => exact h.remove path
  | lookup l => exact ⟨h.lookup_answer l, h.lookup l⟩

theorem Refines.answers (h : Refines root m) (ops : List Op) : (runAll ops root).1 = m.answers ops := by
  induction ops generalizing root m with
  | nil => rfl
  | cons op ops ih =>
      obtain ⟨hanswer, hnext⟩ := h.step op
      rw [runAll, PathMap.answers, Prod.map_fst, ih hnext, hanswer]

/-- The map that the sections leave. -/
def mapAfter : List Op → PathMap → PathMap
  | [], m => m
  | op :: ops, m => mapAfter ops (m.next op)

theorem Refines.run (h : Refines root m) (ops : List Op) : Refines (runAll ops root).2 (mapAfter ops m) := by
  induction ops generalizing root m with
  | nil => exact h
  | cons op ops ih => exact ih (h.step op).2

/-- Did the section throw? -/
def Answer.Throws : Answer → Prop
  | .plugin (.error _) => True
  | _ => False

/-- A section that throws changes nothing in the map. -/
theorem next_of_throws {op : Op} (h : (m.answer op).Throws) : m.next op = m := by
  cases op with
  | add active plugin =>
      rw [PathMap.answer] at h
      rw [PathMap.next]
      cases hp : m.plugin plugin.path.listNodes with
      | none => rw [hp] at h; cases h
      | some current => rfl
  | remove path =>
      rw [PathMap.answer] at h
      cases hp : m.plugin path.listNodes with
      | some plugin => rw [hp] at h; cases h
      | none =>
          have hsame : m.put path.listNodes none = m.plugin := by
            funext q
            by_cases hq : q = path.listNodes
            · rw [hq, put_self, hp]
            · exact put_ne m none hq
          rw [PathMap.next, hsame]
  | lookup l => rfl

/-- **The registry refines the map**: from the empty registry any sections, one after the
other, give what they give on the map, and after one that throws all others give what
they give without it. -/
theorem registry_refines_map (ops : List Op) :
    (runAll ops .init).1 = PathMap.empty.answers ops ∧
      ∀ (op : Op) (later : List Op), (op.run (runAll ops .init).2).1.Throws →
        (runAll later (op.run (runAll ops .init).2).2).1 = (runAll later (runAll ops .init).2).1 := by
  have h := refines_init.run ops
  constructor
  · exact refines_init.answers ops
  · intro op later hthrows
    obtain ⟨hanswer, hnext⟩ := h.step op
    rw [hanswer] at hthrows
    rw [next_of_throws hthrows] at hnext
    rw [hnext.answers later, h.answers later]

end PluginRegistry

end PothosCore.Plugins

import PothosCore.Plugin.RegistryMap

/-!
# PothosCore.Plugin.RegistryShared

The sections that take the registry lock in shared mode. A section of this kind may run
at the same time as others of its kind, so it must leave the tree as it is.

The dump only reads. A look-up walks with `nodes[name]` and leaves the tree as it is
exactly where the node at the end of its walk is there; otherwise it inserts nodes, with
nothing but the shared lock held. `list` also walks to the names below, but these have
had nodes since they were used first (`Built`).
-/

namespace PothosCore.Plugins.PluginRegistry

open PothosCore.Lib PathMap

/-- The sections under the shared lock. -/
inductive Shared
  | lookup (l : Lookup)
  | dump
  deriving DecidableEq

/-- What such a section gives. -/
inductive Result
  | answer (a : Answer)
  | dump (d : Except Fault InfoDump)

def Shared.run : Shared → RegistryEntry → Result × RegistryEntry
  | .lookup l, root => (l.run root).map .answer id
  | .dump, root => (.dump (PluginRegistry.dump root), root)

/-- Sections in the order in which they come to run. -/
def runShared : List Shared → RegistryEntry → List Result × RegistryEntry
  | [], root => ([], root)
  | o :: os, root =>
      let (result, root) := o.run root
      (runShared os root).map (result :: ·) id

/-- The path a look-up walks. The walk of `handlePluginEvent` stops at the last name. -/
def Lookup.way : Lookup → List Name
  | .get path => path.listNodes
  | .empty path => path.listNodes
  | .exists' path => path.listNodes
  | .list path => path.listNodes
  | .parentPlugins path => path.listNodes.dropLast

/-- Is the node at the end of the walk there? -/
def Shared.Finds (root : RegistryEntry) : Shared → Prop
  | .lookup l => PathTree.has l.way root = true
  | .dump => True

instance (root : RegistryEntry) (o : Shared) : Decidable (o.Finds root) := by
  cases o <;> unfold Shared.Finds <;> infer_instance

/-! ### Nodes of used paths -/

/-- The paths that were used have nodes. -/
def Built (root : RegistryEntry) (m : PathMap) : Prop := ∀ p ∈ m.used, PathTree.has p root = true

variable {root : RegistryEntry} {m : PathMap}

theorem listNames_has {names : List Name} {root : RegistryEntry} {q : List Name}
    (h : PathTree.has q root = true) : PathTree.has q (listNames names root).2 = true := by
  induction names generalizing root with
  | nil => exact h
  | cons n names ih => exact ih (PathTree.has_setChild_childD h)

/-- The walk of `handlePluginEvent` is one that only looks. -/
theorem parentsOf_eq_descend (p : List Name) (root : RegistryEntry) :
    (parentsOf p root).2 = (PathTree.descend (fun _ e => e) {} (fun s => ((), s)) p.dropLast root).2 := by
  induction p generalizing root with
  | nil => rfl
  | cons n p ih =>
      cases p with
      | nil => rfl
      | cons k p =>
          have hstep : (parentsOf (n :: k :: p) root).2 =
              root.setChild n (parentsOf (k :: p) (root.childD {} n)).2 := rfl
          rw [hstep, ih, List.dropLast_cons_of_ne_nil (List.cons_ne_nil k p), PathTree.descend,
            PathTree.mapValue_id]

/-- No section removes a node. -/
theorem Lookup.run_has (l : Lookup) {q : List Name} (h : PathTree.has q root = true) :
    PathTree.has q (l.run root).2 = true := by
  have hlook : ∀ (β : Type) (find : RegistryEntry → β) (path : PluginPath),
      PathTree.has q (RegistryEntry.walk (fun s => (find s, s)) path root).2 = true :=
    fun _ _ _ => PathTree.has_descend (fun _ hq => hq) h
  cases l with
  | get path =>
      rw [Lookup.run, Prod.map_snd, id, PluginRegistry.get]
      exact hlook _ _ path
  | empty path =>
      rw [Lookup.run, Prod.map_snd, id, PluginRegistry.empty]
      exact hlook _ _ path
  | exists' path =>
      rw [Lookup.run, Prod.map_snd, id, PluginRegistry.exists']
      exact hlook _ _ path
  | list path =>
      rw [Lookup.run, Prod.map_snd, id, PluginRegistry.list, RegistryEntry.walk]
      refine PathTree.has_descend ?_ h
      exact fun r hr => listNames_has hr
  | parentPlugins path =>
      rw [Lookup.run, Prod.map_snd, PluginRegistry.parentPlugins, id, parentsOf_eq_descend]
      exact PathTree.has_descend (fun _ hq => hq) h

theorem has_mapValue (f : Entry → Entry) (q : List Name) (s : RegistryEntry) :
    PathTree.has q (s.mapValue f) = PathTree.has q s := by
  cases q <;> rfl

theorem store_has {active : PluginModule} {plugin : Plugin} {s : RegistryEntry} {q : List Name}
    (h : PathTree.has q s = true) : PathTree.has q (store active plugin s).2 = true := by
  unfold store
  split
  · exact h
  · dsimp only
    rw [has_mapValue, h]

theorem clear_has {path : PluginPath} {s : RegistryEntry} {q : List Name} (h : PathTree.has q s = true) :
    PathTree.has q (clear path s).2 = true := by
  unfold clear
  split
  · dsimp only
    rw [has_mapValue, h]
  · exact h

theorem Op.run_has (op : Op) {q : List Name} (h : PathTree.has q root = true) :
    PathTree.has q (op.run root).2 = true := by
  cases op with
  | add active plugin => exact PathTree.has_descend (fun _ hq => store_has hq) h
  | remove path => exact PathTree.has_descend (fun _ hq => clear_has hq) h
  | lookup l => exact l.run_has h

theorem Built.step (h : Built root m) (op : Op) : Built (op.run root).2 (m.next op) := by
  intro p hp
  cases op with
  | remove path => exact Op.run_has _ (h p hp)
  | lookup l => exact Op.run_has _ (h p hp)
  | add active plugin =>
      rw [PathMap.next] at hp
      split at hp
      · exact Op.run_has _ (h p hp)
      · rcases List.mem_append.mp hp with hp | hp
        · exact Op.run_has _ (h p hp)
        · rw [List.mem_singleton.mp hp]
          rw [Op.run, Prod.map_snd, id, PluginRegistry.add]
          exact PathTree.has_descend_path _ _

theorem Built.run (h : Built root m) (ops : List Op) : Built (runAll ops root).2 (mapAfter ops m) := by
  induction ops generalizing root m with
  | nil => exact h
  | cons op ops ih => exact ih (h.step op)

theorem built_init : Built .init .empty := fun _ hp => nomatch hp

/-! ### What a look-up leaves -/

/-- The names in the order of a node have nodes. -/
theorem Built.child (hb : Built root m) (hr : Refines root m) {p : List Name} {n : Name}
    (hn : n ∈ (PathTree.sub {} p root).value.nodeNamesOrdered) :
    ∃ s, (PathTree.sub {} p root).child n = some s := by
  rw [hr.value_sub] at hn
  obtain ⟨q, hq, hchild⟩ := mem_childNames.mp hn
  have hpn : p ++ [n] <+: q := by
    rw [childOf] at hchild
    split at hchild
    · next hpq =>
        obtain ⟨r, rfl⟩ := hpq
        cases r with
        | nil => simp at hchild
        | cons k r =>
            obtain rfl : k = n := by simpa using hchild
            exact ⟨r, by simp⟩
    · cases hchild
  have hhas := PathTree.has_prefix hpn (hb q hq)
  obtain ⟨-, hlast⟩ := (PathTree.has_append {} p [n] root).mp hhas
  cases hc : (PathTree.sub {} p root).child n with
  | some s => exact ⟨s, rfl⟩
  | none =>
      rw [PathTree.has, hc] at hlast
      cases hlast

theorem listNames_eq_self {names : List Name} {s : RegistryEntry}
    (h : ∀ n ∈ names, ∃ c, s.child n = some c) : (listNames names s).2 = s := by
  induction names with
  | nil => rfl
  | cons n names ih =>
      obtain ⟨c, hc⟩ := h n List.mem_cons_self
      have hsame : s.setChild n (s.childD {} n) = s := by
        rw [PathTree.childD, hc, Option.getD_some]
        exact PathTree.setChild_of_child hc
      have hstep : (listNames (n :: names) s).2 = (listNames names (s.setChild n (s.childD {} n))).2 := rfl
      rw [hstep, hsame]
      exact ih fun k hk => h k (List.mem_cons_of_mem n hk)

/-- **A look-up leaves the tree as it is** exactly if the node it walks to is there. -/
theorem Lookup.run_eq_iff (hr : Refines root m) (hb : Built root m) (l : Lookup) :
    (l.run root).2 = root ↔ PathTree.has l.way root = true := by
  have hlook : ∀ (β : Type) (find : RegistryEntry → β) (path : PluginPath),
      (RegistryEntry.walk (fun s => (find s, s)) path root).2 = root ↔
        PathTree.has path.listNodes root = true := by
    intro β find path
    rw [RegistryEntry.walk, PathTree.descend_eq_self_iff]
    exact and_iff_left rfl
  cases l with
  | get path =>
      rw [Lookup.run, Prod.map_snd, id, PluginRegistry.get]
      exact hlook _ _ path
  | empty path =>
      rw [Lookup.run, Prod.map_snd, id, PluginRegistry.empty]
      exact hlook _ _ path
  | exists' path =>
      rw [Lookup.run, Prod.map_snd, id, PluginRegistry.exists']
      exact hlook _ _ path
  | list path =>
      have hbody := listNames_eq_self (s := PathTree.sub {} path.listNodes root) fun n hn => hb.child hr hn
      rw [Lookup.run, Prod.map_snd, id, PluginRegistry.list, RegistryEntry.walk, PathTree.descend_eq_self_iff]
      exact and_iff_left hbody
  | parentPlugins path =>
      rw [Lookup.run, Prod.map_snd, id, PluginRegistry.parentPlugins, parentsOf_eq_descend,
        PathTree.descend_eq_self_iff]
      exact and_iff_left rfl

theorem Shared.run_eq_iff (hr : Refines root m) (hb : Built root m) (o : Shared) :
    (o.run root).2 = root ↔ o.Finds root := by
  cases o with
  | lookup l => exact Lookup.run_eq_iff hr hb l
  | dump => exact ⟨fun _ => trivial, fun _ => rfl⟩

/-- Sections that leave the tree as it is give what each of them gives alone. -/
theorem runShared_of_keeps {os : List Shared} (h : ∀ o ∈ os, (o.run root).2 = root) :
    runShared os root = (os.map fun o => (o.run root).1, root) := by
  induction os with
  | nil => rfl
  | cons o os ih =>
      have hrest := ih fun o' ho' => h o' (List.mem_cons_of_mem o ho')
      have hstep : runShared (o :: os) root =
          (runShared os (o.run root).2).map ((o.run root).1 :: ·) id := rfl
      rw [hstep, h o List.mem_cons_self, hrest]
      rfl

/-- **Where a shared section is a read**: on every tree that the registry can have, a
section under the shared lock leaves the tree as it is exactly if the node at the end of
its walk is there; and where all of some sections do, they leave it as it is in any order,
each with the result it has alone. -/
theorem shared_reads_iff (ops : List Op) :
    (∀ o : Shared, (o.run (runAll ops .init).2).2 = (runAll ops .init).2 ↔ o.Finds (runAll ops .init).2) ∧
      ∀ os : List Shared, (∀ o ∈ os, o.Finds (runAll ops .init).2) →
        runShared os (runAll ops .init).2 =
          (os.map fun o => (o.run (runAll ops .init).2).1, (runAll ops .init).2) := by
  have hkeeps : ∀ o : Shared,
      (o.run (runAll ops .init).2).2 = (runAll ops .init).2 ↔ o.Finds (runAll ops .init).2 :=
    fun o => o.run_eq_iff (refines_init.run ops) (built_init.run ops)
  exact ⟨hkeeps, fun os h => runShared_of_keeps fun o ho => (hkeeps o).mpr (h o ho)⟩

theorem slashA_nonempty : "a".toList ≠ [] := by decide

theorem slashA_chars : ∀ c ∈ "a".toList, nameChar c = true := List.all_eq_true.mp (by decide)

/-- The path `/a`. -/
def slashA : PluginPath := ⟨[⟨"a", slashA_nonempty, slashA_chars⟩]⟩

/-- A look-up of a path that was never used makes a node. -/
theorem get_inserts :
    ¬ ∀ (ops : List Op) (o : Shared), (o.run (runAll ops .init).2).2 = (runAll ops .init).2 := by
  intro h
  have hget := h [] (.lookup (.get slashA))
  have hchildren := congrArg (fun root : RegistryEntry => root.children.length) hget
  exact absurd hchildren (by decide)

end PothosCore.Plugins.PluginRegistry

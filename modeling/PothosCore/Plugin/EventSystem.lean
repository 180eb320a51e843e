import PothosCore.Plugin.RegistryMap
import PothosCore.Lib.Transition

/-!
# PothosCore.Plugin.EventSystem

Calls of `PluginRegistry::add` that run at the same time. A call inserts its plugin, asks
the plugins above it (`handlePluginEvent`) and then walks over the subtree below it
(`handleMissedSubTreeEvents`). What a call has still to do is a list of tasks, and a
section under the registry lock is one task, so that the sections of different calls can
come in any order.

The events are logged as pairs of a handler and the plugin the event is about.
-/

namespace PothosCore.Plugins

open PothosCore.Lib

/-- What a call of `add` does next. -/
inductive Task
  /-- The locked insertion. -/
  | insert
  /-- The locked look-up of the plugins above. -/
  | parents
  /-- `callPluginEventHandler(handler, plugin, "add")` -/
  | deliver (handler plugin : Plugin)
  /-- `PluginRegistry::list` for the loop over a directory. -/
  | list (path : PluginPath)
  /-- `PluginRegistry::get` of a name in the directory. -/
  | get (path : PluginPath)
  deriving DecidableEq

/-- A call of `add`: the module that is being loaded, the plugin, and what is to do. -/
structure Adder where
  active : PluginModule
  plugin : Plugin
  todo : List Task
  deriving DecidableEq

/-- An event: the path of the handler and of the plugin. -/
abbrev Event := PluginPath × PluginPath

def Adder.start (active : PluginModule) (plugin : Plugin) : Adder := ⟨active, plugin, [.insert]⟩

/-- What the handler sees of a call. -/
def delivered (handler plugin : Plugin) : List Event :=
  if canObjectHandleEvent handler.object then [(handler.path, plugin.path)] else []

/-- The loop body for the names of a directory. -/
def visit (path : PluginPath) (names : List Name) : List Task :=
  names.flatMap fun name => [.get (path.join name), .list (path.join name)]

/-- The next task of a call. A call that throws is over. -/
def Adder.step (a : Adder) (tree : RegistryEntry) : Option (Adder × RegistryEntry × List Event) :=
  match a.todo with
  | [] => none
  | .insert :: todo =>
      match PluginRegistry.add a.active a.plugin tree with
      | (.ok plugin, tree) => some (⟨a.active, plugin, .parents :: .list plugin.path :: todo⟩, tree, [])
      | (.error _, tree) => some ({ a with todo := [] }, tree, [])
  | .parents :: todo =>
      let (parents, tree) := PluginRegistry.parentPlugins a.plugin.path tree
      some ({ a with todo := parents.map (.deliver · a.plugin) ++ todo }, tree, [])
  | .deliver handler plugin :: todo => some ({ a with todo := todo }, tree, delivered handler plugin)
  | .list path :: todo =>
      let (names, tree) := PluginRegistry.list path tree
      some ({ a with todo := visit path names ++ todo }, tree, [])
  | .get path :: todo =>
      match PluginRegistry.get path tree with
      | (.ok plugin, tree) => some ({ a with todo := .deliver a.plugin plugin :: todo }, tree, [])
      | (.error _, tree) => some ({ a with todo := todo }, tree, [])

/-- The registry, the calls, and the events so far. -/
structure System where
  tree : RegistryEntry
  adders : List Adder
  log : List Event

namespace System

/-- Calls for these plugins on an empty registry. -/
def start (adds : List (PluginModule × Plugin)) : System :=
  ⟨.init, adds.map fun (active, plugin) => .start active plugin, []⟩

/-- Call number `i` does its next task. -/
def step (s : System) (i : Nat) : Option System :=
  (s.adders[i]?).bind fun a =>
    (a.step s.tree).map fun (a, tree, events) => ⟨tree, s.adders.set i a, s.log ++ events⟩

/-- Are all calls over? -/
def Finished (s : System) : Prop := ∀ a ∈ s.adders, a.todo = []

/-- Is the plugin registered? -/
def Registered (s : System) (plugin : Plugin) : Prop := (PluginRegistry.get plugin.path s.tree).1 = .ok plugin

end System

/-- Is the second path strictly below the first? -/
def Above (h p : PluginPath) : Prop := h.nodes <+: p.nodes ∧ h ≠ p

instance (h p : PluginPath) : Decidable (Above h p) := by unfold Above; infer_instance

namespace System

/-- Each registered handler has had one event for each plugin below it. -/
def DeliveredOnce (s : System) : Prop :=
  ∀ handler plugin : Plugin, s.Registered handler → s.Registered plugin →
    canObjectHandleEvent handler.object = true → Above handler.path plugin.path →
    s.log.count (handler.path, plugin.path) = 1

end System

/-! ### One task -/

/-- What takes the place of a task in the list. -/
noncomputable def expand (m : PathMap) (own : Plugin) : Task → List Task
  | .insert => [.parents, .list own.path]
  | .parents => (m.parents own.path.nodes).map (.deliver · own)
  | .deliver _ _ => []
  | .list path =>
      open Classical in
      visit path ((m.childNames path.nodes).filter fun n => decide (m.Occupied (path.nodes ++ [n])))
  | .get path =>
      match m.plugin path.nodes with
      | some plugin => [.deliver own plugin]
      | none => []

/-- The events of a task. -/
def Task.events : Task → List Event
  | .deliver handler plugin => delivered handler plugin
  | _ => []

variable {tree tree' : RegistryEntry} {m : PathMap} {a a' : Adder} {events : List Event}

/-- A task other than the insertion leaves the map as it is. -/
theorem Adder.step_other (hr : PluginRegistry.Refines tree m) (hstep : a.step tree = some (a', tree', events))
    {task : Task} {todo : List Task} (htodo : a.todo = task :: todo) (htask : task ≠ .insert) :
    PluginRegistry.Refines tree' m ∧ a' = { a with todo := expand m a.plugin task ++ todo } ∧
      events = task.events := by
  rw [Adder.step, htodo] at hstep
  cases task with
  | insert => exact absurd rfl htask
  | parents =>
      cases hparents : PluginRegistry.parentPlugins a.plugin.path tree with
      | mk parents tree'' =>
          simp only [hparents] at hstep
          cases hstep
          obtain ⟨rfl, hkept⟩ := hr.parentPlugins hparents
          exact ⟨hkept, rfl, rfl⟩
  | deliver handler plugin =>
      cases hstep
      exact ⟨hr, rfl, rfl⟩
  | list path =>
      cases hlist : PluginRegistry.list path tree with
      | mk names tree'' =>
          simp only [hlist] at hstep
          cases hstep
          obtain ⟨rfl, hkept⟩ := hr.list hlist
          exact ⟨hkept, rfl, rfl⟩
  | get path =>
      cases hget : PluginRegistry.get path tree with
      | mk result tree'' =>
          obtain ⟨rfl, hkept⟩ := hr.get hget
          rw [expand]
          cases hp : m.plugin path.nodes with
          | none =>
              simp only [hget, PluginPath.listNodes, hp] at hstep
              cases hstep
              exact ⟨hkept, rfl, rfl⟩
          | some plugin =>
              simp only [hget, PluginPath.listNodes, hp] at hstep
              cases hstep
              exact ⟨hkept, rfl, rfl⟩

/-- The insertion of a plugin at a free path. -/
theorem Adder.step_insert (hr : PluginRegistry.Refines tree m) (hstep : a.step tree = some (a', tree', events))
    {todo : List Task} (htodo : a.todo = .insert :: todo) (hfree : m.plugin a.plugin.path.nodes = none) :
    PluginRegistry.Refines tree' (m.next (.add a.active a.plugin)) ∧
      a' = ⟨a.active, { a.plugin with module := a.active }, expand m a.plugin .insert ++ todo⟩ ∧ events = [] := by
  rw [Adder.step, htodo] at hstep
  cases hadd : PluginRegistry.add a.active a.plugin tree with
  | mk result tree'' =>
      obtain ⟨hresult, hkept⟩ := hr.add_free a.active hfree
      rw [hadd] at hresult hkept
      dsimp only at hresult hkept
      simp only [hadd, hresult] at hstep
      cases hstep
      exact ⟨hkept, rfl, rfl⟩

end PothosCore.Plugins

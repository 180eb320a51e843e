import PothosCore.Lib.PathTree
import PothosCore.Plugin.Path

/-!
# PothosCore.Plugin.Registry

The plugin registry: a tree of entries, and the sections of its calls that run under the
lock. A section takes the tree and gives its result and the tree it leaves. The entries
of a node are found with `nodes[name]`, which makes an entry where there is none, so the
look-ups return a tree like the others; only the dump does not.

A call of `add` or `remove` is its own section followed by the one that collects the
plugins on the way to the root (`parentPlugins`), and for `add` by one `list` and `get`
after the other over the subtree.
-/

namespace PothosCore.Plugins

open PothosCore.Lib

/-! ### Plugins -/

/-- What a callable returns and takes. -/
structure Signature where
  result : String
  args : List String
  deriving DecidableEq

/-- An object that is not null: its type, its text, and the signature where it is a
`Pothos::Callable` that is not null. -/
structure Object where
  type : String
  text : String
  call : Option Signature
  deriving DecidableEq

structure PluginModule where
  filePath : String := ""
  version : String := ""
  deriving DecidableEq

structure Plugin where
  path : PluginPath := .root
  object : Option Object := none
  module : PluginModule := {}
  deriving DecidableEq

def canObjectHandleEvent (obj : Option Object) : Bool :=
  match obj with
  | none => false
  | some obj =>
      obj.type == "Pothos::Callable" &&
        match obj.call with
        | none => false
        | some call =>
            call.result == "void" && call.args.length == 2 &&
              call.args[0]? == some "Pothos::Plugin" && call.args[1]? == some "std::string"

/-! ### Entries -/

/-- The members of `RegistryEntry` other than `nodes`. -/
structure Entry where
  plugin : Plugin := {}
  hasPlugin : Bool := false
  nodeNamesOrdered : List Name := []
  deriving DecidableEq

abbrev RegistryEntry := PathTree Name Entry

namespace RegistryEntry

/-- The registry that has seen no call. -/
def init : RegistryEntry := .leaf {}

def getNumPlugins (root : RegistryEntry) : Nat := root.count (·.hasPlugin)

/-- Walk down a path with `nodes[name]`. -/
def walk {β : Type} (body : RegistryEntry → β × RegistryEntry) (path : PluginPath) :
    RegistryEntry → β × RegistryEntry :=
  PathTree.descend (fun _ entry => entry) {} body path.listNodes

end RegistryEntry

/-- `Pothos::PluginRegistryError` -/
def registryError (call : String) (path : PluginPath) (message : String) : Fault :=
  .thrown "PluginRegistryError" ("Pothos::PluginRegistry::" ++ call ++ "(" ++ path.toString ++ ")") message

def notFound (call : String) (path : PluginPath) : Fault := registryError call path "plugin path not found"

def alreadyRegistered (path : PluginPath) (loading current : PluginModule) : Fault :=
  registryError "add" path
    ("plugin already registered\n\tLoading: " ++ loading.filePath ++ ", Conflicts: " ++ current.filePath)

namespace PluginRegistry

/-! ### The sections under the lock -/

/-- A name gets its place in the order at its first use. -/
def orderName (name : Name) (entry : Entry) : Entry :=
  if name ∈ entry.nodeNamesOrdered then entry
  else { entry with nodeNamesOrdered := entry.nodeNamesOrdered ++ [name] }

/-- Store the plugin with the module that is being loaded, unless there is one. -/
def store (active : PluginModule) (plugin : Plugin) (root : RegistryEntry) :
    Except Fault Plugin × RegistryEntry :=
  if root.value.hasPlugin then
    (.error (alreadyRegistered plugin.path active root.value.plugin.module), root)
  else
    let plugin := { plugin with module := active }
    (.ok plugin, root.mapValue fun entry => { entry with hasPlugin := true, plugin := plugin })

/-- The insertion of `add`. It gives the plugin that the events are about. -/
def add (active : PluginModule) (plugin : Plugin) : RegistryEntry → Except Fault Plugin × RegistryEntry :=
  PathTree.descend orderName {} (store active plugin) plugin.path.listNodes

def get (path : PluginPath) : RegistryEntry → Except Fault Plugin × RegistryEntry :=
  RegistryEntry.walk (fun root =>
    (if root.value.hasPlugin then .ok root.value.plugin else .error (notFound "get" path), root)) path

/-- Clear the entry and give what it had. -/
def clear (path : PluginPath) (root : RegistryEntry) : Except Fault Plugin × RegistryEntry :=
  if root.value.hasPlugin then
    (.ok root.value.plugin, root.mapValue fun entry => { entry with hasPlugin := false, plugin := {} })
  else (.error (notFound "remove" path), root)

def remove (path : PluginPath) : RegistryEntry → Except Fault Plugin × RegistryEntry :=
  RegistryEntry.walk (clear path) path

def empty (path : PluginPath) : RegistryEntry → Bool × RegistryEntry :=
  RegistryEntry.walk (fun root => (!root.value.hasPlugin, root)) path

def exists' (path : PluginPath) : RegistryEntry → Bool × RegistryEntry :=
  RegistryEntry.walk (fun root => (RegistryEntry.getNumPlugins root != 0, root)) path

/-- The loop of `list`, with a `nodes[name]` of its own. -/
def listNames : List Name → RegistryEntry → List Name × RegistryEntry
  | [], root => ([], root)
  | name :: names, root =>
      let node := root.childD {} name
      let (nodes, root) := listNames names (root.setChild name node)
      (if RegistryEntry.getNumPlugins node ≠ 0 then name :: nodes else nodes, root)

def list (path : PluginPath) : RegistryEntry → List Name × RegistryEntry :=
  RegistryEntry.walk (fun root => listNames root.value.nodeNamesOrdered root) path

/-- The plugins on the way to the last name of the path, the nearest first. -/
def parentsOf : List Name → RegistryEntry → List Plugin × RegistryEntry
  | [], root => ([root.value.plugin], root)
  | [_], root => ([root.value.plugin], root)
  | name :: next :: pathNodes, root =>
      let (parents, node) := parentsOf (next :: pathNodes) (root.childD {} name)
      (parents ++ [root.value.plugin], root.setChild name node)

/-- The section of `handlePluginEvent`. -/
def parentPlugins (path : PluginPath) : RegistryEntry → List Plugin × RegistryEntry :=
  parentsOf path.listNodes

/-! ### The dump -/

/-- `Pothos::PluginRegistryInfoDump` -/
inductive InfoDump
  | node (pluginPath objectType modulePath moduleVersion : String) (subInfo : List InfoDump)

mutual

/-- `loadInfoDump` -/
def loadInfoDump (path : PluginPath) : RegistryEntry → Except Fault InfoDump
  | .node entry nodes => do
      if entry.hasPlugin && entry.plugin.path != path then
        throw (.assertion "path == entry.plugin.getPath()")
      let subInfo ← entry.nodeNamesOrdered.mapM fun name => loadAt path name nodes
      let module := entry.plugin.module
      .ok (.node path.toString
        (if entry.hasPlugin then (entry.plugin.object.map (·.text)).getD "" else "")
        (if entry.hasPlugin then module.filePath else "")
        (if entry.hasPlugin then module.version else "") subInfo)

/-- The dump of `entry.nodes.at(name)`. -/
def loadAt (path : PluginPath) (name : Name) : List (Name × RegistryEntry) → Except Fault InfoDump
  | [] => .error (.thrown "std::out_of_range" "nodes.at" name.text)
  | (name', node) :: nodes =>
      if name' = name then loadInfoDump (path.join name) node else loadAt path name nodes

end

def dump (root : RegistryEntry) : Except Fault InfoDump := loadInfoDump .root root

/-! ### Sections by name -/

/-- The sections that take the lock in shared mode and walk with `nodes[name]`. -/
inductive Lookup
  | get (path : PluginPath)
  | empty (path : PluginPath)
  | exists' (path : PluginPath)
  | list (path : PluginPath)
  | parentPlugins (path : PluginPath)
  deriving DecidableEq

/-- The sections that change the tree, and the look-ups. -/
inductive Op
  | add (active : PluginModule) (plugin : Plugin)
  | remove (path : PluginPath)
  | lookup (l : Lookup)
  deriving DecidableEq

/-- What a section gives. -/
inductive Answer
  | plugin (result : Except Fault Plugin)
  | flag (result : Bool)
  | names (result : List Name)
  | plugins (result : List Plugin)

def Lookup.run : Lookup → RegistryEntry → Answer × RegistryEntry
  | .get path, root => (PluginRegistry.get path root).map .plugin id
  | .empty path, root => (PluginRegistry.empty path root).map .flag id
  | .exists' path, root => (PluginRegistry.exists' path root).map .flag id
  | .list path, root => (PluginRegistry.list path root).map .names id
  | .parentPlugins path, root => (PluginRegistry.parentPlugins path root).map .plugins id

def Op.run : Op → RegistryEntry → Answer × RegistryEntry
  | .add active plugin, root => (PluginRegistry.add active plugin root).map .plugin id
  | .remove path, root => (PluginRegistry.remove path root).map .plugin id
  | .lookup l, root => l.run root

/-- The answers of one section after the other, and the tree they leave. -/
def runAll : List Op → RegistryEntry → List Answer × RegistryEntry
  | [], root => ([], root)
  | op :: ops, root =>
      let (answer, root) := op.run root
      (runAll ops root).map (answer :: ·) id

/-- The trees that the sections make, in any order and number. -/
def Reachable (root : RegistryEntry) : Prop := ∃ ops, (runAll ops .init).2 = root

end PluginRegistry

end PothosCore.Plugins

import Mathlib.Data.List.Dedup
import Mathlib.Data.List.Infix
import Mathlib.Logic.Function.Basic
import PothosCore.Fault
import PothosCore.Framework.TopologyCommit

/-!
# PothosCore.Framework.TopologyNetworkFlows

How a commit cuts the flows between processes: `createNetworkFlows`, with the cache of
network blocks that outlives a commit.

All flows from one port into one process share a pair of network blocks, which the cache
keeps under the port with the process appended to its name. Blocks are known by their
uids; which process a block lives in is part of the state, since a commit makes blocks.
-/

namespace PothosCore.Framework

/-- `getUniquePid()`: node name, node id and process id with slashes between. A node
name is a host name, so no arrow occurs. -/
structure UniquePid where
  text : String
  noArrow : ¬ "->".toList <:+: text.toList
  deriving DecidableEq

/-- `envTagPort(port, other)`, for the process of `other`. -/
def envTagPort (port : Port) (upid : UniquePid) : Port :=
  { port with name := port.name ++ "->" ++ upid.text }

/-- The source and the sink of a network connection. -/
structure NetBlocks where
  source : String
  sink : String
  deriving Repr, DecidableEq

/-- The blocks there are, as far as a commit is concerned: those of the user, those in
the cache, and the process of each. -/
structure Netgress where
  upid : String → UniquePid
  /-- The blocks that the user made. -/
  user : List String
  /-- The network blocks that were made for some commit. -/
  inserted : List String
  srcToNetgressCache : Port → Option NetBlocks

/-- Where the network blocks of a flow go. -/
structure NetPlaces where
  source : UniquePid
  sink : UniquePid

/-- `createNetworkFlow(flow)`, as far as the processes go: one block binds and the other
connects. The sink binds, unless its process is local and so cannot tell its address. -/
def createNetworkFlow (local' : UniquePid → Bool) (src dst : UniquePid) : NetPlaces :=
  let bindEnv := if local' src then dst else src
  let connEnv := if local' src then src else dst
  if local' src then { source := bindEnv, sink := connEnv } else { source := connEnv, sink := bindEnv }

namespace Netgress

/-- The flow stays in its process. -/
def SameProcess (s : Netgress) (flow : Flow) : Prop := s.upid flow.src.uid = s.upid flow.dst.uid

instance (s : Netgress) (flow : Flow) : Decidable (s.SameProcess flow) :=
  inferInstanceAs (Decidable (_ = _))

/-- The key of a flow in the map and in the cache. -/
def key (s : Netgress) (flow : Flow) : Port := envTagPort flow.src (s.upid flow.dst.uid)

/-- `srcToFlows[key]`. -/
def srcToFlows (s : Netgress) (flatFlows : List Flow) (key : Port) : List Flow :=
  flatFlows.filter fun flow => ¬ s.SameProcess flow ∧ s.key flow = key

/-- The keys of `srcToFlows`. -/
def netKeys (s : Netgress) (flatFlows : List Flow) : List Port :=
  ((flatFlows.filter fun flow => ¬ s.SameProcess flow).map s.key).dedup

/-- The keys that are not in the cache. -/
def missing (s : Netgress) (keys : List Port) : List Port :=
  keys.filter fun key => (s.srcToNetgressCache key).isNone

/-- Make the network blocks of a key, with uids from `fresh`, and load them into the
cache. -/
def load (local' : UniquePid → Bool) (fresh : Port → NetBlocks) (flatFlows : List Flow)
    (s : Netgress) (key : Port) : Netgress :=
  match s.srcToFlows flatFlows key with
  | [] => s
  | flow :: _ =>
      let places := createNetworkFlow local' (s.upid flow.src.uid) (s.upid flow.dst.uid)
      let blocks := fresh key
      { s with
        upid := Function.update (Function.update s.upid blocks.source places.source)
          blocks.sink places.sink
        inserted := blocks.source :: blocks.sink :: s.inserted
        srcToNetgressCache := Function.update s.srcToNetgressCache key (some blocks) }

/-- The flows that replace those of one key. -/
def netFlows (flows : List Flow) (blocks : Option NetBlocks) : Except Fault (List Flow) :=
  match flows, blocks with
  | [], _ => .error (.assertion "not pair.second.empty()")
  | _, none => .error (.undefined "srcToNetgressCache.at(pair.first)")
  | first :: _, some blocks =>
      -- the source to netSink flow, and the netSource to dest flows
      if flows.all (·.src = first.src) then
        .ok (⟨first.src, ⟨blocks.sink, "0"⟩⟩ :: flows.map fun flow => ⟨⟨blocks.source, "0"⟩, flow.dst⟩)
      else .error (.assertion "flow.src == srcFlow.src")

/-- `createNetworkFlows(flatFlows)`. The keys come in the order of a hash map: `keys` is
that order. -/
def createNetworkFlows (local' : UniquePid → Bool) (fresh : Port → NetBlocks) (s : Netgress)
    (flatFlows : List Flow) (keys : List Port) : Except Fault (List Flow × Netgress) := do
  let s' := (s.missing keys).foldl (load local' fresh flatFlows) s
  let net ← keys.mapM fun key => netFlows (s.srcToFlows flatFlows key) (s'.srcToNetgressCache key)
  .ok (flatFlows.filter (s.SameProcess ·) ++ net.flatten, s')

/-- The end of `commit`: only what the complete flows use stays in the cache. -/
def prune (s : Netgress) (flatFlows : List Flow) : Netgress :=
  { s with
    srcToNetgressCache := fun port =>
      if port ∈ flatFlows.map s.key then s.srcToNetgressCache port else none }

/-! ### Commits one after the other -/

/-- No block and no cached network blocks; `here` is the process. -/
def start (here : UniquePid) : Netgress := ⟨fun _ => here, [], [], fun _ => none⟩

/-- The names are of no block there is, and differ. -/
def Fresh (s : Netgress) (names : List String) : Prop :=
  names.Nodup ∧ ∀ uid ∈ names, uid ∉ s.user ∧ uid ∉ s.inserted

instance (s : Netgress) (names : List String) : Decidable (s.Fresh names) :=
  inferInstanceAs (Decidable (_ ∧ _))

/-- The names that `fresh` gives to the network blocks of the keys. -/
def netNames (fresh : Port → NetBlocks) (keys : List Port) : List String :=
  keys.flatMap fun key => [(fresh key).source, (fresh key).sink]

/-- Flows of the user's blocks, none of them twice, and their keys in some order. -/
structure Admits (s : Netgress) (flatFlows : List Flow) (keys : List Port)
    (fresh : Port → NetBlocks) : Prop where
  nodup : flatFlows.Nodup
  user : ∀ flow ∈ flatFlows, flow.src.uid ∈ s.user ∧ flow.dst.uid ∈ s.user
  perm : keys.Perm (s.netKeys flatFlows)
  names : s.Fresh (netNames fresh (s.missing keys))

/-- What happens to the blocks and the cache. A commit can fail while the network blocks
are loaded into the cache, or later and before the cache is pruned. -/
inductive Step (local' : UniquePid → Bool) : Netgress → Netgress → Prop
  | newBlock (s : Netgress) (uid : String) (upid : UniquePid) (h : s.Fresh [uid]) :
      Step local' s { s with upid := Function.update s.upid uid upid, user := uid :: s.user }
  | load (s : Netgress) (flatFlows : List Flow) (keys loaded : List Port) (fresh : Port → NetBlocks)
      (h : s.Admits flatFlows keys fresh) (hloaded : loaded.Sublist (s.missing keys)) :
      Step local' s (loaded.foldl (Netgress.load local' fresh flatFlows) s)
  | prune (s : Netgress) (flatFlows : List Flow) : Step local' s (s.prune flatFlows)

/-- What earlier commits can have left. -/
inductive Reachable (local' : UniquePid → Bool) (here : UniquePid) : Netgress → Prop
  | start : Reachable local' here (start here)
  | step {s t : Netgress} : Reachable local' here s → Step local' s t → Reachable local' here t

end Netgress

end PothosCore.Framework

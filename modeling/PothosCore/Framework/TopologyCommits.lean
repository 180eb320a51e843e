import PothosCore.Framework.TopologyInsertedBlocks
import PothosCore.Framework.TopologyPassThroughs
import PothosCore.Framework.TopologySubscriptions

/-!
# PothosCore.Framework.TopologyCommits

The whole `commit`: from the hierarchy of a topology to the subscriptions in every process,
with the network blocks and the copiers in between, after any commits before.

What the environment decides comes with the commit: the uids of new blocks, the order of
the hash maps and, for each process, the order of the calls that threads make.
-/

namespace PothosCore.Framework

open PothosCore.Lib

/-- The flow with its objects forgotten. -/
def ObjFlow.flow (flow : ObjFlow) : Flow := ⟨flow.src.port, flow.dst.port⟩

/-- The blocks with the cache of network blocks, and `remoteTopologies`: the processes that
have one, and what it has committed. -/
structure Processes where
  net : Netgress
  upids : List UniquePid
  topologies : UniquePid → Topology

/-- A `commit` of the topology `top`, with what the environment decides. -/
structure WholeCommit where
  hierarchy : Hierarchy
  top : String
  depth : ℕ
  keys : List Port
  fresh : Port → NetBlocks
  copier : Bool → Port → String
  orders : UniquePid → Topology.Commit

namespace WholeCommit

/-- The flows that `completePassThroughFlows` gives. -/
def completeFlows (c : WholeCommit) : List Flow :=
  (c.hierarchy.completeFlows c.depth c.top).map ObjFlow.flow

end WholeCommit

namespace Processes

variable (b : Blocks) (local' : UniquePid → Bool)

/-- No block and no topology. -/
def start (here : UniquePid) : Processes := ⟨.start here, [], fun _ => .start⟩

/-- A new block of the user, in a process. -/
def newBlock (net : Netgress) (uid : String) (upid : UniquePid) : Netgress :=
  { net with upid := Function.update net.upid uid upid, user := uid :: net.user }

/-- The copiers that `domainInspection` makes, each in the process of its port. -/
def copiers (copier : Bool → Port → String) (net : Netgress) (netFlows : List Flow) :
    List (String × UniquePid) :=
  ((netFlows.map (·.dst)).dedup.filter fun dst =>
      b.isDomainCrossingAcceptable dst (Blocks.srcsOf netFlows dst) true = false).map
    (fun dst => (copier true dst, net.upid dst.uid)) ++
  ((netFlows.map (·.src)).dedup.filter fun src =>
      b.isDomainCrossingAcceptable src (Blocks.dstsOf netFlows src) false = false).map
    fun src => (copier false src, net.upid src.uid)

/-- The blocks with the copiers. -/
def addCopiers (copier : Bool → Port → String) (net : Netgress) (netFlows : List Flow) : Netgress :=
  (copiers b copier net netFlows).foldl (fun net made => newBlock net made.1 made.2) net

/-- `disconnectAll`, the `connect` of each flow, and `subCommit` of the topology of a process. -/
def subCommit (orders : UniquePid → Topology.Commit) (net : Netgress) (flatFlows : List Flow)
    (topologies : UniquePid → Topology) (upid : UniquePid) : Option (UniquePid → Topology) :=
  if (orders upid).flatFlows = flatFlows.filter (fun flow => net.upid flow.src.uid = upid) then
    (Topology.step b (topologies upid) (orders upid)).map (Function.update topologies upid)
  else none

/-- `commit()`, when it returns. -/
def commit (s : Processes) (c : WholeCommit) : Option Processes :=
  match s.net.createNetworkFlows local' c.fresh c.completeFlows c.keys with
  | .error _ => none
  | .ok (netFlows, net) =>
      let flatFlows := b.rectifyDomainFlows c.copier netFlows
      let net := addCopiers b c.copier net netFlows
      -- create remote topologies for all environments
      let upids := (s.upids ++ flatFlows.map fun flow => net.upid flow.src.uid).dedup
      match upids.foldlM (subCommit b c.orders net flatFlows) s.topologies with
      | none => none
      | some topologies => some ⟨net.prune c.completeFlows, upids, topologies⟩

/-- The uids that the environment gives are new, and its orders are orders. -/
def Admits (s : Processes) (c : WholeCommit) : Prop :=
  c.hierarchy.height c.top < c.depth ∧ s.net.Admits c.completeFlows c.keys c.fresh ∧
    ∀ netFlows net, s.net.createNetworkFlows local' c.fresh c.completeFlows c.keys = .ok (netFlows, net) →
      net.Fresh (copierNames c.copier netFlows)

/-- The user makes a block, or commits. -/
inductive Action
  | newBlock (uid : String) (upid : UniquePid)
  | commit (c : WholeCommit)

/-- A step. A commit is one that returns. -/
inductive Step : Processes → Action → Processes → Prop
  | newBlock (s : Processes) (uid : String) (upid : UniquePid) (h : s.net.Fresh [uid]) :
      Step s (.newBlock uid upid) { s with net := newBlock s.net uid upid }
  | commit (s t : Processes) (c : WholeCommit) (hadmits : s.Admits local' c) (hcommit : commit b local' s c = some t) :
      Step s (.commit c) t

/-- A port is subscribed to another, in some process. -/
def Feeds (s : Processes) (src dst : Port) : Prop := ∃ upid, dst ∈ (s.topologies upid).outputs src

/-! ### The copiers -/

variable {b : Blocks} {local' : UniquePid → Bool} {here : UniquePid}

theorem reachable_newBlocks {made : List (String × UniquePid)} {net : Netgress}
    (hnet : Netgress.Reachable local' here net) (hfresh : net.Fresh (made.map (·.1))) :
    Netgress.Reachable local' here (made.foldl (fun net made => newBlock net made.1 made.2) net) := by
  induction made generalizing net with
  | nil => exact hnet
  | cons m made ih =>
      obtain ⟨hnodup, hnew⟩ := hfresh
      rw [List.map_cons, List.nodup_cons] at hnodup
      have hm := hnew m.1 List.mem_cons_self
      have hstep : Netgress.Step local' net (newBlock net m.1 m.2) :=
        .newBlock net m.1 m.2 ⟨List.nodup_singleton _, fun uid huid => List.mem_singleton.mp huid ▸ hm⟩
      refine ih (hnet.step hstep)
        ⟨hnodup.2, fun uid huid => ⟨fun hmem => ?_, (hnew uid (List.mem_cons_of_mem _ huid)).2⟩⟩
      rcases List.mem_cons.mp hmem with rfl | hmem
      · exact hnodup.1 huid
      · exact (hnew uid (List.mem_cons_of_mem _ huid)).1 hmem

/-- New blocks leave the others, and the cache, alone. -/
theorem newBlocks_spec {made : List (String × UniquePid)} (net : Netgress) (hnodup : (made.map (·.1)).Nodup) :
    let net' := made.foldl (fun net made => newBlock net made.1 made.2) net
    net'.srcToNetgressCache = net.srcToNetgressCache ∧ (∀ uid ∈ net.user, uid ∈ net'.user) ∧
      (∀ uid, uid ∉ made.map (·.1) → net'.upid uid = net.upid uid) ∧ ∀ m ∈ made, net'.upid m.1 = m.2 := by
  induction made generalizing net with
  | nil => exact ⟨rfl, fun _ h => h, fun _ _ => rfl, fun _ h => absurd h List.not_mem_nil⟩
  | cons m made ih =>
      rw [List.map_cons, List.nodup_cons] at hnodup
      obtain ⟨hcache, huser, hother, hmade⟩ := @ih (newBlock net m.1 m.2) hnodup.2
      refine ⟨hcache, fun uid huid => huser uid (List.mem_cons_of_mem _ huid), fun uid huid => ?_, fun x hx => ?_⟩
      · rw [List.map_cons, List.mem_cons, not_or] at huid
        rw [List.foldl_cons, hother uid huid.2]
        exact Function.update_of_ne huid.1 _ _
      · rcases List.mem_cons.mp hx with rfl | hx
        · rw [List.foldl_cons, hother x.1 hnodup.1]
          exact Function.update_self ..
        · exact hmade x hx

theorem copiers_sublist (copier : Bool → Port → String) (net : Netgress) (netFlows : List Flow) :
    ((copiers b copier net netFlows).map (·.1)).Sublist (copierNames copier netFlows) := by
  unfold copiers copierNames
  rw [List.map_append, List.map_map, List.map_map]
  exact (List.filter_sublist.map _).append (List.filter_sublist.map _)

theorem fresh_copiers {copier : Bool → Port → String} {net : Netgress} {netFlows : List Flow}
    (hfresh : net.Fresh (copierNames copier netFlows)) : net.Fresh ((copiers b copier net netFlows).map (·.1)) :=
  ⟨hfresh.1.sublist (copiers_sublist copier net netFlows),
    fun uid huid => hfresh.2 uid ((copiers_sublist copier net netFlows).subset huid)⟩

/-- A copier is in the process of the flow that it goes into. -/
theorem upid_copierOf {copier : Bool → Port → String} {net : Netgress} {netFlows : List Flow}
    (hfresh : net.Fresh (copierNames copier netFlows)) {flow : Flow} (hflow : flow ∈ netFlows)
    (hsame : net.SameProcess flow) {name : String} (hcopier : b.copierOf copier netFlows flow = some name) :
    (addCopiers b copier net netFlows).upid name = net.upid flow.src.uid := by
  have hmade := (newBlocks_spec net (fresh_copiers (b := b) hfresh).1).2.2.2
  unfold Blocks.copierOf at hcopier
  split_ifs at hcopier with hdst hsrc
  · obtain rfl := Option.some.inj hcopier
    refine (hmade (copier true flow.dst, net.upid flow.dst.uid) ?_).trans hsame.symm
    refine List.mem_append_left _ (List.mem_map.mpr ⟨flow.dst, List.mem_filter.mpr ⟨?_, by simpa using hdst⟩, rfl⟩)
    exact List.mem_dedup.mpr (List.mem_map_of_mem hflow)
  · obtain rfl := Option.some.inj hcopier
    refine hmade (copier false flow.src, net.upid flow.src.uid) ?_
    refine List.mem_append_right _ (List.mem_map.mpr ⟨flow.src, List.mem_filter.mpr ⟨?_, by simpa using hsrc⟩, rfl⟩)
    exact List.mem_dedup.mpr (List.mem_map_of_mem hflow)

/-! ### The topologies of the processes -/

/-- Each process commits the flows in it. -/
theorem subCommits_spec {orders : UniquePid → Topology.Commit} {net : Netgress} {flatFlows : List Flow}
    {upids : List UniquePid} {topologies topologies' : UniquePid → Topology}
    (h : upids.foldlM (subCommit b orders net flatFlows) topologies = some topologies')
    (hsync : ∀ upid, (topologies upid).InSync) :
    (∀ upid, (topologies' upid).InSync) ∧ (∀ upid, upid ∉ upids → topologies' upid = topologies upid) ∧
      ∀ upid ∈ upids, (topologies' upid).activeFlatFlows =
        flatFlows.filter fun flow => net.upid flow.src.uid = upid := by
  induction upids generalizing topologies with
  | nil =>
      obtain rfl := Option.some.inj h
      exact ⟨hsync, fun _ _ => rfl, fun _ h => absurd h List.not_mem_nil⟩
  | cons upid upids ih =>
      rw [List.foldlM_cons] at h
      obtain ⟨middle, hmiddle, hrest⟩ := Option.bind_eq_some_iff.mp h
      unfold subCommit at hmiddle
      split_ifs at hmiddle with hflows
      obtain ⟨t, ht, rfl⟩ := Option.map_eq_some_iff.mp hmiddle
      obtain ⟨hadmits, hcommit⟩ := Topology.step_inv ht
      obtain ⟨hactive, htsync, -⟩ := (hsync upid).topologySubCommit hadmits hcommit
      have hsync' : ∀ u, (Function.update topologies upid t u).InSync := by
        intro u
        by_cases hu : u = upid
        · rw [hu, Function.update_self]
          exact htsync
        · rw [Function.update_of_ne hu]
          exact hsync u
      obtain ⟨hall, hsame, hdone⟩ := ih hrest hsync'
      refine ⟨hall, fun u hu => ?_, fun u hu => ?_⟩
      · rw [List.mem_cons, not_or] at hu
        rw [hsame u hu.2, Function.update_of_ne hu.1]
      · by_cases hmem : u ∈ upids
        · exact hdone u hmem
        · obtain rfl : u = upid := (List.mem_cons.mp hu).resolve_right hmem
          rw [hsame u hmem, Function.update_self, hactive, hflows]

/-! ### Runs of commits -/

/-- What commits leave: the cache as it can get, and every process in step with what it has
committed. -/
structure Steady (local' : UniquePid → Bool) (here : UniquePid) (s : Processes) : Prop where
  net : Netgress.Reachable local' here s.net
  sync : ∀ upid, (s.topologies upid).InSync
  idle : ∀ upid, upid ∉ s.upids → s.topologies upid = .start

theorem steady_start (here : UniquePid) : Steady local' here (start here) :=
  ⟨.start, fun _ => Topology.InSync.start, fun _ _ => rfl⟩

/-- What a commit that returns has done. -/
structure Committed (b : Blocks) (local' : UniquePid → Bool) (s : Processes) (c : WholeCommit)
    (t : Processes) (netFlows : List Flow) (net : Netgress) : Prop where
  created : s.net.createNetworkFlows local' c.fresh c.completeFlows c.keys = .ok (netFlows, net)
  upid : t.net.upid = (addCopiers b c.copier net netFlows).upid
  active : ∀ upid, (t.topologies upid).activeFlatFlows =
    (b.rectifyDomainFlows c.copier netFlows).filter fun flow => t.net.upid flow.src.uid = upid

theorem loaded_of_created {s : Netgress} {fresh : Port → NetBlocks} {flatFlows netFlows : List Flow} {keys : List Port}
    {net : Netgress} (h : s.createNetworkFlows local' fresh flatFlows keys = .ok (netFlows, net)) :
    net = (s.missing keys).foldl (Netgress.load local' fresh flatFlows) s := by
  simp only [Netgress.createNetworkFlows] at h
  cases hm : keys.mapM fun key => Netgress.netFlows (s.srcToFlows flatFlows key)
      (((s.missing keys).foldl (Netgress.load local' fresh flatFlows) s).srcToNetgressCache key) with
  | error e => rw [hm] at h; cases h
  | ok flows =>
      rw [hm] at h
      exact (congrArg Prod.snd (Except.ok.inj h)).symm

theorem Steady.commit {s t : Processes} {c : WholeCommit} (hs : Steady local' here s) (hadmits : s.Admits local' c)
    (h : commit b local' s c = some t) :
    Steady local' here t ∧ ∃ netFlows net, Committed b local' s c t netFlows net := by
  unfold Processes.commit at h
  cases hcreated : s.net.createNetworkFlows local' c.fresh c.completeFlows c.keys with
  | error e => rw [hcreated] at h; cases h
  | ok made =>
      obtain ⟨netFlows, net⟩ := made
      rw [hcreated] at h
      simp only at h
      split at h
      · cases h
      · next topologies hfold =>
        obtain rfl := Option.some.inj h
        obtain ⟨hsync, hsame, hdone⟩ := subCommits_spec hfold hs.sync
        have hfresh := hadmits.2.2 netFlows net hcreated
        have hloaded : Netgress.Reachable local' here net := by
          rw [loaded_of_created hcreated]
          exact hs.net.step (.load s.net c.completeFlows c.keys _ c.fresh hadmits.2.1 (List.Sublist.refl _))
        have hcopiers := reachable_newBlocks hloaded (fresh_copiers (b := b) hfresh)
        refine ⟨⟨hcopiers.step (.prune _ c.completeFlows), hsync, fun upid hupid => ?_⟩, netFlows, net, hcreated, rfl,
          ?_⟩
        · refine (hsame upid hupid).trans (hs.idle upid fun hmem => hupid ?_)
          exact List.mem_dedup.mpr (List.mem_append_left _ hmem)
        · intro upid
          by_cases hupid : upid ∈ (s.upids ++ (b.rectifyDomainFlows c.copier netFlows).map fun flow =>
              (addCopiers b c.copier net netFlows).upid flow.src.uid).dedup
          · exact hdone upid hupid
          · -- a process without a topology has no flow either
            show (topologies upid).activeFlatFlows = _
            rw [List.mem_dedup, List.mem_append, not_or] at hupid
            rw [hsame upid fun hmem => (List.mem_append.mp (List.mem_dedup.mp hmem)).elim hupid.1 hupid.2,
              hs.idle upid hupid.1]
            refine (List.filter_eq_nil_iff.mpr fun flow hflow => ?_).symm
            rw [decide_eq_true_eq]
            exact fun heq => hupid.2 (List.mem_map.mpr ⟨flow, hflow, heq⟩)

theorem Steady.step {s t : Processes} {a : Action} (hs : Steady local' here s) (h : Step b local' s a t) :
    Steady local' here t := by
  cases h with
  | newBlock uid upid hfresh => exact ⟨hs.net.step (.newBlock s.net uid upid hfresh), hs.sync, hs.idle⟩
  | commit _ c hadmits hcommit => exact (hs.commit hadmits hcommit).1

theorem Steady.run {s t : Processes} {actions : List Action} (hs : Steady local' here s)
    (hrun : Exec (Step b local') s actions t) : Steady local' here t :=
  hrun.invariant (fun _ _ _ hs hstep => hs.step hstep) hs

/-! ### What a commit joins -/

theorem Committed.mem_outputs {s t : Processes} {c : WholeCommit} {netFlows : List Flow} {net : Netgress}
    (h : Committed b local' s c t netFlows net) (ht : Steady local' here t) (upid : UniquePid) {src dst : Port} :
    dst ∈ (t.topologies upid).outputs src ↔
      edges (b.rectifyDomainFlows c.copier netFlows) src dst ∧ t.net.upid src.uid = upid := by
  refine ((ht.sync upid).subscribed.subscribed (.input ⟨src, dst⟩)).trans ?_
  rw [h.active upid, List.mem_filter, decide_eq_true_eq]
  rfl

theorem Committed.feeds_eq {s t : Processes} {c : WholeCommit} {netFlows : List Flow} {net : Netgress}
    (h : Committed b local' s c t netFlows net) (ht : Steady local' here t) :
    t.Feeds = edges (b.rectifyDomainFlows c.copier netFlows) := by
  funext src dst
  refine propext ⟨?_, fun hedge => ⟨_, (h.mem_outputs ht _).mpr ⟨hedge, rfl⟩⟩⟩
  rintro ⟨upid, hmem⟩
  exact ((h.mem_outputs ht upid).mp hmem).1

section

variable {s : Netgress} (hs : Netgress.Reachable local' here s) {flatFlows netFlows : List Flow} {keys : List Port}
  {fresh : Port → NetBlocks} (hadmits : s.Admits flatFlows keys fresh) {net : Netgress}
  (hcreated : s.createNetworkFlows local' fresh flatFlows keys = .ok (netFlows, net))
  {copier : Bool → Port → String} (hfresh : net.Fresh (copierNames copier netFlows))

include hs hadmits hcreated hfresh

/-- The flows of `createNetworkFlows` cross no process, and no copier is in them yet. -/
theorem ends_created {flow : Flow} (hflow : flow ∈ netFlows) :
    net.SameProcess flow ∧ ¬ IsCopier copier netFlows flow.src.uid ∧ ¬ IsCopier copier netFlows flow.dst.uid := by
  obtain ⟨t, hrun, ht, -⟩ := Netgress.createNetworkFlows_ok hs.wellFormed hadmits
  obtain ⟨rfl, rfl⟩ := Prod.mk.inj (Except.ok.inj (hrun.symm.trans hcreated))
  obtain ⟨hsrc, hdst⟩ := Netgress.ends_networkAware hadmits ht hflow
  refine ⟨Netgress.sameProcess_networkAware hadmits ht hflow, fun hcopier => ?_, fun hcopier => ?_⟩
  · exact hsrc.elim (hfresh.2 _ hcopier).1 (hfresh.2 _ hcopier).2
  · exact hdst.elim (hfresh.2 _ hcopier).1 (hfresh.2 _ hcopier).2

/-- Network blocks and copiers together connect what was connected. -/
theorem joined_inserted_iff {p q : Port} (hp : p.uid ∈ s.user) (hq : q.uid ∈ s.user) :
    Joined (ThroughInserted copier netFlows net) (edges (b.rectifyDomainFlows copier netFlows)) p q ↔
      edges flatFlows p q := by
  obtain ⟨t, hrun, ht, hcache⟩ := Netgress.createNetworkFlows_ok hs.wellFormed hadmits
  obtain ⟨rfl, rfl⟩ := Prod.mk.inj (Except.ok.inj (hrun.symm.trans hcreated))
  have hold : ∀ uid, uid ∈ t.user ∨ uid ∈ t.inserted → ¬ IsCopier copier (s.networkAware t flatFlows keys) uid :=
    fun uid huid hcopier => huid.elim (hfresh.2 _ hcopier).1 (hfresh.2 _ hcopier).2
  have hends := fun flow (h : flow ∈ s.networkAware t flatFlows keys) => Netgress.ends_networkAware hadmits ht h
  have hcopiers := copierNames_of_fresh hfresh hends
  -- the copiers go first, then the network blocks
  have hnet : ∀ x y, Netgress.ThroughNet t x y → ¬ IsCopier copier (s.networkAware t flatFlows keys) x.uid ∧
      ¬ IsCopier copier (s.networkAware t flatFlows keys) y.uid := by
    rintro x y ⟨key, blocks, hblocks, rfl, rfl⟩
    have hcached := ht.wellFormed.cached key blocks hblocks
    exact ⟨hold _ (.inr hcached.sink_mem), hold _ (.inr hcached.source_mem)⟩
  have hp' := hold _ (.inl (ht.grows.user _ hp))
  have hq' := hold _ (.inl (ht.grows.user _ hq))
  refine Joined.or_iff.trans (Iff.trans ⟨?_, ?_⟩ (Netgress.joined_net_iff hadmits ht hcache hp hq))
  · exact Joined.congr_on (fun _ _ hx hy => (Blocks.joined_copiers_iff hcopiers hx hy).mp) hnet hp' hq'
  · exact Joined.congr_on (fun _ _ hx hy => (Blocks.joined_copiers_iff hcopiers hx hy).mpr) hnet hp' hq'

end

/-- No subscription crosses processes. -/
theorem Committed.sameProcess {s t : Processes} {c : WholeCommit} {netFlows : List Flow} {net : Netgress}
    (h : Committed b local' s c t netFlows net) (hfresh : net.Fresh (copierNames c.copier netFlows))
    (hends : ∀ flow ∈ netFlows, net.SameProcess flow ∧ ¬ IsCopier c.copier netFlows flow.src.uid ∧
      ¬ IsCopier c.copier netFlows flow.dst.uid) {src dst : Port}
    (hedge : edges (b.rectifyDomainFlows c.copier netFlows) src dst) : t.net.upid src.uid = t.net.upid dst.uid := by
  have hnames := copiers_sublist (b := b) c.copier net netFlows
  have hother : ∀ uid, ¬ IsCopier c.copier netFlows uid →
      (addCopiers b c.copier net netFlows).upid uid = net.upid uid := fun uid huid =>
    (newBlocks_spec net (fresh_copiers (b := b) hfresh).1).2.2.1 uid fun hmem => huid (hnames.subset hmem)
  rw [h.upid]
  obtain ⟨flow, hflow, ⟨-, heq⟩ | ⟨name, hname, heq⟩⟩ := Blocks.mem_rectify_iff.mp hedge
  · obtain ⟨hsame, hsrc, hdst⟩ := hends flow hflow
    subst heq
    rw [hother _ hsrc, hother _ hdst]
    exact hsame
  · obtain ⟨hsame, hsrc, hdst⟩ := hends flow hflow
    have hcopier := upid_copierOf hfresh hflow hsame hname
    rcases heq with heq | heq <;> cases heq
    · rw [hother _ hsrc]
      exact hcopier.symm
    · rw [hother _ hdst]
      exact hcopier.trans hsame

theorem mem_flows_iff {flows : List ObjFlow} (hobj : ∀ flow ∈ flows, flow.src.obj = true ∧ flow.dst.obj = true)
    {p q : Port} : ⟨p, q⟩ ∈ flows.map ObjFlow.flow ↔ ⟨⟨p, true⟩, ⟨q, true⟩⟩ ∈ flows := by
  constructor
  · intro hmem
    obtain ⟨⟨⟨port, obj⟩, ⟨port', obj'⟩⟩, hflow, heq⟩ := List.mem_map.mp hmem
    obtain ⟨rfl, rfl⟩ := hobj _ hflow
    cases heq
    exact hflow
  · exact fun hmem => List.mem_map.mpr ⟨_, hmem, rfl⟩

/-- **After any commits, a commit that returns joins what the hierarchy joins.** Followed
through network blocks and copiers, the subscriptions in the processes lead from the blocks
to those that `completePassThroughFlows` joins, which are the ends of the paths of the
hierarchy if its pass-throughs are plain. No subscription crosses processes. -/
theorem commits_join_paths {b : Blocks} {local' : UniquePid → Bool} {here : UniquePid} {actions : List Action}
    {s t : Processes} {c : WholeCommit} (hrun : Exec (Step b local') (start here) actions s)
    (hstep : Step b local' s (.commit c) t) :
    (∀ upid src dst, dst ∈ (t.topologies upid).outputs src → t.net.upid src.uid = upid ∧ t.net.upid dst.uid = upid) ∧
      ∃ netFlows net, s.net.createNetworkFlows local' c.fresh c.completeFlows c.keys = .ok (netFlows, net) ∧
        ∀ p q : Port, p.uid ∈ s.net.user → q.uid ∈ s.net.user →
          (Joined (ThroughInserted c.copier netFlows net) t.Feeds p q ↔
            c.hierarchy.BlockPort ⟨p, true⟩ ∧ c.hierarchy.BlockPort ⟨q, true⟩ ∧
              (c.hierarchy.Unbroken c.top ⟨p, true⟩ ⟨q, true⟩ ∨ c.hierarchy.Bridged c.top ⟨p, true⟩ ⟨q, true⟩)) ∧
          (c.hierarchy.PlainPassThroughs c.top →
            (Joined (ThroughInserted c.copier netFlows net) t.Feeds p q ↔
              c.hierarchy.BlockPort ⟨p, true⟩ ∧ c.hierarchy.BlockPort ⟨q, true⟩ ∧
                c.hierarchy.Path c.top ⟨p, true⟩ ⟨q, true⟩)) := by
  have hs := (steady_start here).run hrun
  cases hstep with
  | commit _ _ hadmits hcommit =>
      obtain ⟨ht, netFlows, net, hdone⟩ := hs.commit hadmits hcommit
      have hfresh := hadmits.2.2 netFlows net hdone.created
      obtain ⟨flows, heq, hflows⟩ := Hierarchy.completeFlows_squashed c.hierarchy hadmits.1
      have hcomplete := fun flow : ObjFlow =>
        @Hierarchy.mem_completePassThroughFlows_squashed c.hierarchy c.top flows hflows flow
      rw [← heq] at hcomplete
      have hjoined : ∀ p q : Port, p.uid ∈ s.net.user → q.uid ∈ s.net.user →
          (Joined (ThroughInserted c.copier netFlows net) t.Feeds p q ↔
            c.hierarchy.BlockPort ⟨p, true⟩ ∧ c.hierarchy.BlockPort ⟨q, true⟩ ∧
              (c.hierarchy.Unbroken c.top ⟨p, true⟩ ⟨q, true⟩ ∨ c.hierarchy.Bridged c.top ⟨p, true⟩ ⟨q, true⟩)) := by
        intro p q hp hq
        rw [hdone.feeds_eq ht, joined_inserted_iff hs.net hadmits.2.1 hdone.created hfresh hp hq]
        refine (mem_flows_iff fun flow hflow => ?_).trans (hcomplete ⟨⟨p, true⟩, ⟨q, true⟩⟩)
        exact ⟨((hcomplete flow).mp hflow).1.1, ((hcomplete flow).mp hflow).2.1.1⟩
      refine ⟨fun upid src dst hmem => ?_, netFlows, net, hdone.created, fun p q hp hq => ⟨hjoined p q hp hq, ?_⟩⟩
      · obtain ⟨hedge, hupid⟩ := (hdone.mem_outputs ht upid).mp hmem
        have hsame := hdone.sameProcess hfresh
          (fun flow hflow => ends_created hs.net hadmits.2.1 hdone.created hfresh hflow) hedge
        exact ⟨hupid, hsame.symm.trans hupid⟩
      · intro hplain
        rw [hjoined p q hp hq]
        exact and_congr_right fun _ => and_congr_right fun _ => hplain.unbroken_or_bridged_iff rfl rfl

/-- Blocks in one domain, without buffer managers of their own. -/
def plainBlocks : Blocks where
  name := id
  outputs := fun _ => []
  domain := fun _ _ => ""
  isSlot := fun _ => false
  isSignal := fun _ => false
  overload := fun _ _ _ => .null

/-- The pass-through between two blocks that are in two processes. -/
def passerCommit (here there : UniquePid) : WholeCommit where
  hierarchy := Hierarchy.passerHierarchy
  top := "topology"
  depth := 3
  keys := [⟨"ping", "out0->" ++ there.text⟩]
  fresh := fun _ => ⟨"netSource", "netSink"⟩
  copier := fun isInput port => (if isInput then "to " else "from ") ++ port.uid
  orders := fun upid =>
    if upid = here then Topology.start.inOrder [⟨⟨"ping", "out0"⟩, ⟨"netSink", "0"⟩⟩]
    else if upid = there then Topology.start.inOrder [⟨⟨"netSource", "0"⟩, ⟨"pong", "in0"⟩⟩]
    else Topology.start.inOrder []

/-- The first commit of the pass-through. -/
theorem passer_commits : ∃ (here there : UniquePid) (s t : Processes) (netFlows : List Flow) (net : Netgress),
    Step plainBlocks (fun _ => false) s (.commit (passerCommit here there)) t ∧
      (Joined (ThroughInserted (passerCommit here there).copier netFlows net) t.Feeds ⟨"ping", "out0"⟩ ⟨"pong", "in0"⟩ ↔
        Hierarchy.passerHierarchy.BlockPort ⟨⟨"ping", "out0"⟩, true⟩ ∧
          Hierarchy.passerHierarchy.BlockPort ⟨⟨"pong", "in0"⟩, true⟩ ∧
            Hierarchy.passerHierarchy.Path "topology" ⟨⟨"ping", "out0"⟩, true⟩ ⟨⟨"pong", "in0"⟩, true⟩) := by
  let here : UniquePid := ⟨"h/n/1", by decide⟩
  let there : UniquePid := ⟨"h/n/2", by decide⟩
  let s₁ : Processes := { start here with net := newBlock (start here).net "ping" here }
  let s₂ : Processes := { s₁ with net := newBlock s₁.net "pong" there }
  have hrun : Exec (Step plainBlocks fun _ => false) (start here) [.newBlock "ping" here, .newBlock "pong" there] s₂ :=
    .cons (.newBlock _ "ping" here (by decide)) (.cons (.newBlock _ "pong" there (by decide)) (.nil _))
  have hsome : (commit plainBlocks (fun _ => false) s₂ (passerCommit here there)).isSome = true := by decide +kernel
  obtain ⟨t, ht⟩ := Option.isSome_iff_exists.mp hsome
  have hfresh : (s₂.net.createNetworkFlows (fun _ => false) (passerCommit here there).fresh
      (passerCommit here there).completeFlows (passerCommit here there).keys).toOption.all
        (fun made => decide (made.2.Fresh (copierNames (passerCommit here there).copier made.1))) = true := by
    decide +kernel
  have hadmits : s₂.Admits (fun _ => false) (passerCommit here there) := by
    refine ⟨by decide, ⟨by decide +kernel, by decide +kernel, by decide +kernel, by decide +kernel⟩, ?_⟩
    intro netFlows net hcreated
    rw [hcreated] at hfresh
    exact of_decide_eq_true hfresh
  obtain ⟨-, netFlows, net, -, hjoined⟩ := commits_join_paths hrun (.commit s₂ t _ hadmits ht)
  exact ⟨here, there, s₂, t, netFlows, net, .commit s₂ t _ hadmits ht,
    (hjoined ⟨"ping", "out0"⟩ ⟨"pong", "in0"⟩ (by decide) (by decide)).2 Hierarchy.passer_plain⟩

end Processes

end PothosCore.Framework

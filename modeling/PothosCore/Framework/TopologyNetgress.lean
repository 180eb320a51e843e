import Mathlib.Data.List.Flatten
import PothosCore.Framework.TopologyNetworkFlows
import PothosCore.Lib.Paths

/-!
# PothosCore.Framework.TopologyNetgress

What `createNetworkFlows` returns, from any cache that earlier commits can have left.

A key tells its source port and its process, because the last arrow in it is the one
that was put there. So the flows of a key have one source, and a pair of network blocks
in the cache, made for an earlier flow, stands where a flow of this commit needs it.
-/

namespace PothosCore.Framework

open PothosCore.Lib

/-- The edges of a list of flows. -/
def edges (flows : List Flow) (src dst : Port) : Prop := (⟨src, dst⟩ : Flow) ∈ flows

/-- **Keys tell their flows apart.** -/
theorem envTagPort_inj {p q : Port} {u v : UniquePid} (h : envTagPort p u = envTagPort q v) :
    p = q ∧ u = v := by
  obtain ⟨uid, name⟩ := p
  obtain ⟨uid', name'⟩ := q
  obtain ⟨u, hu⟩ := u
  obtain ⟨v, hv⟩ := v
  simp only [envTagPort, Port.mk.injEq] at h
  obtain ⟨rfl, htext⟩ := h
  have hlist : name.toList ++ '-' :: '>' :: u.toList = name'.toList ++ '-' :: '>' :: v.toList := by
    have hmap := congrArg String.toList htext
    simpa [String.toList_append] using hmap
  have harrow : ∀ {a b : String}, ¬ "->".toList <:+: a.toList → ∀ c, a.toList ≠ c ++ '-' :: '>' :: b.toList := by
    intro a b ha c hc
    exact ha ⟨c, b.toList, by rw [hc]; simp⟩
  -- what one name has more would be an arrow in a process name, or half of one
  have hkey : ∀ {n n' a b : String}, ¬ "->".toList <:+: a.toList → ∀ c,
      n'.toList = n.toList ++ c → '-' :: '>' :: a.toList = c ++ '-' :: '>' :: b.toList →
      n = n' ∧ a = b := by
    intro n n' a b ha c hn hc
    match c, hc with
    | [], hc =>
        refine ⟨String.toList_injective (by simpa using hn.symm), String.toList_injective ?_⟩
        simpa using hc
    | [x], hc => simp at hc
    | x :: y :: c, hc =>
        have htail : a.toList = c ++ '-' :: '>' :: b.toList := by simpa using (List.cons.inj (List.cons.inj hc).2).2
        exact absurd htail (harrow ha c)
  rcases List.append_eq_append_iff.mp hlist with ⟨c, hn, hc⟩ | ⟨c, hn, hc⟩
  · obtain ⟨rfl, rfl⟩ := hkey hu c hn hc
    exact ⟨rfl, rfl⟩
  · obtain ⟨rfl, rfl⟩ := hkey hv c hn hc
    exact ⟨rfl, rfl⟩

/-- The sink goes into the process of the source port, the source into that of the
destination, whichever of them binds. -/
theorem createNetworkFlow_eq (local' : UniquePid → Bool) (src dst : UniquePid) :
    createNetworkFlow local' src dst = { source := dst, sink := src } := by
  unfold createNetworkFlow
  cases local' src <;> rfl

namespace Netgress

/-! ### The cache -/

/-- The cached blocks of a key are where its flows need them. -/
structure Cached (s : Netgress) (key : Port) (blocks : NetBlocks) : Prop where
  place : ∃ src, src.uid ∈ s.user ∧ key = envTagPort src (s.upid blocks.source) ∧
    s.upid blocks.sink = s.upid src.uid
  source_mem : blocks.source ∈ s.inserted
  sink_mem : blocks.sink ∈ s.inserted

/-- The cache is in order: its blocks are in their places, none of them is the user's,
and no two of them are the same. -/
structure WellFormed (s : Netgress) : Prop where
  disjoint : ∀ uid ∈ s.user, uid ∉ s.inserted
  cached : ∀ key blocks, s.srcToNetgressCache key = some blocks → s.Cached key blocks
  source_inj : ∀ key key' blocks blocks', s.srcToNetgressCache key = some blocks →
    s.srcToNetgressCache key' = some blocks' → blocks.source = blocks'.source → key = key'
  sink_inj : ∀ key key' blocks blocks', s.srcToNetgressCache key = some blocks →
    s.srcToNetgressCache key' = some blocks' → blocks.sink = blocks'.sink → key = key'
  source_ne_sink : ∀ key key' blocks blocks', s.srcToNetgressCache key = some blocks →
    s.srcToNetgressCache key' = some blocks' → blocks.source ≠ blocks'.sink

theorem wellFormed_start (here : UniquePid) : (start here).WellFormed where
  disjoint := fun _ h => (by cases h)
  cached := fun _ _ h => (by cases h)
  source_inj := fun _ _ _ _ h => (by cases h)
  sink_inj := fun _ _ _ _ h => (by cases h)
  source_ne_sink := fun _ _ _ _ h => (by cases h)

theorem WellFormed.prune {s : Netgress} (h : s.WellFormed) (flatFlows : List Flow) :
    (s.prune flatFlows).WellFormed := by
  have hsub : ∀ {key blocks}, (s.prune flatFlows).srcToNetgressCache key = some blocks →
      s.srcToNetgressCache key = some blocks := by
    intro key blocks hkey
    simp only [Netgress.prune] at hkey
    split at hkey
    · exact hkey
    · cases hkey
  exact {
    disjoint := h.disjoint
    cached := fun key blocks hkey => ⟨(h.cached key blocks (hsub hkey)).place,
      (h.cached key blocks (hsub hkey)).source_mem, (h.cached key blocks (hsub hkey)).sink_mem⟩
    source_inj := fun _ _ _ _ hk hk' => h.source_inj _ _ _ _ (hsub hk) (hsub hk')
    sink_inj := fun _ _ _ _ hk hk' => h.sink_inj _ _ _ _ (hsub hk) (hsub hk')
    source_ne_sink := fun _ _ _ _ hk hk' => h.source_ne_sink _ _ _ _ (hsub hk) (hsub hk') }

/-- Blocks stay where they are when others are made. -/
structure Grows (s t : Netgress) : Prop where
  user : ∀ uid ∈ s.user, uid ∈ t.user
  inserted : ∀ uid ∈ s.inserted, uid ∈ t.inserted
  upid : ∀ uid, uid ∈ s.user ∨ uid ∈ s.inserted → t.upid uid = s.upid uid

theorem Cached.grow {s t : Netgress} {key : Port} {blocks : NetBlocks} (h : s.Cached key blocks)
    (hgrows : s.Grows t) : t.Cached key blocks := by
  obtain ⟨src, hsrc, hkey, hsink⟩ := h.place
  refine ⟨⟨src, hgrows.user _ hsrc, ?_, ?_⟩, hgrows.inserted _ h.source_mem, hgrows.inserted _ h.sink_mem⟩
  · rw [hgrows.upid _ (.inr h.source_mem)]
    exact hkey
  · rw [hgrows.upid _ (.inr h.sink_mem), hgrows.upid _ (.inl hsrc)]
    exact hsink

theorem WellFormed.newBlock {s : Netgress} (h : s.WellFormed) {uid : String} (upid : UniquePid)
    (hfresh : s.Fresh [uid]) :
    ({ s with upid := Function.update s.upid uid upid, user := uid :: s.user } : Netgress).WellFormed := by
  obtain ⟨huser, hinserted⟩ := hfresh.2 uid (List.mem_singleton_self uid)
  have hgrows : s.Grows { s with upid := Function.update s.upid uid upid, user := uid :: s.user } := by
    refine ⟨fun _ hx => List.mem_cons_of_mem _ hx, fun _ hx => hx, fun x hx => ?_⟩
    refine Function.update_of_ne ?_ _ _
    rintro rfl
    exact hx.elim huser hinserted
  exact {
    disjoint := by
      intro x hx
      cases hx with
      | head => exact hinserted
      | tail _ hx => exact h.disjoint x hx
    cached := fun key blocks hkey => (h.cached key blocks hkey).grow hgrows
    source_inj := h.source_inj
    sink_inj := h.sink_inj
    source_ne_sink := h.source_ne_sink }

/-! ### Loading the cache -/

section
variable {local' : UniquePid → Bool} {fresh : Port → NetBlocks} {flatFlows : List Flow}

theorem mem_srcToFlows {s : Netgress} {key : Port} {flow : Flow} :
    flow ∈ s.srcToFlows flatFlows key ↔ flow ∈ flatFlows ∧ ¬ s.SameProcess flow ∧ s.key flow = key := by
  simp [srcToFlows]

/-- What loading a key changes: its blocks are made and go into the cache. -/
structure Loaded (fresh : Port → NetBlocks) (s t : Netgress) (key : Port) : Prop where
  user : t.user = s.user
  inserted : t.inserted = (fresh key).source :: (fresh key).sink :: s.inserted
  upid : ∀ uid, uid ≠ (fresh key).source → uid ≠ (fresh key).sink → t.upid uid = s.upid uid
  cache : t.srcToNetgressCache = Function.update s.srcToNetgressCache key (some (fresh key))
  cached : t.Cached key (fresh key)

theorem load_spec {s : Netgress} {key : Port} {flow : Flow} (hflow : flow ∈ s.srcToFlows flatFlows key)
    (huser : ∀ flow ∈ flatFlows, flow.src.uid ∈ s.user) (hnames : s.Fresh [(fresh key).source, (fresh key).sink]) :
    Loaded fresh s (load local' fresh flatFlows s key) key := by
  have hne : (fresh key).source ≠ (fresh key).sink := by
    have hnodup := hnames.1
    simp at hnodup
    exact hnodup
  unfold load
  cases hflows : s.srcToFlows flatFlows key with
  | nil =>
      rw [hflows] at hflow
      cases hflow
  | cons first rest =>
      have hfirst : first ∈ s.srcToFlows flatFlows key := by
        rw [hflows]
        exact List.mem_cons_self
      obtain ⟨hmem, -, hkey⟩ := mem_srcToFlows.mp hfirst
      have hsrc := huser first hmem
      simp only [createNetworkFlow_eq]
      refine ⟨rfl, rfl, ?_, rfl, ⟨first.src, hsrc, ?_, ?_⟩, ?_, ?_⟩
      · intro uid hsource hsink
        show Function.update _ _ _ uid = _
        rw [Function.update_of_ne hsink, Function.update_of_ne hsource]
      · simp only [Function.update_of_ne hne, Function.update_self]
        exact hkey.symm
      · have hold : ∀ x ∈ [(fresh key).source, (fresh key).sink], first.src.uid ≠ x := by
          rintro x hx rfl
          exact (hnames.2 _ hx).1 hsrc
        have hsource := hold (fresh key).source (by simp)
        have hsink := hold (fresh key).sink (by simp)
        simp only [Function.update_self, Function.update_of_ne hsource, Function.update_of_ne hsink]
      · exact List.mem_cons_self
      · exact List.mem_cons_of_mem _ List.mem_cons_self

theorem Loaded.grows {s t : Netgress} {key : Port} (h : Loaded fresh s t key)
    (hnames : s.Fresh [(fresh key).source, (fresh key).sink]) : s.Grows t where
  user := fun uid hx => h.user ▸ hx
  inserted := by
    intro uid hx
    rw [h.inserted]
    exact List.mem_cons_of_mem _ (List.mem_cons_of_mem _ hx)
  upid := by
    intro uid hx
    have hold : ∀ x ∈ [(fresh key).source, (fresh key).sink], uid ≠ x := by
      rintro x hmem rfl
      exact hx.elim (hnames.2 _ hmem).1 (hnames.2 _ hmem).2
    exact h.upid uid (hold _ (by simp)) (hold _ (by simp))

/-- **Loading keeps the cache in order.** -/
theorem Loaded.wellFormed {s t : Netgress} {key : Port} (h : Loaded fresh s t key) (hs : s.WellFormed)
    (hnames : s.Fresh [(fresh key).source, (fresh key).sink]) : t.WellFormed := by
  have hgrows := h.grows hnames
  have hnew : ∀ x ∈ [(fresh key).source, (fresh key).sink], x ∉ s.inserted := fun x hx => (hnames.2 x hx).2
  have hsource := hnew (fresh key).source (by simp)
  have hsink := hnew (fresh key).sink (by simp)
  have hne : (fresh key).source ≠ (fresh key).sink := by
    have hnodup := hnames.1
    simp at hnodup
    exact hnodup
  -- a cached pair is the new one, or was there before
  have hcases : ∀ {k blocks}, t.srcToNetgressCache k = some blocks →
      (k = key ∧ blocks = fresh key) ∨ s.srcToNetgressCache k = some blocks := by
    intro k blocks hk
    rw [h.cache] at hk
    by_cases hkey : k = key
    · subst hkey
      rw [Function.update_self] at hk
      exact .inl ⟨rfl, (Option.some.inj hk).symm⟩
    · rw [Function.update_of_ne hkey] at hk
      exact .inr hk
  constructor
  · intro uid hx
    rw [h.user] at hx
    rw [h.inserted]
    simp only [List.mem_cons, not_or]
    refine ⟨?_, ?_, hs.disjoint uid hx⟩
    · rintro rfl
      exact (hnames.2 _ (by simp)).1 hx
    · rintro rfl
      exact (hnames.2 _ (by simp)).1 hx
  · intro k blocks hk
    rcases hcases hk with ⟨rfl, rfl⟩ | hk
    · exact h.cached
    · exact (hs.cached k blocks hk).grow hgrows
  · intro k k' blocks blocks' hk hk' heq
    rcases hcases hk with ⟨rfl, rfl⟩ | hk <;> rcases hcases hk' with ⟨rfl, rfl⟩ | hk'
    · rfl
    · exact absurd (heq ▸ (hs.cached _ _ hk').source_mem) hsource
    · exact absurd (heq ▸ (hs.cached _ _ hk).source_mem) hsource
    · exact hs.source_inj k k' blocks blocks' hk hk' heq
  · intro k k' blocks blocks' hk hk' heq
    rcases hcases hk with ⟨rfl, rfl⟩ | hk <;> rcases hcases hk' with ⟨rfl, rfl⟩ | hk'
    · rfl
    · exact absurd (heq ▸ (hs.cached _ _ hk').sink_mem) hsink
    · exact absurd (heq ▸ (hs.cached _ _ hk).sink_mem) hsink
    · exact hs.sink_inj k k' blocks blocks' hk hk' heq
  · intro k k' blocks blocks' hk hk' heq
    rcases hcases hk with ⟨rfl, rfl⟩ | hk <;> rcases hcases hk' with ⟨rfl, rfl⟩ | hk'
    · exact hne heq
    · exact hsource (heq ▸ (hs.cached _ _ hk').sink_mem)
    · exact hsink (heq ▸ (hs.cached _ _ hk).source_mem)
    · exact hs.source_ne_sink k k' blocks blocks' hk hk' heq

theorem Grows.trans {s t u : Netgress} (h : s.Grows t) (h' : t.Grows u) : s.Grows u where
  user := fun uid hx => h'.user uid (h.user uid hx)
  inserted := fun uid hx => h'.inserted uid (h.inserted uid hx)
  upid := by
    intro uid hx
    rw [h'.upid uid (hx.imp (h.user uid) (h.inserted uid)), h.upid uid hx]

/-- The flows of the user's blocks look the same after others are made. -/
theorem Grows.sameProcess {s t : Netgress} (h : s.Grows t) {flow : Flow}
    (huser : flow.src.uid ∈ s.user ∧ flow.dst.uid ∈ s.user) : t.SameProcess flow ↔ s.SameProcess flow := by
  simp only [SameProcess, h.upid _ (.inl huser.1), h.upid _ (.inl huser.2)]

theorem Grows.key {s t : Netgress} (h : s.Grows t) {flow : Flow} (huser : flow.dst.uid ∈ s.user) :
    t.key flow = s.key flow := by
  simp only [Netgress.key, h.upid _ (.inl huser)]

/-- **What a commit makes of the cache.** -/
structure LoadedAll (fresh : Port → NetBlocks) (s t : Netgress) (keys : List Port) : Prop where
  wellFormed : t.WellFormed
  grows : s.Grows t
  user : t.user = s.user
  cache : ∀ key, t.srcToNetgressCache key = if key ∈ keys then some (fresh key) else s.srcToNetgressCache key

theorem load_foldl {s : Netgress} {keys : List Port} (hs : s.WellFormed)
    (huser : ∀ flow ∈ flatFlows, flow.src.uid ∈ s.user ∧ flow.dst.uid ∈ s.user)
    (hkeys : ∀ key ∈ keys, ∃ flow, flow ∈ s.srcToFlows flatFlows key)
    (hnames : s.Fresh (netNames fresh keys)) :
    LoadedAll fresh s (keys.foldl (load local' fresh flatFlows) s) keys := by
  induction keys generalizing s with
  | nil => exact ⟨hs, ⟨fun _ h => h, fun _ h => h, fun _ _ => rfl⟩, rfl, fun _ => rfl⟩
  | cons key keys ih =>
      have hsplit : netNames fresh (key :: keys) =
          [(fresh key).source, (fresh key).sink] ++ netNames fresh keys := rfl
      rw [hsplit] at hnames
      obtain ⟨hnodup, hnodups, hapart⟩ := List.nodup_append.mp hnames.1
      have hfirst : s.Fresh [(fresh key).source, (fresh key).sink] :=
        ⟨hnodup, fun uid hx => hnames.2 uid (List.mem_append_left _ hx)⟩
      obtain ⟨flow, hflow⟩ := hkeys key List.mem_cons_self
      have hload : Loaded fresh s (load local' fresh flatFlows s key) key :=
        load_spec hflow (fun flow hf => (huser flow hf).1) hfirst
      have hgrows := hload.grows hfirst
      have hrest := ih (hload.wellFormed hs hfirst) ?_ ?_ ?_
      · refine ⟨hrest.wellFormed, hgrows.trans hrest.grows, hrest.user.trans hload.user, ?_⟩
        intro k
        rw [List.foldl_cons, hrest.cache k, hload.cache]
        by_cases hk : k = key
        · subst hk
          simp
        · simp [hk]
      · intro flow hf
        rw [hload.user]
        exact huser flow hf
      · intro k hk
        obtain ⟨flow, hflow⟩ := hkeys k (List.mem_cons_of_mem _ hk)
        obtain ⟨hmem, hcross, hkey⟩ := mem_srcToFlows.mp hflow
        refine ⟨flow, mem_srcToFlows.mpr ⟨hmem, ?_, ?_⟩⟩
        · rwa [hgrows.sameProcess (huser flow hmem)]
        · rw [hgrows.key (huser flow hmem).2, hkey]
      · refine ⟨hnodups, ?_⟩
        intro uid hx
        obtain ⟨hold, hins⟩ := hnames.2 uid (List.mem_append_right _ hx)
        rw [hload.user, hload.inserted]
        refine ⟨hold, ?_⟩
        simp only [List.mem_cons, not_or]
        refine ⟨?_, ?_, hins⟩
        · rintro rfl
          exact hapart _ (by simp) _ hx rfl
        · rintro rfl
          exact hapart _ (by simp) _ hx rfl

theorem mem_netKeys {s : Netgress} {key : Port} :
    key ∈ s.netKeys flatFlows ↔ ∃ flow, flow ∈ s.srcToFlows flatFlows key := by
  simp only [netKeys, List.mem_dedup, List.mem_map, mem_srcToFlows, List.mem_filter,
    decide_eq_true_eq, and_assoc]

theorem Admits.exists_flow {s : Netgress} {keys : List Port} (h : s.Admits flatFlows keys fresh) {key : Port}
    (hkey : key ∈ s.missing keys) : ∃ flow, flow ∈ s.srcToFlows flatFlows key :=
  mem_netKeys.mp (h.perm.mem_iff.mp (List.mem_of_mem_filter hkey))

theorem netNames_sublist {keys keys' : List Port} (h : keys.Sublist keys') :
    (netNames fresh keys).Sublist (netNames fresh keys') := h.flatMap _

/-- **The cache is in order** in every state that commits lead to. -/
theorem Reachable.wellFormed {here : UniquePid} {s : Netgress} (h : Reachable local' here s) :
    s.WellFormed := by
  induction h with
  | start => exact wellFormed_start here
  | step _ hstep ih =>
      cases hstep with
      | newBlock uid upid hfresh => exact ih.newBlock upid hfresh
      | load flatFlows keys loaded fresh hadmits hloaded =>
          have hnames : (netNames fresh loaded).Sublist _ := netNames_sublist hloaded
          exact (load_foldl ih hadmits.user (fun key hkey => hadmits.exists_flow (hloaded.subset hkey))
            ⟨hadmits.names.1.sublist hnames, fun uid hx => hadmits.names.2 uid (hnames.subset hx)⟩).wellFormed
      | prune flatFlows => exact ih.prune flatFlows

/-! ### The flows between processes -/

/-- All flows of a key have the same source, and lead into the same process. -/
theorem same_of_key {s : Netgress} {f g : Flow} (h : s.key f = s.key g) :
    f.src = g.src ∧ s.upid f.dst.uid = s.upid g.dst.uid :=
  envTagPort_inj h

/-- What the flows of a key are replaced by. -/
def crossed (s t : Netgress) (flatFlows : List Flow) (key : Port) : List Flow :=
  match s.srcToFlows flatFlows key, t.srcToNetgressCache key with
  | first :: rest, some blocks =>
      ⟨first.src, ⟨blocks.sink, "0"⟩⟩ ::
        (first :: rest).map fun flow => ⟨⟨blocks.source, "0"⟩, flow.dst⟩
  | _, _ => []

theorem netFlows_eq {s t : Netgress} {key : Port} (hflow : ∃ flow, flow ∈ s.srcToFlows flatFlows key)
    (hcache : ∃ blocks, t.srcToNetgressCache key = some blocks) :
    netFlows (s.srcToFlows flatFlows key) (t.srcToNetgressCache key) = .ok (crossed s t flatFlows key) := by
  obtain ⟨blocks, hblocks⟩ := hcache
  obtain ⟨flow, hflow⟩ := hflow
  rw [crossed, hblocks]
  cases hflows : s.srcToFlows flatFlows key with
  | nil =>
      rw [hflows] at hflow
      cases hflow
  | cons first rest =>
      have hall : (first :: rest).all (·.src = first.src) = true := by
        rw [List.all_eq_true]
        intro f hf
        rw [← hflows] at hf
        have hfirst : first ∈ s.srcToFlows flatFlows key := by
          rw [hflows]
          exact List.mem_cons_self
        have hkey := (mem_srcToFlows.mp hf).2.2.trans (mem_srcToFlows.mp hfirst).2.2.symm
        exact decide_eq_true (same_of_key hkey).1
      rw [netFlows, if_pos hall]

theorem mem_crossed {s t : Netgress} {key : Port} {x : Flow} :
    x ∈ crossed s t flatFlows key ↔ ∃ flow ∈ s.srcToFlows flatFlows key, ∃ blocks,
      t.srcToNetgressCache key = some blocks ∧
        (x = ⟨flow.src, ⟨blocks.sink, "0"⟩⟩ ∨ x = ⟨⟨blocks.source, "0"⟩, flow.dst⟩) := by
  unfold crossed
  split
  next first rest blocks hflows hblocks =>
    have hsrc : ∀ flow ∈ s.srcToFlows flatFlows key, flow.src = first.src := by
      intro flow hflow
      have hfirst : first ∈ s.srcToFlows flatFlows key := by
        rw [hflows]
        exact List.mem_cons_self
      exact (same_of_key ((mem_srcToFlows.mp hflow).2.2.trans (mem_srcToFlows.mp hfirst).2.2.symm)).1
    rw [List.mem_cons, List.mem_map, ← hflows]
    constructor
    · rintro (rfl | ⟨flow, hflow, rfl⟩)
      · exact ⟨first, by rw [hflows]; exact List.mem_cons_self, blocks, hblocks, .inl rfl⟩
      · exact ⟨flow, hflow, blocks, hblocks, .inr rfl⟩
    · rintro ⟨flow, hflow, blocks', hblocks', rfl | rfl⟩
      · rw [hblocks] at hblocks'
        cases hblocks'
        rw [hsrc flow hflow]
        exact .inl rfl
      · rw [hblocks] at hblocks'
        cases hblocks'
        exact .inr ⟨flow, hflow, rfl⟩
  next hnone =>
    refine iff_of_false List.not_mem_nil ?_
    rintro ⟨flow, hflow, blocks, hblocks, -⟩
    cases hflows : s.srcToFlows flatFlows key with
    | nil =>
        rw [hflows] at hflow
        cases hflow
    | cons first rest => exact hnone first rest blocks hflows hblocks

/-- The flows that `createNetworkFlows` returns. -/
def networkAware (s t : Netgress) (flatFlows : List Flow) (keys : List Port) : List Flow :=
  flatFlows.filter (s.SameProcess ·) ++ (keys.map (crossed s t flatFlows)).flatten

/-- **`createNetworkFlows` returns**, with the blocks of all its keys in the cache. -/
theorem createNetworkFlows_ok {s : Netgress} {keys : List Port} (hs : s.WellFormed)
    (hadmits : s.Admits flatFlows keys fresh) :
    ∃ t, s.createNetworkFlows local' fresh flatFlows keys = .ok (networkAware s t flatFlows keys, t) ∧
      LoadedAll fresh s t (s.missing keys) ∧ ∀ key ∈ keys, ∃ blocks, t.srcToNetgressCache key = some blocks := by
  have hloaded : LoadedAll fresh s ((s.missing keys).foldl (load local' fresh flatFlows) s) (s.missing keys) :=
    load_foldl hs hadmits.user (fun key hkey => hadmits.exists_flow hkey) hadmits.names
  have hcache : ∀ key ∈ keys, ∃ blocks,
      ((s.missing keys).foldl (load local' fresh flatFlows) s).srcToNetgressCache key = some blocks := by
    intro key hkey
    rw [hloaded.cache key]
    split
    next => exact ⟨_, rfl⟩
    next hpresent =>
      cases hold : s.srcToNetgressCache key with
      | none => exact absurd (List.mem_filter.mpr ⟨hkey, by simp [hold]⟩) hpresent
      | some blocks => exact ⟨blocks, rfl⟩
  refine ⟨_, ?_, hloaded, hcache⟩
  have hmapM : keys.mapM (fun key => netFlows (s.srcToFlows flatFlows key)
      (((s.missing keys).foldl (load local' fresh flatFlows) s).srcToNetgressCache key)) = _ :=
    mapM_ok_map_iff.mpr (fun key hkey => netFlows_eq (mem_netKeys.mp (hadmits.perm.mem_iff.mp hkey)) (hcache key hkey))
  rw [createNetworkFlows]
  show (List.mapM _ _ >>= _) = _
  rw [hmapM]
  rfl

theorem mem_networkAware {s t : Netgress} {keys : List Port} (hkeys : keys.Perm (s.netKeys flatFlows))
    {x : Flow} : x ∈ networkAware s t flatFlows keys ↔ (x ∈ flatFlows ∧ s.SameProcess x) ∨
      ∃ flow ∈ flatFlows, ¬ s.SameProcess flow ∧ ∃ blocks, t.srcToNetgressCache (s.key flow) = some blocks ∧
        (x = ⟨flow.src, ⟨blocks.sink, "0"⟩⟩ ∨ x = ⟨⟨blocks.source, "0"⟩, flow.dst⟩) := by
  rw [networkAware, List.mem_append, List.mem_filter, decide_eq_true_eq, List.mem_flatten]
  refine or_congr_right ?_
  simp only [List.mem_map, exists_exists_and_eq_and, mem_crossed]
  constructor
  · rintro ⟨key, hkey, flow, hflow, blocks, hblocks, hx⟩
    obtain ⟨hmem, hcross, rfl⟩ := mem_srcToFlows.mp hflow
    exact ⟨flow, hmem, hcross, blocks, hblocks, hx⟩
  · rintro ⟨flow, hmem, hcross, blocks, hblocks, hx⟩
    have hflow : flow ∈ s.srcToFlows flatFlows (s.key flow) := mem_srcToFlows.mpr ⟨hmem, hcross, rfl⟩
    exact ⟨_, hkeys.mem_iff.mpr (mem_netKeys.mpr ⟨flow, hflow⟩), flow, hflow, blocks, hblocks, hx⟩

/-- The blocks that a flow goes through stand where it needs them. -/
theorem Cached.places {s t : Netgress} {flow : Flow} {blocks : NetBlocks} (hgrows : s.Grows t)
    (huser : flow.src.uid ∈ s.user ∧ flow.dst.uid ∈ s.user) (h : t.Cached (s.key flow) blocks) :
    t.upid flow.src.uid = t.upid blocks.sink ∧ t.upid blocks.source = t.upid flow.dst.uid := by
  obtain ⟨src, -, hkey, hsink⟩ := h.place
  obtain ⟨rfl, hsource⟩ := envTagPort_inj (hkey : envTagPort flow.src (s.upid flow.dst.uid) = _)
  exact ⟨hsink.symm, hsource.symm.trans (hgrows.upid _ (.inl huser.2)).symm⟩

variable {s t : Netgress} {keys : List Port}

/-- **No flow crosses a process.** -/
theorem sameProcess_networkAware (hadmits : s.Admits flatFlows keys fresh)
    (ht : LoadedAll fresh s t (s.missing keys)) {x : Flow} (hx : x ∈ networkAware s t flatFlows keys) :
    t.SameProcess x := by
  rcases (mem_networkAware hadmits.perm).mp hx with ⟨hmem, hsame⟩ | ⟨flow, hmem, -, blocks, hblocks, hx⟩
  · exact (ht.grows.sameProcess (hadmits.user x hmem)).mpr hsame
  · obtain ⟨hsink, hsource⟩ := Cached.places ht.grows (hadmits.user flow hmem)
      (ht.wellFormed.cached _ _ hblocks)
    rcases hx with rfl | rfl
    · exact hsink
    · exact hsource

/-- The ends of the flows are the user's blocks and network blocks. -/
theorem ends_networkAware (hadmits : s.Admits flatFlows keys fresh)
    (ht : LoadedAll fresh s t (s.missing keys)) {x : Flow} (hx : x ∈ networkAware s t flatFlows keys) :
    (x.src.uid ∈ t.user ∨ x.src.uid ∈ t.inserted) ∧ (x.dst.uid ∈ t.user ∨ x.dst.uid ∈ t.inserted) := by
  rcases (mem_networkAware hadmits.perm).mp hx with ⟨hmem, -⟩ | ⟨flow, hmem, -, blocks, hblocks, hx⟩
  · have huser := hadmits.user x hmem
    exact ⟨.inl (ht.grows.user _ huser.1), .inl (ht.grows.user _ huser.2)⟩
  · have huser := hadmits.user flow hmem
    have hcached := ht.wellFormed.cached _ _ hblocks
    rcases hx with rfl | rfl
    · exact ⟨.inl (ht.grows.user _ huser.1), .inr hcached.sink_mem⟩
    · exact ⟨.inr hcached.source_mem, .inl (ht.grows.user _ huser.2)⟩

/-- A user's block is no network block. -/
theorem user_ne_cached (ht : t.WellFormed) {uid : String} (huser : uid ∈ t.user) {key : Port}
    {blocks : NetBlocks} (hblocks : t.srcToNetgressCache key = some blocks) :
    uid ≠ blocks.source ∧ uid ≠ blocks.sink := by
  have hcached := ht.cached key blocks hblocks
  refine ⟨?_, ?_⟩
  · rintro rfl
    exact ht.disjoint _ huser hcached.source_mem
  · rintro rfl
    exact ht.disjoint _ huser hcached.sink_mem

theorem nodup_crossed (hadmits : s.Admits flatFlows keys fresh)
    (ht : LoadedAll fresh s t (s.missing keys)) (key : Port) : (crossed s t flatFlows key).Nodup := by
  unfold crossed
  split
  next first rest blocks hflows hblocks =>
    rw [← hflows]
    have hin : ∀ flow ∈ s.srcToFlows flatFlows key, flow ∈ flatFlows ∧ s.key flow = key := by
      intro flow hflow
      exact ⟨(mem_srcToFlows.mp hflow).1, (mem_srcToFlows.mp hflow).2.2⟩
    have hfirst : first ∈ s.srcToFlows flatFlows key := by
      rw [hflows]
      exact List.mem_cons_self
    refine List.nodup_cons.mpr ⟨?_, ?_⟩
    · intro hmem
      obtain ⟨flow, -, heq⟩ := List.mem_map.mp hmem
      have huser := ht.grows.user _ (hadmits.user first (hin first hfirst).1).1
      have hsrc : blocks.source = first.src.uid := congrArg (fun f => f.src.uid) heq
      exact (user_ne_cached ht.wellFormed huser hblocks).1 hsrc.symm
    · refine (hadmits.nodup.filter _).map_on ?_
      intro f hf g hg heq
      have hkey := (hin f hf).2.trans (hin g hg).2.symm
      have hdst : f.dst = g.dst := by simpa using heq
      exact Flow.ext (same_of_key hkey).1 hdst
  next => exact List.nodup_nil

/-- **No flow appears twice.** -/
theorem nodup_networkAware (hadmits : s.Admits flatFlows keys fresh)
    (ht : LoadedAll fresh s t (s.missing keys)) : (networkAware s t flatFlows keys).Nodup := by
  have hkeys : keys.Nodup := hadmits.perm.nodup_iff.mpr (List.nodup_dedup _)
  refine List.nodup_append.mpr ⟨hadmits.nodup.filter _, ?_, ?_⟩
  · refine List.nodup_flatten.mpr ⟨?_, ?_⟩
    · intro l hl
      obtain ⟨key, -, rfl⟩ := List.mem_map.mp hl
      exact nodup_crossed hadmits ht key
    · refine (List.pairwise_map.mpr (hkeys.imp ?_))
      intro key key' hne x hx hx'
      obtain ⟨f, hf, blocks, hblocks, hxf⟩ := mem_crossed.mp hx
      obtain ⟨g, hg, blocks', hblocks', hxg⟩ := mem_crossed.mp hx'
      have hfu := hadmits.user f (mem_srcToFlows.mp hf).1
      have hgu := hadmits.user g (mem_srcToFlows.mp hg).1
      rcases hxf with rfl | rfl <;> rcases hxg with hxg | hxg
      · have hsink : blocks.sink = blocks'.sink := congrArg (fun f => f.dst.uid) hxg
        exact hne (ht.wellFormed.sink_inj _ _ _ _ hblocks hblocks' hsink)
      · have hsrc : f.src.uid = blocks'.source := congrArg (fun f => f.src.uid) hxg
        exact (user_ne_cached ht.wellFormed (ht.grows.user _ hfu.1) hblocks').1 hsrc
      · have hsrc : blocks.source = g.src.uid := congrArg (fun f => f.src.uid) hxg
        exact (user_ne_cached ht.wellFormed (ht.grows.user _ hgu.1) hblocks).1 hsrc.symm
      · have hsource : blocks.source = blocks'.source := congrArg (fun f => f.src.uid) hxg
        exact hne (ht.wellFormed.source_inj _ _ _ _ hblocks hblocks' hsource)
  · intro x hx y hy hxy
    subst hxy
    have hxu := hadmits.user x (List.mem_of_mem_filter hx)
    obtain ⟨l, hl, hxl⟩ := List.mem_flatten.mp hy
    obtain ⟨key, -, rfl⟩ := List.mem_map.mp hl
    obtain ⟨f, -, blocks, hblocks, rfl | rfl⟩ := mem_crossed.mp hxl
    · exact (user_ne_cached ht.wellFormed (ht.grows.user _ hxu.2) hblocks).2 rfl
    · exact (user_ne_cached ht.wellFormed (ht.grows.user _ hxu.1) hblocks).1 rfl

/-! ### Paths through network blocks -/

/-- Through a pair of network blocks. -/
def ThroughNet (t : Netgress) (a b : Port) : Prop :=
  ∃ key blocks, t.srcToNetgressCache key = some blocks ∧ a = ⟨blocks.sink, "0"⟩ ∧ b = ⟨blocks.source, "0"⟩

/-- A flow into a network sink comes from the source of a flow of its key. -/
theorem of_edge_sink (hadmits : s.Admits flatFlows keys fresh)
    (ht : LoadedAll fresh s t (s.missing keys)) {key p : Port} {blocks : NetBlocks}
    (hblocks : t.srcToNetgressCache key = some blocks)
    (hedge : edges (networkAware s t flatFlows keys) p ⟨blocks.sink, "0"⟩) :
    ∃ flow ∈ flatFlows, s.key flow = key ∧ flow.src = p := by
  rcases (mem_networkAware hadmits.perm).mp hedge with ⟨hmem, -⟩ | ⟨f, hf, -, blocks', hblocks', hx⟩
  · have huser := ht.grows.user _ (hadmits.user _ hmem).2
    exact absurd rfl (user_ne_cached ht.wellFormed huser hblocks).2
  · rcases hx with hx | hx
    · have hsink : blocks'.sink = blocks.sink := (congrArg (fun x : Flow => x.dst.uid) hx).symm
      have hsrc : f.src = p := (congrArg (fun x : Flow => x.src) hx).symm
      exact ⟨f, hf, ht.wellFormed.sink_inj _ _ _ _ hblocks' hblocks hsink, hsrc⟩
    · have hdst : f.dst.uid = blocks.sink := (congrArg (fun x : Flow => x.dst.uid) hx).symm
      have huser := ht.grows.user _ (hadmits.user f hf).2
      exact absurd hdst (user_ne_cached ht.wellFormed huser hblocks).2

/-- A flow out of a network source goes to the destination of a flow of its key. -/
theorem of_edge_source (hadmits : s.Admits flatFlows keys fresh)
    (ht : LoadedAll fresh s t (s.missing keys)) {key q : Port} {blocks : NetBlocks}
    (hblocks : t.srcToNetgressCache key = some blocks)
    (hedge : edges (networkAware s t flatFlows keys) ⟨blocks.source, "0"⟩ q) :
    ∃ flow ∈ flatFlows, s.key flow = key ∧ flow.dst = q := by
  rcases (mem_networkAware hadmits.perm).mp hedge with ⟨hmem, -⟩ | ⟨f, hf, -, blocks', hblocks', hx⟩
  · have huser := ht.grows.user _ (hadmits.user _ hmem).1
    exact absurd rfl (user_ne_cached ht.wellFormed huser hblocks).1
  · rcases hx with hx | hx
    · have hsrc : f.src.uid = blocks.source := (congrArg (fun x : Flow => x.src.uid) hx).symm
      have huser := ht.grows.user _ (hadmits.user f hf).1
      exact absurd hsrc (user_ne_cached ht.wellFormed huser hblocks).1
    · have hsource : blocks'.source = blocks.source := (congrArg (fun x : Flow => x.src.uid) hx).symm
      have hdst : f.dst = q := (congrArg (fun x : Flow => x.dst) hx).symm
      exact ⟨f, hf, ht.wellFormed.source_inj _ _ _ _ hblocks' hblocks hsource, hdst⟩

/-- **Network blocks connect what was connected.** -/
theorem joined_net_iff (hadmits : s.Admits flatFlows keys fresh)
    (ht : LoadedAll fresh s t (s.missing keys))
    (hcache : ∀ key ∈ keys, ∃ blocks, t.srcToNetgressCache key = some blocks) {p q : Port}
    (hp : p.uid ∈ s.user) (hq : q.uid ∈ s.user) :
    Joined (ThroughNet t) (edges (networkAware s t flatFlows keys)) p q ↔ edges flatFlows p q := by
  have hp' := ht.grows.user _ hp
  have hq' := ht.grows.user _ hq
  constructor
  · intro hpath
    cases hpath with
    | direct hedge =>
        rcases (mem_networkAware hadmits.perm).mp hedge with ⟨hmem, -⟩ | ⟨f, -, -, blocks, hblocks, hx⟩
        · exact hmem
        · rcases hx with hx | hx
          · exact absurd (congrArg (fun x : Flow => x.dst.uid) hx)
              (user_ne_cached ht.wellFormed hq' hblocks).2
          · exact absurd (congrArg (fun x : Flow => x.src.uid) hx)
              (user_ne_cached ht.wellFormed hp' hblocks).1
    | through hedge hnet hrest =>
        obtain ⟨key, blocks, hblocks, rfl, rfl⟩ := hnet
        obtain ⟨f, hf, hfkey, rfl⟩ := of_edge_sink hadmits ht hblocks hedge
        cases hrest with
        | direct hout =>
            obtain ⟨g, hg, hgkey, rfl⟩ := of_edge_source hadmits ht hblocks hout
            -- the two flows have one key, so one source
            rw [(same_of_key (hfkey.trans hgkey.symm)).1]
            exact hg
        | through hout hnet _ =>
            obtain ⟨g, hg, -, rfl⟩ := of_edge_source hadmits ht hblocks hout
            obtain ⟨key', blocks', hblocks', hdst, -⟩ := hnet
            have huser := ht.grows.user _ (hadmits.user g hg).2
            exact absurd (congrArg Port.uid hdst) (user_ne_cached ht.wellFormed huser hblocks').2
  · intro hmem
    by_cases hsame : s.SameProcess ⟨p, q⟩
    · exact .direct ((mem_networkAware hadmits.perm).mpr (.inl ⟨hmem, hsame⟩))
    · have hkey : s.key ⟨p, q⟩ ∈ keys :=
        hadmits.perm.mem_iff.mpr (mem_netKeys.mpr ⟨_, mem_srcToFlows.mpr ⟨hmem, hsame, rfl⟩⟩)
      obtain ⟨blocks, hblocks⟩ := hcache _ hkey
      refine .through (b := ⟨blocks.sink, "0"⟩) (c := ⟨blocks.source, "0"⟩) ?_ ⟨_, blocks, hblocks, rfl, rfl⟩
        (.direct ?_)
      · exact (mem_networkAware hadmits.perm).mpr (.inr ⟨_, hmem, hsame, blocks, hblocks, .inl rfl⟩)
      · exact (mem_networkAware hadmits.perm).mpr (.inr ⟨_, hmem, hsame, blocks, hblocks, .inr rfl⟩)

end

end Netgress

end PothosCore.Framework

import PothosCore.Plugin.EventSystem

/-!
# PothosCore.Plugin.EventDelivery

How often a handler hears of a plugin below it. Take a handler and a plugin below it, both
registered. From then on the events there have been and the tasks that will lead to one
are the same number together (`served`), whatever the calls do and in whatever order.
When the second of the two is inserted this number is one, for the look-up or the walk
of the call that inserts it, plus what the other call still has ahead that reaches it.

So no event is lost, and all are delivered once exactly in the runs in which every
insertion comes when no other call still has such a task (`Clean`).
-/

namespace PothosCore.Plugins

open PothosCore.Lib PluginRegistry

/-! ### Counting -/

/-- The events for `(h, p)` that a task leads to, in a call for the plugin at `own`, when
both are registered. -/
def Task.serves (h p own : PluginPath) : Task → Nat
  | .insert => 0
  | .parents => if own = p then 1 else 0
  | .deliver handler plugin => (delivered handler plugin).count (h, p)
  | .list path => if own = h ∧ Above path p then 1 else 0
  | .get path => if own = h ∧ path = p then 1 else 0

def Adder.serves (h p : PluginPath) (a : Adder) : Nat := (a.todo.map (Task.serves h p a.plugin.path)).sum

/-- The events for `(h, p)`, had and to come. -/
def System.served (h p : PluginPath) (s : System) : Nat :=
  s.log.count (h, p) + (s.adders.map (Adder.serves h p)).sum

/-- A list without repetitions has an element once. -/
theorem sum_indicator {α : Type} [DecidableEq α] {l : List α} {x : α} (hnodup : l.Nodup) (hmem : x ∈ l) :
    (l.map fun y => if y = x then 1 else 0).sum = 1 := by
  have hcount : (l.map fun y => if y = x then 1 else 0).sum = l.count x := by
    clear hnodup hmem
    induction l with
    | nil => rfl
    | cons y l ih =>
        rw [List.map_cons, List.sum_cons, ih, List.count_cons, Nat.add_comm]
        simp only [beq_iff_eq]
  rw [hcount, List.count_eq_one_of_mem hnodup hmem]

theorem nodup_inits {α : Type} (l : List α) : l.inits.Nodup := by
  induction l with
  | nil => exact List.nodup_singleton []
  | cons x l ih =>
      rw [List.inits_cons, List.nodup_cons]
      constructor
      · simp
      · exact ih.map fun _ _ h => (List.cons.inj h).2

theorem nodup_eraseDups (names : List Name) : names.eraseDups.Nodup := by
  induction names using List.reverseRecOn with
  | nil => exact List.nodup_nil
  | append_singleton names n ih =>
      rw [PathMap.eraseDups_concat]
      split
      · exact ih
      · next hn =>
          rw [← List.concat_eq_append]
          exact ih.concat (by rwa [List.mem_eraseDups])

theorem PluginPath.ext_nodes {p q : PluginPath} (h : p.nodes = q.nodes) : p = q := by
  cases p
  cases q
  exact congrArg PluginPath.mk h

theorem delivered_count (handler plugin : Plugin) (h p : PluginPath) :
    (delivered handler plugin).count (h, p) =
      if canObjectHandleEvent handler.object = true ∧ handler.path = h ∧ plugin.path = p then 1 else 0 := by
  rw [delivered]
  by_cases hcan : canObjectHandleEvent handler.object = true
  · rw [if_pos hcan, List.count_singleton]
    simp [hcan]
  · rw [if_neg hcan, if_neg (fun h => hcan h.1)]
    rfl

theorem Above.split {h p : PluginPath} (habove : Above h p) : ∃ k r, p.nodes = h.nodes ++ k :: r := by
  obtain ⟨⟨r, hr⟩, hne⟩ := habove
  cases r with
  | nil => exact absurd (PluginPath.ext_nodes (by simpa using hr)) hne
  | cons k r => exact ⟨k, r, hr.symm⟩

/-! ### What a task is replaced by -/

/-- A handler and a plugin below it, both registered, in a map where the plugins stand at
their own paths. -/
structure Pair (m : PathMap) (h p : PluginPath) : Prop where
  placed : ∀ q plugin, m.plugin q = some plugin → plugin.path.nodes = q
  used : ∀ q, (m.plugin q).isSome = true → q ∈ m.used
  handler : ∃ handler, m.plugin h.nodes = some handler ∧ canObjectHandleEvent handler.object = true
  plugin : (m.plugin p.nodes).isSome = true
  above : Above h p

variable {m : PathMap} {h p : PluginPath} {own : Plugin}

/-- Only the handler at `h` gives an event for it. -/
theorem Pair.handler_iff (hpair : Pair m h p) (q : List Name) :
    canObjectHandleEvent ((m.plugin q).getD {}).object = true ∧ ((m.plugin q).getD {}).path = h ↔ q = h.nodes := by
  constructor
  · intro hq
    cases hm : m.plugin q with
    | none =>
        rw [hm] at hq
        exact absurd hq.1 (by decide)
    | some plugin =>
        rw [hm, Option.getD_some] at hq
        rw [← hpair.placed q plugin hm, hq.2]
  · intro hq
    obtain ⟨handler, hm, hcan⟩ := hpair.handler
    rw [hq, hm, Option.getD_some]
    exact ⟨hcan, PluginPath.ext_nodes (hpair.placed _ _ hm)⟩

/-- The look-up finds the handler once. -/
theorem Pair.parents_serves (hpair : Pair m h p) :
    ((expand m own .parents).map (Task.serves h p own.path)).sum = Task.serves h p own.path .parents := by
  have hterm : (Task.serves h p own.path ∘ (Task.deliver · own)) ∘ (fun q => (m.plugin q).getD {}) =
      fun q => if own.path = p then (if q = h.nodes then 1 else 0) else 0 := by
    funext q
    rw [Function.comp_apply, Function.comp_apply, Task.serves, delivered_count]
    have hiff := hpair.handler_iff q
    by_cases hown : own.path = p
    · rw [if_pos hown]
      by_cases hq : q = h.nodes
      · obtain ⟨hcan, hpath⟩ := hiff.mpr hq
        rw [if_pos hq, if_pos ⟨hcan, hpath, hown⟩]
      · rw [if_neg hq, if_neg fun hh => hq (hiff.mp ⟨hh.1, hh.2.1⟩)]
    · rw [if_neg hown, if_neg fun hh => hown hh.2.2]
  rw [expand, PathMap.parents, List.map_map, List.map_map, hterm, List.map_reverse, List.sum_reverse, Task.serves]
  by_cases hown : own.path = p
  · simp only [if_pos hown]
    rw [hown]
    obtain ⟨k, r, hsplit⟩ := hpair.above.split
    have hmem : h.nodes ∈ p.nodes.dropLast.inits := by
      rw [List.mem_inits, hsplit, List.dropLast_append_of_ne_nil (List.cons_ne_nil k r)]
      exact ⟨_, rfl⟩
    exact sum_indicator (nodup_inits _) hmem
  · simp only [if_neg hown]
    simp

/-- The two tasks for a name serve if the name leads to `p`. -/
theorem visit_serves (path : PluginPath) (n : Name) :
    Task.serves h p own.path (.get (path.join n)) + Task.serves h p own.path (.list (path.join n)) =
      if own.path = h ∧ path.nodes ++ [n] <+: p.nodes then 1 else 0 := by
  rw [Task.serves, Task.serves]
  by_cases hown : own.path = h
  · by_cases hp : path.join n = p
    · have hnot : ¬ (own.path = h ∧ Above (path.join n) p) := fun hh => hh.2.2 hp
      have hpre : path.nodes ++ [n] <+: p.nodes := by
        rw [← hp]
        exact List.prefix_refl _
      rw [if_pos ⟨hown, hp⟩, if_neg hnot, if_pos ⟨hown, hpre⟩]
    · have hiff : Above (path.join n) p ↔ path.nodes ++ [n] <+: p.nodes := and_iff_left hp
      rw [if_neg fun hh => hp hh.2, Nat.zero_add]
      simp only [hiff]
  · rw [if_neg fun hh => hown hh.1, if_neg fun hh => hown hh.1, if_neg fun hh => hown hh.1]

/-- A directory on the way to `p` leads to it by one of its names. -/
theorem Pair.list_serves (hpair : Pair m h p) (path : PluginPath) :
    ((expand m own (.list path)).map (Task.serves h p own.path)).sum = Task.serves h p own.path (.list path) := by
  classical
  have hvisit : ∀ names : List Name, ((visit path names).map (Task.serves h p own.path)).sum =
      (names.map fun n => if own.path = h ∧ path.nodes ++ [n] <+: p.nodes then 1 else 0).sum := by
    intro names
    induction names with
    | nil => rfl
    | cons n names ih =>
        rw [List.map_cons, List.sum_cons, ← ih, ← visit_serves, visit, List.flatMap_cons]
        simp only [List.map_append, List.sum_append, List.map_cons, List.sum_cons, List.map_nil, List.sum_nil]
        rfl
  rw [expand, hvisit, Task.serves]
  by_cases hown : own.path = h
  · by_cases habove : Above path p
    · obtain ⟨k, r, hsplit⟩ := habove.split
      have hstep : ∀ n, path.nodes ++ [n] <+: p.nodes ↔ n = k := by
        intro n
        rw [hsplit, List.prefix_append_right_inj, List.cons_prefix_cons]
        exact and_iff_left List.nil_prefix
      have hmem : k ∈ (m.childNames path.nodes).filter fun n => decide (m.Occupied (path.nodes ++ [n])) := by
        rw [List.mem_filter, decide_eq_true_eq]
        constructor
        · exact PathMap.mem_childNames.mpr
            ⟨p.nodes, hpair.used _ hpair.plugin, by rw [hsplit]; exact PathMap.childOf_append _ k r⟩
        · exact ⟨r, by rw [List.append_assoc, List.singleton_append, ← hsplit]; exact hpair.plugin⟩
      have hnodup : ((m.childNames path.nodes).filter fun n =>
          decide (m.Occupied (path.nodes ++ [n]))).Nodup := (nodup_eraseDups _).filter _
      simp only [hown, hstep, true_and]
      rw [if_pos habove]
      exact sum_indicator hnodup hmem
    · have hnone : ∀ n, ¬ path.nodes ++ [n] <+: p.nodes := by
        intro n hn
        refine habove ⟨(List.prefix_append _ _).trans hn, ?_⟩
        intro heq
        have hlen := hn.length_le
        rw [heq, List.length_append, List.length_singleton] at hlen
        omega
      rw [if_neg fun hh => habove hh.2]
      simp [hnone]
  · rw [if_neg fun hh => hown hh.1]
    simp [hown]

theorem Pair.get_serves (hpair : Pair m h p) (hown : m.plugin own.path.nodes = some own) (path : PluginPath) :
    ((expand m own (.get path)).map (Task.serves h p own.path)).sum = Task.serves h p own.path (.get path) := by
  rw [expand, Task.serves]
  cases hm : m.plugin path.nodes with
  | none =>
      have hne : path ≠ p := by
        intro heq
        have hplugin := hpair.plugin
        rw [← heq, hm] at hplugin
        cases hplugin
      rw [if_neg fun hh => hne hh.2]
      rfl
  | some plugin =>
      have hpath : plugin.path = path := PluginPath.ext_nodes (hpair.placed _ _ hm)
      have hcan : own.path = h → canObjectHandleEvent own.object = true := by
        intro heq
        obtain ⟨handler, hhandler, hcan⟩ := hpair.handler
        rw [← heq, hown] at hhandler
        rw [Option.some.inj hhandler]
        exact hcan
      rw [List.map_singleton, List.sum_singleton, Task.serves, delivered_count, hpath]
      by_cases heq : own.path = h
      · simp only [heq, hcan heq, true_and]
      · rw [if_neg fun hh => heq hh.2.1, if_neg fun hh => heq hh.1]

/-- **A task serves as much as what takes its place and its events.** -/
theorem Pair.expand_serves (hpair : Pair m h p) (hown : m.plugin own.path.nodes = some own) {task : Task}
    (htask : task ≠ .insert) :
    ((expand m own task).map (Task.serves h p own.path)).sum + task.events.count (h, p) =
      task.serves h p own.path := by
  cases task with
  | insert => exact absurd rfl htask
  | parents => exact hpair.parents_serves
  | deliver handler plugin => exact Nat.zero_add _
  | list path => exact hpair.list_serves path
  | get path => exact hpair.get_serves hown path

/-! ### Calls in progress -/

/-- Are the handler and the plugin of an event registered? -/
def Settled (m : PathMap) (e : Event) : Prop :=
  (m.plugin e.1.nodes).isSome = true ∧ (m.plugin e.2.nodes).isSome = true

/-- What holds in every state: the map has the plugins of the calls that have inserted
theirs, and the events that a call has in hand are between registered plugins. -/
structure Kept (s : System) (m : PathMap) : Prop where
  refines : Refines s.tree m
  distinct : (s.adders.map (·.plugin.path)).Nodup
  waiting : ∀ a ∈ s.adders, .insert ∈ a.todo → a.todo = [.insert] ∧ m.plugin a.plugin.path.nodes = none
  entered : ∀ a ∈ s.adders, .insert ∉ a.todo → m.plugin a.plugin.path.nodes = some a.plugin
  known : ∀ q plugin, m.plugin q = some plugin → ∃ a ∈ s.adders, a.plugin = plugin ∧ plugin.path.nodes = q
  pending : ∀ a ∈ s.adders, ∀ task ∈ a.todo, ∀ e ∈ task.events, Settled m e
  logged : ∀ e ∈ s.log, Settled m e

theorem kept_start {adds : List (PluginModule × Plugin)} (h : (adds.map (·.2.path)).Nodup) :
    Kept (.start adds) .empty := by
  have hstart : ∀ a ∈ (System.start adds).adders, a.todo = [.insert] := by
    intro a ha
    obtain ⟨add, -, rfl⟩ := List.mem_map.mp ha
    rfl
  exact {
    refines := refines_init
    distinct := by
      rw [System.start, List.map_map]
      exact h
    waiting := fun a ha _ => ⟨hstart a ha, rfl⟩
    entered := fun a ha hin => absurd (hstart a ha ▸ List.mem_singleton_self _) hin
    known := fun q plugin hq => nomatch hq
    pending := fun a ha task htask e he => by
      rw [hstart a ha, List.mem_singleton] at htask
      rw [htask] at he
      cases he
    logged := fun e he => nomatch he }

variable {s t : System} {i : Nat}

/-- Only one call is for a path. -/
theorem Kept.same_call (hk : Kept s m) {a b : Adder} (ha : a ∈ s.adders) (hb : b ∈ s.adders)
    (hpath : a.plugin.path = b.plugin.path) : a = b :=
  List.inj_on_of_nodup_map hk.distinct ha hb hpath

theorem Kept.placed (hk : Kept s m) (q : List Name) (plugin : Plugin) (hq : m.plugin q = some plugin) :
    plugin.path.nodes = q := by
  obtain ⟨-, -, -, hplace⟩ := hk.known q plugin hq
  exact hplace

/-- The other calls are those for other paths. -/
theorem Kept.mem_others (hk : Kept s m) {pre post : List Adder} {a : Adder} (hsplit : s.adders = pre ++ a :: post)
    {b : Adder} : b ∈ pre ++ post ↔ b ∈ s.adders ∧ b.plugin.path ≠ a.plugin.path := by
  have hdistinct := hk.distinct
  rw [hsplit, List.map_append, List.map_cons, List.nodup_middle, List.nodup_cons, ← List.map_append] at hdistinct
  rw [hsplit, List.mem_append, List.mem_append, List.mem_cons]
  constructor
  · intro hb
    exact ⟨hb.imp_right .inr, fun heq => hdistinct.1 (heq ▸ List.mem_map_of_mem (List.mem_append.mpr hb))⟩
  · intro hb
    obtain ⟨hb, hne⟩ := hb
    exact hb.imp_right fun hb => hb.resolve_left fun heq => hne (heq ▸ rfl)

/-- The calls for a handler and for a plugin below it. -/
structure Due (s : System) (h p : PluginPath) : Prop where
  handler : ∃ a ∈ s.adders, a.plugin.path = h ∧ canObjectHandleEvent a.plugin.object = true
  plugin : ∃ b ∈ s.adders, b.plugin.path = p
  above : Above h p

/-- Once both are registered the two are a pair in the map. -/
theorem Kept.pair (hk : Kept s m) (hdue : Due s h p) (hsettled : Settled m (h, p)) : Pair m h p where
  placed := hk.placed
  used := hk.refines.used
  handler := by
    obtain ⟨a, ha, rfl, hcan⟩ := hdue.handler
    have hin : .insert ∉ a.todo := by
      intro hin
      have hnone := (hk.waiting a ha hin).2
      have hsome := hsettled.1
      rw [hnone] at hsome
      cases hsome
    exact ⟨a.plugin, hk.entered a ha hin, hcan⟩
  plugin := hsettled.2
  above := hdue.above

/-! ### Steps -/

/-- A step is a task of one call. The insertion enters the plugin; any other task leaves
the map as it is. -/
theorem Kept.step_inv (hk : Kept s m) (hstep : s.step i = some t) :
    ∃ pre a post, s.adders = pre ++ a :: post ∧ s.adders[i]? = some a ∧
      ((a.todo = [.insert] ∧ m.plugin a.plugin.path.nodes = none ∧
          Refines t.tree (m.next (.add a.active a.plugin)) ∧ t.log = s.log ∧
          t.adders = pre ++ ⟨a.active, { a.plugin with module := a.active }, expand m a.plugin .insert⟩ :: post) ∨
        ∃ task todo, a.todo = task :: todo ∧ .insert ∉ a.todo ∧ Refines t.tree m ∧
          t.log = s.log ++ task.events ∧
          t.adders = pre ++ { a with todo := expand m a.plugin task ++ todo } :: post) := by
  rw [System.step] at hstep
  cases ha : s.adders[i]? with
  | none => rw [ha] at hstep; cases hstep
  | some a =>
      rw [ha, Option.bind_some, Option.map_eq_some_iff] at hstep
      obtain ⟨⟨a', tree', events⟩, hastep, rfl⟩ := hstep
      obtain ⟨hlt, hget⟩ := List.getElem?_eq_some_iff.mp ha
      have hsplit : s.adders = s.adders.take i ++ a :: s.adders.drop (i + 1) := by
        rw [← hget, List.getElem_cons_drop, List.take_append_drop]
      have hset : s.adders.set i a' = s.adders.take i ++ a' :: s.adders.drop (i + 1) :=
        List.set_eq_take_append_cons_drop.trans (if_pos hlt)
      have hmem : a ∈ s.adders := List.mem_of_getElem? ha
      refine ⟨_, a, _, hsplit, rfl, ?_⟩
      dsimp only
      rw [hset]
      by_cases hin : .insert ∈ a.todo
      · obtain ⟨htodo, hfree⟩ := hk.waiting a hmem hin
        obtain ⟨hr, rfl, rfl⟩ := Adder.step_insert hk.refines hastep htodo hfree
        rw [List.append_nil, List.append_nil]
        exact .inl ⟨htodo, hfree, hr, rfl, rfl⟩
      · cases htodo : a.todo with
        | nil =>
            rw [Adder.step, htodo] at hastep
            cases hastep
        | cons task todo =>
            have htask : task ≠ .insert := by
              intro heq
              rw [htodo, heq] at hin
              exact hin List.mem_cons_self
            obtain ⟨hr, rfl, rfl⟩ := Adder.step_other hk.refines hastep htodo htask
            rw [htodo] at hin
            exact .inr ⟨task, todo, rfl, hin, hr, rfl, rfl⟩

/-- What a task is replaced by holds no insertion. -/
theorem insert_notMem_expand (m : PathMap) (own : Plugin) (task : Task) : .insert ∉ expand m own task := by
  cases task with
  | insert => simp [expand]
  | parents => simp [expand]
  | deliver handler plugin => simp [expand]
  | list path => simp [expand, visit]
  | get path =>
      rw [expand]
      split <;> simp

/-- The events in hand after a task are between registered plugins. -/
theorem expand_events (hplaced : ∀ q plugin, m.plugin q = some plugin → plugin.path.nodes = q)
    (hown : m.plugin own.path.nodes = some own) {task task' : Task} (htask' : task' ∈ expand m own task)
    {e : Event} (he : e ∈ task'.events) : Settled m e := by
  have hreg : (m.plugin own.path.nodes).isSome = true := by rw [hown]; rfl
  cases task with
  | insert =>
      rw [expand, List.mem_pair] at htask'
      rcases htask' with rfl | rfl <;> cases he
  | deliver handler plugin => cases htask'
  | parents =>
      rw [expand, PathMap.parents, List.map_map] at htask'
      obtain ⟨q, -, rfl⟩ := List.mem_map.mp htask'
      rw [Function.comp_apply, Task.events, delivered] at he
      split at he
      · next hcan =>
          rw [List.mem_singleton.mp he]
          cases hm : m.plugin q with
          | none => rw [hm] at hcan; exact absurd hcan (by decide)
          | some plugin =>
              refine ⟨?_, hreg⟩
              rw [Option.getD_some, hplaced q plugin hm, hm]
              rfl
      · cases he
  | list path =>
      obtain ⟨n, -, hn⟩ := List.mem_flatMap.mp htask'
      rcases List.mem_pair.mp hn with rfl | rfl <;> cases he
  | get path =>
      rw [expand] at htask'
      cases hm : m.plugin path.nodes with
      | none => rw [hm] at htask'; cases htask'
      | some plugin =>
          rw [hm] at htask'
          rw [List.mem_singleton.mp htask', Task.events, delivered] at he
          split at he
          · rw [List.mem_singleton.mp he]
            refine ⟨hreg, ?_⟩
            rw [hplaced _ _ hm, hm]
            rfl
          · cases he

/-- The map after the insertion of a plugin at a free path. -/
theorem next_add_plugin (active : PluginModule) {plugin : Plugin} (hfree : m.plugin plugin.path.nodes = none)
    (q : List Name) : (m.next (.add active plugin)).plugin q =
      if q = plugin.path.nodes then some { plugin with module := active } else m.plugin q := by
  have hnext : m.next (.add active plugin) =
      ⟨m.put plugin.path.nodes (some { plugin with module := active }), m.used ++ [plugin.path.nodes]⟩ := by
    rw [PathMap.next, PluginPath.listNodes, hfree]
    rfl
  rw [hnext]
  rfl

theorem settled_next {active : PluginModule} {plugin : Plugin} (hfree : m.plugin plugin.path.nodes = none)
    {e : Event} (h : Settled m e) : Settled (m.next (.add active plugin)) e := by
  have hkept : ∀ q, (m.plugin q).isSome = true → ((m.next (.add active plugin)).plugin q).isSome = true := by
    intro q hq
    rw [next_add_plugin active hfree]
    split
    · rfl
    · exact hq
  exact ⟨hkept _ h.1, hkept _ h.2⟩

theorem Kept.insert (hk : Kept s m) {pre post : List Adder} {a : Adder} (hsplit : s.adders = pre ++ a :: post)
    (hfree : m.plugin a.plugin.path.nodes = none) (hr : Refines t.tree (m.next (.add a.active a.plugin)))
    (hlog : t.log = s.log)
    (ht : t.adders = pre ++ ⟨a.active, { a.plugin with module := a.active }, expand m a.plugin .insert⟩ :: post) :
    Kept t (m.next (.add a.active a.plugin)) := by
  have hmem : ∀ b ∈ t.adders, (b ∈ s.adders ∧ b.plugin.path ≠ a.plugin.path) ∨
      b = ⟨a.active, { a.plugin with module := a.active }, expand m a.plugin .insert⟩ := by
    intro b hb
    rw [ht, List.mem_append, List.mem_cons] at hb
    rcases hb with hb | hb | hb
    · exact .inl ((hk.mem_others hsplit).mp (List.mem_append_left _ hb))
    · exact .inr hb
    · exact .inl ((hk.mem_others hsplit).mp (List.mem_append_right _ hb))
  have hnext := next_add_plugin a.active hfree
  have hkeep : ∀ b : Adder, b.plugin.path ≠ a.plugin.path →
      (m.next (.add a.active a.plugin)).plugin b.plugin.path.nodes = m.plugin b.plugin.path.nodes := by
    intro b hne
    rw [hnext, if_neg fun heq => hne (PluginPath.ext_nodes heq)]
  exact {
    refines := hr
    distinct := by
      have hpaths : t.adders.map (·.plugin.path) = s.adders.map (·.plugin.path) := by
        rw [ht, hsplit, List.map_append, List.map_append]
        rfl
      rw [hpaths]
      exact hk.distinct
    waiting := fun b hb hin => by
      rcases hmem b hb with ⟨hb, hne⟩ | rfl
      · rw [hkeep b hne]
        exact hk.waiting b hb hin
      · exact absurd hin (insert_notMem_expand m a.plugin .insert)
    entered := fun b hb hin => by
      rcases hmem b hb with ⟨hb, hne⟩ | rfl
      · rw [hkeep b hne]
        exact hk.entered b hb hin
      · rw [hnext, if_pos rfl]
    known := fun q plugin hq => by
      rw [hnext] at hq
      by_cases hpath : q = a.plugin.path.nodes
      · rw [if_pos hpath] at hq
        cases hq
        exact ⟨_, ht ▸ List.mem_append_right pre List.mem_cons_self, rfl, hpath.symm⟩
      · rw [if_neg hpath] at hq
        obtain ⟨b, hb, rfl, hplace⟩ := hk.known q _ hq
        have hne : b ≠ a := fun heq => hpath (heq ▸ hplace.symm)
        rw [hsplit, List.mem_append, List.mem_cons] at hb
        refine ⟨b, ?_, rfl, hplace⟩
        rw [ht, List.mem_append, List.mem_cons]
        exact hb.imp_right fun h => .inr (h.resolve_left hne)
    pending := fun b hb task htask e he => by
      rcases hmem b hb with ⟨hb, -⟩ | rfl
      · exact settled_next hfree (hk.pending b hb task htask e he)
      · rcases List.mem_pair.mp htask with rfl | rfl <;> cases he
    logged := fun e he => by
      rw [hlog] at he
      exact settled_next hfree (hk.logged e he) }

theorem Kept.other (hk : Kept s m) {pre post : List Adder} {a : Adder} (hsplit : s.adders = pre ++ a :: post)
    {task : Task} {todo : List Task} (htodo : a.todo = task :: todo) (hin : .insert ∉ a.todo)
    (hr : Refines t.tree m) (hlog : t.log = s.log ++ task.events)
    (ht : t.adders = pre ++ { a with todo := expand m a.plugin task ++ todo } :: post) : Kept t m := by
  have ha : a ∈ s.adders := hsplit ▸ List.mem_append_right pre List.mem_cons_self
  have hown := hk.entered a ha hin
  have hmem : ∀ b ∈ t.adders, b ∈ s.adders ∨ b = { a with todo := expand m a.plugin task ++ todo } := by
    intro b hb
    rw [ht, List.mem_append, List.mem_cons] at hb
    rw [hsplit, List.mem_append, List.mem_cons]
    rcases hb with hb | hb | hb
    · exact .inl (.inl hb)
    · exact .inr hb
    · exact .inl (.inr (.inr hb))
  have hnot : .insert ∉ expand m a.plugin task ++ todo := by
    rw [List.mem_append, not_or]
    rw [htodo] at hin
    exact ⟨insert_notMem_expand _ _ _, fun h => hin (List.mem_cons_of_mem _ h)⟩
  exact {
    refines := hr
    distinct := by
      have hpaths : t.adders.map (·.plugin.path) = s.adders.map (·.plugin.path) := by
        rw [ht, hsplit, List.map_append, List.map_append]
        rfl
      rw [hpaths]
      exact hk.distinct
    waiting := fun b hb hb' => by
      rcases hmem b hb with hb | rfl
      · exact hk.waiting b hb hb'
      · exact absurd hb' hnot
    entered := fun b hb hb' => by
      rcases hmem b hb with hb | rfl
      · exact hk.entered b hb hb'
      · exact hown
    known := fun q plugin hq => by
      obtain ⟨b, hb, rfl, hplace⟩ := hk.known q plugin hq
      rw [hsplit, List.mem_append, List.mem_cons] at hb
      rcases hb with hb | heq | hb
      · exact ⟨b, ht ▸ List.mem_append_left _ hb, rfl, hplace⟩
      · exact ⟨{ a with todo := expand m a.plugin task ++ todo },
          ht ▸ List.mem_append_right pre List.mem_cons_self, (congrArg Adder.plugin heq).symm, hplace⟩
      · exact ⟨b, ht ▸ List.mem_append_right pre (List.mem_cons_of_mem _ hb), rfl, hplace⟩
    pending := fun b hb task' htask' e he => by
      rcases hmem b hb with hb | rfl
      · exact hk.pending b hb task' htask' e he
      · rcases List.mem_append.mp htask' with htask' | htask'
        · exact expand_events hk.placed hown htask' he
        · exact hk.pending a ha task' (htodo ▸ List.mem_cons_of_mem task htask') e he
    logged := fun e he => by
      rw [hlog] at he
      rcases List.mem_append.mp he with he | he
      · exact hk.logged e he
      · exact hk.pending a ha task (htodo ▸ List.mem_cons_self) e he }

/-- The calls for a handler and a plugin stay what they are. -/
theorem due_step {pre post : List Adder} {a a' : Adder} (hsplit : s.adders = pre ++ a :: post)
    (ht : t.adders = pre ++ a' :: post) (hpath : a'.plugin.path = a.plugin.path)
    (hobject : a'.plugin.object = a.plugin.object) : Due t h p ↔ Due s h p := by
  have hone : ∀ P : PluginPath → Option Object → Prop,
      (∃ b ∈ t.adders, P b.plugin.path b.plugin.object) ↔ ∃ b ∈ s.adders, P b.plugin.path b.plugin.object := by
    intro P
    rw [ht, hsplit]
    simp only [List.mem_append, List.mem_cons, or_and_right, exists_or, exists_eq_left, hpath, hobject]
  have hhandler := hone fun path object => path = h ∧ canObjectHandleEvent object = true
  have hplugin := hone fun path _ => path = p
  exact ⟨fun hd => ⟨hhandler.mp hd.handler, hplugin.mp hd.plugin, hd.above⟩,
    fun hd => ⟨hhandler.mpr hd.handler, hplugin.mpr hd.plugin, hd.above⟩⟩

/-! ### The number of events had and to come -/

theorem served_split {pre post : List Adder} {a : Adder} (hsplit : s.adders = pre ++ a :: post) :
    s.served h p = s.log.count (h, p) + ((pre.map (Adder.serves h p)).sum + (a.serves h p +
      (post.map (Adder.serves h p)).sum)) := by
  rw [System.served, hsplit, List.map_append, List.sum_append, List.map_cons, List.sum_cons]

/-- A task that is no insertion leaves the number of a settled pair as it is. -/
theorem Kept.served_other (hk : Kept s m) (hpair : Pair m h p) {pre post : List Adder} {a : Adder}
    (hsplit : s.adders = pre ++ a :: post) {task : Task} {todo : List Task} (htodo : a.todo = task :: todo)
    (hin : .insert ∉ a.todo) (hlog : t.log = s.log ++ task.events)
    (ht : t.adders = pre ++ { a with todo := expand m a.plugin task ++ todo } :: post) :
    t.served h p = s.served h p := by
  have ha : a ∈ s.adders := hsplit ▸ List.mem_append_right pre List.mem_cons_self
  have htask : task ≠ .insert := fun heq => hin (htodo ▸ heq ▸ List.mem_cons_self)
  have hbalance := hpair.expand_serves (hk.entered a ha hin) htask
  have hold : a.serves h p = task.serves h p a.plugin.path + (todo.map (Task.serves h p a.plugin.path)).sum := by
    rw [Adder.serves, htodo, List.map_cons, List.sum_cons]
  have hnew : ({ a with todo := expand m a.plugin task ++ todo } : Adder).serves h p =
      ((expand m a.plugin task).map (Task.serves h p a.plugin.path)).sum +
        (todo.map (Task.serves h p a.plugin.path)).sum := by
    rw [Adder.serves, List.map_append, List.sum_append]
  rw [served_split ht, served_split hsplit, hlog, List.count_append, hold, hnew]
  omega

/-- The call that inserts at `a` has the look-up and the walk ahead. -/
theorem entered_serves (a : Adder) (habove : Above h p) :
    Adder.serves h p ⟨a.active, { a.plugin with module := a.active }, expand m a.plugin .insert⟩ =
      if a.plugin.path = p ∨ a.plugin.path = h then 1 else 0 := by
  have hne : h ≠ p := habove.2
  rw [Adder.serves, expand, List.map_cons, List.map_cons, List.map_nil, List.sum_cons, List.sum_cons,
    List.sum_nil, Nat.add_zero, Task.serves, Task.serves]
  dsimp only
  by_cases hp : a.plugin.path = p
  · have hh : ¬ (a.plugin.path = h ∧ Above a.plugin.path p) := fun hh => hne (hh.1.symm.trans hp)
    rw [if_pos hp, if_neg hh, if_pos (.inl hp), Nat.add_zero]
  · by_cases hh : a.plugin.path = h
    · rw [if_neg hp, if_pos ⟨hh, hh ▸ habove⟩, if_pos (.inr hh), Nat.zero_add]
    · rw [if_neg hp, if_neg fun hh' => hh hh'.1, if_neg (not_or_intro hp hh), Nat.zero_add]

theorem waiting_serves {a : Adder} (htodo : a.todo = [.insert]) : a.serves h p = 0 := by
  rw [Adder.serves, htodo]
  rfl

/-- The insertion of another plugin leaves the number as it is. -/
theorem served_insert_beside (habove : Above h p) {pre post : List Adder} {a : Adder}
    (hsplit : s.adders = pre ++ a :: post) (htodo : a.todo = [.insert]) (hlog : t.log = s.log)
    (ht : t.adders = pre ++ ⟨a.active, { a.plugin with module := a.active }, expand m a.plugin .insert⟩ :: post)
    (hh : a.plugin.path ≠ h) (hp : a.plugin.path ≠ p) : t.served h p = s.served h p := by
  have hnew := entered_serves (m := m) a habove
  rw [if_neg (not_or_intro hp hh)] at hnew
  rw [served_split ht, served_split hsplit, hlog, hnew, waiting_serves htodo]

/-- When the second of the two is inserted, the number is one, and what the other calls
have ahead. -/
theorem Kept.served_insert (hk : Kept s m) (habove : Above h p) {pre post : List Adder} {a : Adder}
    (hfree : m.plugin a.plugin.path.nodes = none)
    (hlog : t.log = s.log)
    (ht : t.adders = pre ++ ⟨a.active, { a.plugin with module := a.active }, expand m a.plugin .insert⟩ :: post)
    (ha : a.plugin.path = p ∨ a.plugin.path = h) :
    t.served h p = 1 + ((pre ++ post).map (Adder.serves h p)).sum := by
  have hnone : s.log.count (h, p) = 0 := by
    rw [List.count_eq_zero]
    intro hin
    obtain ⟨hh, hp⟩ := hk.logged _ hin
    rcases ha with ha | ha <;> rw [ha] at hfree
    · rw [hfree] at hp
      cases hp
    · rw [hfree] at hh
      cases hh
  have hnew := entered_serves (m := m) a habove
  rw [if_pos ha] at hnew
  rw [served_split ht, hlog, hnone, hnew, List.map_append, List.sum_append]
  omega

/-! ### Clean insertions -/

/-- Does the walk still come to the path by this task? -/
def Task.Reaches (p : PluginPath) : Task → Prop
  | .list path => Above path p
  | .get path => path = p
  | _ => False

instance (p : PluginPath) (task : Task) : Decidable (task.Reaches p) := by
  cases task <;> unfold Task.Reaches <;> infer_instance

/-- The insertion by `a` meets no call that will come to the same pair from the other
side: no plugin below a new handler has its look-up ahead, and no handler above the new
plugin has a directory on the way, or the plugin itself, ahead in its walk. -/
def Meets (s : System) (a : Adder) : Prop :=
  ∀ b ∈ s.adders,
    (canObjectHandleEvent a.plugin.object = true → Above a.plugin.path b.plugin.path → .parents ∉ b.todo) ∧
    (canObjectHandleEvent b.plugin.object = true → Above b.plugin.path a.plugin.path →
      ∀ task ∈ b.todo, ¬ task.Reaches a.plugin.path)

/-- The condition on a step. -/
def Clean (s : System) (i : Nat) : Prop :=
  match s.adders[i]? with
  | none => True
  | some a => .insert ∈ a.todo → Meets s a

instance (s : System) (a : Adder) : Decidable (Meets s a) := by unfold Meets; infer_instance

instance (s : System) (i : Nat) : Decidable (Clean s i) := by
  unfold Clean
  cases s.adders[i]? <;> infer_instance

/-- What a call has ahead for a pair that is not settled, one task after the other. -/
theorem Kept.serves_eq_zero_iff (hk : Kept s m) (hopen : ¬ Settled m (h, p)) {b : Adder} (hb : b ∈ s.adders) :
    b.serves h p = 0 ↔ (b.plugin.path = p → .parents ∉ b.todo) ∧
      (b.plugin.path = h → ∀ task ∈ b.todo, ¬ task.Reaches p) := by
  rw [Adder.serves, List.sum_eq_zero_iff_forall_eq_nat]
  simp only [List.mem_map, forall_exists_index, and_imp, forall_apply_eq_imp_iff₂]
  constructor
  · intro hzero
    constructor
    · intro hp hin
      have := hzero _ hin
      rw [Task.serves, if_pos hp] at this
      cases this
    · intro hh task hin hreach
      have hserves := hzero task hin
      cases task with
      | list path =>
          rw [Task.serves, if_pos ⟨hh, hreach⟩] at hserves
          cases hserves
      | get path =>
          rw [Task.serves, if_pos ⟨hh, hreach⟩] at hserves
          cases hserves
      | insert => exact hreach
      | parents => exact hreach
      | deliver handler plugin => exact hreach
  · intro hnone task hin
    obtain ⟨hparents, hwalk⟩ := hnone
    cases task with
    | insert => rfl
    | parents => exact if_neg fun hp => hparents hp hin
    | deliver handler plugin =>
        rw [Task.serves, List.count_eq_zero]
        exact fun he => hopen (hk.pending b hb _ hin _ he)
    | list path => exact if_neg fun hh => hwalk hh.1 _ hin hh.2
    | get path => exact if_neg fun hh => hwalk hh.1 _ hin hh.2

/-- What an insertion settles: the pairs of its plugin with those that are registered. -/
theorem settled_next_iff {a : Adder} (hfree : m.plugin a.plugin.path.nodes = none) (hne : h ≠ p) :
    (¬ Settled m (h, p) ∧ Settled (m.next (.add a.active a.plugin)) (h, p)) ↔
      (a.plugin.path = p ∧ (m.plugin h.nodes).isSome = true) ∨
        (a.plugin.path = h ∧ (m.plugin p.nodes).isSome = true) := by
  have hnext := next_add_plugin a.active hfree
  have hnodes : ∀ q : PluginPath, q.nodes = a.plugin.path.nodes ↔ a.plugin.path = q :=
    fun q => ⟨fun heq => (PluginPath.ext_nodes heq).symm, fun heq => heq ▸ rfl⟩
  simp only [Settled, hnext, hnodes]
  by_cases hp : a.plugin.path = p
  · have hh : ¬ a.plugin.path = h := fun hh => hne (hh.symm.trans hp)
    rw [hp] at hfree
    simp [hp, hfree, Ne.symm hne]
  · by_cases hh : a.plugin.path = h
    · rw [hh] at hfree
      simp [hh, hfree, hne]
    · simp only [hp, hh, if_false, false_and, or_self, iff_false, not_and]
      exact fun hopen hset => hopen hset

/-- **Clean insertions** are those after which every pair they settle has one event to
come. -/
theorem Kept.meets_iff (hk : Kept s m) {pre post : List Adder} {a : Adder} (hsplit : s.adders = pre ++ a :: post)
    (hfree : m.plugin a.plugin.path.nodes = none) (hlog : t.log = s.log)
    (ht : t.adders = pre ++ ⟨a.active, { a.plugin with module := a.active }, expand m a.plugin .insert⟩ :: post) :
    Meets s a ↔ ∀ h p, Due s h p → ¬ Settled m (h, p) ∧ Settled (m.next (.add a.active a.plugin)) (h, p) →
      t.served h p = 1 := by
  have ha : a ∈ s.adders := hsplit ▸ List.mem_append_right pre List.mem_cons_self
  have hone : ∀ {h p : PluginPath}, Above h p → (a.plugin.path = p ∨ a.plugin.path = h) →
      (t.served h p = 1 ↔ ∀ b ∈ pre ++ post, b.serves h p = 0) := by
    intro h p habove hside
    rw [hk.served_insert habove hfree hlog ht hside, Nat.add_eq_left, List.sum_eq_zero_iff_forall_eq_nat]
    simp only [List.mem_map, forall_exists_index, and_imp, forall_apply_eq_imp_iff₂]
  constructor
  · intro hmeets h p hdue hnew
    have hopen := hnew.1
    rcases (settled_next_iff hfree hdue.above.2).mp hnew with ⟨rfl, -⟩ | ⟨rfl, -⟩
    · refine (hone hdue.above (.inl rfl)).mpr fun b hb => ?_
      obtain ⟨hb, hne⟩ := (hk.mem_others hsplit).mp hb
      refine (hk.serves_eq_zero_iff hopen hb).mpr ⟨fun hp => absurd hp hne, fun hh => ?_⟩
      obtain ⟨c, hc, hch, hcan⟩ := hdue.handler
      obtain rfl := hk.same_call hb hc (hh.trans hch.symm)
      exact (hmeets b hb).2 hcan (hh ▸ hdue.above)
    · refine (hone hdue.above (.inr rfl)).mpr fun b hb => ?_
      obtain ⟨hb, hne⟩ := (hk.mem_others hsplit).mp hb
      refine (hk.serves_eq_zero_iff hopen hb).mpr ⟨fun hp => ?_, fun hh => absurd hh hne⟩
      obtain ⟨c, hc, hch, hcan⟩ := hdue.handler
      obtain rfl := hk.same_call hc ha hch
      exact (hmeets b hb).1 hcan (hp ▸ hdue.above)
  · intro hserved b hb
    by_cases hwait : .insert ∈ b.todo
    · rw [(hk.waiting b hb hwait).1]
      refine ⟨fun _ _ hin => ?_, fun _ _ task hin => ?_⟩
      · cases List.mem_singleton.mp hin
      · rw [List.mem_singleton.mp hin]
        exact id
    · have hsome : (m.plugin b.plugin.path.nodes).isSome = true := by
        rw [hk.entered b hb hwait]
        rfl
      have hother : b.plugin.path ≠ a.plugin.path := by
        intro heq
        rw [heq, hfree] at hsome
        cases hsome
      have hmem := (hk.mem_others hsplit).mpr ⟨hb, hother⟩
      refine ⟨fun hcan habove => ?_, fun hcan habove => ?_⟩
      · have hnew := (settled_next_iff hfree habove.2).mpr (.inr ⟨rfl, hsome⟩)
        have hdue : Due s a.plugin.path b.plugin.path := ⟨⟨a, ha, rfl, hcan⟩, ⟨b, hb, rfl⟩, habove⟩
        have hzero := (hone habove (.inr rfl)).mp (hserved _ _ hdue hnew) b hmem
        exact ((hk.serves_eq_zero_iff hnew.1 hb).mp hzero).1 rfl
      · have hnew := (settled_next_iff hfree habove.2).mpr (.inl ⟨rfl, hsome⟩)
        have hdue : Due s b.plugin.path a.plugin.path := ⟨⟨b, hb, rfl, hcan⟩, ⟨a, ha, rfl⟩, habove⟩
        have hzero := (hone habove (.inl rfl)).mp (hserved _ _ hdue hnew) b hmem
        exact ((hk.serves_eq_zero_iff hnew.1 hb).mp hzero).2 rfl

/-! ### Runs -/

/-- One step: the calls stay what they are, what is settled stays so with its number, and
the step is clean exactly if each pair it settles has one event to come. -/
theorem Kept.step (hk : Kept s m) (hstep : s.step i = some t) :
    ∃ m', Kept t m' ∧ (∀ h p, Due t h p ↔ Due s h p) ∧
      (∀ h p, Due s h p → Settled m (h, p) → Settled m' (h, p) ∧ t.served h p = s.served h p) ∧
      (Clean s i ↔ ∀ h p, Due s h p → ¬ Settled m (h, p) ∧ Settled m' (h, p) → t.served h p = 1) := by
  obtain ⟨pre, a, post, hsplit, hget, ⟨htodo, hfree, hr, hlog, ht⟩ | ⟨task, todo, htodo, hin, hr, hlog, ht⟩⟩ :=
    hk.step_inv hstep
  · refine ⟨_, hk.insert hsplit hfree hr hlog ht, fun h p => due_step hsplit ht rfl rfl, ?_, ?_⟩
    · intro h p hdue hsettled
      have hne : ∀ q : PluginPath, (m.plugin q.nodes).isSome = true → a.plugin.path ≠ q := by
        intro q hq heq
        rw [← heq, hfree] at hq
        cases hq
      exact ⟨settled_next hfree hsettled,
        served_insert_beside hdue.above hsplit htodo hlog ht (hne h hsettled.1) (hne p hsettled.2)⟩
    · have hclean : Clean s i ↔ Meets s a := by
        rw [Clean, hget]
        exact ⟨fun hh => hh (htodo ▸ List.mem_singleton_self _), fun hh _ => hh⟩
      rw [hclean]
      exact hk.meets_iff hsplit hfree hlog ht
  · refine ⟨m, hk.other hsplit htodo hin hr hlog ht, fun h p => due_step hsplit ht rfl rfl, ?_, ?_⟩
    · intro h p hdue hsettled
      exact ⟨hsettled, hk.served_other (hk.pair hdue hsettled) hsplit htodo hin hlog ht⟩
    · have hclean : Clean s i := by
        rw [Clean, hget]
        exact fun hin' => absurd hin' hin
      exact ⟨fun _ h p _ hnew => absurd hnew.2 hnew.1, fun _ => hclean⟩

/-- When all calls are over no event is to come. -/
theorem served_of_finished (hdone : t.Finished) : t.served h p = t.log.count (h, p) := by
  have hzero : (t.adders.map (Adder.serves h p)).sum = 0 := by
    rw [List.sum_eq_zero_iff_forall_eq_nat]
    intro n hn
    obtain ⟨a, ha, rfl⟩ := List.mem_map.mp hn
    rw [Adder.serves, hdone a ha]
    rfl
  rw [System.served, hzero, Nat.add_zero]

/-- Over a run: what is settled at its start ends with its number of events, and the run is
clean exactly if all other pairs end with one. -/
theorem Kept.run (hk : Kept s m) {is : List Nat} (hrun : Exec (ofPartial System.step) s is t) (hdone : t.Finished) :
    (∃ m', Kept t m') ∧ (∀ h p, Due t h p ↔ Due s h p) ∧
      (∀ h p, Due s h p → Settled m (h, p) → t.log.count (h, p) = s.served h p) ∧
      (Exec (restrict (ofPartial System.step) Clean) s is t ↔
        ∀ h p, Due s h p → ¬ Settled m (h, p) → t.log.count (h, p) = 1) := by
  induction hrun generalizing m with
  | nil s =>
      refine ⟨⟨m, hk⟩, fun _ _ => Iff.rfl, fun h p _ _ => (served_of_finished hdone).symm, ?_⟩
      have hall : ∀ a ∈ s.adders, (m.plugin a.plugin.path.nodes).isSome = true := by
        intro a ha
        rw [hk.entered a ha (by rw [hdone a ha]; exact List.not_mem_nil)]
        rfl
      refine ⟨fun _ h p hdue hopen => absurd ?_ hopen, fun _ => .nil s⟩
      obtain ⟨a, ha, rfl, -⟩ := hdue.handler
      obtain ⟨b, hb, rfl⟩ := hdue.plugin
      exact ⟨hall a ha, hall b hb⟩
  | @cons s s' t i is hstep hrest ih =>
      obtain ⟨m', hk', hdue', hkept, hclean⟩ := hk.step hstep
      obtain ⟨hend, hdue, hsettled, hrun⟩ := ih hk' hdone
      refine ⟨hend, fun h p => (hdue h p).trans (hdue' h p), ?_, ?_⟩
      · intro h p hd hs
        obtain ⟨hs', hserved⟩ := hkept h p hd hs
        rw [hsettled h p ((hdue' h p).mpr hd) hs', hserved]
      · have hsplit : Exec (restrict (ofPartial System.step) Clean) s (i :: is) t ↔
            Clean s i ∧ Exec (restrict (ofPartial System.step) Clean) s' is t := by
          constructor
          · intro hexec
            cases hexec with
            | cons hst hrest' =>
                have hsame := Option.some.inj (hst.1.symm.trans hstep)
                exact ⟨hst.2, hsame ▸ hrest'⟩
          · exact fun hexec => .cons ⟨hstep, hexec.1⟩ hexec.2
        rw [hsplit, hrun, hclean]
        constructor
        · intro hboth h p hd hopen
          by_cases hs' : Settled m' (h, p)
          · rw [hsettled h p ((hdue' h p).mpr hd) hs']
            exact hboth.1 h p hd ⟨hopen, hs'⟩
          · exact hboth.2 h p ((hdue' h p).mpr hd) hs'
        · intro hall
          constructor
          · intro h p hd hnew
            rw [← hsettled h p ((hdue' h p).mpr hd) hnew.2]
            exact hall h p hd hnew.1
          · intro h p hd hopen'
            have hd' := (hdue' h p).mp hd
            exact hall h p hd' fun hs => hopen' (hkept h p hd' hs).1

/-- The registered plugins are those of the calls. -/
theorem Kept.registered_iff (hk : Kept t m) (hdone : t.Finished) (plugin : Plugin) :
    t.Registered plugin ↔ ∃ a ∈ t.adders, a.plugin = plugin := by
  rw [System.Registered]
  cases hget : PluginRegistry.get plugin.path t.tree with
  | mk result tree' =>
      obtain ⟨rfl, -⟩ := hk.refines.get hget
      dsimp only
      constructor
      · intro hreg
        cases hm : m.plugin plugin.path.listNodes with
        | none => rw [hm] at hreg; cases hreg
        | some found =>
            rw [hm] at hreg
            obtain rfl := Except.ok.inj hreg
            obtain ⟨a, ha, heq, -⟩ := hk.known _ _ hm
            exact ⟨a, ha, heq⟩
      · intro hreg
        obtain ⟨a, ha, rfl⟩ := hreg
        have hm := hk.entered a ha (by rw [hdone a ha]; exact List.not_mem_nil)
        rw [PluginPath.listNodes, hm]

/-- **Once for each handler, exactly in the clean runs.** For calls with distinct paths,
in any order of their steps: when all are over, each registered handler has had one event
for each plugin below it if and only if every insertion of the run was clean. -/
theorem deliveredOnce_iff_clean (adds : List (PluginModule × Plugin)) (hdistinct : (adds.map (·.2.path)).Nodup)
    {is : List Nat} {t : System} (hrun : Exec (ofPartial System.step) (.start adds) is t) (hdone : t.Finished) :
    t.DeliveredOnce ↔ Exec (restrict (ofPartial System.step) Clean) (.start adds) is t := by
  obtain ⟨⟨m, hk⟩, hdue, -, hclean⟩ := (kept_start hdistinct).run hrun hdone
  have hreg := hk.registered_iff hdone
  have hopen : ∀ h p, ¬ Settled .empty (h, p) := fun h p hs => nomatch hs.1
  rw [hclean]
  constructor
  · intro hone h p hd _
    have hd' := (hdue h p).mpr hd
    obtain ⟨a, ha, rfl, hcan⟩ := hd'.handler
    obtain ⟨b, hb, rfl⟩ := hd'.plugin
    exact hone a.plugin b.plugin ((hreg _).mpr ⟨a, ha, rfl⟩) ((hreg _).mpr ⟨b, hb, rfl⟩) hcan hd'.above
  · intro hall handler plugin hhandler hplugin hcan habove
    obtain ⟨a, ha, rfl⟩ := (hreg handler).mp hhandler
    obtain ⟨b, hb, rfl⟩ := (hreg plugin).mp hplugin
    exact hall _ _ ((hdue _ _).mp ⟨⟨a, ha, rfl, hcan⟩, ⟨b, hb, rfl⟩, habove⟩) (hopen _ _)

/-! ### Two calls -/

instance (s : System) : Decidable s.Finished := by unfold System.Finished; infer_instance

instance (s : System) (plugin : Plugin) : Decidable (s.Registered plugin) := by
  unfold System.Registered
  infer_instance

/-- The path `/a`. -/
def handlerPath : PluginPath := ⟨[⟨"a", by decide, List.all_eq_true.mp (by decide)⟩]⟩

/-- The path `/a/b`. -/
def pluginPath : PluginPath := handlerPath.join ⟨"b", by decide, List.all_eq_true.mp (by decide)⟩

def handlerAt : Plugin :=
  { path := handlerPath
    object := some ⟨"Pothos::Callable", "", some ⟨"void", ["Pothos::Plugin", "std::string"]⟩⟩ }

def twoCalls : List (PluginModule × Plugin) := [({}, { path := pluginPath }), ({}, handlerAt)]

/-- The handler's call, from its start to its end, and then the plugin's: every step is
clean, and the event comes once. -/
theorem sequential_delivered : ∃ t : System,
    Exec (restrict (ofPartial System.step) Clean) (.start twoCalls) [1, 1, 1, 1, 0, 0, 0, 0, 0] t ∧ t.Finished ∧
      t.DeliveredOnce ∧ t.log = [(handlerPath, pluginPath)] := by
  have hrun : ∃ t ∈ runPartial (guarded System.step Clean) (.start twoCalls) [1, 1, 1, 1, 0, 0, 0, 0, 0],
      t.Finished ∧ t.log = [(handlerPath, pluginPath)] := by decide +kernel
  obtain ⟨t, ht, hdone, hlog⟩ := hrun
  have hclean := exec_of_runPartial ht
  rw [ofPartial_guarded] at hclean
  have honce := (deliveredOnce_iff_clean twoCalls (by decide) hclean.of_restrict hdone).mpr hclean
  exact ⟨t, hclean, hdone, honce, hlog⟩

/-- A handler that comes between the insertion of a plugin and its look-up is told of it
by both calls. -/
theorem overlapping_told_twice :
    ¬ ∀ (adds : List (PluginModule × Plugin)) (is : List Nat) (t : System), (adds.map (·.2.path)).Nodup →
      Exec (ofPartial System.step) (.start adds) is t → t.Finished → t.DeliveredOnce := by
  intro h
  have hrun : ∃ t ∈ runPartial System.step (.start twoCalls) [0, 1, 1, 1, 1, 1, 1, 1, 0, 0, 0, 0],
      t.Finished ∧ t.Registered handlerAt ∧ t.Registered { path := pluginPath } ∧
        t.log.count (handlerPath, pluginPath) = 2 := by decide +kernel
  obtain ⟨t, ht, hdone, hhandler, hplugin, hcount⟩ := hrun
  have hone : t.log.count (handlerPath, pluginPath) = 1 :=
    h twoCalls _ t (by decide) (exec_of_runPartial ht) hdone handlerAt { path := pluginPath }
      hhandler hplugin (by decide) (by decide)
  rw [hcount] at hone
  exact absurd hone (by decide)

end PothosCore.Plugins

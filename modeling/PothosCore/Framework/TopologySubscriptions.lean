import PothosCore.Framework.TopologyCommit
import PothosCore.Lib.Transition

/-!
# PothosCore.Framework.TopologySubscriptions

A run of commits on one topology leaves its ports and blocks as a single commit of
the last flow list would.

`Synced` ties the subscribers of the ports to a set of subscription calls. One
call adds or removes just itself, so the order of the calls of a commit does not
matter, and no call of a commit finds its subscription in the wrong state.
-/

namespace PothosCore.Framework

open PothosCore.Lib

/-- The flow of a subscription call. -/
def SubscribeCall.flow : SubscribeCall → Flow
  | .input flow => flow
  | .output flow => flow

theorem mem_subscribeCalls {flows : List Flow} {call : SubscribeCall} :
    call ∈ Topology.subscribeCalls flows ↔ call.flow ∈ flows := by
  unfold Topology.subscribeCalls
  cases call <;> simp [SubscribeCall.flow]

theorem nodup_subscribeCalls {flows : List Flow} (hflows : flows.Nodup) :
    (Topology.subscribeCalls flows).Nodup := by
  unfold Topology.subscribeCalls
  refine List.nodup_flatMap.mpr ⟨fun flow _ => by simp, ?_⟩
  refine hflows.imp fun {f g} hne => ?_
  intro call hf hg
  cases call <;> simp_all

/-- What an action makes of the truth of `old`, at the subscription `this` is about. -/
def SubscribeAction.change (action : SubscribeAction) (old this : Prop) : Prop :=
  match action with
  | .add => old ∨ this
  | .remove => old ∧ ¬ this

namespace Topology

variable {b : Blocks}

/-- Does the subscription of a call exist? -/
def Subscribed (t : Topology) : SubscribeCall → Prop
  | .input flow => flow.dst ∈ t.outputs flow.src
  | .output flow => flow.src ∈ t.inputs flow.dst

/-- The subscriptions are those of these calls. -/
structure Synced (t : Topology) (calls : SubscribeCall → Prop) : Prop where
  subscribed : ∀ call, t.Subscribed call ↔ calls call
  outputs : ∀ src, (t.outputs src).Nodup
  inputs : ∀ dst, (t.inputs dst).Nodup

theorem Synced.congr {t : Topology} {calls calls' : SubscribeCall → Prop} (hs : t.Synced calls)
    (hc : ∀ call, calls call ↔ calls' call) : t.Synced calls' :=
  { hs with subscribed := fun call => (hs.subscribed call).trans (hc call) }

/-! ### The frame of the calls -/

/-- A step leaves the active flows alone, and the managers of the ports that have
subscribers after it. -/
structure Frame (t t' : Topology) : Prop where
  activeFlatFlows : t'.activeFlatFlows = t.activeFlatFlows
  bufferManager : ∀ port, t'.outputs port ≠ [] → t'.bufferManager port = t.bufferManager port

/-- A step that also leaves the subscribers alone. -/
structure Quiet (t t' : Topology) : Prop extends Frame t t' where
  outputs : t'.outputs = t.outputs
  inputs : t'.inputs = t.inputs

theorem Quiet.refl (t : Topology) : Quiet t t := ⟨⟨rfl, fun _ _ => rfl⟩, rfl, rfl⟩

theorem Quiet.trans {t t' t'' : Topology} (h : Quiet t t') (h' : Quiet t' t'') : Quiet t t'' where
  activeFlatFlows := h'.activeFlatFlows.trans h.activeFlatFlows
  bufferManager := fun port hp => by
    rw [h'.bufferManager port hp]
    exact h.bufferManager port (h'.outputs ▸ hp)
  outputs := h'.outputs.trans h.outputs
  inputs := h'.inputs.trans h.inputs

theorem Quiet.synced {t t' : Topology} {calls : SubscribeCall → Prop} (h : Quiet t t')
    (hs : t.Synced calls) : t'.Synced calls where
  subscribed := fun call => by
    rw [← hs.subscribed]
    cases call <;> simp only [Subscribed, h.outputs, h.inputs]
  outputs := h.outputs ▸ hs.outputs
  inputs := h.inputs ▸ hs.inputs

theorem ensure_spec {t t' : Topology} {port : Port}
    (he : ensureOutputBufferManager b t port = .ok t') :
    Quiet t t' ∧ t'.activeState = t.activeState := by
  unfold ensureOutputBufferManager at he
  split at he
  · obtain rfl := Except.ok.inj he
    exact ⟨.refl t, rfl⟩
  · split at he
    · next hempty =>
        split at he
        · obtain rfl := Except.ok.inj he
          refine ⟨⟨⟨rfl, fun p hp => Function.update_of_ne ?_ _ _⟩, rfl, rfl⟩, rfl⟩
          rintro rfl
          exact hp hempty
        · cases he
    · split at he
      · cases he
      · obtain rfl := Except.ok.inj he
        exact ⟨.refl t, rfl⟩

/-! ### Subscription calls -/

/-- What a list of subscribers is after a call that returns. -/
theorem apply_spec {action : SubscribeAction} {their my name : String} {port : Port}
    {l l' : List Port} (h : action.apply their my port name l = .ok l') (hl : l.Nodup) :
    (port ∈ l ↔ action = .remove) ∧ l'.Nodup ∧
      ∀ p, p ∈ l' ↔ action.change (p ∈ l) (p = port) := by
  cases action with
  | add =>
      simp only [SubscribeAction.apply] at h
      split at h
      · cases h
      · next hmem =>
          obtain rfl := Except.ok.inj h
          refine ⟨by simp [hmem], ?_, fun p => by simp [SubscribeAction.change]⟩
          refine List.nodup_append.mpr ⟨hl, List.nodup_singleton port, fun x hx y hy he => ?_⟩
          rw [List.mem_singleton.mp hy] at he
          exact hmem (he ▸ hx)
  | remove =>
      simp only [SubscribeAction.apply] at h
      split at h
      · next hmem =>
          obtain rfl := Except.ok.inj h
          exact ⟨by simp [hmem], hl.erase port, fun p => by
            rw [hl.mem_erase_iff, and_comm, SubscribeAction.change]⟩
      · cases h

/-- The same for the subscribers of all ports of one kind, when those of `key` change. -/
theorem update_spec {action : SubscribeAction} {subs : Port → List Port} {key port : Port}
    {l : List Port} (hl : l.Nodup) (hn : ∀ k, (subs k).Nodup)
    (hmem : ∀ p, p ∈ l ↔ action.change (p ∈ subs key) (p = port)) :
    (∀ k, (Function.update subs key l k).Nodup) ∧ ∀ k p, p ∈ Function.update subs key l k ↔
      action.change (p ∈ subs k) (k = key ∧ p = port) := by
  refine ⟨fun k => ?_, fun k p => ?_⟩
  · by_cases hk : k = key
    · rw [hk, Function.update_self]
      exact hl
    · rw [Function.update_of_ne hk]
      exact hn k
  · by_cases hk : k = key
    · rw [hk, Function.update_self, hmem]
      simp only [true_and]
    · rw [Function.update_of_ne hk]
      cases action <;> simp [SubscribeAction.change, hk]

/-- **One subscription call** changes just its own subscription. -/
theorem Synced.subscribePort {t t' : Topology} {calls : SubscribeCall → Prop}
    {action : SubscribeAction} {call : SubscribeCall} (hs : t.Synced calls)
    (h : subscribePort b action t call = .ok t') :
    (calls call ↔ action = .remove) ∧
      t'.Synced (fun c => action.change (calls c) (c = call)) ∧ Frame t t' ∧
      t'.activeState = t.activeState ∧
      (action = .add → t'.bufferManager = t.bufferManager) := by
  cases call with
  | input flow =>
      simp only [Topology.subscribePort, subscribeInput] at h
      cases hl : action.apply "input" "output" flow.dst flow.src.name (t.outputs flow.src) with
      | error e => rw [hl] at h; cases h
      | ok l =>
          rw [hl] at h
          obtain ⟨hmem, hnodup, hmem'⟩ := apply_spec hl (hs.outputs flow.src)
          obtain ⟨hn, hup⟩ := update_spec hnodup hs.outputs hmem'
          let u : Topology := { t with outputs := Function.update t.outputs flow.src l }
          have hu : u.Synced fun c => action.change (calls c) (c = .input flow) := by
            refine ⟨fun c => ?_, hn, hs.inputs⟩
            rw [← hs.subscribed]
            cases c with
            | input f =>
                refine (hup f.src f.dst).trans ?_
                rw [SubscribeCall.input.injEq, Flow.ext_iff]
                rfl
            | output f =>
                cases action <;> simp [SubscribeAction.change, Subscribed, u]
          refine ⟨(hs.subscribed _).symm.trans hmem, ?_⟩
          by_cases hempty : l = []
          · have h' : ensureOutputBufferManager b u flow.src = .ok t' := by
              simpa only [bind, Except.bind, if_pos hempty] using h
            obtain ⟨hq, hstate⟩ := ensure_spec h'
            refine ⟨hq.synced hu, ⟨hq.activeFlatFlows, hq.bufferManager⟩, hstate, fun hadd => ?_⟩
            have hport := (hmem' flow.dst).mpr (by rw [hadd]; exact .inr rfl)
            rw [hempty] at hport
            cases hport
          · have h' : (Except.ok u : Except Fault Topology) = .ok t' := by
              simpa only [bind, Except.bind, if_neg hempty] using h
            obtain rfl := Except.ok.inj h'
            exact ⟨hu, ⟨rfl, fun _ _ => rfl⟩, rfl, fun _ => rfl⟩
  | output flow =>
      simp only [Topology.subscribePort, subscribeOutput] at h
      cases hl : action.apply "output" "input" flow.src flow.dst.name (t.inputs flow.dst) with
      | error e => rw [hl] at h; cases h
      | ok l =>
          rw [hl] at h
          obtain ⟨hmem, hnodup, hmem'⟩ := apply_spec hl (hs.inputs flow.dst)
          obtain ⟨hn, hup⟩ := update_spec hnodup hs.inputs hmem'
          obtain rfl := Except.ok.inj h
          refine ⟨(hs.subscribed _).symm.trans hmem, ⟨fun c => ?_, hs.outputs, hn⟩,
            ⟨rfl, fun _ _ => rfl⟩, rfl, fun _ => rfl⟩
          rw [← hs.subscribed]
          cases c with
          | input f =>
              cases action <;> simp [SubscribeAction.change, Subscribed]
          | output f =>
              refine (hup f.dst f.src).trans ?_
              rw [SubscribeCall.output.injEq, Flow.ext_iff, and_comm (a := f.src = flow.src)]
              rfl

/-! ### The calls of a commit -/

/-- Run in this order, every call of `calls` finds its subscription missing (when it
adds) or there (when it removes). -/
def Clean (b : Blocks) (action : SubscribeAction) : Topology → List SubscribeCall → Prop
  | _, [] => True
  | t, call :: calls => (t.Subscribed call ↔ action = .remove) ∧
      ∀ t', subscribePort b action t call = .ok t' → Clean b action t' calls

/-- The calls of a commit meet no subscription in the wrong state, whatever their
order. -/
theorem Synced.clean {t : Topology} {flows : SubscribeCall → Prop} {action : SubscribeAction}
    {calls : List SubscribeCall} (hs : t.Synced flows) (hn : calls.Nodup)
    (hc : ∀ call ∈ calls, flows call ↔ action = .remove) : Clean b action t calls := by
  induction calls generalizing t flows with
  | nil => trivial
  | cons call calls ih =>
      obtain ⟨hcall, hn⟩ := List.nodup_cons.mp hn
      refine ⟨(hs.subscribed call).trans (hc call List.mem_cons_self), fun t' h => ?_⟩
      refine ih (hs.subscribePort h).2.1 hn fun c hmem => ?_
      have hne : c ≠ call := fun he => hcall (he ▸ hmem)
      rw [← hc c (List.mem_cons_of_mem call hmem)]
      cases action <;> simp [SubscribeAction.change, hne]

/-- What subscription calls that return have done. -/
theorem Synced.subscribePorts {t t' : Topology} {flows : SubscribeCall → Prop}
    {action : SubscribeAction} {calls : List SubscribeCall} (hs : t.Synced flows)
    (h : calls.foldlM (Topology.subscribePort b action) t = .ok t') :
    t'.Synced (fun c => action.change (flows c) (c ∈ calls)) ∧
      t'.activeFlatFlows = t.activeFlatFlows ∧ t'.activeState = t.activeState ∧
      ∀ port, t'.outputs port ≠ [] → t'.bufferManager port = t.bufferManager port := by
  induction calls generalizing t flows with
  | nil =>
      obtain rfl : t = t' := Except.ok.inj h
      refine ⟨hs.congr fun c => ?_, rfl, rfl, fun _ _ => rfl⟩
      cases action <;> simp [SubscribeAction.change]
  | cons call calls ih =>
      rw [List.foldlM_cons] at h
      cases hcall : Topology.subscribePort b action t call with
      | error e => rw [hcall] at h; cases h
      | ok u =>
          rw [hcall] at h
          obtain ⟨-, hu, hframe, hstate, hadd⟩ := hs.subscribePort hcall
          obtain ⟨hs', hflows, hstate', hmanager⟩ := ih hu h
          refine ⟨hs'.congr fun c => ?_, hflows.trans hframe.activeFlatFlows,
            hstate'.trans hstate, fun port hport => ?_⟩
          · cases action <;> simp [SubscribeAction.change, or_assoc, and_assoc]
          · rw [hmanager port hport]
            cases action with
            | add => rw [hadd rfl]
            | remove =>
                -- what is subscribed at the end was subscribed here
                refine hframe.bufferManager port fun hempty => hport ?_
                refine List.eq_nil_iff_forall_not_mem.mpr fun dst hdst => ?_
                have hthere := ((hs'.subscribed (.input ⟨port, dst⟩)).mp hdst).1
                have hmem : dst ∈ u.outputs port := (hu.subscribed (.input ⟨port, dst⟩)).mpr hthere
                rw [hempty] at hmem
                cases hmem

/-- One activation or deactivation. -/
theorem setActiveState_spec {t t' : Topology} {uid : String} {state : Bool}
    (h : setActiveState b t (uid, state) = .ok t') :
    Quiet t t' ∧ t'.activeState = Function.update t.activeState uid state := by
  have hfold : ∀ (names : List String) (t t' : Topology),
      names.foldlM (fun t name => ensureOutputBufferManager b t ⟨uid, name⟩) t = .ok t' →
        Quiet t t' ∧ t'.activeState = t.activeState := by
    intro names
    induction names with
    | nil =>
        intro t t' h
        obtain rfl : t = t' := Except.ok.inj h
        exact ⟨.refl t, rfl⟩
    | cons name names ih =>
        intro t t' h
        rw [List.foldlM_cons] at h
        cases he : ensureOutputBufferManager b t ⟨uid, name⟩ with
        | error e => rw [he] at h; cases h
        | ok u =>
            rw [he] at h
            obtain ⟨hq, hstate⟩ := ensure_spec he
            obtain ⟨hq', hstate'⟩ := ih u t' h
            exact ⟨hq.trans hq', hstate'.trans hstate⟩
  cases state with
  | true =>
      simp only [setActiveState] at h
      cases hr : (b.outputs uid).foldlM
          (fun t name => ensureOutputBufferManager b t ⟨uid, name⟩) t with
      | error e => rw [hr] at h; cases h
      | ok u =>
          rw [hr] at h
          obtain rfl := Except.ok.inj h
          obtain ⟨hq, hstate⟩ := hfold _ t u hr
          exact ⟨⟨⟨hq.activeFlatFlows, hq.bufferManager⟩, hq.outputs, hq.inputs⟩,
            congrArg (Function.update · uid true) hstate⟩
  | false =>
      simp only [setActiveState, if_neg Bool.false_ne_true] at h
      split at h
      · next hoff =>
          obtain rfl := Except.ok.inj h
          refine ⟨.refl t, ?_⟩
          rw [← hoff, Function.update_eq_self]
      · obtain rfl := Except.ok.inj h
        exact ⟨⟨⟨rfl, fun _ _ => rfl⟩, rfl, rfl⟩, rfl⟩

/-- Activations and deactivations that return: the last word on a block counts. -/
theorem setActiveStates_spec {t t' : Topology} {calls : List (String × Bool)}
    (h : calls.foldlM (setActiveState b) t = .ok t') :
    Quiet t t' ∧ (∀ uid, (∀ state, (uid, state) ∉ calls) → t'.activeState uid = t.activeState uid) ∧
      ∀ uid state, (uid, state) ∈ calls → (uid, !state) ∉ calls → t'.activeState uid = state := by
  induction calls generalizing t with
  | nil =>
      obtain rfl : t = t' := Except.ok.inj h
      exact ⟨.refl t, fun _ _ => rfl, fun _ _ hmem => by cases hmem⟩
  | cons call calls ih =>
      obtain ⟨u, v⟩ := call
      rw [List.foldlM_cons] at h
      cases hcall : setActiveState b t (u, v) with
      | error e => rw [hcall] at h; cases h
      | ok t₁ =>
          rw [hcall] at h
          obtain ⟨hq, hstate⟩ := setActiveState_spec hcall
          obtain ⟨hq', hsame, hset⟩ := ih h
          refine ⟨hq.trans hq', fun uid hnone => ?_, fun uid state hmem hnot => ?_⟩
          · have hne : uid ≠ u := fun he => hnone v (he ▸ List.mem_cons_self)
            rw [hsame uid fun s hs => hnone s (List.mem_cons_of_mem _ hs), hstate,
              Function.update_of_ne hne]
          · have hnot' : (uid, !state) ∉ calls := fun hs => hnot (List.mem_cons_of_mem _ hs)
            by_cases hlater : (uid, state) ∈ calls
            · exact hset uid state hlater hnot'
            · obtain ⟨rfl, rfl⟩ : uid = u ∧ state = v := by
                rcases List.mem_cons.mp hmem with he | hs
                · exact Prod.mk.inj he
                · exact absurd hs hlater
              rw [hsame uid fun s hs => ?_, hstate, Function.update_self]
              cases s <;> cases state <;> simp_all

/-! ### Runs of commits -/

/-- Does a block take part in these flows? -/
def Appears (flows : List Flow) (uid : String) : Prop :=
  ∃ flow ∈ flows, flow.src.uid = uid ∨ flow.dst.uid = uid

theorem mem_objSetFromFlowList {flows excludes : List Flow} {uid : String} :
    uid ∈ objSetFromFlowList flows excludes ↔ Appears flows uid ∧ ¬ Appears excludes uid := by
  simp only [objSetFromFlowList, List.mem_filter, List.mem_dedup, List.mem_flatMap, List.mem_cons,
    List.not_mem_nil, or_false, List.all_eq_true, decide_eq_true_eq, Appears, not_exists, not_and,
    not_or, eq_comm (a := uid)]

/-- The subscribers of all ports, and the activity of all blocks, are those of the
active flows. -/
structure InSync (t : Topology) : Prop where
  nodup : t.activeFlatFlows.Nodup
  subscribed : t.Synced fun call => call.flow ∈ t.activeFlatFlows
  active : ∀ uid, t.activeState uid = true ↔ Appears t.activeFlatFlows uid

theorem InSync.start : start.InSync where
  nodup := List.nodup_nil
  subscribed := ⟨fun call => by cases call <;> simp [Subscribed, Topology.start],
    fun _ => List.nodup_nil, fun _ => List.nodup_nil⟩
  active := fun uid => by simp [Appears, Topology.start]

section
variable {t t' : Topology} {c : Commit}

theorem mem_newFlows {flow : Flow} {flatFlows : List Flow} :
    flow ∈ t.newFlows flatFlows ↔ flow ∈ flatFlows ∧ flow ∉ t.activeFlatFlows := by
  simp [newFlows]

theorem mem_oldFlows {flow : Flow} {flatFlows : List Flow} :
    flow ∈ t.oldFlows flatFlows ↔ flow ∈ t.activeFlatFlows ∧ flow ∉ flatFlows := by
  simp [oldFlows]

theorem Admits.mem_adds (ha : t.Admits c) {call : SubscribeCall} :
    call ∈ c.adds ↔ call.flow ∈ c.flatFlows ∧ call.flow ∉ t.activeFlatFlows := by
  rw [ha.adds.mem_iff, mem_subscribeCalls, mem_newFlows]

theorem Admits.mem_removes (ha : t.Admits c) {call : SubscribeCall} :
    call ∈ c.removes ↔ call.flow ∈ t.activeFlatFlows ∧ call.flow ∉ c.flatFlows := by
  rw [ha.removes.mem_iff, mem_subscribeCalls, mem_oldFlows]

/-- The activity that a commit asks of a block. -/
theorem Admits.mem_actives (ha : t.Admits c) {uid : String} {state : Bool} :
    (uid, state) ∈ c.actives ↔
      (state = true ∧ Appears (t.newFlows c.flatFlows) uid ∧ ¬ Appears t.activeFlatFlows uid) ∨
        (state = false ∧ Appears (t.oldFlows c.flatFlows) uid ∧ ¬ Appears c.flatFlows uid) := by
  rw [ha.actives.mem_iff, activeCalls, List.mem_append]
  simp only [List.mem_map, Prod.mk.injEq, mem_objSetFromFlowList]
  constructor
  · rintro (⟨x, hx, rfl, rfl⟩ | ⟨x, hx, rfl, rfl⟩)
    · exact .inl ⟨rfl, hx⟩
    · exact .inr ⟨rfl, hx⟩
  · rintro (⟨rfl, hx⟩ | ⟨rfl, hx⟩)
    · exact .inl ⟨uid, hx, rfl, rfl⟩
    · exact .inr ⟨uid, hx, rfl, rfl⟩

/-- The adds of a commit, and the state they lead to. -/
theorem InSync.adds (hs : t.InSync) (ha : t.Admits c) :
    Clean b .add t c.adds ∧ ∀ t₁, c.adds.foldlM (Topology.subscribePort b .add) t = .ok t₁ →
      t₁.Synced (fun call => call.flow ∈ t.activeFlatFlows ∨ call.flow ∈ c.flatFlows) ∧
        Clean b .remove t₁ c.removes := by
  have hnew : (t.newFlows c.flatFlows).Nodup := ha.nodup.filter _
  have hold : (t.oldFlows c.flatFlows).Nodup := hs.nodup.filter _
  refine ⟨hs.subscribed.clean (ha.adds.nodup_iff.mpr (nodup_subscribeCalls hnew))
    fun call hcall => ?_, fun t₁ h => ?_⟩
  · have := (ha.mem_adds.mp hcall).2
    simp [this]
  · have hs₁ : t₁.Synced fun call => call.flow ∈ t.activeFlatFlows ∨ call.flow ∈ c.flatFlows := by
      refine (hs.subscribed.subscribePorts h).1.congr fun call => ?_
      rw [SubscribeAction.change, ha.mem_adds]
      tauto
    refine ⟨hs₁, hs₁.clean (ha.removes.nodup_iff.mpr (nodup_subscribeCalls hold))
      fun call hcall => ?_⟩
    have := (ha.mem_removes.mp hcall).1
    simp [this]

/-- The ports and blocks that a commit leaves behind. -/
theorem InSync.subCommitted (hs : t.InSync) (ha : t.Admits c) {t₁ t₂ t₃ : Topology}
    {managers : Port → Option Manager}
    (hadd : c.adds.foldlM (Topology.subscribePort b .add) t = .ok t₁)
    (hrem : c.removes.foldlM (Topology.subscribePort b .remove) t₁ = .ok t₂)
    (hact : c.actives.foldlM (setActiveState b) { t₂ with bufferManager := managers } = .ok t₃) :
    InSync { t₃ with activeFlatFlows := c.flatFlows } := by
  obtain ⟨hs₂, -, hst₂, -⟩ := ((hs.adds ha).2 t₁ hadd).1.subscribePorts hrem
  obtain ⟨-, -, hst₁, -⟩ := hs.subscribed.subscribePorts hadd
  obtain ⟨hq, hsame, hset⟩ := setActiveStates_spec hact
  have hstate : t₂.activeState = t.activeState := hst₂.trans hst₁
  have hs₃ : t₃.Synced fun call => call.flow ∈ c.flatFlows := by
    refine hq.synced (Synced.congr ⟨hs₂.subscribed, hs₂.outputs, hs₂.inputs⟩ fun call => ?_)
    rw [SubscribeAction.change, ha.mem_removes]
    tauto
  refine ⟨ha.nodup, ⟨hs₃.subscribed, hs₃.outputs, hs₃.inputs⟩, fun uid => ?_⟩
  show t₃.activeState uid = true ↔ Appears c.flatFlows uid
  by_cases hnew : Appears c.flatFlows uid
  · simp only [hnew, iff_true]
    by_cases hold : Appears t.activeFlatFlows uid
    · rw [hsame uid fun state hmem => ?_]
      · show t₂.activeState uid = true
        rw [hstate]
        exact (hs.active uid).mpr hold
      · rcases ha.mem_actives.mp hmem with ⟨-, -, hnot⟩ | ⟨-, -, hnot⟩
        · exact hnot hold
        · exact hnot hnew
    · refine hset uid true (ha.mem_actives.mpr (.inl ⟨rfl, ?_, hold⟩)) fun hmem => ?_
      · obtain ⟨flow, hflow, hu⟩ := hnew
        exact ⟨flow, mem_newFlows.mpr ⟨hflow, fun hin => hold ⟨flow, hin, hu⟩⟩, hu⟩
      · rcases ha.mem_actives.mp hmem with ⟨hs, -⟩ | ⟨-, -, hnot⟩
        · cases hs
        · exact hnot hnew
  · simp only [hnew, iff_false, Bool.not_eq_true]
    by_cases hold : Appears t.activeFlatFlows uid
    · refine hset uid false (ha.mem_actives.mpr (.inr ⟨rfl, ?_, hnew⟩)) fun hmem => ?_
      · obtain ⟨flow, hflow, hu⟩ := hold
        exact ⟨flow, mem_oldFlows.mpr ⟨hflow, fun hin => hnew ⟨flow, hin, hu⟩⟩, hu⟩
      · rcases ha.mem_actives.mp hmem with ⟨-, -, hnot⟩ | ⟨hs, -⟩
        · exact hnot hold
        · cases hs
    · rw [hsame uid fun state hmem => ?_]
      · show t₂.activeState uid = false
        rw [hstate, Bool.eq_false_iff]
        exact fun hon => hold ((hs.active uid).mp hon)
      · rcases ha.mem_actives.mp hmem with ⟨-, ⟨flow, hflow, hu⟩, -⟩ | ⟨-, ⟨flow, hflow, hu⟩, -⟩
        · exact hnew ⟨flow, (mem_newFlows.mp hflow).1, hu⟩
        · exact hold ⟨flow, (mem_oldFlows.mp hflow).1, hu⟩

/-- Only `installBufferManagers` sets the manager of a port that stays in use. -/
theorem InSync.frame (hs : t.InSync) (ha : t.Admits c) {t₁ t₂ t₃ : Topology}
    {managers : Port → Option Manager}
    (hadd : c.adds.foldlM (Topology.subscribePort b .add) t = .ok t₁)
    (hrem : c.removes.foldlM (Topology.subscribePort b .remove) t₁ = .ok t₂)
    (hact : c.actives.foldlM (setActiveState b) { t₂ with bufferManager := managers } = .ok t₃) :
    ∀ port, t₃.outputs port ≠ [] → t₂.bufferManager port = t.bufferManager port ∧
      t₃.bufferManager port = managers port := by
  intro port hport
  obtain ⟨hs₂, -, -, hm₂⟩ := ((hs.adds ha).2 t₁ hadd).1.subscribePorts hrem
  obtain ⟨hs₁, -, -, hm₁⟩ := hs.subscribed.subscribePorts hadd
  obtain ⟨hq, -⟩ := setActiveStates_spec hact
  have hport₂ : t₂.outputs port ≠ [] := by
    have houtputs : t₃.outputs = t₂.outputs := hq.outputs
    exact houtputs ▸ hport
  refine ⟨(hm₂ port hport₂).trans (hm₁ port fun hempty => hport₂ ?_), hq.bufferManager port hport⟩
  refine List.eq_nil_iff_forall_not_mem.mpr fun dst hdst => ?_
  have hthere := ((hs₂.subscribed (.input ⟨port, dst⟩)).mp hdst).1
  have hmem : dst ∈ t₁.outputs port :=
    (((hs.adds ha).2 t₁ hadd).1.subscribed (.input ⟨port, dst⟩)).mpr hthere
  rw [hempty] at hmem
  cases hmem

/-- **What a commit that returns has done.** -/
theorem InSync.topologySubCommit (hs : t.InSync) (ha : t.Admits c)
    (h : topologySubCommit b t c = .ok t') :
    t'.activeFlatFlows = c.flatFlows ∧ t'.InSync ∧
      ∃ before managers, b.installBufferManagers (t.newFlows c.flatFlows) before = .ok managers ∧
        ∀ port, t'.outputs port ≠ [] → before port = t.bufferManager port ∧
          t'.bufferManager port = managers port := by
  simp only [Topology.topologySubCommit] at h
  cases hadd : c.adds.foldlM (Topology.subscribePort b .add) t with
  | error e => rw [hadd] at h; cases h
  | ok t₁ =>
      rw [hadd] at h
      simp only [bind, Except.bind] at h
      cases hrem : c.removes.foldlM (Topology.subscribePort b .remove) t₁ with
      | error e => simp only [hrem] at h; cases h
      | ok t₂ =>
          simp only [hrem] at h
          cases hinst : b.installBufferManagers (t.newFlows c.flatFlows) t₂.bufferManager with
          | error e => simp only [hinst] at h; cases h
          | ok managers =>
              simp only [hinst] at h
              cases hact : c.actives.foldlM (setActiveState b)
                  { t₂ with bufferManager := managers } with
              | error e => simp only [hact] at h; cases h
              | ok t₃ =>
                  simp only [hact] at h
                  obtain rfl := Except.ok.inj h
                  exact ⟨rfl, hs.subCommitted ha hadd hrem hact, t₂.bufferManager, managers, hinst,
                    fun port hport => hs.frame ha hadd hrem hact port hport⟩

theorem step_inv (h : step b t c = some t') :
    t.Admits c ∧ Topology.topologySubCommit b t c = .ok t' := by
  unfold Topology.step at h
  by_cases ha : t.Admits c
  · rw [if_pos ha] at h
    cases hc : Topology.topologySubCommit b t c with
    | error e => rw [hc] at h; cases h
    | ok u =>
        rw [hc] at h
        exact ⟨ha, congrArg Except.ok (Option.some.inj h)⟩
  · rw [if_neg ha] at h; cases h

end

/-- A run of commits keeps ports and blocks in step with the last flow list. -/
theorem InSync.run {t t' : Topology} {commits : List Commit} (hs : t.InSync)
    (hrun : Exec (ofPartial (Topology.step b)) t commits t') :
    t'.InSync ∧
      t'.activeFlatFlows = (commits.getLast?.map (·.flatFlows)).getD t.activeFlatFlows := by
  induction hrun with
  | nil => exact ⟨hs, rfl⟩
  | @cons s u _ c commits hstep _ ih =>
      obtain ⟨ha, hc⟩ := step_inv hstep
      obtain ⟨hflows, hs', -⟩ := hs.topologySubCommit ha hc
      obtain ⟨hin, hlast⟩ := ih hs'
      refine ⟨hin, hlast.trans ?_⟩
      rw [hflows]
      cases commits with
      | nil => rfl
      | cons d commits =>
          rw [List.getLast?_cons_cons, List.getLast?_cons]
          rfl

/-- What holds of a topology after any number of commits. -/
structure Incremental (b : Blocks) (t : Topology) : Prop where
  /-- The subscribers of an output port are its destinations, each once. -/
  outputs : ∀ src, (t.outputs src).Nodup ∧ ∀ dst, dst ∈ t.outputs src ↔ ⟨src, dst⟩ ∈ t.activeFlatFlows
  /-- The subscribers of an input port are its sources, each once. -/
  inputs : ∀ dst, (t.inputs dst).Nodup ∧ ∀ src, src ∈ t.inputs dst ↔ ⟨src, dst⟩ ∈ t.activeFlatFlows
  /-- The active blocks are those of the flows. -/
  active : ∀ uid, t.activeState uid = true ↔ Appears t.activeFlatFlows uid
  /-- The next commit adds no subscription that exists and removes none that is
  missing, in whatever order. -/
  clean : ∀ c, t.Admits c → Clean b .add t c.adds ∧
    ∀ t₁, c.adds.foldlM (subscribePort b .add) t = .ok t₁ → Clean b .remove t₁ c.removes

theorem InSync.incremental {t : Topology} (hs : t.InSync) : Incremental b t where
  outputs := fun src => ⟨hs.subscribed.outputs src, fun dst => hs.subscribed.subscribed (.input ⟨src, dst⟩)⟩
  inputs := fun dst => ⟨hs.subscribed.inputs dst, fun src => hs.subscribed.subscribed (.output ⟨src, dst⟩)⟩
  active := hs.active
  clean := fun _ ha => ⟨(hs.adds ha).1, fun t₁ h => ((hs.adds ha).2 t₁ h).2⟩

/-- **An incremental commit equals a fresh one.** After any sequence of commits that
return, the ports and blocks are those of the last flow list. -/
theorem commits_incremental {b : Blocks} {commits : List Commit} {t : Topology}
    (hrun : Exec (ofPartial (step b)) start commits t) :
    t.activeFlatFlows = (commits.getLast?.map (·.flatFlows)).getD [] ∧ Incremental b t := by
  obtain ⟨hs, hlast⟩ := InSync.start.run hrun
  exact ⟨hlast, hs.incremental⟩

/-- Blocks in one domain, of which only the sink `c` provides a buffer manager. -/
def customSink : Blocks where
  name := id
  outputs := fun _ => ["0"]
  domain := fun _ _ => ""
  isSlot := fun _ => false
  isSignal := fun _ => false
  overload := fun isInput port _ => if isInput && port.uid = "c" then .manager else .null

/-- The flow between the first ports of two blocks. -/
def link (src dst : String) : Flow := ⟨⟨src, "0"⟩, ⟨dst, "0"⟩⟩

/-- The second commit moves a destination, with its calls in another order than the
source makes them. -/
theorem commits_incremental_out_of_order : ∃ t : Topology,
    Exec (ofPartial (step customSink)) start
        [start.inOrder [link "s" "a", link "s" "c"],
          ⟨[link "s" "c", link "x" "c"], [.output (link "x" "c"), .input (link "x" "c")],
            [.output (link "s" "a"), .input (link "s" "a")], [("a", false), ("x", true)]⟩] t ∧
      (t.activeFlatFlows = [link "s" "c", link "x" "c"] ∧ Incremental customSink t) := by
  let commits : List Commit :=
    [start.inOrder [link "s" "a", link "s" "c"],
      ⟨[link "s" "c", link "x" "c"], [.output (link "x" "c"), .input (link "x" "c")],
        [.output (link "s" "a"), .input (link "s" "a")], [("a", false), ("x", true)]⟩]
  have hrun : (runPartial (step customSink) start commits).isSome = true := by decide +kernel
  obtain ⟨t, ht⟩ := Option.isSome_iff_exists.mp hrun
  exact ⟨t, exec_of_runPartial ht, commits_incremental (exec_of_runPartial ht)⟩

end Topology

end PothosCore.Framework

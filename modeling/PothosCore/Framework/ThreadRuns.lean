import PothosCore.Framework.ThreadStaffing

/-!
# PothosCore.Framework.ThreadRuns

Task ownership over whole runs of a thread environment.

A run registers and unregisters fewer than 2^64 times, so that the signature, which counts
this, does not return to 0. A thread that starts when it has returned to 0 takes its empty
tasks for the current ones.
-/

namespace PothosCore.Framework

open PothosCore.Lib

variable {Handle : Type} [LinearOrder Handle]

/-- How often the action changes the tasks. -/
def ThreadEnvironment.Action.changes : Action Handle → Nat
  | .registerTask _ => 1
  | .unregisterTask _ => 1
  | _ => 0

/-- In `it->second->task(…)`, with this data. -/
def Thread.Executes (th : Thread Handle) (data : Nat) : Prop :=
  th.pc = .task ∧ th.current.map (·.2) = some data

namespace ThreadEnvironment

/-- The registrations and unregistrations of a run. -/
def changes (as : List (Action Handle)) : Nat := (as.map Action.changes).sum

/-- A change that has begun and is not made yet. -/
def pending (s : ThreadEnvironment Handle) : Nat :=
  match s.call with
  | some (.registerTask _ _) => 1
  | some (.unregisterTask _ _) => 1
  | _ => 0

/-- The signature counts the changes. -/
def Counts (k : Nat) (s : ThreadEnvironment Handle) : Prop :=
  ∃ done, done + s.pending = k ∧ s.config.configurationSignature = BitVec.ofNat 64 done

/-- The signature changes when a change is made. -/
theorem step_signature {numThreads : Nat} {s s' : ThreadEnvironment Handle} {a : Action Handle}
    (h : step numThreads s a = some s') :
    (s'.config.configurationSignature = s.config.configurationSignature ∧ s'.pending = s.pending + a.changes) ∨
    (s'.config.configurationSignature = s.config.configurationSignature + 1 ∧
      s.pending = 1 ∧ s'.pending = 0 ∧ a.changes = 0) := by
  cases a with
  | registerTask handle =>
      simp only [ThreadEnvironment.step] at h
      split at h
      next hbegin =>
        cases h
        exact .inl ⟨rfl, by simp [pending, hbegin.1, Action.changes]⟩
      next => cases h
  | unregisterTask handle =>
      simp only [ThreadEnvironment.step] at h
      split at h
      next hbegin =>
        cases h
        exact .inl ⟨rfl, by simp [pending, hbegin.1, Action.changes]⟩
      next => cases h
  | call =>
      obtain ⟨pc, hcall, h⟩ := Option.bind_eq_some_iff.mp h
      revert h
      fun_cases callStep numThreads s pc <;> intro h <;> cases h
      case case1.refl => exact .inr ⟨rfl, by rw [pending, hcall], rfl, rfl⟩
      case case6.refl => exact .inr ⟨rfl, by rw [pending, hcall], rfl, rfl⟩
      all_goals exact .inl ⟨rfl, by simp [pending, hcall, Action.changes]⟩
  | thread i ran =>
      obtain ⟨th, hi, h⟩ := Option.bind_eq_some_iff.mp h
      obtain ⟨⟨th', c'⟩, hstep, rfl⟩ := Option.map_eq_some_iff.mp h
      exact .inl ⟨(Thread.step_moves hstep).configurationSignature, rfl⟩

/-- What every state of such a run satisfies. -/
structure Sound (numThreads k : Nat) (s : ThreadEnvironment Handle) : Prop where
  exclusive : s.Exclusive
  staffed : s.Staffed numThreads
  counts : s.Counts k

theorem sound_init (numThreads : Nat) (waitModeEnabled : Bool) :
    Sound numThreads 0 (init waitModeEnabled : ThreadEnvironment Handle) where
  exclusive := exclusive_init waitModeEnabled
  staffed := staffed_init numThreads waitModeEnabled
  counts := ⟨0, rfl, rfl⟩

theorem Sound.step {numThreads k : Nat} {s s' : ThreadEnvironment Handle} {a : Action Handle}
    (hs : s.Sound numThreads k) (hbound : k + a.changes < 2 ^ 64)
    (h : step numThreads s a = some s') : s'.Sound numThreads (k + a.changes) := by
  obtain ⟨done, hk, hcount⟩ := hs.counts
  rcases step_signature h with ⟨hsame, hpending⟩ | ⟨hnext, hone, hzero, hchanges⟩
  · exact ⟨hs.exclusive.step h, hs.staffed.step hs.exclusive h (.inl hsame), done, by omega, hsame ▸ hcount⟩
  · have hsig : s'.config.configurationSignature = BitVec.ofNat 64 (done + 1) := by
      rw [hnext, hcount, BitVec.ofNat_add]
      rfl
    have hne : s'.config.configurationSignature ≠ 0 := by
      rw [hsig]
      intro hwrap
      have hnat := congrArg BitVec.toNat hwrap
      rw [BitVec.toNat_ofNat, Nat.mod_eq_of_lt (by omega)] at hnat
      exact Nat.succ_ne_zero done hnat
    exact ⟨hs.exclusive.step h, hs.staffed.step hs.exclusive h (.inr hne), done + 1, by omega, hsig⟩

/-- **The run lemma.** -/
theorem Sound.run {numThreads k : Nat} {s t : ThreadEnvironment Handle} {as : List (Action Handle)}
    (hs : s.Sound numThreads k) (hrun : Exec (ofPartial (ThreadEnvironment.step numThreads)) s as t)
    (hbound : k + changes as < 2 ^ 64) : t.Sound numThreads (k + changes as) :=
  hrun.weighted_invariant (fun _ _ _ _ hs hb h => hs.step hb h) hs hbound

/-! ### Unregistering -/

/-- From its beginning to its return, `unregisterTask` takes the task away. -/
def Leaving (s : ThreadEnvironment Handle) (task : Handle × Nat) : Prop :=
  (∃ w, s.call = some (.unregisterTask task.1 w) ∧ task ∈ s.config.handleToTask) ∨
  (∃ w, s.call = some (.stopThread task.1 task.2 w)) ∨
  (∃ w, s.call = some (.relinquish task.2 w)) ∨
  s.Absent task.2

theorem Leaving.step {numThreads k : Nat} {s s' : ThreadEnvironment Handle} {a : Action Handle}
    {task : Handle × Nat} (hs : s.Sound numThreads k) (hleaving : s.Leaving task)
    (h : ThreadEnvironment.step numThreads s a = some s') : s'.Leaving task := by
  by_cases habsent : s.Absent task.2
  · exact .inr (.inr (.inr (habsent.step h)))
  have hphase := hs.staffed.phase
  have hbusy : s.call ≠ none := by
    rintro hnone
    simp [Leaving, hnone, habsent] at hleaving
  cases a with
  | registerTask handle =>
      simp only [ThreadEnvironment.step, hbusy, false_and, if_false] at h
      cases h
  | unregisterTask handle =>
      simp only [ThreadEnvironment.step, hbusy, false_and, if_false] at h
      cases h
  | thread i ran =>
      obtain ⟨th, hi, h⟩ := Option.bind_eq_some_iff.mp h
      obtain ⟨⟨th', c'⟩, hstep, rfl⟩ := Option.map_eq_some_iff.mp h
      rcases hleaving with ⟨w, hcall, hmem⟩ | hstop | hrelinquish | hgone
      · exact .inl ⟨w, hcall, (Thread.step_moves hstep).handleToTask ▸ hmem⟩
      · exact .inr (.inl hstop)
      · exact .inr (.inr (.inl hrelinquish))
      · exact absurd hgone habsent
  | call =>
      obtain ⟨pc, hpc, h⟩ := Option.bind_eq_some_iff.mp h
      rcases hleaving with ⟨w, hcall, hmem⟩ | ⟨w, hcall⟩ | ⟨w, hcall⟩ | hgone
      · obtain rfl : pc = .unregisterTask task.1 w := by simpa [hcall] using hpc.symm
        simp only [callStep] at h
        split at h
        next => cases h
        next key data hfind =>
          cases h
          have hkey : key = task.1 := by simpa using List.find?_some hfind
          have hsame : (key, data) = task := hs.staffed.eq_of (List.mem_of_find?_eq_some hfind) hmem (.inl hkey)
          rw [← hsame]
          exact .inr (.inl ⟨w, rfl⟩)
      · obtain rfl : pc = .stopThread task.1 task.2 w := by simpa [hcall] using hpc.symm
        have hother := hs.staffed.stopThread hcall h
        simp only [callStep] at h
        split at h <;> split at h
        next =>
          cases h
          cases hother.terminated
        next =>
          split at h <;> cases h
          exact .inr (.inr (.inl ⟨w, rfl⟩))
        next =>
          split at h <;> try cases h
          split at h <;> cases h
          exact .inr (.inr (.inl ⟨w, rfl⟩))
        next =>
          cases h
          exact .inr (.inr (.inl ⟨w, rfl⟩))
      · obtain rfl : pc = .relinquish task.2 w := by simpa [hcall] using hpc.symm
        rw [Phase, hcall] at hphase
        simp only [callStep] at h
        split at h
        next => cases h
        next hcopied =>
          cases h
          exact .inr (.inr (.inr ⟨hphase.1, hphase.2, hcopied⟩))
      · exact absurd hgone habsent

theorem Leaving.run {numThreads k : Nat} {s t : ThreadEnvironment Handle} {as : List (Action Handle)}
    {task : Handle × Nat} (hleaving : s.Leaving task) (hs : s.Sound numThreads k)
    (hrun : Exec (ofPartial (ThreadEnvironment.step numThreads)) s as t)
    (hbound : k + changes as < 2 ^ 64) : t.Leaving task :=
  (hrun.weighted_invariant (P := fun k s => s.Sound numThreads k ∧ s.Leaving task)
    (fun _ _ _ _ hs hb h => ⟨hs.1.step hb h, hs.2.step hs.1 h⟩) ⟨hs, hleaving⟩ hbound).2

/-! ### Ownership -/

/-- What a pool of threads owes in each state. -/
structure PoolOwned (numThreads : Nat) (s : ThreadEnvironment Handle) : Prop where
  /-- No iterator of an empty map, and no end iterator. -/
  evaluated : ∀ th ∈ s.threads, (th.pc = .acquire → th.localTasks ≠ []) ∧ th.pc ≠ .undefined
  /-- After a call the threads are `0`, …, `min(N, number of tasks) - 1`, and alive. -/
  threads : s.call = none →
    s.threads.map (·.arg) = (List.range (min numThreads s.config.handleToTask.length)).map .index ∧
    ∀ th ∈ s.threads, th.pc ≠ .returned
  /-- One thread at most executes a task. -/
  executing : ∀ i j (hi : i < s.threads.length) (hj : j < s.threads.length) data,
    s.threads[i].Executes data → s.threads[j].Executes data → i = j
  terminated : s.terminated = false

/-- What the threads of single tasks owe in each state. -/
structure SingleOwned (s : ThreadEnvironment Handle) : Prop where
  evaluated : ∀ th ∈ s.threads, (th.pc = .acquire → th.localTasks ≠ []) ∧ th.pc ≠ .undefined
  /-- After a call there is one live thread for each registered handle. -/
  threads : s.call = none →
    (s.threads.map (·.arg)).Nodup ∧ (∀ th ∈ s.threads, th.pc ≠ .returned) ∧
    ∀ arg, arg ∈ s.threads.map (·.arg) ↔ ∃ handle, s.Registered handle ∧ arg = .handle handle
  /-- A thread executes the task of its handle, which is registered or being unregistered. -/
  executing : ∀ th ∈ s.threads, ∀ data, th.Executes data →
    ∃ handle, th.arg = .handle handle ∧
      ((handle, data) ∈ s.config.handleToTask ∨ s.Stopping (handle, data))
  terminated : s.terminated = false

omit [LinearOrder Handle] in
theorem evaluated_of_valid {th : Thread Handle} (h : th.Valid) :
    (th.pc = .acquire → th.localTasks ≠ []) ∧ th.pc ≠ .undefined := by
  constructor
  · intro hpc hnil
    rw [Thread.Valid, hpc] at h
    simp only [Thread.Ready] at h
    split at h
    · exact h.2 hnil
    · obtain ⟨data, hdata⟩ := h
      simp [Thread.current, hnil] at hdata
  · intro hpc
    rw [Thread.Valid, hpc] at h
    exact h

theorem Sound.poolOwned {numThreads k : Nat} {s : ThreadEnvironment Handle} (hs : s.Sound numThreads k)
    (hN : numThreads ≠ 0) : s.PoolOwned numThreads := by
  have hshape := hs.staffed.shape
  unfold Shape at hshape
  rw [if_neg hN] at hshape
  refine ⟨fun th hth => evaluated_of_valid (hs.staffed.valid th hth), ?_, ?_, hs.staffed.terminated⟩
  · intro hnone
    constructor
    · rw [hshape, ThreadEnvironment.staffed, hnone, List.length_map]
    · intro th hth hpc
      exact hs.staffed.returned th hth hpc (hs.staffed.shape.wanted (by simp [hnone]) hth)
  · intro i j hi hj data hexi hexj
    have hindex : ∀ k (hk : k < s.threads.length), s.threads[k].Executes data → s.threads[k].Holds data := by
      intro k hk hex
      have hmem : s.threads[k].arg ∈ s.threads.map (·.arg) := List.mem_map_of_mem (List.getElem_mem hk)
      rw [hshape] at hmem
      obtain ⟨i, -, harg⟩ := List.mem_map.mp hmem
      refine ⟨⟨i, harg.symm⟩, ?_⟩
      rw [hex.1]
      exact hex.2
    have hone := List.pairwise_iff_getElem.mp hs.exclusive.one
    by_contra hne
    rcases Nat.lt_or_gt_of_ne hne with hlt | hgt
    · exact hone i j hi hj hlt data (hindex i hi hexi) (hindex j hj hexj)
    · exact hone j i hj hi hgt data (hindex j hj hexj) (hindex i hi hexi)

theorem Sound.singleOwned {k : Nat} {s : ThreadEnvironment Handle} (hs : s.Sound 0 k) : s.SingleOwned := by
  have hshape := hs.staffed.shape
  unfold Shape at hshape
  rw [if_pos rfl] at hshape
  refine ⟨fun th hth => evaluated_of_valid (hs.staffed.valid th hth), ?_, ?_, hs.staffed.terminated⟩
  · intro hnone
    have hstaffed : s.staffed = s.config.handleToTask.map (·.1) := by
      rw [ThreadEnvironment.staffed, hnone]
    rw [hstaffed] at hshape
    refine ⟨?_, ?_, ?_⟩
    · have hnodup : (s.config.handleToTask.map (·.1)).Nodup :=
        List.pairwise_map.mpr (hs.staffed.distinct.imp fun h => h.1)
      exact hshape.nodup_iff.mpr (hnodup.map fun _ _ h => LoopArg.handle.inj h)
    · intro th hth hpc
      exact hs.staffed.returned th hth hpc (hs.staffed.shape.wanted (by simp [hnone]) hth)
    · intro arg
      rw [hshape.mem_iff, List.mem_map]
      exact exists_congr fun handle => and_congr_right fun _ => eq_comm
  · intro th hth data hex
    obtain ⟨task, hcurrent, rfl⟩ := Option.map_eq_some_iff.mp hex.2
    have hmem := hshape.mem_iff.mp (List.mem_map_of_mem hth)
    obtain ⟨handle, -, harg⟩ := List.mem_map.mp hmem
    obtain ⟨hkey, hown⟩ := hs.staffed.own th hth handle task harg.symm hcurrent
    refine ⟨handle, harg.symm, ?_⟩
    rw [← hkey]
    exact hown

/-- **Task ownership.** In each state of a run, the threads are those that the tasks ask
for and execute what they should; and when `unregisterTask` has returned, the task is
neither copied nor executed, in whatever follows. -/
theorem tasks_owned (numThreads : Nat) (waitModeEnabled : Bool) {as : List (Action Handle)}
    {s : ThreadEnvironment Handle}
    (hrun : Exec (ofPartial (ThreadEnvironment.step numThreads)) (init waitModeEnabled) as s)
    (hchanges : changes as < 2 ^ 64) :
    (numThreads ≠ 0 → s.PoolOwned numThreads) ∧ (numThreads = 0 → s.SingleOwned) ∧
    ∀ handle data w bs t, s.call = some (.unregisterTask handle w) → (handle, data) ∈ s.config.handleToTask →
      Exec (ofPartial (ThreadEnvironment.step numThreads)) s bs t → changes (as ++ bs) < 2 ^ 64 → t.call = none →
      ∀ cs u, Exec (ofPartial (ThreadEnvironment.step numThreads)) t cs u →
        ¬ u.Copied data ∧ ∀ th ∈ u.threads, ¬ th.Executes data := by
  have hsound := (sound_init numThreads waitModeEnabled).run hrun (by omega)
  refine ⟨hsound.poolOwned, ?_, ?_⟩
  · rintro rfl
    exact hsound.singleOwned
  · intro handle data w bs t hcall hmem hrest htotal hnone cs u hlater
    have hsum : changes (as ++ bs) = changes as + changes bs := by
      simp [changes]
    have hleaving : t.Leaving (handle, data) :=
      Leaving.run (.inl ⟨w, hcall, hmem⟩) hsound hrest (by omega)
    have habsent : t.Absent data := by
      simpa [Leaving, hnone] using hleaving
    have hgone : u.Absent data :=
      hlater.invariant (P := fun s => s.Absent data) (fun _ _ _ hs h => hs.step h) habsent
    refine ⟨hgone.copied, ?_⟩
    intro th hth hex
    obtain ⟨task, hcurrent, rfl⟩ := Option.map_eq_some_iff.mp hex.2
    exact hgone.copied ⟨th, hth, task, List.mem_of_getElem? hcurrent, rfl⟩

/-- The one task of a pool is being unregistered when its thread has taken a copy. -/
def unregistering : List (Action Nat) :=
  [.registerTask 0, .call, .call, .call, .thread 0 false, .thread 0 false, .unregisterTask 0]

/-- The thread returns after its task. -/
def unregistered : List (Action Nat) :=
  [.call, .thread 0 false, .thread 0 false, .thread 0 false, .thread 0 false, .thread 0 false, .call, .call, .call]

theorem tasks_owned_unregistered : ∃ s t : ThreadEnvironment Nat,
    Exec (ofPartial (ThreadEnvironment.step 1)) (init true) unregistering s ∧
    Exec (ofPartial (ThreadEnvironment.step 1)) s unregistered t ∧ s.PoolOwned 1 ∧ ¬ t.Copied 0 := by
  refine ⟨_, _, exec_of_runPartial rfl, exec_of_runPartial rfl, ?_⟩
  have howned := tasks_owned 1 true
    (exec_of_runPartial (rfl : runPartial (ThreadEnvironment.step 1) (init true) unregistering = some _)) (by decide)
  exact ⟨howned.1 (by decide),
    (howned.2.2 0 0 true unregistered _ rfl (by decide) (exec_of_runPartial rfl) (by decide) rfl [] _ (.nil _)).1⟩

/-! ### A signature that returns -/

/-- Two tasks are registered, and the one thread of the pool has not begun. -/
def late (signature : BitVec 64) (allocated : Nat) : ThreadEnvironment Nat :=
  ⟨⟨[(0, 0), (1, 1)], signature, true, fun _ => false, allocated⟩, [.start (.index 0)], none, false⟩

/-- Register a third task and unregister it. -/
def turn : List (Action Nat) :=
  [.registerTask 2, .call, .call, .call, .unregisterTask 2, .call, .call, .call, .call]

theorem exec_late : Exec (ofPartial (ThreadEnvironment.step 1)) (init true)
    [.registerTask 0, .call, .call, .call, .registerTask 1, .call, .call, .call] (late 2 2) := by
  have hrun : runPartial (ThreadEnvironment.step 1) (init true)
      [.registerTask 0, .call, .call, .call, .registerTask 1, .call, .call, .call] = some _ := rfl
  refine exec_of_runPartial (hrun.trans ?_)
  simp [late, init]

theorem exec_turn (signature : BitVec 64) (allocated : Nat) :
    Exec (ofPartial (ThreadEnvironment.step 1)) (late signature allocated) turn
      (late (signature + 2) (allocated + 1)) := by
  have hrun : runPartial (ThreadEnvironment.step 1) (late signature allocated) turn = some _ := rfl
  refine exec_of_runPartial (hrun.trans ?_)
  simp [late, BitVec.add_assoc]

theorem exec_turns (k allocated : Nat) (signature : BitVec 64) :
    ∃ as, Exec (ofPartial (ThreadEnvironment.step 1)) (late signature allocated) as
      (late (signature + BitVec.ofNat 64 (2 * k)) (allocated + k)) := by
  induction k with
  | zero => exact ⟨[], by simpa using .nil _⟩
  | succ k ih =>
      obtain ⟨as, has⟩ := ih
      refine ⟨as ++ turn, has.append ?_⟩
      have hturn := exec_turn (signature + BitVec.ofNat 64 (2 * k)) (allocated + k)
      rw [BitVec.add_assoc, show (2 : BitVec 64) = BitVec.ofNat 64 2 from rfl, ← BitVec.ofNat_add] at hturn
      exact hturn

/-- After 2^64 changes the thread finds its own signature, and looks for a task that it
does not have. -/
theorem not_tasks_owned : ¬ ∀ (as : List (Action Nat)) (s : ThreadEnvironment Nat),
    Exec (ofPartial (ThreadEnvironment.step 1)) (init true) as s → s.PoolOwned 1 := by
  intro howned
  obtain ⟨as, has⟩ := exec_turns (2 ^ 63 - 1) 2 2
  have hsig : (2 : BitVec 64) + BitVec.ofNat 64 (2 * (2 ^ 63 - 1)) = 0 := by decide
  rw [hsig] at has
  have hcheck : ThreadEnvironment.step 1 (late 0 (2 + (2 ^ 63 - 1))) (.thread 0 false) = some _ := rfl
  have hacquire := (howned _ _ ((exec_late.append has).snoc hcheck)).evaluated _ List.mem_cons_self
  exact hacquire.1 rfl rfl

end ThreadEnvironment

end PothosCore.Framework

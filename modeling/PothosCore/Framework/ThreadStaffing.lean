import Mathlib.Data.List.Pairwise
import Mathlib.Data.List.Perm.Basic
import PothosCore.Framework.ThreadOwnership

/-!
# PothosCore.Framework.ThreadStaffing

Which threads there are at each point of a call, and that none of them evaluates the end
iterator.

A thread returns when it is not wanted: its index is out of range, or its handle is not
registered. A thread that is not wanted exists only between the update of the tasks in
`unregisterTask` and the join, and it is the thread that is joined. All of this needs the
signature to be nonzero once there are threads.
-/

namespace PothosCore.Framework

open PothosCore.Lib

variable {Handle : Type} [LinearOrder Handle]

/-- The threads that do not have to return. -/
def Configuration.Wanted (c : Configuration Handle) : LoopArg Handle → Prop
  | .index i => i < c.handleToTask.length
  | .handle h => h ∈ c.handleToTask.map (·.1)

namespace Thread

/-! ### The iterator of a thread -/

/-- The iterator can be evaluated: a loop of the pool begins again at the end. -/
def Ready (th : Thread Handle) : Prop :=
  match th.arg with
  | .index _ => th.it ≤ th.localTasks.length ∧ th.localTasks ≠ []
  | .handle h => ∃ data, th.current = some (h, data)

/-- The iterator can be evaluated where the loop does that. -/
def Valid (th : Thread Handle) : Prop :=
  match th.pc with
  | .check => th.Ready ∨ th.localSignature = 0
  | .update => True
  | .acquire => th.Ready
  | .returned => True
  | .undefined => False
  | _ => th.Ready ∧ th.current ≠ none

omit [LinearOrder Handle] in
theorem valid_start (arg : LoopArg Handle) : (start arg).Valid := .inr rfl

theorem step_valid {ran : Bool} {th th' : Thread Handle} {c c' : Configuration Handle}
    (h : th.step ran c = some (th', c')) (hsig : c.configurationSignature ≠ 0) (hvalid : th.Valid) :
    th'.Valid := by
  unfold step at h
  split at h
  next i harg =>
    revert h
    fun_cases poolProcessLoop i ran th c <;> intro h <;> cases h
    case case2.refl =>
      rename_i hpc hsame
      simp only [Valid, hpc] at hvalid ⊢
      rcases hvalid with hready | hzero
      · exact hready
      · rw [hzero] at hsame
        exact absurd (not_not.mp hsame) hsig
    case case4.refl =>
      rename_i hpc hlt
      simp only [Valid, Ready, harg, le_refl, true_and]
      intro hnil
      rw [hnil] at hlt
      exact hlt (Nat.zero_le i)
    case case5.refl =>
      rename_i hpc it hnone
      simp only [Valid, Ready, hpc, harg] at hvalid
      have hlen : 0 < th.localTasks.length := List.length_pos_iff.mpr hvalid.2
      have hit : it < th.localTasks.length := by
        simp only [it]
        split <;> omega
      rw [List.getElem?_eq_getElem hit] at hnone
      cases hnone
    case case6.refl =>
      rename_i hpc it handle data hcurrent hbusy
      have hit := (List.getElem?_eq_some_iff.mp hcurrent).1
      simp only [Valid, Ready, hpc, harg] at hvalid ⊢
      exact .inl ⟨hit, hvalid.2⟩
    case case7.refl =>
      rename_i hpc it handle data hcurrent hfree
      have hit := (List.getElem?_eq_some_iff.mp hcurrent).1
      simp only [Valid, Ready, hpc, harg, current] at hvalid ⊢
      exact ⟨⟨hit.le, hvalid.2⟩, by rw [hcurrent]; simp⟩
    case case14.refl =>
      rename_i hpc hnone
      simp only [Valid, hpc] at hvalid
      exact hvalid.2 hnone
    case case15.refl =>
      rename_i hpc handle data hcurrent
      have hit := (List.getElem?_eq_some_iff.mp hcurrent).1
      simp only [Valid, Ready, hpc, harg] at hvalid ⊢
      exact .inl ⟨hit, hvalid.1.2⟩
    all_goals simp_all [Valid, Ready, current]
  next handle harg =>
    revert h
    fun_cases singleProcessLoop handle th c <;> intro h <;> cases h
    case case2.refl =>
      rename_i hpc hsame
      simp only [Valid, hpc] at hvalid ⊢
      rcases hvalid with hready | hzero
      · exact hready
      · rw [hzero] at hsame
        exact absurd (not_not.mp hsame) hsig
    case case4.refl =>
      rename_i hpc it hfound
      have hit : it < c.handleToTask.length := lt_of_le_of_ne List.findIdx_le_length hfound
      have hkey : c.handleToTask[it].1 = handle := by simpa using List.findIdx_getElem (w := hit)
      simp only [Valid, Ready, harg, current]
      exact ⟨c.handleToTask[it].2, by rw [List.getElem?_eq_getElem hit, ← hkey]⟩
    case case7.refl =>
      rename_i hpc
      simp only [Valid, hpc] at hvalid ⊢
      exact .inl hvalid.1
    all_goals simp_all [Valid, Ready, current]

/-- Only a thread that is not wanted returns. -/
theorem step_returned {ran : Bool} {th th' : Thread Handle} {c c' : Configuration Handle}
    (h : th.step ran c = some (th', c')) (hpc : th'.pc = .returned) : ¬ c.Wanted th.arg := by
  unfold step at h
  split at h
  next i harg =>
    revert h
    fun_cases poolProcessLoop i ran th c <;> intro h <;> cases h <;> try cases hpc
    rename_i hlen
    simpa [harg, Configuration.Wanted] using hlen
  next handle harg =>
    revert h
    fun_cases singleProcessLoop handle th c <;> intro h <;> cases h <;> try cases hpc
    rename_i it hnone
    rw [harg]
    intro hmem
    obtain ⟨task, ht, hkey⟩ := List.mem_map.mp hmem
    have hno : ∀ task ∈ c.handleToTask, task.1 ≠ handle := by simpa [it, List.findIdx_eq_length] using hnone
    exact hno task ht hkey

/-- A loop of one handle keeps its task, or takes it from the configuration. -/
theorem step_current {ran : Bool} {th th' : Thread Handle} {c c' : Configuration Handle} {handle : Handle}
    {task : Handle × Nat} (h : th.step ran c = some (th', c')) (harg : th.arg = .handle handle)
    (hcurrent : th'.current = some task) :
    th.current = some task ∨ task.1 = handle ∧ task ∈ c.handleToTask := by
  simp only [step, harg] at h
  revert h
  fun_cases singleProcessLoop handle th c <;> intro h <;> cases h
  case case4.refl =>
    rename_i hpc it hfound
    have hit : it < c.handleToTask.length := lt_of_le_of_ne List.findIdx_le_length hfound
    have hkey : c.handleToTask[it].1 = handle := by simpa using List.findIdx_getElem (w := hit)
    have htask : c.handleToTask[it]? = some task := hcurrent
    rw [List.getElem?_eq_getElem hit] at htask
    cases htask
    exact .inr ⟨hkey, List.getElem_mem hit⟩
  all_goals first | exact .inl hcurrent | simp [current] at hcurrent

end Thread

namespace ThreadEnvironment

/-! ### The threads of a state -/

/-- The handles that have a thread, or count for the pool: the new thread comes after the
task, and the old one goes after it. -/
def staffed (s : ThreadEnvironment Handle) : List Handle :=
  match s.call with
  | some (.startThread handle _) => (s.config.handleToTask.map (·.1)).erase handle
  | some (.stopThread handle _ _) => handle :: s.config.handleToTask.map (·.1)
  | _ => s.config.handleToTask.map (·.1)

/-- The arguments of the threads, in pool mode with their order. -/
def Shape (numThreads : Nat) (s : ThreadEnvironment Handle) : Prop :=
  if numThreads = 0 then (s.threads.map (·.arg)).Perm (s.staffed.map .handle)
  else s.threads.map (·.arg) = (List.range (min numThreads s.staffed.length)).map .index

/-- What a call knows about its handle. -/
def Phase (s : ThreadEnvironment Handle) : Prop :=
  match s.call with
  | some (.registerTask handle _) => ¬ s.Registered handle
  | some (.startThread handle _) => s.Registered handle
  | some (.unregisterTask handle _) => s.Registered handle
  | some (.stopThread handle data _) =>
      ¬ s.Registered handle ∧ data < s.config.allocated ∧ ∀ task ∈ s.config.handleToTask, task.2 ≠ data
  | some (.relinquish data _) => data < s.config.allocated ∧ ∀ task ∈ s.config.handleToTask, task.2 ≠ data
  | _ => True

/-- The thread of this task is being stopped. -/
def Stopping (s : ThreadEnvironment Handle) (task : Handle × Nat) : Prop :=
  ∃ waitModeEnabled, s.call = some (.stopThread task.1 task.2 waitModeEnabled)

/-- The threads are those that the tasks and the call ask for. -/
structure Staffed (numThreads : Nat) (s : ThreadEnvironment Handle) : Prop where
  distinct : s.config.handleToTask.Pairwise fun a b => a.1 ≠ b.1 ∧ a.2 ≠ b.2
  terminated : s.terminated = false
  counted : s.threads ≠ [] ∨ (∃ handle w, s.call = some (.startThread handle w)) →
    s.config.configurationSignature ≠ 0
  phase : s.Phase
  shape : s.Shape numThreads
  valid : ∀ th ∈ s.threads, th.Valid
  returned : ∀ th ∈ s.threads, th.pc = .returned → ¬ s.config.Wanted th.arg
  own : ∀ th ∈ s.threads, ∀ handle task, th.arg = .handle handle → th.current = some task →
    task.1 = handle ∧ (task ∈ s.config.handleToTask ∨ s.Stopping task)

theorem staffed_init (numThreads : Nat) (waitModeEnabled : Bool) :
    Staffed numThreads (init waitModeEnabled : ThreadEnvironment Handle) where
  distinct := List.Pairwise.nil
  terminated := rfl
  counted h := by simp [init] at h
  phase := trivial
  shape := by
    unfold Shape
    split <;> simp [init, staffed]
  valid th h := by cases h
  returned th h := by cases h
  own th h := by cases h

/-- While no thread is to be stopped, all of them are wanted. -/
theorem Shape.wanted {numThreads : Nat} {s : ThreadEnvironment Handle} (h : s.Shape numThreads)
    (hcall : ∀ handle data w, s.call ≠ some (.stopThread handle data w)) {th : Thread Handle}
    (hth : th ∈ s.threads) : s.config.Wanted th.arg := by
  have hsub : s.staffed.Sublist (s.config.handleToTask.map (·.1)) := by
    unfold staffed
    split
    next => exact List.erase_sublist
    next handle data w hstop => exact absurd hstop (hcall handle data w)
    next => exact List.Sublist.refl _
  have hmem : th.arg ∈ s.threads.map (·.arg) := List.mem_map_of_mem hth
  unfold Shape at h
  split at h
  next =>
    obtain ⟨handle, hhandle, harg⟩ := List.mem_map.mp (h.mem_iff.mp hmem)
    rw [← harg]
    exact hsub.subset hhandle
  next =>
    rw [h] at hmem
    obtain ⟨i, hi, harg⟩ := List.mem_map.mp hmem
    rw [← harg]
    have hlen := hsub.length_le
    rw [List.length_map] at hlen
    have hi := List.mem_range.mp hi
    show i < s.config.handleToTask.length
    omega

/-- What the other calls see of the tasks stays. -/
theorem Staffed.thread {numThreads : Nat} {s : ThreadEnvironment Handle} (hs : s.Staffed numThreads) {i : Nat}
    {ran : Bool} {th th' : Thread Handle} {c' : Configuration Handle} (hi : s.threads[i]? = some th)
    (h : th.step ran s.config = some (th', c')) :
    Staffed numThreads { s with threads := s.threads.set i th', config := c' } := by
  have hmem : th ∈ s.threads := List.mem_of_getElem? hi
  have hmoves := Thread.step_moves h
  have hsig : s.config.configurationSignature ≠ 0 := hs.counted (.inl (List.ne_nil_of_mem hmem))
  have hargs : (s.threads.set i th').map (·.arg) = s.threads.map (·.arg) := by
    obtain ⟨hlt, hget⟩ := List.getElem?_eq_some_iff.mp hi
    have hlt' : i < (s.threads.map (·.arg)).length := by simpa using hlt
    have hget' : (s.threads.map (·.arg))[i] = th'.arg := by rw [List.getElem_map, hget, hmoves.arg]
    rw [List.map_set, ← hget', List.set_getElem_self]
  obtain ⟨tasks, signature, waitMode, flag, allocated⟩ := c'
  obtain ⟨-, rfl, rfl, rfl, -⟩ := hmoves
  refine ⟨hs.distinct, hs.terminated, fun _ => hsig, hs.phase, ?_, ?_, ?_, ?_⟩
  · have hshape := hs.shape
    unfold Shape at hshape ⊢
    rw [hargs]
    exact hshape
  · intro a ha
    rcases List.mem_or_eq_of_mem_set ha with ha | rfl
    · exact hs.valid a ha
    · exact Thread.step_valid h hsig (hs.valid th hmem)
  · intro a ha hpc
    rcases List.mem_or_eq_of_mem_set ha with ha | rfl
    · exact hs.returned a ha hpc
    · have hnot := Thread.step_returned h hpc
      rw [(Thread.step_moves h).arg]
      exact hnot
  · intro a ha handle task harg hcurrent
    rcases List.mem_or_eq_of_mem_set ha with ha | rfl
    · exact hs.own a ha handle task harg hcurrent
    · rw [(Thread.step_moves h).arg] at harg
      rcases Thread.step_current h harg hcurrent with hold | hnew
      · exact hs.own th hmem handle task harg hold
      · exact ⟨hnew.1, .inl hnew.2⟩

/-- The next operation of a call that changes neither the tasks nor the threads. -/
theorem Staffed.next {numThreads : Nat} {s : ThreadEnvironment Handle} (hs : s.Staffed numThreads)
    {call : Option (CallPc Handle)} (waitModeEnabled : Bool)
    (hcounted : ∀ handle w, call ≠ some (.startThread handle w))
    (hphase : Phase { s with call := call }) (hshape : Shape numThreads { s with call := call })
    (hown : ∀ th ∈ s.threads, ∀ handle task, th.arg = .handle handle → ¬ s.Stopping task) :
    Staffed numThreads
      { s with config := { s.config with waitModeEnabled := waitModeEnabled }, call := call } where
  distinct := hs.distinct
  terminated := hs.terminated
  counted h := hs.counted <| .inl <| h.resolve_right fun ⟨handle, w, hcall⟩ => hcounted handle w hcall
  phase := hphase
  shape := hshape
  valid := hs.valid
  returned := hs.returned
  own th hth handle task harg hcurrent :=
    have hold := hs.own th hth handle task harg hcurrent
    ⟨hold.1, .inl (hold.2.resolve_right (hown th hth handle task harg))⟩

/-- The shape asks for the tasks up to their order. -/
theorem Shape.of_perm {numThreads : Nat} {s s' : ThreadEnvironment Handle} (h : s.Shape numThreads)
    (hthreads : s'.threads = s.threads) (hstaffed : s'.staffed.Perm s.staffed) : s'.Shape numThreads := by
  unfold Shape at h ⊢
  rw [hthreads]
  split at h
  next hzero =>
    rw [if_pos hzero]
    exact h.trans (hstaffed.map _).symm
  next hzero =>
    rw [if_neg hzero, hstaffed.length_eq]
    exact h

/-! ### Registering a task -/

theorem Staffed.registerTask {numThreads : Nat} {s s' : ThreadEnvironment Handle} {handle : Handle} {w : Bool}
    (hs : s.Staffed numThreads) (hex : s.Exclusive) (hcall : s.call = some (.registerTask handle w))
    (h : callStep numThreads s (.registerTask handle w) = some s')
    (hsig : s'.config.configurationSignature ≠ 0) : s'.Staffed numThreads := by
  cases h
  have hperm := List.perm_orderedInsert (fun a b : Handle × Nat => a.1 ≤ b.1) (handle, s.config.allocated)
    s.config.handleToTask
  have hhandles := hperm.map (·.1)
  have hphase : ¬ s.Registered handle := by
    have hphase := hs.phase
    rw [Phase, hcall] at hphase
    exact hphase
  have hnotstop : ∀ task, ¬ s.Stopping task := by
    rintro task ⟨w', hstop⟩
    rw [hcall] at hstop
    cases hstop
  refine ⟨?_, hs.terminated, fun _ => hsig, ?_, ?_, hs.valid, ?_, ?_⟩
  · refine (hperm.pairwise_iff fun h => ⟨h.1.symm, h.2.symm⟩).mpr (List.pairwise_cons.mpr ⟨?_, hs.distinct⟩)
    intro task ht
    refine ⟨?_, (Nat.ne_of_lt (hex.registered task ht)).symm⟩
    intro hsame
    exact hphase (List.mem_map.mpr ⟨task, ht, hsame.symm⟩)
  · exact hhandles.mem_iff.mpr List.mem_cons_self
  · refine hs.shape.of_perm rfl ?_
    have herase := hhandles.erase handle
    rw [List.map_cons, List.erase_cons_head] at herase
    simpa [staffed, hcall] using herase
  · intro th hth hpc
    refine absurd (hs.shape.wanted ?_ hth) (hs.returned th hth hpc)
    simp [hcall]
  · intro th hth handle' task harg hcurrent
    have hold := hs.own th hth handle' task harg hcurrent
    exact ⟨hold.1, .inl (hperm.mem_iff.mpr (List.mem_cons_of_mem _ (hold.2.resolve_right (hnotstop task))))⟩

theorem Staffed.startThread {numThreads : Nat} {s s' : ThreadEnvironment Handle} {handle : Handle} {w : Bool}
    (hs : s.Staffed numThreads) (hcall : s.call = some (.startThread handle w))
    (h : callStep numThreads s (.startThread handle w) = some s') : s'.Staffed numThreads := by
  have hphase : handle ∈ s.config.handleToTask.map (·.1) := by
    have hphase := hs.phase
    rw [Phase, hcall] at hphase
    exact hphase
  have hnotstop : ∀ task, ¬ s.Stopping task := by
    rintro task ⟨w', hstop⟩
    rw [hcall] at hstop
    cases hstop
  have hsig := hs.counted (.inr ⟨handle, w, hcall⟩)
  have hstaffed : s.staffed = (s.config.handleToTask.map (·.1)).erase handle := by rw [staffed, hcall]
  have hlen : s.staffed.length = s.config.handleToTask.length - 1 := by
    rw [hstaffed, List.length_erase_of_mem hphase, List.length_map]
  have hpos : 0 < s.config.handleToTask.length := by
    rw [← List.length_map (·.1)]
    exact List.length_pos_of_mem hphase
  have hshape := hs.shape
  -- the thread that is started changes the shape and nothing else
  have hstart : ∀ arg, Shape numThreads (⟨s.config, s.threads ++ [.start arg], some (.restore w), s.terminated⟩) →
      Staffed numThreads ⟨s.config, s.threads ++ [.start arg], some (.restore w), s.terminated⟩ := by
    intro arg hnew
    have hmem : ∀ th ∈ s.threads ++ [.start arg], th ∈ s.threads ∨ th = .start arg := by simp
    refine ⟨hs.distinct, hs.terminated, fun _ => hsig, trivial, hnew, ?_, ?_, ?_⟩
    · intro th hth
      rcases hmem th hth with hth | rfl
      · exact hs.valid th hth
      · exact Thread.valid_start arg
    · intro th hth hpc
      rcases hmem th hth with hth | rfl
      · exact hs.returned th hth hpc
      · cases hpc
    · intro th hth handle' task harg hcurrent
      rcases hmem th hth with hth | rfl
      · have hold := hs.own th hth handle' task harg hcurrent
        exact ⟨hold.1, .inl (hold.2.resolve_right (hnotstop task))⟩
      · cases hcurrent
  simp only [callStep] at h
  split at h
  next hzero =>
    cases h
    unfold Shape at hshape
    rw [if_pos hzero, hstaffed] at hshape
    have hno : s.threads.any (·.arg = .handle handle) = false := by
      rw [List.any_eq_false]
      intro th hth harg
      have hmem := hshape.mem_iff.mp (List.mem_map_of_mem hth)
      rw [of_decide_eq_true harg] at hmem
      obtain ⟨other, hother, hsame⟩ := List.mem_map.mp hmem
      cases hsame
      have hnodup : (s.config.handleToTask.map (·.1)).Nodup :=
        List.pairwise_map.mpr (hs.distinct.imp fun h => h.1)
      exact hnodup.not_mem_erase hother
    rw [hno, Bool.or_false]
    refine hstart _ ?_
    unfold Shape
    rw [if_pos hzero]
    show (List.map Thread.arg (s.threads ++ [Thread.start (.handle handle)])).Perm
      (List.map LoopArg.handle (s.config.handleToTask.map (·.1)))
    rw [List.map_append]
    refine (List.perm_append_comm.trans ?_)
    refine .trans (.cons _ hshape) ?_
    exact ((List.perm_cons_erase hphase).map LoopArg.handle).symm
  next hzero =>
    unfold Shape at hshape
    rw [if_neg hzero, hlen] at hshape
    have hcount : s.threads.length = min numThreads (s.config.handleToTask.length - 1) := by
      simpa using congrArg List.length hshape
    split at h
    next hlt =>
      cases h
      refine hstart _ ?_
      unfold Shape
      rw [if_neg hzero]
      show List.map Thread.arg (s.threads ++ [Thread.start (.index s.threads.length)]) =
        (List.range (min numThreads (s.config.handleToTask.map (·.1)).length)).map .index
      have hnext : min numThreads (s.config.handleToTask.map (·.1)).length = s.threads.length + 1 := by
        rw [List.length_map]
        omega
      rw [hnext, List.range_succ, List.map_append, List.map_append, hshape, ← hcount]
      rfl
    next hfull =>
      cases h
      refine hs.next s.config.waitModeEnabled (by simp) trivial ?_ fun th _ _ task _ => hnotstop task
      unfold Shape
      rw [if_neg hzero]
      show s.threads.map (·.arg) = (List.range (min numThreads (s.config.handleToTask.map (·.1)).length)).map .index
      have hsame : min numThreads (s.config.handleToTask.map (·.1)).length =
          min numThreads (s.config.handleToTask.length - 1) := by
        rw [List.length_map]
        omega
      rw [hsame, hshape]

/-! ### Unregistering a task -/

/-- Two tasks with the same handle, or the same data, are one. -/
theorem Staffed.eq_of {numThreads : Nat} {s : ThreadEnvironment Handle} (hs : s.Staffed numThreads)
    {a b : Handle × Nat} (ha : a ∈ s.config.handleToTask) (hb : b ∈ s.config.handleToTask)
    (hsame : a.1 = b.1 ∨ a.2 = b.2) : a = b := by
  by_contra hne
  have : Std.Symm fun a b : Handle × Nat => a.1 ≠ b.1 ∧ a.2 ≠ b.2 := ⟨fun _ _ h => ⟨h.1.symm, h.2.symm⟩⟩
  have hdistinct := hs.distinct.forall ha hb hne
  exact hsame.elim hdistinct.1 hdistinct.2

theorem Staffed.unregisterTask {numThreads : Nat} {s s' : ThreadEnvironment Handle} {handle : Handle} {w : Bool}
    (hs : s.Staffed numThreads) (hex : s.Exclusive) (hcall : s.call = some (.unregisterTask handle w))
    (h : callStep numThreads s (.unregisterTask handle w) = some s')
    (hsig : s'.config.configurationSignature ≠ 0) : s'.Staffed numThreads := by
  have hphase : handle ∈ s.config.handleToTask.map (·.1) := by
    have hphase := hs.phase
    rw [Phase, hcall] at hphase
    exact hphase
  have hnotstop : ∀ task, ¬ s.Stopping task := by
    rintro task ⟨w', hstop⟩
    rw [hcall] at hstop
    cases hstop
  simp only [callStep] at h
  split at h
  next => cases h
  next key data hfind =>
    cases h
    have htask := List.mem_of_find?_eq_some hfind
    obtain rfl : key = handle := by simpa using List.find?_some hfind
    refine ⟨hs.distinct.filter _, hs.terminated, fun _ => hsig, ⟨?_, hex.registered _ htask, ?_⟩, ?_, hs.valid, ?_, ?_⟩
    · intro hmem
      obtain ⟨task, ht, hkey⟩ := List.mem_map.mp hmem
      have hne := (List.mem_filter.mp ht).2
      simp [hkey] at hne
    · intro task ht hsame
      have hne := (List.mem_filter.mp ht).2
      rw [hs.eq_of (List.mem_filter.mp ht).1 htask (.inr hsame)] at hne
      simp at hne
    · refine hs.shape.of_perm rfl ?_
      have hnodup : (s.config.handleToTask.map (·.1)).Nodup :=
        List.pairwise_map.mpr (hs.distinct.imp fun h => h.1)
      have herase : (s.config.handleToTask.filter (·.1 ≠ key)).map (·.1) =
          (s.config.handleToTask.map (·.1)).erase key := by
        rw [hnodup.erase_eq_filter, List.filter_map]
        congr 1
        refine List.filter_congr fun task _ => ?_
        by_cases hkey : task.1 = key <;> simp [hkey]
      rw [show s.staffed = s.config.handleToTask.map (·.1) by rw [staffed, hcall]]
      show (key :: (s.config.handleToTask.filter (·.1 ≠ key)).map (·.1)).Perm _
      rw [herase]
      exact (List.perm_cons_erase hphase).symm
    · intro th hth hpc
      refine absurd (hs.shape.wanted ?_ hth) (hs.returned th hth hpc)
      simp [hcall]
    · intro th hth handle' task harg hcurrent
      have hold := hs.own th hth handle' task harg hcurrent
      have hmem := hold.2.resolve_right (hnotstop task)
      refine ⟨hold.1, ?_⟩
      by_cases hkey : task.1 = key
      · rw [hs.eq_of hmem htask (.inl hkey)]
        exact .inr ⟨w, rfl⟩
      · exact .inl (List.mem_filter.mpr ⟨hmem, by simpa using hkey⟩)

theorem Staffed.stopThread {numThreads : Nat} {s s' : ThreadEnvironment Handle} {handle : Handle} {data : Nat}
    {w : Bool} (hs : s.Staffed numThreads) (hcall : s.call = some (.stopThread handle data w))
    (h : callStep numThreads s (.stopThread handle data w) = some s') : s'.Staffed numThreads := by
  obtain ⟨hgone, hallocated, hdata⟩ : ¬ s.Registered handle ∧ data < s.config.allocated ∧
      ∀ task ∈ s.config.handleToTask, task.2 ≠ data := by
    have hphase := hs.phase
    rw [Phase, hcall] at hphase
    exact hphase
  have hstaffed : s.staffed = handle :: s.config.handleToTask.map (·.1) := by rw [staffed, hcall]
  have hshape := hs.shape
  unfold Shape at hshape
  -- the threads that remain are wanted, so none of them has returned
  have hstop : ∀ threads : List (Thread Handle), threads.Sublist s.threads → ∀ terminated, terminated = false →
      Shape numThreads ⟨s.config, threads, some (.relinquish data w), terminated⟩ →
      (∀ th ∈ threads, th.arg ≠ .handle handle) →
      Staffed numThreads ⟨s.config, threads, some (.relinquish data w), terminated⟩ := by
    intro threads hsub terminated hterminated hnew hother
    refine ⟨hs.distinct, hterminated, ?_, ⟨hallocated, hdata⟩, hnew, ?_, ?_, ?_⟩
    · rintro (hne | ⟨handle', w', hstart⟩)
      · refine hs.counted (.inl fun hnil => hne ?_)
        show threads = []
        rw [hnil] at hsub
        exact List.eq_nil_of_sublist_nil hsub
      · cases hstart
    · exact fun th hth => hs.valid th (hsub.subset hth)
    · exact fun th hth => hs.returned th (hsub.subset hth)
    · intro th hth handle' task harg hcurrent
      obtain ⟨hkey, hmem | ⟨w', hstop⟩⟩ := hs.own th (hsub.subset hth) handle' task harg hcurrent
      · exact ⟨hkey, .inl hmem⟩
      · rw [hcall] at hstop
        cases hstop
        exact absurd (hkey ▸ harg) (hother th hth)
  simp only [callStep] at h
  split at h
  next hzero =>
    rw [if_pos hzero, hstaffed] at hshape
    have hfound : ∃ th ∈ s.threads, th.arg = .handle handle :=
      List.mem_map.mp (hshape.mem_iff.mpr (List.mem_map_of_mem List.mem_cons_self))
    split at h
    next hnone =>
      obtain ⟨th, hth, harg⟩ := hfound
      simpa [harg] using List.find?_eq_none.mp hnone th hth
    next th hfind =>
      split at h
      next hreturned =>
        cases h
        refine hstop _ List.filter_sublist _ hs.terminated ?_ ?_
        · unfold Shape
          rw [if_pos hzero]
          have hrest : ((s.config.handleToTask.map (·.1)).map LoopArg.handle).filter (· ≠ .handle handle) =
              (s.config.handleToTask.map (·.1)).map LoopArg.handle := by
            refine List.filter_eq_self.mpr fun arg harg => ?_
            obtain ⟨other, hother, rfl⟩ := List.mem_map.mp harg
            have hne : other ≠ handle := by
              rintro rfl
              exact hgone hother
            simpa using hne
          have hfilter := hshape.filter (· ≠ LoopArg.handle handle)
          rw [List.filter_map, List.map_cons, List.filter_cons_of_neg (by simp), hrest] at hfilter
          exact hfilter
        · intro th hth
          simpa using (List.mem_filter.mp hth).2
      next => cases h
  next hzero =>
    rw [if_neg hzero, hstaffed, List.length_cons, List.length_map] at hshape
    have hcount : s.threads.length = min numThreads (s.config.handleToTask.length + 1) := by
      simpa using congrArg List.length hshape
    have hindex : ∀ th ∈ s.threads, th.arg ≠ .handle handle := by
      intro th hth harg
      have hmem : th.arg ∈ s.threads.map (·.arg) := List.mem_map_of_mem hth
      rw [hshape, harg] at hmem
      obtain ⟨i, -, hi⟩ := List.mem_map.mp hmem
      cases hi
    split at h
    next hlarge =>
      split at h
      next => cases h
      next th hlast =>
        split at h
        next hreturned =>
          cases h
          refine hstop _ (List.take_sublist _ _) _ ?_ ?_ fun th hth => hindex th (List.mem_of_mem_take hth)
          · rw [hs.terminated]
            simp
            omega
          · unfold Shape
            rw [if_neg hzero]
            show List.map Thread.arg (s.threads.take s.config.handleToTask.length) =
              (List.range (min numThreads (s.config.handleToTask.map (·.1)).length)).map .index
            have hkept : min numThreads (s.config.handleToTask.map (·.1)).length =
                min s.config.handleToTask.length (min numThreads (s.config.handleToTask.length + 1)) := by
              rw [List.length_map]
              omega
            rw [List.map_take, hshape, hkept, ← List.map_take, List.take_range]
        next => cases h
    next hsmall =>
      cases h
      refine hstop _ (List.Sublist.refl _) _ hs.terminated ?_ hindex
      unfold Shape
      rw [if_neg hzero]
      show s.threads.map (·.arg) = (List.range (min numThreads (s.config.handleToTask.map (·.1)).length)).map .index
      have hsame : min numThreads (s.config.handleToTask.map (·.1)).length =
          min numThreads (s.config.handleToTask.length + 1) := by
        rw [List.length_map]
        omega
      rw [hsame, hshape]

/-! ### Any operation -/

theorem Staffed.callStep {numThreads : Nat} {s s' : ThreadEnvironment Handle} {pc : CallPc Handle}
    (hs : s.Staffed numThreads) (hex : s.Exclusive) (hcall : s.call = some pc)
    (h : callStep numThreads s pc = some s')
    (hsig : s'.config.configurationSignature = s.config.configurationSignature ∨
      s'.config.configurationSignature ≠ 0) : s'.Staffed numThreads := by
  have hshape := hs.shape
  have hchange : s'.config.configurationSignature = s.config.configurationSignature + 1 →
      s'.config.configurationSignature ≠ 0 := by
    intro hone
    refine hsig.resolve_left fun hsame => ?_
    rw [hsame] at hone
    exact absurd hone (by simp)
  cases pc with
  | registerTask handle w => exact hs.registerTask hex hcall h (hchange (by cases h; rfl))
  | startThread handle w => exact hs.startThread hcall h
  | unregisterTask handle w =>
      refine hs.unregisterTask hex hcall h (hchange ?_)
      simp only [ThreadEnvironment.callStep] at h
      split at h <;> cases h
      rfl
  | stopThread handle data w => exact hs.stopThread hcall h
  | relinquish data w =>
      simp only [ThreadEnvironment.callStep] at h
      split at h
      next => cases h
      next =>
        cases h
        refine hs.next s.config.waitModeEnabled (by simp) trivial ?_ ?_
        · exact hshape.of_perm rfl (by simp [staffed, hcall])
        · simp [Stopping, hcall]
  | restore w =>
      cases h
      refine hs.next w (by simp) trivial ?_ ?_
      · exact hshape.of_perm rfl (by simp [staffed, hcall])
      · simp [Stopping, hcall]

/-- **The threads, over one operation** that does not bring the signature back to 0. -/
theorem Staffed.step {numThreads : Nat} {s s' : ThreadEnvironment Handle} {a : Action Handle}
    (hs : s.Staffed numThreads) (hex : s.Exclusive) (h : step numThreads s a = some s')
    (hsig : s'.config.configurationSignature = s.config.configurationSignature ∨
      s'.config.configurationSignature ≠ 0) : s'.Staffed numThreads := by
  cases a with
  | registerTask handle =>
      simp only [ThreadEnvironment.step] at h
      split at h
      next hbegin =>
        cases h
        refine hs.next false (by simp) hbegin.2 ?_ ?_
        · exact hs.shape.of_perm rfl (by simp [staffed, hbegin.1])
        · simp [Stopping, hbegin.1]
      next => cases h
  | unregisterTask handle =>
      simp only [ThreadEnvironment.step] at h
      split at h
      next hbegin =>
        cases h
        refine hs.next false (by simp) hbegin.2 ?_ ?_
        · exact hs.shape.of_perm rfl (by simp [staffed, hbegin.1])
        · simp [Stopping, hbegin.1]
      next => cases h
  | call =>
      obtain ⟨pc, hcall, h⟩ := Option.bind_eq_some_iff.mp h
      exact hs.callStep hex hcall h hsig
  | thread i ran =>
      obtain ⟨th, hi, h⟩ := Option.bind_eq_some_iff.mp h
      obtain ⟨⟨th', c'⟩, hstep, rfl⟩ := Option.map_eq_some_iff.mp h
      exact hs.thread hi hstep

end ThreadEnvironment

end PothosCore.Framework

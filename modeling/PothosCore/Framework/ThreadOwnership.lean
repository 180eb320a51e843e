import PothosCore.Framework.ThreadEnvironment

/-!
# PothosCore.Framework.ThreadOwnership

Which threads there are, and who executes which task, over any interleaving of the calls
and the threads.

A thread moves on its own locals, the flags, and what it reads of the configuration.
Exclusion is about the flags alone; that a task is given up is about the copies alone,
for new copies are made of the registered tasks only. How many threads there are follows
the calls: a thread returns only while the call that will join it is waiting for that.

A new thread has the signature 0 and no tasks, so it must find another signature before
it looks at a task. The signature has 64 bits, and this is where it matters.
-/

namespace PothosCore.Framework

open PothosCore.Lib

variable {Handle : Type} [LinearOrder Handle]

namespace Thread

/-! ### One operation of a thread -/

/-- What a thread leaves alone, and where its tasks come from. -/
structure Moves (th th' : Thread Handle) (c c' : Configuration Handle) : Prop where
  arg : th'.arg = th.arg
  handleToTask : c'.handleToTask = c.handleToTask
  configurationSignature : c'.configurationSignature = c.configurationSignature
  allocated : c'.allocated = c.allocated
  localTasks : th'.localTasks = th.localTasks ∨ th'.localTasks = [] ∨ th'.localTasks = c.handleToTask

theorem step_moves {ran : Bool} {th th' : Thread Handle} {c c' : Configuration Handle}
    (h : th.step ran c = some (th', c')) : Moves th th' c c' := by
  unfold step at h
  split at h
  · revert h
    fun_cases poolProcessLoop <;> intro h <;> cases h <;> constructor <;> simp
  · revert h
    fun_cases singleProcessLoop <;> intro h <;> cases h <;> constructor <;> simp

/-- A thread of the pool has the flag of a task: that of its current one from taking it
to its release, and one that it tries to wake. -/
def Holds (th : Thread Handle) (data : Nat) : Prop :=
  (∃ i, th.arg = .index i) ∧
    match th.pc with
    | .task => th.current.map (·.2) = some data
    | .wakeAll _ => th.current.map (·.2) = some data
    | .wakeLocked other _ => th.current.map (·.2) = some data ∨ data = other
    | .release => th.current.map (·.2) = some data
    | _ => False

/-- What a thread does to the flags. -/
inductive FlagMove (th th' : Thread Handle) (c c' : Configuration Handle) : Prop
  | stay (hflag : c'.flag = c.flag) (h : ∀ data, th'.Holds data → th.Holds data)
  | take (data : Nat) (hfree : c.flag data = false) (hflag : c'.flag = Function.update c.flag data true)
      (h : ∀ x, th'.Holds x → th.Holds x ∨ x = data)
  | drop (data : Nat) (hheld : th.Holds data) (hflag : c'.flag = Function.update c.flag data false)
      (h : ∀ x, th'.Holds x → th.Holds x ∧ x ≠ data)

/-- The lock of another task is not that of the current one. -/
def Apart (th : Thread Handle) : Prop :=
  ∀ data rest, th.pc = .wakeLocked data rest → th.current.map (·.2) ≠ some data

theorem step_flag {ran : Bool} {th th' : Thread Handle} {c c' : Configuration Handle}
    (h : th.step ran c = some (th', c')) (hapart : th.Apart) : FlagMove th th' c c' := by
  unfold step at h
  split at h
  next i harg =>
    revert h
    fun_cases poolProcessLoop i ran th c <;> intro h <;> cases h
    case case7.refl =>
      rename_i hpc it handle data hcurrent hfree
      refine .take data (by simpa using hfree) rfl fun x hx => .inr ?_
      simp only [Holds, current, hcurrent] at hx
      simpa [eq_comm] using hx.2
    case case12.refl =>
      rename_i handle data rest hpc hfree
      refine .take data (by simpa using hfree) rfl fun x hx => ?_
      simp only [Holds, current, hpc] at hx ⊢
      exact hx.2.imp_left fun h => ⟨hx.1, h⟩
    case case13.refl =>
      rename_i data rest hpc
      refine .drop data ⟨⟨i, harg⟩, ?_⟩ rfl fun x hx => ?_
      · simp [hpc]
      · simp only [Holds, hpc] at hx ⊢
        refine ⟨⟨hx.1, .inl hx.2⟩, ?_⟩
        rintro rfl
        exact hapart x rest hpc hx.2
    case case15.refl =>
      rename_i hpc handle data hcurrent
      refine .drop data ⟨⟨i, harg⟩, ?_⟩ rfl fun x hx => ?_
      · simp [hpc, hcurrent]
      · simp [Holds] at hx
    -- the other operations do not touch the flags
    all_goals
      refine .stay rfl ?_
      intro data hx
      simp_all [Holds, current]
  next handle harg =>
    have hstep : th.step ran c = some (th', c') := by
      unfold step
      rw [harg]
      exact h
    have hno : ∀ data, ¬ th'.Holds data := by
      rintro data ⟨⟨i, hi⟩, -⟩
      rw [(step_moves hstep).arg, harg] at hi
      cases hi
    refine .stay ?_ fun data hd => absurd hd (hno data)
    revert h
    fun_cases singleProcessLoop <;> intro h <;> cases h <;> rfl

/-- The locks of a thread are kept apart, since it has that of the current task. -/
theorem step_apart {ran : Bool} {th th' : Thread Handle} {c c' : Configuration Handle}
    (h : th.step ran c = some (th', c')) (hlocked : ∀ data, th.Holds data → c.flag data = true) : th'.Apart := by
  unfold step at h
  split at h
  next i harg =>
    revert h
    fun_cases poolProcessLoop i ran th c <;> intro h <;> cases h
    case case12.refl =>
      rename_i handle data rest hpc hfree
      intro data' rest' hpc' hcurrent
      cases hpc'
      refine hfree (hlocked data ⟨⟨i, harg⟩, ?_⟩)
      simp only [hpc]
      exact hcurrent
    all_goals
      intro data' rest' hpc'
      cases hpc'
  next handle harg =>
    revert h
    fun_cases singleProcessLoop handle th c <;> intro h <;> cases h <;> intro data' rest' hpc' <;> cases hpc'

/-- The tasks that a point of `wakeAllBusyTasks` knows. -/
def pcTasks : LoopPc Handle → List Nat
  | .wakeAll rest => rest.map (·.2)
  | .wakeLocked data rest => data :: rest.map (·.2)
  | _ => []

/-- All tasks that a thread knows were allocated. -/
structure Below (n : Nat) (th : Thread Handle) : Prop where
  localTasks : ∀ task ∈ th.localTasks, task.2 < n
  pc : ∀ data ∈ pcTasks th.pc, data < n

omit [LinearOrder Handle] in
theorem Below.mono {m n : Nat} {th : Thread Handle} (h : th.Below m) (hmn : m ≤ n) : th.Below n :=
  ⟨fun task ht => lt_of_lt_of_le (h.localTasks task ht) hmn, fun data hd => lt_of_lt_of_le (h.pc data hd) hmn⟩

omit [LinearOrder Handle] in
theorem below_start (n : Nat) (arg : LoopArg Handle) : (start arg).Below n :=
  ⟨fun task ht => (by cases ht), fun data hd => (by cases hd)⟩

theorem step_below {ran : Bool} {th th' : Thread Handle} {c c' : Configuration Handle} {n : Nat}
    (h : th.step ran c = some (th', c')) (hn : ∀ task ∈ c.handleToTask, task.2 < n) (hth : th.Below n) :
    th'.Below n := by
  constructor
  · intro task ht
    rcases (step_moves h).localTasks with hl | hl | hl
    · exact hth.localTasks task (hl ▸ ht)
    · rw [hl] at ht
      cases ht
    · exact hn task (hl ▸ ht)
  · unfold step at h
    split at h
    next i harg =>
      revert h
      fun_cases poolProcessLoop i ran th c <;> intro h <;> cases h
      case case8.refl =>
        intro data hd
        obtain ⟨task, ht, rfl⟩ := List.mem_map.mp hd
        exact hth.localTasks task (List.mem_filter.mp ht).1
      case case11.refl =>
        rename_i hpc hbusy
        intro data hd
        exact hth.pc data (by rw [hpc]; exact List.mem_cons_of_mem _ hd)
      case case12.refl =>
        rename_i hpc hfree
        intro data hd
        exact hth.pc data (by rw [hpc]; exact hd)
      case case13.refl =>
        rename_i hpc
        intro data hd
        exact hth.pc data (by rw [hpc]; exact List.mem_cons_of_mem _ hd)
      all_goals
        intro data hd
        cases hd
    next handle harg =>
      revert h
      fun_cases singleProcessLoop handle th c <;> intro h <;> cases h <;> intro data hd <;> cases hd

omit [LinearOrder Handle] in
theorem Below.holds {n : Nat} {th : Thread Handle} (h : th.Below n) {data : Nat} (hd : th.Holds data) :
    data < n := by
  have hcurrent : th.current.map (·.2) = some data → data < n := by
    intro hc
    obtain ⟨task, ht, rfl⟩ := Option.map_eq_some_iff.mp hc
    exact h.localTasks task (List.mem_of_getElem? ht)
  obtain ⟨-, hd⟩ := hd
  split at hd
  next => exact hcurrent hd
  next => exact hcurrent hd
  next other rest hpc =>
    rcases hd with hd | rfl
    · exact hcurrent hd
    · exact h.pc data (by rw [hpc]; exact List.mem_cons_self)
  next => exact hcurrent hd
  next => exact hd.elim

omit [LinearOrder Handle] in
theorem not_holds_start {arg : LoopArg Handle} {data : Nat} : ¬ (start arg).Holds data := fun h => h.2

end Thread

/-! ### Who has a flag -/

theorem pairwise_set {α : Type} {R : α → α → Prop} (hsymm : ∀ a b, R a b → R b a) {l : List α} {i : Nat} {x : α}
    (h : l.Pairwise R) (hx : ∀ j (hj : j < l.length), j ≠ i → R x l[j]) : (l.set i x).Pairwise R := by
  rw [List.pairwise_iff_getElem] at h ⊢
  intro j k hj hk hjk
  rw [List.length_set] at hj hk
  rw [List.getElem_set, List.getElem_set]
  by_cases hij : i = j
  · subst hij
    rw [if_pos rfl, if_neg (Nat.ne_of_lt hjk)]
    exact hx k hk (Nat.ne_of_gt hjk)
  · rw [if_neg hij]
    by_cases hik : i = k
    · subst hik
      rw [if_pos rfl]
      exact hsymm _ _ (hx j hj (Nat.ne_of_lt hjk))
    · rw [if_neg hik]
      exact h j k hj hk hjk

namespace ThreadEnvironment

/-- A thread that has a flag has set it, and is the only one. -/
structure Exclusive (s : ThreadEnvironment Handle) : Prop where
  registered : ∀ task ∈ s.config.handleToTask, task.2 < s.config.allocated
  below : ∀ th ∈ s.threads, th.Below s.config.allocated
  apart : ∀ th ∈ s.threads, th.Apart
  locked : ∀ th ∈ s.threads, ∀ data, th.Holds data → s.config.flag data = true
  one : s.threads.Pairwise fun a b => ∀ data, a.Holds data → ¬ b.Holds data

omit [LinearOrder Handle] in
theorem exclusive_init (waitModeEnabled : Bool) : Exclusive (init waitModeEnabled : ThreadEnvironment Handle) where
  registered task h := by cases h
  below th h := by cases h
  apart th h := by cases h
  locked th h := by cases h
  one := List.Pairwise.nil

theorem Exclusive.thread {s : ThreadEnvironment Handle} (hs : s.Exclusive) {i : Nat} {ran : Bool}
    {th th' : Thread Handle} {c' : Configuration Handle} (hi : s.threads[i]? = some th)
    (h : th.step ran s.config = some (th', c')) :
    Exclusive { s with threads := s.threads.set i th', config := c' } := by
  have hmem : th ∈ s.threads := List.mem_of_getElem? hi
  have hmoves := Thread.step_moves h
  obtain ⟨hlt, hget⟩ := List.getElem?_eq_some_iff.mp hi
  have hsymm : ∀ a b : Thread Handle, (∀ data, a.Holds data → ¬ b.Holds data) →
      ∀ data, b.Holds data → ¬ a.Holds data := fun a b h data hb ha => h data ha hb
  have hother : ∀ j (hj : j < s.threads.length), j ≠ i → ∀ data, th.Holds data → ¬ s.threads[j].Holds data := by
    intro j hj hne
    have hone := List.pairwise_iff_getElem.mp hs.one
    rcases Nat.lt_or_gt_of_ne hne with hji | hij
    · exact hsymm _ _ (hget ▸ hone j i hj hlt hji)
    · exact hget ▸ hone i j hlt hj hij
  have hset : ∀ a ∈ s.threads.set i th', a = th' ∨ ∃ j, ∃ hj : j < s.threads.length, j ≠ i ∧ a = s.threads[j] := by
    intro a ha
    obtain ⟨j, hj, rfl⟩ := List.mem_iff_getElem.mp ha
    rw [List.getElem_set]
    rw [List.length_set] at hj
    by_cases hij : i = j
    · exact .inl (if_pos hij)
    · exact .inr ⟨j, hj, fun h => hij h.symm, if_neg hij⟩
  refine ⟨?_, ?_, ?_, ?_, ?_⟩
  · rw [hmoves.handleToTask, hmoves.allocated]
    exact hs.registered
  · intro a ha
    rw [hmoves.allocated]
    rcases hset a ha with rfl | ⟨j, hj, -, rfl⟩
    · exact Thread.step_below h hs.registered (hs.below th hmem)
    · exact hs.below _ (List.getElem_mem hj)
  · intro a ha
    rcases hset a ha with rfl | ⟨j, hj, -, rfl⟩
    · exact Thread.step_apart h (hs.locked th hmem)
    · exact hs.apart _ (List.getElem_mem hj)
  · intro a ha data hd
    cases Thread.step_flag h (hs.apart th hmem) with
    | stay hflag hsub =>
        rw [hflag]
        rcases hset a ha with rfl | ⟨j, hj, -, rfl⟩
        · exact hs.locked th hmem data (hsub data hd)
        · exact hs.locked _ (List.getElem_mem hj) data hd
    | take taken hfree hflag hsub =>
        rw [hflag]
        by_cases hsame : data = taken
        · rw [hsame]
          exact Function.update_self ..
        · rw [Function.update_of_ne hsame]
          rcases hset a ha with rfl | ⟨j, hj, -, rfl⟩
          · exact hs.locked th hmem data ((hsub data hd).resolve_right hsame)
          · exact hs.locked _ (List.getElem_mem hj) data hd
    | drop dropped hheld hflag hsub =>
        rw [hflag]
        rcases hset a ha with rfl | ⟨j, hj, hne, rfl⟩
        · rw [Function.update_of_ne (hsub data hd).2]
          exact hs.locked th hmem data (hsub data hd).1
        · have hsame : data ≠ dropped := by
            rintro rfl
            exact hother j hj hne data hheld hd
          rw [Function.update_of_ne hsame]
          exact hs.locked _ (List.getElem_mem hj) data hd
  · refine pairwise_set hsymm hs.one fun j hj hne data hd => ?_
    cases Thread.step_flag h (hs.apart th hmem) with
    | stay hflag hsub => exact hother j hj hne data (hsub data hd)
    | take taken hfree hflag hsub =>
        rcases hsub data hd with hold | rfl
        · exact hother j hj hne data hold
        · intro hheld
          rw [hs.locked _ (List.getElem_mem hj) data hheld] at hfree
          cases hfree
    | drop dropped hheld hflag hsub => exact hother j hj hne data (hsub data hd).1

omit [LinearOrder Handle] in
/-- Fewer threads, and no more tasks. -/
theorem Exclusive.sublist {s : ThreadEnvironment Handle} (hs : s.Exclusive) {tasks : List (Handle × Nat)}
    {signature : BitVec 64} {waitModeEnabled terminated : Bool} {threads : List (Thread Handle)}
    {call : Option (CallPc Handle)} (htasks : ∀ task ∈ tasks, task ∈ s.config.handleToTask)
    (hthreads : threads.Sublist s.threads) :
    Exclusive ⟨⟨tasks, signature, waitModeEnabled, s.config.flag, s.config.allocated⟩, threads, call, terminated⟩ where
  registered task ht := hs.registered task (htasks task ht)
  below th ht := hs.below th (hthreads.subset ht)
  apart th ht := hs.apart th (hthreads.subset ht)
  locked th ht := hs.locked th (hthreads.subset ht)
  one := hs.one.sublist hthreads

omit [LinearOrder Handle] in
/-- One more thread. -/
theorem Exclusive.start {s : ThreadEnvironment Handle} (hs : s.Exclusive) (arg : LoopArg Handle)
    {terminated : Bool} {call : Option (CallPc Handle)} :
    Exclusive ⟨s.config, s.threads ++ [.start arg], call, terminated⟩ := by
  have hmem : ∀ th ∈ s.threads ++ [.start arg], th ∈ s.threads ∨ th = .start arg := by simp
  refine ⟨hs.registered, ?_, ?_, ?_, ?_⟩
  · intro th ht
    rcases hmem th ht with ht | rfl
    · exact hs.below th ht
    · exact Thread.below_start _ arg
  · intro th ht
    rcases hmem th ht with ht | rfl
    · exact hs.apart th ht
    · intro data rest hpc
      cases hpc
  · intro th ht data hd
    rcases hmem th ht with ht | rfl
    · exact hs.locked th ht data hd
    · exact absurd hd Thread.not_holds_start
  · refine List.pairwise_append.mpr ⟨hs.one, List.pairwise_singleton _ _, ?_⟩
    intro a _ c hc data _ hd
    rw [List.mem_singleton.mp hc] at hd
    exact Thread.not_holds_start hd

theorem Exclusive.callStep {numThreads : Nat} {s s' : ThreadEnvironment Handle} {pc : CallPc Handle}
    (hs : s.Exclusive) (h : callStep numThreads s pc = some s') : s'.Exclusive := by
  revert h
  fun_cases ThreadEnvironment.callStep numThreads s pc <;> intro h <;> cases h
  case case1.refl =>
    -- nobody has the flag of a new task
    refine ⟨?_, ?_, hs.apart, ?_, hs.one⟩
    · intro task ht
      rcases List.mem_orderedInsert _ |>.mp ht with rfl | ht
      · exact Nat.lt_succ_self _
      · exact Nat.lt_succ_of_lt (hs.registered task ht)
    · intro th ht
      exact (hs.below th ht).mono (Nat.le_succ _)
    · intro th ht data hd
      have hne : data ≠ s.config.allocated := Nat.ne_of_lt ((hs.below th ht).holds hd)
      simp only [Function.update_of_ne hne]
      exact hs.locked th ht data hd
  case case2.refl => exact hs.start _
  case case3.refl => exact hs.start _
  case case6.refl => exact hs.sublist (fun task ht => (List.mem_filter.mp ht).1) (List.Sublist.refl _)
  all_goals
    refine hs.sublist (fun _ ht => ht) ?_
    simp [List.filter_sublist, List.take_sublist]

/-- **Exclusion, over one operation.** -/
theorem Exclusive.step {numThreads : Nat} {s s' : ThreadEnvironment Handle} {a : Action Handle}
    (hs : s.Exclusive) (h : step numThreads s a = some s') : s'.Exclusive := by
  cases a with
  | registerTask handle =>
      simp only [ThreadEnvironment.step] at h
      split at h
      · cases h
        exact ⟨hs.registered, hs.below, hs.apart, hs.locked, hs.one⟩
      · cases h
  | unregisterTask handle =>
      simp only [ThreadEnvironment.step] at h
      split at h
      · cases h
        exact ⟨hs.registered, hs.below, hs.apart, hs.locked, hs.one⟩
      · cases h
  | call =>
      obtain ⟨pc, -, h⟩ := Option.bind_eq_some_iff.mp h
      exact hs.callStep h
  | thread i ran =>
      obtain ⟨th, hi, h⟩ := Option.bind_eq_some_iff.mp h
      obtain ⟨⟨th', c'⟩, hstep, rfl⟩ := Option.map_eq_some_iff.mp h
      exact hs.thread hi hstep

/-! ### Giving up a task -/

/-- A task that was allocated is neither registered nor copied. -/
structure Absent (s : ThreadEnvironment Handle) (data : Nat) : Prop where
  allocated : data < s.config.allocated
  registered : ∀ task ∈ s.config.handleToTask, task.2 ≠ data
  copied : ¬ s.Copied data

/-- No thread gets a copy of a task that is not registered. -/
theorem Absent.step {numThreads : Nat} {s s' : ThreadEnvironment Handle} {a : Action Handle} {data : Nat}
    (hs : s.Absent data) (h : step numThreads s a = some s') : s'.Absent data := by
  cases a with
  | registerTask handle =>
      simp only [ThreadEnvironment.step] at h
      split at h
      · cases h
        exact ⟨hs.allocated, hs.registered, hs.copied⟩
      · cases h
  | unregisterTask handle =>
      simp only [ThreadEnvironment.step] at h
      split at h
      · cases h
        exact ⟨hs.allocated, hs.registered, hs.copied⟩
      · cases h
  | call =>
      obtain ⟨pc, -, h⟩ := Option.bind_eq_some_iff.mp h
      have hstart : ∀ arg : LoopArg Handle, ∀ th ∈ s.threads ++ [.start arg], ∀ task ∈ th.localTasks,
          task.2 ≠ data := by
        intro arg th ht task htask hd
        rcases List.mem_append.mp ht with ht | ht
        · exact hs.copied ⟨th, ht, task, htask, hd⟩
        · rw [List.mem_singleton.mp ht] at htask
          cases htask
      revert h
      fun_cases callStep numThreads s pc <;> intro h <;> cases h
      case case1.refl =>
        refine ⟨Nat.lt_succ_of_lt hs.allocated, ?_, hs.copied⟩
        intro task ht
        rcases List.mem_orderedInsert _ |>.mp ht with rfl | ht
        · exact (Nat.ne_of_lt hs.allocated).symm
        · exact hs.registered task ht
      case case2.refl =>
        exact ⟨hs.allocated, hs.registered, fun ⟨th, ht, task, htask, hd⟩ => hstart _ th ht task htask hd⟩
      case case3.refl =>
        exact ⟨hs.allocated, hs.registered, fun ⟨th, ht, task, htask, hd⟩ => hstart _ th ht task htask hd⟩
      case case6.refl =>
        exact ⟨hs.allocated, fun task ht => hs.registered task (List.mem_filter.mp ht).1, hs.copied⟩
      case case8.refl =>
        exact ⟨hs.allocated, hs.registered,
          fun ⟨th, ht, h⟩ => hs.copied ⟨th, (List.mem_filter.mp ht).1, h⟩⟩
      case case11.refl =>
        exact ⟨hs.allocated, hs.registered,
          fun ⟨th, ht, h⟩ => hs.copied ⟨th, List.mem_of_mem_take ht, h⟩⟩
      all_goals exact ⟨hs.allocated, hs.registered, hs.copied⟩
  | thread i ran =>
      obtain ⟨th, hi, h⟩ := Option.bind_eq_some_iff.mp h
      obtain ⟨⟨th', c'⟩, hstep, rfl⟩ := Option.map_eq_some_iff.mp h
      have hmoves := Thread.step_moves hstep
      refine ⟨hmoves.allocated ▸ hs.allocated, hmoves.handleToTask ▸ hs.registered, ?_⟩
      rintro ⟨a, ha, task, htask, hd⟩
      rcases List.mem_or_eq_of_mem_set ha with ha | rfl
      · exact hs.copied ⟨a, ha, task, htask, hd⟩
      · rcases hmoves.localTasks with hl | hl | hl
        · exact hs.copied ⟨th, List.mem_of_getElem? hi, task, hl ▸ htask, hd⟩
        · rw [hl] at htask
          cases htask
        · exact hs.registered task (hl ▸ htask) hd

end ThreadEnvironment

end PothosCore.Framework

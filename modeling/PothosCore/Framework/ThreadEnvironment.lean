import Mathlib.Data.BitVec
import Mathlib.Data.List.Sort
import Mathlib.Logic.Function.Basic
import PothosCore.Lib.Transition

/-!
# PothosCore.Framework.ThreadEnvironment

The threads of a thread pool and the calls that register and unregister tasks.

Each loop and each call is cut into its atomic operations; what is done under
`_handleUpdateMutex` is one of them. A call holds `_registrationMutex` from its beginning
to its end, so there is one at most, and that other callers wait for it changes nothing.
A `TaskData` is known by the number of its allocation, and its references are the places
that it is in: `_handleToTask`, the copies of the threads, and the call that unregisters
it.

With `numThreads = 0` the threads are those of `_handleToThread`, otherwise those of
`_threadPool`, in order.
-/

namespace PothosCore.Framework

open PothosCore.Lib

/-- Where a process loop is: the operation it does next. -/
inductive LoopPc (Handle : Type)
  /-- `_configurationSignature != localSignature`. -/
  | check
  /-- Update the local state, under the mutex. -/
  | update
  /-- Evaluate the iterator, and in pool mode `flag.test_and_set()`. -/
  | acquire
  /-- In `it->second->task(…)`. -/
  | task
  /-- In `wakeAllBusyTasks`, with these tasks left. -/
  | wakeAll (rest : List (Handle × Nat))
  /-- It got the lock of one of them. -/
  | wakeLocked (data : Nat) (rest : List (Handle × Nat))
  /-- `it->second->flag.clear()` and `it++`. -/
  | release
  | returned
  /-- The end iterator was evaluated. -/
  | undefined
  deriving DecidableEq

/-- What a loop was started with. -/
inductive LoopArg (Handle : Type)
  /-- `poolProcessLoop(index)`. -/
  | index (i : Nat)
  /-- `singleProcessLoop(handle)`. -/
  | handle (h : Handle)
  deriving DecidableEq

/-- A thread, with the locals of its loop. The end iterator is past the last task. -/
structure Thread (Handle : Type) where
  arg : LoopArg Handle
  pc : LoopPc Handle
  localSignature : BitVec 64
  localTasks : List (Handle × Nat)
  it : Nat
  deriving DecidableEq

/-- What the threads read: the tasks in the order of their handles, the signature, and
the flags of all `TaskData` that were allocated. -/
structure Configuration (Handle : Type) where
  handleToTask : List (Handle × Nat)
  configurationSignature : BitVec 64
  waitModeEnabled : Bool
  flag : Nat → Bool
  allocated : Nat

/-- Where a call is. It remembers the wait mode that it has disabled. -/
inductive CallPc (Handle : Type)
  /-- Register the new task and bump the signature. -/
  | registerTask (handle : Handle) (waitModeEnabled : Bool)
  | startThread (handle : Handle) (waitModeEnabled : Bool)
  /-- Unregister the task and bump the signature. -/
  | unregisterTask (handle : Handle) (waitModeEnabled : Bool)
  /-- Stop the thread of the handle, or the last one of the pool. -/
  | stopThread (handle : Handle) (data : Nat) (waitModeEnabled : Bool)
  /-- `while (not data.unique())`. -/
  | relinquish (data : Nat) (waitModeEnabled : Bool)
  | restore (waitModeEnabled : Bool)
  deriving DecidableEq

/-- `ThreadEnvironment`. -/
structure ThreadEnvironment (Handle : Type) where
  config : Configuration Handle
  threads : List (Thread Handle)
  /-- The call that holds `_registrationMutex`. -/
  call : Option (CallPc Handle)
  /-- A thread was destroyed that had not been joined, or a thread joined that is none. -/
  terminated : Bool

variable {Handle : Type} [LinearOrder Handle]

/-! ### The threads -/

namespace Thread

/-- A new thread. -/
def start (arg : LoopArg Handle) : Thread Handle := ⟨arg, .check, 0, [], 0⟩

/-- The task at the iterator. -/
def current (th : Thread Handle) : Option (Handle × Nat) := th.localTasks[th.it]?

/-- `poolProcessLoop(index)`: one operation. `ran` is what a task returns. -/
def poolProcessLoop (index : Nat) (ran : Bool) (th : Thread Handle) (config : Configuration Handle) :
    Option (Thread Handle × Configuration Handle) :=
  match th.pc with
  -- check for a configuration change and update the local state
  | .check =>
      if config.configurationSignature ≠ th.localSignature then some ({ th with pc := .update }, config)
      else some ({ th with pc := .acquire }, config)
  | .update =>
      -- pool mode, index out of range
      if config.handleToTask.length ≤ index then some ({ th with pc := .returned, localTasks := [] }, config)
      else
        some ({ th with
          pc := .acquire
          localTasks := config.handleToTask
          it := config.handleToTask.length
          localSignature := config.configurationSignature }, config)
  -- perform a task and increment
  | .acquire =>
      let it := if th.it = th.localTasks.length then 0 else th.it
      match th.localTasks[it]? with
      | none => some ({ th with pc := .undefined }, config)
      | some (_, data) =>
          if config.flag data then some ({ th with pc := .check, it := it + 1 }, config)
          else
            some ({ th with pc := .task, it := it },
              { config with flag := Function.update config.flag data true })
  | .task =>
      -- the task was successfully executed, wake all other potential blockers
      if ran && config.waitModeEnabled then
        some ({ th with
          pc := .wakeAll (th.localTasks.filter fun task => some task.1 ≠ th.current.map (·.1)) }, config)
      else some ({ th with pc := .release }, config)
  | .wakeAll [] => some ({ th with pc := .release }, config)
  | .wakeAll ((_, data) :: rest) =>
      -- if we fail to get the lock, a thread may be waiting
      if config.flag data then some ({ th with pc := .wakeAll rest }, config)
      else
        some ({ th with pc := .wakeLocked data rest },
          { config with flag := Function.update config.flag data true })
  -- got the lock, so there is nothing to wake -> unlock
  | .wakeLocked data rest =>
      some ({ th with pc := .wakeAll rest },
        { config with flag := Function.update config.flag data false })
  | .release =>
      match th.current with
      | none => some ({ th with pc := .undefined }, config)
      | some (_, data) =>
          some ({ th with pc := .check, it := th.it + 1 },
            { config with flag := Function.update config.flag data false })
  | .returned => none
  | .undefined => none

/-- `singleProcessLoop(handle)`: one operation. -/
def singleProcessLoop (handle : Handle) (th : Thread Handle) (config : Configuration Handle) :
    Option (Thread Handle × Configuration Handle) :=
  match th.pc with
  -- check for a configuration change and update the local state
  | .check =>
      if config.configurationSignature ≠ th.localSignature then some ({ th with pc := .update }, config)
      else some ({ th with pc := .acquire }, config)
  | .update =>
      let it := config.handleToTask.findIdx (·.1 = handle)
      -- handle mode, handle not in tasks
      if it = config.handleToTask.length then some ({ th with pc := .returned, localTasks := [] }, config)
      else
        some ({ th with
          pc := .acquire
          localTasks := config.handleToTask
          it := it
          localSignature := config.configurationSignature }, config)
  -- perform the task
  | .acquire =>
      match th.current with
      | none => some ({ th with pc := .undefined }, config)
      | some _ => some ({ th with pc := .task }, config)
  | .task => some ({ th with pc := .check }, config)
  | _ => none

/-- One operation of a thread. -/
def step (ran : Bool) (th : Thread Handle) (config : Configuration Handle) :
    Option (Thread Handle × Configuration Handle) :=
  match th.arg with
  | .index i => th.poolProcessLoop i ran config
  | .handle h => th.singleProcessLoop h config

end Thread

/-! ### The calls -/

namespace ThreadEnvironment

/-- A handle is registered. -/
def Registered (s : ThreadEnvironment Handle) (handle : Handle) : Prop :=
  handle ∈ s.config.handleToTask.map (·.1)

instance (s : ThreadEnvironment Handle) (handle : Handle) : Decidable (s.Registered handle) := by
  unfold Registered; infer_instance

/-- Some thread has a copy of the task. -/
def Copied (s : ThreadEnvironment Handle) (data : Nat) : Prop :=
  ∃ th ∈ s.threads, ∃ task ∈ th.localTasks, task.2 = data

instance (s : ThreadEnvironment Handle) (data : Nat) : Decidable (s.Copied data) := by
  unfold Copied; infer_instance

/-- A new environment. -/
def init (waitModeEnabled : Bool) : ThreadEnvironment Handle :=
  ⟨⟨[], 0, waitModeEnabled, fun _ => false, 0⟩, [], none, false⟩

/-- One operation of a call. -/
def callStep (numThreads : Nat) (s : ThreadEnvironment Handle) :
    CallPc Handle → Option (ThreadEnvironment Handle)
  | .registerTask handle waitModeEnabled =>
      some { s with
        config := { s.config with
          handleToTask := s.config.handleToTask.orderedInsert (fun a b => a.1 ≤ b.1) (handle, s.config.allocated)
          configurationSignature := s.config.configurationSignature + 1
          flag := Function.update s.config.flag s.config.allocated false
          allocated := s.config.allocated + 1 }
        call := some (.startThread handle waitModeEnabled) }
  | .startThread handle waitModeEnabled =>
      -- single task mode: spawn a new thread for this task
      if numThreads = 0 then
        some { s with
          threads := s.threads ++ [.start (.handle handle)]
          terminated := s.terminated || s.threads.any (·.arg = .handle handle)
          call := some (.restore waitModeEnabled) }
      -- pool mode: start a thread if the pool size is too small
      else if s.threads.length < numThreads then
        some { s with
          threads := s.threads ++ [.start (.index s.threads.length)]
          call := some (.restore waitModeEnabled) }
      else some { s with call := some (.restore waitModeEnabled) }
  | .unregisterTask handle waitModeEnabled =>
      match s.config.handleToTask.find? (·.1 = handle) with
      | none => none
      | some (_, data) =>
          some { s with
            config := { s.config with
              handleToTask := s.config.handleToTask.filter (·.1 ≠ handle)
              configurationSignature := s.config.configurationSignature + 1 }
            call := some (.stopThread handle data waitModeEnabled) }
  | .stopThread handle data waitModeEnabled =>
      -- single task mode: stop the explicit task for this handle
      if numThreads = 0 then
        match s.threads.find? (·.arg = .handle handle) with
        | none => some { s with terminated := true }
        | some th =>
            if th.pc = .returned then
              some { s with
                threads := s.threads.filter (·.arg ≠ .handle handle)
                call := some (.relinquish data waitModeEnabled) }
            else none
      -- pool mode: stop a thread if the pool size is too large
      else if s.config.handleToTask.length < s.threads.length then
        match s.threads.getLast? with
        | none => none
        | some th =>
            if th.pc = .returned then
              some { s with
                threads := s.threads.take s.config.handleToTask.length
                terminated := s.terminated || s.threads.length ≠ s.config.handleToTask.length + 1
                call := some (.relinquish data waitModeEnabled) }
            else none
      else some { s with call := some (.relinquish data waitModeEnabled) }
  -- wait for all threads to relinquish the old configuration
  | .relinquish data waitModeEnabled =>
      if s.Copied data then none else some { s with call := some (.restore waitModeEnabled) }
  | .restore waitModeEnabled =>
      some { s with config := { s.config with waitModeEnabled := waitModeEnabled }, call := none }

/-- Who moves: a caller that begins, the call that has begun, or a thread. -/
inductive Action (Handle : Type)
  | registerTask (handle : Handle)
  | unregisterTask (handle : Handle)
  | call
  | thread (i : Nat) (ran : Bool)
  deriving DecidableEq

/-- One operation. A caller begins when no other call is going on, and disables the wait
mode. Only a handle that is not registered is registered, and the other way round. -/
def step (numThreads : Nat) (s : ThreadEnvironment Handle) : Action Handle → Option (ThreadEnvironment Handle)
  | .registerTask handle =>
      if s.call = none ∧ ¬ s.Registered handle then
        some { s with
          config := { s.config with waitModeEnabled := false }
          call := some (.registerTask handle s.config.waitModeEnabled) }
      else none
  | .unregisterTask handle =>
      if s.call = none ∧ s.Registered handle then
        some { s with
          config := { s.config with waitModeEnabled := false }
          call := some (.unregisterTask handle s.config.waitModeEnabled) }
      else none
  | .call => s.call.bind (callStep numThreads s)
  | .thread i ran =>
      (s.threads[i]?).bind fun th => (th.step ran s.config).map fun r =>
        { s with threads := s.threads.set i r.1, config := r.2 }

end ThreadEnvironment

end PothosCore.Framework

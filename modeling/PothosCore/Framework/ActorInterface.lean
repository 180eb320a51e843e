import Mathlib.Data.BitVec
import Mathlib.Logic.Function.Basic
import PothosCore.Lib.Transition

/-!
# PothosCore.Framework.ActorInterface

Exclusive access to an actor: its worker thread, callers from outside, and threads that
flag a change.

Each call is cut into its atomic operations, and a program counter says which one comes
next. The words they share are the change flag, the count of callers, the call lock, the
mutex of the condition variable and the note that the worker waits. A timed wait may
return at any time, notified or not, so a notification changes nothing here.

The change flag is an `atomic_flag` that a change *clears*: it is set while there is
nothing to do, and the worker consumes a change by setting it.
-/

namespace PothosCore.Framework

open PothosCore.Lib

/-- The words of an `ActorInterface` that its threads share. -/
structure ActorInterface where
  changeFlagged : Bool
  externalAcquired : BitVec 32
  extCallLock : Bool
  acquireMutex : Bool
  aquireWaiting : Bool
  deriving DecidableEq

namespace ActorInterface

/-- The constructor sets the flag: no change to begin with. -/
def create : ActorInterface := ⟨true, 0, false, false, false⟩

/-- `_inExternalCall()`. -/
def inExternalCall (s : ActorInterface) : Bool := s.externalAcquired != 0

/-- `flagInternalChange()`: `_changeFlagged.clear()`. -/
def flagInternalChange (s : ActorInterface) : ActorInterface := { s with changeFlagged := false }

/-- A change is flagged that no worker has consumed. -/
def Pending (s : ActorInterface) : Prop := s.changeFlagged = false

/-! ### The worker -/

/-- Where the worker is: the operation it does next. -/
inductive WorkerPc
  /-- Outside of the calls. -/
  | idle
  /-- `isReady`, without the mutex: `_inExternalCall()`. -/
  | isReady (waitEnabled : Bool)
  /-- `isReady`, without the mutex: `_changeFlagged.test_and_set()`. -/
  | testAndSet (waitEnabled : Bool)
  | storeWaiting
  | lockMutex
  /-- `isReady` as the condition of the wait, which may have timed out. -/
  | waitReady (timedOut : Bool)
  | waitTestAndSet (timedOut : Bool)
  /-- In `wait_for`, without the mutex. -/
  | waiting
  | clearWaiting (rdy : Bool)
  | unlockMutex (rdy : Bool)
  /-- `_extCallLock.try_lock()`. -/
  | tryLock
  /-- `flagInternalChange()`, because the call lock is taken. -/
  | reflag
  /-- `workerThreadAcquire` has returned true. -/
  | working
  /-- `workerThreadRelease`: `_inExternalCall()`, to notify the callers or not. -/
  | released
  deriving DecidableEq

/-- What is left open to the worker: the argument of its next acquire, and whether a
wait has timed out. -/
inductive WorkerMove
  | acquire (waitEnabled : Bool)
  | wake (timedOut : Bool)
  | release
  | next
  deriving DecidableEq

/-- The next operation of the worker: `workerThreadAcquire` and `workerThreadRelease`. -/
def workerStep : WorkerPc → WorkerMove → ActorInterface → Option (WorkerPc × ActorInterface)
  | .idle, .acquire waitEnabled, s => some (.isReady waitEnabled, s)
  | .isReady waitEnabled, .next, s =>
      if s.inExternalCall then some (if waitEnabled then .storeWaiting else .idle, s)
      else some (.testAndSet waitEnabled, s)
  | .testAndSet waitEnabled, .next, s =>
      if s.changeFlagged then some (if waitEnabled then .storeWaiting else .idle, s)
      else some (.tryLock, { s with changeFlagged := true })
  | .storeWaiting, .next, s => some (.lockMutex, { s with aquireWaiting := true })
  | .lockMutex, .next, s =>
      if s.acquireMutex then none else some (.waitReady false, { s with acquireMutex := true })
  | .waitReady timedOut, .next, s =>
      if ¬ s.inExternalCall then some (.waitTestAndSet timedOut, s)
      else if timedOut then some (.clearWaiting false, s)
      else some (.waiting, { s with acquireMutex := false })
  | .waitTestAndSet timedOut, .next, s =>
      if ¬ s.changeFlagged then some (.clearWaiting true, { s with changeFlagged := true })
      else if timedOut then some (.clearWaiting false, s)
      else some (.waiting, { s with acquireMutex := false })
  | .waiting, .wake timedOut, s =>
      if s.acquireMutex then none else some (.waitReady timedOut, { s with acquireMutex := true })
  | .clearWaiting rdy, .next, s => some (.unlockMutex rdy, { s with aquireWaiting := false })
  | .unlockMutex rdy, .next, s =>
      some (if rdy then .tryLock else .idle, { s with acquireMutex := false })
  | .tryLock, .next, s =>
      if s.extCallLock then some (.reflag, s) else some (.working, { s with extCallLock := true })
  | .reflag, .next, s => some (.idle, s.flagInternalChange)
  | .working, .release, s => some (.released, { s with extCallLock := false })
  | .released, .next, s => some (.idle, s)
  | _, _, _ => none

/-- The worker has the call lock. -/
def WorkerPc.Holds (pc : WorkerPc) : Prop := pc = .working

/-- The worker has consumed a change, and has neither the call lock nor flagged the
change again. -/
def WorkerPc.Consumed (pc : WorkerPc) : Prop :=
  pc = .clearWaiting true ∨ pc = .unlockMutex true ∨ pc = .tryLock ∨ pc = .reflag

/-! ### Callers from outside -/

/-- Where an external caller is. -/
inductive CallerPc
  | idle
  /-- `externalCallAcquire`: to lock the mutex. -/
  | lockMutex
  | increment
  | tryLock
  /-- In `wait_for`, without the mutex. -/
  | waiting
  | unlockMutex
  /-- `externalCallAcquire` has returned. -/
  | calling
  /-- `externalCallRelease`, past `_externalAcquired--`. -/
  | unlock
  | flag
  | notify
  deriving DecidableEq

/-- A caller begins a call, ends one, or goes on in `externalCallAcquire` or
`externalCallRelease`. -/
inductive CallerMove
  | acquire
  | release
  | next
  deriving DecidableEq

/-- The next operation of an external caller. -/
def callerStep : CallerPc → CallerMove → ActorInterface → Option (CallerPc × ActorInterface)
  | .idle, .acquire, s => some (.lockMutex, s)
  | .lockMutex, .next, s =>
      if s.acquireMutex then none else some (.increment, { s with acquireMutex := true })
  | .increment, .next, s => some (.tryLock, { s with externalAcquired := s.externalAcquired + 1 })
  | .tryLock, .next, s =>
      if s.extCallLock then some (.waiting, { s with acquireMutex := false })
      else some (.unlockMutex, { s with extCallLock := true })
  | .waiting, .next, s =>
      if s.acquireMutex then none else some (.tryLock, { s with acquireMutex := true })
  | .unlockMutex, .next, s => some (.calling, { s with acquireMutex := false })
  | .calling, .release, s => some (.unlock, { s with externalAcquired := s.externalAcquired - 1 })
  | .unlock, .next, s => some (.flag, { s with extCallLock := false })
  | .flag, .next, s => some (.notify, s.flagInternalChange)
  | .notify, .next, s => some (.idle, s)
  | _, _, _ => none

/-- The caller has the call lock. -/
def CallerPc.Holds (pc : CallerPc) : Prop := pc = .unlockMutex ∨ pc = .calling ∨ pc = .unlock

/-! ### Threads that flag -/

/-- Where a thread is that calls `flagExternalChange`. -/
inductive FlaggerPc
  | idle
  | loadWaiting
  | notify
  deriving DecidableEq

/-- The next operation of `flagExternalChange`. -/
def flaggerStep : FlaggerPc → ActorInterface → FlaggerPc × ActorInterface
  | .idle, s => (.loadWaiting, { s with changeFlagged := false })
  | .loadWaiting, s => (if s.aquireWaiting then .notify else .idle, s)
  | .notify, s => (.idle, s)

/-! ### All together -/

/-- An actor with its worker, its callers and the threads that flag changes. -/
structure Config (Caller Flagger : Type) where
  shared : ActorInterface
  worker : WorkerPc
  caller : Caller → CallerPc
  flagger : Flagger → FlaggerPc

/-- Who does an operation. `flagInternalChange` is one operation, which the worker and
the callers make in the middle of what they do. -/
inductive Action (Caller Flagger : Type)
  | worker (move : WorkerMove)
  | caller (c : Caller) (move : CallerMove)
  | flagger (f : Flagger)
  | flagInternalChange

section
variable {Caller Flagger : Type}

/-- Nobody has called yet. -/
def Config.init : Config Caller Flagger := ⟨create, .idle, fun _ => .idle, fun _ => .idle⟩

variable [DecidableEq Caller] [DecidableEq Flagger]

/-- One operation of one thread. -/
def step (s : Config Caller Flagger) : Action Caller Flagger → Option (Config Caller Flagger)
  | .worker move =>
      (workerStep s.worker move s.shared).map fun p => { s with worker := p.1, shared := p.2 }
  | .caller c move =>
      (callerStep (s.caller c) move s.shared).map fun p =>
        { s with caller := Function.update s.caller c p.1, shared := p.2 }
  | .flagger f =>
      let p := flaggerStep (s.flagger f) s.shared
      some { s with flagger := Function.update s.flagger f p.1, shared := p.2 }
  | .flagInternalChange => some { s with shared := s.shared.flagInternalChange }

/-- The operation clears the change flag. -/
def Flags (s : Config Caller Flagger) : Action Caller Flagger → Prop
  | .worker _ => s.worker = .reflag
  | .caller c _ => s.caller c = .flag
  | .flagger f => s.flagger f = .idle
  | .flagInternalChange => True

end

end ActorInterface

end PothosCore.Framework

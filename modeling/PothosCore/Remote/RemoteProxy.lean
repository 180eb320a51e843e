import Mathlib.Data.Fintype.Basic
import Mathlib.Logic.Function.Basic
import PothosCore.Lib.Transition

/-!
# PothosCore.Remote.RemoteProxy

`RemoteProxyEnvironment::transact`, called by any number of threads over one connection
that is served by `RemoteHandler::runHandlerOnce` in a loop. One thread at a time reads
from the input stream, without the mutex; a reply to another thread goes to a cache, and
the threads that do not read wait on a condition variable.

A thread is at one of the places of the code between two steps (`Place`); what it does
next is a function of its place and of what the threads share (`Place.run`). A step
changes the place of its own thread alone, but for a notification, which wakes all that
wait.
-/

namespace PothosCore.Remote

open PothosCore.Lib

variable {ι : Type}

/-- A request: the thread that makes it, which calls `transact` for the `number`-th time. -/
structure Request (ι : Type) where
  thread : ι
  number : Nat
  deriving DecidableEq, Repr

/-- The reply to a request; it has the thread id of the request. -/
structure Reply (ι : Type) where
  answers : Request ι
  deriving DecidableEq, Repr

/-- The places in `transact`, for a call with a number. -/
inductive Place (ι : Type)
  /-- Not in the function. -/
  | outside
  /-- The connection is active. -/
  | send (number : Nat)
  /-- `sendDatagram` has thrown. -/
  | sendFailed (number : Nat)
  /-- The start of the loop. -/
  | lock (number : Nat)
  | lookup (number : Nat)
  | test (number : Nat)
  /-- A thread is blocking on the input stream. -/
  | wait (number : Nat)
  /-- In `isCond.wait(lock)`. -/
  | waiting (number : Nat)
  | woken (number : Nat)
  /-- At `continue`, the mutex is taken again. -/
  | again (number : Nat)
  | markBlocking (number : Nat)
  | unlock (number : Nat)
  | recv (number : Nat)
  /-- `recvDatagram` has thrown: three statements without the mutex. -/
  | recvFailed (number : Nat)
  | failNotify (number : Nat)
  | failClose (number : Nat)
  | relock (number : Nat) (reply : Reply ι)
  | clearBlocking (number : Nat) (reply : Reply ι)
  | deliver (number : Nat) (reply : Reply ι)
  | unlockStored (number : Nat)
  | notifyStored (number : Nat)
  | unlockReturn (number : Nat) (reply : Reply ι)
  | notifyReturn (number : Nat) (reply : Reply ι)
  deriving DecidableEq, Repr

/-- A call that returned. -/
structure Returned (ι : Type) where
  request : Request ι
  reply : Reply ι
  deriving DecidableEq, Repr

/-- What the threads share, the two streams with the server between them, and the replies
that were received and returned so far. -/
structure Connection (ι : Type) where
  connectionActive : Bool
  isMutex : Option ι
  isBlocking : Bool
  tidToReply : UInt32 → Option (Reply ι)
  /-- Requests on their way to the server. -/
  os : List (Request ι)
  /-- The request that the server is processing. -/
  serving : Option (Request ι)
  /-- Replies on their way back. -/
  is : List (Reply ι)
  received : List (Reply ι)
  returned : List (Returned ι)

namespace Connection

/-- A new connection. -/
def start : Connection ι := ⟨true, none, false, fun _ => none, [], none, [], [], []⟩

/-- The requests on their way, as such, at the server, or as their replies. -/
def inFlight (g : Connection ι) : List (Request ι) := g.is.map (·.answers) ++ (g.serving.toList ++ g.os)

end Connection

namespace Place

/-- The next step of a thread, if it is not blocked: the new place, what is shared, and
whether the threads that wait are notified. -/
def run [DecidableEq ι] (tid : ι → UInt32) (t : ι) (g : Connection ι) :
    Place ι → Option (Place ι × Connection ι × Bool)
  | outside => none
  | send n => some (lock n, { g with os := g.os ++ [⟨t, n⟩] }, false)
  | sendFailed _ => some (outside, { g with connectionActive := false }, false)
  | lock n => if g.isMutex = none then some (lookup n, { g with isMutex := some t }, false) else none
  | lookup n =>
      -- is there a reply in the cache?
      match g.tidToReply (tid t) with
      | some reply =>
          some (unlockReturn n reply, { g with tidToReply := Function.update g.tidToReply (tid t) none }, false)
      | none => some (test n, g, false)
  | test n => some (if g.isBlocking then wait n else markBlocking n, g, false)
  | wait n => some (waiting n, { g with isMutex := none }, false)
  | waiting _ => none
  | woken n => if g.isMutex = none then some (again n, { g with isMutex := some t }, false) else none
  | again n => some (lock n, { g with isMutex := none }, false)
  | markBlocking n => some (unlock n, { g with isBlocking := true }, false)
  | unlock n => some (recv n, { g with isMutex := none }, false)
  | recv n =>
      match g.is with
      | [] => none
      | reply :: is => some (relock n reply, { g with is := is, received := g.received ++ [reply] }, false)
  | recvFailed n => some (failNotify n, { g with isBlocking := false }, false)
  | failNotify n => some (failClose n, g, true)
  | failClose _ => some (outside, { g with connectionActive := false }, false)
  | relock n reply =>
      if g.isMutex = none then some (clearBlocking n reply, { g with isMutex := some t }, false) else none
  | clearBlocking n reply => some (deliver n reply, { g with isBlocking := false }, false)
  | deliver n reply =>
      let replyTid := tid reply.answers.thread
      if replyTid = tid t then some (unlockReturn n reply, g, false)
      else
        -- otherwise store to the reply cache
        some (unlockStored n, { g with tidToReply := Function.update g.tidToReply replyTid (some reply) }, false)
  | unlockStored n => some (notifyStored n, { g with isMutex := none }, false)
  | notifyStored n => some (lock n, g, true)
  | unlockReturn n reply => some (notifyReturn n reply, { g with isMutex := none }, false)
  | notifyReturn n reply =>
      some (outside, { g with returned := g.returned ++ [⟨⟨t, n⟩, reply⟩] }, true)

/-- A notification. -/
def wake : Place ι → Place ι
  | waiting n => woken n
  | p => p

/-! ### What a place says -/

/-- The thread has the mutex. -/
def Locks : Place ι → Prop
  | lookup _ | test _ | wait _ | again _ | markBlocking _ | unlock _ | clearBlocking _ _ | deliver _ _
  | unlockStored _ | unlockReturn _ _ => True
  | _ => False

/-- The thread is in the receive section: it has set `isBlocking` and not cleared it yet. -/
def Receives : Place ι → Prop
  | unlock _ | recv _ | recvFailed _ | relock _ _ | clearBlocking _ _ => True
  | _ => False

/-- The thread is on its way to a notification. -/
def Notifies : Place ι → Prop
  | failNotify _ | deliver _ _ | unlockStored _ | notifyStored _ | unlockReturn _ _ | notifyReturn _ _ => True
  | _ => False

/-- The next step is the notification. -/
def AtNotify : Place ι → Prop
  | failNotify _ | notifyStored _ | notifyReturn _ _ => True
  | _ => False

/-- The thread is between its test of `isBlocking` and the wait. -/
def AtWait : Place ι → Prop
  | wait _ => True
  | _ => False

/-- The thread waits on the condition variable. -/
def Waits : Place ι → Prop
  | waiting _ => True
  | _ => False

/-- The number of the call. -/
def number : Place ι → Option Nat
  | outside => none
  | send n | sendFailed n | lock n | lookup n | test n | wait n | waiting n | woken n | again n
  | markBlocking n | unlock n | recv n | recvFailed n | failNotify n | failClose n | relock n _
  | clearBlocking n _ | deliver n _ | unlockStored n | notifyStored n | unlockReturn n _ | notifyReturn n _ => some n

/-- The request has not been sent. -/
def Unsent : Place ι → Prop
  | send _ | sendFailed _ => True
  | _ => False

/-- The reply that the thread has in its hands. -/
def hand : Place ι → Option (Reply ι)
  | relock _ r | clearBlocking _ r | deliver _ r | unlockReturn _ r | notifyReturn _ r => some r
  | _ => none

/-- The reply that the call is going to return. -/
def result : Place ι → Option (Reply ι)
  | unlockReturn _ r | notifyReturn _ r => some r
  | _ => none

instance (p : Place ι) : Decidable p.Locks := by cases p <;> unfold Locks <;> infer_instance
instance (p : Place ι) : Decidable p.Receives := by cases p <;> unfold Receives <;> infer_instance
instance (p : Place ι) : Decidable p.Notifies := by cases p <;> unfold Notifies <;> infer_instance
instance (p : Place ι) : Decidable p.AtNotify := by cases p <;> unfold AtNotify <;> infer_instance
instance (p : Place ι) : Decidable p.AtWait := by cases p <;> unfold AtWait <;> infer_instance
instance (p : Place ι) : Decidable p.Waits := by cases p <;> unfold Waits <;> infer_instance

end Place

/-- The threads, how often each has called `transact`, and the connection. -/
structure System (ι : Type) where
  place : ι → Place ι
  calls : ι → Nat
  shared : Connection ι

/-- What can happen. -/
inductive Action (ι : Type)
  /-- A thread calls `transact`. -/
  | call (t : ι)
  /-- A thread takes its next step. -/
  | run (t : ι)
  /-- `sendDatagram` throws; it serializes before it writes. -/
  | sendFails (t : ι)
  /-- `recvDatagram` throws, after it has consumed some of the replies. -/
  | recvFails (t : ι) (consumed : Nat)
  /-- A wait on the condition variable ends by itself. -/
  | wakes (t : ι)
  /-- The server takes a request from its stream. -/
  | serve
  /-- The server writes the reply. -/
  | reply
  deriving DecidableEq, Repr

namespace System

variable [DecidableEq ι]

/-- Nobody is in a call. -/
def start : System ι := ⟨fun _ => .outside, fun _ => 0, .start⟩

/-- A thread goes to a place, and threads that wait are woken, if they are notified. -/
def goto (s : System ι) (t : ι) (p : Place ι) (g : Connection ι) (notified : Bool) : System ι :=
  { s with
    place := Function.update (if notified then fun u => (s.place u).wake else s.place) t p
    shared := g }

/-- One step. -/
def step (tid : ι → UInt32) (s : System ι) : Action ι → Option (System ι)
  | .call t =>
      match s.place t with
      | .outside =>
          if s.shared.connectionActive then
            some { s.goto t (.send (s.calls t)) s.shared false with
              calls := Function.update s.calls t (s.calls t + 1) }
          -- throws: connection inactive
          else none
      | _ => none
  | .run t => ((s.place t).run tid t s.shared).map fun (p, g, notified) => s.goto t p g notified
  | .sendFails t =>
      match s.place t with
      | .send n => some (s.goto t (.sendFailed n) s.shared false)
      | _ => none
  | .recvFails t consumed =>
      match s.place t with
      | .recv n => some (s.goto t (.recvFailed n) { s.shared with is := s.shared.is.drop consumed } false)
      | _ => none
  | .wakes t =>
      match s.place t with
      | .waiting n => some (s.goto t (.woken n) s.shared false)
      | _ => none
  | .serve =>
      match s.shared.serving, s.shared.os with
      | none, request :: os => some { s with shared := { s.shared with serving := some request, os := os } }
      | _, _ => none
  | .reply =>
      match s.shared.serving with
      | some request => some { s with shared := { s.shared with serving := none, is := s.shared.is ++ [⟨request⟩] } }
      | none => none

/-! ### What is to hold -/

/-- Every call that returned has the reply to its own request, no reply is returned twice,
none that was received is lost, and a reply that is stored overwrites none. -/
structure Matched (tid : ι → UInt32) (s : System ι) : Prop where
  own : ∀ r ∈ s.shared.returned, r.reply.answers = r.request
  once : (s.shared.returned.map (·.reply)).Nodup
  kept : ∀ r ∈ s.shared.received, r ∈ s.shared.returned.map (·.reply) ∨
    s.shared.tidToReply (tid r.answers.thread) = some r ∨ ∃ t, (s.place t).hand = some r
  stores : ∀ t n r, s.place t = .deliver n r → tid r.answers.thread ≠ tid t →
    s.shared.tidToReply (tid r.answers.thread) = none

/-- A thread that waits is attended to: another is in the receive section, or on its way
to a notification. -/
def Attended (s : System ι) : Prop :=
  ∀ t, (s.place t).Waits →
    (s.shared.isBlocking = true ∧ ∃ u, (s.place u).Receives) ∨ ∃ u, (s.place u).Notifies

/-- A notification is heard, or there will be another: it is not made while `isBlocking` is
false, a thread is between its test of `isBlocking` and the wait, and no other thread is on
its way to a notification. -/
def Heard (s : System ι) : Action ι → Prop
  | .run t => (s.place t).AtNotify → s.shared.isBlocking = true ∨ (∀ u, ¬ (s.place u).AtWait) ∨
      ∃ u, u ≠ t ∧ (s.place u).Notifies
  | _ => True

instance [Fintype ι] (s : System ι) (a : Action ι) : Decidable (s.Heard a) := by
  cases a <;> unfold Heard <;> infer_instance

end System

end PothosCore.Remote

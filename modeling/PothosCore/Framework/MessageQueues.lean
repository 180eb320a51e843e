import PothosCore.Util.OrderedQueue
import PothosCore.Util.RingDeque

/-!
# PothosCore.Framework.MessageQueues

Messages and slot calls between ports, with the tokens that hold back a port that posts
faster than its subscribers take.

`_postMessage` takes a token from the port's token manager and pushes the message, with a
reference to the token, onto a queue of every subscriber. The reference goes with the
message when the subscriber takes it; the last one gives the token back. A block does not
work while the token manager of an output port is empty. When there is no token,
`_postMessage` pushes the message without one.

The steps are those between two locks: a push onto one queue, a pop from one, the return of
one token to its manager.
-/

namespace PothosCore.Framework

open PothosCore.Util

variable {O I A : Type}

/-- `MaxQueueCapacity` -/
def maxQueueCapacity : Nat := 1024

/-- The `numBuffers` of a token manager. -/
def numTokens : Nat := 16

/-- A managed buffer of a port's token manager: the port and the slab index. -/
abbrev Token (O : Type) := O × Nat

/-- What a queue holds: the message, and the chunk of the token, which may be null. Who
posted it, and whether it was the first post of a call of `work`, is not in the queue; it
is here to tell the entries apart. -/
structure Entry (O A : Type) where
  message : A
  token : Option (Token O)
  source : Option (O × Bool)
  deriving DecidableEq

/-- The entry comes from this port. -/
def Entry.From [DecidableEq O] (o : O) (e : Entry O A) : Bool := e.source.map Prod.fst = some o

/-- The body of `asyncMessagesPush` and `slotCallsPush`: a full queue is doubled, and one
that is full at the bound is cleared. Returns what was cleared. -/
def queuePush {α : Type} (queue : RingDeque α) (elem : α) : Except Fault (RingDeque α × List α) := do
  if queue.full then
    if maxQueueCapacity ≤ queue.size then
      let q ← RingDeque.pushBack { queue with elems := [] } elem
      return (q, queue.elems)
    else
      let q ← queue.setCapacity (queue.capacity * 2)
      let q ← q.pushBack elem
      return (q, [])
  else
    let q ← queue.pushBack elem
    return (q, [])

/-- A message on its way: its entry, and the subscribers that have not got it yet. -/
structure Posting (O I A : Type) where
  entry : Entry O A
  rest : List I

/-- An output port, as far as messages go. -/
structure MessagePort (O I A : Type) where
  /-- The buffers of `_tokenManager`, by their slab index. -/
  tokenManager : OrderedQueue Nat
  /-- The posts of the call of `work` so far, if there is one. -/
  work : Option Nat
  posting : Option (Posting O I A)

/-- What does not change: the subscribers, the slots, and which messages are an
`ObjectVector`. -/
structure MessageFabric (O I A : Type) where
  subscribers : O → List I
  isSlot : I → Bool
  isVector : A → Bool

/-- An input port and one of its queues: `_slotCalls` or `_asyncMessages`. -/
abbrev Inbox (I : Type) := I × Bool

/-- All ports. -/
structure Messages (O I A : Type) where
  ports : O → MessagePort O I A
  queue : Inbox I → RingDeque (Entry O A)
  /-- The reference counter of a token. -/
  counter : Token O → Nat
  /-- The tokens whose last reference is gone, and that are not back yet. -/
  returning : List (Token O)
  /-- What was taken out of a queue, and what was cleared. -/
  gone : Inbox I → List (Entry O A × Bool)
  /-- What was posted. -/
  posted : O → List A

/-- The operations between the locks. -/
inductive MessageEvent (O I A : Type)
  /-- `preWorkTasks` lets the block work. -/
  | preWork (o : O)
  /-- `_postMessage` takes a token. -/
  | postMessage (o : O) (message : A)
  /-- It pushes onto the next subscriber's queue. -/
  | push (o : O)
  /-- It returns. -/
  | posted (o : O)
  | postWork (o : O)
  /-- `asyncMessagesPop` or `slotCallsPop` -/
  | pop (b : Inbox I)
  /-- `pushMessage` -/
  | pushMessage (i : I) (message : A)
  /-- `asyncMessagesClear` or `slotCallsClear` -/
  | clear (b : Inbox I)
  /-- `bufferManagerPush` on a token. -/
  | bufferManagerPush (t : Token O)

/-- The queue of a subscriber that a message goes to. -/
def MessageFabric.inbox (F : MessageFabric O I A) (i : I) (message : A) : Inbox I :=
  (i, F.isSlot i && F.isVector message)

namespace Messages

/-- The ready queue that `tokenManagerInit` makes. -/
def tokenManagerInit : Except Fault (OrderedQueue Nat) := do
  let readyBuffs ← OrderedQueue.make numTokens
  (List.range numTokens).foldlM (fun q slot => q.push slot slot) readyBuffs

/-- All tokens, in order. -/
def allTokens : OrderedQueue Nat := ⟨0, List.replicate numTokens none, List.range numTokens, numTokens⟩

theorem tokenManagerInit_eq : tokenManagerInit = .ok allTokens := rfl

/-- Ports that have posted nothing, with all of their tokens. -/
def start : Messages O I A where
  ports _ := ⟨allTokens, none, none⟩
  queue _ := ⟨[], 1⟩
  counter _ := 0
  returning := []
  gone _ := []
  posted _ := []

variable [DecidableEq O] [DecidableEq I]

/-- Drop a reference; the last one is on its way to the manager. -/
def release (s : Messages O I A) : Option (Token O) → Messages O I A
  | none => s
  | some t =>
      { s with
        counter := Function.update s.counter t (s.counter t - 1)
        returning := if s.counter t = 1 then s.returning ++ [t] else s.returning }

/-- Destroy entries. -/
def drop (s : Messages O I A) (entries : List (Entry O A)) : Messages O I A :=
  entries.foldl (fun s e => s.release e.token) s

/-- Take a reference. -/
def acquire (s : Messages O I A) : Option (Token O) → Messages O I A
  | none => s
  | some t => { s with counter := Function.update s.counter t (s.counter t + 1) }

def setPort (s : Messages O I A) (o : O) (port : MessagePort O I A) : Messages O I A :=
  { s with ports := Function.update s.ports o port }

/-- Another content of a queue, after entries have gone. -/
def setQueue (s : Messages O I A) (b : Inbox I) (queue : RingDeque (Entry O A)) (left : List (Entry O A × Bool)) :
    Messages O I A :=
  { s with queue := Function.update s.queue b queue, gone := Function.update s.gone b (s.gone b ++ left) }

/-- Push an entry onto a queue. -/
def pushEntry (s : Messages O I A) (b : Inbox I) (e : Entry O A) : Except Fault (Messages O I A) := do
  let (queue, lost) ← queuePush (s.queue b) e
  return ((s.setQueue b queue (lost.map (·, false))).drop lost).acquire e.token

/-- `tokenManagerPop()`, with the manager's reference handed on. -/
def tokenManagerPop (tokenManager : OrderedQueue Nat) : Except Fault (Option Nat × OrderedQueue Nat) :=
  match tokenManager.front with
  | none => .ok (none, tokenManager)
  | some slot => do
      let tokenManager ← tokenManager.pop
      return (some slot, tokenManager)

/-- When an operation is in order: a port does one thing at a time, and works only if there
is a token. -/
def Admits (s : Messages O I A) : MessageEvent O I A → Prop
  | .preWork o =>
      (s.ports o).work = none ∧ (s.ports o).posting = none ∧ (s.ports o).tokenManager.empty = false
  | .postMessage o _ => (s.ports o).posting = none
  | .push o => ∃ p, (s.ports o).posting = some p ∧ p.rest ≠ []
  | .posted o => ∃ p, (s.ports o).posting = some p ∧ p.rest = []
  | .postWork o => (s.ports o).posting = none
  | .pop b => (s.queue b).elems ≠ []
  | .pushMessage .. => True
  | .clear _ => True
  | .bufferManagerPush t => t ∈ s.returning

variable (F : MessageFabric O I A)

/-- What an operation does. -/
def call (s : Messages O I A) : MessageEvent O I A → Except Fault (Messages O I A)
  | .preWork o => .ok (s.setPort o { s.ports o with work := some 0 })
  | .postMessage o message => do
      let port := s.ports o
      let (slot, tokenManager) ← tokenManagerPop port.tokenManager
      let token := slot.map (o, ·)
      let entry : Entry O A := ⟨message, token, some (o, port.work = some 0)⟩
      let s := s.acquire token
      return { s.setPort o ⟨tokenManager, port.work.map (· + 1), some ⟨entry, F.subscribers o⟩⟩ with
        posted := Function.update s.posted o (s.posted o ++ [message]) }
  | .push o =>
      match (s.ports o).posting with
      | some ⟨entry, i :: rest⟩ =>
          (s.setPort o { s.ports o with posting := some ⟨entry, rest⟩ }).pushEntry (F.inbox i entry.message) entry
      | _ => .error (.undefined "subscriber")
  | .posted o =>
      match (s.ports o).posting with
      | some ⟨entry, _⟩ => .ok ((s.setPort o { s.ports o with posting := none }).drop [entry])
      | none => .error (.undefined "token")
  | .postWork o => .ok (s.setPort o { s.ports o with work := none })
  | .pop b =>
      match (s.queue b).elems with
      | e :: rest => .ok ((s.setQueue b ⟨rest, (s.queue b).capacity⟩ [(e, true)]).drop [e])
      | [] => .error (.assertion "not this->empty()")
  | .pushMessage i message => s.pushEntry (i, false) ⟨message, none, none⟩
  | .clear b =>
      .ok ((s.setQueue b ⟨[], (s.queue b).capacity⟩ ((s.queue b).elems.map (·, false))).drop (s.queue b).elems)
  | .bufferManagerPush t => do
      let tokenManager ← (s.ports t.1).tokenManager.push t.2 t.2
      return { s.setPort t.1 { s.ports t.1 with tokenManager := tokenManager } with
        returning := s.returning.erase t }

/-- One operation that is in order, and returns. -/
def Step (s : Messages O I A) (e : MessageEvent O I A) (s' : Messages O I A) : Prop :=
  s.Admits e ∧ s.call F e = .ok s'

end Messages

end PothosCore.Framework

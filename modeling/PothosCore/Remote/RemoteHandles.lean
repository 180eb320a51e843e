import Mathlib.Data.Fintype.Basic
import PothosCore.Remote.ServerHandler

/-!
# PothosCore.Remote.RemoteHandles

Clients of a proxy server: threads that hold `RemoteProxyEnvironment`s and
`RemoteProxyHandle`s in variables, copy them, and call their methods. An object of either
class has the number that the server has given to what it stands for. It goes when the last
pointer to it goes; its destructor has the server forget the number, and gives up its
pointer to the environment only then.

A method goes through its proxies first. One of another environment is converted, which
makes a handle of its own: `compareTo` and `convertProxyToObject` keep this handle until
the reply, but `call` keeps its number only, and the handle is gone before the request is
sent. The threads of all client processes are here together; no connection breaks, so that
`transact` gives each thread the reply to its request.
-/

namespace PothosCore.Remote.Handles

variable {W E V L H C T X : Type}

/-- A proxy of another environment. -/
structure Foreign (L : Type) where
  /-- `toString()` -/
  text : String
  /-- `toObject()`, or what it throws, with its `what()`. -/
  toObject : Except (Fault × String) L

/-- An argument that a method goes through. -/
inductive Arg (H L : Type)
  | own (h : H)
  | foreign (x : Foreign L)

def Arg.own? : Arg H L → Option H
  | .own h => some h
  | .foreign _ => none

/-- How a method ends: it returns a proxy or an object, or it throws. -/
inductive Outcome (L : Type)
  | proxy
  | object (x : L)
  | thrown (fault : Fault)

namespace Operation

/-- What is thrown on a reply with an `"errorMsg"`. The last three do not look for one: the
result that is not there is a null object, which does not convert. -/
def thrown (P : Process W E V L) (text : String) : Operation L → Fault
  | .makeEnvironment .. => .thrown "ProxyEnvironmentFactoryError" "RemoteProxyEnvironment()" text
  | .findProxy name =>
      .thrown "ProxyEnvironmentFindError" ("RemoteProxyEnvironment::findProxy(" ++ name ++ ")") text
  | .convertObjectToProxy _ =>
      .thrown "ProxyEnvironmentConvertError" "RemoteProxyEnvironment::convertObjectToProxy()" text
  | .convertProxyToObject =>
      .thrown "ProxyEnvironmentConvertError" "RemoteProxyEnvironment::convertProxyToObject()" text
  | .call name => .thrown "ProxyHandleCallError" ("RemoteProxyEnvironment::call(" ++ name ++ ")") text
  | .compareTo => .thrown "ProxyCompareError" "RemoteProxyEnvironment::compareTo()" text
  | .hashCode => .thrown "ObjectConvertError" "Pothos::Object::convert()"
      ("doesnt support " ++ P.typeString .null ++ " to " ++ P.typeString .size)
  | .toString => .thrown "ObjectConvertError" "Pothos::Object::convert()"
      ("doesnt support " ++ P.typeString .null ++ " to " ++ P.typeString .string)
  | .getClassName => .thrown "ObjectConvertError" "Pothos::Object::convert()"
      ("doesnt support " ++ P.typeString .null ++ " to " ++ P.typeString .string)

/-- The reply has a proxy or an environment. -/
def givesHandle : Operation L → Bool
  | .makeEnvironment .. => true
  | .findProxy _ => true
  | .convertObjectToProxy _ => true
  | .call _ => true
  | _ => false

/-- What a method does with a reply: it makes a handle, or it ends. -/
def returns (P : Process W E V L) (op : Operation L) : Answer H L → Except Fault (H ⊕ Outcome L)
  | .errorMsg text => .ok (.inr (.thrown (op.thrown P text)))
  | .message text => if op.isCall then .ok (.inr (.thrown (.thrown "ProxyExceptionMessage" text "")))
      else .error (.undefined "message")
  | .made h => if op.givesHandle then .ok (.inl h) else .error (.undefined "result")
  | .object x => if op.givesHandle then .error (.undefined "handleID") else .ok (.inr (.object x))

/-- What a method throws when an argument does not convert: the number of proxies before it,
its text, and what was thrown. -/
def convertThrown (op : Operation L) (index : Nat) (text : String) (thrown : Fault × String) : Fault :=
  match op with
  | .call name => .thrown "ProxyHandleCallError" ("RemoteProxyHandle::call(" ++ name ++ ")")
      ("convert arg " ++ ToString.toString (index - 1) ++ " - " ++ thrown.2)
  | .compareTo => .thrown "ProxyCompareError" "RemoteProxyHandle::compareTo()"
      ("convert " ++ text ++ " to remote - " ++ thrown.2)
  | _ => thrown.1

end Operation

/-- What `convertObjectToProxy` throws, with its `what()`. -/
def convertError (text : String) : Fault × String :=
  (.thrown "ProxyEnvironmentConvertError" "RemoteProxyEnvironment::convertObjectToProxy()" text,
    "Proxy Environment Convert Error")

/-- A `RemoteProxyEnvironment`, or a `RemoteProxyHandle`, which has a pointer to one and
uses its connection. -/
structure ClientObject (C : Type) where
  env : Option Nat
  connection : C
  remoteID : Nat

def ClientObject.kind (o : ClientObject C) : Kind :=
  match o.env with
  | none => .environment
  | some _ => .proxy

/-- A method that a thread is in: where its result goes, the environment (none in a
constructor), the objects it has pointers to, the arguments that it has not gone through,
and the numbers so far. -/
structure Frame (L C X : Type) where
  dst : X
  op : Operation L
  env : Option Nat
  connection : C
  held : List Nat
  todo : List (Arg Nat L)
  ids : List Nat

/-- What a thread does when it has let go of some pointers. -/
inductive After (L C X : Type)
  /-- It is in no method; the last one has ended so. -/
  | idle (outcome : Option (Outcome L))
  | resolve (f : Frame L C X)
  | assign (dst : X) (a : Nat)

/-- What a thread does with the reply. -/
inductive Kont (L C X : Type)
  | main (f : Frame L C X)
  /-- The next argument is converted. -/
  | converting (f : Frame L C X)
  /-- The destructor ends, and the object's own pointer goes with the others. -/
  | destroyed (held : List Nat) (k : After L C X)

/-- Where a thread is. -/
inductive Place (E V L C X : Type)
  | drop (held : List Nat) (k : After L C X)
  | transact (c : C) (h : Handler E V L) (k : Kont L C X)

def After.refs : After L C X → List Nat
  | .idle _ => []
  | .resolve f => f.held
  | .assign _ a => [a]

def Kont.refs : Kont L C X → List Nat
  | .main f => f.held
  | .converting f => f.held
  | .destroyed held k => held ++ k.refs

/-- The objects that a thread has pointers to. -/
def Place.refs : Place E V L C X → List Nat
  | .drop held k => held ++ k.refs
  | .transact _ _ k => k.refs

/-- The requests of a connection that were sent, by their threads, the one that is being
served, and whether the handler has left its loop. -/
structure Connection (T : Type) where
  os : List T
  serving : Option T
  done : Bool

/-- The server and its clients. -/
structure System (W E V L C T X : Type) where
  server : Server W E V
  heap : Nat → Option (ClientObject C)
  /-- Addresses from here on are free. -/
  next : Nat
  connections : C → Connection T
  vars : X → Option Nat
  thread : T → Place E V L C X

/-- What may happen next. -/
inductive Action (L C T X : Type)
  /-- A thread calls a method, or the constructor over a connection. -/
  | begin (t : T) (dst : X) (op : Operation L) (c : C) (args : List (Arg X L))
  | copy (t : T) (dst src : X)
  | clear (t : T) (dst : X)
  /-- A thread goes on. -/
  | run (t : T)
  /-- The handler goes on with the request of a thread. -/
  | serve (t : T)

/-- The calls of the clients. -/
def Action.isProgram : Action L C T X → Bool
  | .run _ => false
  | .serve _ => false
  | _ => true

def Action.thread : Action L C T X → T
  | .begin t .. => t
  | .copy t .. => t
  | .clear t _ => t
  | .run t => t
  | .serve t => t

namespace System

variable [DecidableEq C] [DecidableEq T] [DecidableEq X] [Fintype T] [Fintype X]

/-- There is a pointer to an object. -/
def Holds (s : System W E V L C T X) (a : Nat) : Prop :=
  (∃ x, s.vars x = some a) ∨ (∃ t, a ∈ (s.thread t).refs) ∨ ∃ b < s.next, (s.heap b).bind (·.env) = some a

instance (s : System W E V L C T X) (a : Nat) : Decidable (s.Holds a) :=
  inferInstanceAs (Decidable (_ ∨ _ ∨ _))

def goto (s : System W E V L C T X) (t : T) (p : Place E V L C X) : System W E V L C T X :=
  { s with thread := Function.update s.thread t p }

/-- Send a request, in a call of `transact`. -/
def transact (s : System W E V L C T X) (t : T) (c : C) (req : Request L) (k : Kont L C X) : System W E V L C T X :=
  { s with
    connections := Function.update s.connections c { s.connections c with os := (s.connections c).os ++ [t] }
    thread := Function.update s.thread t (.transact c (.sent req) k) }

/-- An object on the client. -/
def make (s : System W E V L C T X) (o : ClientObject C) : System W E V L C T X :=
  { s with heap := Function.update s.heap s.next (some o), next := s.next + 1 }

/-- Let go of a pointer; with the last one the destructor runs. -/
def release (s : System W E V L C T X) (t : T) (a : Nat) (held : List Nat) (k : After L C X) :
    Except Fault (System W E V L C T X) :=
  if (s.goto t (.drop held k)).Holds a then .ok (s.goto t (.drop held k))
  else match s.heap a with
    | some o =>
        .ok ({ s with heap := Function.update s.heap a none }.transact t o.connection
          (.destroy o.kind o.remoteID) (.destroyed (o.env.toList ++ held) k))
    | none => .error (.undefined "delete")

/-- A method ends without a proxy. -/
def finish (s : System W E V L C T X) (t : T) (f : Frame L C X) (outcome : Outcome L) : System W E V L C T X :=
  s.goto t (.drop f.held (.idle (some outcome)))

/-- Go through the next argument; after the last one, send the request. -/
def resolve (s : System W E V L C T X) (t : T) (f : Frame L C X) : Except Fault (System W E V L C T X) :=
  match f.todo with
  | [] => .ok (s.transact t f.connection (.operate f.op f.ids) (.main f))
  | .own a :: todo =>
      match s.heap a with
      | some o => .ok (s.goto t (.drop [] (.resolve { f with todo := todo, ids := f.ids ++ [o.remoteID] })))
      | none => .error (.undefined "remoteID")
  | .foreign x :: _ =>
      match x.toObject with
      | .error thrown => .ok (s.finish t f (.thrown (f.op.convertThrown f.ids.length x.text thrown)))
      | .ok object =>
          match f.env.bind s.heap with
          | some env =>
              .ok (s.transact t f.connection (.operate (.convertObjectToProxy object) [env.remoteID]) (.converting f))
          | none => .error (.undefined "env")

/-- Take the reply. -/
def receive (P : Process W E V L) (s : System W E V L C T X) (t : T) (answer : Answer Nat L) :
    Kont L C X → Except Fault (System W E V L C T X)
  | .main f => do
      match ← f.op.returns P answer with
      | .inl id => return (s.make ⟨f.env, f.connection, id⟩).goto t (.drop f.held (.assign f.dst s.next))
      | .inr outcome => return s.finish t f outcome
  | .converting f =>
      match f.todo, answer with
      | .foreign _ :: todo, .made id =>
          let f := { f with todo := todo, ids := f.ids ++ [id] }
          -- the only pointer is a local one; in `call` it is declared inside of the loop
          if f.op.isCall then
            .ok (s.transact t f.connection (.destroy .proxy id) (.destroyed f.env.toList (.resolve f)))
          else
            .ok ((s.make ⟨f.env, f.connection, id⟩).goto t (.drop [] (.resolve { f with held := s.next :: f.held })))
      | .foreign x :: _, .errorMsg text =>
          .ok (s.finish t f (.thrown (f.op.convertThrown f.ids.length x.text (convertError text))))
      | _, _ => .error (.undefined "handleID")
  | .destroyed .. => .error (.undefined "tid")

/-- The kind that an argument is used as. -/
def argKind (s : System W E V L C T X) : Arg Nat L → Option Kind
  | .own a => (s.heap a).map ClientObject.kind
  | .foreign _ => some .proxy

/-- The variables of the arguments. -/
def loadArgs (s : System W E V L C T X) : List (Arg X L) → Option (List (Arg Nat L))
  | [] => some []
  | .own x :: args => (s.vars x).bind fun a => (s.loadArgs args).map (.own a :: ·)
  | .foreign x :: args => (s.loadArgs args).map (.foreign x :: ·)

/-- The arguments, from the n-th on, are of the types in the signature. -/
def ArgsFit (s : System W E V L C T X) (op : Operation L) (n : Nat) (args : List (Arg Nat L)) : Prop :=
  ∀ i < args.length, (args[i]?).bind s.argKind = some (op.kindAt (n + i))

instance (s : System W E V L C T X) (op : Operation L) (n : Nat) (args : List (Arg Nat L)) :
    Decidable (s.ArgsFit op n args) :=
  inferInstanceAs (Decidable (∀ i < args.length, _))

/-- The environment of a method, and its connection. The first argument is the object that
the method is called on. -/
def scope (s : System W E V L C T X) (op : Operation L) (c : C) (args : List (Arg Nat L)) : Option (Option Nat × C) :=
  if op.isMake then some (none, c)
  else match args with
    | .own a :: _ => (s.heap a).map fun o => (some (o.env.getD a), o.connection)
    | _ => none

/-- The frame of a method that is called. -/
def frame (s : System W E V L C T X) (dst : X) (op : Operation L) (c : C) (args : List (Arg X L)) :
    Option (Frame L C X) := do
  let todo ← s.loadArgs args
  let (env, connection) ← s.scope op c todo
  if op.takes todo.length = true ∧ s.ArgsFit op 0 todo then
    return ⟨dst, op, env, connection, todo.filterMap Arg.own?, todo, []⟩
  else none

/-- The thread is in no method. -/
def isIdle : Place E V L C X → Bool
  | .drop [] (.idle _) => true
  | _ => false

/-- A thread goes on, if it does not wait. -/
def run (P : Process W E V L) (s : System W E V L C T X) (t : T) : Option (Except Fault (System W E V L C T X)) :=
  match s.thread t with
  | .drop (a :: held) k => some (s.release t a held k)
  | .drop [] (.idle _) => none
  | .drop [] (.resolve f) => some (s.resolve t f)
  | .drop [] (.assign dst a) =>
      some (.ok { s.goto t (.drop (s.vars dst).toList (.idle (some .proxy))) with
        vars := Function.update s.vars dst (some a) })
  | .transact _ (.replied answer) k => some (s.receive P t answer k)
  | .transact _ .destroyed (.destroyed held k) => some (.ok (s.goto t (.drop held k)))
  | .transact .. => none

/-- What is left of a connection when its handler has gone on. -/
def Connection.after (conn : Connection T) (h h' : Handler E V L) : Connection T :=
  if h'.isDone then
    { conn with
      serving := none
      done := conn.done || (match h with
        | .received (.destroy .environment _) => true
        | _ => false) }
  else conn

/-- The handler of a connection goes on with the request of a thread, which it has taken
from the stream. -/
def serve (P : Process W E V L) (s : System W E V L C T X) (t : T) : Option (Except Fault (System W E V L C T X)) :=
  match s.thread t with
  | .transact c (.sent req) k =>
      let conn := s.connections c
      if conn.os.head? = some t ∧ conn.serving = none ∧ conn.done = false then
        some (.ok { s with
          connections := Function.update s.connections c { conn with os := conn.os.tail, serving := some t }
          thread := Function.update s.thread t (.transact c (.received req) k) })
      else none
  | .transact c h k =>
      if h.isDone then none
      else some do
        let (h', server) ← h.next P s.server
        return { s with
          server := server
          connections := Function.update s.connections c (Connection.after (s.connections c) h h')
          thread := Function.update s.thread t (.transact c h' k) }
  | .drop .. => none

/-- One step. -/
def step (P : Process W E V L) (s : System W E V L C T X) :
    Action L C T X → Option (Except Fault (System W E V L C T X))
  | .begin t dst op c args =>
      if isIdle (s.thread t) then (s.frame dst op c args).map fun f => .ok (s.goto t (.drop [] (.resolve f)))
      else none
  | .copy t dst src =>
      if isIdle (s.thread t) then
        some (.ok { s.goto t (.drop (s.vars dst).toList (.idle none)) with
          vars := Function.update s.vars dst (s.vars src) })
      else none
  | .clear t dst =>
      if isIdle (s.thread t) then
        some (.ok { s.goto t (.drop (s.vars dst).toList (.idle none)) with vars := Function.update s.vars dst none })
      else none
  | .run t => s.run P t
  | .serve t => s.serve P t

/-- A step that does not fail. -/
def Step (P : Process W E V L) (s : System W E V L C T X) (e : Action L C T X) (s' : System W E V L C T X) : Prop :=
  s.step P e = some (.ok s')

/-- Nothing has been made. -/
def start (w : W) : System W E V L C T X where
  server := ⟨fun _ => none, 0, w⟩
  heap _ := none
  next := 0
  connections _ := ⟨[], none, false⟩
  vars _ := none
  thread _ := .drop [] (.idle none)

end System

end PothosCore.Remote.Handles

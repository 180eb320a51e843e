import Mathlib.Logic.Function.Basic
import PothosCore.Fault

/-!
# PothosCore.Remote.ServerHandler

The objects of a proxy server and the handler of one connection. Clients name the objects
by number: `getNewObjectId` registers an object under the next number, `getObjectAtId`
looks one up, and `removeObjectAtId` forgets it. The map is shared by the handlers of all
connections, under a mutex for each of these three.

`RemoteHandler::runHandlerOnce` looks up what a request names, does what it asks, and
registers the proxy or environment that comes of it. The lookups bind references into
the map, but for the arguments of a call, which are copied.
-/

namespace PothosCore.Remote.Handles

variable {W E V L H : Type}

/-- What the code asks to find under a number. -/
inductive Kind
  | environment
  | proxy
  deriving DecidableEq, Repr

/-- What an object of the map is: a `ProxyEnvironment::Sptr` or a `Proxy`. -/
inductive Item (E V : Type)
  | environment (env : E)
  | proxy (proxy : V)
  deriving DecidableEq, Repr

def Item.kind : Item E V → Kind
  | .environment _ => .environment
  | .proxy _ => .proxy

/-- The actions that a client asks for, but for the destructors. -/
inductive Operation (L : Type)
  | makeEnvironment (name : String) (args : List (String × String))
  | findProxy (name : String)
  | convertObjectToProxy (object : L)
  | convertProxyToObject
  | call (name : String)
  | compareTo
  | hashCode
  | toString
  | getClassName
  deriving Repr

namespace Operation

/-- What the n-th number of a request is looked up as: `"envID"` comes first where there is
one, then `"handleID"`, then `"otherID"` or the arguments. -/
def kindAt : Operation L → Nat → Kind
  | .findProxy _, 0 => .environment
  | .convertObjectToProxy _, 0 => .environment
  | .convertProxyToObject, 0 => .environment
  | _, _ => .proxy

/-- The n-th number is looked up by reference; the arguments of a call are copied. -/
def byReference : Operation L → Nat → Bool
  | .call _, n => n == 0
  | _, _ => true

/-- The action makes an environment. -/
def isMake : Operation L → Bool
  | .makeEnvironment .. => true
  | _ => false

def isCall : Operation L → Bool
  | .call _ => true
  | _ => false

/-- The kind of what the action makes. -/
def makes (op : Operation L) : Kind := if op.isMake then .environment else .proxy

/-- A request has this many numbers. -/
def takes : Operation L → Nat → Bool
  | .makeEnvironment .., n => n == 0
  | .convertProxyToObject, n => n == 2
  | .compareTo, n => n == 2
  | .call _, n => 0 < n
  | _, n => n == 1

end Operation

/-- What an action comes to: a proxy or an environment, by number or itself; an object;
the message of a `ProxyExceptionMessage`; or the text of another exception. -/
inductive Answer (H L : Type)
  | made (h : H)
  | object (x : L)
  | message (text : String)
  | errorMsg (text : String)
  deriving DecidableEq, Repr

def Answer.map {H' : Type} (f : H → H') : Answer H L → Answer H' L
  | .made h => .made (f h)
  | .object x => .object x
  | .message text => .message text
  | .errorMsg text => .errorMsg text

/-- A request; its numbers are in the order in which the handler looks them up. -/
inductive Request (L : Type)
  | operate (op : Operation L) (ids : List Nat)
  /-- `"~RemoteProxyEnvironment"` or `"~RemoteProxyHandle"` -/
  | destroy (kind : Kind) (id : Nat)

/-- The types in the texts of exceptions. -/
inductive TypeName
  | null
  | environment
  | proxy
  | size
  | string

def Kind.typeName : Kind → TypeName
  | .environment => .environment
  | .proxy => .proxy

/-- How a call ends that does not return. -/
inductive CallError
  | message (text : String)
  | error (displayText : String)

/-- What the environments and proxies of the server's process do, and the texts of types.
An error is the `displayText()` of the exception. -/
structure Process (W E V L : Type) where
  make : String → List (String × String) → W → Except String E × W
  findProxy : E → String → W → Except String V × W
  convertObjectToProxy : E → L → W → Except String V × W
  convertProxyToObject : E → V → W → Except String L × W
  call : V → String → List V → W → Except CallError V × W
  compareTo : V → V → W → Except String L × W
  hashCode : V → W → Except String L × W
  toString : V → W → Except String L × W
  getClassName : V → W → Except String L × W
  typeString : TypeName → String

namespace Process

variable (P : Process W E V L)

/-- An answer that is a proxy or an environment. -/
def madeOr {α : Type} (f : α → Item E V) (x : Except String α × W) : Answer (Item E V) L × W :=
  (match x.1 with
    | .ok a => .made (f a)
    | .error text => .errorMsg text, x.2)

/-- An answer that is an object. -/
def objectOr (x : Except String L × W) : Answer (Item E V) L × W :=
  (match x.1 with
    | .ok x => .object x
    | .error text => .errorMsg text, x.2)

/-- An answer to a call. -/
def calledOr (x : Except CallError V × W) : Answer (Item E V) L × W :=
  (match x.1 with
    | .ok proxy => .made (.proxy proxy)
    | .error (.message text) => .message text
    | .error (.error text) => .errorMsg text, x.2)

def proxies : List (Item E V) → Option (List V)
  | [] => some []
  | .proxy v :: items => (proxies items).map (v :: ·)
  | .environment _ :: _ => none

/-- Do an action on what was looked up. -/
def perform (op : Operation L) (found : List (Item E V)) (w : W) : Except Fault (Answer (Item E V) L × W) :=
  match op, found with
  | .makeEnvironment name args, [] => .ok (madeOr .environment (P.make name args w))
  | .findProxy name, [.environment env] => .ok (madeOr .proxy (P.findProxy env name w))
  | .convertObjectToProxy object, [.environment env] => .ok (madeOr .proxy (P.convertObjectToProxy env object w))
  | .convertProxyToObject, [.environment env, .proxy proxy] => .ok (objectOr (P.convertProxyToObject env proxy w))
  | .call name, .proxy proxy :: args =>
      match proxies args with
      | some args => .ok (calledOr (P.call proxy name args w))
      | none => .error (.undefined "reqArgs")
  | .compareTo, [.proxy proxy, .proxy other] => .ok (objectOr (P.compareTo proxy other w))
  | .hashCode, [.proxy proxy] => .ok (objectOr (P.hashCode proxy w))
  | .toString, [.proxy proxy] => .ok (objectOr (P.toString proxy w))
  | .getClassName, [.proxy proxy] => .ok (objectOr (P.getClassName proxy w))
  | _, _ => .error (.undefined "reqArgs")

/-- The `displayText()` of what `extract` throws. -/
def extractError (object : TypeName) (kind : Kind) : String :=
  "Object Convert Error: Pothos::Object::extract(): Cannot convert Object of type " ++
    P.typeString object ++ " to " ++ P.typeString kind.typeName

/-- `extract<ProxyEnvironment::Sptr>()` or `extract<Proxy>()` -/
def extract (kind : Kind) : Option (Item E V) → Except String (Item E V)
  | some item => if item.kind = kind then .ok item else .error (P.extractError item.kind.typeName kind)
  | none => .error (P.extractError .null kind)

end Process

/-- The server: `getObjectsMap()`, where an object may be null, the counter of
`getNewObjectId`, and the rest of the process. -/
structure Server (W E V : Type) where
  objects : Nat → Option (Option (Item E V))
  id : Nat
  world : W

namespace Server

/-- What is under a number. -/
def itemAt (s : Server W E V) (id : Nat) : Option (Item E V) := (s.objects id).join

def getNewObjectId (s : Server W E V) (item : Item E V) : Nat × Server W E V :=
  let id := (s.id + 1) % 2 ^ 64
  (id, { s with objects := Function.update s.objects id (some (some item)), id := id })

/-- `getObjectsMap()[key]`: a number that is not there gets a null object. -/
def getObjectAtId (s : Server W E V) (id : Nat) : Option (Item E V) × Server W E V :=
  match s.objects id with
  | some object => (object, s)
  | none => (none, { s with objects := Function.update s.objects id (some none) })

def removeObjectAtId (s : Server W E V) (id : Nat) : Server W E V :=
  { s with objects := Function.update s.objects id none }

end Server

/-- How far a request is. -/
inductive Handler (E V L : Type)
  | sent (req : Request L)
  | received (req : Request L)
  /-- The numbers are looked up, one after the other. -/
  | looking (op : Operation L) (ids : List Nat) (found : List (Item E V))
  /-- What was made is not registered yet. -/
  | registering (item : Item E V)
  | replied (answer : Answer Nat L)
  /-- The reply to a destructor. -/
  | destroyed

namespace Handler

/-- The reference that was looked up is good as long as the map has the object. -/
def Dangling (s : Server W E V) (op : Operation L) (ids : List Nat) : Prop :=
  ∃ n < ids.length, op.byReference n = true ∧ s.itemAt (ids.getD n 0) = none

instance (s : Server W E V) (op : Operation L) (ids : List Nat) : Decidable (Dangling s op ids) :=
  decidable_of_iff (∃ n < ids.length, (op.byReference n && (s.itemAt (ids.getD n 0)).isNone) = true)
    (by simp [Dangling])

/-- The reply, or what is to be registered before it. -/
def ofAnswer : Answer (Item E V) L → Handler E V L
  | .made item => .registering item
  | .object x => .replied (.object x)
  | .message text => .replied (.message text)
  | .errorMsg text => .replied (.errorMsg text)

/-- The next thing that `runHandlerOnce` does. -/
def next (P : Process W E V L) (s : Server W E V) : Handler E V L → Except Fault (Handler E V L × Server W E V)
  | .received (.operate op ids) => .ok (.looking op ids [], s)
  | .received (.destroy _ id) => .ok (.destroyed, s.removeObjectAtId id)
  | .looking op ids found =>
      match ids[found.length]? with
      | some id =>
          let (object, s) := s.getObjectAtId id
          match P.extract (op.kindAt found.length) object with
          | .ok item => .ok (.looking op ids (found ++ [item]), s)
          | .error text => .ok (.replied (.errorMsg text), s)
      | none =>
          if Dangling s op ids then .error (.undefined "proxy") else do
            let (answer, world) ← P.perform op found s.world
            return (ofAnswer answer, { s with world := world })
  | .registering item =>
      let (id, s) := s.getNewObjectId item
      .ok (.replied (.made id), s)
  | h => .ok (h, s)

/-- The reply is out. -/
def isDone : Handler E V L → Bool
  | .replied _ => true
  | .destroyed => true
  | _ => false

end Handler

end PothosCore.Remote.Handles

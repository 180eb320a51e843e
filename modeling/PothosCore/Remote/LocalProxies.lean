import PothosCore.Remote.RemoteHandles

/-!
# PothosCore.Remote.LocalProxies

What remote proxies are for, without a server: the threads have the environments and the
proxies themselves in their variables. A method goes through its arguments, then it asks
for its action, which is done at once on what it has, and it ends with what came of it.

An argument of another environment is converted, by the environment of the method. In a
call, what comes of this is lost, so that the call fails without being made.
-/

namespace PothosCore.Remote.Handles

variable {W E V L H H' C T X : Type}

def Arg.map (f : H → H') : Arg H L → Arg H' L
  | .own h => .own (f h)
  | .foreign x => .foreign x

/-- A proxy, or an environment, with the environment that it belongs to. -/
structure LocalProxy (E V : Type) where
  item : Item E V
  env : Item E V

/-- A method: the arguments that it has not gone through, and those that it has. One that
is lost is null. -/
structure LocalFrame (E V L X : Type) where
  dst : X
  op : Operation L
  env : Option (Item E V)
  todo : List (Arg (Option (Item E V)) L)
  values : List (Option (Item E V))

inductive LocalKont (E V L X : Type)
  | main (f : LocalFrame E V L X)
  | converting (f : LocalFrame E V L X)

/-- Where a thread is. -/
inductive LocalPlace (E V L X : Type)
  | idle (outcome : Option (Outcome L))
  | resolve (f : LocalFrame E V L X)
  | asked (op : Operation L) (values : List (Option (Item E V))) (k : LocalKont E V L X)
  | answered (answer : Answer (Option (Item E V)) L) (k : LocalKont E V L X)
  | assign (dst : X) (p : Option (LocalProxy E V))

/-- The threads, their variables, and the rest of the process. -/
@[ext]
structure LocalSystem (W E V L T X : Type) where
  world : W
  vars : X → Option (LocalProxy E V)
  thread : T → LocalPlace E V L X

/-- All of them, if none is null. -/
def allItems : List (Option (Item E V)) → Option (List (Item E V))
  | [] => some []
  | some item :: values => (allItems values).map (item :: ·)
  | none :: _ => none

namespace LocalSystem

def start (w : W) : LocalSystem W E V L T X := ⟨w, fun _ => none, fun _ => .idle none⟩

variable [DecidableEq T] [DecidableEq X]

def goto (s : LocalSystem W E V L T X) (t : T) (p : LocalPlace E V L X) : LocalSystem W E V L T X :=
  { s with thread := Function.update s.thread t p }

/-- The proxies of the arguments. -/
def loadArgs (s : LocalSystem W E V L T X) : List (Arg X L) → Option (List (Arg (LocalProxy E V) L))
  | [] => some []
  | .own x :: args => (s.vars x).bind fun p => (s.loadArgs args).map (.own p :: ·)
  | .foreign x :: args => (s.loadArgs args).map (.foreign x :: ·)

def argKind : Arg (LocalProxy E V) L → Kind
  | .own p => p.item.kind
  | .foreign _ => .proxy

/-- The environment of a method. -/
def scope (op : Operation L) (args : List (Arg (LocalProxy E V) L)) : Option (Option (Item E V)) :=
  if op.isMake then some none
  else match args with
    | .own p :: _ => some (some p.env)
    | _ => none

/-- The frame of a method that is called. -/
def frame (s : LocalSystem W E V L T X) (dst : X) (op : Operation L) (args : List (Arg X L)) :
    Option (LocalFrame E V L X) := do
  let args ← s.loadArgs args
  let env ← scope op args
  if op.takes args.length = true ∧ ∀ i < args.length, (args[i]?).map argKind = some (op.kindAt i) then
    return ⟨dst, op, env, args.map (Arg.map fun p => some p.item), []⟩
  else none

/-- Go through the next argument; after the last one, ask for the action. -/
def resolve (s : LocalSystem W E V L T X) (t : T) (f : LocalFrame E V L X) : LocalSystem W E V L T X :=
  match f.todo with
  | [] => s.goto t (.asked f.op f.values (.main f))
  | .own value :: todo => s.goto t (.resolve { f with todo := todo, values := f.values ++ [value] })
  | .foreign x :: _ =>
      match x.toObject with
      | .error thrown => s.goto t (.idle (some (.thrown (f.op.convertThrown f.values.length x.text thrown))))
      | .ok object => s.goto t (.asked (.convertObjectToProxy object) [f.env] (.converting f))

/-- Take what has come of it. -/
def receive (P : Process W E V L) (s : LocalSystem W E V L T X) (t : T) (answer : Answer (Option (Item E V)) L) :
    LocalKont E V L X → Option (LocalSystem W E V L T X)
  | .main f =>
      match f.op.returns P answer with
      | .ok (.inl value) =>
          some (s.goto t (.assign f.dst (value.map fun item => ⟨item, f.env.getD item⟩)))
      | .ok (.inr outcome) => some (s.goto t (.idle (some outcome)))
      | .error _ => none
  | .converting f =>
      match f.todo, answer with
      | .foreign _ :: todo, .made value =>
          let value := if f.op.isCall then none else value
          some (s.goto t (.resolve { f with todo := todo, values := f.values ++ [value] }))
      | .foreign x :: _, .errorMsg text =>
          some (s.goto t (.idle (some (.thrown (f.op.convertThrown f.values.length x.text (convertError text))))))
      | _, _ => none

/-- Do an action, unless an argument is lost. -/
def perform (P : Process W E V L) (s : LocalSystem W E V L T X) (t : T) (op : Operation L)
    (values : List (Option (Item E V))) (k : LocalKont E V L X) : Option (LocalSystem W E V L T X) :=
  match allItems values with
  | some items =>
      match P.perform op items s.world with
      | .ok (answer, world) => some { s.goto t (.answered (answer.map some) k) with world := world }
      | .error _ => none
  | none => some (s.goto t (.answered (.errorMsg (P.extractError .null .proxy)) k))

/-- One step. An action is done by `serve`. -/
def step (P : Process W E V L) (s : LocalSystem W E V L T X) : Action L C T X → Option (LocalSystem W E V L T X)
  | .begin t dst op _ args =>
      match s.thread t with
      | .idle _ => (s.frame dst op args).map fun f => s.goto t (.resolve f)
      | _ => none
  | .copy t dst src =>
      match s.thread t with
      | .idle _ => some { s.goto t (.idle none) with vars := Function.update s.vars dst (s.vars src) }
      | _ => none
  | .clear t dst =>
      match s.thread t with
      | .idle _ => some { s.goto t (.idle none) with vars := Function.update s.vars dst none }
      | _ => none
  | .run t =>
      match s.thread t with
      | .resolve f => some (s.resolve t f)
      | .answered answer k => s.receive P t answer k
      | .assign dst p => some { s.goto t (.idle (some .proxy)) with vars := Function.update s.vars dst p }
      | _ => none
  | .serve t =>
      match s.thread t with
      | .asked op values k => s.perform P t op values k
      | _ => none

end LocalSystem

end PothosCore.Remote.Handles

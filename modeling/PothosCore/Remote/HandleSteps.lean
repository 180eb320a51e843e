import PothosCore.Remote.RemoteHandles

/-!
# PothosCore.Remote.HandleSteps

What one step of the server and its clients can do, said once. A step moves one thread,
with the handler of its request, from a place to a place (`Moves`), and changes the shared
state in one of five ways (`Change`): `System.step_cases`.
-/

namespace PothosCore.Remote.Handles

variable {W E V L H C T X : Type}

/-- What a step does to what is shared. -/
inductive Change (W E V C X : Type)
  | keep
  | store (dst : X) (v : Option Nat)
  | make (o : ClientObject C)
  | delete (a : Nat)
  | server (server : Server W E V)

namespace System

variable [DecidableEq X]

def apply (s : System W E V L C T X) : Change W E V C X → System W E V L C T X
  | .keep => s
  | .store dst v => { s with vars := Function.update s.vars dst v }
  | .make o => s.make o
  | .delete a => { s with heap := Function.update s.heap a none }
  | .server server => { s with server := server }

variable [DecidableEq T]

/-- The moves of a thread. -/
inductive Moves (P : Process W E V L) (s : System W E V L C T X) (t : T) :
    Action L C T X → Place E V L C X → Change W E V C X → Place E V L C X → Prop
  | begin {p dst op c args f} : isIdle p = true → s.frame dst op c args = some f →
      Moves P s t (.begin t dst op c args) p .keep (.drop [] (.resolve f))
  | copy {p dst src} : isIdle p = true →
      Moves P s t (.copy t dst src) p (.store dst (s.vars src)) (.drop (s.vars dst).toList (.idle none))
  | clear {p dst} : isIdle p = true →
      Moves P s t (.clear t dst) p (.store dst none) (.drop (s.vars dst).toList (.idle none))
  | assign {dst a} : Moves P s t (.run t) (.drop [] (.assign dst a)) (.store dst (some a))
      (.drop (s.vars dst).toList (.idle (some .proxy)))
  | letGo {a held k} : (s.goto t (.drop held k)).Holds a →
      Moves P s t (.run t) (.drop (a :: held) k) .keep (.drop held k)
  | delete {a held k o} : ¬ (s.goto t (.drop held k)).Holds a → s.heap a = some o →
      Moves P s t (.run t) (.drop (a :: held) k) (.delete a)
        (.transact o.connection (.sent (.destroy o.kind o.remoteID)) (.destroyed (o.env.toList ++ held) k))
  | send {f} : f.todo = [] →
      Moves P s t (.run t) (.drop [] (.resolve f)) .keep
        (.transact f.connection (.sent (.operate f.op f.ids)) (.main f))
  | own {f a todo o} : f.todo = .own a :: todo → s.heap a = some o →
      Moves P s t (.run t) (.drop [] (.resolve f)) .keep
        (.drop [] (.resolve { f with todo := todo, ids := f.ids ++ [o.remoteID] }))
  | foreignFails {f x todo thrown} : f.todo = .foreign x :: todo → x.toObject = .error thrown →
      Moves P s t (.run t) (.drop [] (.resolve f)) .keep
        (.drop f.held (.idle (some (.thrown (f.op.convertThrown f.ids.length x.text thrown)))))
  | convert {f x todo object env o} : f.todo = .foreign x :: todo → x.toObject = .ok object → f.env = some env →
      s.heap env = some o →
      Moves P s t (.run t) (.drop [] (.resolve f)) .keep
        (.transact f.connection (.sent (.operate (.convertObjectToProxy object) [o.remoteID])) (.converting f))
  | made {c f id} : f.op.givesHandle = true →
      Moves P s t (.run t) (.transact c (.replied (.made id)) (.main f)) (.make ⟨f.env, f.connection, id⟩)
        (.drop f.held (.assign f.dst s.next))
  | finish {c f answer outcome} : f.op.returns P answer = .ok (.inr outcome) →
      Moves P s t (.run t) (.transact c (.replied answer) (.main f)) .keep (.drop f.held (.idle (some outcome)))
  /-- `call` keeps the number alone, and the handle goes. -/
  | convertedCall {c f id x todo} : f.todo = .foreign x :: todo → f.op.isCall = true →
      Moves P s t (.run t) (.transact c (.replied (.made id)) (.converting f)) .keep
        (.transact f.connection (.sent (.destroy .proxy id))
          (.destroyed f.env.toList (.resolve { f with todo := todo, ids := f.ids ++ [id] })))
  | converted {c f id x todo} : f.todo = .foreign x :: todo → f.op.isCall = false →
      Moves P s t (.run t) (.transact c (.replied (.made id)) (.converting f)) (.make ⟨f.env, f.connection, id⟩)
        (.drop [] (.resolve { f with todo := todo, ids := f.ids ++ [id], held := s.next :: f.held }))
  | convertFails {c f text x todo} : f.todo = .foreign x :: todo →
      Moves P s t (.run t) (.transact c (.replied (.errorMsg text)) (.converting f)) .keep
        (.drop f.held (.idle (some (.thrown (f.op.convertThrown f.ids.length x.text (convertError text))))))
  | destroyed {c held k} :
      Moves P s t (.run t) (.transact c .destroyed (.destroyed held k)) .keep (.drop held k)
  | take {c req k} : Moves P s t (.serve t) (.transact c (.sent req) k) .keep (.transact c (.received req) k)
  | operate {c op ids k} : Moves P s t (.serve t) (.transact c (.received (.operate op ids)) k) .keep
      (.transact c (.looking op ids []) k)
  | remove {c kind id k} : Moves P s t (.serve t) (.transact c (.received (.destroy kind id)) k)
      (.server (s.server.removeObjectAtId id)) (.transact c .destroyed k)
  | found {c op ids found k id item} : ids[found.length]? = some id → s.server.itemAt id = some item →
      item.kind = op.kindAt found.length →
      Moves P s t (.serve t) (.transact c (.looking op ids found) k) .keep
        (.transact c (.looking op ids (found ++ [item])) k)
  | wrongKind {c op ids found k id item} : ids[found.length]? = some id → s.server.itemAt id = some item →
      item.kind ≠ op.kindAt found.length →
      Moves P s t (.serve t) (.transact c (.looking op ids found) k) .keep
        (.transact c (.replied (.errorMsg (P.extractError item.kind.typeName (op.kindAt found.length)))) k)
  | null {c op ids found k id} : ids[found.length]? = some id → s.server.itemAt id = none →
      Moves P s t (.serve t) (.transact c (.looking op ids found) k) (.server (s.server.getObjectAtId id).2)
        (.transact c (.replied (.errorMsg (P.extractError .null (op.kindAt found.length)))) k)
  | perform {c op ids found k answer world} : ids[found.length]? = none →
      P.perform op found s.server.world = .ok (answer, world) →
      Moves P s t (.serve t) (.transact c (.looking op ids found) k) (.server { s.server with world := world })
        (.transact c (Handler.ofAnswer answer) k)
  | register {c item k} : Moves P s t (.serve t) (.transact c (.registering item) k)
      (.server (s.server.getNewObjectId item).2)
      (.transact c (.replied (.made (s.server.getNewObjectId item).1)) k)

/-- The state after a move. -/
def moved (s : System W E V L C T X) (t : T) (change : Change W E V C X) (p' : Place E V L C X)
    (connections : C → Connection T) : System W E V L C T X :=
  { (s.apply change).goto t p' with connections := connections }

/-- `s` goes to `s'` by a move of a thread. -/
def MovesTo (P : Process W E V L) (s : System W E V L C T X) (e : Action L C T X) (s' : System W E V L C T X) : Prop :=
  ∃ t change p' connections, Moves P s t e (s.thread t) change p' ∧ s' = s.moved t change p' connections

variable {P : Process W E V L} {s s' : System W E V L C T X} {t : T}

theorem Moves.to {e : Action L C T X} {p p' : Place E V L C X} {change : Change W E V C X}
    (h : Moves P s t e p change p')
    (hp : s.thread t = p) (connections : C → Connection T) : s.MovesTo P e (s.moved t change p' connections) :=
  ⟨t, change, p', connections, hp ▸ h, rfl⟩

/-! ### Every step is a move -/

theorem getObjectAtId_fst (server : Server W E V) (id : Nat) : (server.getObjectAtId id).1 = server.itemAt id := by
  rw [Server.getObjectAtId, Server.itemAt]
  cases server.objects id <;> rfl

/-- A number with an item is left alone. -/
theorem getObjectAtId_snd {server : Server W E V} {id : Nat} {item : Item E V} (h : server.itemAt id = some item) :
    (server.getObjectAtId id).2 = server := by
  rw [Server.itemAt] at h
  rw [Server.getObjectAtId]
  cases hobject : server.objects id with
  | none => simp [hobject] at h
  | some object => rfl

theorem next_moves {c : C} {h h' : Handler E V L} {server : Server W E V} {k : Kont L C X} (hdone : h.isDone = false)
    (hsent : ∀ req, h ≠ .sent req) (hp : s.thread t = .transact c h k) (hnext : h.next P s.server = .ok (h', server))
    (connections : C → Connection T) :
    s.MovesTo P (.serve t)
      ⟨server, s.heap, s.next, connections, s.vars, Function.update s.thread t (.transact c h' k)⟩ := by
  cases h with
  | sent req => exact absurd rfl (hsent req)
  | replied answer => cases hdone
  | destroyed => cases hdone
  | received req =>
      cases req with
      | operate op ids =>
          cases hnext
          exact Moves.to .operate hp _
      | destroy kind id =>
          cases hnext
          exact Moves.to .remove hp _
  | registering item =>
      cases hnext
      exact Moves.to .register hp _
  | looking op ids found =>
      rw [Handler.next] at hnext
      cases hid : ids[found.length]? with
      | none =>
          simp only [hid] at hnext
          by_cases hdangling : Handler.Dangling s.server op ids
          · rw [if_pos hdangling] at hnext
            cases hnext
          · rw [if_neg hdangling] at hnext
            obtain ⟨⟨answer, world⟩, hperform, hnext⟩ := bind_ok hnext
            cases hnext
            exact Moves.to (.perform hid hperform) hp _
      | some id =>
          simp only [hid, getObjectAtId_fst] at hnext
          cases hitem : s.server.itemAt id with
          | none =>
              simp only [hitem, Process.extract, Except.ok.injEq, Prod.mk.injEq] at hnext
              obtain ⟨rfl, rfl⟩ := hnext
              exact Moves.to (.null hid hitem) hp _
          | some item =>
              by_cases hkind : item.kind = op.kindAt found.length
              · simp only [hitem, Process.extract, if_pos hkind, getObjectAtId_snd hitem, Except.ok.injEq,
                  Prod.mk.injEq] at hnext
                obtain ⟨rfl, rfl⟩ := hnext
                exact Moves.to (.found hid hitem hkind) hp _
              · simp only [hitem, Process.extract, if_neg hkind, getObjectAtId_snd hitem, Except.ok.injEq,
                  Prod.mk.injEq] at hnext
                obtain ⟨rfl, rfl⟩ := hnext
                exact Moves.to (.wrongKind hid hitem hkind) hp _

/-- Only an action that gives a handle makes one. -/
theorem returns_inl {op : Operation L} {answer : Answer H L} {h : H} (hreturns : op.returns P answer = .ok (.inl h)) :
    answer = .made h ∧ op.givesHandle = true := by
  cases answer <;> grind [Operation.returns]

variable [DecidableEq C]

theorem receive_moves {c : C} {answer : Answer Nat L} {k : Kont L C X}
    (hp : s.thread t = .transact c (.replied answer) k) (h : s.receive P t answer k = .ok s') :
    s.MovesTo P (.run t) s' := by
  cases k with
  | main f =>
      obtain ⟨r, hr, hs'⟩ := bind_ok h
      cases r with
      | inl id =>
          obtain ⟨rfl, hgives⟩ := returns_inl hr
          cases hs'
          exact Moves.to (.made hgives) hp _
      | inr outcome =>
          cases hs'
          exact Moves.to (.finish hr) hp _
  | converting f =>
      simp only [receive] at h
      split at h
      case h_1 x todo id htodo =>
          by_cases hcall : f.op.isCall = true
          · rw [if_pos hcall] at h
            cases h
            exact Moves.to (.convertedCall htodo hcall) hp _
          · rw [if_neg hcall] at h
            cases h
            exact Moves.to (.converted htodo (by simpa using hcall)) hp _
      case h_2 x todo text htodo =>
          cases h
          exact Moves.to (.convertFails htodo) hp _
      case h_3 => cases h
  | destroyed held k => cases h

theorem resolve_moves {f : Frame L C X} (hp : s.thread t = .drop [] (.resolve f)) (h : s.resolve t f = .ok s') :
    s.MovesTo P (.run t) s' := by
  rw [resolve] at h
  cases htodo : f.todo with
  | nil =>
      simp only [htodo, Except.ok.injEq] at h
      subst h
      exact Moves.to (.send htodo) hp _
  | cons arg todo =>
      cases arg with
      | own a =>
          cases ho : s.heap a with
          | none => simp [htodo, ho] at h
          | some o =>
              simp only [htodo, ho, Except.ok.injEq] at h
              subst h
              exact Moves.to (.own htodo ho) hp _
      | foreign x =>
          cases hx : x.toObject with
          | error thrown =>
              simp only [htodo, hx, Except.ok.injEq] at h
              subst h
              exact Moves.to (.foreignFails htodo hx) hp _
          | ok object =>
              cases henv : f.env with
              | none => simp [htodo, hx, henv] at h
              | some env =>
                  cases ho : s.heap env with
                  | none => simp [htodo, hx, henv, ho] at h
                  | some o =>
                      simp only [htodo, hx, henv, ho, Option.bind_some, Except.ok.injEq] at h
                      subst h
                      exact Moves.to (.convert htodo hx henv ho) hp _

theorem serve_moves (h : s.serve P t = some (.ok s')) : s.MovesTo P (.serve t) s' := by
  rw [serve] at h
  split at h
  case h_1 c req k hp =>
    by_cases hfree : (s.connections c).os.head? = some t ∧ (s.connections c).serving = none ∧
        (s.connections c).done = false
    · simp only [if_pos hfree, Option.some.injEq, Except.ok.injEq] at h
      subst h
      exact Moves.to .take hp _
    · simp [if_neg hfree] at h
  case h_2 c handler k hsent hp =>
    by_cases hdone : handler.isDone = true
    · simp [hdone] at h
    · rw [if_neg hdone] at h
      obtain ⟨⟨h', server⟩, hnext, hs'⟩ := bind_ok (Option.some.inj h)
      cases hs'
      exact next_moves (by simpa using hdone) hsent hp hnext _
  case h_3 => cases h

variable [Fintype T] [Fintype X]

theorem release_moves {a : Nat} {held : List Nat} {k : After L C X} (hp : s.thread t = .drop (a :: held) k)
    (h : s.release t a held k = .ok s') : s.MovesTo P (.run t) s' := by
  simp only [release] at h
  by_cases hholds : (s.goto t (.drop held k)).Holds a
  · rw [if_pos hholds] at h
    cases h
    exact Moves.to (.letGo hholds) hp _
  · rw [if_neg hholds] at h
    cases ho : s.heap a with
    | none => simp [ho] at h
    | some o =>
        simp only [ho, Except.ok.injEq] at h
        subst h
        exact Moves.to (.delete hholds ho) hp _

theorem run_moves (h : s.run P t = some (.ok s')) : s.MovesTo P (.run t) s' := by
  rw [run] at h
  split at h
  case h_1 a held k hp => exact release_moves hp (Option.some.inj h)
  case h_2 => cases h
  case h_3 f hp => exact resolve_moves hp (Option.some.inj h)
  case h_4 dst a hp =>
    cases h
    exact Moves.to .assign hp _
  case h_5 c answer k hp => exact receive_moves hp (Option.some.inj h)
  case h_6 c held k hp =>
    cases h
    exact Moves.to .destroyed hp _
  case h_7 => cases h

/-- **A step** is a move of one thread. -/
theorem step_cases {e : Action L C T X} (h : s.Step P e s') : s.MovesTo P e s' := by
  cases e with
  | begin t dst op c args =>
      simp only [Step, step] at h
      by_cases hidle : isIdle (s.thread t) = true
      · rw [if_pos hidle] at h
        obtain ⟨f, hf, h⟩ := Option.map_eq_some_iff.mp h
        cases h
        exact Moves.to (.begin hidle hf) rfl _
      · simp [hidle] at h
  | copy t dst src =>
      simp only [Step, step] at h
      by_cases hidle : isIdle (s.thread t) = true
      · simp only [hidle, if_true, Option.some.injEq, Except.ok.injEq] at h
        subst h
        exact Moves.to (.copy hidle) rfl _
      · simp [hidle] at h
  | clear t dst =>
      simp only [Step, step] at h
      by_cases hidle : isIdle (s.thread t) = true
      · simp only [hidle, if_true, Option.some.injEq, Except.ok.injEq] at h
        subst h
        exact Moves.to (.clear hidle) rfl _
      · simp [hidle] at h
  | run t => exact run_moves h
  | serve t => exact serve_moves h

end System

end PothosCore.Remote.Handles

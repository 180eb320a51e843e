import PothosCore.Lib.Custody
import PothosCore.Lib.Transition
import PothosCore.Remote.HandlePointers

/-!
# PothosCore.Remote.HandleCustody

Who has the numbers that the server gave out. A number whose object is in the map belongs to
one object of a client, to one reply on its way to a client, or to one request of a
destructor on its way back; and each of these has a number whose object is there
(`System.Invariant`). There are pointers to all objects of the clients, and all pointers
are to objects that are there.
-/

namespace PothosCore.Remote.Handles

open Lib

variable {W E V L H C T X : Type}

/-- What can have a number: an object of a client, or a thread, with its request or reply. -/
inductive Owner (T : Type)
  | object (a : Nat)
  | thread (t : T)
  deriving DecidableEq

def ClientObject.token (o : ClientObject C) : Nat × Kind := (o.remoteID, o.kind)

/-- The kind of what a method makes of a number that it gets. -/
def Kont.makes : Kont L C X → Kind
  | .main f => f.op.makes
  | _ => .proxy

def Place.owned : Place E V L C X → Option (Nat × Kind)
  | .transact _ (.sent (.destroy kind id)) _ => some (id, kind)
  | .transact _ (.received (.destroy kind id)) _ => some (id, kind)
  | .transact _ (.replied (.made id)) k => some (id, k.makes)
  | _ => none

/-- The map has an object of this kind under this number. -/
def Server.Has (server : Server W E V) (token : Nat × Kind) : Prop :=
  ∃ item, server.itemAt token.1 = some item ∧ item.kind = token.2

/-- An answer to an action of this kind. -/
def Operation.Fits (op : Operation L) : Answer H L → Prop
  | .errorMsg _ => True
  | .message _ => op.isCall = true
  | .made _ => op.givesHandle = true
  | .object _ => op.givesHandle = false

namespace System

def owned (s : System W E V L C T X) : Owner T → Option (Nat × Kind)
  | .object a => (s.heap a).map ClientObject.token
  | .thread t => (s.thread t).owned

/-- One of these objects has the number. -/
def Own (s : System W E V L C T X) (held : List Nat) (id : Nat) (kind : Kind) : Prop :=
  ∃ a ∈ held, ∃ o, s.heap a = some o ∧ o.token = (id, kind)

/-- The number was given back. -/
def Dead (s : System W E V L C T X) (id : Nat) : Prop := s.server.itemAt id = none ∧ id ≤ s.server.id

/-- A method, as far as it is: its arguments fit, and its numbers are those of objects that
it has a pointer to, but for the converted arguments of a call. -/
structure Sound (s : System W E V L C T X) (gone : Option Nat) (f : Frame L C X) : Prop extends s.Anchored f where
  takes : f.op.takes (f.ids.length + f.todo.length) = true
  isMake : f.op.isMake = f.env.isNone
  own : ∀ a, .own a ∈ f.todo → a ∈ f.held
  fit : s.ArgsFit f.op f.ids.length f.todo
  ids : ∀ n id, f.ids[n]? = some id →
    s.Own f.held id (f.op.kindAt n) ∨ f.op.isCall = true ∧ (s.Dead id ∨ gone = some id)

def AfterSound (s : System W E V L C T X) (gone : Option Nat) : After L C X → Prop
  | .resolve f => s.Sound gone f
  | _ => True

/-- What was looked up is there. -/
def Looked (s : System W E V L C T X) (op : Operation L) (ids : List Nat) (found : List (Item E V)) : Prop :=
  found.length ≤ ids.length ∧ ∀ n item, found[n]? = some item →
    ∃ id, ids[n]? = some id ∧ s.server.itemAt id = some item ∧ item.kind = op.kindAt n

/-- The handler does what it was asked for. -/
def Asks (s : System W E V L C T X) (op : Operation L) (ids : List Nat) : Handler E V L → Prop
  | .sent req => req = .operate op ids
  | .received req => req = .operate op ids
  | .looking op' ids' found => op' = op ∧ ids' = ids ∧ s.Looked op ids found
  | .registering item => op.givesHandle = true ∧ item.kind = op.makes
  | .replied answer => op.Fits answer
  | .destroyed => False

/-- The number of a destructor's request, until the server has taken it back. -/
def goneOf : Handler E V L → Option Nat
  | .sent (.destroy _ id) => some id
  | .received (.destroy _ id) => some id
  | _ => none

def Destroys : Handler E V L → Prop
  | .sent (.destroy ..) => True
  | .received (.destroy ..) => True
  | .destroyed => True
  | _ => False

/-- The request that a method has sent. -/
def Serves (s : System W E V L C T X) (op : Operation L) (ids : List Nat) : Kont L C X → Prop
  | .main f => s.Sound none f ∧ f.todo = [] ∧ op = f.op ∧ ids = f.ids
  | .converting f => s.Sound none f ∧ ∃ x todo object env o, f.todo = .foreign x :: todo ∧ x.toObject = .ok object ∧
      f.env = some env ∧ s.heap env = some o ∧ op = .convertObjectToProxy object ∧ ids = [o.remoteID]
  | .destroyed .. => False

/-- A thread is at a place where it can be. -/
inductive Placed (s : System W E V L C T X) : Place E V L C X → Prop
  | drop {held k} : s.AfterSound none k → Placed s (.drop held k)
  | serves {c h k op ids} : s.Serves op ids k → s.Asks op ids h → Placed s (.transact c h k)
  | destroyed {c h held k} : s.AfterSound (goneOf h) k → Destroys h → Placed s (.transact c h (.destroyed held k))

/-- What holds in every state that a run reaches. -/
structure Invariant (s : System W E V L C T X) : Prop where
  custody : Custody s.owned s.server.Has
  numbered : ∀ id, s.server.itemAt id ≠ none → id ≤ s.server.id
  fresh : ∀ a, s.next ≤ a → s.heap a = none
  held : ∀ a, s.Holds a ↔ ∃ o, s.heap a = some o
  environment : ∀ a o e o', s.heap a = some o → o.env = some e → s.heap e = some o' → o'.env = none
  placed : ∀ t, s.Placed (s.thread t)

end System

namespace System

variable {s : System W E V L C T X} {op : Operation L} {ids : List Nat}

theorem Serves.makes {k : Kont L C X} (h : s.Serves op ids k) : op.makes = k.makes := by
  cases k with
  | main f => rw [h.2.2.1, Kont.makes]
  | converting f =>
      obtain ⟨-, x, todo, object, env, o, -, -, -, -, rfl, -⟩ := h
      rfl
  | destroyed held k => exact h.elim

/-- Only a method of an environment or a handle converts. -/
theorem Serves.env_ne_none {f : Frame L C X} (h : s.Serves op ids (.converting f)) : f.env ≠ none := by
  obtain ⟨-, x, todo, object, env, o, -, -, henv, -⟩ := h
  simp [henv]

end System

theorem Place.owned_ofAnswer {c : C} {k : Kont L C X} (answer : Answer (Item E V) L) :
    (Place.transact c (Handler.ofAnswer answer) k).owned = none := by
  cases answer <;> rfl

theorem Place.owned_of_isIdle {p : Place E V L C X} (h : System.isIdle p = true) : p.owned = none := by
  cases p with
  | drop held k => rfl
  | transact c h k => cases h

/-- What a method makes of a number is of the kind that the action gives. -/
theorem ClientObject.token_made {f : Frame L C X} (id : Nat) (h : f.op.isMake = f.env.isNone) :
    ClientObject.token ⟨f.env, f.connection, id⟩ = (id, f.op.makes) := by
  cases henv : f.env <;> simp [token, kind, Operation.makes, h, henv]

/-- A reply with a number makes a handle. -/
theorem Place.owned_of_returns {P : Process W E V L} {c : C} {op : Operation L} {answer : Answer Nat L}
    {outcome : Outcome L} {k : Kont L C X} (h : op.returns P answer = .ok (.inr outcome)) :
    (Place.transact c (Handler.replied answer) k : Place E V L C X).owned = none := by
  cases answer with
  | made id => by_cases hgives : op.givesHandle = true <;> simp [Operation.returns, hgives] at h
  | _ => rfl

/-! ### The map -/

namespace Server

variable {server : Server W E V}

theorem itemAt_removeObjectAtId (id n : Nat) :
    (server.removeObjectAtId id).itemAt n = if n = id then none else server.itemAt n := by
  by_cases hn : n = id <;> simp [itemAt, removeObjectAtId, hn]

theorem itemAt_getObjectAtId (id n : Nat) : (server.getObjectAtId id).2.itemAt n = server.itemAt n := by
  cases hid : server.objects id with
  | some object => simp [getObjectAtId, hid]
  | none =>
      by_cases hn : n = id
      · simp [itemAt, getObjectAtId, hid, hn]
      · simp [itemAt, getObjectAtId, hid, hn]

@[simp] theorem getObjectAtId_id (id : Nat) : (server.getObjectAtId id).2.id = server.id := by
  cases hid : server.objects id <;> simp [getObjectAtId, hid]

@[simp] theorem getObjectAtId_world (id : Nat) : (server.getObjectAtId id).2.world = server.world := by
  cases hid : server.objects id <;> simp [getObjectAtId, hid]

theorem getNewObjectId_eq (h : server.id + 1 < 2 ^ 64) (item : Item E V) :
    server.getNewObjectId item = (server.id + 1, { server with
      objects := Function.update server.objects (server.id + 1) (some (some item)), id := server.id + 1 }) := by
  rw [getNewObjectId, Nat.mod_eq_of_lt h]

theorem itemAt_getNewObjectId (h : server.id + 1 < 2 ^ 64) (item : Item E V) (n : Nat) :
    (server.getNewObjectId item).2.itemAt n = if n = server.id + 1 then some item else server.itemAt n := by
  rw [getNewObjectId_eq h]
  by_cases hn : n = server.id + 1 <;> simp [itemAt, hn]

theorem has_getNewObjectId (h : server.id + 1 < 2 ^ 64) (hfree : server.itemAt (server.id + 1) = none)
    (item : Item E V) (token : Nat × Kind) :
    (server.getNewObjectId item).2.Has token ↔ token = (server.id + 1, item.kind) ∨ server.Has token := by
  obtain ⟨n, kind⟩ := token
  simp only [Has, itemAt_getNewObjectId h]
  by_cases hn : n = server.id + 1
  · simp [hn, hfree, eq_comm]
  · simp [hn]

/-- There is one object under a number, of one kind. -/
theorem has_removeObjectAtId {id : Nat} {kind : Kind} (h : server.Has (id, kind)) (token : Nat × Kind) :
    (server.removeObjectAtId id).Has token ↔ token ≠ (id, kind) ∧ server.Has token := by
  obtain ⟨item, hitem, rfl⟩ := h
  obtain ⟨n, kind'⟩ := token
  simp only [Has, itemAt_removeObjectAtId]
  by_cases hn : n = id
  · subst hn
    simp only [if_true, reduceCtorEq, false_and, exists_false, false_iff, not_and, not_exists]
    rintro hne item' hitem' rfl
    obtain rfl : item = item' := Option.some.inj (hitem.symm.trans hitem')
    exact hne rfl
  · simp [hn]

theorem has_congr {server' : Server W E V} (h : ∀ n, server'.itemAt n = server.itemAt n) (token : Nat × Kind) :
    server'.Has token ↔ server.Has token := by
  rw [Has, Has, h]

end Server

namespace System

variable [DecidableEq T] [DecidableEq X] {P : Process W E V L} {s s' : System W E V L C T X} {t : T}
  {e : Action L C T X} {p p' : Place E V L C X} {change : Change W E V C X} {connections : C → Connection T}

/-! ### The numbers after a move -/

@[simp] theorem moved_thread :
    (s.moved t change p' connections).thread = Function.update s.thread t p' := by
  cases change <;> rfl

theorem owned_moved_thread (u : T) : (s.moved t change p' connections).owned (.thread u) =
    if u = t then p'.owned else s.owned (.thread u) := by
  by_cases hu : u = t <;> simp [owned, hu]

/-- A move that passes no number on. -/
theorem custody_same (h : Custody s.owned s.server.Has) (ht : p'.owned = (s.thread t).owned)
    (hheap : (s.apply change).heap = s.heap) (hitems : ∀ n, (s.apply change).server.itemAt n = s.server.itemAt n) :
    Custody (s.moved t change p' connections).owned (s.moved t change p' connections).server.Has := by
  refine h.congr (fun o => ?_) (Server.has_congr hitems)
  cases o with
  | object a => exact congrArg (fun heap => (heap a).map ClientObject.token) hheap
  | thread u =>
      rw [owned_moved_thread]
      by_cases hu : u = t
      · rw [if_pos hu, ht, hu]
        rfl
      · rw [if_neg hu]

/-- A number that has come to a client goes to an object. -/
theorem custody_made (hs : s.Invariant) {f : Frame L C X} {id : Nat} (hp : s.thread t = p)
    (howned : p.owned = some (id, f.op.makes)) (hmake : f.op.isMake = f.env.isNone) (hp' : p'.owned = none) :
    Custody (s.moved t (.make ⟨f.env, f.connection, id⟩) p' connections).owned
      (s.moved t (.make ⟨f.env, f.connection, id⟩) p' connections).server.Has := by
  have hfree : s.heap s.next = none := hs.fresh _ (Nat.le_refl _)
  refine hs.custody.pass (.thread t) (.object s.next) (i := (id, f.op.makes)) ?_ ?_ ?_ ?_
    (fun o h₁ h₂ => ?_) fun _ => Iff.rfl
  · rw [← howned, ← hp]
    rfl
  · rw [owned_moved_thread, if_pos rfl, hp']
  · simp [owned, hfree]
  · simp [owned, moved, apply, goto, make, ClientObject.token_made id hmake]
  · cases o with
    | object b =>
        have hb : b ≠ s.next := fun heq => h₂ (heq ▸ rfl)
        simp [owned, moved, apply, goto, make, hb]
    | thread u => rw [owned_moved_thread, if_neg fun heq : u = t => h₁ (heq ▸ rfl)]

/-- **The numbers after a move**, as long as the counter does not wrap. -/
theorem Moves.custody (hs : s.Invariant) (hwrap : s.server.id + 1 < 2 ^ 64)
    (h : Moves P s t e (s.thread t) change p') (connections : C → Connection T) :
    Custody (s.moved t change p' connections).owned (s.moved t change p' connections).server.Has := by
  have hplaced := hs.placed t
  generalize hp : s.thread t = p at h hplaced
  have howned : s.owned (.thread t) = p.owned := by rw [← hp]; rfl
  cases h with
  | begin hidle hf | copy hidle | clear hidle =>
      exact custody_same hs.custody (by rw [hp, Place.owned_of_isIdle hidle]; rfl) rfl fun _ => rfl
  | @delete a held k o hgone ho =>
      refine hs.custody.pass (.object a) (.thread t) (i := o.token) ?_ ?_ howned ?_ (fun o' h₁ h₂ => ?_)
        fun _ => Iff.rfl
      · simp [owned, ho]
      · simp [owned, moved, apply, goto]
      · rw [owned_moved_thread, if_pos rfl]
        rfl
      · cases o' with
        | object b =>
            have hb : b ≠ a := fun heq => h₁ (heq ▸ rfl)
            simp [owned, moved, apply, goto, hb]
        | thread u => rw [owned_moved_thread, if_neg fun heq : u = t => h₂ (heq ▸ rfl)]
  | @made c f id hgives =>
      cases hplaced with
      | serves hserves _ => exact custody_made hs hp rfl hserves.1.isMake rfl
  | @converted c f id x todo htodo hcall =>
      cases hplaced with
      | serves hserves _ =>
          have hmake := hserves.1.isMake
          refine custody_made hs hp ?_ hmake rfl
          simp [Place.owned, Kont.makes, Operation.makes, hmake, hserves.env_ne_none]
  | @remove c kind id k =>
      have hown : s.owned (.thread t) = some (id, kind) := howned
      refine hs.custody.redeem hown (by rw [owned_moved_thread, if_pos rfl]; rfl) (fun o ho => ?_) fun j => ?_
      · cases o with
        | object a => rfl
        | thread u => rw [owned_moved_thread, if_neg fun heq : u = t => ho (heq ▸ rfl)]
      · exact Server.has_removeObjectAtId ((hs.custody.out_iff _).mpr ⟨_, hown⟩) j
  | null hid hitem => exact custody_same hs.custody (by rw [hp]; rfl) rfl (Server.itemAt_getObjectAtId _)
  | perform hid hperform => exact custody_same hs.custody (by rw [hp, Place.owned_ofAnswer]; rfl) rfl fun _ => rfl
  | @register c item k =>
      have hkind : item.kind = k.makes := by
        cases hplaced with
        | serves hserves hasks => exact hasks.2.trans hserves.makes
        | destroyed _ hdestroys => exact hdestroys.elim
      have hfree : s.server.itemAt (s.server.id + 1) = none := by
        by_contra hsome
        have := hs.numbered _ hsome
        omega
      refine hs.custody.issue (.thread t) (i := (s.server.id + 1, item.kind)) ?_ howned ?_ (fun o ho => ?_)
        fun j => ?_
      · rintro ⟨item', hitem', -⟩
        rw [hfree] at hitem'
        cases hitem'
      · rw [owned_moved_thread, if_pos rfl, Server.getNewObjectId_eq hwrap, hkind]
        rfl
      · cases o with
        | object a => rfl
        | thread u => rw [owned_moved_thread, if_neg fun heq : u = t => ho (heq ▸ rfl)]
      · exact Server.has_getNewObjectId hwrap hfree item j
  | finish hreturns => exact custody_same hs.custody (by rw [hp, Place.owned_of_returns hreturns]; rfl) rfl fun _ => rfl
  | @take c req k => exact custody_same hs.custody (by rw [hp]; cases req <;> rfl) rfl fun _ => rfl
  | _ => exact custody_same hs.custody (by rw [hp]; rfl) rfl fun _ => rfl

end System

end PothosCore.Remote.Handles

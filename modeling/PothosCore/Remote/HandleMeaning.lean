import PothosCore.Remote.HandleSafety
import PothosCore.Remote.LocalProxies

/-!
# PothosCore.Remote.HandleMeaning

What the handles of the clients stand for: a state of the server and its clients, seen as a
state of `LocalSystem` (`System.abs`). An object of a client is what the map has under its
number, and a request that is on its way or being served is an action that is asked for.
What a step leaves alone stands for the same as before.
-/

namespace PothosCore.Remote.Handles

open Lib

variable {W E V L C T X : Type}

namespace System

/-- What an object of a client stands for. -/
def itemOf (s : System W E V L C T X) (a : Nat) : Option (Item E V) :=
  (s.heap a).bind fun o => s.server.itemAt o.remoteID

/-- With its environment. -/
def meaning (s : System W E V L C T X) (a : Nat) : Option (LocalProxy E V) :=
  (s.heap a).bind fun o => (s.server.itemAt o.remoteID).map fun item => ⟨item, (o.env.bind s.itemOf).getD item⟩

/-- A number whose destructor has been called stands for nothing any more. -/
def valueAt (s : System W E V L C T X) (gone : Option Nat) (id : Nat) : Option (Item E V) :=
  if gone = some id then none else s.server.itemAt id

def absFrame (s : System W E V L C T X) (gone : Option Nat) (f : Frame L C X) : LocalFrame E V L X :=
  ⟨f.dst, f.op, f.env.bind s.itemOf, f.todo.map (Arg.map s.itemOf), f.ids.map (s.valueAt gone)⟩

def absAfter (s : System W E V L C T X) (gone : Option Nat) : After L C X → LocalPlace E V L X
  | .idle outcome => .idle outcome
  | .resolve f => .resolve (s.absFrame gone f)
  | .assign dst a => .assign dst (s.meaning a)

def absHandler (s : System W E V L C T X) (k : LocalKont E V L X) : Handler E V L → LocalPlace E V L X
  | .sent (.operate op ids) => .asked op (ids.map s.server.itemAt) k
  | .received (.operate op ids) => .asked op (ids.map s.server.itemAt) k
  | .looking op ids _ => .asked op (ids.map s.server.itemAt) k
  | .registering item => .answered (.made (some item)) k
  | .replied answer => .answered (answer.map s.server.itemAt) k
  | _ => .idle none

def absPlace (s : System W E V L C T X) : Place E V L C X → LocalPlace E V L X
  | .drop _ k => s.absAfter none k
  | .transact _ h (.main f) => s.absHandler (.main (s.absFrame none f)) h
  | .transact _ h (.converting f) => s.absHandler (.converting (s.absFrame none f)) h
  | .transact _ h (.destroyed _ k) => s.absAfter (goneOf h) k

/-- The state without a server. -/
def abs (s : System W E V L C T X) : LocalSystem W E V L T X where
  world := s.server.world
  vars x := (s.vars x).bind s.meaning
  thread t := s.absPlace (s.thread t)

variable {s s' : System W E V L C T X} {t : T}

/-! ### What stays means the same -/

/-- An object of a client stands for something. -/
theorem Invariant.itemOf_some (hs : s.Invariant) {a : Nat} {o : ClientObject C} (ho : s.heap a = some o) :
    ∃ item, s.server.itemAt o.remoteID = some item ∧ item.kind = o.kind := by
  have howned : s.owned (.object a) = some o.token := by simp [owned, ho]
  exact (hs.custody.out_iff _).mpr ⟨_, howned⟩

theorem itemOf_steady (hs : s.Invariant) (hsteady : Steady s s' t) {a : Nat} (hold : s.Holds a) (hnew : s'.Holds a) :
    s'.itemOf a = s.itemOf a := by
  obtain ⟨o, ho⟩ := (hs.held a).mp hold
  simp [itemOf, hsteady.heap a o ho hnew, ho, hs.itemAt_eq hsteady ho]

theorem holds_env {a e : Nat} {o : ClientObject C} (hfresh : ∀ b, s.next ≤ b → s.heap b = none) (ho : s.heap a = some o)
    (he : o.env = some e) : s.Holds e := by
  refine .inr (.inr ⟨a, ?_, by simp [ho, he]⟩)
  by_contra hle
  simp [hfresh a (by omega)] at ho

theorem meaning_steady (hs : s.Invariant) (hsteady : Steady s s' t) {a : Nat} (hold : s.Holds a) (hnew : s'.Holds a) :
    s'.meaning a = s.meaning a := by
  obtain ⟨o, ho⟩ := (hs.held a).mp hold
  have ho' := hsteady.heap a o ho hnew
  have henv : o.env.bind s'.itemOf = o.env.bind s.itemOf := by
    cases hoe : o.env with
    | none => rfl
    | some e => exact itemOf_steady hs hsteady (holds_env hs.fresh ho hoe) (holds_env hsteady.fresh ho' hoe)
  simp [meaning, ho', ho, hs.itemAt_eq hsteady ho, henv]

theorem absFrame_steady (hs : s.Invariant) (hsteady : Steady s s' t) {f : Frame L C X} {gone : Option Nat}
    (h : s.Sound gone f) (hold : ∀ a ∈ f.held, s.Holds a) (hnew : ∀ a ∈ f.held, s'.Holds a) :
    s'.absFrame gone f = s.absFrame gone f := by
  have henv : f.env.bind s'.itemOf = f.env.bind s.itemOf := by
    cases he : f.env with
    | none => rfl
    | some e =>
        have h' := h.toAnchored.steady hs hnew hold hsteady
        exact itemOf_steady hs hsteady (h.holds hs.fresh hold he) (h'.holds hsteady.fresh hnew he)
  have htodo : f.todo.map (Arg.map s'.itemOf) = f.todo.map (Arg.map s.itemOf) := by
    refine List.map_congr_left fun arg harg => ?_
    cases arg with
    | foreign x => rfl
    | own a => exact congrArg Arg.own (itemOf_steady hs hsteady (hold a (h.own a harg)) (hnew a (h.own a harg)))
  have hvalues : f.ids.map (s'.valueAt gone) = f.ids.map (s.valueAt gone) := by
    refine List.map_congr_left fun id hid => ?_
    rw [valueAt, valueAt]
    by_cases hgone : gone = some id
    · rw [if_pos hgone, if_pos hgone]
    · rw [if_neg hgone, if_neg hgone]
      obtain ⟨n, hn⟩ := List.mem_iff_getElem?.mp hid
      rcases h.ids n id hn with hown | ⟨-, hdead | heq⟩
      · exact hown.itemAt_eq hs hsteady
      · rw [hdead.1, (hdead.steady hsteady).1]
      · exact absurd heq hgone
  simp only [absFrame, henv, htodo, hvalues]

theorem absAfter_steady (hs : s.Invariant) (hsteady : Steady s s' t) {k : After L C X} {gone : Option Nat}
    {held held' : List Nat} (h : s.AfterSound gone k) (hold : ∀ a ∈ held ++ k.refs, s.Holds a)
    (hnew : ∀ a ∈ held' ++ k.refs, s'.Holds a) : s'.absAfter gone k = s.absAfter gone k := by
  replace hold : ∀ a ∈ k.refs, s.Holds a := fun a ha => hold a (List.mem_append_right _ ha)
  replace hnew : ∀ a ∈ k.refs, s'.Holds a := fun a ha => hnew a (List.mem_append_right _ ha)
  cases k with
  | idle outcome => rfl
  | resolve f => exact congrArg LocalPlace.resolve (absFrame_steady hs hsteady h hold hnew)
  | assign dst a =>
      have ha : a ∈ (After.assign dst a : After L C X).refs := List.mem_singleton_self a
      exact congrArg (LocalPlace.assign dst) (meaning_steady hs hsteady (hold a ha) (hnew a ha))

/-- What a handler is at, when the numbers of the request are as before. -/
theorem absHandler_congr {k : LocalKont E V L X} {h : Handler E V L} {op : Operation L} {ids : List Nat}
    (hasks : s.Asks op ids h) (hids : ∀ id ∈ ids, s'.server.itemAt id = s.server.itemAt id)
    (hreply : ∀ id, h = .replied (.made id) → s'.server.itemAt id = s.server.itemAt id) :
    s'.absHandler k h = s.absHandler k h := by
  have hmap : ids.map s'.server.itemAt = ids.map s.server.itemAt := List.map_congr_left hids
  cases h with
  | sent req =>
      cases hasks
      exact congrArg (LocalPlace.asked op · k) hmap
  | received req =>
      cases hasks
      exact congrArg (LocalPlace.asked op · k) hmap
  | looking op' ids' found =>
      obtain ⟨rfl, rfl, -⟩ := hasks
      exact congrArg (LocalPlace.asked op' · k) hmap
  | registering item => rfl
  | replied answer =>
      cases answer with
      | made id => simp [absHandler, Answer.map, hreply id rfl]
      | _ => rfl
  | destroyed => rfl

/-- A thread that does not move is at the same place. -/
theorem absPlace_steady (hs : s.Invariant) (hsteady : Steady s s' t) {p : Place E V L C X} (h : s.Placed p)
    (hold : ∀ a ∈ p.refs, s.Holds a) (hnew : ∀ a ∈ p.refs, s'.Holds a)
    (howned : ∀ id kind, p.owned = some (id, kind) → s'.server.itemAt id = s.server.itemAt id) :
    s'.absPlace p = s.absPlace p := by
  cases h with
  | drop hk =>
      exact absAfter_steady hs hsteady hk hold hnew
  | destroyed hk hdestroys =>
      exact absAfter_steady hs hsteady hk hold hnew
  | @serves c h k op ids hserves hasks =>
      have hids := hserves.itemAt_eq hs hsteady
      have hreply : ∀ id, h = .replied (.made id) → s'.server.itemAt id = s.server.itemAt id := by
        rintro id rfl
        exact howned id _ rfl
      cases k with
      | main f =>
          rw [absPlace, absPlace, absFrame_steady hs hsteady hserves.1 hold hnew]
          exact absHandler_congr hasks hids hreply
      | converting f =>
          rw [absPlace, absPlace, absFrame_steady hs hsteady hserves.1 hold hnew]
          exact absHandler_congr hasks hids hreply
      | destroyed held k => exact hserves.elim

end System

end PothosCore.Remote.Handles

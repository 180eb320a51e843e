import PothosCore.Remote.HandleCustody

/-!
# PothosCore.Remote.HandleInvariant

Every step keeps the invariant of the numbers and pointers, as long as the counter of the
server does not wrap. What a step does to the others is small (`System.Steady`): the
objects that there are pointers to stay, and the map keeps all that it has but for the
number of a destructor's request; so a thread finds what it was at as it left it.
-/

namespace PothosCore.Remote.Handles

open Lib

variable {W E V L H C T X : Type}

namespace System

variable {s s' : System W E V L C T X} {t : T}

/-! ### The objects -/

theorem Invariant.kept (hs : s.Invariant) (h : Pointers s s') {a : Nat} {o : ClientObject C} (ho : s.heap a = some o)
    (hholds : s'.Holds a) : s'.heap a = some o := by
  cases h with
  | same heap next holds => rw [heap, ho]
  | made o' heap next holds environment =>
      have ha : a ≠ s.next := fun heq => by simp [heq, hs.fresh s.next (Nat.le_refl _)] at ho
      rw [heap, Function.update_of_ne ha, ho]
  | deleted b heap next holds =>
      rw [heap, Function.update_of_ne ((holds a).mp hholds).2, ho]

theorem Invariant.fresh_of (hs : s.Invariant) (h : Pointers s s') (a : Nat) (ha : s'.next ≤ a) : s'.heap a = none := by
  cases h with
  | same heap next holds => rw [heap, hs.fresh a (next ▸ ha)]
  | made o heap next holds environment =>
      rw [next] at ha
      rw [heap, Function.update_of_ne (by omega), hs.fresh a (by omega)]
  | deleted b heap next holds =>
      rw [heap, Function.update_apply, hs.fresh a (next ▸ ha), ite_self]

theorem Invariant.held_of (hs : s.Invariant) (h : Pointers s s') (a : Nat) : s'.Holds a ↔ ∃ o, s'.heap a = some o := by
  cases h with
  | same heap next holds => rw [holds, heap, hs.held]
  | made o heap next holds environment =>
      rw [holds, heap, hs.held]
      by_cases ha : a = s.next <;> simp [ha]
  | deleted b heap next holds =>
      rw [holds, heap, hs.held]
      by_cases ha : a = b <;> simp [ha]

theorem Invariant.environment_of (hs : s.Invariant) (h : Pointers s s') {a e : Nat} {o o' : ClientObject C}
    (ho : s'.heap a = some o) (he : o.env = some e) (ho' : s'.heap e = some o') : o'.env = none := by
  cases h with
  | same heap next holds =>
      rw [heap] at ho ho'
      exact hs.environment a o e o' ho he ho'
  | deleted b heap next holds =>
      rw [heap, Function.update_apply] at ho ho'
      split at ho
      · cases ho
      · split at ho'
        · cases ho'
        · exact hs.environment a o e o' ho he ho'
  | made new heap next holds environment =>
      -- nothing has a pointer to an address that is free
      have hnot : ¬ s.Holds s.next := fun hholds => by
        obtain ⟨o₀, ho₀⟩ := (hs.held _).mp hholds
        simp [hs.fresh s.next (Nat.le_refl _)] at ho₀
      rw [heap, Function.update_apply] at ho ho'
      by_cases han : a = s.next
      · rw [if_pos han] at ho
        cases ho
        obtain ⟨hholds, hnone⟩ := environment e he
        have hen : e ≠ s.next := fun heq => hnot (heq ▸ hholds)
        rw [if_neg hen] at ho'
        exact hnone o' ho'
      · rw [if_neg han] at ho
        have hholds : s.Holds e := by
          refine .inr (.inr ⟨a, ?_, by simp [ho, he]⟩)
          by_contra hle
          simp [hs.fresh a (by omega)] at ho
        have hen : e ≠ s.next := fun heq => hnot (heq ▸ hholds)
        rw [if_neg hen] at ho'
        exact hs.environment a o e o' ho he ho'

theorem Invariant.start (w : W) : (start w : System W E V L C T X).Invariant where
  custody := by
    refine ⟨fun {o o' i} ho => ?_, fun i => ?_⟩
    · cases o <;> simp [owned, System.start, Place.owned] at ho
    · constructor
      · rintro ⟨item, hitem, -⟩
        simp [System.start, Server.itemAt] at hitem
      · rintro ⟨o, ho⟩
        cases o <;> simp [owned, System.start, Place.owned] at ho
  numbered id hid := by simp [System.start, Server.itemAt] at hid
  fresh a ha := rfl
  held a := by simp [System.start, Holds, Place.refs, After.refs]
  environment a o e o' ho := by simp [System.start] at ho
  placed t := .drop trivial

/-! ### What stays -/

/-- What a step of a thread leaves to the others. -/
structure Steady (s s' : System W E V L C T X) (t : T) : Prop where
  heap : ∀ a o, s.heap a = some o → s'.Holds a → s'.heap a = some o
  fresh : ∀ a, s'.next ≤ a → s'.heap a = none
  items : ∀ id, id ≤ s.server.id → s'.server.itemAt id = s.server.itemAt id ∨
    s'.server.itemAt id = none ∧ ∃ kind, s.owned (.thread t) = some (id, kind)
  id_le : s.server.id ≤ s'.server.id

theorem Dead.steady {id : Nat} (h : s.Dead id) (hsteady : Steady s s' t) : s'.Dead id := by
  refine ⟨?_, h.2.trans hsteady.id_le⟩
  rcases hsteady.items id h.2 with heq | ⟨hnone, -⟩
  · rw [heq, h.1]
  · exact hnone

/-- A number has one owner. -/
theorem Invariant.owner_eq (hs : s.Invariant) {o o' : Owner T} {id : Nat} {kind kind' : Kind}
    (h : s.owned o = some (id, kind)) (h' : s.owned o' = some (id, kind')) : o = o' := by
  obtain ⟨item, hitem, hkind⟩ := (hs.custody.out_iff _).mpr ⟨_, h⟩
  obtain ⟨item', hitem', hkind'⟩ := (hs.custody.out_iff _).mpr ⟨_, h'⟩
  obtain rfl : item = item' := Option.some.inj (hitem.symm.trans hitem')
  have hkinds : kind' = kind := hkind'.symm.trans hkind
  exact hs.custody.unique h (hkinds ▸ h')

theorem Invariant.le_of_owned (hs : s.Invariant) {o : Owner T} {id : Nat} {kind : Kind}
    (h : s.owned o = some (id, kind)) : id ≤ s.server.id := by
  obtain ⟨item, hitem, -⟩ := (hs.custody.out_iff _).mpr ⟨_, h⟩
  exact hs.numbered id fun hnone => by simp [hnone] at hitem

/-- The number of an owner is as before, but for that of the thread that moves. -/
theorem Invariant.itemAt_of_owned (hs : s.Invariant) (hsteady : Steady s s' t) {o : Owner T} {id : Nat} {kind : Kind}
    (h : s.owned o = some (id, kind)) (ho : o ≠ .thread t) : s'.server.itemAt id = s.server.itemAt id := by
  rcases hsteady.items id (hs.le_of_owned h) with heq | ⟨-, kind', hthread⟩
  · exact heq
  · exact absurd (hs.owner_eq h hthread) ho

/-- The number of an object is there, and no thread's request is about it. -/
theorem Invariant.itemAt_eq (hs : s.Invariant) (hsteady : Steady s s' t) {a : Nat} {o : ClientObject C}
    (ho : s.heap a = some o) : s'.server.itemAt o.remoteID = s.server.itemAt o.remoteID := by
  have howned : s.owned (.object a) = some (o.remoteID, o.kind) := by simp [owned, ho, ClientObject.token]
  refine hs.itemAt_of_owned hsteady howned fun heq => ?_
  cases heq

theorem Own.steady {held : List Nat} {id : Nat} {kind : Kind} (h : s.Own held id kind)
    (hheld : ∀ a ∈ held, s'.Holds a) (hsteady : Steady s s' t) : s'.Own held id kind := by
  obtain ⟨a, ha, o, ho, htoken⟩ := h
  exact ⟨a, ha, o, hsteady.heap a o ho (hheld a ha), htoken⟩

theorem Own.itemAt_eq {held : List Nat} {id : Nat} {kind : Kind} (h : s.Own held id kind) (hs : s.Invariant)
    (hsteady : Steady s s' t) : s'.server.itemAt id = s.server.itemAt id := by
  obtain ⟨a, -, o, ho, htoken⟩ := h
  obtain rfl : o.remoteID = id := congrArg Prod.fst htoken
  exact hs.itemAt_eq hsteady ho

theorem ArgsFit.steady {op : Operation L} {n : Nat} {args : List (Arg Nat L)} (h : s.ArgsFit op n args)
    (hheld : ∀ a, .own a ∈ args → s'.Holds a) (hsteady : Steady s s' t) : s'.ArgsFit op n args := by
  intro i hi
  have hfit := h i hi
  rw [List.getElem?_eq_getElem hi, Option.bind_some] at hfit ⊢
  have hmem := List.getElem_mem hi
  generalize args[i] = arg at hfit hmem
  cases arg with
  | foreign x => exact hfit
  | own a =>
      obtain ⟨o, ho, hkind⟩ := Option.map_eq_some_iff.mp hfit
      simp [argKind, hsteady.heap a o ho (hheld a hmem), hkind]

theorem Anchored.steady {f : Frame L C X} (h : s.Anchored f) (hs : s.Invariant) (hheld : ∀ a ∈ f.held, s'.Holds a)
    (hold : ∀ a ∈ f.held, s.Holds a) (hsteady : Steady s s' t) : s'.Anchored f := by
  have hanchor : ∀ e, f.env = some e → ∃ a ∈ f.held, a = e ∨ (s'.heap a).bind (·.env) = some e := by
    intro e he
    obtain ⟨a, ha, rfl | hae⟩ := h.anchor e he
    · exact ⟨a, ha, .inl rfl⟩
    · obtain ⟨o, ho, hoe⟩ := Option.bind_eq_some_iff.mp hae
      exact ⟨a, ha, .inr (by simp [hsteady.heap a o ho (hheld a ha), hoe])⟩
  refine ⟨hanchor, fun e o he ho => ?_⟩
  have hholds' : s'.Holds e := by
    obtain ⟨a, ha, rfl | hae⟩ := hanchor e he
    · exact hheld a ha
    · refine .inr (.inr ⟨a, ?_, hae⟩)
      by_contra hle
      simp [hsteady.fresh a (by omega)] at hae
  obtain ⟨o₀, ho₀⟩ := (hs.held e).mp (h.holds hs.fresh hold he)
  obtain rfl : o₀ = o := Option.some.inj ((hsteady.heap e o₀ ho₀ hholds').symm.trans ho)
  exact h.environment e o₀ he ho₀

theorem Sound.steady {f : Frame L C X} {gone : Option Nat} (h : s.Sound gone f) (hs : s.Invariant)
    (hheld : ∀ a ∈ f.held, s'.Holds a) (hold : ∀ a ∈ f.held, s.Holds a) (hsteady : Steady s s' t) :
    s'.Sound gone f where
  toAnchored := h.toAnchored.steady hs hheld hold hsteady
  takes := h.takes
  isMake := h.isMake
  own := h.own
  fit := h.fit.steady (fun a ha => hheld a (h.own a ha)) hsteady
  ids n id hid := by
    rcases h.ids n id hid with hown | ⟨hcall, hdead | hgone⟩
    · exact .inl (hown.steady hheld hsteady)
    · exact .inr ⟨hcall, .inl (hdead.steady hsteady)⟩
    · exact .inr ⟨hcall, .inr hgone⟩

/-- The numbers of a method are looked up as before. -/
theorem Sound.itemAt_eq {f : Frame L C X} (h : s.Sound none f) (hs : s.Invariant) (hsteady : Steady s s' t) {id : Nat}
    (hid : id ∈ f.ids) : s'.server.itemAt id = s.server.itemAt id := by
  obtain ⟨n, hn⟩ := List.mem_iff_getElem?.mp hid
  rcases h.ids n id hn with hown | ⟨-, hdead | hgone⟩
  · exact hown.itemAt_eq hs hsteady
  · rw [hdead.1, (hdead.steady hsteady).1]
  · cases hgone

/-- What a thread does after it has let go of some pointers. -/
theorem AfterSound.steady {k : After L C X} {gone : Option Nat} {held held' : List Nat} (h : s.AfterSound gone k)
    (hs : s.Invariant) (hheld : ∀ a ∈ held' ++ k.refs, s'.Holds a) (hold : ∀ a ∈ held ++ k.refs, s.Holds a)
    (hsteady : Steady s s' t) : s'.AfterSound gone k := by
  cases k with
  | resolve f =>
      exact Sound.steady h hs (fun a ha => hheld a (List.mem_append_right _ ha))
        (fun a ha => hold a (List.mem_append_right _ ha)) hsteady
  | idle outcome => trivial
  | assign dst a => trivial

theorem Looked.steady {op : Operation L} {ids : List Nat} {found : List (Item E V)} (h : s.Looked op ids found)
    (hitems : ∀ id ∈ ids, s'.server.itemAt id = s.server.itemAt id) : s'.Looked op ids found := by
  refine ⟨h.1, fun n item hn => ?_⟩
  obtain ⟨id, hid, hitem, hkind⟩ := h.2 n item hn
  exact ⟨id, hid, by rw [hitems id (List.mem_of_getElem? hid), hitem], hkind⟩

theorem Asks.steady {op : Operation L} {ids : List Nat} {h : Handler E V L} (hasks : s.Asks op ids h)
    (hitems : ∀ id ∈ ids, s'.server.itemAt id = s.server.itemAt id) : s'.Asks op ids h := by
  cases h with
  | looking op' ids' found =>
      obtain ⟨hop, rfl, hlooked⟩ := hasks
      exact ⟨hop, rfl, hlooked.steady hitems⟩
  | _ => exact hasks

theorem Serves.steady {op : Operation L} {ids : List Nat} {k : Kont L C X} (h : s.Serves op ids k) (hs : s.Invariant)
    (hheld : ∀ a ∈ k.refs, s'.Holds a) (hold : ∀ a ∈ k.refs, s.Holds a) (hsteady : Steady s s' t) :
    s'.Serves op ids k := by
  cases k with
  | main f => exact ⟨h.1.steady hs hheld hold hsteady, h.2⟩
  | converting f =>
      obtain ⟨hsound, x, todo, object, env, o, htodo, hx, henv, ho, hop, hids⟩ := h
      have hsound' := hsound.steady hs hheld hold hsteady
      have henvHeld : s'.Holds env := hsound'.holds hsteady.fresh hheld henv
      exact ⟨hsound', x, todo, object, env, o, htodo, hx, henv, hsteady.heap env o ho henvHeld, hop, hids⟩
  | destroyed held k => exact h.elim

theorem Serves.itemAt_eq {op : Operation L} {ids : List Nat} {k : Kont L C X} (h : s.Serves op ids k) (hs : s.Invariant)
    (hsteady : Steady s s' t) : ∀ id ∈ ids, s'.server.itemAt id = s.server.itemAt id := by
  cases k with
  | main f =>
      obtain ⟨hsound, -, -, rfl⟩ := h
      exact fun id hid => hsound.itemAt_eq hs hsteady hid
  | converting f =>
      obtain ⟨-, x, todo, object, env, o, -, -, -, ho, -, rfl⟩ := h
      intro id hid
      obtain rfl := List.mem_singleton.mp hid
      exact hs.itemAt_eq hsteady ho
  | destroyed held k => exact h.elim

/-- A thread that does not move is where it can be. -/
theorem Placed.steady {p : Place E V L C X} (h : s.Placed p) (hs : s.Invariant) (hheld : ∀ a ∈ p.refs, s'.Holds a)
    (hold : ∀ a ∈ p.refs, s.Holds a) (hsteady : Steady s s' t) : s'.Placed p := by
  cases h with
  | drop hk =>
      exact .drop (hk.steady hs hheld hold hsteady)
  | serves hserves hasks =>
      exact .serves (hserves.steady hs hheld hold hsteady) (hasks.steady (hserves.itemAt_eq hs hsteady))
  | destroyed hk hdestroys =>
      exact .destroyed (hk.steady hs hheld hold hsteady) hdestroys

/-! ### A move -/

/-- A method has gone through its next argument. -/
theorem Sound.next {f : Frame L C X} {arg : Arg Nat L} {todo : List (Arg Nat L)} {id : Nat} (h : s.Sound none f)
    (gone : Option Nat) (htodo : f.todo = arg :: todo)
    (hid : s.Own f.held id (f.op.kindAt f.ids.length) ∨ f.op.isCall = true ∧ (s.Dead id ∨ gone = some id)) :
    s.Sound gone { f with todo := todo, ids := f.ids ++ [id] } where
  toAnchored := ⟨h.anchor, h.environment⟩
  takes := by
    have htakes := h.takes
    rw [htodo] at htakes
    simpa [Nat.add_assoc, Nat.add_comm 1] using htakes
  isMake := h.isMake
  own a ha := h.own a (by rw [htodo]; exact List.mem_cons_of_mem _ ha)
  fit i hi := by
    have hfit := h.fit (i + 1) (by rw [htodo]; simpa using hi)
    rw [htodo] at hfit
    simpa [Nat.add_assoc, Nat.add_comm 1] using hfit
  ids n id' hn := by
    rw [List.getElem?_append] at hn
    split at hn
    · rcases h.ids n id' hn with hown | ⟨hcall, hdead | hgone⟩
      · exact .inl hown
      · exact .inr ⟨hcall, .inl hdead⟩
      · cases hgone
    · have hlen : n = f.ids.length := by
        by_contra hne
        rw [List.getElem?_eq_none (by simp; omega)] at hn
        cases hn
      subst hlen
      obtain rfl : id = id' := by simpa using hn
      exact hid

/-- More pointers do no harm. -/
theorem Sound.hold {f : Frame L C X} {gone : Option Nat} (h : s.Sound gone f) (a : Nat) :
    s.Sound gone { f with held := a :: f.held } where
  anchor e he := by
    obtain ⟨b, hb, hbe⟩ := h.anchor e he
    exact ⟨b, List.mem_cons_of_mem _ hb, hbe⟩
  environment := h.environment
  takes := h.takes
  isMake := h.isMake
  own b hb := List.mem_cons_of_mem _ (h.own b hb)
  fit := h.fit
  ids n id hn := (h.ids n id hn).imp_left fun ⟨b, hb, hown⟩ => ⟨b, List.mem_cons_of_mem _ hb, hown⟩

theorem AfterSound.weaken {k : After L C X} (h : s.AfterSound none k) (gone : Option Nat) : s.AfterSound gone k := by
  cases k with
  | resolve f =>
      refine { (h : s.Sound none f) with ids := fun n id hn => ?_ }
      rcases Sound.ids h n id hn with hown | ⟨hcall, hdead | hgone⟩
      · exact .inl hown
      · exact .inr ⟨hcall, .inl hdead⟩
      · cases hgone
  | idle outcome => trivial
  | assign dst a => trivial

/-- The number of a destructor is dead when the server has taken it back. -/
theorem AfterSound.dead {k : After L C X} {id : Nat} (h : s.AfterSound (some id) k) (hdead : s.Dead id) :
    s.AfterSound none k := by
  cases k with
  | resolve f =>
      refine { (h : s.Sound (some id) f) with ids := fun n id' hn => ?_ }
      rcases Sound.ids h n id' hn with hown | ⟨hcall, hdead' | hgone⟩
      · exact .inl hown
      · exact .inr ⟨hcall, .inl hdead'⟩
      · exact .inr ⟨hcall, .inl (by cases hgone; exact hdead)⟩
  | idle outcome => trivial
  | assign dst a => trivial

theorem Looked.append {op : Operation L} {ids : List Nat} {found : List (Item E V)} {id : Nat} {item : Item E V}
    (h : s.Looked op ids found) (hid : ids[found.length]? = some id) (hitem : s.server.itemAt id = some item)
    (hkind : item.kind = op.kindAt found.length) : s.Looked op ids (found ++ [item]) := by
  have hlt : found.length < ids.length := by
    by_contra hle
    rw [List.getElem?_eq_none (by omega)] at hid
    cases hid
  refine ⟨by simpa using Nat.succ_le_of_lt hlt, fun n item' hn => ?_⟩
  rw [List.getElem?_append] at hn
  split at hn
  · exact h.2 n item' hn
  · have hlen : n = found.length := by
      by_contra hne
      rw [List.getElem?_eq_none (by simp; omega)] at hn
      cases hn
    subst hlen
    obtain rfl : item = item' := by simpa using hn
    exact ⟨id, hid, hitem, hkind⟩

theorem asks_madeOr {op : Operation L} {ids : List Nat} {α : Type} {f : α → Item E V} {x : Except String α × W}
    (hgives : op.givesHandle = true) (hf : ∀ a, (f a).kind = op.makes) :
    s.Asks op ids (Handler.ofAnswer (Process.madeOr f x).1) := by
  obtain ⟨x | a, w⟩ := x
  · exact trivial
  · exact ⟨hgives, hf a⟩

theorem asks_objectOr {op : Operation L} {ids : List Nat} {x : Except String L × W} (hgives : op.givesHandle = false) :
    s.Asks op ids (Handler.ofAnswer (Process.objectOr x : Answer (Item E V) L × W).1) := by
  obtain ⟨x | a, w⟩ := x
  · exact trivial
  · exact hgives

theorem asks_calledOr {ids : List Nat} {name : String} {x : Except CallError V × W} :
    s.Asks (.call name) ids (Handler.ofAnswer (Process.calledOr x : Answer (Item E V) L × W).1) := by
  obtain ⟨(text | text) | proxy, w⟩ := x
  · exact rfl
  · exact trivial
  · exact ⟨rfl, rfl⟩

/-- What an action comes to is what its reply is for. -/
theorem perform_asks {P : Process W E V L} {op : Operation L} {ids : List Nat} {found : List (Item E V)} {w w' : W}
    {answer : Answer (Item E V) L} (h : P.perform op found w = .ok (answer, w')) :
    s.Asks op ids (Handler.ofAnswer answer) := by
  have hanswer : ∀ {x : Answer (Item E V) L × W}, Except.ok x = (Except.ok (answer, w') : Except Fault _) →
      s.Asks op ids (Handler.ofAnswer x.1) → s.Asks op ids (Handler.ofAnswer answer) := by
    intro x hx hasks
    cases hx
    exact hasks
  rw [Process.perform.eq_def] at h
  split at h
  case h_1 | h_2 | h_3 => exact hanswer h (asks_madeOr rfl fun _ => rfl)
  case h_4 | h_6 | h_7 | h_8 | h_9 => exact hanswer h (asks_objectOr rfl)
  case h_5 =>
    split at h
    · exact hanswer h asks_calledOr
    · cases h
  case h_10 => cases h

/-- The environment of a method is that of the object that it is called on. -/
theorem Begun.anchored {dst : X} {op : Operation L} {c : C} {f : Frame L C X} (h : s.Begun dst op f) (hs : s.Invariant)
    (hscope : s.scope op c f.todo = some (f.env, f.connection)) : s.Anchored f ∧ op.isMake = f.env.isNone := by
  cases hmake : op.isMake with
  | true =>
      simp only [scope, hmake, if_true] at hscope
      obtain ⟨hnone, -⟩ := Prod.mk.inj (Option.some.inj hscope)
      have hnot : ∀ e, f.env ≠ some e := fun e he => by simp [← hnone] at he
      exact ⟨⟨fun e he => absurd he (hnot e), fun e o he => absurd he (hnot e)⟩, by simp [← hnone]⟩
  | false =>
      simp only [scope, hmake, Bool.false_eq_true, if_false] at hscope
      split at hscope
      case h_2 => cases hscope
      case h_1 a todo htodo =>
        obtain ⟨o, ho, hscope⟩ := Option.map_eq_some_iff.mp hscope
        have henv : f.env = some (o.env.getD a) := (Prod.mk.inj hscope).1.symm
        have ha : a ∈ f.held := by
          rw [h.held, mem_held, htodo]
          exact List.mem_cons_self
        refine ⟨⟨fun e he => ⟨a, ha, ?_⟩, fun e o' he ho' => ?_⟩, by simp [henv]⟩
        · rw [henv] at he
          cases hoe : o.env with
          | none => exact .inl (by simpa [hoe] using he)
          | some e' => exact .inr (by simpa [ho, hoe] using he)
        · rw [henv] at he
          cases hoe : o.env with
          | none =>
              obtain rfl : a = e := by simpa [hoe] using he
              obtain rfl : o = o' := Option.some.inj (ho.symm.trans ho')
              exact hoe
          | some e' =>
              obtain rfl : e' = e := by simpa [hoe] using he
              exact hs.environment a o e' o' ho hoe ho'

theorem Begun.sound {dst : X} {op : Operation L} {c : C} {f : Frame L C X} (h : s.Begun dst op f) (hs : s.Invariant)
    (hscope : s.scope op c f.todo = some (f.env, f.connection)) : s.Sound none f where
  toAnchored := (h.anchored hs hscope).1
  takes := by simpa [h.ids, h.op_eq] using h.takes
  isMake := h.op_eq ▸ (h.anchored hs hscope).2
  own a ha := by rwa [h.held, mem_held]
  fit := by simpa [h.ids, h.op_eq] using h.fit
  ids n id hn := by simp [h.ids] at hn

theorem Placed.anchors {p : Place E V L C X} (h : s.Placed p) : s.Anchors p := by
  cases h with
  | drop hk => trivial
  | @serves c h k op ids hserves hasks =>
      cases k with
      | main f => exact hserves.1.toAnchored
      | converting f => exact hserves.1.toAnchored
      | destroyed held k => exact hserves.elim
  | destroyed hk hdestroys => trivial

/-- The handler goes on with a request of a method. -/
theorem Placed.serve {c : C} {h h' : Handler E V L} {k : Kont L C X} (hplaced : s.Placed (.transact c h k))
    (hs : s.Invariant) (hheld : ∀ a ∈ k.refs, s'.Holds a) (hold : ∀ a ∈ k.refs, s.Holds a) (hsteady : Steady s s' t)
    (hnot : ¬ Destroys h) (hasks : ∀ op ids, s.Asks op ids h → s.Asks op ids h') : s'.Placed (.transact c h' k) := by
  cases hplaced with
  | @serves _ _ _ op ids hserves h₀ =>
      exact .serves (hserves.steady hs hheld hold hsteady) ((hasks op ids h₀).steady (hserves.itemAt_eq hs hsteady))
  | destroyed hk hdestroys => exact absurd hdestroys hnot

variable [DecidableEq T] [DecidableEq X] {P : Process W E V L} {e : Action L C T X} {p p' : Place E V L C X}
  {change : Change W E V C X} {connections : C → Connection T}

/-- What a move does to the map: only a destructor's request takes a number from it. -/
theorem Moves.items (hwrap : s.server.id + 1 < 2 ^ 64) (h : Moves P s t e (s.thread t) change p')
    {id : Nat} (hid : id ≤ s.server.id) :
    (s.moved t change p' connections).server.itemAt id = s.server.itemAt id ∨
      (s.moved t change p' connections).server.itemAt id = none ∧ ∃ kind, s.owned (.thread t) = some (id, kind) := by
  generalize hp : s.thread t = p at h
  have howned : s.owned (.thread t) = p.owned := by rw [← hp]; rfl
  cases h with
  | @remove c kind n k =>
      have hitem :
          (s.moved t (.server (s.server.removeObjectAtId n)) (.transact c .destroyed k) connections).server.itemAt id =
          if id = n then none else s.server.itemAt id := Server.itemAt_removeObjectAtId n id
      by_cases hn : id = n
      · rw [hitem, if_pos hn]
        exact .inr ⟨rfl, kind, by rw [howned, hn]; rfl⟩
      · rw [hitem, if_neg hn]
        exact .inl rfl
  | null hlook hitem => exact .inl (Server.itemAt_getObjectAtId _ id)
  | @register c item k =>
      have hitem : (s.moved t (.server (s.server.getNewObjectId item).2)
          (.transact c (.replied (.made (s.server.getNewObjectId item).1)) k) connections).server.itemAt id =
          if id = s.server.id + 1 then some item else s.server.itemAt id := Server.itemAt_getNewObjectId hwrap item id
      rw [hitem, if_neg (by omega)]
      exact .inl rfl
  | _ => exact .inl rfl

theorem Moves.id_le (hwrap : s.server.id + 1 < 2 ^ 64) (h : Moves P s t e p change p') :
    s.server.id ≤ (s.moved t change p' connections).server.id := by
  cases h with
  | null hlook hitem => exact Nat.le_of_eq (Server.getObjectAtId_id _).symm
  | @register c item k =>
      have hid : (s.server.getNewObjectId item).2.id = s.server.id + 1 := by rw [Server.getNewObjectId_eq hwrap]
      exact Nat.le_of_lt (by simp [moved, apply, goto, hid])
  | _ => exact Nat.le_refl _

theorem Moves.numbered (hs : s.Invariant) (hwrap : s.server.id + 1 < 2 ^ 64) (h : Moves P s t e p change p') {id : Nat}
    (hid : (s.moved t change p' connections).server.itemAt id ≠ none) :
    id ≤ (s.moved t change p' connections).server.id := by
  cases h with
  | @remove c kind n k =>
      have hitem : (s.server.removeObjectAtId n).itemAt id ≠ none := hid
      rw [Server.itemAt_removeObjectAtId] at hitem
      exact hs.numbered id fun hnone => hitem (by simp [hnone])
  | @null c op ids found k n hlook hitem =>
      have hid' : s.server.itemAt id ≠ none := by
        rw [← Server.itemAt_getObjectAtId n id]
        exact hid
      exact (hs.numbered id hid').trans (Nat.le_of_eq (Server.getObjectAtId_id n).symm)
  | @register c item k =>
      have hnew : (s.server.getNewObjectId item).2.id = s.server.id + 1 := by rw [Server.getNewObjectId_eq hwrap]
      have hitem : (s.server.getNewObjectId item).2.itemAt id ≠ none := hid
      rw [Server.itemAt_getNewObjectId hwrap] at hitem
      have hle : id ≤ s.server.id + 1 := by
        by_cases hn : id = s.server.id + 1
        · exact Nat.le_of_eq hn
        · rw [if_neg hn] at hitem
          exact Nat.le_succ_of_le (hs.numbered id hitem)
      exact hnew ▸ hle
  | _ => exact hs.numbered id hid

theorem Moves.steady (hs : s.Invariant) (hwrap : s.server.id + 1 < 2 ^ 64) (h : Moves P s t e (s.thread t) change p')
    (connections : C → Connection T) :
    Steady s (s.moved t change p' connections) t := by
  have hpointers := h.pointers connections hs.fresh (hs.placed t).anchors
  exact ⟨fun a o => hs.kept hpointers, hs.fresh_of hpointers, fun id hid => h.items hwrap hid, h.id_le hwrap⟩

/-- The thread that has moved is where it can be. -/
theorem Moves.placed (hs : s.Invariant) (hwrap : s.server.id + 1 < 2 ^ 64) (h : Moves P s t e (s.thread t) change p')
    (connections : C → Connection T) :
    (s.moved t change p' connections).Placed p' := by
  have hsteady := h.steady hs hwrap connections
  have hplaced := hs.placed t
  have hold : ∀ a ∈ (s.thread t).refs, s.Holds a := fun a ha => .inr (.inl ⟨t, ha⟩)
  have hnew : ∀ a ∈ p'.refs, (s.moved t change p' connections).Holds a := fun a ha =>
    holds_moved.mpr (.inl ha)
  generalize hp : s.thread t = p at h hplaced hold
  cases h with
  | begin hidle hf =>
      obtain ⟨hbegun, -, hscope⟩ := begun_of_frame hf
      refine .drop ((hbegun.sound hs hscope).steady hs hnew (fun a ha => ?_) hsteady)
      rw [hbegun.held, mem_held] at ha
      exact .inl (hbegun.vars a ha)
  | copy hidle => exact .drop trivial
  | clear hidle => exact .drop trivial
  | assign => exact .drop trivial
  | foreignFails htodo hx => exact .drop trivial
  | made hgives => exact .drop trivial
  | finish hreturns => exact .drop trivial
  | convertFails htodo => exact .drop trivial
  | letGo hholds =>
      cases hplaced with
      | drop hk =>
          exact .drop (hk.steady hs hnew hold hsteady)
  | delete hgone ho =>
      cases hplaced with
      | drop hk =>
          exact .destroyed ((hk.weaken _).steady hs hnew hold hsteady) trivial
  | send htodo =>
      cases hplaced with
      | drop hk => exact .serves ⟨Sound.steady hk hs hnew hold hsteady, htodo, rfl, rfl⟩ rfl
  | @own f a todo o htodo ho =>
      cases hplaced with
      | drop hk =>
          have hsound : s.Sound none f := hk
          have ha : a ∈ f.held := hsound.own a (by rw [htodo]; exact List.mem_cons_self)
          have hkind : o.kind = f.op.kindAt f.ids.length := by
            have hfit := hsound.fit 0 (by simp [htodo])
            simpa [htodo, argKind, ho] using hfit
          have hnext := hsound.next none htodo (.inl ⟨a, ha, o, ho, Prod.ext rfl hkind⟩)
          exact .drop (hnext.steady hs hnew hold hsteady)
  | @convert f x todo object env o htodo hx henv ho =>
      cases hplaced with
      | drop hk =>
          have hserves : s.Serves (.convertObjectToProxy object) [o.remoteID] (.converting f) :=
            ⟨hk, x, todo, object, env, o, htodo, hx, henv, ho, rfl, rfl⟩
          exact .serves (hserves.steady hs hnew hold hsteady) rfl
  | @convertedCall c f id x todo htodo hcall =>
      cases hplaced with
      | serves hserves hasks =>
          have hsound := hserves.1.next (some id) htodo (.inr ⟨hcall, .inr rfl⟩)
          exact .destroyed (hsound.steady hs (fun a ha => hnew a (List.mem_append_right _ ha)) hold hsteady) trivial
  | @converted c f id x todo htodo hcall =>
      cases hplaced with
      | serves hserves hasks =>
          have hheld : ∀ a ∈ f.held, (s.moved t (.make ⟨f.env, f.connection, id⟩) _ connections).Holds a :=
            fun a ha => hnew a (List.mem_cons_of_mem _ ha)
          have hsound := (hserves.1.steady hs hheld hold hsteady).hold s.next
          refine .drop (hsound.next none htodo (.inl ⟨s.next, List.mem_cons_self,
            ⟨f.env, f.connection, id⟩, by simp [moved, apply, goto, make], ?_⟩))
          -- an argument is a proxy, and so is what a method of a handle makes
          have hkind : Kind.proxy = f.op.kindAt f.ids.length := by
            have hfit := hserves.1.fit 0 (by simp [htodo])
            simpa [htodo, argKind] using hfit
          cases henv : f.env with
          | none => exact absurd henv hserves.env_ne_none
          | some env => exact Prod.ext rfl hkind
  | destroyed =>
      cases hplaced with
      | serves hserves hasks => exact hasks.elim
      | destroyed hk hdestroys =>
          exact .drop (hk.steady hs hnew hold hsteady)
  | @take c req k =>
      cases hplaced with
      | serves hserves hasks =>
          exact .serves (hserves.steady hs hnew hold hsteady) hasks
      | destroyed hk hdestroys =>
          cases req with
          | operate op ids => exact hdestroys.elim
          | destroy kind id =>
              exact .destroyed (hk.steady hs hnew hold hsteady) trivial
  | operate =>
      refine hplaced.serve hs hnew hold hsteady id fun op' ids' hasks => ?_
      cases hasks
      exact ⟨rfl, rfl, Nat.zero_le _, fun n item hn => by simp at hn⟩
  | @remove c kind id k =>
      cases hplaced with
      | serves hserves hasks => cases hasks
      | @destroyed _ _ held k hk hdestroys =>
          have howned : s.owned (.thread t) = some (id, kind) := by simp [owned, hp, Place.owned]
          have hnone : (s.server.removeObjectAtId id).itemAt id = none := by simp [Server.itemAt_removeObjectAtId]
          have hk' := AfterSound.steady hk hs hnew hold hsteady
          exact .destroyed (hk'.dead ⟨hnone, hs.le_of_owned howned⟩) trivial
  | found hid hitem hkind =>
      refine hplaced.serve hs hnew hold hsteady id fun op' ids' hasks => ?_
      obtain ⟨rfl, rfl, hlooked⟩ := hasks
      exact ⟨rfl, rfl, hlooked.append hid hitem hkind⟩
  | wrongKind hid hitem hkind => exact hplaced.serve hs hnew hold hsteady id fun _ _ _ => trivial
  | null hid hitem => exact hplaced.serve hs hnew hold hsteady id fun _ _ _ => trivial
  | perform hid hperform =>
      refine hplaced.serve hs hnew hold hsteady id fun op' ids' hasks => ?_
      obtain ⟨rfl, rfl, -⟩ := hasks
      exact perform_asks hperform
  | register => exact hplaced.serve hs hnew hold hsteady id fun op' ids' hasks => hasks.1

/-- **A move keeps the invariant.** -/
theorem Invariant.moved (hs : s.Invariant) (hwrap : s.server.id + 1 < 2 ^ 64)
    (h : Moves P s t e (s.thread t) change p') (connections : C → Connection T) :
    (s.moved t change p' connections).Invariant := by
  have hpointers := h.pointers connections hs.fresh (hs.placed t).anchors
  have hsteady := h.steady hs hwrap connections
  refine ⟨h.custody hs hwrap connections, fun id hid => h.numbered hs hwrap hid, hs.fresh_of hpointers,
    hs.held_of hpointers, fun a o e o' => hs.environment_of hpointers, fun u => ?_⟩
  by_cases hu : u = t
  · subst hu
    simpa using h.placed hs hwrap connections
  · have hsame : (s.moved t change p' connections).thread u = s.thread u := by simp [hu]
    rw [hsame]
    refine (hs.placed u).steady hs (fun a ha => ?_) (fun a ha => .inr (.inl ⟨u, ha⟩)) hsteady
    exact .inr (.inl ⟨u, by rw [hsame]; exact ha⟩)

variable [DecidableEq C] [Fintype T] [Fintype X]

/-- The counter of the server does not wrap in the next step. -/
def Unwrapped (s : System W E V L C T X) (_ : Action L C T X) : Prop := s.server.id + 1 < 2 ^ 64

theorem Invariant.step (hs : s.Invariant) (hwrap : s.server.id + 1 < 2 ^ 64) (h : s.Step P e s') : s'.Invariant := by
  obtain ⟨t, change, p', connections, hmoves, rfl⟩ := step_cases h
  exact hs.moved hwrap hmoves connections

theorem Invariant.run {w : W} {acts : List (Action L C T X)}
    (h : Exec (restrict (Step P) Unwrapped) (System.start w) acts s) :
    s.Invariant :=
  h.invariant (fun _ _ _ hs hstep => hs.step hstep.2 hstep.1) (Invariant.start w)

end System

end PothosCore.Remote.Handles

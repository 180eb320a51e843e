import PothosCore.Remote.HandleMeaning

/-!
# PothosCore.Remote.HandleTransparency

Remote proxies do what local ones do: every run of the server and its clients is a run of
the system without a server, with the same calls in the same order, the same actions done
on the same objects, and the same outcomes (`remote_refines`).
-/

namespace PothosCore.Remote.Handles

open Lib

variable {W E V L H H' C T X : Type}

@[simp] theorem Arg.map_map {H'' : Type} (g : H' → H'') (f : H → H') (arg : Arg H L) :
    (arg.map f).map g = arg.map fun h => g (f h) := by
  cases arg <;> rfl

namespace System

variable {s s' : System W E V L C T X} {t : T} {P : Process W E V L}

/-! ### A method is called -/

theorem Invariant.meaning_some (hs : s.Invariant) {a : Nat} {o : ClientObject C} (ho : s.heap a = some o) :
    ∃ p, s.meaning a = some p ∧ s.itemOf a = some p.item ∧ p.item.kind = o.kind ∧
      p.env = (o.env.bind s.itemOf).getD p.item := by
  obtain ⟨item, hitem, hkind⟩ := hs.itemOf_some ho
  exact ⟨⟨item, (o.env.bind s.itemOf).getD item⟩, by simp [meaning, ho, hitem], by simp [itemOf, ho, hitem], hkind, rfl⟩

/-- The arguments mean what the proxies in the variables are. -/
theorem loadArgs_abs (hs : s.Invariant) {args : List (Arg X L)} {todo : List (Arg Nat L)}
    (h : s.loadArgs args = some todo) : ∃ largs, s.abs.loadArgs args = some largs ∧
      largs.map (Arg.map some) = todo.map (Arg.map s.meaning) := by
  induction args generalizing todo with
  | nil =>
      cases h
      exact ⟨[], rfl, rfl⟩
  | cons arg args ih =>
      cases arg with
      | own x =>
          obtain ⟨a, ha, h⟩ := Option.bind_eq_some_iff.mp h
          obtain ⟨rest, hrest, rfl⟩ := Option.map_eq_some_iff.mp h
          obtain ⟨largs, hlargs, heq⟩ := ih hrest
          obtain ⟨o, ho⟩ := (hs.held a).mp (.inl ⟨x, ha⟩)
          obtain ⟨p, hp, -⟩ := hs.meaning_some ho
          have hvar : s.abs.vars x = some p := by simp [abs, ha, hp]
          exact ⟨.own p :: largs, by simp [LocalSystem.loadArgs, hvar, hlargs], by simp [Arg.map, hp, heq]⟩
      | foreign x =>
          obtain ⟨rest, hrest, rfl⟩ := Option.map_eq_some_iff.mp h
          obtain ⟨largs, hlargs, heq⟩ := ih hrest
          exact ⟨.foreign x :: largs, by simp [LocalSystem.loadArgs, hlargs], by simp [Arg.map, heq]⟩

theorem meaning_item (a : Nat) : (s.meaning a).map LocalProxy.item = s.itemOf a := by
  cases ho : s.heap a with
  | none => simp [meaning, itemOf, ho]
  | some o => cases hitem : s.server.itemAt o.remoteID <;> simp [meaning, itemOf, ho, hitem]

/-- An argument of the one system and the same of the other. -/
theorem arg_abs (hs : s.Invariant) {arg : Arg Nat L} {larg : Arg (LocalProxy E V) L}
    (h : larg.map some = arg.map s.meaning) {kind : Kind} (hkind : s.argKind arg = some kind) :
    LocalSystem.argKind larg = kind ∧ ∀ a, arg = .own a → ∃ p o, larg = .own p ∧ s.heap a = some o ∧
      s.itemOf a = some p.item ∧ p.env = (o.env.bind s.itemOf).getD p.item := by
  cases arg with
  | foreign x =>
      cases larg with
      | own p => cases h
      | foreign y =>
          refine ⟨Option.some.inj hkind, fun a ha => ?_⟩
          cases ha
  | own a =>
      cases larg with
      | foreign y => cases h
      | own p =>
          obtain ⟨o, ho, hokind⟩ := Option.map_eq_some_iff.mp hkind
          obtain ⟨p', hp', hitem, hpkind, henv⟩ := hs.meaning_some ho
          obtain rfl : p = p' := by simpa [Arg.map, hp'] using h
          refine ⟨hpkind.trans hokind, fun b hb => ?_⟩
          cases hb
          exact ⟨p, o, rfl, ho, hitem, henv⟩

theorem scope_abs (hs : s.Invariant) {op : Operation L} {c : C} {todo : List (Arg Nat L)} {env : Option Nat}
    {connection : C}
    {largs : List (Arg (LocalProxy E V) L)} (heq : largs.map (Arg.map some) = todo.map (Arg.map s.meaning))
    (hfit : s.ArgsFit op 0 todo) (h : s.scope op c todo = some (env, connection)) :
    LocalSystem.scope op largs = some (env.bind s.itemOf) := by
  cases hmake : op.isMake with
  | true =>
      simp only [scope, hmake, if_true, Option.some.injEq, Prod.mk.injEq] at h
      simp [LocalSystem.scope, hmake, ← h.1]
  | false =>
      simp only [scope, hmake, Bool.false_eq_true, if_false] at h
      split at h
      case h_2 => cases h
      case h_1 a todo =>
        obtain ⟨o, ho, h⟩ := Option.map_eq_some_iff.mp h
        cases h
        cases largs with
        | nil => cases heq
        | cons larg largs =>
            obtain ⟨hhead, -⟩ := List.cons.inj heq
            obtain ⟨-, howns⟩ := arg_abs hs hhead (by simpa using hfit 0 (by simp))
            obtain ⟨p, o', rfl, ho', hitem, henv⟩ := howns a rfl
            obtain rfl : o = o' := Option.some.inj (ho.symm.trans ho')
            simp only [LocalSystem.scope, hmake, Bool.false_eq_true, if_false, Option.bind_some, Option.some.injEq,
              henv]
            cases hoe : o.env with
            | none => simp [hitem]
            | some e =>
                obtain ⟨oe, hoe'⟩ := (hs.held e).mp (holds_env hs.fresh ho hoe)
                obtain ⟨ie, hie, -⟩ := hs.itemOf_some hoe'
                simp [itemOf, hoe', hie]

theorem frame_abs (hs : s.Invariant) {dst : X} {op : Operation L} {c : C} {args : List (Arg X L)} {f : Frame L C X}
    (h : s.frame dst op c args = some f) : s.abs.frame dst op args = some (s.absFrame none f) := by
  obtain ⟨hbegun, hload, hscope⟩ := begun_of_frame h
  obtain ⟨largs, hlargs, heq⟩ := loadArgs_abs hs hload
  have hlength : largs.length = f.todo.length := by simpa using congrArg List.length heq
  have hfits : op.takes largs.length = true ∧ ∀ i < largs.length, (largs[i]?).map LocalSystem.argKind =
      some (op.kindAt i) := by
    refine ⟨hlength ▸ hbegun.takes, fun i hi => ?_⟩
    have hfit := hbegun.fit i (hlength ▸ hi)
    have hat := congrArg (·[i]?) heq
    rw [List.getElem?_eq_getElem (hlength ▸ hi), Option.bind_some, Nat.zero_add] at hfit
    simp only [List.getElem?_map, List.getElem?_eq_getElem hi,
      List.getElem?_eq_getElem (hlength ▸ hi : i < f.todo.length),
      Option.map_some, Option.some.injEq] at hat
    rw [List.getElem?_eq_getElem hi, Option.map_some, (arg_abs hs hat hfit).1]
  have htodo : largs.map (Arg.map fun p => some p.item) = f.todo.map (Arg.map s.itemOf) := by
    have := congrArg (List.map (Arg.map (Option.map LocalProxy.item))) heq
    simpa [Function.comp_def, meaning_item] using this
  rw [LocalSystem.frame, hlargs]
  simp only [Option.bind_eq_bind, Option.bind_some, scope_abs hs heq hbegun.fit hscope, if_pos hfits, htodo]
  simp [absFrame, hbegun.ids, hbegun.op_eq, hbegun.dst_eq]

/-! ### Places -/

theorem returns_map (op : Operation L) (f : H → H') (answer : Answer H L) :
    op.returns P (answer.map f) = (op.returns P answer).map (Sum.map f id) := by
  cases answer with
  | made h => cases hgives : op.givesHandle <;> simp [Answer.map, Operation.returns, hgives, Except.map]
  | object x => cases hgives : op.givesHandle <;> simp [Answer.map, Operation.returns, hgives, Except.map]
  | message text => cases hcall : op.isCall <;> simp [Answer.map, Operation.returns, hcall, Except.map]
  | errorMsg text => rfl

theorem absHandler_ofAnswer (k : LocalKont E V L X) (answer : Answer (Item E V) L) :
    s.absHandler k (Handler.ofAnswer answer) = .answered (answer.map some) k := by
  cases answer <;> rfl

theorem isIdle_abs {p : Place E V L C X} (h : isIdle p = true) : ∃ outcome, s.absPlace p = .idle outcome := by
  cases p with
  | transact c h k => cases h
  | drop held k =>
      cases held with
      | cons a held => cases h
      | nil =>
          cases k with
          | idle outcome => exact ⟨outcome, rfl⟩
          | resolve f => cases h
          | assign dst a => cases h

@[simp] theorem absFrame_todo (gone : Option Nat) (f : Frame L C X) :
    (s.absFrame gone f).todo = f.todo.map (Arg.map s.itemOf) := rfl

@[simp] theorem absFrame_op (gone : Option Nat) (f : Frame L C X) : (s.absFrame gone f).op = f.op := rfl

theorem absFrame_values (f : Frame L C X) : (s.absFrame none f).values = f.ids.map s.server.itemAt := by
  simp [absFrame, valueAt]

/-- A method has gone through its next argument. -/
theorem absFrame_next {f : Frame L C X} {gone : Option Nat} {arg : Arg Nat L} {todo : List (Arg Nat L)} {id : Nat}
    {held : List Nat} (htodo : f.todo = arg :: todo) :
    s.absFrame gone { f with held := held, todo := todo, ids := f.ids ++ [id] } =
      { s.absFrame gone f with
        todo := (s.absFrame gone f).todo.tail
        values := (s.absFrame gone f).values ++ [s.valueAt gone id] } := by
  simp [absFrame, htodo]

/-- A number that is gone, and that the method does not have. -/
theorem absFrame_gone {f : Frame L C X} {id : Nat} (hid : id ∉ f.ids) : s.absFrame (some id) f = s.absFrame none f := by
  have hvalues : f.ids.map (s.valueAt (some id)) = f.ids.map (s.valueAt none) := by
    refine List.map_congr_left fun n hn => ?_
    have hne : id ≠ n := fun heq => hid (heq ▸ hn)
    simp [valueAt, hne]
  simp only [absFrame, hvalues]

/-- A number with an object that is not one of the method's is not among its numbers. -/
theorem Sound.not_mem {f : Frame L C X} (h : s.Sound none f) (hs : s.Invariant) {o : Owner T} {id : Nat} {kind : Kind}
    (howned : s.owned o = some (id, kind)) (hnot : ∀ a ∈ f.held, o ≠ .object a) : id ∉ f.ids := by
  intro hid
  obtain ⟨n, hn⟩ := List.mem_iff_getElem?.mp hid
  rcases h.ids n id hn with ⟨a, ha, oa, hoa, htoken⟩ | ⟨-, hdead | heq⟩
  · have hobject : s.owned (.object a) = some (id, f.op.kindAt n) := by simp [owned, hoa, htoken]
    exact hnot a ha (hs.owner_eq howned hobject)
  · obtain ⟨item, hitem, -⟩ := (hs.custody.out_iff _).mpr ⟨_, howned⟩
    simp [hdead.1] at hitem
  · cases heq

/-- The handler is at the same point of a request of a method. -/
theorem absPlace_serves (hs : s.Invariant) (hsteady : Steady s s' t) {op : Operation L} {ids : List Nat}
    {k : Kont L C X} (hserves : s.Serves op ids k) (hold : ∀ a ∈ k.refs, s.Holds a) (hnew : ∀ a ∈ k.refs, s'.Holds a)
    {c : C} {h : Handler E V L} : ∃ lk, s.absPlace (.transact c h k) = s.absHandler lk h ∧
      ∀ h', s'.absPlace (.transact c h' k) = s'.absHandler lk h' := by
  cases k with
  | main f =>
      refine ⟨.main (s.absFrame none f), rfl, fun h' => ?_⟩
      rw [absPlace, absFrame_steady hs hsteady hserves.1 hold hnew]
  | converting f =>
      refine ⟨.converting (s.absFrame none f), rfl, fun h' => ?_⟩
      rw [absPlace, absFrame_steady hs hsteady hserves.1 hold hnew]
  | destroyed held k => exact hserves.elim

/-- Every number of a request that is served has the object that it is looked up as, but
for the converted arguments of a call, which have none. -/
theorem Serves.lookup (hs : s.Invariant) {op : Operation L} {ids : List Nat} {k : Kont L C X}
    (h : s.Serves op ids k) {n id : Nat} (hid : ids[n]? = some id) :
    (∃ item, s.server.itemAt id = some item ∧ item.kind = op.kindAt n) ∨
      op.isCall = true ∧ s.server.itemAt id = none := by
  cases k with
  | main f =>
      obtain ⟨hsound, -, rfl, rfl⟩ := h
      rcases hsound.ids n id hid with ⟨a, ha, o, ho, htoken⟩ | ⟨hcall, hdead | heq⟩
      · obtain ⟨item, hitem, hkind⟩ := hs.itemOf_some ho
        obtain ⟨rfl, hokind⟩ := Prod.mk.inj htoken
        exact .inl ⟨item, hitem, hkind.trans hokind⟩
      · exact .inr ⟨hcall, hdead.1⟩
      · cases heq
  | converting f =>
      obtain ⟨hsound, x, todo, object, env, o, -, -, henv, ho, rfl, rfl⟩ := h
      obtain ⟨item, hitem, hkind⟩ := hs.itemOf_some ho
      have hn : n = 0 := by
        by_contra hne
        rw [List.getElem?_eq_none (by simp; omega)] at hid
        cases hid
      subst hn
      cases hid
      refine .inl ⟨item, hitem, ?_⟩
      rw [hkind, ClientObject.kind, hsound.environment env o henv ho]
      rfl
  | destroyed held k => exact h.elim

/-- A number that the map has not, and one whose destructor has been called, are the same. -/
theorem absAfter_dead {k : After L C X} {id : Nat} (h : s.server.itemAt id = none) :
    s.absAfter (some id) k = s.absAfter none k := by
  cases k with
  | idle outcome => rfl
  | assign dst a => rfl
  | resolve f =>
      have hvalues : f.ids.map (s.valueAt (some id)) = f.ids.map (s.valueAt none) := by
        refine List.map_congr_left fun n _ => ?_
        by_cases hn : id = n
        · simp [valueAt, ← hn, h]
        · simp [valueAt, hn]
      simp only [absAfter, absFrame, hvalues]

/-- The numbers of a request stand for what was looked up. -/
theorem Looked.map_itemAt {op : Operation L} {ids : List Nat} {found : List (Item E V)} (h : s.Looked op ids found)
    (hall : ids[found.length]? = none) : ids.map s.server.itemAt = found.map some := by
  obtain ⟨hlen, hitems⟩ := h.items hall
  refine List.ext_getElem (by simp [hlen]) fun n hn hn' => ?_
  rw [List.length_map] at hn
  obtain ⟨item, hitem, hat⟩ := hitems n hn
  obtain ⟨hlt, rfl⟩ := List.getElem?_eq_some_iff.mp hitem
  rw [List.getElem_map, List.getElem_map, ← hat, List.getD_eq_getElem?_getD, List.getElem?_eq_getElem hn,
    Option.getD_some]

theorem allItems_eq_none {values : List (Option (Item E V))} (h : none ∈ values) : allItems values = none := by
  induction values with
  | nil => cases h
  | cons value values ih =>
      cases value with
      | none => rfl
      | some item =>
          rcases List.mem_cons.mp h with heq | h
          · cases heq
          · simp [allItems, ih h]

theorem allItems_some (items : List (Item E V)) : allItems (items.map some) = some items := by
  induction items with
  | nil => rfl
  | cons item items ih => simp [allItems, ih]

theorem abs_start (w : W) : (start w : System W E V L C T X).abs = LocalSystem.start w :=
  LocalSystem.ext rfl rfl rfl

/-! ### A move, seen without the server -/

variable [DecidableEq T] [DecidableEq X] {e : Action L C T X} {p p' : Place E V L C X}
  {change : Change W E V C X} {connections : C → Connection T}

/-- What a variable has after a move was there before. -/
theorem Moves.vars_holds (h : Moves P s t e (s.thread t) change p') {x : X} {a : Nat}
    (ha : (s.apply change).vars x = some a) : s.Holds a := by
  generalize hp : s.thread t = p at h
  cases h with
  | @copy dst src hidle =>
      simp only [apply, Function.update_apply] at ha
      split at ha
      · exact .inl ⟨_, ha⟩
      · exact .inl ⟨x, ha⟩
  | @clear dst hidle =>
      simp only [apply, Function.update_apply] at ha
      split at ha
      · cases ha
      · exact .inl ⟨x, ha⟩
  | @assign dst b =>
      simp only [apply, Function.update_apply] at ha
      split at ha
      · obtain rfl := Option.some.inj ha
        exact .inr (.inl ⟨t, by rw [hp]; exact List.mem_singleton_self _⟩)
      · exact .inl ⟨x, ha⟩
  | _ => exact .inl ⟨x, ha⟩

/-- The other threads and the variables are as before. -/
theorem Moves.abs_moved (hs : s.Invariant) (hwrap : s.server.id + 1 < 2 ^ 64)
    (h : Moves P s t e (s.thread t) change p') :
    (s.moved t change p' connections).abs =
      ⟨(s.apply change).server.world, fun x => ((s.apply change).vars x).bind s.meaning,
        Function.update s.abs.thread t ((s.moved t change p' connections).absPlace p')⟩ := by
  have hsteady := h.steady hs hwrap connections
  have hvars : (s.moved t change p' connections).abs.vars = fun x => ((s.apply change).vars x).bind s.meaning := by
    funext x
    cases hx : (s.apply change).vars x with
    | none =>
        have hx' : (s.moved t change p' connections).vars x = none := hx
        simp [abs, hx']
    | some a =>
        have hx' : (s.moved t change p' connections).vars x = some a := hx
        simp [abs, hx', meaning_steady hs hsteady (h.vars_holds hx) (.inl ⟨x, hx'⟩)]
  have hthread : (s.moved t change p' connections).abs.thread =
      Function.update s.abs.thread t ((s.moved t change p' connections).absPlace p') := by
    funext u
    by_cases hu : u = t
    · subst hu
      simp [abs]
    · have hsame : (s.moved t change p' connections).thread u = s.thread u := by simp [hu]
      rw [Function.update_of_ne hu]
      simp only [abs, hsame]
      refine absPlace_steady hs hsteady (hs.placed u) (fun a ha => .inr (.inl ⟨u, ha⟩))
        (fun a ha => .inr (.inl ⟨u, by rw [hsame]; exact ha⟩)) fun id kind howned => ?_
      -- the number is another thread's
      have hthread : s.owned (.thread u) = some (id, kind) := howned
      exact hs.itemAt_of_owned hsteady hthread fun heq => hu (Owner.thread.inj heq)
  have hworld : (s.moved t change p' connections).abs.world = (s.apply change).server.world := rfl
  rw [← hvars, ← hthread, ← hworld]

/-- A move that changes nothing that can be seen. -/
theorem Moves.hidden (hs : s.Invariant) (hwrap : s.server.id + 1 < 2 ^ 64) (h : Moves P s t e (s.thread t) change p')
    (hvars : (s.apply change).vars = s.vars) (hworld : (s.apply change).server.world = s.server.world)
    (hplace : (s.moved t change p' connections).absPlace p' = s.absPlace (s.thread t)) :
    (s.moved t change p' connections).abs = s.abs := by
  have hthread : Function.update s.abs.thread t (s.absPlace (s.thread t)) = s.abs.thread :=
    Function.update_eq_self t s.abs.thread
  rw [h.abs_moved hs hwrap, hplace, hvars, hworld, hthread]
  rfl

/-- A step of a thread of the system without a server. -/
theorem Moves.seen (hs : s.Invariant) (hwrap : s.server.id + 1 < 2 ^ 64) (h : Moves P s t e (s.thread t) change p')
    (hvars : (s.apply change).vars = s.vars) (hworld : (s.apply change).server.world = s.server.world)
    {lp : LocalPlace E V L X} (hplace : (s.moved t change p' connections).absPlace p' = lp) :
    (s.moved t change p' connections).abs = s.abs.goto t lp := by
  rw [h.abs_moved hs hwrap, hplace, hvars, hworld]
  rfl

/-- The server goes on, and nothing is seen of it. -/
theorem hidden_serve (hs : s.Invariant) (hwrap : s.server.id + 1 < 2 ^ 64) {c : C} {h h' : Handler E V L}
    {k : Kont L C X} (hp : s.thread t = .transact c h k)
    (hmoves : Moves P s t e (s.thread t) change (.transact c h' k)) (hvars : (s.apply change).vars = s.vars)
    (hworld : (s.apply change).server.world = s.server.world) (hnot : ¬ Destroys h)
    (hh : ∀ lk, (s.moved t change (.transact c h' k) connections).absHandler lk h' = s.absHandler lk h) :
    (s.moved t change (.transact c h' k) connections).abs = s.abs := by
  have hsteady := hmoves.steady hs hwrap connections
  have hplaced := hs.placed t
  rw [hp] at hplaced
  refine hmoves.hidden hs hwrap hvars hworld ?_
  cases hplaced with
  | destroyed hk hdestroys => exact absurd hdestroys hnot
  | serves hserves hasks =>
      obtain ⟨lk, hbefore, hafter⟩ := absPlace_serves hs hsteady hserves (c := c) (h := h)
        (fun a ha => .inr (.inl ⟨t, by rw [hp]; exact ha⟩)) (fun a ha => holds_moved.mpr (.inl ha))
      rw [hp, hbefore, hafter, hh]

/-- A method goes on without the server. -/
theorem Moves.refines_resolve (hs : s.Invariant) (hwrap : s.server.id + 1 < 2 ^ 64)
    (h : Moves P s t e (s.thread t) change p') {f : Frame L C X} (hp : s.thread t = .drop [] (.resolve f)) :
    LocalSystem.step P s.abs e = some (s.moved t change p' connections).abs := by
  have hsteady := h.steady hs hwrap connections
  have hsound : s.Sound none f := by
    have hplaced := hs.placed t
    rw [hp] at hplaced
    cases hplaced with
    | drop hk => exact hk
  have hold : ∀ a ∈ f.held, s.Holds a := fun a ha => .inr (.inl ⟨t, by rw [hp]; exact ha⟩)
  have hnew : ∀ a ∈ p'.refs, (s.moved t change p' connections).Holds a := fun a ha => holds_moved.mpr (.inl ha)
  have habs : s.abs.thread t = .resolve (s.absFrame none f) := congrArg s.absPlace hp
  have hmoves := h
  rw [hp] at h
  cases h with
  | begin hidle hf | copy hidle | clear hidle => cases hidle
  | send htodo =>
      have hframe := absFrame_steady hs hsteady hsound hold hnew
      rw [hmoves.seen hs hwrap rfl rfl rfl]
      simp only [LocalSystem.step, habs, LocalSystem.resolve, absFrame_todo, htodo, List.map_nil]
      rw [absPlace, hframe, absHandler, absFrame_values]
      rfl
  | own htodo ho =>
      have hframe := absFrame_steady hs hsteady hsound hold hnew
      rw [hmoves.seen hs hwrap rfl rfl rfl]
      simp only [LocalSystem.step, habs, LocalSystem.resolve, absFrame_todo, htodo, List.map_cons, Arg.map]
      rw [absPlace, absAfter, absFrame_next htodo, hframe]
      simp [absFrame, htodo, itemOf, ho, valueAt]
      rfl
  | foreignFails htodo hx =>
      rw [hmoves.seen hs hwrap rfl rfl rfl]
      simp only [LocalSystem.step, habs, LocalSystem.resolve, absFrame_todo, htodo, List.map_cons, Arg.map, hx]
      simp [absFrame, absPlace, absAfter]
  | convert htodo hx henv ho =>
      have hframe := absFrame_steady hs hsteady hsound hold hnew
      rw [hmoves.seen hs hwrap rfl rfl rfl]
      simp only [LocalSystem.step, habs, LocalSystem.resolve, absFrame_todo, htodo, List.map_cons, Arg.map, hx]
      rw [absPlace, hframe]
      simp [absFrame, absHandler, henv, itemOf, ho]
      rfl

/-- A method takes its reply without the server. -/
theorem Moves.refines_receive (hs : s.Invariant) (hwrap : s.server.id + 1 < 2 ^ 64)
    (h : Moves P s t e (s.thread t) change p') {c : C} {answer : Answer Nat L} {k : Kont L C X}
    (hp : s.thread t = .transact c (.replied answer) k) :
    LocalSystem.step P s.abs e = some (s.moved t change p' connections).abs := by
  have hsteady := h.steady hs hwrap connections
  have hplaced := hs.placed t
  have hold : ∀ a ∈ k.refs, s.Holds a := fun a ha => .inr (.inl ⟨t, by rw [hp]; exact ha⟩)
  have hnew : ∀ a ∈ p'.refs, (s.moved t change p' connections).Holds a := fun a ha => holds_moved.mpr (.inl ha)
  have habs : s.abs.thread t = s.absPlace (.transact c (.replied answer) k) := congrArg s.absPlace hp
  have hmoves := h
  rw [hp] at h hplaced
  obtain ⟨op, ids, hserves, hasks⟩ : ∃ op ids, s.Serves op ids k ∧ s.Asks op ids (.replied answer) := by
    cases hplaced with
    | serves hserves hasks => exact ⟨_, _, hserves, hasks⟩
    | destroyed hk hdestroys => exact hdestroys.elim
  cases h with
  | begin hidle hf | copy hidle | clear hidle => cases hidle
  | @made _ f id hgives =>
      have hframe := absFrame_steady hs hsteady hserves.1 hold fun a ha => hnew a (List.mem_append_left _ ha)
      have henv := congrArg LocalFrame.env hframe
      have hreturns : ∀ v : Option (Item E V), f.op.returns P (.made v) = .ok (.inl v) := fun v => if_pos hgives
      have hmeaning : (s.moved t (.make ⟨f.env, f.connection, id⟩) (.drop f.held (.assign f.dst s.next))
          connections).meaning s.next =
          (s.server.itemAt id).map fun item => ⟨item, (s.absFrame none f).env.getD item⟩ := by
        rw [← henv]
        simp [meaning, moved, apply, goto, make, absFrame]
      rw [hmoves.seen hs hwrap rfl rfl rfl, absPlace, absAfter, hmeaning]
      simp only [LocalSystem.step, habs, absPlace, absHandler, Answer.map, LocalSystem.receive, absFrame_op, hreturns]
      rfl
  | finish hreturns =>
      rw [hmoves.seen hs hwrap rfl rfl rfl]
      simp only [LocalSystem.step, habs, absPlace, absHandler, LocalSystem.receive]
      simp [absFrame, returns_map, hreturns, Except.map, absAfter]
  | @convertedCall _ f id x todo htodo hcall =>
      have hframe := absFrame_steady hs hsteady hserves.1 hold fun a ha => hnew a (List.mem_append_right _ ha)
      have howned : s.owned (.thread t) = some (id, .proxy) := by
        simp [owned, hp, Place.owned, Kont.makes]
      have hnot : id ∉ f.ids := by
        refine Sound.not_mem hserves.1 hs howned fun a ha heq => ?_
        cases heq
      rw [hmoves.seen hs hwrap rfl rfl rfl]
      simp only [LocalSystem.step, habs, absPlace, absHandler, Answer.map, LocalSystem.receive, absFrame_todo, htodo,
        List.map_cons, Arg.map, absFrame_op, hcall, if_true, goneOf]
      rw [absAfter, absFrame_next htodo, absFrame_gone hnot, hframe]
      simp [htodo, valueAt]
  | @converted _ f id x todo htodo hcall =>
      have hframe := absFrame_steady hs hsteady hserves.1 hold fun a ha => hnew a (List.mem_cons_of_mem _ ha)
      rw [hmoves.seen hs hwrap rfl rfl rfl]
      simp only [LocalSystem.step, habs, absPlace, absHandler, Answer.map, LocalSystem.receive, absFrame_todo, htodo,
        List.map_cons, Arg.map, absFrame_op, hcall, Bool.false_eq_true, if_false]
      rw [absAfter, absFrame_next htodo, hframe]
      simp [htodo, valueAt]
      rfl
  | convertFails htodo =>
      rw [hmoves.seen hs hwrap rfl rfl rfl]
      simp only [LocalSystem.step, habs, absPlace, absHandler, Answer.map, LocalSystem.receive, absFrame_todo, htodo,
        List.map_cons, Arg.map]
      simp [absFrame, absAfter]

/-- The server goes on with a request, and an action is done, or nothing is seen of it. -/
theorem Moves.refines_serve (hs : s.Invariant) (hwrap : s.server.id + 1 < 2 ^ 64)
    (h : Moves P s t (.serve t) (s.thread t) change p') :
    (s.moved t change p' connections).abs = s.abs ∨
      LocalSystem.step P s.abs (.serve t : Action L C T X) = some (s.moved t change p' connections).abs := by
  have hsteady := h.steady hs hwrap connections
  have hplaced := hs.placed t
  have hold : ∀ a ∈ (s.thread t).refs, s.Holds a := fun a ha => .inr (.inl ⟨t, ha⟩)
  have hnew : ∀ a ∈ p'.refs, (s.moved t change p' connections).Holds a := fun a ha => holds_moved.mpr (.inl ha)
  have hmoves := h
  have habs : s.abs.thread t = s.absPlace (s.thread t) := rfl
  generalize hp : s.thread t = p at h hplaced hold habs
  cases h with
  | @take c req k =>
      cases hplaced with
      | serves hserves hasks =>
          cases hasks
          exact .inl (hidden_serve hs hwrap hp hmoves rfl rfl id fun lk => rfl)
      | destroyed hk hdestroys =>
          refine .inl (hmoves.hidden hs hwrap rfl rfl ?_)
          rw [hp]
          cases req with
          | operate op ids => exact hdestroys.elim
          | destroy kind id =>
              exact absAfter_steady hs hsteady hk hold hnew
  | operate => exact .inl (hidden_serve hs hwrap hp hmoves rfl rfl id fun lk => rfl)
  | @remove c kind id k =>
      cases hplaced with
      | serves hserves hasks => cases hasks
      | @destroyed _ _ held k hk hdestroys =>
          refine .inl (hmoves.hidden hs hwrap rfl rfl ?_)
          have hnone : (s.moved t (.server (s.server.removeObjectAtId id)) (.transact c .destroyed (.destroyed held k))
              connections).server.itemAt id = none := by
            simp [moved, apply, goto, Server.itemAt_removeObjectAtId]
          rw [hp]
          exact (absAfter_dead hnone).symm.trans (absAfter_steady hs hsteady hk hold hnew)
  | found hid hitem hkind => exact .inl (hidden_serve hs hwrap hp hmoves rfl rfl id fun lk => rfl)
  | wrongKind hid hitem hkind =>
      cases hplaced with
      | destroyed hk hdestroys => exact hdestroys.elim
      | serves hserves hasks =>
          obtain ⟨rfl, rfl, -⟩ := hasks
          rcases Serves.lookup hs hserves hid with ⟨item', hitem', hkind'⟩ | ⟨-, hnone⟩
          · obtain rfl := Option.some.inj (hitem.symm.trans hitem')
            exact absurd hkind' hkind
          · cases hitem.symm.trans hnone
  | @null c op ids found k id hid hitem =>
      cases hplaced with
      | destroyed hk hdestroys => exact hdestroys.elim
      | serves hserves hasks =>
          obtain ⟨rfl, rfl, -⟩ := hasks
          have hkind : op.kindAt found.length = .proxy := by
            rcases Serves.lookup hs hserves hid with ⟨item, hitem', -⟩ | ⟨hcall, -⟩
            · cases hitem.symm.trans hitem'
            · cases op <;> first | rfl | cases hcall
          have hnone : allItems (ids.map s.server.itemAt) = none :=
            allItems_eq_none (List.mem_map.mpr ⟨id, List.mem_of_getElem? hid, hitem⟩)
          obtain ⟨lk, hbefore, hafter⟩ := absPlace_serves hs hsteady hserves hold hnew (c := c)
            (h := .looking op ids found)
          refine .inr ?_
          rw [hmoves.seen hs hwrap rfl (Server.getObjectAtId_world id) (hafter _)]
          simp only [LocalSystem.step, habs, hbefore, absHandler, LocalSystem.perform, hnone, hkind]
          rfl
  | @perform c op ids found k answer world hid hperform =>
      cases hplaced with
      | destroyed hk hdestroys => exact hdestroys.elim
      | serves hserves hasks =>
          obtain ⟨rfl, rfl, hlooked⟩ := hasks
          obtain ⟨lk, hbefore, hafter⟩ := absPlace_serves hs hsteady hserves hold hnew (c := c)
            (h := .looking op ids found)
          refine .inr ?_
          rw [hmoves.abs_moved hs hwrap, hafter, absHandler_ofAnswer]
          simp only [LocalSystem.step, habs, hbefore, absHandler, LocalSystem.perform, hlooked.map_itemAt hid,
            allItems_some]
          have hworld : s.abs.world = s.server.world := rfl
          rw [hworld, hperform]
          rfl
  | @register c item k =>
      refine .inl (hidden_serve hs hwrap hp hmoves rfl ?_ id fun lk => ?_)
      · simp [apply, Server.getNewObjectId_eq hwrap]
      · have hitem : (s.server.getNewObjectId item).2.itemAt (s.server.getNewObjectId item).1 = some item := by
          rw [Server.itemAt_getNewObjectId hwrap, Server.getNewObjectId_eq hwrap, if_pos rfl]
        exact congrArg (fun v => LocalPlace.answered (.made v) lk) hitem

/-- The calls of the clients are calls of the system without a server. -/
theorem Moves.refines_program (hs : s.Invariant) (hwrap : s.server.id + 1 < 2 ^ 64)
    (h : Moves P s t e (s.thread t) change p') (hprogram : e.isProgram = true) :
    LocalSystem.step P s.abs e = some (s.moved t change p' connections).abs := by
  have hsteady := h.steady hs hwrap connections
  have hnew : ∀ a ∈ p'.refs, (s.moved t change p' connections).Holds a := fun a ha => holds_moved.mpr (.inl ha)
  have hmoves := h
  have habs : s.abs.thread t = s.absPlace (s.thread t) := rfl
  generalize s.thread t = p at h habs
  cases h with
  | @begin p dst op c args f hidle hf =>
      obtain ⟨outcome, hidle'⟩ := isIdle_abs (s := s) hidle
      obtain ⟨hbegun, -, hscope⟩ := begun_of_frame hf
      have hheld : ∀ a ∈ f.held, s.Holds a := fun a ha => by
        rw [hbegun.held, mem_held] at ha
        exact .inl (hbegun.vars a ha)
      rw [hmoves.seen hs hwrap rfl rfl rfl]
      simp only [LocalSystem.step, habs, hidle', frame_abs hs hf, Option.map_some]
      rw [absPlace, absAfter, absFrame_steady hs hsteady (hbegun.sound hs hscope) hheld hnew]
  | copy hidle | clear hidle =>
      obtain ⟨outcome, hidle'⟩ := isIdle_abs (s := s) hidle
      rw [hmoves.abs_moved hs hwrap]
      simp only [LocalSystem.step, habs, hidle']
      refine congrArg some (LocalSystem.ext rfl (funext fun x => ?_) rfl)
      simp only [abs, apply, Function.update_apply]
      split <;> rfl
  | _ => cases hprogram

/-- **A move is a step of the system without a server**, or nothing is seen of it. -/
theorem Moves.refines (hs : s.Invariant) (hwrap : s.server.id + 1 < 2 ^ 64) (h : Moves P s t e (s.thread t) change p') :
    (e.isProgram = false ∧ (s.moved t change p' connections).abs = s.abs) ∨
      LocalSystem.step P s.abs e = some (s.moved t change p' connections).abs := by
  have hsteady := h.steady hs hwrap connections
  have hplaced := hs.placed t
  have hold : ∀ a ∈ (s.thread t).refs, s.Holds a := fun a ha => .inr (.inl ⟨t, ha⟩)
  have hnew : ∀ a ∈ p'.refs, (s.moved t change p' connections).Holds a := fun a ha => holds_moved.mpr (.inl ha)
  have hmoves := h
  have habs : s.abs.thread t = s.absPlace (s.thread t) := rfl
  generalize hp : s.thread t = p at h hplaced hold habs
  cases h with
  | begin hidle hf | copy hidle | clear hidle => exact .inr (hmoves.refines_program hs hwrap rfl)
  | send htodo | own htodo ho | foreignFails htodo hx | convert htodo hx henv ho =>
      exact .inr (hmoves.refines_resolve hs hwrap hp)
  | made hgives | finish hreturns | convertedCall htodo hcall | converted htodo hcall | convertFails htodo =>
      exact .inr (hmoves.refines_receive hs hwrap hp)
  | take | operate | remove | found hid hitem hkind | wrongKind hid hitem hkind | null hid hitem | perform hid hperform
  | register => exact (hmoves.refines_serve hs hwrap).imp_left fun heq => ⟨rfl, heq⟩
  | assign =>
      refine .inr ?_
      rw [hmoves.abs_moved hs hwrap]
      simp only [LocalSystem.step, habs, absPlace, absAfter]
      refine congrArg some (LocalSystem.ext rfl (funext fun x => ?_) rfl)
      simp only [abs, apply, Function.update_apply]
      split <;> rfl
  | letGo hholds =>
      cases hplaced with
      | drop hk =>
          refine .inl ⟨rfl, hmoves.hidden hs hwrap rfl rfl ?_⟩
          rw [hp]
          exact absAfter_steady hs hsteady hk hold hnew
  | @delete a held k o hgone ho =>
      cases hplaced with
      | drop hk =>
          refine .inl ⟨rfl, hmoves.hidden hs hwrap rfl rfl ?_⟩
          have hbefore : s.absAfter (some o.remoteID) k = s.absAfter none k := by
            cases k with
            | idle outcome => rfl
            | assign dst b => rfl
            | resolve f =>
                have hobject : s.owned (.object a) = some (o.remoteID, o.kind) := by
                  simp [owned, ho, ClientObject.token]
                refine congrArg LocalPlace.resolve (absFrame_gone (Sound.not_mem hk hs hobject ?_))
                rintro b hb heq
                cases heq
                exact hgone (holds_goto.mpr (.inl (List.mem_append_right _ hb)))
          rw [hp, absPlace, absPlace, ← hbefore]
          exact absAfter_steady hs hsteady (hk.weaken _) hold hnew
  | destroyed =>
      cases hplaced with
      | serves hserves hasks => exact hasks.elim
      | destroyed hk hdestroys =>
          refine .inl ⟨rfl, hmoves.hidden hs hwrap rfl rfl ?_⟩
          rw [hp]
          exact absAfter_steady hs hsteady hk hold hnew

/-! ### Runs -/

variable [DecidableEq C] [Fintype T] [Fintype X]

theorem Invariant.step_refines (hs : s.Invariant) (h : restrict (Step P) Unwrapped s e s') :
    s'.Invariant ∧ (e.isProgram = false ∧ s'.abs = s.abs ∨ LocalSystem.step P s.abs e = some s'.abs) := by
  obtain ⟨t, change, p', connections, hmoves, rfl⟩ := step_cases h.1
  exact ⟨hs.moved h.2 hmoves connections, hmoves.refines hs h.2⟩

/-- **Remote proxies do what local ones do.** Every run of the server and its clients in
which the counter does not wrap, however they take turns, is a run of the system without a
server: the calls are the same and in the same order, and its steps are among those of the
run. The outcomes are the same, and so are the proxies that the variables stand for and what
has become of the rest of the server's process. -/
theorem remote_refines (w : W) (acts : List (Action L C T X))
    (hrun : Exec (restrict (Step P) Unwrapped) (start w) acts s) :
    ∃ acts', acts'.Sublist acts ∧ acts'.filter Action.isProgram = acts.filter Action.isProgram ∧
      Exec (ofPartial (LocalSystem.step P)) (LocalSystem.start w) acts' s.abs := by
  have hstep : ∀ (s : System W E V L C T X) e s', s.Invariant → restrict (Step P) Unwrapped s e s' →
      s'.Invariant ∧ (e.isProgram = false ∧ s'.abs = s.abs ∨ ofPartial (LocalSystem.step P) s.abs e s'.abs) :=
    fun _ _ _ hs => hs.step_refines
  obtain ⟨acts', hsub, hfilter, hlocal⟩ := hrun.refine hstep (Invariant.start w)
  exact ⟨acts', hsub, hfilter, abs_start w ▸ hlocal⟩

end System

/-- An environment, and a proxy from it. -/
def makeThenFind : List (Action Nat Unit Unit Bool) :=
  [.begin () false (.makeEnvironment "managed" []) () [], .run (), .serve (), .serve (), .serve (), .serve (), .run (),
    .run (), .begin () true (.findProxy "Number") () [.own false], .run (), .run (), .serve (), .serve (), .serve (),
    .serve (), .serve (), .run (), .run (), .run ()]

/-- A call of the proxy with itself for an argument; the proxy that was there goes. -/
def addSelf : List (Action Nat Unit Unit Bool) :=
  .begin () true (.call "add") () [.own true, .own true] ::
    [.run (), .run (), .run (), .serve (), .serve (), .serve (), .serve (), .serve (), .serve (), .run (), .run (),
      .run (), .run (), .run (), .serve (), .serve (), .run (), .run ()]

theorem addSelf_refines :
    ∃ s, Exec (restrict (System.Step numbers) System.Unwrapped) (System.start ()) (makeThenFind ++ addSelf) s ∧
      System.isIdle (s.thread ()) = true ∧ s.vars true ≠ none ∧
      ∃ acts', acts'.Sublist (makeThenFind ++ addSelf) ∧
        acts'.filter Action.isProgram = (makeThenFind ++ addSelf).filter Action.isProgram ∧
        Exec (ofPartial (LocalSystem.step numbers)) (LocalSystem.start ()) acts' s.abs := by
  have hsome : ((runPartial (guarded (fun s e => (System.step numbers s e).bind Except.toOption) System.Unwrapped)
      (System.start ()) (makeThenFind ++ addSelf)).map fun s =>
        (System.isIdle (s.thread ()), (s.vars true).isSome)) = some (true, true) := by decide +kernel
  obtain ⟨s, hs, hends⟩ := Option.map_eq_some_iff.mp hsome
  have hrun := System.exec_of_steps hs
  obtain ⟨hidle, hvar⟩ := Prod.mk.inj hends
  exact ⟨s, hrun, hidle, Option.isSome_iff_ne_none.mp hvar, System.remote_refines () _ hrun⟩

end PothosCore.Remote.Handles

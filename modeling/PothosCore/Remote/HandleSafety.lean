import PothosCore.Remote.HandleInvariant

/-!
# PothosCore.Remote.HandleSafety

In every run, however the threads and the handlers of the connections take turns: no step
uses an object that is gone, on either side (`System.Invariant.step_ok`); each number
whose object is in the map is in one place, and when the clients have let go of everything,
the map has no object left (`handles_accounted`).
-/

namespace PothosCore.Remote.Handles

open Lib

variable {W E V L C T X : Type}

namespace System

variable {s s' : System W E V L C T X} {t : T} {P : Process W E V L}

/-! ### What is asked for can be done -/

theorem returns_ok {H : Type} {op : Operation L} {answer : Answer H L} (h : op.Fits answer) :
    ∃ r, op.returns P answer = .ok r := by
  cases answer with
  | errorMsg text => exact ⟨_, rfl⟩
  | message text => exact ⟨_, if_pos h⟩
  | made id => exact ⟨_, if_pos h⟩
  | object x => exact ⟨_, if_neg (by simp [show op.givesHandle = false from h])⟩

theorem proxies_ok {found : List (Item E V)} (h : ∀ item ∈ found, item.kind = .proxy) :
    ∃ args, Process.proxies found = some args := by
  induction found with
  | nil => exact ⟨[], rfl⟩
  | cons item found ih =>
      cases item with
      | environment env => exact nomatch h _ List.mem_cons_self
      | proxy v =>
          obtain ⟨args, hargs⟩ := ih fun item hitem => h item (List.mem_cons_of_mem _ hitem)
          exact ⟨v :: args, by simp [Process.proxies, hargs]⟩

theorem kind_environment {item : Item E V} (h : item.kind = .environment) : ∃ env, item = .environment env := by
  cases item with
  | environment env => exact ⟨env, rfl⟩
  | proxy v => cases h

theorem kind_proxy {item : Item E V} (h : item.kind = .proxy) : ∃ v, item = .proxy v := by
  cases item with
  | environment env => cases h
  | proxy v => exact ⟨v, rfl⟩

/-- An action can be done on what its numbers were looked up as. -/
theorem perform_ok {op : Operation L} {found : List (Item E V)} (htakes : op.takes found.length = true)
    (hkind : ∀ n item, found[n]? = some item → item.kind = op.kindAt n) (w : W) :
    ∃ r, P.perform op found w = .ok r := by
  cases op with
  | makeEnvironment name args =>
      obtain rfl := List.length_eq_zero_iff.mp (by simpa [Operation.takes] using htakes)
      exact ⟨_, rfl⟩
  | findProxy name | convertObjectToProxy object =>
      obtain ⟨item, rfl⟩ := List.length_eq_one_iff.mp (by simpa [Operation.takes] using htakes)
      obtain ⟨env, rfl⟩ := kind_environment (hkind 0 item rfl)
      exact ⟨_, rfl⟩
  | hashCode | toString | getClassName =>
      obtain ⟨item, rfl⟩ := List.length_eq_one_iff.mp (by simpa [Operation.takes] using htakes)
      obtain ⟨v, rfl⟩ := kind_proxy (hkind 0 item rfl)
      exact ⟨_, rfl⟩
  | convertProxyToObject =>
      obtain ⟨item, other, rfl⟩ := List.length_eq_two.mp (by simpa [Operation.takes] using htakes)
      obtain ⟨env, rfl⟩ := kind_environment (hkind 0 item rfl)
      obtain ⟨v, rfl⟩ := kind_proxy (hkind 1 other rfl)
      exact ⟨_, rfl⟩
  | compareTo =>
      obtain ⟨item, other, rfl⟩ := List.length_eq_two.mp (by simpa [Operation.takes] using htakes)
      obtain ⟨v, rfl⟩ := kind_proxy (hkind 0 item rfl)
      obtain ⟨v', rfl⟩ := kind_proxy (hkind 1 other rfl)
      exact ⟨_, rfl⟩
  | call name =>
      cases found with
      | nil => simp [Operation.takes] at htakes
      | cons item found =>
          obtain ⟨v, rfl⟩ := kind_proxy (hkind 0 item rfl)
          have hproxies : ∀ item ∈ found, item.kind = .proxy := fun item' hitem => by
            obtain ⟨n, hn⟩ := List.mem_iff_getElem?.mp hitem
            exact hkind (n + 1) item' hn
          obtain ⟨args, hargs⟩ := proxies_ok hproxies
          exact ⟨_, by rw [Process.perform, hargs]⟩

/-- A method sends as many numbers as its action takes. -/
theorem Serves.takes {op : Operation L} {ids : List Nat} {k : Kont L C X} (h : s.Serves op ids k) :
    op.takes ids.length = true := by
  cases k with
  | main f =>
      obtain ⟨hsound, htodo, rfl, rfl⟩ := h
      simpa [htodo] using hsound.takes
  | converting f =>
      obtain ⟨-, x, todo, object, env, o, -, -, -, -, rfl, rfl⟩ := h
      rfl
  | destroyed held k => exact h.elim

/-- When all numbers are looked up, their objects are there. -/
theorem Looked.items {op : Operation L} {ids : List Nat} {found : List (Item E V)} (h : s.Looked op ids found)
    (hall : ids[found.length]? = none) :
    found.length = ids.length ∧ ∀ n, n < ids.length → ∃ item, found[n]? = some item ∧
      s.server.itemAt (ids.getD n 0) = some item := by
  have hlen : found.length = ids.length := Nat.le_antisymm h.1 (List.getElem?_eq_none_iff.mp hall)
  refine ⟨hlen, fun n hn => ?_⟩
  have hfound : found[n]? = some found[n] := List.getElem?_eq_getElem (by omega)
  obtain ⟨id, hid, hitem, -⟩ := h.2 n _ hfound
  exact ⟨_, hfound, by rw [List.getD_eq_getElem?_getD, hid, Option.getD_some, hitem]⟩

/-- The handler's references are good. -/
theorem next_ok {c : C} {h : Handler E V L} {k : Kont L C X} (hplaced : s.Placed (.transact c h k)) :
    ∃ r, h.next P s.server = .ok r := by
  cases h with
  | sent req | replied answer | destroyed | registering item => exact ⟨_, rfl⟩
  | received req => cases req <;> exact ⟨_, rfl⟩
  | looking op ids found =>
      cases hplaced with
      | destroyed hk hdestroys => exact hdestroys.elim
      | serves hserves hasks =>
          obtain ⟨rfl, rfl, hlooked⟩ := hasks
          rw [Handler.next]
          cases hid : ids[found.length]? with
          | some id =>
              cases hitem : P.extract (op.kindAt found.length) (s.server.getObjectAtId id).1 <;>
                exact ⟨_, by simp only [hitem]; rfl⟩
          | none =>
              obtain ⟨hlen, hitems⟩ := hlooked.items hid
              have hnot : ¬ Handler.Dangling s.server op ids := by
                rintro ⟨n, hn, -, hnone⟩
                obtain ⟨item, -, hitem⟩ := hitems n hn
                cases hitem.symm.trans hnone
              have htakes : op.takes found.length = true := hlen ▸ hserves.takes
              obtain ⟨⟨answer, world⟩, hperform⟩ := perform_ok (P := P) htakes (fun n item hn => by
                obtain ⟨-, -, -, hkind⟩ := hlooked.2 n item hn
                exact hkind) s.server.world
              exact ⟨_, by simp only [if_neg hnot, hperform]; rfl⟩

/-! ### When all is gone -/

/-- The clients have let go of everything. -/
structure AllGone (s : System W E V L C T X) : Prop where
  vars : ∀ x, s.vars x = none
  idle : ∀ t, isIdle (s.thread t) = true

theorem Invariant.empty (hs : s.Invariant) (h : s.AllGone) (a : Nat) : s.heap a = none := by
  by_contra hsome
  obtain ⟨o, ho⟩ := Option.ne_none_iff_exists'.mp hsome
  -- a pointer to it is in another object, so there is one to that
  have hheap : ∀ a, s.Holds a → ∃ b < s.next, (s.heap b).bind (·.env) = some a := by
    rintro a (⟨x, hx⟩ | ⟨t, ht⟩ | hheap)
    · simp [h.vars] at hx
    · simp [isIdle_refs (h.idle t)] at ht
    · exact hheap
  obtain ⟨b, -, hb⟩ := hheap a ((hs.held a).mpr ⟨o, ho⟩)
  obtain ⟨o₁, ho₁, hoa⟩ := Option.bind_eq_some_iff.mp hb
  obtain ⟨c, -, hc⟩ := hheap b ((hs.held b).mpr ⟨o₁, ho₁⟩)
  obtain ⟨o₂, ho₂, hob⟩ := Option.bind_eq_some_iff.mp hc
  simp [hs.environment c o₂ b o₁ ho₂ hob ho₁] at hoa

/-! ### No step fails -/

variable [DecidableEq T]

theorem resolve_ok [DecidableEq C] (hs : s.Invariant) {f : Frame L C X} (hp : s.thread t = .drop [] (.resolve f)) :
    ∃ r, s.resolve t f = .ok r := by
  have hsound : s.Sound none f := by
    have hplaced := hs.placed t
    rw [hp] at hplaced
    cases hplaced with
    | drop hk => exact hk
  have hheld : ∀ a ∈ f.held, s.Holds a := fun a ha => .inr (.inl ⟨t, by simpa [hp, Place.refs, After.refs] using ha⟩)
  rw [resolve]
  cases htodo : f.todo with
  | nil => exact ⟨_, rfl⟩
  | cons arg todo =>
      cases arg with
      | own a =>
          obtain ⟨o, ho⟩ := (hs.held a).mp (hheld a (hsound.own a (by rw [htodo]; exact List.mem_cons_self)))
          exact ⟨_, by simp only [ho]; rfl⟩
      | foreign x =>
          cases hx : x.toObject with
          | error thrown => exact ⟨_, by simp only [hx]; rfl⟩
          | ok object =>
              cases henv : f.env with
              | none =>
                  -- a constructor has no arguments
                  have htakes := hsound.takes
                  have hmake : f.op.isMake = true := by rw [hsound.isMake, henv]; rfl
                  cases hop : f.op <;> simp [hop, Operation.isMake, Operation.takes, htodo] at hmake htakes
              | some e =>
                  obtain ⟨o, ho⟩ := (hs.held e).mp (hsound.holds hs.fresh hheld henv)
                  exact ⟨_, by simp only [hx, Option.bind_some, ho]; rfl⟩

theorem receive_ok [DecidableEq C] {c : C} {answer : Answer Nat L} {k : Kont L C X}
    (hplaced : s.Placed (.transact c (.replied answer) k)) : ∃ r, s.receive P t answer k = .ok r := by
  cases hplaced with
  | destroyed hk hdestroys => exact hdestroys.elim
  | serves hserves hasks =>
      cases k with
      | destroyed held k => exact hserves.elim
      | main f =>
          obtain ⟨-, -, rfl, -⟩ := hserves
          obtain ⟨r, hr⟩ := returns_ok (P := P) hasks
          cases r with
          | inl id => exact ⟨_, by simp only [receive, hr]; rfl⟩
          | inr outcome => exact ⟨_, by simp only [receive, hr]; rfl⟩
      | converting f =>
          obtain ⟨-, x, todo, object, env, o, htodo, -, -, -, rfl, -⟩ := hserves
          cases answer with
          | made id =>
              simp only [receive, htodo]
              split <;> exact ⟨_, rfl⟩
          | errorMsg text => exact ⟨_, by simp only [receive, htodo]; rfl⟩
          | message text => cases hasks
          | object y => cases hasks

variable [DecidableEq C] [Fintype T] [Fintype X]

theorem release_ok (hs : s.Invariant) {a : Nat} {held : List Nat} {k : After L C X}
    (hp : s.thread t = .drop (a :: held) k) : ∃ r, s.release t a held k = .ok r := by
  obtain ⟨o, ho⟩ := (hs.held a).mp (.inr (.inl ⟨t, by rw [hp]; exact List.mem_cons_self⟩))
  rw [release]
  split
  · exact ⟨_, rfl⟩
  · exact ⟨_, by simp only [ho]; rfl⟩

variable [DecidableEq X]

/-- **No step fails**: all that a thread or a handler uses is there. -/
theorem Invariant.step_ok (hs : s.Invariant) (e : Action L C T X) (fault : Fault) :
    s.step P e ≠ some (.error fault) := by
  have hok : ∀ {x : Except Fault (System W E V L C T X)}, (∃ r, x = .ok r) → some x ≠ some (.error fault) := by
    rintro x ⟨r, rfl⟩ h
    cases h
  cases e with
  | begin t dst op c args =>
      rw [System.step]
      split
      · cases s.frame dst op c args with
        | none => simp
        | some f => simp
      · simp
  | copy t dst src =>
      rw [System.step]
      split <;> simp
  | clear t dst =>
      rw [System.step]
      split <;> simp
  | run t =>
      have hplaced := hs.placed t
      rw [System.step, System.run]
      split
      case h_1 a held k hp => exact hok (release_ok hs hp)
      case h_2 => simp
      case h_3 f hp => exact hok (resolve_ok hs hp)
      case h_4 => simp
      case h_5 c answer k hp => exact hok (receive_ok (hp ▸ hplaced))
      case h_6 => simp
      case h_7 => simp
  | serve t =>
      have hplaced := hs.placed t
      rw [System.step, serve]
      split
      case h_1 c req k hp =>
        dsimp only
        split <;> simp
      case h_2 c h k hsent hp =>
        split
        · simp
        · obtain ⟨r, hr⟩ := next_ok (P := P) (hp ▸ hplaced)
          simp [hr]
      case h_3 => simp

/-- **Every number is accounted for.** In every run in which the counter does not wrap, no
step can fail; the objects of the map are, one for one, those of the objects of the clients,
of the replies on their way to them, and of the requests of destructors; an object of a
client is there if and only if there is a pointer to it; and when the clients have let go of
everything, the map has no object left. -/
theorem handles_accounted (w : W) (acts : List (Action L C T X))
    (hrun : Exec (restrict (Step P) Unwrapped) (start w) acts s) :
    (∀ e fault, s.step P e ≠ some (.error fault)) ∧
      Custody s.owned s.server.Has ∧
      (∀ a, s.Holds a ↔ ∃ o, s.heap a = some o) ∧
      (s.AllGone → ∀ id, s.server.itemAt id = none) := by
  have hs := Invariant.run hrun
  refine ⟨hs.step_ok, hs.custody, hs.held, fun hgone id => ?_⟩
  by_contra hsome
  obtain ⟨item, hitem⟩ := Option.ne_none_iff_exists'.mp hsome
  obtain ⟨o, ho⟩ := (hs.custody.out_iff (id, item.kind)).mp ⟨item, hitem, rfl⟩
  cases o with
  | object a => simp [owned, hs.empty hgone a] at ho
  | thread t => simp [owned, Place.owned_of_isIdle (hgone.idle t)] at ho

end System

/-! ### A run -/

namespace System

variable [DecidableEq C] [DecidableEq T] [DecidableEq X] [Fintype T] [Fintype X]

instance (s : System W E V L C T X) (e : Action L C T X) : Decidable (s.Unwrapped e) :=
  inferInstanceAs (Decidable (_ < _))

/-- Steps that are computed. -/
theorem exec_of_steps {P : Process W E V L} {s s' : System W E V L C T X} {acts : List (Action L C T X)}
    (h : runPartial (guarded (fun s e => (s.step P e).bind Except.toOption) Unwrapped) s acts = some s') :
    Exec (restrict (Step P) Unwrapped) s acts s' := by
  have hstep : (ofPartial fun s e => (s.step P e).bind Except.toOption) = (Step P : System W E V L C T X → _) := by
    funext s e s'
    rcases h : s.step P e with - | fault | s'' <;> simp [ofPartial, Step, h, Except.toOption]
  rw [← hstep, ← ofPartial_guarded]
  exact exec_of_runPartial h

end System

/-- Numbers, which a call adds up. -/
def numbers : Process Unit Unit Nat Nat where
  make _ _ w := (.ok (), w)
  findProxy _ _ w := (.ok 0, w)
  convertObjectToProxy _ object w := (.ok object, w)
  convertProxyToObject _ proxy w := (.ok proxy, w)
  call proxy _ args w := (.ok (proxy + args.sum), w)
  compareTo proxy other w := (.ok (proxy - other), w)
  hashCode proxy w := (.ok proxy, w)
  toString proxy w := (.ok proxy, w)
  getClassName _ w := (.ok 0, w)
  typeString _ := ""

/-- An environment is made, and goes. -/
def makeThenClear : List (Action Nat Unit Unit Unit) :=
  [.begin () () (.makeEnvironment "managed" []) () [], .run (), .serve (), .serve (), .serve (), .serve (), .run (),
    .run (), .clear () (), .run (), .serve (), .serve (), .run ()]

theorem makeThenClear_run :
    ∃ s, Exec (restrict (System.Step numbers) System.Unwrapped) (System.start ()) makeThenClear s :=
  (Option.isSome_iff_exists.mp (by decide)).imp fun _ => System.exec_of_steps

theorem makeThenClear_accounted :
    ∃ s, Exec (restrict (System.Step numbers) System.Unwrapped) (System.start ()) makeThenClear s ∧
      (s.AllGone → ∀ id, s.server.itemAt id = none) := by
  obtain ⟨s, hrun⟩ := makeThenClear_run
  exact ⟨s, hrun, (System.handles_accounted () makeThenClear hrun).2.2.2⟩

end PothosCore.Remote.Handles

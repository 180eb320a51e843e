import PothosCore.Remote.HandleTransparency

/-!
# PothosCore.Remote.ForeignCalls

Calls with a proxy of another environment among their arguments. The argument is converted,
but the handle of what it is converted to is gone when the request is sent, and its object
with it. So a call of this kind is never made: it throws a `ProxyHandleCallError`, however
it and the others take turns (`call_foreign_throws`). Without the server this is a lost
value, which no action is done on (`Failing`); the remote system follows by refinement.
-/

namespace PothosCore.Remote.Handles

open Lib

variable {W E V L C T X : Type}

/-- An argument of another environment is lost, or will be. -/
structure LocalFrame.Losing (f : LocalFrame E V L X) : Prop where
  isCall : f.op.isCall = true
  lost : (∃ x, .foreign x ∈ f.todo) ∨ none ∈ f.values

/-- A call that throws, or will throw. -/
inductive Failing : LocalPlace E V L X → Prop
  | resolve {f} : f.Losing → Failing (.resolve f)
  | asked {op values f} : f.op.isCall = true → none ∈ values → Failing (.asked op values (.main f))
  | converting {op values f x todo} : f.op.isCall = true → f.todo = .foreign x :: todo →
      Failing (.asked op values (.converting f))
  | answered {text f} : f.op.isCall = true → Failing (.answered (.errorMsg text) (.main f))
  | converted {answer f x todo} : f.op.isCall = true → f.todo = .foreign x :: todo →
      Failing (.answered answer (.converting f))
  | thrown {message text} : Failing (.idle (some (.thrown (.thrown "ProxyHandleCallError" message text))))

theorem Operation.eq_call {op : Operation L} (h : op.isCall = true) : ∃ name, op = .call name := by
  cases op with
  | call name => exact ⟨name, rfl⟩
  | _ => cases h

namespace LocalSystem

variable {P : Process W E V L} {s s' : LocalSystem W E V L T X} {t : T}

theorem loadArgs_foreign {args : List (Arg X L)} {largs : List (Arg (LocalProxy E V) L)} {x : Foreign L}
    (h : s.loadArgs args = some largs) (hx : .foreign x ∈ args) : .foreign x ∈ largs := by
  induction args generalizing largs with
  | nil => cases hx
  | cons arg args ih =>
      cases arg with
      | own y =>
          obtain ⟨p, -, h⟩ := Option.bind_eq_some_iff.mp h
          obtain ⟨rest, hrest, rfl⟩ := Option.map_eq_some_iff.mp h
          exact List.mem_cons_of_mem _ (ih hrest (by simpa using hx))
      | foreign y =>
          obtain ⟨rest, hrest, rfl⟩ := Option.map_eq_some_iff.mp h
          rcases List.mem_cons.mp hx with heq | hx
          · cases heq
            exact List.mem_cons_self
          · exact List.mem_cons_of_mem _ (ih hrest hx)

/-- A call starts with all of its arguments. -/
theorem frame_losing {dst : X} {name : String} {args : List (Arg X L)} {f : LocalFrame E V L X} {x : Foreign L}
    (h : s.frame dst (.call name) args = some f) (hx : .foreign x ∈ args) : f.Losing := by
  obtain ⟨largs, hlargs, h⟩ := Option.bind_eq_some_iff.mp h
  obtain ⟨env, -, h⟩ := Option.bind_eq_some_iff.mp h
  split at h
  · cases h
    exact ⟨rfl, .inl ⟨x, List.mem_map.mpr ⟨_, loadArgs_foreign hlargs hx, rfl⟩⟩⟩
  · cases h

variable [DecidableEq T]

theorem goto_thread (p : LocalPlace E V L X) : (s.goto t p).thread t = p := Function.update_self ..

/-! ### The thread goes on -/

theorem resolve_failing {f : LocalFrame E V L X} (h : f.Losing) : Failing ((s.resolve t f).thread t) := by
  rw [resolve]
  split
  case h_1 htodo =>
    rw [goto_thread]
    rcases h.lost with ⟨x, hx⟩ | hnone
    · simp [htodo] at hx
    · exact .asked h.isCall hnone
  case h_2 value todo htodo =>
    rw [goto_thread]
    refine .resolve ⟨h.isCall, ?_⟩
    rcases h.lost with ⟨x, hx⟩ | hnone
    · exact .inl ⟨x, by simpa [htodo] using hx⟩
    · exact .inr (List.mem_append_left _ hnone)
  case h_3 x todo htodo =>
    cases hx : x.toObject with
    | error thrown =>
        obtain ⟨name, hname⟩ := Operation.eq_call h.isCall
        simp only [goto_thread, Operation.convertThrown, hname]
        exact .thrown
    | ok object =>
        simp only [goto_thread]
        exact .converting h.isCall htodo

theorem receive_failing {answer : Answer (Option (Item E V)) L} {k : LocalKont E V L X}
    (h : Failing (.answered answer k)) (hs' : s.receive P t answer k = some s') : Failing (s'.thread t) := by
  cases h with
  | @answered text f hcall =>
      obtain ⟨name, hname⟩ := Operation.eq_call hcall
      cases hs'
      simp only [goto_thread, Operation.thrown, hname]
      exact .thrown
  | @converted answer f x todo hcall htodo =>
      obtain ⟨name, hname⟩ := Operation.eq_call hcall
      simp only [receive, htodo] at hs'
      cases answer with
      | made value =>
          cases hs'
          rw [goto_thread]
          exact .resolve ⟨hcall, .inr (by simp [hcall])⟩
      | errorMsg text =>
          cases hs'
          simp only [goto_thread, Operation.convertThrown, hname]
          exact .thrown
      | message text | object y => cases hs'

theorem perform_failing {op : Operation L} {values : List (Option (Item E V))} {k : LocalKont E V L X}
    (h : Failing (.asked op values k)) (hs' : s.perform P t op values k = some s') : Failing (s'.thread t) := by
  cases h with
  | asked hcall hnone =>
      rw [perform, System.allItems_eq_none hnone] at hs'
      cases hs'
      rw [goto_thread]
      exact .answered hcall
  | converting hcall htodo =>
      rw [perform] at hs'
      split at hs'
      · split at hs'
        · cases hs'
          simp only [goto_thread]
          exact .converted hcall htodo
        · cases hs'
      · cases hs'
        rw [goto_thread]
        exact .converted hcall htodo

/-! ### The others go on -/

theorem resolve_goto (f : LocalFrame E V L X) : ∃ p, s.resolve t f = s.goto t p := by
  rw [resolve]
  split
  · exact ⟨_, rfl⟩
  · exact ⟨_, rfl⟩
  · split <;> exact ⟨_, rfl⟩

theorem receive_goto {answer : Answer (Option (Item E V)) L} {k : LocalKont E V L X}
    (h : s.receive P t answer k = some s') : ∃ p, s' = s.goto t p := by
  cases k with
  | main f =>
      simp only [receive] at h
      split at h
      · exact ⟨_, (Option.some.inj h).symm⟩
      · exact ⟨_, (Option.some.inj h).symm⟩
      · cases h
  | converting f =>
      simp only [receive] at h
      split at h
      · exact ⟨_, (Option.some.inj h).symm⟩
      · exact ⟨_, (Option.some.inj h).symm⟩
      · cases h

theorem perform_thread {op : Operation L} {values : List (Option (Item E V))} {k : LocalKont E V L X}
    (h : s.perform P t op values k = some s') : ∃ p, s'.thread = (s.goto t p).thread := by
  simp only [perform] at h
  split at h
  · split at h
    · cases h
      exact ⟨_, rfl⟩
    · cases h
  · cases h
    exact ⟨_, rfl⟩

variable [DecidableEq X]

/-- A step moves one thread. -/
theorem step_thread {e : Action L C T X} (h : step P s e = some s') : ∃ p, s'.thread = (s.goto e.thread p).thread := by
  cases e with
  | begin u dst op c args =>
      simp only [step] at h
      split at h
      · obtain ⟨f, -, rfl⟩ := Option.map_eq_some_iff.mp h
        exact ⟨_, rfl⟩
      · cases h
  | copy u dst src | clear u dst =>
      simp only [step] at h
      split at h
      · cases h
        exact ⟨_, rfl⟩
      · cases h
  | run u =>
      simp only [step] at h
      split at h
      case h_1 f hp =>
        obtain ⟨p, hp⟩ := resolve_goto (s := s) (t := u) f
        cases h
        exact ⟨p, by rw [hp]; rfl⟩
      case h_2 answer k hp =>
        obtain ⟨p, rfl⟩ := receive_goto h
        exact ⟨p, rfl⟩
      case h_3 dst p hp =>
        cases h
        exact ⟨_, rfl⟩
      case h_4 => cases h
  | serve u =>
      simp only [step] at h
      split at h
      · exact perform_thread h
      · cases h

/-- A call that will throw goes on. -/
theorem step_failing {e : Action L C T X} (h : Failing (s.thread t)) (hstep : step P s e = some s')
    (hmine : e.isProgram = true → e.thread ≠ t) : Failing (s'.thread t) := by
  by_cases ht : e.thread = t
  · cases e with
    | begin u dst op c args => exact absurd ht (hmine rfl)
    | copy u dst src => exact absurd ht (hmine rfl)
    | clear u dst => exact absurd ht (hmine rfl)
    | run u =>
        obtain rfl : u = t := ht
        rw [step] at hstep
        split at hstep
        case h_1 f hp =>
          cases hstep
          rw [hp] at h
          cases h with
          | resolve hlosing => exact resolve_failing hlosing
        case h_2 answer k hp => exact receive_failing (hp ▸ h) hstep
        case h_3 dst p hp =>
          rw [hp] at h
          cases h
        case h_4 => cases hstep
    | serve u =>
        obtain rfl : u = t := ht
        rw [step] at hstep
        split at hstep
        case h_1 op values k hp => exact perform_failing (hp ▸ h) hstep
        case h_2 => cases hstep
  · obtain ⟨p, hp⟩ := step_thread hstep
    have hother : s'.thread t = s.thread t := by simp [hp, goto, Ne.symm ht]
    rwa [hother]

theorem begin_failing {u : T} {dst : X} {name : String} {c : C} {args : List (Arg X L)} {x : Foreign L}
    (h : step P s (.begin u dst (.call name) c args) = some s') (hx : .foreign x ∈ args) : Failing (s'.thread u) := by
  simp only [step] at h
  split at h
  · obtain ⟨f, hf, rfl⟩ := Option.map_eq_some_iff.mp h
    rw [goto_thread]
    exact .resolve (frame_losing hf hx)
  · cases h

end LocalSystem

/-! ### With the server -/

namespace System

variable {P : Process W E V L} {s s' : System W E V L C T X} {t : T}

theorem isIdle_failing {p : Place E V L C X} (h : Failing (s.absPlace p)) (hidle : isIdle p = true) :
    ∃ message text, p = .drop [] (.idle (some (.thrown (.thrown "ProxyHandleCallError" message text)))) := by
  cases p with
  | transact c h k => cases hidle
  | drop held k =>
      cases held with
      | cons a held => cases hidle
      | nil =>
          cases k with
          | resolve f => cases hidle
          | assign dst a => cases hidle
          | idle outcome =>
              cases h with
              | thrown => exact ⟨_, _, rfl⟩

variable [DecidableEq C] [DecidableEq T] [DecidableEq X] [Fintype T] [Fintype X]

theorem Invariant.step_failing (hs : s.Invariant) {e : Action L C T X} (hstep : restrict (Step P) Unwrapped s e s')
    (h : Failing (s.abs.thread t)) (hmine : e.isProgram = true → e.thread ≠ t) : Failing (s'.abs.thread t) := by
  rcases (hs.step_refines hstep).2 with ⟨-, heq⟩ | hlocal
  · rwa [heq]
  · exact LocalSystem.step_failing h hlocal hmine

/-- **A call with a proxy of another environment throws.** In every run in which the counter
does not wrap: when the thread that has called is idle again, the call has thrown a
`ProxyHandleCallError`, whatever the other threads and the server have done meanwhile. -/
theorem call_foreign_throws (w : W) (before after : List (Action L C T X)) {dst : X} {name : String} {c : C}
    {args : List (Arg X L)} {x : Foreign L} (hx : .foreign x ∈ args)
    (hrun : Exec (restrict (Step P) Unwrapped) (start w) (before ++ .begin t dst (.call name) c args :: after) s)
    (hafter : ∀ e ∈ after, e.isProgram = true → e.thread ≠ t) (hidle : isIdle (s.thread t) = true) :
    ∃ message text, s.thread t = .drop [] (.idle (some (.thrown (.thrown "ProxyHandleCallError" message text)))) := by
  obtain ⟨s₁, hbefore, hrun⟩ := hrun.of_append
  have hs₁ := Invariant.run hbefore
  cases hrun with
  | @cons _ s₂ _ _ _ hbegin hrest =>
      obtain ⟨hs₂, ⟨hprogram, -⟩ | hlocal⟩ := hs₁.step_refines hbegin
      · cases hprogram
      · have hfailing : Failing (s₂.abs.thread t) := LocalSystem.begin_failing hlocal hx
        have hkept := (hrest.restrict_of_forall hafter).invariant
          (P := fun s => s.Invariant ∧ Failing (s.abs.thread t))
          (fun _ _ _ hs hstep => ⟨(hs.1.step_refines hstep.1).1, hs.1.step_failing hstep.1 hs.2 hstep.2⟩)
          ⟨hs₂, hfailing⟩
        exact isIdle_failing hkept.2 hidle

end System

/-- The argument of a call is converted, its handle goes, and the call is served. -/
def convertThenCall : List (Action Nat Unit Unit Bool) :=
  [.run (), .run (), .serve (), .serve (), .serve (), .serve (), .serve (), .run (), .serve (), .serve (), .run (),
    .run (), .run (), .serve (), .serve (), .serve (), .serve (), .run (), .run ()]

theorem addSeven_throws :
    ∃ s, Exec (restrict (System.Step numbers) System.Unwrapped) (System.start ())
        (makeThenFind ++ .begin () true (.call "add") () [.own true, .foreign ⟨"7", .ok 7⟩] :: convertThenCall) s ∧
      ∃ message text,
        s.thread () = .drop [] (.idle (some (.thrown (.thrown "ProxyHandleCallError" message text)))) := by
  have hsome : ((runPartial (guarded (fun s e => (System.step numbers s e).bind Except.toOption) System.Unwrapped)
      (System.start ()) (makeThenFind ++ .begin () true (.call "add") () [.own true, .foreign ⟨"7", .ok 7⟩] ::
        convertThenCall)).map fun s => System.isIdle (s.thread ())) = some true := by
    decide +kernel
  obtain ⟨s, hs, hidle⟩ := Option.map_eq_some_iff.mp hsome
  have hrun := System.exec_of_steps hs
  exact ⟨s, hrun, System.call_foreign_throws () makeThenFind convertThenCall (List.mem_cons_of_mem _ List.mem_cons_self)
    hrun (by decide) hidle⟩

end PothosCore.Remote.Handles

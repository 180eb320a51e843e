import PothosCore.Framework.ActorInterface

/-!
# PothosCore.Framework.ActorContext

The two promises of `ActorInterface`, over any interleaving of its threads.

Exclusion is about the call lock alone: an operation either leaves the holders as they
are, or makes one of a free lock, or takes the only one away. The change flag is kept
by the worker: between consuming a change and either taking the call lock or flagging
the change again it is at one of four points of its code.
-/

namespace PothosCore.Framework.ActorInterface

open PothosCore.Lib

/-! ### Who holds the actor -/

/-- What an operation does to the call lock, seen by the thread that does it: `before`
and `after` say whether the thread holds the lock. -/
inductive LockMove (s t : ActorInterface) (before after : Prop) : Prop
  | stay (hlock : t.extCallLock = s.extCallLock) (h : after ↔ before)
  | take (hfree : s.extCallLock = false) (hlock : t.extCallLock = true)
  | drop (h : before) (hafter : ¬ after)

theorem workerStep_lock {pc pc' : WorkerPc} {move : WorkerMove} {s t : ActorInterface}
    (h : workerStep pc move s = some (pc', t)) : LockMove s t pc.Holds pc'.Holds := by
  revert h
  fun_cases workerStep pc move s <;> intro h <;> cases h
  case case20 hfree => exact .take (by simpa using hfree) rfl
  case case22 => exact .drop rfl (by simp [WorkerPc.Holds])
  -- the other operations do not touch the call lock
  all_goals
    refine .stay rfl ?_
    grind [WorkerPc.Holds]

theorem callerStep_lock {pc pc' : CallerPc} {move : CallerMove} {s t : ActorInterface}
    (h : callerStep pc move s = some (pc', t)) : LockMove s t pc.Holds pc'.Holds := by
  revert h
  fun_cases callerStep pc move s <;> intro h <;> cases h
  case case6 hfree => exact .take (by simpa using hfree) rfl
  case case11 => exact .drop (.inr (.inr rfl)) (by simp [CallerPc.Holds])
  all_goals
    refine .stay rfl ?_
    grind [CallerPc.Holds]

theorem flaggerStep_lock (pc : FlaggerPc) (s : ActorInterface) :
    (flaggerStep pc s).2.extCallLock = s.extCallLock := by
  cases pc <;> rfl

section
variable {Caller Flagger : Type}

/-- A party holds the actor: the worker (`none`) between an acquire and its release, or
a caller. -/
def Config.Holds (s : Config Caller Flagger) : Option Caller → Prop
  | none => s.worker.Holds
  | some c => (s.caller c).Holds

/-- A holder has the call lock, and there is only one. -/
structure Exclusive (s : Config Caller Flagger) : Prop where
  locked : ∀ p, s.Holds p → s.shared.extCallLock = true
  one : ∀ p q, s.Holds p → s.Holds q → p = q

theorem exclusive_init : Exclusive (.init : Config Caller Flagger) := by
  have hnone : ∀ p, ¬ (Config.init : Config Caller Flagger).Holds p := by
    intro p
    cases p <;> simp [Config.Holds, Config.init, WorkerPc.Holds, CallerPc.Holds]
  exact ⟨fun p hp => absurd hp (hnone p), fun p q hp => absurd hp (hnone p)⟩

variable [DecidableEq Caller] [DecidableEq Flagger]

/-- **What one operation does to the holders**: it concerns one party only. -/
theorem step_lock {s t : Config Caller Flagger} {a : Action Caller Flagger} (h : step s a = some t) :
    ∃ p, (∀ q, q ≠ p → (t.Holds q ↔ s.Holds q)) ∧
      LockMove s.shared t.shared (s.Holds p) (t.Holds p) := by
  cases a with
  | worker move =>
      obtain ⟨⟨pc, shared⟩, hstep, rfl⟩ := Option.map_eq_some_iff.mp h
      refine ⟨none, ?_, workerStep_lock hstep⟩
      intro q hq
      cases q with
      | none => exact absurd rfl hq
      | some c => exact Iff.rfl
  | caller c move =>
      obtain ⟨⟨pc, shared⟩, hstep, rfl⟩ := Option.map_eq_some_iff.mp h
      refine ⟨some c, ?_, ?_⟩
      · intro q hq
        cases q with
        | none => exact Iff.rfl
        | some d =>
            have hd : d ≠ c := fun hdc => hq (congrArg some hdc)
            simp only [Config.Holds, Function.update_of_ne hd]
      · simp only [Config.Holds, Function.update_self]
        exact callerStep_lock hstep
  | flagger f =>
      cases h
      exact ⟨none, fun q _ => (by cases q <;> exact Iff.rfl), .stay (flaggerStep_lock _ _) Iff.rfl⟩
  | flagInternalChange =>
      cases h
      exact ⟨none, fun q _ => (by cases q <;> exact Iff.rfl), .stay rfl Iff.rfl⟩

theorem step_exclusive {s t : Config Caller Flagger} {a : Action Caller Flagger} (hs : Exclusive s)
    (h : step s a = some t) : Exclusive t := by
  obtain ⟨p, hother, hmove⟩ := step_lock h
  cases hmove with
  | stay hlock hsame =>
      have hall : ∀ q, t.Holds q → s.Holds q := by
        intro q hq
        by_cases hqp : q = p
        · subst hqp
          exact hsame.mp hq
        · exact (hother q hqp).mp hq
      refine ⟨fun q hq => ?_, fun q r hq hr => hs.one q r (hall q hq) (hall r hr)⟩
      rw [hlock]
      exact hs.locked q (hall q hq)
  | take hfree hlock =>
      -- nobody held the lock, so whoever does is the party that took it
      have honly : ∀ q, t.Holds q → q = p := by
        intro q hq
        by_contra hqp
        have hlocked := hs.locked q ((hother q hqp).mp hq)
        rw [hfree] at hlocked
        cases hlocked
      exact ⟨fun _ _ => hlock, fun q r hq hr => (honly q hq).trans (honly r hr).symm⟩
  | drop hp hafter =>
      have hnone : ∀ q, ¬ t.Holds q := by
        intro q hq
        by_cases hqp : q = p
        · subst hqp
          exact hafter hq
        · exact hqp (hs.one q p ((hother q hqp).mp hq) hp)
      exact ⟨fun q hq => absurd hq (hnone q), fun q r hq => absurd hq (hnone q)⟩

end

/-! ### What becomes of a change -/

theorem workerStep_flag {pc pc' : WorkerPc} {move : WorkerMove} {s t : ActorInterface}
    (h : workerStep pc move s = some (pc', t)) (hs : s.Pending ∨ pc.Consumed) :
    (t.Pending ∨ pc'.Consumed) ∨ pc = .tryLock ∧ pc' = .working := by
  revert h
  fun_cases workerStep pc move s <;> intro h <;> cases h
  all_goals grind [Pending, WorkerPc.Consumed, flagInternalChange]

theorem callerStep_flag {pc pc' : CallerPc} {move : CallerMove} {s t : ActorInterface}
    (h : callerStep pc move s = some (pc', t)) (hs : s.Pending) : t.Pending := by
  revert h
  fun_cases callerStep pc move s <;> intro h <;> cases h
  all_goals grind [Pending, flagInternalChange]

theorem flaggerStep_flag (pc : FlaggerPc) {s : ActorInterface} (hs : s.Pending) :
    (flaggerStep pc s).2.Pending := by
  cases pc with
  | idle => rfl
  | loadWaiting => exact hs
  | notify => exact hs

/-- How far the worker is from the call lock, or from flagging the change again. -/
def WorkerPc.togo : WorkerPc → Nat
  | .clearWaiting _ => 3
  | .unlockMutex _ => 2
  | .tryLock => 1
  | _ => 0

/-- **A consumed change is on its way**: with each operation of its own the worker comes
nearer to the call lock or to flagging the change again. -/
theorem workerStep_consumed {pc pc' : WorkerPc} {move : WorkerMove} {s t : ActorInterface}
    (h : workerStep pc move s = some (pc', t)) (hpc : pc.Consumed) :
    pc' = .working ∨ pc' = .idle ∧ t.Pending ∨ pc'.Consumed ∧ pc'.togo < pc.togo := by
  revert h
  fun_cases workerStep pc move s <;> intro h <;> cases h
  all_goals grind [Pending, WorkerPc.Consumed, WorkerPc.togo, flagInternalChange]

section
variable {Caller Flagger : Type} [DecidableEq Caller] [DecidableEq Flagger]

/-- A change is pending, or the worker has consumed it and is on its way. -/
def Kept (s : Config Caller Flagger) : Prop := s.shared.Pending ∨ s.worker.Consumed

/-- In the run from `s` a `workerThreadAcquire` returns true. -/
def Acquires (s : Config Caller Flagger) (as : List (Action Caller Flagger)) : Prop :=
  ∃ pre a post v w, as = pre ++ a :: post ∧ Exec (ofPartial step) s pre v ∧ step v a = some w ∧
    v.worker = .tryLock ∧ w.worker = .working

theorem step_kept {s t : Config Caller Flagger} {a : Action Caller Flagger} (h : step s a = some t)
    (hs : Kept s) : Kept t ∨ s.worker = .tryLock ∧ t.worker = .working := by
  cases a with
  | worker move =>
      obtain ⟨⟨pc, shared⟩, hstep, rfl⟩ := Option.map_eq_some_iff.mp h
      exact workerStep_flag hstep hs
  | caller c move =>
      obtain ⟨⟨pc, shared⟩, hstep, rfl⟩ := Option.map_eq_some_iff.mp h
      exact .inl (hs.imp_left (callerStep_flag hstep))
  | flagger f =>
      cases h
      exact .inl (hs.imp_left (flaggerStep_flag _))
  | flagInternalChange =>
      cases h
      exact .inl (.inl rfl)

/-- An operation that flags leaves the change pending. -/
theorem step_flags {s t : Config Caller Flagger} {a : Action Caller Flagger} (h : step s a = some t)
    (ha : Flags s a) : t.shared.Pending := by
  cases a with
  | worker move =>
      obtain ⟨⟨pc, shared⟩, hstep, rfl⟩ := Option.map_eq_some_iff.mp h
      rw [show s.worker = .reflag from ha] at hstep
      cases move <;> cases hstep
      rfl
  | caller c move =>
      obtain ⟨⟨pc, shared⟩, hstep, rfl⟩ := Option.map_eq_some_iff.mp h
      rw [show s.caller c = .flag from ha] at hstep
      cases move <;> cases hstep
      rfl
  | flagger f =>
      cases h
      show (flaggerStep (s.flagger f) s.shared).2.Pending
      rw [show s.flagger f = .idle from ha]
      rfl
  | flagInternalChange =>
      cases h
      rfl

/-- **No change is lost** before a `workerThreadAcquire` returns true. -/
theorem run_kept {s t : Config Caller Flagger} {as : List (Action Caller Flagger)}
    (h : Exec (ofPartial step) s as t) (hs : Kept s) : Kept t ∨ Acquires s as := by
  induction h with
  | nil => exact .inl hs
  | @cons s t u a as hstep hrun ih =>
      rcases step_kept hstep hs with ht | hacquire
      · rcases ih ht with hu | ⟨pre, b, post, v, w, rfl, hpre, hb⟩
        · exact .inl hu
        · exact .inr ⟨a :: pre, b, post, v, w, rfl, .cons hstep hpre, hb⟩
      · exact .inr ⟨[], a, as, s, t, rfl, .nil s, hstep, hacquire⟩

/-- **The context is exclusive and no change is lost**, in every run. Two parties that
hold the actor are one party. After an operation that flags, the change is pending, or
the worker has consumed it and is on its way, or an acquire has returned true since. On
its way means that the worker's own next operations, at most four of them, take the call
lock or flag the change again. -/
theorem context_exclusive_and_changes_kept {as : List (Action Caller Flagger)}
    {s : Config Caller Flagger} (hrun : Exec (ofPartial step) .init as s) :
    (∀ p q, s.Holds p → s.Holds q → p = q) ∧
    (∀ a t, step s a = some t → Flags s a → ∀ bs u, Exec (ofPartial step) t bs u →
      u.shared.Pending ∨ u.worker.Consumed ∨ Acquires t bs) ∧
    (∀ move t, step s (.worker move) = some t → s.worker.Consumed →
      t.worker = .working ∨ t.worker = .idle ∧ t.shared.Pending ∨
      t.worker.Consumed ∧ t.worker.togo < s.worker.togo) := by
  refine ⟨?_, ?_, ?_⟩
  · exact (hrun.invariant (fun _ _ _ hs hstep => step_exclusive hs hstep) exclusive_init).one
  · intro a t hstep hflags bs u hrun
    exact or_assoc.mp (run_kept hrun (.inl (step_flags hstep hflags)))
  · intro move t hstep hconsumed
    obtain ⟨⟨pc, shared⟩, hworker, rfl⟩ := Option.map_eq_some_iff.mp hstep
    exact workerStep_consumed hworker hconsumed

/-- A caller comes in between the worker's look at the callers and its try of the call
lock: the worker has consumed the change, and is about to flag it again. -/
theorem context_exclusive_and_changes_kept_busy :
    ∃ (as : List (Action Unit Unit)) (s : Config Unit Unit), Exec (ofPartial step) .init as s ∧
      s.worker = .reflag ∧ ¬ s.shared.Pending ∧ s.Holds (some ()) ∧ ¬ s.Holds none := by
  have hrun : (runPartial step (Config.init : Config Unit Unit)
      [.flagger (), .worker (.acquire false), .worker .next, .caller () .acquire, .caller () .next,
        .caller () .next, .caller () .next, .worker .next, .worker .next]).map
      (fun s => (s.worker, s.shared.changeFlagged, s.caller ())) =
      some (.reflag, true, .unlockMutex) := by decide +kernel
  obtain ⟨s, hs, hfields⟩ := Option.map_eq_some_iff.mp hrun
  obtain ⟨hworker, hflag, hcaller⟩ : s.worker = .reflag ∧ s.shared.changeFlagged = true ∧
      s.caller () = .unlockMutex := by simpa using hfields
  have hexec := exec_of_runPartial hs
  have hholds : s.Holds (some ()) := .inl hcaller
  refine ⟨_, s, hexec, hworker, by simp [Pending, hflag], hholds, ?_⟩
  intro hnone
  cases (context_exclusive_and_changes_kept hexec).1 none (some ()) hnone hholds

end

end PothosCore.Framework.ActorInterface

import PothosCore.Remote.RemoteProxy

/-!
# PothosCore.Remote.RemoteSteps

What one step of a thread in `transact` can do, said once: to the mutex, to the receive
section, to the notifications, to the replies, and to the call itself. A step of the
system is a step of a thread, a new call, or a step of the server (`System.step_cases`).
-/

namespace PothosCore.Remote

variable {ι : Type}

namespace Place

/-! ### A notification moves those that wait, and nothing else -/

@[simp] theorem locks_wake (p : Place ι) : p.wake.Locks = p.Locks := by cases p <;> rfl
@[simp] theorem receives_wake (p : Place ι) : p.wake.Receives = p.Receives := by cases p <;> rfl
@[simp] theorem notifies_wake (p : Place ι) : p.wake.Notifies = p.Notifies := by cases p <;> rfl
@[simp] theorem atWait_wake (p : Place ι) : p.wake.AtWait = p.AtWait := by cases p <;> rfl

@[simp] theorem number_wake (p : Place ι) : p.wake.number = p.number := by cases p <;> rfl
@[simp] theorem unsent_wake (p : Place ι) : p.wake.Unsent = p.Unsent := by cases p <;> rfl
@[simp] theorem hand_wake (p : Place ι) : p.wake.hand = p.hand := by cases p <;> rfl
@[simp] theorem result_wake (p : Place ι) : p.wake.result = p.result := by cases p <;> rfl

theorem not_waits_wake (p : Place ι) : ¬ p.wake.Waits := by
  cases p <;> simp [wake, Waits]

theorem AtNotify.not_atWait {p : Place ι} (h : p.AtNotify) : ¬ p.AtWait := by
  cases p with
  | wait n => exact h.elim
  | _ => exact id

theorem wake_eq_outside (p : Place ι) : (p.wake = outside) = (p = outside) := by
  cases p <;> simp [wake]

theorem wake_eq_markBlocking (p : Place ι) (n : Nat) : (p.wake = markBlocking n) = (p = markBlocking n) := by
  cases p <;> simp [wake]

end Place

/-! ### A step of a thread -/

/-- A thread at a place takes a step: it runs, `sendDatagram` or `recvDatagram` throws, or
its wait ends. -/
inductive Takes [DecidableEq ι] (tid : ι → UInt32) (t : ι) :
    Place ι → Connection ι → Place ι → Connection ι → Bool → Prop
  | run {p p' g g' b} : p.run tid t g = some (p', g', b) → Takes tid t p g p' g' b
  | sendFails (n g) : Takes tid t (.send n) g (.sendFailed n) g false
  | recvFails (n k g) :
      Takes tid t (.recv n) g (.recvFailed n) { g with is := g.is.drop k } false
  | wakes (n g) : Takes tid t (.waiting n) g (.woken n) g false

/-- What a step does with the requests on their way and the replies. -/
inductive Moves (tid : ι → UInt32) (t : ι) : Place ι → Connection ι → Place ι → Connection ι → Prop
  /-- Some that are on their way are lost, or none. -/
  | keeps {p p' g g'} : List.Sublist g'.inFlight g.inFlight → p'.hand = p.hand →
      g'.tidToReply = g.tidToReply → g'.received = g.received → g'.returned = g.returned →
      Moves tid t p g p' g'
  | sends {n g g'} : g'.inFlight = g.inFlight ++ [⟨t, n⟩] →
      g'.tidToReply = g.tidToReply → g'.received = g.received → g'.returned = g.returned →
      Moves tid t (.send n) g (.lock n) g'
  | receives {p p' g g' r} : g.inFlight = r.answers :: g'.inFlight → p.hand = none → p'.hand = some r →
      g'.tidToReply = g.tidToReply → g'.received = g.received ++ [r] → g'.returned = g.returned →
      Moves tid t p g p' g'
  | finds {p p' g g' r} : g'.inFlight = g.inFlight → p.hand = none → p'.hand = some r →
      g.tidToReply (tid t) = some r → g'.tidToReply = Function.update g.tidToReply (tid t) none →
      g'.received = g.received → g'.returned = g.returned → Moves tid t p g p' g'
  | stores {n r p' g g'} : g'.inFlight = g.inFlight → p'.hand = none → tid r.answers.thread ≠ tid t →
      g'.tidToReply = Function.update g.tidToReply (tid r.answers.thread) (some r) →
      g'.received = g.received → g'.returned = g.returned → Moves tid t (.deliver n r) g p' g'
  | returns {n r g g'} : g'.inFlight = g.inFlight → g'.tidToReply = g.tidToReply →
      g'.received = g.received → g'.returned = g.returned ++ [⟨⟨t, n⟩, r⟩] →
      Moves tid t (.notifyReturn n r) g .outside g'

theorem Connection.drop_inFlight (g : Connection ι) (k : Nat) :
    List.Sublist ({ g with is := g.is.drop k } : Connection ι).inFlight g.inFlight :=
  ((List.drop_sublist k g.is).map _).append_right _

/-- A step that leaves the streams and the replies alone. -/
theorem Moves.same {tid : ι → UInt32} {t : ι} {p p' : Place ι} {g g' : Connection ι} (hos : g'.os = g.os)
    (hserving : g'.serving = g.serving) (his : g'.is = g.is) (hhand : p'.hand = p.hand)
    (hcache : g'.tidToReply = g.tidToReply)
    (hreceived : g'.received = g.received) (hreturned : g'.returned = g.returned) :
    Moves tid t p g p' g' :=
  .keeps (by simp [Connection.inFlight, hos, hserving, his]) hhand hcache hreceived hreturned

namespace Takes

variable [DecidableEq ι] {tid : ι → UInt32} {t : ι} {p p' : Place ι} {g g' : Connection ι} {b : Bool}

/-- The mutex stays as it is, is taken, or is released. -/
theorem mutex (h : Takes tid t p g p' g' b) :
    ((p'.Locks ↔ p.Locks) ∧ g'.isMutex = g.isMutex) ∨
      (g.isMutex = none ∧ p'.Locks ∧ g'.isMutex = some t) ∨
      (p.Locks ∧ ¬ p'.Locks ∧ g'.isMutex = none) := by
  cases h with
  | sendFails n | recvFails n k | wakes n => simp [Place.Locks]
  | run h => cases p <;> simp only [Place.run] at h <;> grind [Place.Locks]

/-- The receive section is left alone, entered at its start, or left. -/
theorem receives (h : Takes tid t p g p' g' b) :
    ((p'.Receives ↔ p.Receives) ∧ g'.isBlocking = g.isBlocking) ∨
      ((∃ n, p = .markBlocking n) ∧ p'.Receives ∧ g'.isBlocking = true) ∨
      (p.Receives ∧ ¬ p'.Receives ∧ p'.Notifies ∧ g'.isBlocking = false) := by
  cases h with
  | sendFails n | recvFails n k | wakes n => simp [Place.Receives]
  | run h => cases p <;> simp only [Place.run] at h <;> grind [Place.Receives, Place.Notifies]

/-- A thread that is going to enter has seen `isBlocking` false. -/
theorem markBlocking {n : Nat} (h : Takes tid t p g p' g' b) (hp' : p' = .markBlocking n) :
    g'.isBlocking = false := by
  cases h with
  | sendFails n | recvFails n k | wakes n => simp at hp'
  | run h => cases p <;> simp only [Place.run] at h <;> grind

/-- A thread that is about to wait has seen `isBlocking` true, and only such a thread waits. -/
theorem waits (h : Takes tid t p g p' g' b) :
    (p'.AtWait → g'.isBlocking = true) ∧ (p'.Waits → p.AtWait) := by
  cases h with
  | sendFails n | recvFails n k | wakes n => simp [Place.AtWait, Place.Waits]
  | run h => cases p <;> simp only [Place.run] at h <;> grind [Place.AtWait, Place.Waits]

/-- A thread on its way to a notification goes on, until it notifies; then `isBlocking`
stays as it is. -/
theorem notifies (h : Takes tid t p g p' g' b) :
    (p.AtNotify ↔ b = true) ∧ (p.Notifies → b = false → p'.Notifies) ∧
      (b = true → g'.isBlocking = g.isBlocking) := by
  cases h with
  | sendFails n | recvFails n k | wakes n => simp [Place.AtNotify, Place.Notifies]
  | run h => cases p <;> simp only [Place.run] at h <;> grind [Place.AtNotify, Place.Notifies]

/-- After the notification it is not on its way to one. -/
theorem atNotify (h : Takes tid t p g p' g' b) (hp : p.AtNotify) : ¬ p'.Notifies := by
  cases h with
  | sendFails n | recvFails n k | wakes n => simp [Place.AtNotify] at hp
  | run h => cases p <;> simp only [Place.run] at h <;> grind [Place.AtNotify, Place.Notifies]

/-! ### The call -/

/-- A step is taken in a call, and ends it or stays in it. -/
theorem number (h : Takes tid t p g p' g' b) :
    p ≠ .outside ∧ (p' = .outside ∨ p'.number = p.number) := by
  cases h with
  | sendFails n | recvFails n k | wakes n => simp [Place.number]
  | run h => cases p <;> simp only [Place.run] at h <;> grind [Place.number]

/-- The request of a call is sent once; a call that ends without a return makes the
connection inactive, and nothing makes it active. -/
theorem active (h : Takes tid t p g p' g' b) :
    (p'.Unsent → p.Unsent) ∧ (g.connectionActive = false → g'.connectionActive = false) ∧
      (p' = .outside → g'.connectionActive = false ∨ ∃ n r, p = .notifyReturn n r) := by
  cases h with
  | sendFails n | recvFails n k | wakes n => simp [Place.Unsent]
  | run h => cases p <;> simp only [Place.run] at h <;> grind [Place.Unsent]

/-- A reply that is going to be returned was found under the own thread id. -/
theorem result {r : Reply ι} (h : Takes tid t p g p' g' b) (hr : p'.result = some r) :
    p.result = some r ∨ g.tidToReply (tid t) = some r ∨ tid r.answers.thread = tid t := by
  cases h with
  | sendFails n | recvFails n k | wakes n => simp [Place.result] at hr
  | run h => cases p <;> simp only [Place.run] at h <;> grind [Place.result]

/-! ### The replies -/

theorem moves_run (h : p.run tid t g = some (p', g', b)) : Moves tid t p g p' g' := by
  cases p with
  | outside | waiting n => simp [Place.run] at h
  | send n =>
      obtain ⟨rfl, rfl, -⟩ : _ ∧ _ ∧ _ := by simpa [Place.run] using h
      exact .sends (by simp [Connection.inFlight]) rfl rfl rfl
  | lookup n =>
      cases hcache : g.tidToReply (tid t) with
      | none =>
          obtain ⟨rfl, rfl, -⟩ : _ ∧ _ ∧ _ := by simpa [Place.run, hcache] using h
          exact .same rfl rfl rfl rfl rfl rfl rfl
      | some reply =>
          obtain ⟨rfl, rfl, -⟩ : _ ∧ _ ∧ _ := by simpa [Place.run, hcache] using h
          exact .finds rfl rfl rfl hcache rfl rfl rfl
  | recv n =>
      cases his : g.is with
      | nil => simp [Place.run, his] at h
      | cons reply is =>
          obtain ⟨rfl, rfl, -⟩ : _ ∧ _ ∧ _ := by simpa [Place.run, his] using h
          exact .receives (by simp [Connection.inFlight, his]) rfl rfl rfl rfl rfl
  | deliver n reply =>
      by_cases htid : tid reply.answers.thread = tid t
      · obtain ⟨rfl, rfl, -⟩ : _ ∧ _ ∧ _ := by simpa [Place.run, htid] using h
        exact .same rfl rfl rfl rfl rfl rfl rfl
      · obtain ⟨rfl, rfl, -⟩ : _ ∧ _ ∧ _ := by simpa [Place.run, htid] using h
        exact .stores rfl rfl htid rfl rfl rfl
  | notifyReturn n reply =>
      obtain ⟨rfl, rfl, -⟩ : _ ∧ _ ∧ _ := by simpa [Place.run] using h
      exact .returns rfl rfl rfl rfl
  | test n =>
      obtain ⟨rfl, rfl, -⟩ : _ ∧ _ ∧ _ := by simpa [Place.run] using h
      exact .same rfl rfl rfl (by split <;> rfl) rfl rfl rfl
  | lock n | woken n | relock n reply =>
      obtain ⟨-, rfl, rfl, -⟩ : _ ∧ _ ∧ _ ∧ _ := by simpa [Place.run] using h
      exact .same rfl rfl rfl rfl rfl rfl rfl
  | sendFailed n | wait n | again n | markBlocking n | unlock n | recvFailed n | failNotify n | failClose n
  | clearBlocking n reply | unlockStored n | notifyStored n | unlockReturn n reply =>
      obtain ⟨rfl, rfl, -⟩ : _ ∧ _ ∧ _ := by simpa [Place.run] using h
      exact .same rfl rfl rfl rfl rfl rfl rfl

/-- What a step does with the replies is one of the six. -/
theorem moves (h : Takes tid t p g p' g' b) : Moves tid t p g p' g' := by
  cases h with
  | run h => exact moves_run h
  | sendFails n | wakes n => exact .same rfl rfl rfl rfl rfl rfl rfl
  | recvFails n k => exact .keeps (g.drop_inFlight k) rfl rfl rfl rfl

end Takes

/-! ### A step of the system -/

namespace System

variable [DecidableEq ι] {tid : ι → UInt32} {s s' : System ι} {t u : ι} {p : Place ι} {g : Connection ι}
  {b : Bool}

@[simp] theorem goto_shared : (s.goto t p g b).shared = g := rfl
@[simp] theorem goto_calls : (s.goto t p g b).calls = s.calls := rfl

@[simp] theorem goto_self : (s.goto t p g b).place t = p := by simp [goto]

/-- What does not tell a thread that waits from one that was woken sees only the step. -/
theorem goto_view {β : Type*} {F : Place ι → β} (hF : ∀ p, F p.wake = F p) :
    F ((s.goto t p g b).place u) = if u = t then F p else F (s.place u) := by
  by_cases h : u = t
  · simp [h]
  · cases b <;> simp [goto, h, hF]

theorem goto_not_waits (h : u ≠ t) : ¬ ((s.goto t p g true).place u).Waits := by
  simpa [goto, h] using (s.place u).not_waits_wake

theorem goto_quiet (h : u ≠ t) : (s.goto t p g false).place u = s.place u := by
  simp [goto, h]

/-- A call of `transact` that finds the connection active. -/
def called (s : System ι) (t : ι) : System ι :=
  { s.goto t (.send (s.calls t)) s.shared false with calls := Function.update s.calls t (s.calls t + 1) }

@[simp] theorem called_self : (s.called t).place t = .send (s.calls t) := by simp [called]

@[simp] theorem called_shared : (s.called t).shared = s.shared := rfl

theorem called_place (h : u ≠ t) : (s.called t).place u = s.place u := by simp [called, goto_quiet h]

theorem called_calls : (s.called t).calls u = if u = t then s.calls t + 1 else s.calls u := by
  simp [called, Function.update_apply]

/-- A new call changes nothing that is the same before and after it. -/
theorem called_view {β : Type*} (F : Place ι → β) (ht : s.place t = .outside)
    (hF : ∀ n, F (.send n) = F .outside) : F ((s.called t).place u) = F (s.place u) := by
  by_cases h : u = t
  · subst h
    simp [ht, hF]
  · rw [called_place h]

/-- **A step** is taken by a thread, begins a call, or is a step of the server, which moves
no request out of the order they are in. -/
theorem step_cases {a : Action ι} (h : s.step tid a = some s') :
    (∃ t p' g' b, Takes tid t (s.place t) s.shared p' g' b ∧ s' = s.goto t p' g' b ∧
      (a = .run t ∨ b = false)) ∨
    (∃ t, s.place t = .outside ∧ s.shared.connectionActive = true ∧ s' = s.called t) ∨
    (∃ os serving is, s' = { s with shared := { s.shared with os := os, serving := serving, is := is } } ∧
      s'.shared.inFlight = s.shared.inFlight) := by
  cases a with
  | call t =>
      have hs : s.place t = .outside ∧ s.shared.connectionActive = true ∧ s' = s.called t := by
        simp only [step] at h
        split at h <;> grind [called]
      exact .inr (.inl ⟨t, hs⟩)
  | run t =>
      cases hr : (s.place t).run tid t s.shared with
      | none => simp [step, hr] at h
      | some moved =>
          have hs : s.goto t moved.1 moved.2.1 moved.2.2 = s' := by simpa [step, hr] using h
          exact .inl ⟨t, _, _, _, .run hr, hs.symm, .inl rfl⟩
  | sendFails t =>
      cases hp : s.place t with
      | send n =>
          have hs : s.goto t (.sendFailed n) s.shared false = s' := by simpa [step, hp] using h
          exact .inl ⟨t, _, _, _, hp ▸ .sendFails n _, hs.symm, .inr rfl⟩
      | _ => simp [step, hp] at h
  | recvFails t k =>
      cases hp : s.place t with
      | recv n =>
          have hs : s.goto t (.recvFailed n) { s.shared with is := s.shared.is.drop k } false = s' := by
            simpa [step, hp] using h
          exact .inl ⟨t, _, _, _, hp ▸ .recvFails n k _, hs.symm, .inr rfl⟩
      | _ => simp [step, hp] at h
  | wakes t =>
      cases hp : s.place t with
      | waiting n =>
          have hs : s.goto t (.woken n) s.shared false = s' := by simpa [step, hp] using h
          exact .inl ⟨t, _, _, _, hp ▸ .wakes n _, hs.symm, .inr rfl⟩
      | _ => simp [step, hp] at h
  | serve =>
      cases hserving : s.shared.serving with
      | some request => simp [step, hserving] at h
      | none =>
          cases hos : s.shared.os with
          | nil => simp [step, hserving, hos] at h
          | cons request os =>
              obtain rfl : _ = s' := by simpa [step, hserving, hos] using h
              exact .inr (.inr ⟨os, some request, s.shared.is, rfl, by
                simp [Connection.inFlight, hserving, hos]⟩)
  | reply =>
      cases hserving : s.shared.serving with
      | none => simp [step, hserving] at h
      | some request =>
          obtain rfl : _ = s' := by simpa [step, hserving] using h
          exact .inr (.inr ⟨s.shared.os, none, s.shared.is ++ [⟨request⟩], rfl, by
            simp [Connection.inFlight, hserving]⟩)

end System

end PothosCore.Remote

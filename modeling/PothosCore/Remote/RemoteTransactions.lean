import PothosCore.Remote.RemoteReplies

/-!
# PothosCore.Remote.RemoteTransactions

Runs of threads that call `transact` over one connection. In every run the replies are
matched to their requests (`Matched`). That nobody waits forever (`Attended`) holds as long
as the notifications are heard: the code for a `recvDatagram` that throws clears
`isBlocking` and notifies without the mutex, so that another thread can be between its test
of `isBlocking` and the wait (`transacts_iff`, `not_transacts`).
-/

namespace PothosCore.Remote

open PothosCore.Lib

variable {ι : Type} [DecidableEq ι] {tid : ι → UInt32}

namespace System

variable {s s' : System ι} {a : Action ι} {t u : ι} {p' : Place ι} {g' : Connection ι} {b : Bool}

/-! ### One thread has the mutex, one is in the receive section -/

/-- The mutex is with the thread that locked it, and `isBlocking` says that a thread is in
the receive section; there is one at most. -/
structure Sectioned (s : System ι) : Prop where
  mutex : ∀ u, (s.place u).Locks ↔ s.shared.isMutex = some u
  blocks : ∀ u, (s.place u).Receives → s.shared.isBlocking = true
  sole : ∀ u v, (s.place u).Receives → (s.place v).Receives → u = v
  manned : s.shared.isBlocking = true → ∃ u, (s.place u).Receives
  free : ∀ u n, s.place u = .markBlocking n → s.shared.isBlocking = false

omit [DecidableEq ι] in
theorem Sectioned.start : (start : System ι).Sectioned := by
  constructor <;> simp [System.start, Connection.start, Place.Locks, Place.Receives]

theorem Sectioned.takes (hs : s.Sectioned) (h : Takes tid t (s.place t) s.shared p' g' b) :
    (s.goto t p' g' b).Sectioned where
  mutex u := by
    rw [goto_view Place.locks_wake, goto_shared]
    have := hs.mutex u
    have := hs.mutex t
    rcases h.mutex with ⟨hp, hg⟩ | ⟨hnone, hp, hg⟩ | ⟨hp, hp', hg⟩ <;> grind
  blocks u := by
    rw [goto_view Place.receives_wake, goto_shared]
    have := hs.blocks u
    have := hs.blocks t
    have := hs.sole u t
    rcases h.receives with ⟨hp, hg⟩ | ⟨-, hp, hg⟩ | ⟨hp, hp', -, hg⟩ <;> grind
  sole u v := by
    rw [goto_view Place.receives_wake, goto_view Place.receives_wake]
    have := hs.sole u v
    rcases h.receives with ⟨hp, hg⟩ | ⟨⟨n, hn⟩, hp, hg⟩ | ⟨hp, hp', -, hg⟩
    · grind [hs.sole u t, hs.sole t v]
    · -- nobody was in the section
      grind [hs.free t n hn, hs.blocks u, hs.blocks v]
    · grind [hs.sole u t, hs.sole t v]
  manned := by
    rw [goto_shared]
    intro hblocking
    rcases h.receives with ⟨hp, hg⟩ | ⟨-, hp, hg⟩ | ⟨hp, hp', -, hg⟩
    · obtain ⟨u, hu⟩ := hs.manned (hg ▸ hblocking)
      refine ⟨u, ?_⟩
      rw [goto_view Place.receives_wake]
      grind
    · exact ⟨t, by rw [goto_self]; exact hp⟩
    · simp [hg] at hblocking
  free u n := by
    rw [goto_view (F := fun p => p = .markBlocking n) (Place.wake_eq_markBlocking · n), goto_shared]
    intro hu
    by_cases hut : u = t
    · exact h.markBlocking (by simpa [hut] using hu)
    · have hu : s.place u = .markBlocking n := by simpa [hut] using hu
      have hfree := hs.free u n hu
      rcases h.receives with ⟨-, hg⟩ | ⟨⟨m, hm⟩, -, -⟩ | ⟨-, -, -, hg⟩
      · rw [hg, hfree]
      · -- both would have the mutex
        have hlu := (hs.mutex u).mp (by simp [hu, Place.Locks])
        have hlt := (hs.mutex t).mp (by simp [hm, Place.Locks])
        grind
      · exact hg

theorem Sectioned.called (hs : s.Sectioned) (ht : s.place t = .outside) : (s.called t).Sectioned := by
  have hlocks (u) := called_view (u := u) Place.Locks ht (fun _ => rfl)
  have hreceives (u) := called_view (u := u) Place.Receives ht (fun _ => rfl)
  refine ⟨fun u => ?_, fun u => ?_, fun u v => ?_, fun h => ?_, fun u n => ?_⟩
  · rw [hlocks]
    exact hs.mutex u
  · rw [hreceives]
    exact hs.blocks u
  · rw [hreceives, hreceives]
    exact hs.sole u v
  · obtain ⟨u, hu⟩ := hs.manned h
    exact ⟨u, by rwa [hreceives]⟩
  · rw [called_view (fun p => p = .markBlocking n) ht (by simp)]
    exact hs.free u n

theorem Sectioned.step (hs : s.Sectioned) (h : s.step tid a = some s') : s'.Sectioned := by
  obtain ⟨t, p', g', b, ht, rfl, -⟩ | ⟨t, hout, -, rfl⟩ | ⟨os, serving, is, rfl, -⟩ := step_cases h
  · exact hs.takes ht
  · exact hs.called hout
  · exact ⟨hs.mutex, hs.blocks, hs.sole, hs.manned, hs.free⟩

/-! ### Nobody waits forever -/

/-- While a thread waits or is about to, another is in the receive section, or on its way
to a notification. -/
def Hushed (s : System ι) : Prop :=
  ∀ u, (s.place u).AtWait ∨ (s.place u).Waits →
    s.shared.isBlocking = true ∨ ∃ v, (s.place v).Notifies

omit [DecidableEq ι] in
theorem Hushed.attended (hs : s.Hushed) (hsection : s.Sectioned) : s.Attended := by
  intro u hu
  cases hs u (.inr hu) with
  | inl hblocking => exact .inl ⟨hblocking, hsection.manned hblocking⟩
  | inr hnotifies => exact .inr hnotifies

/-- A step without a notification. -/
theorem Hushed.takes_quiet (hs : s.Hushed) (h : Takes tid t (s.place t) s.shared p' g' false) :
    (s.goto t p' g' false).Hushed := by
  intro u hu
  -- what holds before the step for a thread that waits
  have hkept (hbefore : s.shared.isBlocking = true ∨ ∃ v, (s.place v).Notifies) :
      g'.isBlocking = true ∨ ∃ v, ((s.goto t p' g' false).place v).Notifies := by
    rcases hbefore with hblocking | ⟨v, hv⟩
    · rcases h.receives with ⟨-, hg⟩ | ⟨-, -, hg⟩ | ⟨-, -, hnotifies, -⟩
      · exact .inl (hg ▸ hblocking)
      · exact .inl hg
      · exact .inr ⟨t, by rwa [goto_self]⟩
    · refine .inr ⟨v, ?_⟩
      rw [goto_view Place.notifies_wake]
      have := h.notifies.2.1
      grind
  by_cases hut : u = t
  · subst hut
    rw [goto_self] at hu
    cases hu with
    | inl hatWait => exact .inl (h.waits.1 hatWait)
    | inr hwaits => exact hkept (hs u (.inl (h.waits.2 hwaits)))
  · rw [goto_quiet hut] at hu
    exact hkept (hs u hu)

/-- A step with a notification that is heard. -/
theorem Hushed.takes_notify (h : Takes tid t (s.place t) s.shared p' g' true)
    (hheard : s.shared.isBlocking = true ∨ (∀ u, ¬ (s.place u).AtWait) ∨ ∃ u, u ≠ t ∧ (s.place u).Notifies) :
    (s.goto t p' g' true).Hushed := by
  intro u hu
  have hnotify : (s.place t).AtNotify := h.notifies.1.mpr rfl
  have hnotWait : ¬ (s.place t).AtWait := hnotify.not_atWait
  by_cases hut : u = t
  · subst hut
    rw [goto_self] at hu
    cases hu with
    | inl hatWait => exact .inl (h.waits.1 hatWait)
    | inr hwaits => exact absurd (h.waits.2 hwaits) hnotWait
  · have hatWait : (s.place u).AtWait := by
      have := hu.resolve_right (goto_not_waits hut)
      rw [goto_view Place.atWait_wake, if_neg hut] at this
      exact this
    rcases hheard with hblocking | hnone | ⟨v, hvt, hv⟩
    · exact .inl ((h.notifies.2.2 rfl).trans hblocking)
    · exact absurd hatWait (hnone u)
    · refine .inr ⟨v, ?_⟩
      rw [goto_view Place.notifies_wake, if_neg hvt]
      exact hv

theorem Hushed.step (hs : s.Hushed) (h : s.step tid a = some s') (hheard : s.Heard a) : s'.Hushed := by
  obtain ⟨t, p', g', b, ht, rfl, ha⟩ | ⟨t, hout, -, rfl⟩ | ⟨os, serving, is, rfl, -⟩ := step_cases h
  · cases b with
    | false => exact hs.takes_quiet ht
    | true =>
        obtain rfl : a = .run t := by simpa using ha
        exact .takes_notify ht (hheard (ht.notifies.1.mpr rfl))
  · intro u hu
    rw [called_view Place.AtWait hout (fun _ => rfl), called_view Place.Waits hout (fun _ => rfl)] at hu
    rcases hs u hu with hblocking | ⟨v, hv⟩
    · exact .inl hblocking
    · exact .inr ⟨v, by rwa [called_view Place.Notifies hout (fun _ => rfl)]⟩
  · exact hs

omit [DecidableEq ι] in
/-- The notification that is not heard, and the thread that does not hear it. -/
theorem not_heard (hheard : ¬ s.Heard a) : ∃ t u n, a = .run t ∧ (s.place t).AtNotify ∧
    s.shared.isBlocking = false ∧ s.place u = .wait n ∧ ∀ v, v ≠ t → ¬ (s.place v).Notifies := by
  cases a with
  | run t =>
      have hunheard : (s.place t).AtNotify ∧ s.shared.isBlocking = false ∧
          (∃ u, (s.place u).AtWait) ∧ ∀ v, v ≠ t → ¬ (s.place v).Notifies := by
        simpa [Heard] using hheard
      obtain ⟨hnotify, hblocking, ⟨u, hu⟩, hnone⟩ := hunheard
      cases hp : s.place u with
      | wait n => exact ⟨t, u, n, rfl, hnotify, hblocking, hp, hnone⟩
      | _ => simp [hp, Place.AtWait] at hu
  | _ => exact absurd trivial hheard

/-- After a notification that is not heard, a thread waits one step later, with nobody to
attend to it. -/
theorem unheard (h : s.step tid a = some s') (hheard : ¬ s.Heard a) :
    ∃ u s'', s'.step tid (.run u) = some s'' ∧ ¬ s''.Attended := by
  obtain ⟨t, u, n, rfl, hnotify, hblocking, hu, hnone⟩ := not_heard hheard
  obtain ⟨p', g', b, ht, rfl⟩ : ∃ p' g' b, Takes tid t (s.place t) s.shared p' g' b ∧ s' = s.goto t p' g' b := by
    obtain ⟨⟨p', g', b⟩, hrun, hs⟩ := Option.map_eq_some_iff.mp h
    exact ⟨p', g', b, .run hrun, hs.symm⟩
  obtain rfl : b = true := ht.notifies.1.mp hnotify
  have hut : u ≠ t := by
    rintro rfl
    simp [hu, Place.AtNotify] at hnotify
  have hu' : (s.goto t p' g' true).place u = .wait n := by simp [goto, hut, hu, Place.wake]
  refine ⟨u, _, by simp only [step, hu', Place.run]; rfl, fun hattended => ?_⟩
  have hwaits := hattended u (by simp [Place.Waits])
  rcases hwaits with ⟨hblocking', -⟩ | ⟨v, hv⟩
  · have := ht.notifies.2.2 rfl
    simp_all
  · rw [goto_view Place.notifies_wake, goto_view Place.notifies_wake] at hv
    split at hv
    · simp [Place.Notifies] at hv
    · split at hv
      · exact ht.atNotify hnotify hv
      · exact hnone v ‹_› hv

/-! ### Runs -/

/-- What is to hold in every run: calls and replies are matched, and a thread that waits is
attended to. -/
def Transacts (tid : ι → UInt32) : Prop :=
  ∀ acts s, Exec (ofPartial (step tid)) start acts s → s.Matched tid ∧ s.Attended

/-- What every step keeps. -/
structure Invariant (tid : ι → UInt32) (s : System ι) : Prop where
  tracked : s.Tracked tid
  settled : s.Settled
  kept : Kept tid s

theorem Invariant.of_run (hinj : Function.Injective tid) {acts : List (Action ι)}
    (h : Exec (ofPartial (System.step tid)) start acts s) : Invariant tid s := by
  refine h.invariant (P := Invariant tid) (fun s a s' hs hstep => ?_) ⟨.start, .start, .start⟩
  exact ⟨hs.tracked.step hinj hstep, hs.settled.step hs.tracked hstep, hs.kept.step hinj hs.tracked hstep⟩

omit [DecidableEq ι] in
theorem Invariant.matched (hinj : Function.Injective tid) (hs : Invariant tid s) : s.Matched tid where
  own := hs.settled.own
  once := hs.settled.once
  kept := hs.kept
  stores _ _ _ hp _ := hs.tracked.stores hinj hp

/-- A run whose notifications are heard. -/
theorem attended_of_heard {acts : List (Action ι)}
    (h : Exec (restrict (ofPartial (step tid)) Heard) start acts s) : s.Attended := by
  have hs : s.Sectioned ∧ s.Hushed := by
    refine h.invariant (P := fun s => s.Sectioned ∧ s.Hushed) (fun s a s' hs hstep => ?_) ⟨.start, ?_⟩
    · exact ⟨hs.1.step hstep.1, hs.2.step hstep.1 hstep.2⟩
    · intro u hu
      simp [start, Place.AtWait, Place.Waits] at hu
  exact hs.2.attended hs.1

/-- **Remote transactions**: every run matches calls and replies; a run whose notifications
are heard leaves no thread waiting unattended, and a notification that is not heard does so
one step later. -/
theorem transacts_iff (hinj : Function.Injective tid) {acts : List (Action ι)}
    (h : Exec (ofPartial (step tid)) start acts s) :
    s.Matched tid ∧
      (Exec (restrict (ofPartial (step tid)) Heard) start acts s → s.Attended) ∧
      ∀ a s', s.step tid a = some s' → ¬ s.Heard a →
        ∃ u s'', s'.step tid (.run u) = some s'' ∧ ¬ s''.Attended :=
  ⟨(Invariant.of_run hinj h).matched hinj, attended_of_heard, fun _ _ => unheard⟩

/-! ### Two threads -/

/-- Their thread ids. -/
def twoTids (t : Fin 2) : UInt32 := UInt32.ofNat t.val

/-- The steps of a thread up to the receive. -/
def upToRecv (t : Fin 2) : List (Action (Fin 2)) :=
  [.call t, .run t, .run t, .run t, .run t, .run t, .run t]

/-- The second thread waits while the first one receives the reply of the second, stores it,
receives its own and returns it; then the second returns. -/
def served : List (Action (Fin 2)) :=
  [.call 1, .run 1] ++ upToRecv 0 ++ [.run 1, .run 1, .run 1, .run 1] ++
    [.serve, .reply, .run 0, .run 0, .run 0, .run 0, .run 0, .run 0] ++
    [.serve, .reply, .run 0, .run 0, .run 0, .run 0, .run 0, .run 0, .run 0, .run 0, .run 0, .run 0, .run 0] ++
    [.run 1, .run 1, .run 1, .run 1, .run 1, .run 1]

theorem transacts_iff_served : ∃ s, Exec (ofPartial (step twoTids)) start served s ∧
    s.shared.returned = [⟨⟨0, 0⟩, ⟨⟨0, 0⟩⟩⟩, ⟨⟨1, 0⟩, ⟨⟨1, 0⟩⟩⟩] ∧ s.Matched twoTids ∧ s.Attended := by
  obtain ⟨s, hrun, hreturned⟩ : ∃ s ∈ runPartial (guarded (step twoTids) Heard) start served,
      s.shared.returned = [⟨⟨0, 0⟩, ⟨⟨0, 0⟩⟩⟩, ⟨⟨1, 0⟩, ⟨⟨1, 0⟩⟩⟩] := by decide +kernel
  have hheard := exec_of_runPartial hrun
  rw [ofPartial_guarded] at hheard
  have h := transacts_iff (by decide) hheard.of_restrict
  exact ⟨s, hheard.of_restrict, hreturned, h.1, h.2.1 hheard⟩

/-- The second thread is between its test of `isBlocking` and the wait when `recvDatagram`
throws in the first. -/
def unheardFailure : List (Action (Fin 2)) :=
  upToRecv 0 ++ [.call 1, .run 1, .run 1, .run 1, .run 1] ++ [.recvFails 0 0, .run 0, .run 0] ++ [.run 1]

/-- It waits, and nobody will notify it. -/
theorem not_transacts : ¬ Transacts twoTids := by
  intro h
  obtain ⟨s, hrun, hwaits, hblocking, hnone⟩ : ∃ s ∈ runPartial (step twoTids) start unheardFailure,
      (s.place 1).Waits ∧ s.shared.isBlocking = false ∧ ∀ u, ¬ (s.place u).Notifies := by decide +kernel
  rcases (h _ s (exec_of_runPartial hrun)).2 1 hwaits with ⟨hblocking', -⟩ | ⟨u, hu⟩
  · simp [hblocking] at hblocking'
  · exact hnone u hu

end System

end PothosCore.Remote

import Mathlib.Data.BitVec
import Mathlib.Data.Finset.Card
import PothosCore.Lib.SharedSections

/-!
# PothosCore.Util.SpinLockRW

The read/write spinlock, and threads that read and write under it.

The lock is one atomic word: all ones for a writer, else the number of readers. A thread
that wants the lock shared loads the word, and then tries to swap in one more; between the
two anything may happen, and a weak exchange may fail for no reason. The word never
overflows: the number of readers that looks like a writer lets no other reader in.
-/

namespace PothosCore.Util

open PothosCore.Lib

/-- `WRITER_LOCK`. -/
def writerLock : BitVec 32 := BitVec.allOnes 32

/-- `UNLOCKED`. -/
def unlocked : BitVec 32 := 0

/-- What a thread is about to do with the lock. -/
inductive LockPc (σ ρ : Type*)
  | outside
  /-- The load of `try_lock_shared`. -/
  | load (start : ρ) (body : List (σ → ρ → ρ))
  /-- Its exchange, with the value that was loaded. -/
  | exchange (start : ρ) (body : List (σ → ρ → ρ)) (expected : BitVec 32)
  /-- The exchange of `try_lock`. -/
  | tryLock (body : List (σ → σ))
  /-- It has the lock. -/
  | locked (inside : Inside σ ρ)

/-- The section that a thread has the lock for. -/
def LockPc.inside {σ ρ : Type*} : LockPc σ ρ → Option (Inside σ ρ)
  | .locked i => some i
  | _ => none

/-- The lock, the data under it, and the threads. -/
structure SpinLockRW (T σ ρ : Type*) where
  lock : BitVec 32
  data : σ
  pc : T → LockPc σ ρ

/-- What a thread does, as far as the data goes. -/
inductive LockEvent (T σ ρ : Type*)
  /-- It calls a function of the lock, or is on its way in. -/
  | spin (t : T)
  | work (e : SectionEvent T σ ρ)

def LockEvent.section? {T σ ρ : Type*} : LockEvent T σ ρ → Option (SectionEvent T σ ρ)
  | .spin _ => none
  | .work e => some e

namespace SpinLockRW

variable {T σ ρ : Type*}

/-- `SpinLockRW()`: no thread has called anything. -/
def start (data : σ) : SpinLockRW T σ ρ := ⟨unlocked, data, fun _ => .outside⟩

section

variable [DecidableEq T]

/-- The thread is at `pc` next. -/
def goto (s : SpinLockRW T σ ρ) (t : T) (pc : LockPc σ ρ) : SpinLockRW T σ ρ :=
  { s with pc := Function.update s.pc t pc }

/-- **One atomic operation** of one thread. -/
inductive Step : SpinLockRW T σ ρ → LockEvent T σ ρ → SpinLockRW T σ ρ → Prop
  /-- It calls `lock_shared()` or `try_lock_shared()`. -/
  | callShared (s : SpinLockRW T σ ρ) (t : T) (start : ρ) (body : List (σ → ρ → ρ)) (hpc : s.pc t = .outside) :
      Step s (.spin t) (s.goto t (.load start body))
  /-- It calls `lock()` or `try_lock()`. -/
  | call (s : SpinLockRW T σ ρ) (t : T) (body : List (σ → σ)) (hpc : s.pc t = .outside) :
      Step s (.spin t) (s.goto t (.tryLock body))
  /-- The load finds no writer. -/
  | load (s : SpinLockRW T σ ρ) (t : T) {start : ρ} {body : List (σ → ρ → ρ)} (hpc : s.pc t = .load start body)
      (hlock : s.lock ≠ writerLock) : Step s (.spin t) (s.goto t (.exchange start body s.lock))
  /-- A try fails, and `lock_shared()` or `lock()` tries again. -/
  | failShared (s : SpinLockRW T σ ρ) (t : T) {start : ρ} {body : List (σ → ρ → ρ)} {expected : BitVec 32}
      (hpc : s.pc t = .exchange start body expected) : Step s (.spin t) (s.goto t (.load start body))
  | failLoad (s : SpinLockRW T σ ρ) (t : T) {start : ρ} {body : List (σ → ρ → ρ)} (hpc : s.pc t = .load start body)
      (hlock : s.lock = writerLock) : Step s (.spin t) s
  | fail (s : SpinLockRW T σ ρ) (t : T) {body : List (σ → σ)} (hpc : s.pc t = .tryLock body) : Step s (.spin t) s
  /-- A try fails, and `try_lock_shared()` or `try_lock()` returns false. -/
  | giveUpShared (s : SpinLockRW T σ ρ) (t : T) {start : ρ} {body : List (σ → ρ → ρ)}
      (hpc : (s.pc t = .load start body ∧ s.lock = writerLock) ∨ ∃ expected, s.pc t = .exchange start body expected) :
      Step s (.spin t) (s.goto t .outside)
  | giveUp (s : SpinLockRW T σ ρ) (t : T) {body : List (σ → σ)} (hpc : s.pc t = .tryLock body) :
      Step s (.spin t) (s.goto t .outside)
  /-- The exchange of `try_lock_shared()` puts in one more reader. -/
  | exchange (s : SpinLockRW T σ ρ) (t : T) {start : ρ} {body : List (σ → ρ → ρ)} {expected : BitVec 32}
      (hpc : s.pc t = .exchange start body expected) (hlock : s.lock = expected) :
      Step s (.work (.enter t (.read start body)))
        { s.goto t (.locked (.reading start body body start)) with lock := expected + 1 }
  /-- The exchange of `try_lock()` puts in the writer. -/
  | tryLock (s : SpinLockRW T σ ρ) (t : T) {body : List (σ → σ)} (hpc : s.pc t = .tryLock body)
      (hlock : s.lock = unlocked) :
      Step s (.work (.enter t (.write body)))
        { s.goto t (.locked (.writing body body)) with lock := writerLock }
  | read (s : SpinLockRW T σ ρ) (t : T) {start : ρ} {body rest : List (σ → ρ → ρ)} {f : σ → ρ → ρ} {value : ρ}
      (hpc : s.pc t = .locked (.reading start body (f :: rest) value)) :
      Step s (.work (.step t)) (s.goto t (.locked (.reading start body rest (f s.data value))))
  | write (s : SpinLockRW T σ ρ) (t : T) {body rest : List (σ → σ)} {f : σ → σ}
      (hpc : s.pc t = .locked (.writing body (f :: rest))) :
      Step s (.work (.step t)) { s.goto t (.locked (.writing body rest)) with data := f s.data }
  /-- `unlock_shared()` -/
  | unlockShared (s : SpinLockRW T σ ρ) (t : T) {start : ρ} {body : List (σ → ρ → ρ)} {value : ρ}
      (hpc : s.pc t = .locked (.reading start body [] value)) :
      Step s (.work (.leave (.read t start body value))) { s.goto t .outside with lock := s.lock - 1 }
  /-- `unlock()` -/
  | unlock (s : SpinLockRW T σ ρ) (t : T) {body : List (σ → σ)} (hpc : s.pc t = .locked (.writing body [])) :
      Step s (.work (.leave (.write t body))) { s.goto t .outside with lock := unlocked }

end

/-! ### What the word says -/

/-- The section that a thread is in. -/
def inside (s : SpinLockRW T σ ρ) (t : T) : Option (Inside σ ρ) := (s.pc t).inside

/-- The data and the sections, without the lock. -/
def sections (s : SpinLockRW T σ ρ) : Sections T σ ρ := ⟨s.data, s.inside⟩

/-- The lock is held shared by these threads, and by no other thread. -/
structure HeldShared (s : SpinLockRW T σ ρ) (readers : Finset T) : Prop where
  mem : ∀ t, t ∈ readers ↔ ∃ i, s.inside t = some i
  reads : ∀ t i, s.inside t = some i → ¬ i.Writes
  few : readers.card < 2 ^ 32
  lock : s.lock.toNat = readers.card

/-- The lock is held by one thread, and by no other. -/
structure Held (s : SpinLockRW T σ ρ) (t : T) : Prop where
  writes : ∃ i, s.inside t = some i ∧ i.Writes
  alone : ∀ t', t' ≠ t → s.inside t' = none
  lock : s.lock = writerLock

/-- **The word says who has the lock**, and a reader on its way in has not seen a writer. -/
structure Sound (s : SpinLockRW T σ ρ) : Prop where
  holders : (∃ readers, s.HeldShared readers) ∨ ∃ t, s.Held t
  expected : ∀ t start body expected, s.pc t = .exchange start body expected → expected ≠ writerLock

theorem sound_start (data : σ) : (start data : SpinLockRW T σ ρ).Sound where
  holders := .inl ⟨∅, ⟨fun t => by simp [inside, start, LockPc.inside], fun t i hin => (by cases hin),
    by rw [Finset.card_empty]; decide, rfl⟩⟩
  expected := fun _ _ _ _ hpc => (by cases hpc)

theorem toNat_writerLock : writerLock.toNat = 2 ^ 32 - 1 := by decide

variable {s s' : SpinLockRW T σ ρ}

theorem inside_of_locked {t : T} {i : Inside σ ρ} (hpc : s.pc t = .locked i) : s.inside t = some i := by
  rw [inside, hpc]
  rfl

/-- Nobody has an unlocked lock. -/
theorem Sound.inside_none (h : s.Sound) (hlock : s.lock = unlocked) (t : T) : s.inside t = none := by
  rcases h.holders with ⟨readers, hheld⟩ | ⟨t', hheld⟩
  · have hcard : readers.card = 0 := by rw [← hheld.lock, hlock]; rfl
    rw [Finset.card_eq_zero] at hcard
    cases hin : s.inside t with
    | none => rfl
    | some i =>
        have hmem := (hheld.mem t).mpr ⟨i, hin⟩
        rw [hcard] at hmem
        cases hmem
  · exact absurd (hheld.lock.symm.trans hlock) (by decide)

/-- A lock that nobody has is unlocked. -/
theorem Sound.unlocked_iff (h : s.Sound) : s.lock = unlocked ↔ ∀ t, s.inside t = none := by
  refine ⟨h.inside_none, fun hnone => ?_⟩
  rcases h.holders with ⟨readers, hheld⟩ | ⟨t, hheld⟩
  · have hempty : readers = ∅ := by
      refine Finset.eq_empty_of_forall_notMem fun t hmem => ?_
      obtain ⟨i, hin⟩ := (hheld.mem t).mp hmem
      rw [hnone t] at hin
      cases hin
    refine BitVec.eq_of_toNat_eq ?_
    rw [hheld.lock, hempty, Finset.card_empty]
    rfl
  · obtain ⟨i, hin, -⟩ := hheld.writes
    rw [hnone t] at hin
    cases hin

/-- Without the writer's word there are readers at most. -/
theorem Sound.heldShared (h : s.Sound) (hlock : s.lock ≠ writerLock) : ∃ readers, s.HeldShared readers :=
  h.holders.resolve_right fun ⟨_, hheld⟩ => hlock hheld.lock

variable [DecidableEq T]

@[simp] theorem goto_pc (t : T) (pc : LockPc σ ρ) : (s.goto t pc).pc = Function.update s.pc t pc := rfl

theorem inside_goto (t : T) (pc : LockPc σ ρ) : (s.goto t pc).inside = Function.update s.inside t pc.inside := by
  funext t'
  by_cases ht : t' = t
  · rw [ht, Function.update_self, inside, goto_pc, Function.update_self]
  · rw [Function.update_of_ne ht, inside, goto_pc, Function.update_of_ne ht]
    rfl

/-- A thread that is in no section stays out of one. -/
theorem inside_goto_none {t : T} {pc : LockPc σ ρ} (hpc : pc.inside = none) (hout : s.inside t = none) :
    (s.goto t pc).inside = s.inside := by
  rw [inside_goto, hpc, ← hout, Function.update_eq_self]

/-- Moves on the way in and out of the lock keep the word right. -/
theorem Sound.goto (h : s.Sound) {t : T} (pc : LockPc σ ρ) (hpc : pc.inside = none) (hout : s.inside t = none)
    (hexpected : ∀ start body expected, pc = .exchange start body expected → expected ≠ writerLock) :
    (s.goto t pc).Sound ∧ (s.goto t pc).sections = s.sections := by
  have hinside := inside_goto_none hpc hout
  refine ⟨⟨?_, ?_⟩, by rw [sections, hinside]; rfl⟩
  · rcases h.holders with ⟨readers, hheld⟩ | ⟨t', hheld⟩
    · exact .inl ⟨readers, by rw [hinside]; exact hheld.mem, by rw [hinside]; exact hheld.reads, hheld.few, hheld.lock⟩
    · exact .inr ⟨t', by rw [hinside]; exact hheld.writes, by rw [hinside]; exact hheld.alone, hheld.lock⟩
  · intro t' start body expected hpc'
    by_cases ht : t' = t
    · rw [ht, goto_pc, Function.update_self] at hpc'
      exact hexpected start body expected hpc'
    · rw [goto_pc, Function.update_of_ne ht] at hpc'
      exact h.expected t' start body expected hpc'

/-- A thread that is at no exchange keeps what the others expect. -/
theorem Sound.expected_goto (h : s.Sound) {t : T} {pc : LockPc σ ρ}
    (hpc : ∀ start body expected, pc ≠ .exchange start body expected) :
    ∀ t' start body expected, (s.goto t pc).pc t' = .exchange start body expected → expected ≠ writerLock := by
  intro t' start body expected hpc'
  by_cases ht : t' = t
  · rw [ht, goto_pc, Function.update_self] at hpc'
    exact absurd hpc' (hpc start body expected)
  · rw [goto_pc, Function.update_of_ne ht] at hpc'
    exact h.expected t' start body expected hpc'

/-- A thread that reads has the lock with other readers. -/
theorem Sound.shared_of_reads (h : s.Sound) {t : T} {i : Inside σ ρ} (hin : s.inside t = some i) (hreads : ¬ i.Writes) :
    ∃ readers, s.HeldShared readers := by
  refine h.holders.resolve_right ?_
  rintro ⟨t', hheld⟩
  by_cases ht : t = t'
  · obtain ⟨j, hj, hwrites⟩ := hheld.writes
    rw [← ht, hin] at hj
    exact hreads (Option.some.inj hj ▸ hwrites)
  · rw [hheld.alone t ht] at hin
    cases hin

/-- A thread that writes has the lock alone. -/
theorem Sound.held_of_writes (h : s.Sound) {t : T} {i : Inside σ ρ} (hin : s.inside t = some i) (hwrites : i.Writes) :
    s.Held t := by
  rcases h.holders with ⟨readers, hheld⟩ | ⟨t', hheld⟩
  · exact absurd hwrites (hheld.reads t i hin)
  · by_cases ht : t = t'
    · exact ht ▸ hheld
    · rw [hheld.alone t ht] at hin
      cases hin

/-- One more reader. -/
theorem Sound.exchange (h : s.Sound) {t : T} {start : ρ} {body : List (σ → ρ → ρ)} {expected : BitVec 32}
    (hpc : s.pc t = .exchange start body expected) (hlock : s.lock = expected) :
    Sound { s.goto t (.locked (.reading start body body start)) with lock := expected + 1 } ∧
      s.sections.Admits (.read start body) := by
  have hne := h.expected t start body expected hpc
  obtain ⟨readers, hheld⟩ := h.heldShared (hlock ▸ hne)
  have hout : s.inside t = none := by rw [inside, hpc]; rfl
  have hnot : t ∉ readers := fun hmem => by
    obtain ⟨i, hin⟩ := (hheld.mem t).mp hmem
    rw [hout] at hin
    cases hin
  have hcard : expected.toNat = readers.card := hlock ▸ hheld.lock
  have hroom : readers.card + 1 < 2 ^ 32 := by
    have hnat : expected.toNat ≠ 2 ^ 32 - 1 := fun heq => hne (BitVec.eq_of_toNat_eq (heq.trans toNat_writerLock.symm))
    have := hheld.few
    omega
  refine ⟨⟨.inl ⟨insert t readers, ?_, ?_, ?_, ?_⟩, ?_⟩, hheld.reads⟩
  · intro t'
    rw [Finset.mem_insert, hheld.mem]
    show _ ↔ ∃ i, (s.goto t _).inside t' = some i
    rw [inside_goto]
    by_cases ht : t' = t
    · simp [ht, LockPc.inside]
    · simp [ht]
  · intro t' i hin
    have hin' : (s.goto t (.locked (.reading start body body start))).inside t' = some i := hin
    rw [inside_goto] at hin'
    rcases Sections.inside_update hin' with ⟨-, rfl⟩ | ⟨-, hin'⟩
    · exact id
    · exact hheld.reads t' i hin'
  · rw [Finset.card_insert_of_notMem hnot]
    exact hroom
  · rw [Finset.card_insert_of_notMem hnot]
    have hone : (1 : BitVec 32).toNat = 1 := rfl
    show (expected + 1).toNat = readers.card + 1
    rw [BitVec.toNat_add, hcard, hone, Nat.mod_eq_of_lt hroom]
  · exact h.expected_goto fun _ _ _ heq => (by cases heq)

/-- The writer. -/
theorem Sound.tryLock (h : s.Sound) (t : T) (body : List (σ → σ)) (hlock : s.lock = unlocked) :
    Sound { s.goto t (.locked (.writing body body)) with lock := writerLock } ∧ s.sections.Admits (.write body) := by
  have hnone := h.inside_none hlock
  refine ⟨⟨.inr ⟨t, ?_, ?_, rfl⟩, ?_⟩, hnone⟩
  · refine ⟨.writing body body, ?_, trivial⟩
    show (s.goto t _).inside t = _
    rw [inside_goto, Function.update_self]
    rfl
  · intro t' ht
    show (s.goto t _).inside t' = none
    rw [inside_goto, Function.update_of_ne ht]
    exact hnone t'
  · exact h.expected_goto fun _ _ _ heq => (by cases heq)

/-- A step within a section. -/
theorem Sound.within (h : s.Sound) {t : T} {i : Inside σ ρ} (hin : s.inside t = some i) (j : Inside σ ρ)
    (hkind : j.Writes ↔ i.Writes) (data : σ) : Sound { s.goto t (.locked j) with data := data } := by
  have hinside : ∀ t', (s.goto t (.locked j)).inside t' = Function.update s.inside t (some j) t' := fun t' => by
    rw [inside_goto]
    rfl
  refine ⟨?_, h.expected_goto fun _ _ _ heq => (by cases heq)⟩
  rcases h.holders with ⟨readers, hheld⟩ | ⟨t', hheld⟩
  · refine .inl ⟨readers, fun t' => ?_, fun t' i' hin' => ?_, hheld.few, hheld.lock⟩
    · rw [hheld.mem]
      show _ ↔ ∃ i, (s.goto t (.locked j)).inside t' = some i
      rw [hinside]
      by_cases ht : t' = t
      · simp [ht, hin]
      · simp [ht]
    · have hupdate := (hinside t').symm.trans hin'
      rcases Sections.inside_update hupdate with ⟨-, rfl⟩ | ⟨-, hold⟩
      · exact fun hwrites => hheld.reads t i hin (hkind.mp hwrites)
      · exact hheld.reads t' i' hold
  · have ht : t = t' := by
      by_contra hne
      rw [hheld.alone t hne] at hin
      cases hin
    subst ht
    obtain ⟨i', hi', hwrites⟩ := hheld.writes
    obtain rfl := Option.some.inj (hin.symm.trans hi')
    refine .inr ⟨t, ⟨j, (hinside t).trans (Function.update_self ..), hkind.mpr hwrites⟩, fun t' ht => ?_, hheld.lock⟩
    exact (hinside t').trans ((Function.update_of_ne ht _ _).trans (hheld.alone t' ht))

/-- One reader less. -/
theorem Sound.unlockShared (h : s.Sound) {t : T} {i : Inside σ ρ} (hin : s.inside t = some i) (hreads : ¬ i.Writes) :
    Sound { s.goto t .outside with lock := s.lock - 1 } := by
  obtain ⟨readers, hheld⟩ := h.shared_of_reads hin hreads
  have hmem := (hheld.mem t).mpr ⟨i, hin⟩
  have hcard := Finset.card_erase_of_mem hmem
  have hpos := Finset.card_pos.mpr ⟨t, hmem⟩
  have hinside : ∀ t', (s.goto t .outside).inside t' = Function.update s.inside t none t' := fun t' => by
    rw [inside_goto]
    rfl
  refine ⟨.inl ⟨readers.erase t, fun t' => ?_, fun t' i' hin' => ?_, ?_, ?_⟩, ?_⟩
  · rw [Finset.mem_erase, hheld.mem]
    show _ ↔ ∃ i, (s.goto t .outside).inside t' = some i
    rw [hinside]
    by_cases ht : t' = t
    · simp [ht]
    · simp [ht]
  · exact hheld.reads t' i' (Sections.inside_left ((hinside t').symm.trans hin')).2
  · have := hheld.few
    omega
  · have hone : (1 : BitVec 32).toNat = 1 := rfl
    show (s.lock - 1).toNat = _
    rw [BitVec.toNat_sub, hheld.lock, hone, hcard]
    have := hheld.few
    omega
  · exact h.expected_goto fun _ _ _ heq => (by cases heq)

/-- The writer leaves. -/
theorem Sound.unlock (h : s.Sound) {t : T} {i : Inside σ ρ} (hin : s.inside t = some i) (hwrites : i.Writes) :
    Sound { s.goto t .outside with lock := unlocked } := by
  have hheld := h.held_of_writes hin hwrites
  have hnone : ∀ t', (s.goto t .outside).inside t' = none := by
    intro t'
    rw [inside_goto]
    by_cases ht : t' = t
    · rw [ht, Function.update_self]
      rfl
    · rw [Function.update_of_ne ht]
      exact hheld.alone t' ht
  refine ⟨.inl ⟨∅, fun t' => ?_, fun t' i' hin' => ?_, by rw [Finset.card_empty]; decide, rfl⟩, ?_⟩
  · constructor
    · exact fun hmem => absurd hmem (Finset.notMem_empty t')
    · rintro ⟨i', hin'⟩
      exact absurd ((hnone t').symm.trans hin') (by simp)
  · exact absurd ((hnone t').symm.trans hin') (by simp)
  · exact h.expected_goto fun _ _ _ heq => (by cases heq)

/-! ### Runs -/

/-- A thread on its way in or out. -/
theorem Sound.spin (h : s.Sound) {t : T} (pc : LockPc σ ρ) (hpc : pc.inside = none) (hout : s.inside t = none)
    (hexpected : ∀ start body expected, pc = .exchange start body expected → expected ≠ writerLock) :
    (s.goto t pc).Sound ∧ Exec Sections.Step s.sections [] (s.goto t pc).sections := by
  obtain ⟨hsound, heq⟩ := h.goto pc hpc hout hexpected
  exact ⟨hsound, heq ▸ .nil _⟩

theorem sections_goto (t : T) (pc : LockPc σ ρ) (lock : BitVec 32) (data : σ) :
    sections { s.goto t pc with lock := lock, data := data } = ⟨data, Function.update s.inside t pc.inside⟩ := by
  rw [← inside_goto]
  rfl

/-- **One operation** keeps the word right, and does to the sections what they admit. -/
theorem Sound.step (h : s.Sound) {e : LockEvent T σ ρ} (hstep : Step s e s') :
    s'.Sound ∧ Exec Sections.Step s.sections e.section?.toList s'.sections := by
  cases hstep with
  | callShared t start body hpc =>
      exact h.spin _ rfl (by rw [inside, hpc]; rfl) fun _ _ _ hne => (by cases hne)
  | call t body hpc =>
      exact h.spin _ rfl (by rw [inside, hpc]; rfl) fun _ _ _ hne => (by cases hne)
  | load t hpc hlock =>
      refine h.spin _ rfl (by rw [inside, hpc]; rfl) fun _ _ _ heq => ?_
      cases heq
      exact hlock
  | failShared t hpc =>
      exact h.spin _ rfl (by rw [inside, hpc]; rfl) fun _ _ _ hne => (by cases hne)
  | failLoad t hpc => exact ⟨h, .nil _⟩
  | fail t hpc => exact ⟨h, .nil _⟩
  | giveUpShared t hpc =>
      refine h.spin _ rfl ?_ fun _ _ _ hne => (by cases hne)
      rcases hpc with ⟨hpc, -⟩ | ⟨expected, hpc⟩ <;> rw [inside, hpc] <;> rfl
  | giveUp t hpc =>
      exact h.spin _ rfl (by rw [inside, hpc]; rfl) fun _ _ _ hne => (by cases hne)
  | exchange t hpc hlock =>
      obtain ⟨hsound, hadmits⟩ := h.exchange hpc hlock
      have hout : s.inside t = none := by rw [inside, hpc]; rfl
      refine ⟨hsound, ?_⟩
      rw [sections_goto]
      exact .cons (.enter s.sections t _ hout hadmits) (.nil _)
  | @tryLock t body hpc hlock =>
      obtain ⟨hsound, hadmits⟩ := h.tryLock t body hlock
      have hout : s.inside t = none := by rw [inside, hpc]; rfl
      refine ⟨hsound, ?_⟩
      rw [sections_goto]
      exact .cons (.enter s.sections t _ hout hadmits) (.nil _)
  | @read t start body rest f value hpc =>
      have hin := inside_of_locked hpc
      refine ⟨h.within hin (.reading start body rest (f s.data value)) Iff.rfl s.data, ?_⟩
      rw [sections_goto]
      exact .cons (.readStep s.sections t hin) (.nil _)
  | @write t body rest f hpc =>
      have hin := inside_of_locked hpc
      refine ⟨h.within hin (.writing body rest) Iff.rfl (f s.data), ?_⟩
      rw [sections_goto]
      exact .cons (.writeStep s.sections t hin) (.nil _)
  | unlockShared t hpc =>
      have hin := inside_of_locked hpc
      refine ⟨h.unlockShared hin id, ?_⟩
      rw [sections_goto]
      exact .cons (.readLeave s.sections t hin) (.nil _)
  | unlock t hpc =>
      have hin := inside_of_locked hpc
      refine ⟨h.unlock hin trivial, ?_⟩
      rw [sections_goto]
      exact .cons (.writeLeave s.sections t hin) (.nil _)

/-- The events of the sections in a run. -/
def sectionEvents (events : List (LockEvent T σ ρ)) : List (SectionEvent T σ ρ) := events.filterMap LockEvent.section?

theorem Sound.run (h : s.Sound) {events : List (LockEvent T σ ρ)} (hrun : Exec Step s events s') :
    s'.Sound ∧ Exec Sections.Step s.sections (sectionEvents events) s'.sections := by
  induction hrun with
  | nil => exact ⟨h, .nil _⟩
  | @cons s _ _ e events hstep _ ih =>
      obtain ⟨hsound, hone⟩ := h.step hstep
      obtain ⟨hlast, hrest⟩ := ih hsound
      refine ⟨hlast, ?_⟩
      unfold sectionEvents at hrest ⊢
      cases he : e.section? with
      | none =>
          rw [he] at hone
          rw [List.filterMap_cons_none he]
          exact hone.append hrest
      | some e' =>
          rw [he] at hone
          rw [List.filterMap_cons_some he]
          exact hone.append hrest

/-- **Sections under the lock are atomic.** -/
theorem sections_atomic {data : σ} {events : List (LockEvent T σ ρ)} (hrun : Exec Step (start data) events s) :
    ∃ data', Exec Sections.Atomic data ((sectionEvents events).filterMap SectionEvent.done?) data' ∧
      s.sections.Settled data' :=
  (Sections.settled_start (start data).sections fun _ => rfl).run ((sound_start data).run hrun).2

/-- **The lock.** In any run, of any number of threads, the word is all ones for a writer
that is alone, or else the number of the readers, and it is zero just when nobody has the
lock; so what the threads do is what their sections do one after the other. -/
theorem run_locked (data : σ) (events : List (LockEvent T σ ρ)) (hrun : Exec Step (start data) events s) :
    ((∃ readers, s.HeldShared readers) ∨ ∃ t, s.Held t) ∧ (s.lock = unlocked ↔ ∀ t, s.inside t = none) ∧
      ∃ data', Exec Sections.Atomic data ((sectionEvents events).filterMap SectionEvent.done?) data' ∧
        s.sections.Settled data' :=
  have hsound := ((sound_start data).run hrun).1
  ⟨hsound.holders, hsound.unlocked_iff, sections_atomic hrun⟩

/-- A reader comes and goes while a writer waits for it. -/
theorem readThenWrite_locked :
    ∃ s : SpinLockRW Bool Nat Nat,
      ((∃ readers, s.HeldShared readers) ∨ ∃ t, s.Held t) ∧ (s.lock = unlocked ↔ ∀ t, s.inside t = none) ∧
        ∃ data', Exec Sections.Atomic 5 [.read false 0 [fun data _ => data] 5, .write true [(· + 1)]] data' ∧
          s.sections.Settled data' :=
  ⟨_, run_locked 5
    [.spin false, .spin true, .spin false, .work (.enter false (.read 0 [fun data _ => data])), .spin true,
      .work (.step false), .work (.leave (.read false 0 [fun data _ => data] 5)),
      .work (.enter true (.write [(· + 1)])), .work (.step true), .work (.leave (.write true [(· + 1)]))]
    (.cons (.callShared _ false 0 [fun data _ => data] rfl) <|
      .cons (.call _ true [(· + 1)] rfl) <|
      .cons (.load _ false rfl (by decide)) <|
      .cons (.exchange _ false rfl rfl) <|
      .cons (.fail _ true rfl) <|
      .cons (.read _ false rfl) <|
      .cons (.unlockShared _ false rfl) <|
      .cons (.tryLock _ true rfl (by decide)) <|
      .cons (.write _ true rfl) <|
      .cons (.unlock _ true rfl) <|
      .nil _)⟩

end SpinLockRW

end PothosCore.Util

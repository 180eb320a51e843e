import Mathlib.Logic.Function.Basic
import PothosCore.Lib.Transition

/-!
# PothosCore.Lib.SharedSections

Sections of code of any number of threads `T` over data `σ`, some that only read it and
some that write it, each in steps of its own.

A discipline that lets a writer in only when nobody else is, and a reader only when no
writer is, makes every section atomic: a run does what its sections do one after the other,
each at once, in the order in which they are left (`Sections.Settled.run`).
-/

namespace PothosCore.Lib

variable {T σ ρ : Type*}

/-- A section: steps that read the data into a value, or steps that write the data. -/
inductive Section (σ ρ : Type*)
  | read (start : ρ) (body : List (σ → ρ → ρ))
  | write (body : List (σ → σ))

/-- What is left of a section that a thread is in, and the value so far. -/
inductive Inside (σ ρ : Type*)
  | reading (start : ρ) (body rest : List (σ → ρ → ρ)) (value : ρ)
  | writing (body rest : List (σ → σ))

/-- The start of a section. -/
def Section.enter : Section σ ρ → Inside σ ρ
  | .read start body => .reading start body body start
  | .write body => .writing body body

/-- A section that was left, with the value that a reader got. -/
inductive Done (T σ ρ : Type*)
  | read (t : T) (start : ρ) (body : List (σ → ρ → ρ)) (value : ρ)
  | write (t : T) (body : List (σ → σ))

/-- What a thread does. -/
inductive SectionEvent (T σ ρ : Type*)
  | enter (t : T) (s : Section σ ρ)
  | step (t : T)
  | leave (done : Done T σ ρ)

/-- The section that was left. -/
def Done.section : Done T σ ρ → Section σ ρ
  | .read _ start body _ => .read start body
  | .write _ body => .write body

/-- The section that a thread is in. -/
def Inside.section : Inside σ ρ → Section σ ρ
  | .reading start body _ _ => .read start body
  | .writing body _ => .write body

@[simp] theorem section_enter (s : Section σ ρ) : s.enter.section = s := by
  cases s <;> rfl

def SectionEvent.done? : SectionEvent T σ ρ → Option (Done T σ ρ)
  | .leave done => some done
  | _ => none

/-- The data, and where the threads are. -/
structure Sections (T σ ρ : Type*) where
  data : σ
  inside : T → Option (Inside σ ρ)

/-- A thread is in a section that writes. -/
def Inside.Writes : Inside σ ρ → Prop
  | .reading .. => False
  | .writing .. => True

namespace Sections

/-- A writer goes in alone, and a reader while no writer is in. -/
def Admits (s : Sections T σ ρ) : Section σ ρ → Prop
  | .read .. => ∀ t i, s.inside t = some i → ¬ i.Writes
  | .write .. => ∀ t, s.inside t = none

/-- One step of one thread. -/
inductive Step [DecidableEq T] : Sections T σ ρ → SectionEvent T σ ρ → Sections T σ ρ → Prop
  | enter (s : Sections T σ ρ) (t : T) (sec : Section σ ρ) (hout : s.inside t = none) (hadmits : s.Admits sec) :
      Step s (.enter t sec) { s with inside := Function.update s.inside t (some sec.enter) }
  | readStep (s : Sections T σ ρ) (t : T) {start : ρ} {body rest : List (σ → ρ → ρ)} {f : σ → ρ → ρ} {value : ρ}
      (hin : s.inside t = some (.reading start body (f :: rest) value)) :
      Step s (.step t)
        { s with inside := Function.update s.inside t (some (.reading start body rest (f s.data value))) }
  | writeStep (s : Sections T σ ρ) (t : T) {body rest : List (σ → σ)} {f : σ → σ}
      (hin : s.inside t = some (.writing body (f :: rest))) :
      Step s (.step t) ⟨f s.data, Function.update s.inside t (some (.writing body rest))⟩
  | readLeave (s : Sections T σ ρ) (t : T) {start : ρ} {body : List (σ → ρ → ρ)} {value : ρ}
      (hin : s.inside t = some (.reading start body [] value)) :
      Step s (.leave (.read t start body value)) { s with inside := Function.update s.inside t none }
  | writeLeave (s : Sections T σ ρ) (t : T) {body : List (σ → σ)} (hin : s.inside t = some (.writing body [])) :
      Step s (.leave (.write t body)) { s with inside := Function.update s.inside t none }

/-- What a section reads, of data that does not change. -/
def readAll (body : List (σ → ρ → ρ)) (data : σ) (start : ρ) : ρ := body.foldl (fun value f => f data value) start

/-- What a section makes of the data. -/
def writeAll (body : List (σ → σ)) (data : σ) : σ := body.foldl (fun data f => f data) data

/-- **Sections one after the other**, each at once. -/
inductive Atomic : σ → Done T σ ρ → σ → Prop
  | read (data : σ) (t : T) (start : ρ) (body : List (σ → ρ → ρ)) :
      Atomic data (.read t start body (readAll body data start)) data
  | write (data : σ) (t : T) (body : List (σ → σ)) : Atomic data (.write t body) (writeAll body data)

/-- What the sections that were left have made of the data, and what those that are not
have of it. -/
structure Settled (s : Sections T σ ρ) (data : σ) : Prop where
  reading : ∀ t start body rest value, s.inside t = some (.reading start body rest value) →
    ∃ read, body = read ++ rest ∧ value = readAll read data start
  writing : ∀ t body rest, s.inside t = some (.writing body rest) →
    (∀ t', t' ≠ t → s.inside t' = none) ∧ ∃ written, body = written ++ rest ∧ s.data = writeAll written data
  quiet : (∀ t i, s.inside t = some i → ¬ i.Writes) → s.data = data

theorem settled_start (s : Sections T σ ρ) (hout : ∀ t, s.inside t = none) : s.Settled s.data where
  reading := fun t _ _ _ _ hin => by rw [hout t] at hin; cases hin
  writing := fun t _ _ hin => by rw [hout t] at hin; cases hin
  quiet := fun _ => rfl

variable {s s' : Sections T σ ρ} {data : σ}

/-- While a thread reads, no thread writes. -/
theorem Settled.data_of_reading (h : s.Settled data) {t : T} {start : ρ} {body rest : List (σ → ρ → ρ)} {value : ρ}
    (hin : s.inside t = some (.reading start body rest value)) : s.data = data := by
  refine h.quiet fun t' i hin' hwrites => ?_
  cases i with
  | reading => exact hwrites
  | writing body' rest' =>
      by_cases ht : t = t'
      · rw [ht, hin'] at hin
        cases hin
      · rw [(h.writing t' body' rest' hin').1 t ht] at hin
        cases hin

section

variable [DecidableEq T] {t t' : T} {i j : Inside σ ρ}

/-- Where the threads are, after one of them moved. -/
theorem inside_update {inside : T → Option (Inside σ ρ)} (hin : Function.update inside t (some i) t' = some j) :
    (t' = t ∧ i = j) ∨ t' ≠ t ∧ inside t' = some j := by
  by_cases ht : t' = t
  · rw [ht, Function.update_self] at hin
    exact .inl ⟨ht, Option.some.inj hin⟩
  · rw [Function.update_of_ne ht] at hin
    exact .inr ⟨ht, hin⟩

theorem inside_left {inside : T → Option (Inside σ ρ)} (hin : Function.update inside t none t' = some j) :
    t' ≠ t ∧ inside t' = some j := by
  by_cases ht : t' = t
  · rw [ht, Function.update_self] at hin
    cases hin
  · rw [Function.update_of_ne ht] at hin
    exact ⟨ht, hin⟩

theorem Settled.enter (h : s.Settled data) {sec : Section σ ρ} (hadmits : s.Admits sec) :
    Settled { s with inside := Function.update s.inside t (some sec.enter) } data := by
  cases sec with
  | read start body =>
      constructor
      · intro t' start' body' rest' value' hin
        rcases inside_update hin with ⟨-, heq⟩ | ⟨-, hin⟩
        · cases heq
          exact ⟨[], rfl, rfl⟩
        · exact h.reading t' start' body' rest' value' hin
      · intro t' body' rest' hin
        rcases inside_update hin with ⟨-, heq⟩ | ⟨-, hin⟩
        · cases heq
        · exact absurd trivial (hadmits t' _ hin)
      · exact fun _ => h.quiet hadmits
  | write body =>
      have hdata : s.data = data := h.quiet fun t' i hin => by rw [hadmits t'] at hin; cases hin
      constructor
      · intro t' start' body' rest' value' hin
        rcases inside_update hin with ⟨-, heq⟩ | ⟨-, hin⟩
        · cases heq
        · rw [hadmits t'] at hin
          cases hin
      · intro t' body' rest' hin
        rcases inside_update hin with ⟨rfl, heq⟩ | ⟨-, hin⟩
        · cases heq
          exact ⟨fun t' ht => (Function.update_of_ne ht _ _).trans (hadmits t'), [], rfl, hdata⟩
        · rw [hadmits t'] at hin
          cases hin
      · exact fun hquiet => absurd trivial (hquiet t _ (Function.update_self ..))

theorem Settled.readStep (h : s.Settled data) {start : ρ} {body rest : List (σ → ρ → ρ)} {f : σ → ρ → ρ} {value : ρ}
    (hin : s.inside t = some (.reading start body (f :: rest) value)) :
    Settled { s with inside := Function.update s.inside t (some (.reading start body rest (f s.data value))) }
      data := by
  have hdata := h.data_of_reading hin
  constructor
  · intro t' start' body' rest' value' hin'
    rcases inside_update hin' with ⟨-, heq⟩ | ⟨-, hin'⟩
    · cases heq
      obtain ⟨read, rfl, rfl⟩ := h.reading _ _ _ _ _ hin
      refine ⟨read ++ [f], by rw [List.append_assoc]; rfl, ?_⟩
      simp only [readAll, List.foldl_append, List.foldl_cons, List.foldl_nil, hdata]
    · exact h.reading t' start' body' rest' value' hin'
  · intro t' body' rest' hin'
    rcases inside_update hin' with ⟨-, heq⟩ | ⟨ht, hin'⟩
    · cases heq
    · have hnone := (h.writing t' body' rest' hin').1 t (Ne.symm ht)
      rw [hin] at hnone
      cases hnone
  · exact fun _ => hdata

theorem Settled.writeStep (h : s.Settled data) {body rest : List (σ → σ)} {f : σ → σ}
    (hin : s.inside t = some (.writing body (f :: rest))) :
    Settled ⟨f s.data, Function.update s.inside t (some (.writing body rest))⟩ data := by
  obtain ⟨halone, written, hbody, hdata⟩ := h.writing t _ _ hin
  constructor
  · intro t' start' body' rest' value' hin'
    rcases inside_update hin' with ⟨-, heq⟩ | ⟨ht, hin'⟩
    · cases heq
    · rw [halone t' ht] at hin'
      cases hin'
  · intro t' body' rest' hin'
    rcases inside_update hin' with ⟨rfl, heq⟩ | ⟨ht, hin'⟩
    · cases heq
      refine ⟨fun t' ht => (Function.update_of_ne ht _ _).trans (halone t' ht), written ++ [f], ?_, ?_⟩
      · rw [hbody, List.append_assoc]
        rfl
      · rw [writeAll, List.foldl_append]
        exact congrArg f hdata
    · rw [halone t' ht] at hin'
      cases hin'
  · exact fun hquiet => absurd trivial (hquiet t _ (Function.update_self ..))

/-- A reader that leaves has read all of its section. -/
theorem Settled.readLeave (h : s.Settled data) {start : ρ} {body : List (σ → ρ → ρ)} {value : ρ}
    (hin : s.inside t = some (.reading start body [] value)) :
    value = readAll body data start ∧ Settled { s with inside := Function.update s.inside t none } data := by
  obtain ⟨read, hbody, hvalue⟩ := h.reading t _ _ _ _ hin
  rw [List.append_nil] at hbody
  refine ⟨hbody ▸ hvalue, ?_, ?_, ?_⟩
  · intro t' start' body' rest' value' hin'
    exact h.reading t' start' body' rest' value' (inside_left hin').2
  · intro t' body' rest' hin'
    obtain ⟨ht, hin'⟩ := inside_left hin'
    have hnone := (h.writing t' body' rest' hin').1 t (Ne.symm ht)
    rw [hin] at hnone
    cases hnone
  · exact fun _ => h.data_of_reading hin

/-- A writer that leaves has written all of its section. -/
theorem Settled.writeLeave (h : s.Settled data) {body : List (σ → σ)} (hin : s.inside t = some (.writing body [])) :
    Settled { s with inside := Function.update s.inside t none } (writeAll body data) := by
  obtain ⟨halone, written, hbody, hdata⟩ := h.writing t _ _ hin
  rw [List.append_nil] at hbody
  have hempty : ∀ t' i, Function.update s.inside t none t' ≠ some i := by
    intro t' i hin'
    obtain ⟨ht, hin'⟩ := inside_left hin'
    rw [halone t' ht] at hin'
    cases hin'
  refine ⟨fun t' _ _ _ _ hin' => absurd hin' (hempty t' _), fun t' _ _ hin' => absurd hin' (hempty t' _), fun _ => ?_⟩
  rw [hbody]
  exact hdata

/-- **One step**, and what it adds to the sections that were left. -/
theorem Settled.step (h : s.Settled data) {e : SectionEvent T σ ρ} (hstep : Step s e s') :
    ∃ data', Exec Atomic data e.done?.toList data' ∧ s'.Settled data' := by
  cases hstep with
  | enter t sec _ hadmits => exact ⟨data, .nil _, h.enter hadmits⟩
  | readStep t hin => exact ⟨data, .nil _, h.readStep hin⟩
  | writeStep t hin => exact ⟨data, .nil _, h.writeStep hin⟩
  | @readLeave t start body value hin =>
      obtain ⟨rfl, hleft⟩ := h.readLeave hin
      exact ⟨data, .cons (.read data t start body) (.nil _), hleft⟩
  | @writeLeave t body hin => exact ⟨_, .cons (.write data t body) (.nil _), h.writeLeave hin⟩

/-- **Sections are atomic.** -/
theorem Settled.run (h : s.Settled data) {events : List (SectionEvent T σ ρ)} (hrun : Exec Step s events s') :
    ∃ data', Exec Atomic data (events.filterMap SectionEvent.done?) data' ∧ s'.Settled data' := by
  induction hrun generalizing data with
  | nil => exact ⟨data, .nil _, h⟩
  | @cons s _ _ e events hstep _ ih =>
      obtain ⟨middle, hone, hsettled⟩ := h.step hstep
      obtain ⟨data', hrest, hlast⟩ := ih hsettled
      refine ⟨data', ?_, hlast⟩
      cases hd : e.done? with
      | none =>
          rw [hd] at hone
          cases hone
          rw [List.filterMap_cons_none hd]
          exact hrest
      | some done =>
          rw [List.filterMap_cons_some hd]
          rw [hd] at hone
          exact hone.append hrest

/-- **What is left was entered**: the sections that are left in a run are of the kind of those
that were entered in it. -/
theorem section_of_done {P : Section σ ρ → Prop} {events : List (SectionEvent T σ ρ)} (hrun : Exec Step s events s')
    (hin : ∀ t i, s.inside t = some i → P i.section) (henter : ∀ t sec, .enter t sec ∈ events → P sec) :
    ∀ d, .leave d ∈ events → P d.section := by
  induction hrun with
  | nil => exact fun d hd => absurd hd List.not_mem_nil
  | @cons s _ _ e events hstep _ ih =>
      have hrest : ∀ t sec, .enter t sec ∈ events → P sec :=
        fun t sec hmem => henter t sec (List.mem_cons_of_mem _ hmem)
      cases hstep with
      | enter t sec _ _ =>
          refine fun d hd => ih (fun t' i hin' => ?_) hrest d ((List.mem_cons.mp hd).resolve_left (by simp))
          rcases inside_update hin' with ⟨-, rfl⟩ | ⟨-, hold⟩
          · rw [section_enter]
            exact henter t sec List.mem_cons_self
          · exact hin t' i hold
      | readStep t hread =>
          refine fun d hd => ih (fun t' i hin' => ?_) hrest d ((List.mem_cons.mp hd).resolve_left (by simp))
          rcases inside_update hin' with ⟨-, rfl⟩ | ⟨-, hold⟩
          · exact (hin t _ hread : P (.read _ _))
          · exact hin t' i hold
      | writeStep t hwrite =>
          refine fun d hd => ih (fun t' i hin' => ?_) hrest d ((List.mem_cons.mp hd).resolve_left (by simp))
          rcases inside_update hin' with ⟨-, rfl⟩ | ⟨-, hold⟩
          · exact (hin t _ hwrite : P (.write _))
          · exact hin t' i hold
      | readLeave t hread =>
          intro d hd
          rcases List.mem_cons.mp hd with heq | hmem
          · cases heq
            exact hin t _ hread
          · exact ih (fun t' i hin' => hin t' i (inside_left hin').2) hrest d hmem
      | writeLeave t hwrite =>
          intro d hd
          rcases List.mem_cons.mp hd with heq | hmem
          · cases heq
            exact hin t _ hwrite
          · exact ih (fun t' i hin' => hin t' i (inside_left hin').2) hrest d hmem

end

end Sections

end PothosCore.Lib

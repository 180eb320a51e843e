import PothosCore.Remote.HandleSteps

/-!
# PothosCore.Remote.HandlePointers

The pointers of the clients. A step leaves the objects that there are pointers to alone; it
makes at most one, and deletes at most one, to which there is no pointer any more
(`System.Moves.pointers`).
-/

namespace PothosCore.Remote.Handles

variable {W E V L C T X : Type}

namespace System

variable {s s' : System W E V L C T X} {t : T} {a : Nat}

/-- The pointers in variables and in objects. -/
def Shared (s : System W E V L C T X) (a : Nat) : Prop :=
  (∃ x, s.vars x = some a) ∨ ∃ b < s.next, (s.heap b).bind (·.env) = some a

/-- The pointers of the other threads. -/
def Others (s : System W E V L C T X) (t : T) (a : Nat) : Prop := ∃ u, u ≠ t ∧ a ∈ (s.thread u).refs

theorem holds_iff (t : T) : s.Holds a ↔ a ∈ (s.thread t).refs ∨ s.Others t a ∨ s.Shared a := by
  constructor
  · rintro (hvar | ⟨u, hu⟩ | hheap)
    · exact .inr (.inr (.inl hvar))
    · by_cases hut : u = t
      · exact .inl (hut ▸ hu)
      · exact .inr (.inl ⟨u, hut, hu⟩)
    · exact .inr (.inr (.inr hheap))
  · rintro (ht | ⟨u, -, hu⟩ | hvar | hheap)
    · exact .inr (.inl ⟨t, ht⟩)
    · exact .inr (.inl ⟨u, hu⟩)
    · exact .inl hvar
    · exact .inr (.inr hheap)

/-- A thread in a method has a pointer to the environment, or to a handle that has one. -/
structure Anchored (s : System W E V L C T X) (f : Frame L C X) : Prop where
  anchor : ∀ e, f.env = some e → ∃ a ∈ f.held, a = e ∨ (s.heap a).bind (·.env) = some e
  environment : ∀ e o, f.env = some e → s.heap e = some o → o.env = none

theorem Anchored.holds {f : Frame L C X} (hf : s.Anchored f) (hfresh : ∀ b, s.next ≤ b → s.heap b = none)
    (hheld : ∀ b ∈ f.held, s.Holds b) {e : Nat} (he : f.env = some e) : s.Holds e := by
  obtain ⟨b, hb, rfl | hbe⟩ := hf.anchor e he
  · exact hheld b hb
  · have hlt : b < s.next := by
      by_contra hle
      simp [hfresh b (by omega)] at hbe
    exact .inr (.inr ⟨b, hlt, hbe⟩)

theorem isIdle_refs {p : Place E V L C X} (h : isIdle p = true) : p.refs = [] := by
  cases p with
  | drop held k => cases held <;> cases k <;> simp_all [isIdle, Place.refs, After.refs]
  | transact c h k => simp [isIdle] at *

/-- The pointers that a method takes are in variables. -/
theorem loadArgs_own {args : List (Arg X L)} {todo : List (Arg Nat L)} (h : s.loadArgs args = some todo)
    (ha : .own a ∈ todo) : ∃ x, s.vars x = some a := by
  induction args generalizing todo with
  | nil =>
      cases h
      cases ha
  | cons arg args ih =>
      cases arg with
      | own x =>
          obtain ⟨b, hb, h⟩ := Option.bind_eq_some_iff.mp h
          obtain ⟨rest, hrest, rfl⟩ := Option.map_eq_some_iff.mp h
          rcases List.mem_cons.mp ha with heq | ha
          · cases heq
            exact ⟨x, hb⟩
          · exact ih hrest ha
      | foreign x =>
          obtain ⟨rest, hrest, rfl⟩ := Option.map_eq_some_iff.mp h
          rcases List.mem_cons.mp ha with heq | ha
          · cases heq
          · exact ih hrest ha

theorem mem_held {todo : List (Arg Nat L)} : a ∈ todo.filterMap Arg.own? ↔ .own a ∈ todo := by
  rw [List.mem_filterMap]
  constructor
  · rintro ⟨arg, harg, hown⟩
    cases arg with
    | own b =>
        cases hown
        exact harg
    | foreign x => cases hown
  · exact fun h => ⟨_, h, rfl⟩

/-- What a frame starts with. -/
structure Begun (s : System W E V L C T X) (dst : X) (op : Operation L) (f : Frame L C X) : Prop where
  op_eq : f.op = op
  dst_eq : f.dst = dst
  ids : f.ids = []
  held : f.held = f.todo.filterMap Arg.own?
  vars : ∀ a, .own a ∈ f.todo → ∃ x, s.vars x = some a
  takes : op.takes f.todo.length = true
  fit : s.ArgsFit op 0 f.todo

theorem begun_of_frame {dst : X} {op : Operation L} {c : C} {args : List (Arg X L)} {f : Frame L C X}
    (h : s.frame dst op c args = some f) :
    s.Begun dst op f ∧ s.loadArgs args = some f.todo ∧ s.scope op c f.todo = some (f.env, f.connection) := by
  obtain ⟨todo, htodo, h⟩ := Option.bind_eq_some_iff.mp h
  obtain ⟨⟨env, connection⟩, hscope, h⟩ := Option.bind_eq_some_iff.mp h
  dsimp only at h
  split at h
  · rename_i hfits
    cases h
    exact ⟨⟨rfl, rfl, rfl, rfl, fun a => loadArgs_own htodo, hfits.1, hfits.2⟩, htodo, hscope⟩
  · cases h

variable [DecidableEq T]

theorem holds_goto {p : Place E V L C X} : (s.goto t p).Holds a ↔ a ∈ p.refs ∨ s.Others t a ∨ s.Shared a := by
  rw [holds_iff t]
  have hothers : (s.goto t p).Others t a ↔ s.Others t a :=
    exists_congr fun u => and_congr_right fun hu => by simp [goto, hu]
  rw [hothers]
  simp [goto, Shared]

variable [DecidableEq X]

theorem holds_moved {change : Change W E V C X} {p : Place E V L C X} {connections : C → Connection T} :
    (s.moved t change p connections).Holds a ↔ a ∈ p.refs ∨ s.Others t a ∨ (s.apply change).Shared a := by
  have hmoved : (s.moved t change p connections).Holds a ↔ ((s.apply change).goto t p).Holds a := Iff.rfl
  have hothers : (s.apply change).Others t a ↔ s.Others t a := by cases change <;> rfl
  rw [hmoved, holds_goto, hothers]

/-- What happens to the objects and the pointers to them. -/
inductive Pointers (s s' : System W E V L C T X) : Prop
  | same (heap : s'.heap = s.heap) (next : s'.next = s.next) (holds : ∀ a, s'.Holds a ↔ s.Holds a)
  | made (o : ClientObject C) (heap : s'.heap = Function.update s.heap s.next (some o)) (next : s'.next = s.next + 1)
      (holds : ∀ a, s'.Holds a ↔ s.Holds a ∨ a = s.next)
      (environment : ∀ e, o.env = some e → s.Holds e ∧ ∀ o', s.heap e = some o' → o'.env = none)
  | deleted (a : Nat) (heap : s'.heap = Function.update s.heap a none) (next : s'.next = s.next)
      (holds : ∀ b, s'.Holds b ↔ s.Holds b ∧ b ≠ a)

variable {P : Process W E V L} {e : Action L C T X} {p p' : Place E V L C X} {change : Change W E V C X}

/-- The frame of a thread that is about to make an object. -/
def Anchors (s : System W E V L C T X) : Place E V L C X → Prop
  | .transact _ _ (.main f) => s.Anchored f
  | .transact _ _ (.converting f) => s.Anchored f
  | _ => True

/-- A move that leaves variables and objects alone; what the thread lets go of is held
elsewhere. -/
theorem pointers_keep {connections : C → Connection T} (hnew : ∀ a ∈ p'.refs, s.Holds a)
    (hold : ∀ a ∈ (s.thread t).refs, a ∈ p'.refs ∨ s.Others t a ∨ s.Shared a) :
    Pointers s (s.moved t .keep p' connections) := by
  refine .same rfl rfl fun a => ?_
  rw [holds_moved]
  constructor
  · rintro (ha | hrest)
    · exact hnew a ha
    · exact (holds_iff t).mpr (.inr hrest)
  · intro ha
    rcases (holds_iff t).mp ha with ha | hrest
    · exact hold a ha
    · exact .inr hrest

theorem pointers_same {connections : C → Connection T} (hrefs : p'.refs = (s.thread t).refs) :
    Pointers s (s.moved t .keep p' connections) :=
  pointers_keep (fun _ ha => (holds_iff t).mpr (.inl (hrefs ▸ ha))) fun _ ha => .inl (hrefs ▸ ha)

theorem pointers_server {connections : C → Connection T} {server : Server W E V} (hrefs : p'.refs = (s.thread t).refs) :
    Pointers s (s.moved t (.server server) p' connections) := by
  refine .same rfl rfl fun a => ?_
  rw [holds_moved, holds_iff t, hrefs]
  rfl

theorem pointers_store {connections : C → Connection T} {dst : X} {v : Option Nat} {outcome : Option (Outcome L)}
    (hv : ∀ a, v = some a → s.Holds a) (hp : ∀ a ∈ (s.thread t).refs, v = some a) :
    Pointers s (s.moved t (.store dst v) (.drop (s.vars dst).toList (.idle outcome)) connections) := by
  refine .same rfl rfl fun a => ?_
  rw [holds_moved]
  simp only [Place.refs, After.refs, List.append_nil, Option.mem_toList, apply]
  constructor
  · rintro (hold | hothers | ⟨x, hx⟩ | hheap)
    · exact .inl ⟨dst, hold⟩
    · exact (holds_iff t).mpr (.inr (.inl hothers))
    · by_cases hxd : x = dst
      · subst hxd
        exact hv a (by simpa using hx)
      · exact .inl ⟨x, by simpa [hxd] using hx⟩
    · exact .inr (.inr hheap)
  · intro h
    rcases (holds_iff t).mp h with ht | hothers | ⟨x, hx⟩ | hheap
    · exact .inr (.inr (.inl ⟨dst, by simp [hp a ht]⟩))
    · exact .inr (.inl hothers)
    · by_cases hxd : x = dst
      · exact .inl (hxd ▸ hx)
      · exact .inr (.inr (.inl ⟨x, by simpa [hxd] using hx⟩))
    · exact .inr (.inr (.inr hheap))

theorem pointers_made {connections : C → Connection T} {f : Frame L C X} {id : Nat}
    (hfresh : ∀ b, s.next ≤ b → s.heap b = none) (hf : s.Anchored f) (hheld : ∀ b ∈ f.held, s.Holds b)
    (hrefs : ∀ a, a ∈ p'.refs ↔ a ∈ (s.thread t).refs ∨ a = s.next) :
    Pointers s (s.moved t (.make ⟨f.env, f.connection, id⟩) p' connections) := by
  refine .made ⟨f.env, f.connection, id⟩ rfl rfl (fun a => ?_) fun e he =>
    ⟨hf.holds hfresh hheld he, fun o' => hf.environment e o' he⟩
  rw [holds_moved, hrefs]
  simp only [apply, make, Shared]
  constructor
  · rintro ((ht' | rfl) | hothers | hvar | ⟨b, hb, hbe⟩)
    · exact .inl ((holds_iff t).mpr (.inl ht'))
    · exact .inr rfl
    · exact .inl ((holds_iff t).mpr (.inr (.inl hothers)))
    · exact .inl (.inl hvar)
    · by_cases hbn : b = s.next
      · exact .inl (hf.holds hfresh hheld (by simpa [hbn] using hbe))
      · exact .inl (.inr (.inr ⟨b, by omega, by simpa [hbn] using hbe⟩))
  · rintro (h | rfl)
    · rcases (holds_iff t).mp h with ht' | hothers | hvar | ⟨b, hb, hbe⟩
      · exact .inl (.inl ht')
      · exact .inr (.inl hothers)
      · exact .inr (.inr (.inl hvar))
      · exact .inr (.inr (.inr ⟨b, by omega, by simpa [show b ≠ s.next by omega] using hbe⟩))
    · exact .inl (.inr rfl)

theorem pointers_deleted {connections : C → Connection T} {o : ClientObject C} {held : List Nat} {k : After L C X}
    {c : C} {h : Handler E V L} (hfresh : ∀ b, s.next ≤ b → s.heap b = none) (hp : s.thread t = .drop (a :: held) k)
    (hgone : ¬ (s.goto t (.drop held k)).Holds a) (ho : s.heap a = some o) :
    Pointers s (s.moved t (.delete a) (.transact c h (.destroyed (o.env.toList ++ held) k)) connections) := by
  have hlt : a < s.next := by
    by_contra hle
    simp [hfresh a (by omega)] at ho
  rw [holds_goto, Place.refs] at hgone
  refine .deleted a rfl rfl fun b => ?_
  rw [holds_moved, holds_iff t, hp]
  simp only [Place.refs, Kont.refs, List.mem_append, Option.mem_toList, List.mem_cons, apply, Shared]
  constructor
  · rintro (((henv | hheld) | hk) | hothers | hvar | ⟨c, hc, hce⟩)
    · refine ⟨.inr (.inr (.inr ⟨a, hlt, by simpa [ho] using henv⟩)), fun hba => hgone ?_⟩
      exact .inr (.inr (.inr ⟨a, hlt, by simpa [ho, hba] using henv⟩))
    · exact ⟨.inl (.inl (.inr hheld)), fun hba => hgone (.inl (by simp [← hba, hheld]))⟩
    · exact ⟨.inl (.inr hk), fun hba => hgone (.inl (by simp [← hba, hk]))⟩
    · exact ⟨.inr (.inl hothers), fun hba => hgone (.inr (.inl (hba ▸ hothers)))⟩
    · exact ⟨.inr (.inr (.inl hvar)), fun hba => hgone (.inr (.inr (.inl (hba ▸ hvar))))⟩
    · by_cases hca : c = a
      · simp [hca] at hce
      · have hce' : (s.heap c).bind (·.env) = some b := by simpa [hca] using hce
        exact ⟨.inr (.inr (.inr ⟨c, hc, hce'⟩)), fun hba => hgone (.inr (.inr (.inr ⟨c, hc, hba ▸ hce'⟩)))⟩
  · rintro ⟨((rfl | hheld) | hk) | hothers | hvar | ⟨c, hc, hce⟩, hba⟩
    · exact absurd rfl hba
    · exact .inl (.inl (.inr hheld))
    · exact .inl (.inr hk)
    · exact .inr (.inl hothers)
    · exact .inr (.inr (.inl hvar))
    · by_cases hca : c = a
      · exact .inl (.inl (.inl (by simpa [hca, ho] using hce)))
      · exact .inr (.inr (.inr ⟨c, hc, by simpa [hca] using hce⟩))

/-- **The pointers after a move.** -/
theorem Moves.pointers (h : Moves P s t e (s.thread t) change p') (connections : C → Connection T)
    (hfresh : ∀ b, s.next ≤ b → s.heap b = none) (hanchors : s.Anchors (s.thread t)) :
    Pointers s (s.moved t change p' connections) := by
  generalize hp : s.thread t = p at h
  rw [hp] at hanchors
  cases h with
  | begin hidle hf =>
      obtain ⟨hbegun, -⟩ := begun_of_frame hf
      refine pointers_keep (fun a ha => ?_) (by simp [hp, isIdle_refs hidle])
      rw [Place.refs, After.refs, List.nil_append, hbegun.held, mem_held] at ha
      exact .inl (hbegun.vars a ha)
  | copy hidle =>
      refine pointers_store (fun a ha => .inl ⟨_, ha⟩) ?_
      simp [hp, isIdle_refs hidle]
  | clear hidle =>
      refine pointers_store (fun a ha => ?_) ?_
      · cases ha
      · simp [hp, isIdle_refs hidle]
  | assign =>
      refine pointers_store (fun a ha => (holds_iff t).mpr (.inl ?_)) ?_
      · cases ha
        simp [hp, Place.refs, After.refs]
      · simp [hp, Place.refs, After.refs]
  | letGo hholds =>
      rw [holds_goto] at hholds
      refine pointers_keep (fun a ha => (holds_iff t).mpr (.inl ?_)) fun a ha => ?_
      · rw [hp]
        exact List.mem_cons_of_mem _ ha
      · rw [hp] at ha
        rcases List.mem_cons.mp ha with rfl | ha
        · exact hholds
        · exact .inl ha
  | delete hgone ho => exact pointers_deleted hfresh hp hgone ho
  | made hgives =>
      refine pointers_made hfresh hanchors (fun a ha => (holds_iff t).mpr (.inl ?_)) fun a => ?_
      · simpa [hp, Place.refs, Kont.refs] using ha
      · simp [hp, Place.refs, Kont.refs, After.refs]
  | converted htodo hcall =>
      refine pointers_made hfresh hanchors (fun a ha => (holds_iff t).mpr (.inl ?_)) fun a => ?_
      · simpa [hp, Place.refs, Kont.refs] using ha
      · simp [hp, Place.refs, Kont.refs, After.refs, or_comm]
  | remove => exact pointers_server (by rw [hp]; rfl)
  | null hid hitem => exact pointers_server (by rw [hp]; rfl)
  | perform hid hperform => exact pointers_server (by rw [hp]; rfl)
  | register => exact pointers_server (by rw [hp]; rfl)
  | @convertedCall c f id x todo htodo hcall =>
      have hheld : ∀ a ∈ f.held, s.Holds a := fun a ha =>
        (holds_iff t).mpr (.inl (by simpa [hp, Place.refs, Kont.refs] using ha))
      refine pointers_keep (fun a ha => ?_) fun a ha => .inl ?_
      · rcases List.mem_append.mp ha with henv | ha
        · exact hanchors.holds hfresh hheld (Option.mem_toList.mp henv)
        · exact hheld a ha
      · rw [hp] at ha
        exact List.mem_append_right _ ha
  | _ => exact pointers_same (by rw [hp]; simp [Place.refs, Kont.refs, After.refs])

end System

end PothosCore.Remote.Handles

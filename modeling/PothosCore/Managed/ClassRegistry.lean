import PothosCore.Object.Convert
import PothosCore.Util.SpinLockRW

/-!
# PothosCore.Managed.ClassRegistry

The global map of managed classes: the handler of the plugin events stores a class under
the hashes of three types, its own, the pointer's and the shared pointer's, and
`ManagedClass::lookup` finds it by any of them. Both hold the read/write lock of the map,
the handler as a writer.

Whatever threads do at the same time, each lookup finds what the events that were handled
before it have left, all of their three entries (`Classes.lookups_sequential`).
-/

namespace PothosCore.Managed

open Objects Lib Util

variable {T τ π : Type}

/-- `std::map<size_t, Plugin>`; the plugin of an entry may be null. -/
abbrev ClassMap (π : Type) := Nat → Option (Option π)

/-- The types of a `ManagedClass`. -/
structure ManagedClass (τ : Type) where
  type : τ
  pointerType : τ
  sharedType : τ

/-- What the code asks of types and of plugins. -/
structure Classes (τ π : Type) where
  hashCode : τ → Nat
  typeString : τ → String
  /-- `typeid(NullObject)` and `typeid(ManagedClass)` -/
  nullType : τ
  managedClassType : τ
  /-- The object of a plugin, if it is a `ManagedClass`. -/
  managedClass : π → Option (ManagedClass τ)

/-- What a lookup has so far: the place that it found, and what stands there. -/
structure Found (π : Type) where
  it : Option Nat
  second : Option (Option π)

/-- A lookup that has not read the map. -/
def Found.start : Found π := ⟨none, none⟩

/-- What a thread calls. -/
inductive RegistryCall (τ π : Type)
  | handlePluginEvent (event : PluginEvent π)
  | lookup (type : τ)

/-- A call that has returned, with what a lookup found. -/
inductive Returned (T τ π : Type)
  | handlePluginEvent (t : T) (event : PluginEvent π)
  | lookup (t : T) (type : τ) (found : Found π)

/-- The event that a call has handled. -/
def Returned.event? : Returned T τ π → Option (PluginEvent π)
  | .handlePluginEvent _ event => some event
  | .lookup .. => none

namespace Classes

variable (C : Classes τ π)

/-- The keys of a plugin; one that is not validated has none. -/
def keys (plugin : π) : List Nat :=
  match C.managedClass plugin with
  | none => []
  | some reg => [C.hashCode reg.type, C.hashCode reg.pointerType, C.hashCode reg.sharedType]

/-- `handlePluginEvent(plugin, event)` under the lock, one entry after the other. -/
def handlePluginEvent (event : PluginEvent π) : List (ClassMap π → ClassMap π) :=
  (C.keys event.plugin).map fun key map => Function.update map key (some event.stored)

/-- `getClassMap().find(type.hash_code())` -/
def find (type : τ) (map : ClassMap π) (found : Found π) : Found π :=
  { found with it := if (map (C.hashCode type)).isSome then some (C.hashCode type) else none }

/-- `it->second`, unless the place is the end. -/
def second (map : ClassMap π) (found : Found π) : Found π := { found with second := found.it.bind map }

/-- The section of a call. -/
def callSection : RegistryCall τ π → Section (ClassMap π) (Found π)
  | .handlePluginEvent event => .write (C.handlePluginEvent event)
  | .lookup type => .read .start [C.find type, second]

/-- `ManagedClass::lookup(type)`, from what it found. -/
def lookup (type : τ) (found : Found π) : Except Fault (ManagedClass τ) :=
  match found.second with
  | none => .error (.thrown "ManagedClassLookupError"
      ("Pothos::ManagedClass::lookup(" ++ C.typeString type ++ ")") "no registration found")
  | some plugin =>
      match plugin.bind C.managedClass with
      | some reg => .ok reg
      | none => .error (.thrown "ObjectConvertError" "Pothos::Object::extract()"
          ("Cannot convert Object of type " ++ C.typeString C.nullType ++ " to " ++
            C.typeString C.managedClassType))

/-- A call that has returned, as a section that was left. -/
def done : Returned T τ π → Done T (ClassMap π) (Found π)
  | .handlePluginEvent t event => .write t (C.handlePluginEvent event)
  | .lookup t type found => .read t .start [C.find type, second] found

/-- The threads go into the lock for calls of the registry only. -/
def Uses (events : List (LockEvent T (ClassMap π) (Found π))) : Prop :=
  ∀ t sec, .work (.enter t sec) ∈ events → ∃ call, sec = C.callSection call

/-! ### What the registry is for -/

/-- What the last event with this key has stored, if there was one. -/
def slot (events : List (PluginEvent π)) (key : Nat) : Option (Option π) :=
  events.foldl (fun entry event => if key ∈ C.keys event.plugin then some event.stored else entry) none

/-- A class and another have all three types in common, or none. -/
def Apart : Prop :=
  ∀ p q key, key ∈ C.keys p → key ∈ C.keys q → C.keys p = C.keys q

/-- A lookup answers for a history of events: with the class of the plugin that the last
event for the type has added, with the null object's error if that event was a removal, and
with no registration if there was no such event. -/
structure Answers (events : List (PluginEvent π)) (type : τ) (found : Found π) : Prop where
  ok_iff : ∀ reg, C.lookup type found = .ok reg ↔ ∃ earlier p later, events = earlier ++ .add p :: later ∧
    C.managedClass p = some reg ∧ C.hashCode type ∈ C.keys p ∧ ∀ e ∈ later, C.hashCode type ∉ C.keys e.plugin
  missing_iff : C.lookup type found = .error (.thrown "ManagedClassLookupError"
      ("Pothos::ManagedClass::lookup(" ++ C.typeString type ++ ")") "no registration found") ↔
    ∀ e ∈ events, C.hashCode type ∉ C.keys e.plugin
  removed_iff : C.lookup type found = .error (.thrown "ObjectConvertError" "Pothos::Object::extract()"
      ("Cannot convert Object of type " ++ C.typeString C.nullType ++ " to " ++
        C.typeString C.managedClassType)) ↔ ∃ earlier p later, events = earlier ++ .remove p :: later ∧
    C.hashCode type ∈ C.keys p ∧ ∀ e ∈ later, C.hashCode type ∉ C.keys e.plugin

variable {C}

/-- A plugin with keys is of a class. -/
theorem exists_managedClass {p : π} {key : Nat} (h : key ∈ C.keys p) : ∃ reg, C.managedClass p = some reg := by
  unfold keys at h
  cases hreg : C.managedClass p with
  | none =>
      rw [hreg] at h
      cases h
  | some reg => exact ⟨reg, rfl⟩

theorem slot_concat (events : List (PluginEvent π)) (event : PluginEvent π) (key : Nat) :
    C.slot (events ++ [event]) key =
      if key ∈ C.keys event.plugin then some event.stored else C.slot events key := by
  rw [slot, List.foldl_concat]
  rfl

theorem slot_eq_none {events : List (PluginEvent π)} {key : Nat} :
    C.slot events key = none ↔ ∀ e ∈ events, key ∉ C.keys e.plugin := by
  induction events using List.reverseRecOn with
  | nil => exact iff_of_true rfl fun e he => absurd he List.not_mem_nil
  | append_singleton events event ih =>
      rw [slot_concat, List.forall_mem_append, List.forall_mem_singleton, ← ih]
      by_cases hkey : key ∈ C.keys event.plugin <;> simp [hkey]

theorem slot_eq_some {events : List (PluginEvent π)} {key : Nat} {entry : Option π} :
    C.slot events key = some entry ↔ ∃ earlier event later, events = earlier ++ event :: later ∧
      event.stored = entry ∧ key ∈ C.keys event.plugin ∧ ∀ e ∈ later, key ∉ C.keys e.plugin := by
  induction events using List.reverseRecOn with
  | nil => simp [slot]
  | append_singleton events event ih =>
      rw [slot_concat]
      constructor
      · intro h
        by_cases hkey : key ∈ C.keys event.plugin
        · rw [if_pos hkey] at h
          exact ⟨events, event, [], rfl, Option.some.inj h, hkey, fun e he => absurd he List.not_mem_nil⟩
        · rw [if_neg hkey] at h
          obtain ⟨earlier, last, later, rfl, hentry, hlast, hlater⟩ := ih.mp h
          refine ⟨earlier, last, later ++ [event], by rw [List.append_assoc]; rfl, hentry, hlast, ?_⟩
          rw [List.forall_mem_append, List.forall_mem_singleton]
          exact ⟨hlater, hkey⟩
      · rintro ⟨earlier, last, later, heq, hentry, hlast, hlater⟩
        rcases later.eq_nil_or_concat with rfl | ⟨later, e, rfl⟩
        · obtain ⟨rfl, hone⟩ := List.append_inj' heq rfl
          obtain rfl := List.singleton_inj.mp hone
          rw [if_pos hlast, hentry]
        · rw [List.concat_eq_append, List.forall_mem_append, List.forall_mem_singleton] at hlater
          rw [List.concat_eq_append, ← List.cons_append, ← List.append_assoc] at heq
          obtain ⟨rfl, hone⟩ := List.append_inj' heq rfl
          obtain rfl := List.singleton_inj.mp hone
          rw [if_neg hlater.2]
          exact ih.mpr ⟨earlier, last, later, rfl, hentry, hlast, hlater.1⟩

/-- A lookup that found the slot answers. -/
theorem answers_of_slot {events : List (PluginEvent π)} {type : τ} {found : Found π}
    (h : found.second = C.slot events (C.hashCode type)) : C.Answers events type found := by
  constructor
  · intro reg
    rw [lookup, h]
    constructor
    · intro hok
      cases hslot : C.slot events (C.hashCode type) with
      | none =>
          rw [hslot] at hok
          cases hok
      | some plugin =>
          obtain ⟨earlier, event, later, hevents, hentry, hkey, hlater⟩ := slot_eq_some.mp hslot
          rw [hslot] at hok
          cases event with
          | remove p =>
              cases hentry
              cases hok
          | add p =>
              cases hentry
              refine ⟨earlier, p, later, hevents, ?_, hkey, hlater⟩
              simp only [PluginEvent.stored, Option.bind_some] at hok
              cases hreg : C.managedClass p with
              | none =>
                  rw [hreg] at hok
                  cases hok
              | some reg' =>
                  rw [hreg] at hok
                  cases hok
                  rfl
    · rintro ⟨earlier, p, later, hevents, hreg, hkey, hlater⟩
      rw [slot_eq_some.mpr ⟨earlier, .add p, later, hevents, rfl, hkey, hlater⟩]
      simp only [PluginEvent.stored, Option.bind_some, hreg]
  · rw [lookup, h, ← slot_eq_none]
    cases C.slot events (C.hashCode type) with
    | none => exact iff_of_true rfl rfl
    | some plugin =>
        refine iff_of_false (fun herror => ?_) (by simp)
        dsimp only at herror
        cases hreg : plugin.bind C.managedClass with
        | none =>
            rw [hreg] at herror
            exact absurd (Fault.thrown.inj (Except.error.inj herror)).1 (by decide)
        | some reg =>
            rw [hreg] at herror
            cases herror
  · rw [lookup, h]
    constructor
    · intro herror
      cases hslot : C.slot events (C.hashCode type) with
      | none =>
          rw [hslot] at herror
          exact absurd (Fault.thrown.inj (Except.error.inj herror)).1 (by decide)
      | some plugin =>
          obtain ⟨earlier, event, later, hevents, hentry, hkey, hlater⟩ := slot_eq_some.mp hslot
          cases event with
          | remove p => exact ⟨earlier, p, later, hevents, hkey, hlater⟩
          | add p =>
              cases hentry
              obtain ⟨reg, hreg⟩ : ∃ reg, C.managedClass p = some reg := exists_managedClass hkey
              rw [hslot] at herror
              simp only [PluginEvent.stored, Option.bind_some] at herror
              rw [hreg] at herror
              cases herror
    · rintro ⟨earlier, p, later, hevents, hkey, hlater⟩
      rw [slot_eq_some.mpr ⟨earlier, .remove p, later, hevents, rfl, hkey, hlater⟩]
      rfl

/-- **All of a class or nothing of it.** -/
theorem Apart.slot_eq (h : C.Apart) (events : List (PluginEvent π)) (p : π) {key key' : Nat}
    (hkey : key ∈ C.keys p) (hkey' : key' ∈ C.keys p) : C.slot events key = C.slot events key' := by
  induction events using List.reverseRecOn with
  | nil => rfl
  | append_singleton events event ih =>
      have hiff : key ∈ C.keys event.plugin ↔ key' ∈ C.keys event.plugin :=
        ⟨fun hmem => h p event.plugin key hkey hmem ▸ hkey', fun hmem => h p event.plugin key' hkey' hmem ▸ hkey⟩
      rw [slot_concat, slot_concat, ih]
      exact if_congr hiff rfl rfl

/-! ### Sections that are done at once -/

/-- The handler writes all of its entries. -/
theorem writeAll_handlePluginEvent (event : PluginEvent π) (map : ClassMap π) (key : Nat) :
    Sections.writeAll (C.handlePluginEvent event) map key =
      if key ∈ C.keys event.plugin then some event.stored else map key := by
  rw [handlePluginEvent]
  generalize C.keys event.plugin = keys
  induction keys generalizing map with
  | nil => rfl
  | cons k keys ih =>
      show Sections.writeAll (keys.map _) (Function.update map k (some event.stored)) key = _
      rw [ih]
      by_cases hmem : key ∈ keys
      · rw [if_pos hmem, if_pos (List.mem_cons_of_mem k hmem)]
      · rw [if_neg hmem]
        by_cases hk : key = k
        · rw [hk, Function.update_self, if_pos List.mem_cons_self]
        · rw [Function.update_of_ne hk, if_neg]
          exact fun hin => (List.mem_cons.mp hin).elim hk hmem

/-- A lookup reads the entry of its key. -/
theorem readAll_lookup (type : τ) (map : ClassMap π) :
    (Sections.readAll [C.find type, second] map .start).second = map (C.hashCode type) := by
  show Option.bind (if (map (C.hashCode type)).isSome then some (C.hashCode type) else none) map = _
  cases hmap : map (C.hashCode type) with
  | none => rfl
  | some plugin => exact hmap

/-- One call after the other: the map has the slots, and a lookup found its own. -/
theorem atomic_calls {calls : List (Returned T τ π)} {map : ClassMap π}
    (hrun : Exec Sections.Atomic (fun _ => none) (calls.map C.done) map) :
    map = C.slot (calls.filterMap Returned.event?) ∧
      ∀ before t type found after, calls = before ++ .lookup t type found :: after →
        found.second = C.slot (before.filterMap Returned.event?) (C.hashCode type) := by
  induction calls using List.reverseRecOn generalizing map with
  | nil =>
      cases hrun
      exact ⟨rfl, fun before t type found after h => absurd h (by simp)⟩
  | append_singleton calls call ih =>
      rw [List.map_append] at hrun
      obtain ⟨middle, hcalls, hlast⟩ := hrun.of_snoc
      obtain ⟨hmiddle, hfound⟩ := ih hcalls
      have hearlier : ∀ before t type found (after : List (Returned T τ π)) last,
          calls ++ [call] = before ++ .lookup t type found :: after.concat last →
            found.second = C.slot (before.filterMap Returned.event?) (C.hashCode type) := by
        intro before t type found after last h
        rw [List.concat_eq_append, ← List.cons_append, ← List.append_assoc] at h
        exact hfound before t type found after (List.append_inj_left' h rfl)
      cases call with
      | handlePluginEvent t event =>
          refine ⟨?_, fun before t' type found after h => ?_⟩
          · cases hlast
            funext key
            rw [writeAll_handlePluginEvent, hmiddle, List.filterMap_append]
            exact (slot_concat _ event key).symm
          · rcases after.eq_nil_or_concat with rfl | ⟨after, last, rfl⟩
            · cases (List.append_inj' h rfl).2
            · exact hearlier before t' type found after last h
      | lookup t type found =>
          refine ⟨?_, fun before t' type' found' after h => ?_⟩
          · cases hlast
            rw [hmiddle, List.filterMap_append]
            exact congrArg C.slot (List.append_nil _).symm
          · rcases after.eq_nil_or_concat with rfl | ⟨after, last, rfl⟩
            · obtain ⟨rfl, heq⟩ := List.append_inj' h rfl
              cases heq
              cases hlast
              rw [readAll_lookup, hmiddle]
            · exact hearlier before t' type' found' after last h

/-! ### Any number of threads -/

/-- What the threads have left are calls of the registry. -/
theorem exists_calls {dones : List (Done T (ClassMap π) (Found π))}
    (h : ∀ d ∈ dones, ∃ call, d.section = C.callSection call) :
    ∃ calls : List (Returned T τ π), dones = calls.map C.done := by
  have hmem : ∀ d ∈ dones, d ∈ Set.range (C.done (T := T)) := by
    intro d hd
    obtain ⟨call, hcall⟩ := h d hd
    cases d with
    | read t start body value =>
        cases call with
        | handlePluginEvent event => cases hcall
        | lookup type =>
            cases hcall
            exact ⟨.lookup t type value, rfl⟩
    | write t body =>
        cases call with
        | handlePluginEvent event =>
            cases hcall
            exact ⟨.handlePluginEvent t event, rfl⟩
        | lookup type => cases hcall
  obtain ⟨calls, hcalls⟩ : dones ∈ Set.range (List.map (C.done (T := T))) := by
    rw [Set.range_list_map]
    exact hmem
  exact ⟨calls, hcalls.symm⟩

/-- **Lookups under the lock.** However the calls of any number of threads come together,
those that have returned can be put into one order in which each lookup answers for the
events before it; and lookups of types of one class, with no event between them, find the
same. -/
theorem lookups_sequential [DecidableEq T] {s : SpinLockRW T (ClassMap π) (Found π)}
    (events : List (LockEvent T (ClassMap π) (Found π)))
    (hrun : Exec SpinLockRW.Step (.start fun _ => none) events s) (huses : C.Uses events) :
    ∃ calls : List (Returned T τ π),
      (SpinLockRW.sectionEvents events).filterMap SectionEvent.done? = calls.map C.done ∧
        (∀ before t type found after, calls = before ++ .lookup t type found :: after →
          C.Answers (before.filterMap Returned.event?) type found) ∧
        (C.Apart → ∀ p before t type found between t' type' found' after,
          calls = before ++ .lookup t type found :: (between ++ .lookup t' type' found' :: after) →
            between.filterMap Returned.event? = [] → C.hashCode type ∈ C.keys p → C.hashCode type' ∈ C.keys p →
              found.second = found'.second) := by
  obtain ⟨-, hsections⟩ := (SpinLockRW.sound_start fun _ => none).run hrun
  obtain ⟨map, hatomic, -⟩ := SpinLockRW.sections_atomic hrun
  have hleft : ∀ d ∈ (SpinLockRW.sectionEvents events).filterMap SectionEvent.done?,
      ∃ call, d.section = C.callSection call := by
    intro d hd
    obtain ⟨e, he, hdone⟩ := List.mem_filterMap.mp hd
    have hleave : SectionEvent.leave d ∈ SpinLockRW.sectionEvents events := by
      cases e with
      | leave done =>
          cases hdone
          exact he
      | enter t sec => cases hdone
      | step t => cases hdone
    refine Sections.section_of_done (P := fun sec => ∃ call, sec = C.callSection call) hsections
      (fun t i hin => by cases hin) (fun t sec hmem => ?_) d hleave
    obtain ⟨e, he, hsection⟩ := List.mem_filterMap.mp hmem
    cases e with
    | spin t' => cases hsection
    | work e' =>
        cases hsection
        exact huses t sec he
  obtain ⟨calls, hcalls⟩ := exists_calls hleft
  rw [hcalls] at hatomic
  obtain ⟨-, hfound⟩ := atomic_calls hatomic
  refine ⟨calls, hcalls, fun before t type found after h => answers_of_slot (hfound before t type found after h), ?_⟩
  intro hapart p before t type found between t' type' found' after h hbetween hkey hkey'
  rw [hfound before t type found _ h, hapart.slot_eq _ p hkey hkey']
  rw [← List.cons_append, ← List.append_assoc] at h
  rw [hfound _ t' type' found' after h, List.filterMap_append, List.filterMap_cons_none rfl, hbetween, List.append_nil]

/-- One class, under the keys 0, 1 and 2. -/
def oneClass : Classes Nat Unit where
  hashCode type := type
  typeString := toString
  nullType := 3
  managedClassType := 4
  managedClass _ := some ⟨0, 1, 2⟩

/-- The class is added, and then found by its shared type. -/
def addThenLookup : List (LockEvent Bool (ClassMap Unit) (Found Unit)) :=
  [.spin true, .work (.enter true (oneClass.callSection (.handlePluginEvent (.add ())))), .work (.step true),
    .spin false, .work (.step true), .spin false, .work (.step true),
    .work (.leave (oneClass.done (.handlePluginEvent true (.add ())))), .spin false,
    .work (.enter false (oneClass.callSection (.lookup 2))), .work (.step false), .work (.step false),
    .work (.leave (oneClass.done (.lookup false 2 ⟨some 2, some (some ())⟩)))]

theorem addThenLookup_run : ∃ s, Exec SpinLockRW.Step (.start fun _ => none) addThenLookup s :=
  ⟨_, .cons (.call _ true (oneClass.handlePluginEvent (.add ())) rfl) <|
    .cons (.tryLock _ true rfl rfl) <|
    .cons (.write _ true rfl) <|
    .cons (.callShared _ false .start [oneClass.find 2, second] rfl) <|
    .cons (.write _ true rfl) <|
    .cons (.failLoad _ false rfl rfl) <|
    .cons (.write _ true rfl) <|
    .cons (.unlock _ true rfl) <|
    .cons (.load _ false rfl (by decide)) <|
    .cons (.exchange _ false rfl rfl) <|
    .cons (.read _ false rfl) <|
    .cons (.read _ false rfl) <|
    .cons (.unlockShared _ false rfl) <|
    .nil _⟩

theorem addThenLookup_uses : oneClass.Uses addThenLookup := by
  intro t sec hmem
  simp only [addThenLookup, List.mem_cons, List.not_mem_nil, LockEvent.work.injEq, SectionEvent.enter.injEq,
    reduceCtorEq, or_false, false_or] at hmem
  rcases hmem with ⟨-, rfl⟩ | ⟨-, rfl⟩
  · exact ⟨_, rfl⟩
  · exact ⟨_, rfl⟩

theorem addThenLookup_sequential :
    ∃ calls : List (Returned Bool Nat Unit),
      (SpinLockRW.sectionEvents addThenLookup).filterMap SectionEvent.done? = calls.map oneClass.done ∧
        (∀ before t type found after, calls = before ++ .lookup t type found :: after →
          oneClass.Answers (before.filterMap Returned.event?) type found) ∧
        (oneClass.Apart → ∀ p before t type found between t' type' found' after,
          calls = before ++ .lookup t type found :: (between ++ .lookup t' type' found' :: after) →
            between.filterMap Returned.event? = [] → oneClass.hashCode type ∈ oneClass.keys p →
              oneClass.hashCode type' ∈ oneClass.keys p → found.second = found'.second) := by
  obtain ⟨s, hrun⟩ := addThenLookup_run
  exact lookups_sequential addThenLookup hrun addThenLookup_uses

end Classes

end PothosCore.Managed

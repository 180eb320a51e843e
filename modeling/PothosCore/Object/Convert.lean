import Mathlib.Data.Finset.Sort
import Mathlib.Logic.Function.Basic
import PothosCore.Fault

/-!
# PothosCore.Object.Convert

`Object::convert` and `Object::canConvert`, and the two global maps behind them: from the
combined hash of a pair of types to the converter plugin, and from the hash of an input
type to the hashes of the output types. Plugin events keep both; `remove` stores a null
plugin in the first and erases from the second.

`slot` is what a history of events leaves for a pair of types: the maps hold the slots, as
long as the combined hash tells the pairs apart (`run_convertMap`, `mem_run_convertIoMap`).
-/

namespace PothosCore.Objects

variable {τ ο π : Type}

/-- `Callable`: its signature, where `void` is no type, and `opaqueCall`. -/
structure Callable (τ ο : Type) where
  argTypes : List τ
  returnType : Option τ
  opaqueCall : List ο → Except Fault ο

/-- What the code asks of types, objects and plugins. -/
structure Runtime (τ ο π : Type) where
  hashCode : τ → Nat
  typeString : τ → String
  /-- `typeid(NullObject)`, `typeid(Object)` and `typeid(Callable)` -/
  nullType : τ
  objectType : τ
  callableType : τ
  type : ο → τ
  /-- `Object::make(object)` -/
  make : ο → ο
  /-- The object of a plugin, if it is a `Callable`. -/
  callable : π → Option (Callable τ ο)

/-- `typesHashCombine(inTypeHash, outTypeHash)` -/
def typesHashCombine (inTypeHash outTypeHash : Nat) : Nat :=
  (inTypeHash + 0x9e3779b9 + outTypeHash * 2 ^ 6 % 2 ^ 64 + outTypeHash / 2 ^ 2) % 2 ^ 64

/-- The events of the plugin registry. -/
inductive PluginEvent (π : Type)
  | add (plugin : π)
  | remove (plugin : π)
  deriving Repr, DecidableEq

namespace PluginEvent

def plugin : PluginEvent π → π
  | .add plugin => plugin
  | .remove plugin => plugin

/-- What the event stores: the plugin, or `Plugin()`. -/
def stored : PluginEvent π → Option π
  | .add plugin => some plugin
  | .remove _ => none

end PluginEvent

/-- The global maps. An entry of the first may be a null plugin; an absent entry of the
second is like the empty set. -/
structure ConvertMaps (π : Type) where
  convertMap : Nat → Option (Option π)
  convertIoMap : Nat → Finset Nat

/-- What a conversion does: the converters that it calls, in order, and how it ends. -/
structure Converted (ο π : Type) where
  calls : List π
  result : Except Fault ο

namespace Runtime

variable (R : Runtime τ ο π)

/-- The key of a pair of types. -/
def combine (inType outType : τ) : Nat := typesHashCombine (R.hashCode inType) (R.hashCode outType)

/-- The validation of a plugin: a call with one argument that returns something. -/
def converterTypes (plugin : π) : Option (τ × τ) :=
  match R.callable plugin with
  | some ⟨[inputType], some outputType, _⟩ => some (inputType, outputType)
  | _ => none

/-- `handleConvertPluginEvent(plugin, event)` -/
def handleConvertPluginEvent (maps : ConvertMaps π) (event : PluginEvent π) : ConvertMaps π :=
  match R.converterTypes event.plugin with
  | none => maps
  | some (inputType, outputType) =>
      let outputs := maps.convertIoMap (R.hashCode inputType)
      { convertMap := Function.update maps.convertMap (R.combine inputType outputType) (some event.stored)
        convertIoMap := Function.update maps.convertIoMap (R.hashCode inputType)
          (match event with
            | .add _ => insert (R.hashCode outputType) outputs
            | .remove _ => outputs.erase (R.hashCode outputType)) }

/-- `getObject().extract<Callable>()` of a plugin that may be null. -/
def extractCallable (plugin : Option π) : Except Fault (π × Callable τ ο) :=
  match plugin.bind fun p => (R.callable p).map (p, ·) with
  | some call => .ok call
  | none => .error (.thrown "ObjectConvertError" "Pothos::Object::extract()"
      ("Cannot convert Object of type " ++ R.typeString R.nullType ++ " to " ++ R.typeString R.callableType))

/-- Call the plugin of an entry. -/
def callOne (plugin : Option π) (x : ο) : Converted ο π :=
  match R.extractCallable plugin with
  | .error e => ⟨[], .error e⟩
  | .ok (p, call) => ⟨[p], call.opaqueCall [x]⟩

/-- Call the plugins of two entries, the second with what the first returns. Both are
extracted first. -/
def callTwo (plugin₁ plugin₂ : Option π) (x : ο) : Converted ο π :=
  match R.extractCallable plugin₁, R.extractCallable plugin₂ with
  | .error e, _ => ⟨[], .error e⟩
  | .ok _, .error e => ⟨[], .error e⟩
  | .ok (p, call₁), .ok (q, call₂) =>
      match call₁.opaqueCall [x] with
      | .error e => ⟨[p], .error e⟩
      | .ok y => ⟨[p, q], call₂.opaqueCall [y]⟩

/-- The entries of an intermediate type, if there are both. -/
def halves (maps : ConvertMaps π) (src dst : τ) (intermHash : Nat) : Option (Option π × Option π) :=
  match maps.convertMap (typesHashCombine (R.hashCode src) intermHash),
      maps.convertMap (typesHashCombine intermHash (R.hashCode dst)) with
  | some plugin₁, some plugin₂ => some (plugin₁, plugin₂)
  | _, _ => none

/-- The search for an intermediate conversion, in the order of the hashes. -/
def intermediate (maps : ConvertMaps π) (src dst : τ) : Option (Option π × Option π) :=
  ((maps.convertIoMap (R.hashCode src)).sort (· ≤ ·)).findSome? (R.halves maps src dst)

/-- The error for a conversion that is not supported. -/
def unsupported (x : ο) (outputType : τ) : Fault :=
  .thrown "ObjectConvertError" "Pothos::Object::convert()"
    ("doesnt support " ++ R.typeString (R.type x) ++ " to " ++ R.typeString outputType)

/-- `convertObject(inputObj, outputType)` -/
def convertObject (maps : ConvertMaps π) (x : ο) (outputType : τ) : Converted ο π :=
  match maps.convertMap (R.combine (R.type x) outputType) with
  | some plugin => R.callOne plugin x
  | none =>
      match R.intermediate maps (R.type x) outputType with
      | some (plugin₁, plugin₂) => R.callTwo plugin₁ plugin₂ x
      | none => ⟨[], .error (R.unsupported x outputType)⟩

section
variable {R}

theorem callable_of_types {p : π} {pair : τ × τ} (h : R.converterTypes p = some pair) :
    ∃ call, R.callable p = some call := by
  rw [converterTypes] at h
  cases hcall : R.callable p with
  | none =>
      rw [hcall] at h
      cases h
  | some call => exact ⟨call, rfl⟩

theorem extractCallable_some {p : π} {call : Callable τ ο} (h : R.callable p = some call) :
    R.extractCallable (some p) = .ok (p, call) := by
  simp [extractCallable, h]

/-- A null plugin is not called. -/
theorem callOne_none (x : ο) : ∃ what message,
    R.callOne none x = ⟨[], .error (.thrown "ObjectConvertError" what message)⟩ := ⟨_, _, rfl⟩

theorem callTwo_none {p : π} {call : Callable τ ο} (h : R.callable p = some call) (x : ο) :
    ∃ what message, R.callTwo (some p) none x = ⟨[], .error (.thrown "ObjectConvertError" what message)⟩ := by
  rw [callTwo, extractCallable_some h]
  exact ⟨_, _, rfl⟩

/-- Two plugins that are there: the first is called. -/
theorem callTwo_head {p q : π} {call₁ call₂ : Callable τ ο} (hp : R.callable p = some call₁)
    (hq : R.callable q = some call₂) (x : ο) : (R.callTwo (some p) (some q) x).calls.head? = some p := by
  rw [callTwo, extractCallable_some hp, extractCallable_some hq]
  dsimp only
  cases call₁.opaqueCall [x] <;> rfl

end

section
variable [DecidableEq τ]

/-- `Object::convert(type)` -/
def convert (maps : ConvertMaps π) (x : ο) (type : τ) : Converted ο π :=
  if R.type x = type then ⟨[], .ok x⟩
  else if type = R.objectType then ⟨[], .ok (R.make x)⟩
  else R.convertObject maps x type

/-- `Object::canConvert(srcType, dstType)` -/
def canConvertTypes (maps : ConvertMaps π) (srcType dstType : τ) : Bool :=
  if srcType = dstType then true
  else
    match maps.convertMap (R.combine srcType dstType) with
    | some _ => true
    | none => (R.intermediate maps srcType dstType).isSome

/-- `Object::canConvert(type)` -/
def canConvert (maps : ConvertMaps π) (x : ο) (type : τ) : Bool :=
  if type = R.objectType then true else R.canConvertTypes maps (R.type x) type

/-! ### Histories -/

/-- The maps after a history of events. -/
def run (events : List (PluginEvent π)) : ConvertMaps π :=
  events.foldl R.handleConvertPluginEvent ⟨fun _ => none, fun _ => ∅⟩

/-- What the last event for a pair of types stored, if there was one. -/
def slot (events : List (PluginEvent π)) (s d : τ) : Option (Option π) :=
  events.foldl
    (fun entry event => if R.converterTypes event.plugin = some (s, d) then some event.stored else entry) none

end

/-- The combined hash tells pairs of types apart. -/
def Injective : Prop :=
  ∀ a b c d, R.combine a b = R.combine c d → a = c ∧ b = d

variable {R} {events : List (PluginEvent π)}

theorem Injective.hashCode (hinj : R.Injective) {a b : τ} (h : R.hashCode a = R.hashCode b) : a = b :=
  (hinj a a b a (by rw [combine, combine, h])).1

theorem run_concat (events : List (PluginEvent π)) (event : PluginEvent π) :
    R.run (events ++ [event]) = R.handleConvertPluginEvent (R.run events) event := by
  rw [run, List.foldl_append]
  rfl

/-- The second map holds hashes of types only. -/
theorem exists_of_mem_convertIoMap {i h : Nat} (hmem : h ∈ (R.run events).convertIoMap i) :
    ∃ d, R.hashCode d = h := by
  induction events using List.reverseRecOn with
  | nil => cases hmem
  | append_singleton events event ih =>
      rw [run_concat, handleConvertPluginEvent] at hmem
      cases htypes : R.converterTypes event.plugin with
      | none =>
          rw [htypes] at hmem
          exact ih hmem
      | some pair =>
          obtain ⟨a, b⟩ := pair
          rw [htypes] at hmem
          dsimp only at hmem
          rw [Function.update_apply] at hmem
          split at hmem
          · next hi =>
              subst hi
              cases event with
              | add q =>
                  cases Finset.mem_insert.mp hmem with
                  | inl he => exact ⟨b, he.symm⟩
                  | inr hold => exact ih hold
              | remove q => exact ih (Finset.mem_of_mem_erase hmem)
          · exact ih hmem

section
variable [DecidableEq τ]

theorem slot_concat (events : List (PluginEvent π)) (event : PluginEvent π) (s d : τ) :
    R.slot (events ++ [event]) s d =
      if R.converterTypes event.plugin = some (s, d) then some event.stored else R.slot events s d := by
  rw [slot, List.foldl_append]
  rfl

/-- A plugin in a slot is a converter for the pair. -/
theorem slot_types {s d : τ} {p : π} (h : R.slot events s d = some (some p)) :
    R.converterTypes p = some (s, d) := by
  induction events using List.reverseRecOn with
  | nil => cases h
  | append_singleton events event ih =>
      rw [slot_concat] at h
      split at h
      · next htypes =>
          cases event with
          | add q =>
              obtain rfl : q = p := Option.some.inj (Option.some.inj h)
              exact htypes
          | remove q => cases h
      · exact ih h

theorem handle_convertMap (hinj : R.Injective) (maps : ConvertMaps π) (event : PluginEvent π) (s d : τ) :
    (R.handleConvertPluginEvent maps event).convertMap (R.combine s d) =
      if R.converterTypes event.plugin = some (s, d) then some event.stored
      else maps.convertMap (R.combine s d) := by
  rw [handleConvertPluginEvent]
  cases htypes : R.converterTypes event.plugin with
  | none => simp
  | some pair =>
      obtain ⟨i, o⟩ := pair
      dsimp only
      rw [Function.update_apply]
      by_cases hpair : R.combine s d = R.combine i o
      · obtain ⟨rfl, rfl⟩ := hinj _ _ _ _ hpair
        simp
      · have hne : ¬ some (i, o) = some (s, d) := by
          intro he
          obtain ⟨rfl, rfl⟩ := Prod.mk.inj (Option.some.inj he)
          exact hpair rfl
        rw [if_neg hpair, if_neg hne]

/-- **The first map** holds the slots. -/
theorem run_convertMap (hinj : R.Injective) (events : List (PluginEvent π)) (s d : τ) :
    (R.run events).convertMap (R.combine s d) = R.slot events s d := by
  induction events using List.reverseRecOn with
  | nil => rfl
  | append_singleton events event ih =>
      rw [run_concat, handle_convertMap hinj, ih, slot_concat]

theorem mem_handle_convertIoMap (hinj : R.Injective) (maps : ConvertMaps π) (event : PluginEvent π) (s d : τ) :
    R.hashCode d ∈ (R.handleConvertPluginEvent maps event).convertIoMap (R.hashCode s) ↔
      if R.converterTypes event.plugin = some (s, d) then event.stored.isSome = true
      else R.hashCode d ∈ maps.convertIoMap (R.hashCode s) := by
  rw [handleConvertPluginEvent]
  cases htypes : R.converterTypes event.plugin with
  | none => simp
  | some pair =>
      obtain ⟨i, o⟩ := pair
      dsimp only
      rw [Function.update_apply]
      by_cases hi : s = i
      · subst hi
        rw [if_pos rfl]
        by_cases ho : d = o
        · subst ho
          cases event <;> simp [PluginEvent.stored]
        · have hhash : R.hashCode d ≠ R.hashCode o := fun he => ho (hinj.hashCode he)
          have hne : ¬ some (s, o) = some (s, d) := by simpa using fun he => ho he.symm
          rw [if_neg hne]
          cases event <;> simp [hhash]
      · have hhash : R.hashCode s ≠ R.hashCode i := fun he => hi (hinj.hashCode he)
        have hne : ¬ some (i, o) = some (s, d) := by
          intro he
          exact hi (Prod.mk.inj (Option.some.inj he)).1.symm
        rw [if_neg hhash, if_neg hne]

/-- **The second map** holds the outputs of the slots that are not null. -/
theorem mem_run_convertIoMap (hinj : R.Injective) (events : List (PluginEvent π)) (s d : τ) :
    R.hashCode d ∈ (R.run events).convertIoMap (R.hashCode s) ↔ ∃ p, R.slot events s d = some (some p) := by
  induction events using List.reverseRecOn with
  | nil => simp [run, slot]
  | append_singleton events event ih =>
      rw [run_concat, mem_handle_convertIoMap hinj, slot_concat]
      split
      · rw [Option.isSome_iff_exists]
        simp
      · exact ih

/-! ### What a conversion does -/

variable {x : ο} {type : τ}

theorem canConvert_run (hinj : R.Injective) (hsame : R.type x ≠ type) (hobject : type ≠ R.objectType) :
    R.canConvert (R.run events) x type =
      match R.slot events (R.type x) type with
      | some _ => true
      | none => (R.intermediate (R.run events) (R.type x) type).isSome := by
  rw [canConvert, if_neg hobject, canConvertTypes, if_neg hsame, run_convertMap hinj]

theorem convert_run (hinj : R.Injective) (hsame : R.type x ≠ type) (hobject : type ≠ R.objectType) :
    R.convert (R.run events) x type =
      match R.slot events (R.type x) type with
      | some plugin => R.callOne plugin x
      | none =>
          match R.intermediate (R.run events) (R.type x) type with
          | some (plugin₁, plugin₂) => R.callTwo plugin₁ plugin₂ x
          | none => ⟨[], .error (R.unsupported x type)⟩ := by
  rw [convert, if_neg hsame, if_neg hobject, convertObject, run_convertMap hinj]

/-- An object of the type itself, or any object as an `Object`. -/
theorem canConvert_trivial (maps : ConvertMaps π) (h : R.type x = type ∨ type = R.objectType) :
    R.canConvert maps x type = true := by
  rw [canConvert]
  split
  · rfl
  · next hobject => rw [canConvertTypes, if_pos (h.resolve_right hobject)]

/-- What a conversion does is the same under all histories if it needs none. -/
theorem convert_trivial_congr (maps maps' : ConvertMaps π) (h : R.type x = type ∨ type = R.objectType) :
    R.convert maps x type = R.convert maps' x type := by
  rw [convert, convert]
  by_cases hsame : R.type x = type
  · rw [if_pos hsame, if_pos hsame]
  · rw [if_neg hsame, if_neg hsame, if_pos (h.resolve_left hsame), if_pos (h.resolve_left hsame)]

end

end Runtime

end PothosCore.Objects

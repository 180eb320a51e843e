import Mathlib.Data.List.Nodup
import PothosCore.Framework.PortAllocation

/-!
# PothosCore.Framework.PortTables

The port tables of a block agree with each other, and a call that throws leaves them as
they were. `sound_iff` says under which calls, for whole runs.

The owning map gets the port before its name is parsed, so a name that is no int leaves
it in that map alone. Two names can have the same index; then the indexed ports have one
of the two, and none when one is deleted.
-/

namespace PothosCore.Framework

open PothosCore.Lib

namespace ActorPorts

/-- The tables of one direction have the same names and the same ports. -/
structure TableAgrees (heap : Nat → Option PortObject) (isInput : Bool) (p : PortTable) : Prop where
  named : ∀ name, p.namedPorts name = p.ports name
  names : ∀ name, name ∈ p.portNames ↔ (p.ports name).isSome = true
  nodup : p.portNames.Nodup
  object : ∀ name a, p.ports name = some a →
    ∃ port, heap a = some port ∧ port.isInput = isInput ∧ port.name = name ∧
      portNameToIndex name = .ok port.index
  indexed : ∀ k a, SlotVector.slot p.indexedPorts k = some a ↔
    ∃ name, p.ports name = some a ∧ portNameToIndex name = .ok (some k)
  last : SlotVector.Stripped p.indexedPorts
  pointers : p.indexedPorts.length ≤ p.pointers

/-- **The tables agree.** -/
structure Agrees (t : ActorPorts) : Prop where
  tables : ∀ isInput, TableAgrees t.heap isInput (t.table isInput)
  automatic : ∀ a ∈ t.automaticPorts, ∃ isInput name, (t.table isInput).ports name = some a

/-- A port has been added. -/
def Adds (t t' : ActorPorts) : Prop :=
  ∃ isInput name, (t.table isInput).ports name = none ∧ ((t'.table isInput).ports name).isSome = true

/-- What a call is meant to do: the tables agree, it ends by returning or by an exception
that leaves all tables as they were, and when a port has been added the pointer arrays
have the length of the indexed ports. -/
structure Proper (t : ActorPorts) (r : Except Fault Unit × ActorPorts) : Prop where
  agrees : r.2.Agrees
  restores : ∀ e, r.1 = .error e → (∃ type what message, e = .thrown type what message) ∧ r.2 = t
  sized : Adds t r.2 → ∀ isInput, (r.2.table isInput).pointers = (r.2.table isInput).indexedPorts.length

/-! ### The condition -/

/-- The name is no digit string that is too large for an int, and no port of the direction
has a name with the same index. -/
def Unambiguous (p : PortTable) (name : String) : Prop :=
  ∃ index, portNameToIndex name = .ok index ∧
    ∀ k, index = some k → ∀ other, (p.ports other).isSome = true → portNameToIndex other ≠ .ok (some k)

/-- The port is deleted: it was allocated automatically and has no subscribers. -/
def Deletable (t : ActorPorts) (isInput : Bool) (name : String) : Prop :=
  ∃ a port, (t.table isInput).ports name = some a ∧ t.heap a = some port ∧ port.subscribers = [] ∧
    a ∈ t.automaticPorts

/-- **The condition on a call**, for a call that gets to allocate or to delete a port. -/
def Meets (t : ActorPorts) : PortCall → Prop
  | .setup isInput _ name _ _ =>
      name ≠ "" → (t.table isInput).ports name = none → Unambiguous (t.table isInput) name
  | .registerSignal _ name => name ≠ "" → t.outputs.ports name = none → Unambiguous t.outputs name
  | .registerSlot _ name =>
      name ∉ t.automaticSlots → name ≠ "" → t.inputs.ports name = none → Unambiguous t.inputs name
  | .registerCallable _ name returnVoid =>
      name ≠ "" ∧ (name.toList.head? ≠ some '_' → returnVoid = true → name ∉ t.automaticSlots →
        t.inputs.ports name = none → Unambiguous t.inputs name)
  | .autoAllocate isInput _ name =>
      ∀ index, portNameToIndex name = .ok (some index) → (t.table isInput).ports name = none →
        (lowerIndex (t.table isInput) index).isSome = true → Unambiguous (t.table isInput) name
  | .autoDelete isInput name => Deletable t isInput name → portNameToIndex name ≠ .ok (some (2 ^ 31 - 1))
  | .subscribe _ _ _ => True

/-- A new object is where no port is. -/
def Admits (t : ActorPorts) : PortCall → Prop
  | .setup _ address _ _ _ | .registerSignal address _ | .registerSlot address _ | .registerCallable address _ _
  | .autoAllocate _ address _ => t.heap address = none
  | .autoDelete _ _ | .subscribe _ _ _ => True

instance (t : ActorPorts) (c : PortCall) : Decidable (t.Admits c) := by
  cases c <;> unfold Admits <;> infer_instance

/-! ### Tables and directions -/

section
variable (t : ActorPorts) (d : Bool) (p : PortTable)

@[simp] theorem table_setTable_self : (t.setTable d p).table d = p := by cases d <;> rfl

theorem table_setTable_of_ne {d d' : Bool} (h : d' ≠ d) : (t.setTable d p).table d' = t.table d' := by
  cases d <;> cases d' <;> first | rfl | exact absurd rfl h

@[simp] theorem heap_setTable : (t.setTable d p).heap = t.heap := by cases d <;> rfl

@[simp] theorem automaticPorts_setTable : (t.setTable d p).automaticPorts = t.automaticPorts := by cases d <;> rfl

@[simp] theorem table_updatePorts :
    t.updatePorts.table d = { t.table d with pointers := (t.table d).indexedPorts.length } := by cases d <;> rfl

@[simp] theorem heap_updatePorts : t.updatePorts.heap = t.heap := rfl

@[simp] theorem automaticPorts_updatePorts : t.updatePorts.automaticPorts = t.automaticPorts := rfl

end

variable {t : ActorPorts} {d : Bool} {p : PortTable} {heap heap' : Nat → Option PortObject} {name : String} {a : Nat}

/-- The objects of the table keep their names and indices. -/
theorem TableAgrees.heap_congr (h : TableAgrees heap d p)
    (hsame : ∀ name a port, p.ports name = some a → heap a = some port →
      ∃ port', heap' a = some port' ∧ port'.isInput = port.isInput ∧ port'.name = port.name ∧
        port'.index = port.index) :
    TableAgrees heap' d p :=
  { h with
    object := fun name a ha => by
      obtain ⟨port, hport, hdir, hname, hindex⟩ := h.object name a ha
      obtain ⟨port', hport', hdir', hname', hindex'⟩ := hsame name a port ha hport
      exact ⟨port', hport', hdir'.trans hdir, hname'.trans hname, hindex' ▸ hindex⟩ }

/-- A pointer array may be longer, or as long as the indexed ports. -/
theorem TableAgrees.pointers_congr {n : Nat} (h : TableAgrees heap d p) (hn : p.indexedPorts.length ≤ n) :
    TableAgrees heap d { p with pointers := n } :=
  ⟨h.named, h.names, h.nodup, h.object, h.indexed, h.last, hn⟩

theorem TableAgrees.empty (heap : Nat → Option PortObject) (d : Bool) : TableAgrees heap d .empty where
  named _ := rfl
  names name := by simp [PortTable.empty]
  nodup := List.nodup_nil
  object name a ha := by cases ha
  indexed k a := by
    constructor
    · intro hk
      cases hk
    · intro hk
      obtain ⟨name, hname, -⟩ := hk
      cases hname
  last := SlotVector.stripped_nil
  pointers := Nat.le_refl 0

theorem Agrees.empty : ActorPorts.empty.Agrees where
  tables isInput := by
    have htable : ActorPorts.empty.table isInput = .empty := by cases isInput <;> rfl
    rw [htable]
    exact .empty _ _
  automatic a ha := by cases ha

/-- A port of the tables is in memory, at no other name and in no other direction. -/
theorem Agrees.owner (h : t.Agrees) {d' : Bool} {name' : String} (ha : (t.table d).ports name = some a)
    (ha' : (t.table d').ports name' = some a) : d' = d ∧ name' = name := by
  obtain ⟨port, hport, hdir, hname, -⟩ := (h.tables d).object name a ha
  obtain ⟨port', hport', hdir', hname', -⟩ := (h.tables d').object name' a ha'
  obtain rfl : port' = port := Option.some.inj (hport'.symm.trans hport)
  exact ⟨hdir'.symm.trans hdir, hname'.symm.trans hname⟩

/-! ### Allocation -/

/-- The tables with one more port. -/
def allocated (t : ActorPorts) (d : Bool) (address : Nat) (automatic : Bool) (port : PortObject) : ActorPorts :=
  ({ t with
      heap := Function.update t.heap address (some port),
      automaticPorts := if automatic then insert address t.automaticPorts else t.automaticPorts }.setTable d
    (installPort { t.table d with ports := Function.update (t.table d).ports port.name (some address) } address
      port.name port.index)).updatePorts

variable {address : Nat} {dtype : DType} {domain : String} {automatic : Bool} {index : Option Nat}

theorem allocatePort_eq (hnone : (t.table d).ports name = none) (hindex : portNameToIndex name = .ok index) :
    t.allocatePort d address name dtype domain automatic =
      (.ok (), t.allocated d address automatic ⟨d, name, index, false, dtype, domain, []⟩) := by
  unfold allocatePort resetPort
  dsimp only
  rw [hnone, hindex]
  dsimp only
  cases d <;> cases automatic <;>
    simp only [allocated, table, setTable, updatePorts, installPort, Function.update_idem, if_true, if_false,
      Bool.false_eq_true]

/-- The name is no int: the owning map has got the port. -/
theorem allocatePort_error (t : ActorPorts) (d : Bool) (address : Nat) (dtype : DType) (domain : String)
    (automatic : Bool) {e : Fault} (hindex : portNameToIndex name = .error e) :
    ∃ t', t.allocatePort d address name dtype domain automatic = (.error e, t') ∧
      (t'.table d).ports name = some address ∧ (t'.table d).namedPorts = (t.table d).namedPorts := by
  refine ⟨t.resetPort d address ⟨d, name, none, false, dtype, domain, []⟩, ?_, ?_, ?_⟩
  · unfold allocatePort
    dsimp only
    rw [hindex]
  · unfold resetPort
    dsimp only
    rw [table_setTable_self]
    exact Function.update_self ..
  · unfold resetPort
    dsimp only
    rw [table_setTable_self]

theorem slot_installPort (p : PortTable) (address : Nat) (name : String) (index : Option Nat) (k : Nat) :
    SlotVector.slot (installPort p address name index).indexedPorts k =
      if index = some k then some address else SlotVector.slot p.indexedPorts k := by
  cases index with
  | none => rfl
  | some i =>
      show SlotVector.slot (SlotVector.install p.indexedPorts i address) k = _
      rw [SlotVector.slot_install]
      by_cases hk : k = i
      · rw [if_pos hk, if_pos (by rw [hk])]
      · rw [if_neg hk, if_neg fun h => hk (Option.some.inj h).symm]

theorem TableAgrees.install (h : TableAgrees heap d p) {port : PortObject} (hdir : port.isInput = d)
    (hnone : p.ports port.name = none) (hfresh : heap address = none)
    (hindex : portNameToIndex port.name = .ok port.index)
    (hfree : ∀ k, port.index = some k → SlotVector.slot p.indexedPorts k = none) (n : Nat)
    (hn : (installPort { p with ports := Function.update p.ports port.name (some address) } address port.name
      port.index).indexedPorts.length ≤ n) :
    TableAgrees (Function.update heap address (some port)) d
      { installPort { p with ports := Function.update p.ports port.name (some address) } address port.name
          port.index with
        pointers := n } where
  named name := by
    by_cases hname : name = port.name
    · subst hname
      show Function.update p.namedPorts _ _ port.name = Function.update p.ports _ _ port.name
      rw [Function.update_self, Function.update_self]
    · show Function.update p.namedPorts _ _ name = Function.update p.ports _ _ name
      rw [Function.update_of_ne hname, Function.update_of_ne hname]
      exact h.named name
  names name := by
    show name ∈ p.portNames ++ [port.name] ↔ (Function.update p.ports port.name (some address) name).isSome = true
    rw [List.mem_append, List.mem_singleton]
    by_cases hname : name = port.name
    · subst hname
      rw [Function.update_self]
      exact iff_of_true (.inr rfl) rfl
    · rw [Function.update_of_ne hname, ← h.names name]
      exact or_iff_left hname
  nodup := by
    show (p.portNames ++ [port.name]).Nodup
    have hnew : port.name ∉ p.portNames := by
      rw [h.names, hnone]
      exact Bool.false_ne_true
    exact List.nodup_append'.mpr ⟨h.nodup, List.nodup_singleton _, List.disjoint_singleton.mpr hnew⟩
  object name a ha := by
    have ha : Function.update p.ports port.name (some address) name = some a := ha
    by_cases hname : name = port.name
    · subst hname
      rw [Function.update_self] at ha
      obtain rfl := Option.some.inj ha
      exact ⟨port, Function.update_self .., hdir, rfl, hindex⟩
    · rw [Function.update_of_ne hname] at ha
      obtain ⟨other, hother, hrest⟩ := h.object name a ha
      have hne : a ≠ address := by
        rintro rfl
        rw [hfresh] at hother
        cases hother
      exact ⟨other, by rw [Function.update_of_ne hne]; exact hother, hrest⟩
  indexed k a := by
    have hslot := slot_installPort { p with ports := Function.update p.ports port.name (some address) } address
      port.name port.index k
    show SlotVector.slot (installPort _ address port.name port.index).indexedPorts k = some a ↔
      ∃ name, Function.update p.ports port.name (some address) name = some a ∧ portNameToIndex name = .ok (some k)
    rw [hslot]
    by_cases hk : port.index = some k
    · -- the new port is the only one with this index
      rw [if_pos hk]
      have hnew : ∀ name b, p.ports name = some b → portNameToIndex name ≠ .ok (some k) := by
        intro name b hb hi
        have hold := (h.indexed k b).mpr ⟨name, hb, hi⟩
        rw [hfree k hk] at hold
        cases hold
      constructor
      · intro ha
        exact ⟨port.name, by rw [Function.update_self]; exact ha, hk ▸ hindex⟩
      · intro ⟨name, ha, hi⟩
        by_cases hname : name = port.name
        · subst hname
          rw [Function.update_self] at ha
          exact ha
        · rw [Function.update_of_ne hname] at ha
          exact absurd hi (hnew name a ha)
    · rw [if_neg hk]
      constructor
      · intro ha
        obtain ⟨name, hname, hi⟩ := (h.indexed k a).mp ha
        have hne : name ≠ port.name := by
          intro heq
          rw [heq, hnone] at hname
          cases hname
        exact ⟨name, by rw [Function.update_of_ne hne]; exact hname, hi⟩
      · intro ⟨name, ha, hi⟩
        have hne : name ≠ port.name := by
          intro heq
          rw [heq, hindex] at hi
          exact hk (Except.ok.inj hi)
        rw [Function.update_of_ne hne] at ha
        exact (h.indexed k a).mpr ⟨name, ha, hi⟩
  last := by
    cases port.index with
    | none => exact h.last
    | some k => exact SlotVector.stripped_install h.last
  pointers := hn

section
variable (t : ActorPorts) (d : Bool) (address : Nat) (automatic : Bool) (port : PortObject)

theorem heap_allocated :
    (t.allocated d address automatic port).heap = Function.update t.heap address (some port) := by
  unfold allocated
  rw [heap_updatePorts, heap_setTable]

theorem automaticPorts_allocated : (t.allocated d address automatic port).automaticPorts =
    if automatic then insert address t.automaticPorts else t.automaticPorts := by
  unfold allocated
  rw [automaticPorts_updatePorts, automaticPorts_setTable]

theorem ports_allocated_self : ((t.allocated d address automatic port).table d).ports =
    Function.update (t.table d).ports port.name (some address) := by
  unfold allocated
  rw [table_updatePorts, table_setTable_self]
  rfl

theorem table_allocated_of_ne {d d' : Bool} (h : d' ≠ d) : (t.allocated d address automatic port).table d' =
    { t.table d' with pointers := (t.table d').indexedPorts.length } := by
  unfold allocated
  rw [table_updatePorts, table_setTable_of_ne _ _ h]
  rfl

/-- The pointer arrays have been resized. -/
theorem pointers_allocated (d' : Bool) : ((t.allocated d address automatic port).table d').pointers =
    ((t.allocated d address automatic port).table d').indexedPorts.length := by
  unfold allocated
  rw [table_updatePorts]

end

/-- A port that was owned before is owned. -/
theorem owned_allocated {port : PortObject} (hnone : (t.table d).ports port.name = none) {d' : Bool}
    (ha : (t.table d').ports name = some a) :
    ((t.allocated d address automatic port).table d').ports name = some a := by
  by_cases hd : d' = d
  · subst hd
    have hne : name ≠ port.name := by
      intro heq
      rw [heq, hnone] at ha
      cases ha
    rw [ports_allocated_self, Function.update_of_ne hne]
    exact ha
  · rw [table_allocated_of_ne t address automatic port hd]
    exact ha

theorem Agrees.allocated (h : t.Agrees) {port : PortObject} (hdir : port.isInput = d)
    (hnone : (t.table d).ports port.name = none) (hfresh : t.heap address = none)
    (hindex : portNameToIndex port.name = .ok port.index)
    (hfree : ∀ k, port.index = some k → SlotVector.slot (t.table d).indexedPorts k = none) :
    (t.allocated d address automatic port).Agrees where
  tables d' := by
    rw [heap_allocated]
    by_cases hd : d' = d
    · subst hd
      unfold ActorPorts.allocated
      rw [table_updatePorts, table_setTable_self]
      exact (h.tables d').install hdir hnone hfresh hindex hfree _ le_rfl
    · rw [table_allocated_of_ne t address automatic port hd]
      refine ((h.tables d').heap_congr fun name a other _ hother => ?_).pointers_congr le_rfl
      have hne : a ≠ address := by
        intro heq
        rw [heq, hfresh] at hother
        cases hother
      exact ⟨other, by rw [Function.update_of_ne hne]; exact hother, rfl, rfl, rfl⟩
  automatic a ha := by
    have hold : a ∈ t.automaticPorts →
        ∃ d' name, ((t.allocated d address automatic port).table d').ports name = some a := fun ha => by
      obtain ⟨d', name, hname⟩ := h.automatic a ha
      exact ⟨d', name, owned_allocated hnone hname⟩
    rw [automaticPorts_allocated] at ha
    cases automatic with
    | false => exact hold ha
    | true =>
        cases Finset.mem_insert.mp ha with
        | inl ha =>
            refine ⟨d, port.name, ?_⟩
            rw [ports_allocated_self, Function.update_self, ha]
        | inr ha => exact hold ha

/-! ### Calls that end at once -/

theorem not_adds_self (t : ActorPorts) : ¬ Adds t t := by
  intro ⟨d, name, hnone, hsome⟩
  rw [hnone] at hsome
  cases hsome

theorem Agrees.returns (h : t.Agrees) : Proper t (.ok (), t) :=
  ⟨h, nofun, fun hadds => absurd hadds (not_adds_self t)⟩

theorem Agrees.throws (h : t.Agrees) (type what message : String) :
    Proper t (.error (.thrown type what message), t) := by
  refine ⟨h, fun e he => ⟨⟨type, what, message, (Except.error.inj he).symm⟩, rfl⟩, fun hadds => ?_⟩
  exact absurd hadds (not_adds_self t)

/-- Every exception of `portNameToIndex` is one of `stoi`. -/
theorem portNameToIndex_error {e : Fault} (h : portNameToIndex name = .error e) :
    ∃ type what message, e = .thrown type what message := by
  unfold portNameToIndex at h
  split at h
  · split at h
    · exact ⟨_, _, _, (Except.error.inj h).symm⟩
    · dsimp only at h
      split at h
      · exact ⟨_, _, _, (Except.error.inj h).symm⟩
      · cases h
  · cases h

/-! ### When allocation is proper -/

theorem Agrees.free (h : t.Agrees) {k : Nat}
    (hothers : ∀ other, ((t.table d).ports other).isSome = true → portNameToIndex other ≠ .ok (some k)) :
    SlotVector.slot (t.table d).indexedPorts k = none := by
  cases hslot : SlotVector.slot (t.table d).indexedPorts k with
  | none => rfl
  | some a =>
      obtain ⟨other, hother, hindex⟩ := ((h.tables d).indexed k a).mp hslot
      exact absurd hindex (hothers other (by rw [hother]; rfl))

theorem Agrees.allocatePort_iff (h : t.Agrees) (dtype : DType) (domain : String) (automatic : Bool)
    (hnone : (t.table d).ports name = none) (hfresh : t.heap address = none) :
    Proper t (t.allocatePort d address name dtype domain automatic) ↔ Unambiguous (t.table d) name := by
  cases hindex : portNameToIndex name with
  | error e =>
      constructor
      · -- the owning map has a name that the named ports do not have
        intro hproper
        obtain ⟨t', halloc, hports, hnamed⟩ := allocatePort_error t d address dtype domain automatic hindex
        rw [halloc] at hproper
        have hagree := (hproper.agrees.tables d).named name
        rw [hports, hnamed, (h.tables d).named name, hnone] at hagree
        cases hagree
      · intro ⟨index, hi, _⟩
        rw [hindex] at hi
        cases hi
  | ok index =>
      rw [allocatePort_eq hnone hindex]
      constructor
      · intro hproper
        refine ⟨index, hindex, fun k hk other hother hi => ?_⟩
        obtain ⟨b, hb⟩ := Option.isSome_iff_exists.mp hother
        -- both ports would be the one with index `k`
        have hnew := ((hproper.agrees.tables d).indexed k address).mpr
          ⟨name, by rw [ports_allocated_self]; exact Function.update_self .., hk ▸ hindex⟩
        have hold := ((hproper.agrees.tables d).indexed k b).mpr ⟨other, owned_allocated hnone hb, hi⟩
        obtain rfl : b = address := Option.some.inj (hold.symm.trans hnew)
        obtain ⟨port, hport, -⟩ := (h.tables d).object other b hb
        rw [hfresh] at hport
        cases hport
      · intro ⟨index', hi, hothers⟩
        obtain rfl : index' = index := Except.ok.inj (hi.symm.trans hindex)
        refine ⟨?_, nofun, fun _ d' => pointers_allocated ..⟩
        exact h.allocated rfl hnone hfresh hindex fun k hk => h.free (hothers k hk)

/-! ### Objects and slots that change in place -/

theorem table_setHeap (t : ActorPorts) (heap : Nat → Option PortObject) (d : Bool) :
    ({ t with heap := heap } : ActorPorts).table d = t.table d := by cases d <;> rfl

theorem table_setSlots (t : ActorPorts) (slots : Finset String) (d : Bool) :
    ({ t with automaticSlots := slots } : ActorPorts).table d = t.table d := by cases d <;> rfl

theorem Agrees.setObject (h : t.Agrees) {port port' : PortObject} (hport : t.heap address = some port)
    (hdir : port'.isInput = port.isInput) (hname : port'.name = port.name) (hindex : port'.index = port.index) :
    ({ t with heap := Function.update t.heap address (some port') } : ActorPorts).Agrees where
  tables d := by
    rw [table_setHeap]
    refine (h.tables d).heap_congr fun name a other _ hother => ?_
    by_cases ha : a = address
    · subst ha
      obtain rfl : port = other := Option.some.inj (hport.symm.trans hother)
      exact ⟨port', Function.update_self .., hdir, hname, hindex⟩
    · exact ⟨other, (Function.update_of_ne ha ..).trans hother, rfl, rfl, rfl⟩
  automatic a ha := by
    obtain ⟨d, name, hname⟩ := h.automatic a ha
    exact ⟨d, name, by rw [table_setHeap]; exact hname⟩

theorem agrees_setObject_iff {port port' : PortObject} (hport : t.heap address = some port)
    (hdir : port'.isInput = port.isInput) (hname : port'.name = port.name) (hindex : port'.index = port.index) :
    ({ t with heap := Function.update t.heap address (some port') } : ActorPorts).Agrees ↔ t.Agrees := by
  constructor
  · intro h
    -- the old object is put back
    have hput : (Function.update t.heap address (some port')) address = some port' := Function.update_self ..
    have hback := h.setObject hput hdir.symm hname.symm hindex.symm
    have hheap : Function.update (Function.update t.heap address (some port')) address (some port) = t.heap := by
      rw [Function.update_idem, ← hport, Function.update_eq_self]
    dsimp only at hback
    rw [hheap] at hback
    exact hback
  · intro h
    exact h.setObject hport hdir hname hindex

/-- What a step leaves is proper or not by its tables alone. -/
theorem proper_ok_congr {t₁ t₂ : ActorPorts} (hagrees : t₁.Agrees ↔ t₂.Agrees)
    (htables : ∀ d, t₁.table d = t₂.table d) : Proper t (.ok (), t₁) ↔ Proper t (.ok (), t₂) := by
  have hadds : Adds t t₁ ↔ Adds t t₂ := by
    unfold Adds
    simp only [htables]
  constructor
  · intro h
    refine ⟨hagrees.mp h.agrees, nofun, fun ha d => ?_⟩
    have hsized := h.sized (hadds.mpr ha) d
    dsimp only at hsized ⊢
    rwa [htables] at hsized
  · intro h
    refine ⟨hagrees.mpr h.agrees, nofun, fun ha d => ?_⟩
    have hsized := h.sized (hadds.mp ha) d
    dsimp only at hsized ⊢
    rwa [htables]

/-- The names of the automatic slots are no port table. -/
theorem proper_setSlots (t : ActorPorts) (r : Except Fault Unit × ActorPorts) (name : String) :
    Proper t (match r with
      | (.error e, t) => (.error e, t)
      | (.ok (), t) => (.ok (), { t with automaticSlots := insert name t.automaticSlots })) ↔ Proper t r := by
  obtain ⟨result, t'⟩ := r
  cases result with
  | error e => rfl
  | ok u =>
      have hagrees : ({ t' with automaticSlots := insert name t'.automaticSlots } : ActorPorts).Agrees ↔ t'.Agrees :=
        ⟨fun h => ⟨h.tables, h.automatic⟩, fun h => ⟨h.tables, h.automatic⟩⟩
      exact proper_ok_congr hagrees (table_setSlots _ _)

theorem Agrees.allocateSigSlot_iff (h : t.Agrees) (hnone : (t.table d).ports name = none)
    (hfresh : t.heap address = none) :
    Proper t (t.allocateSigSlot d address name) ↔ Unambiguous (t.table d) name := by
  rw [← h.allocatePort_iff .unspecified "" false hnone hfresh]
  unfold allocateSigSlot
  cases hindex : portNameToIndex name with
  | error e =>
      obtain ⟨t', halloc, -, -⟩ := allocatePort_error t d address .unspecified "" false hindex
      rw [halloc]
  | ok index =>
      rw [allocatePort_eq hnone hindex]
      dsimp only
      have hports : ((t.allocated d address false ⟨d, name, index, false, .unspecified, "", []⟩).table d).ports name =
          some address := by
        rw [ports_allocated_self]
        exact Function.update_self ..
      have hheap : (t.allocated d address false ⟨d, name, index, false, .unspecified, "", []⟩).heap address =
          some ⟨d, name, index, false, .unspecified, "", []⟩ := by
        rw [heap_allocated]
        exact Function.update_self ..
      rw [hports, Option.bind_some, hheap]
      exact proper_ok_congr (agrees_setObject_iff hheap rfl rfl rfl) (table_setHeap _ _)

/-! ### The calls of a block -/

theorem Agrees.setupPort_iff (h : t.Agrees) (hfresh : t.heap address = none) :
    Proper t (t.setupPort d address name dtype domain) ↔
      (name ≠ "" → (t.table d).ports name = none → Unambiguous (t.table d) name) := by
  unfold setupPort
  by_cases hempty : name = ""
  · rw [if_pos hempty]
    exact iff_of_true (h.throws _ _ _) fun hne => absurd hempty hne
  · rw [if_neg hempty, (h.tables d).named name]
    cases hports : (t.table d).ports name with
    | some a =>
        rw [Option.isSome_some, if_pos rfl]
        exact iff_of_true (h.throws _ _ _) nofun
    | none =>
        rw [Option.isSome_none, if_neg Bool.false_ne_true]
        have hiff := h.allocatePort_iff dtype domain false hports hfresh
        rw [show (name ≠ "" → (none : Option Nat) = none → Unambiguous (t.table d) name) ↔
          Unambiguous (t.table d) name from ⟨fun hu => hu hempty rfl, fun hu _ _ => hu⟩, ← hiff]
        cases hindex : portNameToIndex name with
        | error e =>
            obtain ⟨t', halloc, -, -⟩ := allocatePort_error t d address dtype domain false hindex
            rw [halloc]
        | ok index =>
            rw [allocatePort_eq hports hindex]
            dsimp only
            -- the port that is looked up is there
            have hnamed : ((t.allocated d address false ⟨d, name, index, false, dtype, domain, []⟩).table d).namedPorts
                name = some address := by
              unfold ActorPorts.allocated
              rw [table_updatePorts, table_setTable_self]
              exact Function.update_self ..
            rw [hnamed, Option.isSome_some, if_pos rfl]

theorem Agrees.registerPort_iff (h : t.Agrees) (hfresh : t.heap address = none) :
    Proper t (t.registerPort d address name) ↔
      (name ≠ "" → (t.table d).ports name = none → Unambiguous (t.table d) name) := by
  unfold registerPort
  by_cases hempty : name = ""
  · rw [if_pos hempty]
    exact iff_of_true (h.throws _ _ _) fun hne => absurd hempty hne
  · rw [if_neg hempty, (h.tables d).named name]
    cases hports : (t.table d).ports name with
    | some a =>
        rw [Option.isSome_some, if_pos rfl]
        exact iff_of_true (h.throws _ _ _) nofun
    | none =>
        rw [Option.isSome_none, if_neg Bool.false_ne_true, h.allocateSigSlot_iff hports hfresh]
        exact ⟨fun hu _ _ => hu, fun hu => hu hempty rfl⟩

theorem Agrees.registerSlot_iff (h : t.Agrees) (hfresh : t.heap address = none) :
    Proper t (t.registerSlot address name) ↔
      (name ∉ t.automaticSlots → name ≠ "" → (t.table true).ports name = none →
        Unambiguous (t.table true) name) := by
  unfold registerSlot
  by_cases hslot : name ∈ t.automaticSlots
  · rw [if_pos hslot]
    exact iff_of_true h.returns fun hnot => absurd hslot hnot
  · rw [if_neg hslot, h.registerPort_iff hfresh]
    exact ⟨fun hu _ => hu, fun hu => hu hslot⟩

theorem Agrees.registerCallable_iff (h : t.Agrees) (hfresh : t.heap address = none) (returnVoid : Bool) :
    Proper t (t.registerCallable address name returnVoid) ↔
      name ≠ "" ∧ (name.toList.head? ≠ some '_' → returnVoid = true → name ∉ t.automaticSlots →
        (t.table true).ports name = none → Unambiguous (t.table true) name) := by
  unfold registerCallable
  cases hname : name.toList with
  | nil =>
      -- the front of an empty name
      constructor
      · intro hproper
        obtain ⟨⟨type, what, message, hthrown⟩, -⟩ := hproper.restores _ rfl
        cases hthrown
      · intro hmeets
        exact absurd (String.toList_eq_nil_iff.mp hname) hmeets.1
  | cons first rest =>
      have hempty : name ≠ "" := fun heq => by
        rw [String.toList_eq_nil_iff.mpr heq] at hname
        cases hname
      have hslots := proper_setSlots t (t.registerSlot address name) name
      dsimp only
      rw [List.head?_cons, (h.tables true).named name]
      by_cases hguard : first ≠ '_' ∧ returnVoid = true ∧ ((t.table true).ports name).isSome = false
      · rw [if_pos hguard]
        refine hslots.trans ?_
        rw [h.registerSlot_iff hfresh]
        obtain ⟨hfirst, hvoid, -⟩ := hguard
        exact ⟨fun hu => ⟨hempty, fun _ _ hslot => hu hslot hempty⟩,
          fun hu hslot _ => hu.2 (fun hf => hfirst (Option.some.inj hf)) hvoid hslot⟩
      · rw [if_neg hguard]
        refine iff_of_true h.returns ⟨hempty, fun hf hvoid _ hnone => absurd ⟨fun heq => ?_, hvoid, ?_⟩ hguard⟩
        · exact hf (by rw [heq])
        · rw [hnone]
          rfl

/-! ### Automatic allocation -/

theorem portNameToIndex_lt {k : Nat} (h : portNameToIndex name = .ok (some k)) : k < 2 ^ 31 := by
  unfold portNameToIndex at h
  split at h
  · split at h
    · cases h
    · dsimp only at h
      split at h
      · cases h
      · next hlt =>
          obtain rfl := Option.some.inj (Except.ok.inj h)
          exact Nat.lt_of_not_le hlt
  · cases h

/-- The digits of a number are its name. -/
theorem portNameToIndex_toString {k : Nat} (hk : k < 2 ^ 31) : portNameToIndex (toString k) = .ok (some k) := by
  have hlist : (toString k).toList = Nat.toDigits 10 k := Nat.toList_repr
  have hdigits : (toString k).toList.all Char.isDigit = true := by
    rw [hlist, List.all_eq_true]
    exact fun c hc => Nat.isDigit_of_mem_toDigits (by decide) (by decide) hc
  have hempty : toString k ≠ "" := fun h => by
    rw [String.toList_eq_nil_iff.mpr h] at hlist
    exact Nat.toDigits_ne_nil hlist.symm
  have hvalue : (toString k).toList.foldl (fun n ch => 10 * n + (ch.toNat - '0'.toNat)) 0 = k := by
    rw [hlist, ← Nat.ofDigitChars_eq_foldl]
    exact Nat.ofDigitChars_ten_toDigits
  unfold portNameToIndex
  rw [if_pos hdigits, if_neg hempty]
  dsimp only
  rw [hvalue, if_neg (Nat.not_le.mpr hk)]

theorem lowerIndex_some {n i : Nat} (h : lowerIndex p n = some i) : i < n ∧ (p.ports (toString i)).isSome = true := by
  induction n with
  | zero => cases h
  | succ n ih =>
      rw [lowerIndex] at h
      by_cases hn : (p.ports (toString n)).isSome = true
      · rw [if_pos hn] at h
        obtain rfl := Option.some.inj h
        exact ⟨Nat.lt_succ_self _, hn⟩
      · rw [if_neg hn] at h
        obtain ⟨hlt, hsome⟩ := ih h
        exact ⟨Nat.lt_succ_of_lt hlt, hsome⟩

/-- No null pointer is followed. -/
theorem Agrees.lower (h : t.Agrees) {n i : Nat} (hn : n < 2 ^ 31) (hlower : lowerIndex (t.table d) n = some i) :
    ∃ port, (SlotVector.slot (t.table d).indexedPorts i).bind t.heap = some port := by
  obtain ⟨hlt, hsome⟩ := lowerIndex_some hlower
  obtain ⟨a, ha⟩ := Option.isSome_iff_exists.mp hsome
  obtain ⟨port, hport, -⟩ := (h.tables d).object _ a ha
  have hslot := ((h.tables d).indexed i a).mpr ⟨toString i, ha, portNameToIndex_toString (hlt.trans hn)⟩
  exact ⟨port, by rw [hslot, Option.bind_some, hport]⟩

theorem Agrees.autoAllocatePort_iff (h : t.Agrees) (hfresh : t.heap address = none) :
    Proper t (t.autoAllocatePort d address name) ↔
      ∀ index, portNameToIndex name = .ok (some index) → (t.table d).ports name = none →
        (lowerIndex (t.table d) index).isSome = true → Unambiguous (t.table d) name := by
  unfold autoAllocatePort
  cases hindex : portNameToIndex name with
  | error e =>
      obtain ⟨type, what, message, rfl⟩ := portNameToIndex_error hindex
      exact iff_of_true (h.throws _ _ _) nofun
  | ok index =>
      cases index with
      | none => exact iff_of_true h.returns nofun
      | some index =>
          cases hports : (t.table d).ports name with
          | some a =>
              dsimp only
              rw [Option.isSome_some, if_pos rfl]
              exact iff_of_true h.returns nofun
          | none =>
              dsimp only
              rw [Option.isSome_none, if_neg Bool.false_ne_true]
              cases hlower : lowerIndex (t.table d) index with
              | none =>
                  refine iff_of_true h.returns fun index' hi _ hsome => ?_
                  obtain rfl := Option.some.inj (Except.ok.inj hi)
                  rw [hlower] at hsome
                  cases hsome
              | some i =>
                  obtain ⟨port, hport⟩ := h.lower (portNameToIndex_lt hindex) hlower
                  dsimp only
                  rw [hport]
                  dsimp only
                  rw [h.allocatePort_iff port.dtype port.domain true hports hfresh]
                  constructor
                  · intro hu _ _ _ _
                    exact hu
                  · intro hu
                    exact hu index rfl rfl (by rw [hlower]; rfl)

/-! ### Automatic deletion -/

theorem TableAgrees.remove (h : TableAgrees heap d p) {port : PortObject} (ha : p.ports name = some a)
    (hport : heap a = some port) {v : List (Option Nat)}
    (hslot : ∀ k, SlotVector.slot v k = if port.index = some k then none else SlotVector.slot p.indexedPorts k)
    (hlast : SlotVector.Stripped v) (hlen : v.length ≤ p.pointers) :
    TableAgrees (Function.update heap a none) d (removePort p name port.name v) := by
  obtain ⟨port', hport', -, hname, hindex⟩ := h.object name a ha
  obtain rfl : port' = port := Option.some.inj (hport'.symm.trans hport)
  have hother : ∀ other b, Function.update p.ports name none other = some b →
      other ≠ name ∧ p.ports other = some b := by
    intro other b hb
    by_cases ho : other = name
    · rw [ho, Function.update_self] at hb
      cases hb
    · rw [Function.update_of_ne ho] at hb
      exact ⟨ho, hb⟩
  -- no other name has the object
  have hdistinct : ∀ other, p.ports other = some a → other = name := by
    intro other ho
    obtain ⟨port'', hport'', -, hname'', -⟩ := h.object other a ho
    obtain rfl : port'' = port' := Option.some.inj (hport''.symm.trans hport)
    exact hname''.symm.trans hname
  rw [hname]
  refine ⟨fun other => ?_, fun other => ?_, h.nodup.erase name, fun other b hb => ?_, fun k b => ?_, hlast, hlen⟩
  · show Function.update p.namedPorts name none other = Function.update p.ports name none other
    by_cases ho : other = name
    · rw [ho, Function.update_self, Function.update_self]
    · rw [Function.update_of_ne ho, Function.update_of_ne ho]
      exact h.named other
  · show other ∈ p.portNames.erase name ↔ (Function.update p.ports name none other).isSome = true
    rw [h.nodup.mem_erase_iff, h.names]
    by_cases ho : other = name
    · rw [ho, Function.update_self]
      exact iff_of_false (fun hne => hne.1 rfl) Bool.false_ne_true
    · rw [Function.update_of_ne ho]
      exact and_iff_right ho
  · obtain ⟨ho, hb⟩ := hother other b hb
    obtain ⟨port'', hport'', hrest⟩ := h.object other b hb
    have hne : b ≠ a := fun heq => ho (hdistinct other (heq ▸ hb))
    exact ⟨port'', (Function.update_of_ne hne ..).trans hport'', hrest⟩
  · show SlotVector.slot v k = some b ↔
      ∃ other, Function.update p.ports name none other = some b ∧ portNameToIndex other = .ok (some k)
    rw [hslot]
    constructor
    · intro hb
      split at hb
      · cases hb
      · next hk =>
          obtain ⟨other, ho, hi⟩ := (h.indexed k b).mp hb
          have hne : other ≠ name := by
            intro heq
            rw [heq, hindex] at hi
            exact hk (Except.ok.inj hi)
          exact ⟨other, (Function.update_of_ne hne ..).trans ho, hi⟩
    · intro ⟨other, hb, hi⟩
      obtain ⟨ho, hb⟩ := hother other b hb
      have hold := (h.indexed k b).mpr ⟨other, hb, hi⟩
      by_cases hk : port'.index = some k
      · -- two ports with one index
        have hname := (h.indexed k a).mpr ⟨name, ha, hk ▸ hindex⟩
        obtain rfl : b = a := Option.some.inj (hold.symm.trans hname)
        exact absurd (hdistinct other hb) ho
      · rw [if_neg hk]
        exact hold

theorem slot_cleared (v : List (Option Nat)) (index : Option Nat) (k : Nat) :
    SlotVector.slot (cleared v index) k = if index = some k then none else SlotVector.slot v k := by
  cases index with
  | none => rfl
  | some i =>
      rw [cleared, SlotVector.slot_set_none]
      by_cases hk : k = i
      · rw [if_pos hk, if_pos (by rw [hk])]
      · rw [if_neg hk, if_neg fun h => hk (Option.some.inj h).symm]

theorem length_cleared (v : List (Option Nat)) (index : Option Nat) : (cleared v index).length = v.length := by
  cases index with
  | none => rfl
  | some i => exact List.length_set

/-- The indices are ints. -/
theorem TableAgrees.length_le (h : TableAgrees heap d p) : p.indexedPorts.length ≤ 2 ^ 31 := by
  by_cases hne : p.indexedPorts = []
  · rw [hne]
    exact Nat.zero_le _
  · obtain ⟨a, hlast⟩ := h.last.last hne
    obtain ⟨name, -, hindex⟩ := (h.indexed _ a).mp hlast
    have hlt := portNameToIndex_lt hindex
    omega

/-- The size does not fit an int just when the port with the last index is deleted. -/
theorem TableAgrees.overflows_iff (h : TableAgrees heap d p) {port : PortObject} (ha : p.ports name = some a)
    (hport : heap a = some port) :
    ((cleared p.indexedPorts port.index).getLast? = some none ∧
        2 ^ 31 ≤ (cleared p.indexedPorts port.index).length) ↔
      portNameToIndex name = .ok (some (2 ^ 31 - 1)) := by
  obtain ⟨port', hport', -, -, hindex⟩ := h.object name a ha
  obtain rfl : port' = port := Option.some.inj (hport'.symm.trans hport)
  have hle := h.length_le
  rw [hindex, length_cleared, List.getLast?_eq_getElem?, length_cleared]
  constructor
  · intro ⟨hlast, hlen⟩
    have hlen : p.indexedPorts.length = 2 ^ 31 := Nat.le_antisymm hle hlen
    rw [hlen] at hlast
    have hne : p.indexedPorts ≠ [] := fun hnil => by
      rw [hnil] at hlen
      cases hlen
    obtain ⟨b, hb⟩ := h.last.last hne
    have hslot := slot_cleared p.indexedPorts port'.index (2 ^ 31 - 1)
    rw [hlen] at hb
    rw [SlotVector.slot, hlast, hb] at hslot
    by_cases hk : port'.index = some (2 ^ 31 - 1)
    · rw [hk]
    · rw [if_neg hk] at hslot
      cases hslot
  · intro hi
    have hk : port'.index = some (2 ^ 31 - 1) := Except.ok.inj hi
    have hlt := SlotVector.lt_length ((h.indexed (2 ^ 31 - 1) a).mpr ⟨name, ha, hk ▸ hindex⟩)
    have hlen : p.indexedPorts.length = 2 ^ 31 := by omega
    refine ⟨?_, hlen.ge⟩
    rw [hlen, hk, cleared, List.getElem?_set_self (by omega)]

theorem Agrees.removed (h : t.Agrees) {port : PortObject} (ha : (t.table d).ports name = some a)
    (hport : t.heap a = some port) :
    ({ t with
        automaticPorts := t.automaticPorts.erase a,
        heap := Function.update t.heap a none }.setTable d
      (removePort (t.table d) name port.name
        (SlotVector.strip (cleared (t.table d).indexedPorts port.index)))).Agrees where
  tables d' := by
    rw [heap_setTable]
    by_cases hd : d' = d
    · subst hd
      rw [table_setTable_self]
      refine (h.tables d').remove ha hport (fun k => ?_) (SlotVector.stripped_strip _) ?_
      · rw [SlotVector.slot_strip, slot_cleared]
      · exact (SlotVector.length_strip_le _).trans ((length_cleared ..).trans_le (h.tables d').pointers)
    · rw [table_setTable_of_ne _ _ hd]
      refine (h.tables d').heap_congr fun other b port' hb hport' => ⟨port', ?_, rfl, rfl, rfl⟩
      have hne : b ≠ a := by
        intro heq
        subst heq
        exact hd (h.owner ha hb).1
      exact (Function.update_of_ne hne ..).trans hport'
  automatic b hb := by
    rw [automaticPorts_setTable] at hb
    obtain ⟨hne, hb⟩ := Finset.mem_erase.mp hb
    obtain ⟨d', other, hother⟩ := h.automatic b hb
    refine ⟨d', other, ?_⟩
    by_cases hd : d' = d
    · subst hd
      rw [table_setTable_self]
      have ho : other ≠ name := by
        intro heq
        rw [heq, ha] at hother
        exact hne (Option.some.inj hother).symm
      exact (Function.update_of_ne ho ..).trans hother
    · rw [table_setTable_of_ne _ _ hd]
      exact hother

/-- Deletion adds no port. -/
theorem not_adds_removed {v : List (Option Nat)} {portName : String} (t' : ActorPorts)
    (htables : ∀ d', t'.table d' = t.table d') :
    ¬ Adds t (t'.setTable d (removePort (t.table d) name portName v)) := by
  intro ⟨d', other, hnone, hsome⟩
  by_cases hd : d' = d
  · subst hd
    rw [table_setTable_self] at hsome
    have hsome : (Function.update (t.table d').ports name none other).isSome = true := hsome
    by_cases ho : other = name
    · rw [ho, Function.update_self] at hsome
      cases hsome
    · rw [Function.update_of_ne ho, hnone] at hsome
      cases hsome
  · rw [table_setTable_of_ne _ _ hd, htables, hnone] at hsome
    cases hsome

theorem Agrees.autoDeletePort_iff (h : t.Agrees) :
    Proper t (t.autoDeletePort d name) ↔
      (Deletable t d name → portNameToIndex name ≠ .ok (some (2 ^ 31 - 1))) := by
  unfold autoDeletePort
  dsimp only
  cases hports : (t.table d).ports name with
  | none =>
      refine iff_of_true h.returns fun hdel => ?_
      obtain ⟨a, port, ha, -⟩ := hdel
      rw [hports] at ha
      cases ha
  | some a =>
      obtain ⟨port, hport, -⟩ := (h.tables d).object name a hports
      have hdeletable : Deletable t d name ↔ port.subscribers = [] ∧ a ∈ t.automaticPorts := by
        constructor
        · intro ⟨a', port', ha', hport', hempty, hauto⟩
          obtain rfl : a = a' := Option.some.inj (hports.symm.trans ha')
          obtain rfl : port = port' := Option.some.inj (hport.symm.trans hport')
          exact ⟨hempty, hauto⟩
        · intro ⟨hempty, hauto⟩
          exact ⟨a, port, hports, hport, hempty, hauto⟩
      rw [hdeletable]
      dsimp only
      rw [hport]
      dsimp only
      by_cases hsub : port.subscribers = []
      · rw [if_neg (not_not.mpr hsub)]
        by_cases hauto : a ∈ t.automaticPorts
        · rw [if_neg (not_not.mpr hauto), stripPorts]
          have hover := (h.tables d).overflows_iff hports hport
          by_cases hindex : portNameToIndex name = .ok (some (2 ^ 31 - 1))
          · rw [if_pos (hover.mpr hindex)]
            refine iff_of_false (fun hproper => ?_) fun hcond => hcond ⟨hsub, hauto⟩ hindex
            obtain ⟨⟨type, what, message, hthrown⟩, -⟩ := hproper.restores _ rfl
            cases hthrown
          · rw [if_neg fun ho => hindex (hover.mp ho)]
            refine iff_of_true ⟨h.removed hports hport, nofun, fun hadds => ?_⟩ fun _ => hindex
            exact absurd hadds (not_adds_removed _ fun d' => by cases d' <;> rfl)
        · rw [if_pos hauto]
          exact iff_of_true h.returns fun hdel => absurd hdel.2 hauto
      · rw [if_pos hsub]
        exact iff_of_true h.returns fun hdel => absurd hdel.1 hsub

/-! ### Runs -/

theorem Agrees.subscribe_proper (h : t.Agrees) (subscribers : List Nat) :
    Proper t (t.subscribe d name subscribers) := by
  unfold subscribe
  cases hports : (t.table d).ports name with
  | none => exact h.throws _ _ _
  | some a =>
      obtain ⟨port, hport, -⟩ := (h.tables d).object name a hports
      dsimp only
      rw [hport]
      let port' := { port with subscribers := subscribers }
      have hset : ({ t with heap := Function.update t.heap a (some port') } : ActorPorts).Agrees :=
        h.setObject hport rfl rfl rfl
      refine ⟨⟨fun d' => ?_, fun b hb => ?_⟩, nofun, fun _ d' => ?_⟩
      · rw [table_updatePorts, heap_updatePorts]
        exact (hset.tables d').pointers_congr le_rfl
      · obtain ⟨d', other, hother⟩ := hset.automatic b hb
        exact ⟨d', other, by rw [table_updatePorts]; exact hother⟩
      · rw [table_updatePorts]

/-- **One call.** -/
theorem Agrees.proper_iff (h : t.Agrees) {c : PortCall} (hadm : t.Admits c) : Proper t (t.call c) ↔ Meets t c := by
  cases c with
  | setup d address name dtype domain => exact h.setupPort_iff hadm
  | registerSignal address name => exact h.registerPort_iff hadm
  | registerSlot address name => exact h.registerSlot_iff hadm
  | registerCallable address name returnVoid => exact h.registerCallable_iff hadm returnVoid
  | autoAllocate d address name => exact h.autoAllocatePort_iff hadm
  | autoDelete d name => exact h.autoDeletePort_iff
  | subscribe d name subscribers => exact iff_of_true (h.subscribe_proper subscribers) trivial

/-- Each call of a run does what it is meant to. -/
def Sound (t : ActorPorts) : List PortCall → Prop
  | [] => True
  | c :: cs => Proper t (t.call c) ∧ (t.call c).2.Sound cs

/-- Each call of a run meets the condition. -/
def AllMeet (t : ActorPorts) : List PortCall → Prop
  | [] => True
  | c :: cs => t.Meets c ∧ (t.call c).2.AllMeet cs

/-- Each new object of a run is where no port is. -/
def AllAdmitted (t : ActorPorts) : List PortCall → Prop
  | [] => True
  | c :: cs => t.Admits c ∧ (t.call c).2.AllAdmitted cs

instance decidableAllAdmitted : ∀ (t : ActorPorts) (cs : List PortCall), Decidable (t.AllAdmitted cs)
  | _, [] => isTrue trivial
  | t, c :: cs =>
      have := decidableAllAdmitted (t.call c).2 cs
      inferInstanceAs (Decidable (t.Admits c ∧ (t.call c).2.AllAdmitted cs))

theorem Agrees.run_iff {cs : List PortCall} (h : t.Agrees) (hadm : t.AllAdmitted cs) :
    t.Sound cs ↔ t.AllMeet cs := by
  induction cs generalizing t with
  | nil => rfl
  | cons c cs ih =>
      obtain ⟨hc, hcs⟩ := hadm
      constructor
      · intro ⟨hproper, hsound⟩
        exact ⟨(h.proper_iff hc).mp hproper, (ih hproper.agrees hcs).mp hsound⟩
      · intro ⟨hmeets, hall⟩
        have hproper := (h.proper_iff hc).mpr hmeets
        exact ⟨hproper, (ih hproper.agrees hcs).mpr hall⟩

/-- **The port tables of a block agree** in every state of a run, and no call breaks them or
changes them by throwing, if and only if every name that is allocated is an unambiguous
one. -/
theorem sound_iff {cs : List PortCall} (hadm : ActorPorts.empty.AllAdmitted cs) :
    ActorPorts.empty.Sound cs ↔ ActorPorts.empty.AllMeet cs :=
  Agrees.empty.run_iff hadm

/-- An output port, and the next one that a topology allocates and deletes. -/
def nextOutput : List PortCall :=
  [.setup false 1 "0" ⟨1, 4, 1⟩ "", .autoAllocate false 2 "1", .autoDelete false "1"]

theorem sound_iff_next : ActorPorts.empty.AllMeet nextOutput ∧
    (ActorPorts.empty.Sound nextOutput ↔ ActorPorts.empty.AllMeet nextOutput) := by
  refine ⟨⟨fun _ _ => ⟨some 0, by decide +kernel, fun k _ other hother => ?_⟩,
    fun index _ _ _ => ⟨some 1, by decide +kernel, fun k hk other hother => ?_⟩,
    fun _ => (by decide +kernel), trivial⟩, sound_iff (by decide +kernel)⟩
  · cases hother
  · have hports : (((ActorPorts.empty.call (.setup false 1 "0" ⟨1, 4, 1⟩ "")).2.table false).ports other) =
        Function.update (fun _ => none) "0" (some 1) other := rfl
    rw [hports] at hother
    by_cases ho : other = "0"
    · obtain rfl := Option.some.inj hk
      rw [ho]
      decide +kernel
    · rw [Function.update_of_ne ho] at hother
      cases hother

/-- An input port with a name that is no int. -/
def tooLarge : List PortCall := [.setup true 1 "2147483648" ⟨1, 4, 1⟩ ""]

/-- Two names with one index, of which a topology deletes the one that is indexed. -/
def leadingZero : List PortCall :=
  [.setup false 1 "0" ⟨1, 4, 1⟩ "", .autoAllocate false 2 "1", .autoAllocate false 3 "01", .autoDelete false "01"]

/-- The call throws, and the owning map has the port and the named ports have not. After
the other run the next allocation reads past the end of the indexed ports. -/
theorem not_sound : ¬ ActorPorts.empty.Sound tooLarge ∧ ¬ ActorPorts.empty.Sound leadingZero ∧
    ((leadingZero.foldl (fun t c => (t.call c).2) ActorPorts.empty).autoAllocatePort false 4 "2").1 =
      .error (.undefined "indexedPorts[i]") := by
  refine ⟨fun hsound => ?_, fun hsound => ?_, by decide +kernel⟩
  · have hnamed := (hsound.1.agrees.tables true).named "2147483648"
    exact absurd hnamed (by decide +kernel)
  · have hindexed := (hsound.2.2.1.agrees.tables false).indexed 1 2
    have hslot := hindexed.mpr ⟨"1", by decide +kernel, by decide +kernel⟩
    exact absurd hslot (by decide +kernel)

end ActorPorts

end PothosCore.Framework

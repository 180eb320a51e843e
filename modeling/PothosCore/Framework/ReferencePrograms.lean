import PothosCore.Framework.NextBuffers
import PothosCore.Framework.ReferenceCustody

/-!
# PothosCore.Framework.ReferencePrograms

Programs over values of `ManagedBuffer` and `BufferChunk`: constructions,
copies, moves, assignments, clears and edits of a chunk's address and length, in
any order. Assignments drop what the target held before they take up the new
value, and a copy counts the next buffers anew from the length.

`Exact` says what the counters are for. A step keeps it exactly when it is
`Backed`: the next buffers of a copy can be counted, and each buffer that it refers
to has a reference besides those that the assignment drops.
-/

namespace PothosCore.Framework

/-- A variable of either class. -/
inductive BufferValue
  | managed (mb : Option ManagedBuffer)
  | chunk (c : BufferChunk)
  deriving Repr, DecidableEq

namespace BufferValue

/-- Every buffer the value holds a reference on. -/
def handles (h : Heap) : BufferValue → List ManagedBuffer
  | .managed mb => mb.toList
  | .chunk c => c.handles h

/-- The copy constructors. -/
def copy (h : Heap) : BufferValue → Except Fault BufferValue
  | .managed mb => .ok (.managed mb)
  | .chunk c => do
      let c ← NextBuffers.copy h c
      .ok (.chunk c)

/-- The value runs into `n` next buffers. -/
def Counts (h : Heap) (n : Nat) : BufferValue → Prop
  | .managed _ => n = 0
  | .chunk c => NextBuffers.Counts h c n

/-- A copy that has counted `n` next buffers. -/
def counting (n : Nat) : BufferValue → BufferValue
  | .managed mb => .managed mb
  | .chunk c => .chunk { c with nextBuffers := n }

def acquire (h : Heap) (v : BufferValue) : List RefOp := (v.handles h).map .incr

/-- The destructors. -/
def destroy (h : Heap) : BufferValue → List RefOp
  | .managed mb => mb.toList.map .decr
  | .chunk c => c.destroy h

/-- What a move leaves behind. -/
def moved : BufferValue → BufferValue
  | .managed _ => .managed none
  | .chunk c => .chunk { c with address := 0, length := 0, managedBuffer := none, nextBuffers := 0 }

/-- What `reset()` and `clear()` leave behind. -/
def null : BufferValue → BufferValue
  | .managed _ => .managed none
  | .chunk _ => .chunk .null

/-- The walk over the next buffers does not run off the chain. -/
def Linked (h : Heap) : BufferValue → Prop
  | .managed _ => True
  | .chunk c => (c.nextList h).length = c.nextBuffers

instance (h : Heap) (v : BufferValue) : Decidable (v.Linked h) :=
  match v with
  | .managed _ => .isTrue trivial
  | .chunk c => inferInstanceAs (Decidable ((c.nextList h).length = c.nextBuffers))

def SameKind : BufferValue → BufferValue → Prop
  | .managed _, .managed _ => True
  | .chunk _, .chunk _ => True
  | _, _ => False

instance (v u : BufferValue) : Decidable (v.SameKind u) :=
  match v, u with
  | .managed _, .managed _ => .isTrue trivial
  | .chunk _, .chunk _ => .isTrue trivial
  | .managed _, .chunk _ => .isFalse id
  | .chunk _, .managed _ => .isFalse id

end BufferValue

/-- What a program does with its variables, which are numbered in the order of
their construction. -/
inductive BufferOp
  | managedBuffer
  | bufferChunk
  /-- `ManagedBuffer(buff)`, or `reset(manager, buff)` of a null one. -/
  | makeManaged (buffer : SharedBuffer) (managed : Bool)
  /-- `BufferChunk(buffer, dtype)`. -/
  | makeChunk (buffer : SharedBuffer) (dtype : DType)
  /-- A manager's buffer is taken out of its queue. -/
  | checkOut (index : Nat)
  /-- `BufferChunk(managedBuffer, dtype)`. -/
  | chunkOf (other : Nat) (dtype : DType)
  /-- A copy of `getManagedBuffer()`. -/
  | managedOf (other : Nat)
  | copyConstruct (other : Nat)
  | moveConstruct (other : Nat)
  | copyAssign (this other : Nat)
  | moveAssign (this other : Nat)
  | clear (this : Nat)
  | destruct (this : Nat)
  | edit (this address length : Nat)
  deriving Repr

/-- The buffers and the variables, those after their destructor `none`. -/
structure BufferProgram where
  store : BufferStore
  vars : List (Option BufferValue)

namespace BufferProgram

def start (buffers : List (SharedBuffer × Option ManagedBuffer)) : BufferProgram :=
  ⟨.start buffers, []⟩

def value (p : BufferProgram) (this : Nat) : Except Fault BufferValue :=
  match p.vars[this]? with
  | some (some v) => .ok v
  | _ => .error (.undefined "a variable outside its lifetime")

/-- `_decrNextBuffers()` and the decrement of the buffer itself. -/
def release (p : BufferProgram) (v : BufferValue) : Except Fault (List RefOp) :=
  if v.Linked p.store.heap then .ok (v.destroy p.store.heap)
  else .error (.assertion "mb != nullptr")

/-- A new variable. -/
def construct (p : BufferProgram) (ops : List RefOp) (v : BufferValue) :
    Except Fault BufferProgram := do
  let store ← p.store.runRefs ops
  .ok ⟨store, p.vars ++ [some v]⟩

def step (p : BufferProgram) : BufferOp → Except Fault BufferProgram
  | .managedBuffer => p.construct [] (.managed none)
  | .bufferChunk => p.construct [] (.chunk .null)
  | .makeManaged buffer managed =>
      let (store, mb) := p.store.make buffer managed
      .ok ⟨store, p.vars ++ [some (.managed (some mb))]⟩
  | .makeChunk buffer dtype =>
      let (store, mb) := p.store.make buffer false
      .ok ⟨store, p.vars ++ [some (.chunk ⟨buffer.address, buffer.length, dtype, some mb, 0⟩)]⟩
  | .checkOut index => do
      let (store, mb) ← p.store.checkOut index
      .ok ⟨store, p.vars ++ [some (.managed (some mb))]⟩
  | .chunkOf other dtype => do
      match ← p.value other with
      | .managed mb =>
          let buffer := p.store.heap.buffer mb
          p.construct (mb.toList.map .incr) (.chunk ⟨buffer.address, buffer.length, dtype, mb, 0⟩)
      | .chunk _ => .error (.undefined "a chunk for a managed buffer")
  | .managedOf other => do
      match ← p.value other with
      | .managed _ => .error (.undefined "a managed buffer for a chunk")
      | .chunk c => p.construct (c.managedBuffer.toList.map .incr) (.managed c.managedBuffer)
  | .copyConstruct other => do
      let v ← p.value other
      let v ← v.copy p.store.heap
      p.construct (v.acquire p.store.heap) v
  | .moveConstruct other => do
      let v ← p.value other
      .ok ⟨p.store, p.vars.set other (some v.moved) ++ [some v]⟩
  | .copyAssign this other => do
      let v ← p.value this
      let u ← p.value other
      if v.SameKind u then
        let ops ← p.release v
        let u ← u.copy p.store.heap
        let store ← p.store.runRefs (ops ++ u.acquire p.store.heap)
        .ok ⟨store, p.vars.set this (some u)⟩
      else .error (.undefined "an assignment between two classes")
  | .moveAssign this other => do
      let v ← p.value this
      let u ← p.value other
      if v.SameKind u then
        let ops ← p.release v
        let store ← p.store.runRefs ops
        .ok ⟨store, (p.vars.set this (some u)).set other (some u.moved)⟩
      else .error (.undefined "an assignment between two classes")
  | .clear this => do
      let v ← p.value this
      let ops ← p.release v
      let store ← p.store.runRefs ops
      .ok ⟨store, p.vars.set this (some v.null)⟩
  | .destruct this => do
      let v ← p.value this
      let ops ← p.release v
      let store ← p.store.runRefs ops
      .ok ⟨store, p.vars.set this none⟩
  | .edit this address length => do
      match ← p.value this with
      | .managed _ => .error (.undefined "a managed buffer for a chunk")
      | .chunk c =>
          let c := { c with address := address, length := length }
          .ok ⟨p.store, p.vars.set this (some (.chunk c))⟩

def run (p : BufferProgram) (ops : List BufferOp) : Except Fault BufferProgram := ops.foldlM step p

/-! ### What the counters are for -/

/-- The references of some variables: one of each handle, and those implied by
the next buffers of each chunk. -/
def refsOf (h : Heap) (vars : List (Option BufferValue)) : List ManagedBuffer :=
  vars.flatMap fun v => (v.map (BufferValue.handles h)).getD []

/-- The references of the program on one buffer. -/
def references (p : BufferProgram) (mb : ManagedBuffer) : Nat :=
  (refsOf p.store.heap p.vars).count mb

/-- Counters count the live handles, those of the program and those of a
manager's queue, and the implied references; a buffer is out as long as the
program refers to it, and was cleaned up once for each earlier time it was out. -/
structure Exact (p : BufferProgram) : Prop where
  counted : ∀ mb, p.store.custody mb ≠ .gone →
    (p.store.heap.impl mb).counter = p.references mb + p.store.ready.count mb
  held : ∀ mb, p.store.custody mb = .out ↔ 0 < p.references mb
  returned : ∀ mb, p.store.issued.count mb =
    p.store.heap.cleaned.count mb + if p.store.custody mb = .out then 1 else 0
  linked : ∀ v, some v ∈ p.vars → v.Linked p.store.heap

/-- The variables of the operation exist and are of its classes, and the queue
has the buffer that is checked out. -/
def Typed (p : BufferProgram) : BufferOp → Prop
  | .checkOut index => index < p.store.ready.length
  | .chunkOf other _ => ∃ mb, p.value other = .ok (.managed mb)
  | .managedOf other => ∃ c, p.value other = .ok (.chunk c)
  | .copyConstruct other | .moveConstruct other => ∃ v, p.value other = .ok v
  | .copyAssign this other | .moveAssign this other =>
      ∃ v u, p.value this = .ok v ∧ p.value other = .ok u ∧ v.SameKind u
  | .clear this | .destruct this => ∃ v, p.value this = .ok v
  | .edit this _ _ => ∃ c, p.value this = .ok (.chunk c)
  | _ => True

/-- The next buffers of a copy can be counted, and each buffer that it then refers to
has a reference besides those that the assignment drops. -/
def Backed (p : BufferProgram) : BufferOp → Prop
  | .copyConstruct other => ∀ v, p.value other = .ok v →
      ∃ n, v.Counts p.store.heap n ∧ ∀ mb ∈ (v.counting n).handles p.store.heap, 0 < p.references mb
  | .copyAssign this other => ∀ v u, p.value this = .ok v → p.value other = .ok u →
      ∃ n, u.Counts p.store.heap n ∧ ∀ mb ∈ (u.counting n).handles p.store.heap,
        (v.handles p.store.heap).count mb < p.references mb
  | _ => True

/-- All steps of a run satisfy a condition. -/
def Always (cond : BufferProgram → BufferOp → Prop) : BufferProgram → List BufferOp → Prop
  | _, [] => True
  | p, op :: ops => cond p op ∧ ∀ q, p.step op = .ok q → Always cond q ops

/-! ### References of variables -/

section
variable {h h' : Heap} {vars : List (Option BufferValue)} {mb : ManagedBuffer}

/-- Two heaps with the same chains. -/
def SameChains (h h' : Heap) : Prop := ∀ mb, (h'.impl mb).nextBuffer = (h.impl mb).nextBuffer

theorem sameChains_apply (h : Heap) (ops : List RefOp) : SameChains h (h.apply ops) :=
  Heap.apply_nextBuffer h ops

theorem handles_of_sameChains (hs : SameChains h h') (v : BufferValue) :
    v.handles h' = v.handles h := by
  cases v with
  | managed _ => rfl
  | chunk c => exact BufferAccumulator.handles_congr fun mb _ => hs mb

theorem linked_of_sameChains (hs : SameChains h h') {v : BufferValue} (hv : v.Linked h) :
    v.Linked h' := by
  cases v with
  | managed _ => trivial
  | chunk c =>
      have hhandles := handles_of_sameChains hs (.chunk c)
      simp only [BufferValue.handles, BufferChunk.handles, List.append_cancel_left_eq] at hhandles
      simpa only [BufferValue.Linked, hhandles] using hv

theorem refsOf_of_sameChains (hs : SameChains h h') : refsOf h' vars = refsOf h vars := by
  unfold refsOf
  congr 1
  funext v
  cases v with
  | none => rfl
  | some v => simp only [Option.map_some, handles_of_sameChains hs]

theorem refsOf_concat (v : BufferValue) :
    refsOf h (vars ++ [some v]) = refsOf h vars ++ v.handles h := by
  simp [refsOf]

/-- A variable changes its value. -/
theorem count_refsOf_set (h : Heap) (mb : ManagedBuffer) {this : Nat} {v : Option BufferValue}
    (hv : vars[this]? = some v)
    (u : Option BufferValue) :
    (refsOf h (vars.set this u)).count mb + ((v.map (BufferValue.handles h)).getD []).count mb =
      (refsOf h vars).count mb + ((u.map (BufferValue.handles h)).getD []).count mb := by
  induction vars generalizing this with
  | nil => cases hv
  | cons w vars ih =>
      cases this with
      | zero =>
          obtain rfl : w = v := by simpa using hv
          simp only [refsOf, List.set_cons_zero, List.flatMap_cons, List.count_append]
          omega
      | succ this =>
          have htail := @ih this (by simpa using hv)
          simp only [refsOf, List.set_cons_succ, List.flatMap_cons, List.count_append] at htail ⊢
          omega

theorem net_destroy (v : BufferValue) : RefOp.net mb (v.destroy h) = -((v.handles h).count mb : Int) := by
  cases v with
  | managed other =>
      cases other with
      | none => simp [BufferValue.destroy, BufferValue.handles]
      | some other =>
          by_cases heq : other = mb <;>
            simp [BufferValue.destroy, BufferValue.handles, RefOp.delta, heq]
  | chunk c => exact BufferAccumulator.net_destroy h c mb

theorem net_acquire (v : BufferValue) : RefOp.net mb (v.acquire h) = (v.handles h).count mb :=
  BufferAccumulator.net_incr mb _

end

/-! ### Steps that find their references -/

section
variable {c : ManagedBuffer → Int} {h : Heap}

/-- A value that the program holds can be destroyed. -/
theorem covered_destroy (v : BufferValue) (hle : ∀ mb, ((v.handles h).count mb : Int) ≤ c mb) :
    Covered (fun _ => True) 1 c (v.destroy h) := by
  have hone (mb : ManagedBuffer) : (1 : Int) ≤ c mb - ((v.handles h).count mb : Int) + 1 := by
    have hmb := hle mb
    omega
  cases v with
  | managed other => exact Covered.decrs fun mb _ _ => hone mb
  | chunk c => exact PothosCore.Framework.covered_destroy fun mb _ _ => hone mb

theorem covered_append {ops ops' : List RefOp} :
    Covered (fun _ => True) 1 c (ops ++ ops') ↔
      Covered (fun _ => True) 1 c ops ∧
        Covered (fun _ => True) 1 (fun mb => c mb + RefOp.net mb ops) ops' := by
  refine ⟨fun hall => ?_, fun hboth => hboth.1.append hboth.2⟩
  induction ops generalizing c with
  | nil => exact ⟨trivial, by simpa using hall⟩
  | cons op ops ih =>
      obtain ⟨hfirst, hrest⟩ := ih hall.2
      exact ⟨⟨hall.1, hfirst⟩, by simpa [Int.add_assoc] using hrest⟩

/-- New references are made of references that exist. -/
theorem covered_incrs {l : List ManagedBuffer} :
    Covered (fun _ => True) 1 c (l.map .incr) ↔ ∀ mb ∈ l, 0 < c mb := by
  refine ⟨fun hall => ?_, fun hpos => Covered.incrs fun mb hmb _ => hpos mb hmb⟩
  induction l generalizing c with
  | nil => simp
  | cons x l ih =>
      intro mb hmb
      have hx : 0 < c x := hall.1 trivial
      have htail := ih hall.2 mb
      by_cases heq : x = mb
      · exact heq ▸ hx
      · have hdelta : (RefOp.incr x).delta mb = 0 := if_neg heq
        rw [hdelta, Int.add_zero] at htail
        exact htail ((List.mem_cons.1 hmb).resolve_left (Ne.symm heq))

end

section
variable {h : Heap} {v w : BufferValue}

/-- What a copy is. -/
theorem copy_ok : v.copy h = .ok w ↔ ∃ n, v.Counts h n ∧ w = v.counting n := by
  cases v with
  | managed mb =>
      constructor
      · intro hw
        exact ⟨0, rfl, (Except.ok.inj hw).symm⟩
      · intro ⟨n, _, hw⟩
        exact congrArg Except.ok hw.symm
  | chunk c =>
      rw [BufferValue.copy]
      cases hc : NextBuffers.copy h c with
      | error fault =>
          constructor
          · intro hw
            cases hw
          · intro ⟨n, hn, _⟩
            have hcopy := NextBuffers.copy_ok.mpr ⟨n, hn, rfl⟩
            rw [hc] at hcopy
            cases hcopy
      | ok d =>
          obtain ⟨n, hn, rfl⟩ := NextBuffers.copy_ok.mp hc
          constructor
          · intro hw
            exact ⟨n, hn, (Except.ok.inj hw).symm⟩
          · intro ⟨n', hn', hw⟩
            have hcopy := NextBuffers.copy_ok.mpr ⟨n', hn', rfl⟩
            rw [hc, Except.ok.injEq] at hcopy
            rw [hw, BufferValue.counting, ← hcopy]
            rfl

/-- The next buffers that a copy counts are there. -/
theorem linked_copy (hw : v.copy h = .ok w) : w.Linked h := by
  obtain ⟨n, hn, rfl⟩ := copy_ok.mp hw
  cases v with
  | managed _ => trivial
  | chunk c => exact NextBuffers.length_nextList hn

end

/-! ### One step -/

/-- The invariant of a run. -/
structure Holds (p : BufferProgram) : Prop where
  accounts : p.store.Accounts fun mb => p.references mb
  linked : ∀ v, some v ∈ p.vars → v.Linked p.store.heap

theorem Holds.exact {p : BufferProgram} (h : p.Holds) : p.Exact := by
  refine ⟨fun mb hmb => ?_, fun mb => ?_, fun mb => (h.accounts mb).turns, h.linked⟩
  · obtain ⟨hout, hhome, _, hready, _, _⟩ := h.accounts mb
    cases hplace : p.store.custody mb with
    | out => simp [hready, (hout hplace).1, hplace]
    | home =>
        obtain ⟨hcounter, hzero⟩ := hhome hplace
        simp [hready, hcounter, hzero, hplace]
    | gone => exact absurd hplace hmb
  · rw [(h.accounts mb).out_iff, Int.natCast_pos]

section
variable {p q : BufferProgram} {this : Nat} {v : BufferValue} {ops : List RefOp} {mb : ManagedBuffer}

theorem value_eq (hv : p.value this = .ok v) : p.vars[this]? = some (some v) := by
  unfold value at hv
  split at hv
  · cases hv
    assumption
  · cases hv

theorem Holds.linked_value (hp : p.Holds) (hv : p.value this = .ok v) : v.Linked p.store.heap :=
  hp.linked v (List.mem_of_getElem? (value_eq hv))

theorem count_le_references (hv : p.value this = .ok v) (mb : ManagedBuffer) :
    (v.handles p.store.heap).count mb ≤ p.references mb := by
  have hset := count_refsOf_set p.store.heap mb (value_eq hv) none
  simp only [Option.map_some, Option.getD_some, Option.map_none, Option.getD_none,
    List.count_nil] at hset
  unfold references
  omega

/-- Reference steps that lead to the references of the new variables. -/
theorem Holds.update (hp : p.Holds) {store : BufferStore} {vars : List (Option BufferValue)}
    (hrun : p.store.runRefs ops = .ok store)
    (hcount : ∀ mb, ((refsOf p.store.heap vars).count mb : Int) = p.references mb + RefOp.net mb ops)
    (hlinked : ∀ v, some v ∈ vars → v.Linked p.store.heap) : Holds ⟨store, vars⟩ := by
  obtain ⟨store', hrun', haccounts⟩ := hp.accounts.runRefs (hp.accounts.covered hrun)
  obtain rfl := Except.ok.inj (hrun.symm.trans hrun')
  obtain ⟨traffic, hheap⟩ := BufferStore.runRefs_traffic hrun
  have hsame : SameChains p.store.heap store.heap := hheap ▸ sameChains_apply _ _
  refine ⟨?_, fun v hv => linked_of_sameChains hsame (hlinked v hv)⟩
  have hrefs (mb : ManagedBuffer) :
      (references ⟨store, vars⟩ mb : Int) = p.references mb + RefOp.net mb ops := by
    rw [← hcount, ← refsOf_of_sameChains hsame]
    rfl
  simpa only [hrefs] using haccounts

/-- The variables after one of them changed. -/
theorem Holds.linked_set (hp : p.Holds) {u : Option BufferValue}
    (hu : ∀ v, u = some v → v.Linked p.store.heap) (v : BufferValue)
    (hv : some v ∈ p.vars.set this u) : v.Linked p.store.heap := by
  obtain hold | hnew := List.mem_or_eq_of_mem_set hv
  · exact hp.linked v hold
  · exact hu v hnew.symm

theorem Holds.construct (hp : p.Holds) (hrun : p.construct ops v = .ok q)
    (hnet : ∀ mb, RefOp.net mb ops = (v.handles p.store.heap).count mb)
    (hlinked : v.Linked p.store.heap) : q.Holds := by
  unfold BufferProgram.construct at hrun
  cases hops : p.store.runRefs ops with
  | error fault =>
      rw [hops] at hrun
      cases hrun
  | ok store =>
      rw [hops] at hrun
      obtain rfl := Except.ok.inj hrun
      refine hp.update hops (fun mb => ?_) fun u hu => ?_
      · rw [refsOf_concat, List.count_append, hnet, Int.natCast_add]
        rfl
      · obtain hold | hnew := List.mem_append.1 hu
        · exact hp.linked u hold
        · obtain rfl : u = v := by simpa using hnew
          exact hlinked

/-- A new buffer, and a variable with the only reference on it. -/
theorem Holds.make (hp : p.Holds) (buffer : SharedBuffer) (managed : Bool)
    (hv : v.handles (p.store.make buffer managed).1.heap = [p.store.allocated])
    (hlinked : v.Linked (p.store.make buffer managed).1.heap) :
    Holds ⟨(p.store.make buffer managed).1, p.vars ++ [some v]⟩ := by
  have hsame : SameChains p.store.heap (p.store.make buffer managed).1.heap := by
    intro mb
    obtain ⟨_, hnext⟩ := (hp.accounts p.store.allocated).fresh le_rfl
    simp only [BufferStore.make, Heap.create_impl]
    split
    case isTrue heq => rw [heq, hnext]; rfl
    case isFalse => rfl
  refine ⟨?_, fun u hu => ?_⟩
  · have hrefs (mb : ManagedBuffer) :
        (references ⟨(p.store.make buffer managed).1, p.vars ++ [some v]⟩ mb : Int) =
          BufferStore.plusOne (fun mb => p.references mb) p.store.allocated mb := by
      have hold : (refsOf (p.store.make buffer managed).1.heap p.vars).count mb = p.references mb := by
        rw [refsOf_of_sameChains hsame]
        rfl
      simp only [references, refsOf_concat, hv, List.count_append, hold, BufferStore.plusOne,
        List.count_singleton, Int.natCast_add]
      by_cases heq : p.store.allocated = mb <;> simp [heq]
    simpa only [hrefs] using hp.accounts.make buffer managed
  · obtain hold | hnew := List.mem_append.1 hu
    · exact linked_of_sameChains hsame (hp.linked u hold)
    · obtain rfl : u = v := by simpa using hnew
      exact hlinked

theorem Holds.checkOut (hp : p.Holds) {index : Nat} {store : BufferStore}
    (hrun : p.store.checkOut index = .ok (store, mb)) :
    Holds ⟨store, p.vars ++ [some (.managed (some mb))]⟩ := by
  have hheap : store.heap = p.store.heap := by rw [(BufferStore.checkOut_ok hrun).2]
  refine ⟨?_, fun u hu => ?_⟩
  · have hrefs (mb' : ManagedBuffer) :
        (references ⟨store, p.vars ++ [some (.managed (some mb))]⟩ mb' : Int) =
          BufferStore.plusOne (fun mb => p.references mb) mb mb' := by
      simp only [references, hheap, refsOf_concat, BufferValue.handles, Option.toList,
        List.count_append, BufferStore.plusOne, List.count_singleton, Int.natCast_add]
      by_cases heq : mb = mb' <;> simp [heq]
    simpa only [hrefs] using hp.accounts.checkOut hrun
  · dsimp only at hu ⊢
    rw [hheap]
    obtain hold | hnew := List.mem_append.1 hu
    · exact hp.linked u hold
    · obtain rfl : u = .managed (some mb) := by simpa using hnew
      trivial

/-- Reference steps run exactly when each finds a reference. -/
theorem Holds.runs_iff (hp : p.Holds) (ops : List RefOp) :
    (∃ store, p.store.runRefs ops = .ok store) ↔
      Covered (fun _ => True) 1 (fun mb => p.references mb) ops := by
  refine ⟨fun ⟨_, hrun⟩ => hp.accounts.covered hrun, fun hcovered => ?_⟩
  obtain ⟨store, hrun, _⟩ := hp.accounts.runRefs hcovered
  exact ⟨store, hrun⟩

/-- What a variable holds can be released. -/
theorem Holds.releases (hp : p.Holds) (hv : p.value this = .ok v) :
    p.release v = .ok (v.destroy p.store.heap) ∧
      Covered (fun _ => True) 1 (fun mb => p.references mb) (v.destroy p.store.heap) := by
  refine ⟨if_pos (hp.linked_value hv), covered_destroy v fun mb => ?_⟩
  exact Int.ofNat_le.2 (count_le_references hv mb)

theorem release_ok (h : p.release v = .ok ops) : ops = v.destroy p.store.heap := by
  unfold release at h
  split at h
  · exact (Except.ok.inj h).symm
  · cases h

theorem handles_moved (h : Heap) (v : BufferValue) : v.moved.handles h = [] := by
  cases v <;> rfl

theorem handles_null (h : Heap) (v : BufferValue) : v.null.handles h = [] := by
  cases v <;> rfl

theorem linked_moved (h : Heap) (v : BufferValue) : v.moved.Linked h := by
  cases v <;> trivial

theorem linked_null (h : Heap) (v : BufferValue) : v.null.Linked h := by
  cases v <;> trivial

/-- A new value for a variable, after its old one was released. -/
theorem Holds.assign (hp : p.Holds) (hv : p.value this = .ok v) {u : Option BufferValue}
    {store : BufferStore}
    (hrun : p.store.runRefs (v.destroy p.store.heap ++ ops) = .ok store)
    (hnet : ∀ mb, RefOp.net mb ops = ((u.map (BufferValue.handles p.store.heap)).getD []).count mb)
    (hu : ∀ w, u = some w → w.Linked p.store.heap) : Holds ⟨store, p.vars.set this u⟩ := by
  refine hp.update hrun (fun mb => ?_) (hp.linked_set hu)
  have hset := count_refsOf_set p.store.heap mb (value_eq hv) u
  rw [RefOp.net_append, net_destroy, hnet]
  simp only [Option.map_some, Option.getD_some] at hset
  unfold references
  omega

/-- The other variable's value, without counting anything. -/
theorem Holds.moveAssign (hp : p.Holds) {other : Nat} {u : BufferValue} {store : BufferStore}
    (hv : p.value this = .ok v) (hu : p.value other = .ok u)
    (hrun : p.store.runRefs (v.destroy p.store.heap) = .ok store) :
    Holds ⟨store, (p.vars.set this (some u)).set other (some u.moved)⟩ := by
  refine hp.update hrun (fun mb => ?_) fun w hw => ?_
  · -- The second set finds `u`: in its own place, or where it was just put.
    have hother : (p.vars.set this (some u))[other]? = some (some u) := by
      rw [List.getElem?_set]
      split
      case isTrue heq =>
        subst heq
        rw [if_pos (List.getElem?_eq_some_iff.1 (value_eq hv)).1]
      case isFalse => exact value_eq hu
    have hfirst := count_refsOf_set p.store.heap mb (value_eq hv) (some u)
    have hsecond := count_refsOf_set p.store.heap mb hother (some u.moved)
    simp only [Option.map_some, Option.getD_some, handles_moved, List.count_nil] at hfirst hsecond
    rw [net_destroy]
    unfold references
    omega
  · obtain hold | hnew := List.mem_or_eq_of_mem_set hw
    · exact hp.linked_set (fun w hw => (Option.some.inj hw) ▸ hp.linked_value hu) w hold
    · exact (Option.some.inj hnew) ▸ linked_moved _ u

/-- **The step lemma.** Every step that returns keeps the counters exact. -/
theorem Holds.step (hp : p.Holds) {op : BufferOp} (hrun : p.step op = .ok q) : q.Holds := by
  cases op with
  | managedBuffer => exact hp.construct hrun (fun _ => rfl) trivial
  | bufferChunk => exact hp.construct hrun (fun _ => rfl) rfl
  | makeManaged buffer managed =>
      cases hrun
      exact hp.make buffer managed rfl trivial
  | makeChunk buffer dtype =>
      cases hrun
      exact hp.make buffer false (BufferChunk.handles_of_nextBuffers rfl) rfl
  | checkOut index =>
      obtain ⟨⟨store, mb⟩, hout, hrun⟩ := bind_ok hrun
      cases hrun
      exact hp.checkOut hout
  | chunkOf other dtype =>
      obtain ⟨v, hv, hrun⟩ := bind_ok hrun
      cases v with
      | managed mb =>
          refine hp.construct hrun (fun mb' => ?_) ?_
          · rw [BufferAccumulator.net_incr, BufferValue.handles,
              BufferChunk.handles_of_nextBuffers rfl]
          · cases mb <;> rfl
      | chunk c => cases hrun
  | managedOf other =>
      obtain ⟨v, hv, hrun⟩ := bind_ok hrun
      cases v with
      | managed mb => cases hrun
      | chunk c => exact hp.construct hrun (fun mb => BufferAccumulator.net_incr mb _) trivial
  | copyConstruct other =>
      obtain ⟨v, hv, hrun⟩ := bind_ok hrun
      obtain ⟨w, hw, hrun⟩ := bind_ok hrun
      exact hp.construct hrun (fun mb => net_acquire _) (linked_copy hw)
  | moveConstruct other =>
      obtain ⟨v, hv, hrun⟩ := bind_ok hrun
      cases hrun
      refine hp.update (show p.store.runRefs [] = .ok p.store from rfl) (fun mb => ?_) fun u hu => ?_
      · have hset := count_refsOf_set p.store.heap mb (value_eq hv) (some v.moved)
        simp only [Option.map_some, Option.getD_some, handles_moved, List.count_nil] at hset
        rw [refsOf_concat, List.count_append, RefOp.net_nil]
        unfold references
        omega
      · obtain hold | hnew := List.mem_append.1 hu
        · exact hp.linked_set (fun w hw => (Option.some.inj hw) ▸ linked_moved _ v) u hold
        · obtain rfl : u = v := by simpa using hnew
          exact hp.linked_value hv
  | copyAssign this other =>
      obtain ⟨v, hv, hrun⟩ := bind_ok hrun
      obtain ⟨u, hu, hrun⟩ := bind_ok hrun
      split at hrun
      · obtain ⟨ops, hops, hrun⟩ := bind_ok hrun
        obtain rfl := release_ok hops
        obtain ⟨w, hcopy, hrun⟩ := bind_ok hrun
        obtain ⟨store, hrefs, hrun⟩ := bind_ok hrun
        cases hrun
        refine hp.assign hv hrefs (fun mb => net_acquire _) fun w' hw' => ?_
        exact (Option.some.inj hw') ▸ linked_copy hcopy
      · cases hrun
  | moveAssign this other =>
      obtain ⟨v, hv, hrun⟩ := bind_ok hrun
      obtain ⟨u, hu, hrun⟩ := bind_ok hrun
      split at hrun
      · obtain ⟨ops, hops, hrun⟩ := bind_ok hrun
        obtain rfl := release_ok hops
        obtain ⟨store, hrefs, hrun⟩ := bind_ok hrun
        cases hrun
        exact hp.moveAssign hv hu hrefs
      · cases hrun
  | clear this =>
      obtain ⟨v, hv, hrun⟩ := bind_ok hrun
      obtain ⟨ops, hops, hrun⟩ := bind_ok hrun
      obtain rfl := release_ok hops
      obtain ⟨store, hrefs, hrun⟩ := bind_ok hrun
      cases hrun
      rw [← List.append_nil (v.destroy _)] at hrefs
      refine hp.assign hv hrefs (fun mb => ?_) fun w hw => (Option.some.inj hw) ▸ linked_null _ v
      simp [handles_null]
  | destruct this =>
      obtain ⟨v, hv, hrun⟩ := bind_ok hrun
      obtain ⟨ops, hops, hrun⟩ := bind_ok hrun
      obtain rfl := release_ok hops
      obtain ⟨store, hrefs, hrun⟩ := bind_ok hrun
      cases hrun
      rw [← List.append_nil (v.destroy _)] at hrefs
      exact hp.assign hv hrefs (fun mb => rfl) fun w hw => by cases hw
  | edit this address length =>
      obtain ⟨v, hv, hrun⟩ := bind_ok hrun
      cases v with
      | managed mb => cases hrun
      | chunk c =>
          cases hrun
          refine hp.update (show p.store.runRefs [] = .ok p.store from rfl) (fun mb => ?_)
            (hp.linked_set fun w hw => ?_)
          · have hset := count_refsOf_set p.store.heap mb (value_eq hv)
              (some (.chunk { c with address := address, length := length }))
            simp only [Option.map_some, Option.getD_some] at hset
            rw [RefOp.net_nil, Int.add_zero, Nat.add_right_cancel hset]
            rfl
          · obtain rfl := Option.some.inj hw
            exact (hp.linked_value hv : (BufferValue.chunk c).Linked _)

/-- A handle that a value holds can be copied. -/
theorem covered_own (hv : p.value this = .ok v) {l : List ManagedBuffer}
    (hl : ∀ mb ∈ l, mb ∈ v.handles p.store.heap) :
    Covered (fun _ => True) 1 (fun mb => p.references mb) (l.map .incr) := by
  refine covered_incrs.2 fun mb hmb => ?_
  have hle := count_le_references hv mb
  have hpos := List.count_pos_iff.2 (hl mb hmb)
  omega

/-- **The condition of a step.** A typed operation returns exactly when each
buffer that it copies a reference of has one left. -/
theorem Holds.step_iff (hp : p.Holds) {op : BufferOp} (htyped : p.Typed op) :
    (∃ q, p.step op = .ok q) ↔ p.Backed op := by
  -- Only copies take references that the program may not have.
  have hfree (hbacked : p.Backed op) (hreturns : ∃ q, p.step op = .ok q) :
      (∃ q, p.step op = .ok q) ↔ p.Backed op := ⟨fun _ => hbacked, fun _ => hreturns⟩
  cases op with
  | managedBuffer => exact hfree trivial ⟨_, rfl⟩
  | bufferChunk => exact hfree trivial ⟨_, rfl⟩
  | makeManaged buffer managed => exact hfree trivial ⟨_, rfl⟩
  | makeChunk buffer dtype => exact hfree trivial ⟨_, rfl⟩
  | checkOut index =>
      have hget := List.getElem?_eq_getElem (show index < p.store.ready.length from htyped)
      refine hfree trivial ?_
      simp only [BufferProgram.step, BufferStore.checkOut, hget]
      exact ⟨_, rfl⟩
  | chunkOf other dtype =>
      obtain ⟨mb, hv⟩ := htyped
      obtain ⟨store, hrefs⟩ := (hp.runs_iff _).2 (covered_own (l := mb.toList) hv fun _ hmb => hmb)
      let buffer := p.store.heap.buffer mb
      refine hfree trivial
        ⟨⟨store, p.vars ++ [some (.chunk ⟨buffer.address, buffer.length, dtype, mb, 0⟩)]⟩, ?_⟩
      simp only [BufferProgram.step, BufferProgram.construct, hv, hrefs, bind, Except.bind]
      rfl
  | managedOf other =>
      obtain ⟨c, hv⟩ := htyped
      obtain ⟨store, hrefs⟩ := (hp.runs_iff _).2 (covered_own hv fun _ hmb =>
        List.mem_append_left _ hmb)
      refine hfree trivial ⟨⟨store, p.vars ++ [some (.managed c.managedBuffer)]⟩, ?_⟩
      simp only [BufferProgram.step, BufferProgram.construct, hv, hrefs, bind, Except.bind]
  | copyConstruct other =>
      obtain ⟨v, hv⟩ := htyped
      have hruns (w : BufferValue) := hp.runs_iff (w.acquire p.store.heap)
      simp only [BufferValue.acquire, covered_incrs, Int.natCast_pos] at hruns
      constructor
      · intro hreturns v' hv'
        obtain rfl := Except.ok.inj (hv.symm.trans hv')
        obtain ⟨q, hrun⟩ := hreturns
        obtain ⟨_, hv', hrun⟩ := bind_ok hrun
        obtain rfl := Except.ok.inj (hv.symm.trans hv')
        obtain ⟨w, hw, hrun⟩ := bind_ok hrun
        obtain ⟨store, hrefs, _⟩ := bind_ok hrun
        obtain ⟨n, hn, rfl⟩ := copy_ok.1 hw
        exact ⟨n, hn, (hruns _).1 ⟨store, hrefs⟩⟩
      · intro hbacked
        obtain ⟨n, hn, hall⟩ := hbacked v hv
        have hw : v.copy p.store.heap = .ok (v.counting n) := copy_ok.2 ⟨n, hn, rfl⟩
        obtain ⟨store, hrefs⟩ := (hruns _).2 hall
        refine ⟨⟨store, p.vars ++ [some (v.counting n)]⟩, ?_⟩
        simp only [BufferProgram.step, BufferProgram.construct, hv, hw, BufferValue.acquire, hrefs, bind,
          Except.bind]
  | moveConstruct other =>
      obtain ⟨v, hv⟩ := htyped
      refine hfree trivial ⟨⟨p.store, p.vars.set other (some v.moved) ++ [some v]⟩, ?_⟩
      simp only [BufferProgram.step, hv]
      rfl
  | copyAssign this other =>
      obtain ⟨v, u, hv, hu, hkind⟩ := htyped
      obtain ⟨hrelease, hdestroy⟩ := hp.releases hv
      have hruns (w : BufferValue) := hp.runs_iff (v.destroy p.store.heap ++ w.acquire p.store.heap)
      have hleft (mb : ManagedBuffer) :
          0 < (p.references mb : Int) + RefOp.net mb (v.destroy p.store.heap) ↔
            (v.handles p.store.heap).count mb < p.references mb := by
        rw [net_destroy]
        omega
      simp only [covered_append, and_iff_right hdestroy, BufferValue.acquire, covered_incrs, hleft] at hruns
      constructor
      · intro hreturns v' u' hv' hu'
        obtain rfl := Except.ok.inj (hv.symm.trans hv')
        obtain rfl := Except.ok.inj (hu.symm.trans hu')
        obtain ⟨q, hrun⟩ := hreturns
        simp only [BufferProgram.step, hv, hu, if_pos hkind, hrelease, bind, Except.bind] at hrun
        obtain ⟨w, hw, hrun⟩ := bind_ok hrun
        obtain ⟨store, hrefs, _⟩ := bind_ok hrun
        obtain ⟨n, hn, rfl⟩ := copy_ok.1 hw
        exact ⟨n, hn, (hruns _).1 ⟨store, hrefs⟩⟩
      · intro hbacked
        obtain ⟨n, hn, hall⟩ := hbacked v u hv hu
        have hw : u.copy p.store.heap = .ok (u.counting n) := copy_ok.2 ⟨n, hn, rfl⟩
        obtain ⟨store, hrefs⟩ := (hruns _).2 hall
        refine ⟨⟨store, p.vars.set this (some (u.counting n))⟩, ?_⟩
        simp only [BufferProgram.step, hv, hu, if_pos hkind, hrelease, hw, BufferValue.acquire, hrefs,
          bind, Except.bind]
  | moveAssign this other =>
      obtain ⟨v, u, hv, hu, hkind⟩ := htyped
      obtain ⟨hrelease, hdestroy⟩ := hp.releases hv
      obtain ⟨store, hrefs⟩ := (hp.runs_iff _).2 hdestroy
      refine hfree trivial ⟨⟨store, (p.vars.set this (some u)).set other (some u.moved)⟩, ?_⟩
      simp only [BufferProgram.step, hv, hu, if_pos hkind, hrelease, hrefs, bind, Except.bind]
  | clear this =>
      obtain ⟨v, hv⟩ := htyped
      obtain ⟨hrelease, hdestroy⟩ := hp.releases hv
      obtain ⟨store, hrefs⟩ := (hp.runs_iff _).2 hdestroy
      refine hfree trivial ⟨⟨store, p.vars.set this (some v.null)⟩, ?_⟩
      simp only [BufferProgram.step, hv, hrelease, hrefs, bind, Except.bind]
  | destruct this =>
      obtain ⟨v, hv⟩ := htyped
      obtain ⟨hrelease, hdestroy⟩ := hp.releases hv
      obtain ⟨store, hrefs⟩ := (hp.runs_iff _).2 hdestroy
      refine hfree trivial ⟨⟨store, p.vars.set this none⟩, ?_⟩
      simp only [BufferProgram.step, hv, hrelease, hrefs, bind, Except.bind]
  | edit this address length =>
      obtain ⟨c, hv⟩ := htyped
      let c' := { c with address := address, length := length }
      refine hfree trivial ⟨⟨p.store, p.vars.set this (some (.chunk c'))⟩, ?_⟩
      simp only [BufferProgram.step, hv]
      rfl

/-! ### Runs -/

theorem holds_start (buffers : List (SharedBuffer × Option ManagedBuffer)) :
    (start buffers).Holds :=
  ⟨BufferStore.Accounts.start buffers, fun _ hv => by cases hv⟩

theorem Holds.run_iff (hp : p.Holds) {ops : List BufferOp} (htyped : Always Typed p ops) :
    (∃ q, p.run ops = .ok q ∧ q.Exact) ↔ Always Backed p ops := by
  induction ops generalizing p with
  | nil => exact ⟨fun _ => trivial, fun _ => ⟨p, rfl, hp.exact⟩⟩
  | cons op ops ih =>
      obtain ⟨htyped, hrest⟩ := htyped
      have hstep := hp.step_iff htyped
      cases hrun : p.step op with
      | error fault =>
          simp only [hrun, reduceCtorEq, exists_false, false_iff] at hstep
          simp only [BufferProgram.run, List.foldlM_cons, hrun, bind, Except.bind, reduceCtorEq,
            false_and, exists_false, false_iff]
          exact fun hall => hstep hall.1
      | ok r =>
          have hback := hstep.1 ⟨r, hrun⟩
          have htail := ih (hp.step hrun) (hrest r hrun)
          simp only [BufferProgram.run, List.foldlM_cons, hrun, bind, Except.bind]
          refine htail.trans ⟨fun hall => ⟨hback, fun q hq => ?_⟩, fun hall => hall.2 r hrun⟩
          obtain rfl := Except.ok.inj (hrun.symm.trans hq)
          exact hall

theorem Always.cons {cond : BufferProgram → BufferOp → Prop} {op : BufferOp} {ops : List BufferOp}
    (hcond : cond p op) (hstep : p.step op = .ok q) (hrest : Always cond q ops) :
    Always cond p (op :: ops) := by
  refine ⟨hcond, fun r hr => ?_⟩
  obtain rfl := Except.ok.inj (hstep.symm.trans hr)
  exact hrest

end

/-- A manager's buffers of one page each, in a row. -/
def twoPages : List (SharedBuffer × Option ManagedBuffer) :=
  [(⟨0x10000, 0x1000, 0⟩, some 1), (⟨0x11000, 0x1000, 0⟩, none)]

/-- A chunk on the first page is edited to run into the second, which is checked out too; it is
copied, assigned its copy, and all of them go. -/
def pagesRun : List BufferOp :=
  [.checkOut 0, .chunkOf 0 .unspecified, .checkOut 0, .edit 1 0x10000 0x1800, .copyConstruct 1, .copyAssign 1 3,
    .clear 0, .clear 1, .clear 2, .destruct 3]

theorem typed_pagesRun : Always Typed (start twoPages) pagesRun := by
  refine .cons (show 0 < 2 by decide) rfl ?_
  refine .cons ⟨_, rfl⟩ rfl ?_
  refine .cons (show 0 < 1 by decide) rfl ?_
  refine .cons ⟨_, rfl⟩ rfl ?_
  refine .cons ⟨_, rfl⟩ rfl ?_
  refine .cons ⟨_, _, rfl, rfl, trivial⟩ rfl ?_
  refine .cons ⟨_, rfl⟩ rfl ?_
  refine .cons ⟨_, rfl⟩ rfl ?_
  refine .cons ⟨_, rfl⟩ rfl ?_
  exact .cons ⟨_, rfl⟩ rfl trivial

/-- What the chunk counts is the second page. -/
theorem backed_pagesRun : Always Backed (start twoPages) pagesRun := by
  refine .cons trivial rfl ?_
  refine .cons trivial rfl ?_
  refine .cons trivial rfl ?_
  refine .cons trivial rfl ?_
  refine .cons (fun v hv => ?_) rfl ?_
  · cases hv
    exact ⟨1, ⟨by decide, by decide, 1, rfl, .inl (by decide)⟩, by decide⟩
  refine .cons (fun v u hv hu => ?_) rfl ?_
  · cases hv
    cases hu
    exact ⟨1, ⟨by decide, by decide, 1, rfl, .inl (by decide)⟩, by decide⟩
  refine .cons trivial rfl ?_
  refine .cons trivial rfl ?_
  refine .cons trivial rfl ?_
  exact .cons trivial rfl trivial

end BufferProgram

end PothosCore.Framework

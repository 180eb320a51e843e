import Mathlib.Data.List.Perm.Basic
import Mathlib.Data.List.Nodup
import PothosCore.Framework.ReferenceSteps

/-!
# PothosCore.Framework.ReferenceCustody

Who has a managed buffer. A buffer is checked out as long as a program refers to
it; the decrement that drops the last reference cleans it up: its manager takes
it back and keeps a reference of its own, or it is deleted when it has none.
From then on no reference step may look at it before it is checked out again.

`Accounts` says that the counters agree with a count of references; each
reference step keeps it when its target has a reference, and faults otherwise.
-/

namespace PothosCore.Framework

/-- Where a managed buffer is. -/
inductive Custody
  /-- Checked out, or made without a manager, and referred to. -/
  | out
  /-- In the queue of its manager. -/
  | home
  /-- Deleted, or not made yet. -/
  | gone
  deriving Repr, DecidableEq

/-- The managed buffers of a process. `managed` holds where the weak pointer to a
manager can be locked, `ready` are the managers' queues, and `issued` records
the buffers that were checked out or made, as `heap.cleaned` those cleaned up. -/
structure BufferStore where
  heap : Heap
  custody : ManagedBuffer → Custody
  managed : ManagedBuffer → Bool
  ready : List ManagedBuffer
  issued : List ManagedBuffer
  allocated : Nat

namespace BufferStore

/-- Managers with these buffers, each with its next buffer, all in their queues. -/
def start (buffers : List (SharedBuffer × Option ManagedBuffer)) : BufferStore where
  heap :=
    { impl := fun mb =>
        match buffers[mb]? with
        | some (buffer, next) => ⟨1, buffer, mb, next⟩
        | none => .fresh
      cleaned := [] }
  custody := fun mb => if mb < buffers.length then .home else .gone
  managed := fun mb => mb < buffers.length
  ready := List.range buffers.length
  issued := []
  allocated := buffers.length

/-- `Impl::cleanup()`: push the buffer to its manager, whose queue copies the
handle, or delete it. -/
def cleanup (s : BufferStore) (mb : ManagedBuffer) : BufferStore :=
  if s.managed mb then
    { s with
      heap := s.heap.applyOp (.incr mb)
      custody := Function.update s.custody mb .home
      ready := s.ready ++ [mb] }
  else { s with custody := Function.update s.custody mb .gone }

/-- `incr()` and `decr()` on a buffer that is checked out. -/
def applyRef (s : BufferStore) (op : RefOp) : Except Fault BufferStore :=
  if s.custody op.target = .out then
    let t := { s with heap := s.heap.applyOp op }
    match op with
    | .incr _ => .ok t
    | .decr mb => .ok (if (s.heap.impl mb).counter = 1 then t.cleanup mb else t)
  else .error (.undefined "a reference step on a buffer that is not checked out")

def runRefs (s : BufferStore) (ops : List RefOp) : Except Fault BufferStore := ops.foldlM applyRef s

/-- A new `Impl` with a counter of one, of a manager or of none. -/
def make (s : BufferStore) (buffer : SharedBuffer) (managed : Bool) : BufferStore × ManagedBuffer :=
  let mb := s.allocated
  ({ s with
      heap := s.heap.create mb buffer 0
      custody := Function.update s.custody mb .out
      managed := Function.update s.managed mb managed
      issued := s.issued ++ [mb]
      allocated := mb + 1 }, mb)

/-- A manager gives the reference of its queue away. -/
def checkOut (s : BufferStore) (index : Nat) : Except Fault (BufferStore × ManagedBuffer) :=
  match s.ready[index]? with
  | some mb =>
      .ok ({ s with
        custody := Function.update s.custody mb .out
        ready := s.ready.eraseIdx index
        issued := s.issued ++ [mb] }, mb)
  | none => .error (.assertion "not _readyBuffs.empty()")

/-- The account of one buffer, of which the program has `refs` references. It is
checked out as long as there are some, and was cleaned up as often as it was
issued but for the time it is out now. -/
structure AccountsFor (s : BufferStore) (mb : ManagedBuffer) (refs : Int) : Prop where
  out : s.custody mb = .out → (s.heap.impl mb).counter = refs ∧ 0 < refs
  home : s.custody mb = .home → (s.heap.impl mb).counter = 1 ∧ refs = 0
  gone : s.custody mb = .gone → refs = 0
  ready : s.ready.count mb = if s.custody mb = .home then 1 else 0
  turns : s.issued.count mb = s.heap.cleaned.count mb + if s.custody mb = .out then 1 else 0
  fresh : s.allocated ≤ mb → s.custody mb = .gone ∧ (s.heap.impl mb).nextBuffer = none

/-- The program has `c mb` references on each buffer. -/
def Accounts (s : BufferStore) (c : ManagedBuffer → Int) : Prop := ∀ mb, s.AccountsFor mb (c mb)

/-- Reference traffic, and nothing else, has happened to the heap. -/
def Traffic (s t : BufferStore) : Prop := ∃ ops, t.heap = s.heap.apply ops

variable {s t : BufferStore} {mb mb' : ManagedBuffer} {refs : Int} {c : ManagedBuffer → Int}

theorem AccountsFor.out_iff (h : s.AccountsFor mb refs) : s.custody mb = .out ↔ 0 < refs := by
  refine ⟨fun hout => (h.out hout).2, fun hpos => ?_⟩
  cases hplace : s.custody mb with
  | out => rfl
  | home =>
      have hzero := (h.home hplace).2
      omega
  | gone =>
      have hzero := h.gone hplace
      omega

/-- A buffer that is checked out. -/
structure IsOut (s : BufferStore) (mb : ManagedBuffer) (refs : Int) : Prop where
  custody : s.custody mb = .out
  counter : (s.heap.impl mb).counter = refs
  pos : 0 < refs
  ready : s.ready.count mb = 0
  turns : s.issued.count mb = s.heap.cleaned.count mb + 1
  allocated : mb < s.allocated

theorem IsOut.account (h : s.IsOut mb refs) : s.AccountsFor mb refs := by
  have hcustody := h.custody
  exact ⟨fun _ => ⟨h.counter, h.pos⟩, fun hmb => by simp [hcustody] at hmb,
    fun hmb => by simp [hcustody] at hmb, by simp [h.ready, hcustody],
    by simp [h.turns, hcustody], fun hmb => absurd h.allocated hmb.not_gt⟩

theorem AccountsFor.isOut (h : s.AccountsFor mb refs) (hpos : 0 < refs) : s.IsOut mb refs := by
  have hcustody := h.out_iff.2 hpos
  refine ⟨hcustody, (h.out hcustody).1, hpos, by simp [h.ready, hcustody],
    by simp [h.turns, hcustody], Nat.lt_of_not_le fun hle => ?_⟩
  have hgone := (h.fresh hle).1
  rw [hcustody] at hgone
  cases hgone

/-- What does not touch a buffer leaves its account alone. -/
theorem AccountsFor.congr (h : s.AccountsFor mb refs) (himpl : t.heap.impl mb = s.heap.impl mb)
    (hcustody : t.custody mb = s.custody mb) (hready : t.ready.count mb = s.ready.count mb)
    (hissued : t.issued.count mb = s.issued.count mb)
    (hcleaned : t.heap.cleaned.count mb = s.heap.cleaned.count mb)
    (hallocated : s.allocated ≤ t.allocated) : t.AccountsFor mb refs := by
  obtain ⟨hout, hhome, hgone, hready', hturns, hfresh⟩ := h
  rw [← himpl] at hout hhome hfresh
  rw [← hcustody] at hout hhome hgone hready' hturns hfresh
  rw [← hready] at hready'
  rw [← hissued, ← hcleaned] at hturns
  exact ⟨hout, hhome, hgone, hready', hturns, fun hmb => hfresh (hallocated.trans hmb)⟩

/-- The steps of other buffers. -/
theorem applyOp_of_ne (op : RefOp) (hne : op.target ≠ mb) (h : Heap) :
    (h.applyOp op).impl mb = h.impl mb ∧ (h.applyOp op).cleaned.count mb = h.cleaned.count mb := by
  constructor
  · rw [Heap.applyOp_impl, RefOp.delta_of_ne hne, Int.add_zero]
  · cases op with
    | incr _ => rfl
    | decr mb' =>
        simp only [Heap.applyOp]
        split
        · have hzero : [mb'].count mb = 0 := List.count_eq_zero.2 (by simpa [RefOp.target] using Ne.symm hne)
          rw [List.count_append, hzero]
          rfl
        · rfl

theorem AccountsFor.cleanup_of_ne (h : s.AccountsFor mb refs) (hne : mb' ≠ mb) :
    (s.cleanup mb').AccountsFor mb refs := by
  have hcustody (place : Custody) : Function.update s.custody mb' place mb = s.custody mb :=
    Function.update_of_ne (Ne.symm hne) _ _
  unfold cleanup
  split
  · obtain ⟨himpl, hcleaned⟩ := applyOp_of_ne (.incr mb') hne s.heap
    refine h.congr himpl (hcustody .home) ?_ rfl hcleaned le_rfl
    have hzero : [mb'].count mb = 0 := List.count_eq_zero.2 (by simpa using Ne.symm hne)
    rw [List.count_append, hzero]
    rfl
  · exact h.congr rfl (hcustody .gone) rfl rfl rfl le_rfl

theorem cleaned_decr (h : Heap) (mb : ManagedBuffer) :
    (h.applyOp (.decr mb)).cleaned =
      if (h.impl mb).counter = 1 then h.cleaned ++ [mb] else h.cleaned := by
  simp only [Heap.applyOp]
  split <;> rfl

/-- The cleanup of the buffer whose last reference went. -/
theorem cleanup_self (hcounter : (s.heap.impl mb).counter = 0)
    (hready : s.ready.count mb = 0) (hturns : s.issued.count mb = s.heap.cleaned.count mb)
    (hallocated : mb < s.allocated) : (s.cleanup mb).AccountsFor mb 0 := by
  have hcustody (place : Custody) : Function.update s.custody mb place mb = place :=
    Function.update_self mb place s.custody
  unfold cleanup
  split
  · have hback : ((s.heap.applyOp (.incr mb)).impl mb).counter = 1 := by
      rw [Heap.applyOp_impl]
      simp [RefOp.delta, hcounter]
    refine ⟨fun h => ?_, fun _ => ⟨hback, rfl⟩, fun _ => rfl, ?_, ?_,
      fun h => absurd h hallocated.not_ge⟩
    · exact absurd ((hcustody .home).symm.trans h) (by decide)
    · simp [List.count_append, hready]
    · simp [hturns, Heap.applyOp, Heap.modify]
  · refine ⟨fun h => ?_, fun h => ?_, fun _ => rfl, ?_, ?_, fun h => absurd h hallocated.not_ge⟩
    · exact absurd ((hcustody .gone).symm.trans h) (by decide)
    · exact absurd ((hcustody .gone).symm.trans h) (by decide)
    · simp [hready]
    · simp [hturns]

theorem AccountsFor.applyRef_of_ne {op : RefOp} (h : s.AccountsFor mb refs) (hne : op.target ≠ mb)
    (hrun : s.applyRef op = .ok t) : t.AccountsFor mb refs := by
  obtain ⟨himpl, hcleaned⟩ := applyOp_of_ne op hne s.heap
  have hstep : AccountsFor { s with heap := s.heap.applyOp op } mb refs :=
    h.congr himpl rfl rfl rfl hcleaned le_rfl
  unfold applyRef at hrun
  split at hrun
  · cases op with
    | incr mb' =>
        cases hrun
        exact hstep
    | decr mb' =>
        obtain rfl := Except.ok.inj hrun
        split
        · exact hstep.cleanup_of_ne hne
        · exact hstep
  · cases hrun

/-- A step on a buffer that the program refers to. -/
theorem AccountsFor.applyRef {op : RefOp} (h : s.AccountsFor op.target refs) (hpos : 0 < refs) :
    ∃ t, s.applyRef op = .ok t ∧ t.AccountsFor op.target (refs + op.delta op.target) := by
  obtain ⟨hcustody, hcounter, -, hready, hturns, hallocated⟩ := h.isOut hpos
  have hcount : ((s.heap.applyOp op).impl op.target).counter = refs + op.delta op.target := by
    rw [Heap.applyOp_impl, hcounter]
  unfold BufferStore.applyRef
  rw [if_pos hcustody]
  cases op with
  | incr mb =>
      have hdelta : (RefOp.incr mb).delta mb = 1 := if_pos rfl
      refine ⟨_, rfl, IsOut.account ⟨hcustody, hcount, ?_, hready, hturns, hallocated⟩⟩
      dsimp only [RefOp.target]
      omega
  | decr mb =>
      have hdelta : (RefOp.decr mb).delta mb = -1 := if_pos rfl
      dsimp only [RefOp.target] at *
      rw [hdelta] at hcount ⊢
      refine ⟨_, rfl, ?_⟩
      have hcleaned := cleaned_decr s.heap mb
      split at hcleaned
      case isTrue hone =>
        have hzero : refs + -1 = 0 := by omega
        rw [if_pos hone, hzero]
        refine cleanup_self (hcount.trans hzero) hready ?_ hallocated
        dsimp only
        rw [hcleaned, hturns, List.count_append, List.count_singleton_self]
      case isFalse hmany =>
        rw [if_neg hmany]
        exact IsOut.account ⟨hcustody, hcount, by omega, hready, hcleaned ▸ hturns, hallocated⟩

/-- A step that finds no reference of the program. -/
theorem AccountsFor.applyRef_error {op : RefOp} (h : s.AccountsFor op.target refs)
    (hrun : s.applyRef op = .ok t) : 0 < refs := by
  refine h.out_iff.1 ?_
  unfold BufferStore.applyRef at hrun
  split at hrun
  · assumption
  · cases hrun

/-- **One reference step** is done exactly when its target has a reference. -/
theorem Accounts.applyRef (h : s.Accounts c) {op : RefOp} (hpos : 0 < c op.target) :
    ∃ t, s.applyRef op = .ok t ∧ t.Accounts fun mb => c mb + op.delta mb := by
  obtain ⟨t, hrun, hself⟩ := (h op.target).applyRef hpos
  refine ⟨t, hrun, fun mb => ?_⟩
  by_cases heq : op.target = mb
  · exact heq ▸ hself
  · have hsame := (h mb).applyRef_of_ne heq hrun
    simpa only [RefOp.delta_of_ne heq, Int.add_zero] using hsame

/-- **Reference steps in order.** -/
theorem Accounts.runRefs {ops : List RefOp} (h : s.Accounts c)
    (hcovered : Covered (fun _ => True) 1 c ops) :
    ∃ t, s.runRefs ops = .ok t ∧ t.Accounts fun mb => c mb + RefOp.net mb ops := by
  induction ops generalizing s c with
  | nil => exact ⟨s, rfl, by simpa using h⟩
  | cons op ops ih =>
      have hneed := hcovered.1 trivial
      have hpos : 0 < c op.target := by
        cases op <;> simp only [RefOp.need] at hneed <;> omega
      obtain ⟨u, hrun, hu⟩ := h.applyRef hpos
      obtain ⟨t, hruns, ht⟩ := ih hu hcovered.2
      refine ⟨t, ?_, ?_⟩
      · rw [BufferStore.runRefs, List.foldlM_cons, hrun]
        exact hruns
      · simpa only [RefOp.net_cons, Int.add_assoc] using ht

/-- A run of reference steps found a reference at each step. -/
theorem Accounts.covered {ops : List RefOp} (h : s.Accounts c) (hrun : s.runRefs ops = .ok t) :
    Covered (fun _ => True) 1 c ops := by
  induction ops generalizing s c with
  | nil => trivial
  | cons op ops ih =>
      rw [BufferStore.runRefs, List.foldlM_cons] at hrun
      cases hop : s.applyRef op with
      | error fault =>
          rw [hop] at hrun
          cases hrun
      | ok u =>
          rw [hop] at hrun
          have hpos := (h op.target).applyRef_error hop
          obtain ⟨u', hop', hu⟩ := h.applyRef hpos
          obtain rfl := Except.ok.inj (hop.symm.trans hop')
          refine ⟨fun _ => ?_, ih hu hrun⟩
          cases op <;> exact hpos

theorem applyRef_traffic {op : RefOp} (h : s.applyRef op = .ok t) : s.Traffic t := by
  unfold applyRef at h
  split at h
  · cases op with
    | incr mb =>
        cases h
        exact ⟨[.incr mb], rfl⟩
    | decr mb =>
        obtain rfl := Except.ok.inj h
        unfold cleanup
        split
        · split
          · exact ⟨[.decr mb, .incr mb], rfl⟩
          · exact ⟨[.decr mb], rfl⟩
        · exact ⟨[.decr mb], rfl⟩
  · cases h

theorem runRefs_traffic {ops : List RefOp} (h : s.runRefs ops = .ok t) : s.Traffic t := by
  induction ops generalizing s with
  | nil =>
      cases h
      exact ⟨[], rfl⟩
  | cons op ops ih =>
      rw [runRefs, List.foldlM_cons] at h
      cases hop : s.applyRef op with
      | error fault =>
          rw [hop] at h
          cases h
      | ok u =>
          rw [hop] at h
          obtain ⟨ops₁, hu⟩ := applyRef_traffic hop
          obtain ⟨ops₂, ht⟩ := ih h
          exact ⟨ops₁ ++ ops₂, by rw [ht, hu, Heap.apply_append]⟩

/-! ### New references -/

theorem Accounts.start (buffers : List (SharedBuffer × Option ManagedBuffer)) :
    (start buffers).Accounts fun _ => 0 := by
  intro mb
  by_cases hlt : mb < buffers.length
  · have hcustody : (BufferStore.start buffers).custody mb = .home := if_pos hlt
    have hget : buffers[mb]? = some buffers[mb] := List.getElem?_eq_getElem hlt
    refine ⟨fun h => ?_, fun _ => ⟨?_, rfl⟩, fun _ => rfl, ?_, ?_, fun h => absurd hlt h.not_gt⟩
    · rw [hcustody] at h
      cases h
    · simp [BufferStore.start, hget]
    · rw [hcustody, if_pos rfl]
      exact List.count_eq_one_of_mem List.nodup_range (List.mem_range.2 hlt)
    · rw [hcustody]
      rfl
  · have hcustody : (BufferStore.start buffers).custody mb = .gone := if_neg hlt
    have hget : buffers[mb]? = none := List.getElem?_eq_none (Nat.le_of_not_lt hlt)
    refine ⟨fun h => ?_, fun h => ?_, fun _ => rfl, ?_, ?_, fun _ => ⟨hcustody, ?_⟩⟩
    · rw [hcustody] at h
      cases h
    · rw [hcustody] at h
      cases h
    · rw [hcustody]
      exact List.count_eq_zero.2 fun h => hlt (List.mem_range.1 h)
    · rw [hcustody]
      rfl
    · simp [BufferStore.start, hget, Impl.fresh]

/-- One more reference of the program on one buffer. -/
def plusOne (c : ManagedBuffer → Int) (mb : ManagedBuffer) : ManagedBuffer → Int :=
  fun mb' => c mb' + if mb = mb' then 1 else 0

theorem Accounts.make (h : s.Accounts c) (buffer : SharedBuffer) (managed : Bool) :
    (s.make buffer managed).1.Accounts (plusOne c s.allocated) := by
  intro mb
  by_cases heq : s.allocated = mb
  · subst heq
    obtain ⟨hgone, -⟩ := (h s.allocated).fresh le_rfl
    have hzero := (h s.allocated).gone hgone
    have hready := (h s.allocated).ready
    have hturns := (h s.allocated).turns
    simp only [hgone, reduceCtorEq, if_false] at hready hturns
    refine IsOut.account ⟨Function.update_self _ _ _, ?_, ?_, hready, ?_, Nat.lt_succ_self _⟩
    · simp [BufferStore.make, Heap.create_impl, Impl.fresh, plusOne, hzero]
    · simp [plusOne, hzero]
    · simp only [BufferStore.make, List.count_append, List.count_singleton_self, hturns]
      rfl
  · have hone : plusOne c s.allocated mb = c mb := by simp [plusOne, heq]
    rw [hone]
    refine (h mb).congr ?_ (Function.update_of_ne (Ne.symm heq) _ _) rfl ?_ rfl (Nat.le_succ _)
    · simp [BufferStore.make, Heap.create_impl, Ne.symm heq]
    · simp [BufferStore.make, List.count_append, heq]

theorem checkOut_ok {index : Nat} (h : s.checkOut index = .ok (t, mb)) :
    s.ready[index]? = some mb ∧
      t = { s with
        custody := Function.update s.custody mb .out
        ready := s.ready.eraseIdx index
        issued := s.issued ++ [mb] } := by
  unfold checkOut at h
  cases hget : s.ready[index]? with
  | none =>
      rw [hget] at h
      cases h
  | some mb' =>
      rw [hget] at h
      cases h
      exact ⟨rfl, rfl⟩

theorem Accounts.checkOut {index : Nat} (h : s.Accounts c) (hrun : s.checkOut index = .ok (t, mb)) :
    t.Accounts (plusOne c mb) := by
  obtain ⟨hget, rfl⟩ := checkOut_ok hrun
  obtain ⟨hlt, rfl⟩ := List.getElem?_eq_some_iff.1 hget
  have hperm := List.getElem_cons_eraseIdx_perm hlt
  have hcount (mb : ManagedBuffer) := hperm.count_eq mb
  simp only [List.count_cons] at hcount
  intro mb
  by_cases heq : s.ready[index] = mb
  · have hready := (h mb).ready
    have hsame := hcount mb
    have hturns := (h mb).turns
    rw [heq] at hsame ⊢
    by_cases hhome : s.custody mb = .home
    · obtain ⟨hcounter, hzero⟩ := (h mb).home hhome
      simp only [hhome, reduceCtorEq, if_true, if_false] at hready hturns
      refine IsOut.account ⟨Function.update_self _ _ _, ?_, ?_, ?_, ?_, ?_⟩
      · simp [plusOne, hcounter, hzero]
      · simp [plusOne, hzero]
      · simp only [beq_self_eq_true, if_true] at hsame
        dsimp only
        omega
      · simp only [List.count_append, List.count_singleton_self, hturns]
      · refine Nat.lt_of_not_le fun hle => ?_
        have hgone := ((h mb).fresh hle).1
        rw [hhome] at hgone
        cases hgone
    · simp only [beq_self_eq_true, if_true] at hsame
      simp only [hhome, if_false] at hready
      omega
  · have hone : plusOne c s.ready[index] mb = c mb := by simp [plusOne, heq]
    have hsame := hcount mb
    simp only [heq, beq_iff_eq, if_false, Nat.add_zero] at hsame
    rw [hone]
    refine (h mb).congr rfl (Function.update_of_ne (Ne.symm heq) _ _) hsame ?_ rfl le_rfl
    simp [List.count_append, heq]

end BufferStore

end PothosCore.Framework

import Mathlib.Logic.Function.Basic
import PothosCore.Framework.SharedBuffer

/-!
# PothosCore.Framework.ManagedBuffer

`ManagedBuffer` is a counted handle on a heap-allocated `Impl`. The heap maps
each handle to its `Impl`; a null `ManagedBuffer` is `none`.

Reference traffic is kept explicit: the operations of the framework return the
increments and decrements they perform, in program order, as a list of `RefOp`,
and `Heap.apply` runs them. A decrement that drops the last reference is a
cleanup, which hands the buffer back to its manager; the heap records those in
the order in which they happen. Neither kind of operation touches the rest of
an `Impl`.
-/

namespace PothosCore.Framework

/-- A non-null `ManagedBuffer`: the address of its `Impl`. -/
abbrev ManagedBuffer := Nat

/-- `ManagedBuffer::Impl`. -/
structure Impl where
  counter : Int
  buffer : SharedBuffer
  slabIndex : Nat
  nextBuffer : Option ManagedBuffer
  deriving Repr, DecidableEq

/-- `Impl()`. -/
def Impl.fresh : Impl := ⟨1, SharedBuffer.null, 0, none⟩

/-- The managed buffers of a process. `cleaned` lists the buffers whose last
reference was dropped, oldest first. -/
structure Heap where
  impl : ManagedBuffer → Impl
  cleaned : List ManagedBuffer

namespace Heap

/-- A heap in which nothing was allocated. -/
def empty : Heap := ⟨fun _ => .fresh, []⟩

/-- `getBuffer()`; a null handle has the null buffer. -/
def buffer (h : Heap) : Option ManagedBuffer → SharedBuffer
  | none => SharedBuffer.null
  | some mb => (h.impl mb).buffer

/-- `useCount()`; a null handle has no uses. -/
def useCount (h : Heap) : Option ManagedBuffer → Int
  | none => 0
  | some mb => (h.impl mb).counter

/-- Change one `Impl`. -/
def modify (h : Heap) (mb : ManagedBuffer) (f : Impl → Impl) : Heap :=
  { h with impl := Function.update h.impl mb (f (h.impl mb)) }

/-- `reset(manager, buff, slabIndex)` on a handle that already has an `Impl`. -/
def reset (h : Heap) (mb : ManagedBuffer) (buff : SharedBuffer) (slabIndex : Nat) : Heap :=
  h.modify mb fun i => { i with buffer := buff, slabIndex := slabIndex }

/-- `reset(manager, buff, slabIndex)` on a null handle: a new `Impl` at `mb`. -/
def create (h : Heap) (mb : ManagedBuffer) (buff : SharedBuffer) (slabIndex : Nat) : Heap :=
  h.modify mb fun _ => { Impl.fresh with buffer := buff, slabIndex := slabIndex }

/-- `setNextBuffer(next)`. -/
def setNextBuffer (h : Heap) (mb next : ManagedBuffer) : Heap :=
  h.modify mb fun i => { i with nextBuffer := some next }

end Heap

/-! ### Reference traffic -/

/-- One step of the reference counting. -/
inductive RefOp
  | incr (mb : ManagedBuffer)
  | decr (mb : ManagedBuffer)
  deriving Repr, DecidableEq

/-- What a step does to the counter of `mb`. -/
def RefOp.delta (mb : ManagedBuffer) : RefOp → Int
  | .incr mb' => if mb' = mb then 1 else 0
  | .decr mb' => if mb' = mb then -1 else 0

/-- What a list of steps does to the counter of `mb`. -/
def RefOp.net (mb : ManagedBuffer) (ops : List RefOp) : Int := (ops.map (RefOp.delta mb)).sum

@[simp] theorem RefOp.net_nil (mb : ManagedBuffer) : RefOp.net mb [] = 0 := rfl

@[simp] theorem RefOp.net_cons (mb : ManagedBuffer) (op : RefOp) (ops : List RefOp) :
    RefOp.net mb (op :: ops) = op.delta mb + RefOp.net mb ops := rfl

@[simp] theorem RefOp.net_append (mb : ManagedBuffer) (ops ops' : List RefOp) :
    RefOp.net mb (ops ++ ops') = RefOp.net mb ops + RefOp.net mb ops' := by
  induction ops with
  | nil => simp
  | cons op ops ih => rw [List.cons_append, net_cons, net_cons, ih, Int.add_assoc]

namespace Heap

/-- `Impl::incr` and `Impl::decr`: the decrement that drops the last reference
cleans the buffer up. -/
def applyOp (h : Heap) : RefOp → Heap
  | .incr mb => h.modify mb fun i => { i with counter := i.counter + 1 }
  | .decr mb =>
      let h' := h.modify mb fun i => { i with counter := i.counter - 1 }
      if (h.impl mb).counter = 1 then { h' with cleaned := h'.cleaned ++ [mb] } else h'

/-- Run reference steps in order. -/
def apply (h : Heap) (ops : List RefOp) : Heap := ops.foldl applyOp h

@[simp] theorem apply_nil (h : Heap) : h.apply [] = h := rfl

@[simp] theorem apply_cons (h : Heap) (op : RefOp) (ops : List RefOp) :
    h.apply (op :: ops) = (h.applyOp op).apply ops := rfl

theorem apply_append (h : Heap) (ops ops' : List RefOp) :
    h.apply (ops ++ ops') = (h.apply ops).apply ops' := List.foldl_append

/-! Reference traffic leaves everything but the counters alone. -/

theorem applyOp_impl (h : Heap) (op : RefOp) (mb : ManagedBuffer) :
    (h.applyOp op).impl mb =
      { h.impl mb with counter := (h.impl mb).counter + op.delta mb } := by
  cases op with
  | incr mb' =>
      simp only [applyOp, modify, RefOp.delta, Function.update_apply]
      by_cases hmb : mb = mb'
      · subst hmb; simp
      · simp [hmb, Ne.symm hmb]
  | decr mb' =>
      have hmod : (h.applyOp (.decr mb')).impl =
          (h.modify mb' fun i => { i with counter := i.counter - 1 }).impl := by
        simp only [applyOp]; split <;> rfl
      rw [hmod]
      simp only [modify, RefOp.delta, Function.update_apply]
      by_cases hmb : mb = mb'
      · subst hmb; simp [Int.sub_eq_add_neg]
      · simp [hmb, Ne.symm hmb]

theorem apply_impl (h : Heap) (ops : List RefOp) (mb : ManagedBuffer) :
    (h.apply ops).impl mb =
      { h.impl mb with counter := (h.impl mb).counter + RefOp.net mb ops } := by
  induction ops generalizing h with
  | nil => simp
  | cons op ops ih =>
      rw [apply_cons, ih, applyOp_impl]
      simp [Int.add_assoc]

@[simp] theorem apply_counter (h : Heap) (ops : List RefOp) (mb : ManagedBuffer) :
    ((h.apply ops).impl mb).counter = (h.impl mb).counter + RefOp.net mb ops := by
  rw [apply_impl]

@[simp] theorem apply_impl_buffer (h : Heap) (ops : List RefOp) (mb : ManagedBuffer) :
    ((h.apply ops).impl mb).buffer = (h.impl mb).buffer := by rw [apply_impl]

@[simp] theorem apply_slabIndex (h : Heap) (ops : List RefOp) (mb : ManagedBuffer) :
    ((h.apply ops).impl mb).slabIndex = (h.impl mb).slabIndex := by rw [apply_impl]

@[simp] theorem apply_nextBuffer (h : Heap) (ops : List RefOp) (mb : ManagedBuffer) :
    ((h.apply ops).impl mb).nextBuffer = (h.impl mb).nextBuffer := by rw [apply_impl]

@[simp] theorem apply_buffer (h : Heap) (ops : List RefOp) (mb : Option ManagedBuffer) :
    (h.apply ops).buffer mb = h.buffer mb := by
  cases mb with
  | none => rfl
  | some mb => exact apply_impl_buffer h ops mb

/-- Slabs and chains are the same in both heaps: what a manager does after it
is set up. -/
def SameLinks (h h' : Heap) : Prop :=
  ∀ mb, (h'.impl mb).slabIndex = (h.impl mb).slabIndex ∧
    (h'.impl mb).nextBuffer = (h.impl mb).nextBuffer

theorem SameLinks.trans {h₁ h₂ h₃ : Heap} (h : SameLinks h₁ h₂) (h' : SameLinks h₂ h₃) :
    SameLinks h₁ h₃ :=
  fun mb => ⟨(h' mb).1.trans (h mb).1, (h' mb).2.trans (h mb).2⟩

theorem sameLinks_apply (h : Heap) (ops : List RefOp) : SameLinks h (h.apply ops) :=
  fun mb => ⟨apply_slabIndex h ops mb, apply_nextBuffer h ops mb⟩

theorem reset_impl (h : Heap) (mb mb' : ManagedBuffer) (b : SharedBuffer) (s : Nat) :
    (h.reset mb b s).impl mb' =
      if mb' = mb then { h.impl mb with buffer := b, slabIndex := s } else h.impl mb' := by
  simp [reset, modify, Function.update_apply]

theorem sameLinks_reset (h : Heap) (mb : ManagedBuffer) (b : SharedBuffer) :
    SameLinks h (h.reset mb b (h.impl mb).slabIndex) := by
  intro mb'
  rw [reset_impl]
  split
  · next hmb => rw [hmb]; exact ⟨rfl, rfl⟩
  · exact ⟨rfl, rfl⟩

theorem create_impl (h : Heap) (mb mb' : ManagedBuffer) (b : SharedBuffer) (s : Nat) :
    (h.create mb b s).impl mb' =
      if mb' = mb then { Impl.fresh with buffer := b, slabIndex := s } else h.impl mb' := by
  simp [create, modify, Function.update_apply]

theorem setNextBuffer_impl (h : Heap) (mb next mb' : ManagedBuffer) :
    (h.setNextBuffer mb next).impl mb' =
      if mb' = mb then { h.impl mb with nextBuffer := some next } else h.impl mb' := by
  simp [setNextBuffer, modify, Function.update_apply]

end Heap

end PothosCore.Framework

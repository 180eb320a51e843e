import PothosCore.Framework.BufferManager

/-!
# PothosCore.Framework.ManagerRotation

What a port relies on with either buffer manager. Both lend the memory of their front
part by part: a pop of less than half a buffer leaves the rest at the front, and any
other pop moves on to the next buffer. `Rotation` lists what follows for a manager in
use, whoever pops and in whichever order the buffers come back. Its core is `Past`: bytes
that the manager has gone past are not offered again until their buffer comes back.
-/

namespace PothosCore.Framework

open PothosCore.Lib

/-- Is `x` the address of a byte of the buffer, in either mapping? -/
def SharedBuffer.Maps (b : SharedBuffer) (x : Nat) : Prop :=
  b.address ≤ x ∧ x < max b.aliasAddress b.address + b.length

instance (b : SharedBuffer) (x : Nat) : Decidable (b.Maps x) := by
  unfold SharedBuffer.Maps; infer_instance

/-- Is `x` the address of a byte of the chunk? -/
def BufferChunk.Covers (c : BufferChunk) (x : Nat) : Prop := c.address ≤ x ∧ x < c.getEnd

instance (c : BufferChunk) (x : Nat) : Decidable (c.Covers x) := by
  unfold BufferChunk.Covers; infer_instance

/-- A manager that lends its front part by part. -/
class PartialManager (M : Type) extends BufferManager M where
  /-- `_bufferSize`. -/
  bufferSize : M → Nat
  /-- The bytes popped from the buffer at the front. -/
  bytesPopped : M → Nat
  /-- Does a pop of more than the front has take the front? Otherwise it asserts. -/
  clips : Bool

namespace Session

variable {M : Type} [PartialManager M]

/-- A pop of any size. What is handed out is at most what the front has. -/
def pop (s : Session M) (numBytes : Nat) : Except Fault (Session M) :=
  match s.call (.pop numBytes) with
  | .ok (mgr, heap) => .ok (s.record mgr heap (.pop (min numBytes s.front.length)))
  | .error e => .error e

/-- A pop of this size returns. -/
def Grants (s : Session M) (numBytes : Nat) : Prop :=
  BufferManager.empty s.mgr = false ∧ (PartialManager.clips M = true ∨ numBytes ≤ s.front.length)

instance (s : Session M) (numBytes : Nat) : Decidable (s.Grants numBytes) := by
  unfold Grants; infer_instance

/-- The front is what is left of its buffer: the bytes popped and the length of the front
add up, and the front ends where the memory of its buffer does. -/
def Consistent (s : Session M) : Prop :=
  BufferManager.empty s.mgr = false → ∃ mb, s.front.managedBuffer = some mb ∧
    s.front.address = (s.heap.impl mb).buffer.address + PartialManager.bytesPopped s.mgr ∧
    PartialManager.bytesPopped s.mgr + s.front.length = PartialManager.bufferSize s.mgr ∧
    (s.heap.impl mb).buffer.length = PartialManager.bufferSize s.mgr

/-- What a pop left. -/
theorem pop_inv {s s' : Session M} {numBytes : Nat} (h : s.pop numBytes = .ok s') :
    ∃ mgr heap, s.call (.pop numBytes) = .ok (mgr, heap) ∧
      s' = s.record mgr heap (.pop (min numBytes s.front.length)) := by
  unfold pop at h
  cases hcall : s.call (.pop numBytes) with
  | error e =>
      rw [hcall] at h
      cases h
  | ok r =>
      obtain ⟨mgr, heap⟩ := r
      rw [hcall] at h
      exact ⟨mgr, heap, rfl, (Except.ok.inj h).symm⟩

/-- A pop that the protocol admits. -/
theorem pop_of_step {s s' : Session M} {numBytes : Nat} (h : s.step (.pop numBytes) = some s') :
    s.pop numBytes = .ok s' := by
  obtain ⟨hadm, mgr, heap, hcall, rfl⟩ := step_inv h
  rw [pop, hcall, Nat.min_eq_left hadm]

/-- A pop that the protocol admits, from the call that returned. -/
theorem step_of_pop {s s' : Session M} {numBytes : Nat} (hadm : numBytes ≤ s.front.length)
    (h : s.pop numBytes = .ok s') : s.step (.pop numBytes) = some s' := by
  obtain ⟨mgr, heap, hcall, rfl⟩ := pop_inv h
  have hadmits : s.Admits (.pop numBytes) := hadm
  rw [step, if_pos hadmits, hcall, Nat.min_eq_left hadm]

end Session

/-- A manager in use, as its port sees it. -/
structure Rotation (M : Type) [PartialManager M] where
  /-- The states of the manager in use. -/
  Inv : Session M → Prop
  /-- The manager has gone past these bytes, and their buffer did not come back. -/
  Past : Session M → Handed → Prop
  /-- The memory of the manager. -/
  memory : SharedBuffer
  /-- Two addresses of one byte. -/
  Same : Nat → Nat → Prop
  bufferSize : Nat
  bufferSize_eq {s : Session M} : Inv s → PartialManager.bufferSize s.mgr = bufferSize
  pop_inv {s s' : Session M} {n : Nat} : Inv s → s.pop n = .ok s' → Inv s'
  push_inv {s s' : Session M} {mb : ManagedBuffer} : Inv s → s.step (.push mb) = some s' → Inv s'
  consistent {s : Session M} : Inv s → s.Consistent
  grants {s : Session M} {n : Nat} : Inv s → ((∃ s', s.pop n = .ok s') ↔ s.Grants n)
  /-- A pop of all that the front has, or of more, is one pop. -/
  clip {s : Session M} {n : Nat} : Inv s → PartialManager.clips M = true → BufferManager.empty s.mgr = false →
    s.front.length ≤ n → s.call (.pop n) = s.call (.pop s.front.length)
  /-- Without that, the front is mapped twice. -/
  mapped_twice {s : Session M} {c : BufferChunk} : Inv s → PartialManager.clips M = false →
    BufferManager.empty s.mgr = false → 0 < s.front.length → c.managedBuffer = s.front.managedBuffer →
    c.getAlias s.heap ≠ 0
  unlent {s : Session M} : Inv s → BufferManager.empty s.mgr = false →
    ∀ mb ∈ s.front.managedBuffer, mb ∉ s.out
  pop_front {s s' : Session M} {n : Nat} : Inv s → s.pop n = .ok s' →
    (BufferManager.empty s'.mgr = false ∧
      s'.front = { s.front with address := s.front.address + n, length := s.front.length - n }) ∨
    ∀ mb ∈ s.front.managedBuffer, mb ∈ s'.out
  push_front {s s' : Session M} {mb : ManagedBuffer} : Inv s → BufferManager.empty s.mgr = false →
    s.step (.push mb) = some s' → BufferManager.empty s'.mgr = false ∧ s'.front = s.front
  past_front {s : Session M} {mb : ManagedBuffer} : Inv s → BufferManager.empty s.mgr = false →
    s.front.managedBuffer = some mb → Past s ⟨mb, s.front.address, 0⟩
  past_pop {s s' : Session M} {e : Handed} {n : Nat} : Inv s → Past s e → s.pop n = .ok s' →
    Past s' { e with length := e.length + n } ∧
      (s'.heap.impl e.mb).buffer.address = (s.heap.impl e.mb).buffer.address ∧
      (s'.heap.impl e.mb).buffer.length = (s.heap.impl e.mb).buffer.length
  past_push {s s' : Session M} {e : Handed} {mb : ManagedBuffer} : Inv s → Past s e →
    s.step (.push mb) = some s' → e.mb ≠ mb →
    Past s' e ∧ (s'.heap.impl e.mb).buffer.address = (s.heap.impl e.mb).buffer.address ∧
      (s'.heap.impl e.mb).buffer.length = (s.heap.impl e.mb).buffer.length
  past_shorter {s : Session M} {e : Handed} {n : Nat} : Past s e → n ≤ e.length →
    Past s { e with length := n }
  /-- What the manager has gone past it does not offer. -/
  apart {s : Session M} {e : Handed} {x y : Nat} : Inv s → Past s e →
    e.address + e.length ≤ (s.heap.impl e.mb).buffer.getEnd → BufferManager.empty s.mgr = false →
    e.address ≤ x → x < e.address + e.length → s.front.Covers y → ¬ Same x y
  mapped {s : Session M} {y : Nat} : Inv s → BufferManager.empty s.mgr = false → s.front.Covers y →
    memory.Maps y
  same_refl (x : Nat) : Same x x
  same_maps {x y : Nat} : Same x y → x = y ∨ (memory.Maps x ∧ memory.Maps y)

namespace Rotation

variable {M : Type} [PartialManager M] (rot : Rotation M) {s s' : Session M}

/-- A call of the protocol keeps the manager in use. -/
theorem step_inv {op : ManagerOp} (hs : rot.Inv s) (h : s.step op = some s') : rot.Inv s' := by
  cases op with
  | pop n => exact rot.pop_inv hs (Session.pop_of_step h)
  | push mb => exact rot.push_inv hs h

/-- The front ends where the memory of its buffer does. -/
theorem front_getEnd (hs : rot.Inv s) (hne : BufferManager.empty s.mgr = false) {mb : ManagedBuffer}
    (hmb : s.front.managedBuffer = some mb) : s.front.getEnd = (s.heap.impl mb).buffer.getEnd := by
  obtain ⟨mb', hmb', haddr, hlen, hsize⟩ := rot.consistent hs hne
  obtain rfl : mb = mb' := Option.some.inj (hmb.symm.trans hmb')
  rw [BufferChunk.getEnd, SharedBuffer.getEnd, haddr, hsize]
  omega

theorem address_le_front (hs : rot.Inv s) (hne : BufferManager.empty s.mgr = false) {mb : ManagedBuffer}
    (hmb : s.front.managedBuffer = some mb) : (s.heap.impl mb).buffer.address ≤ s.front.address := by
  obtain ⟨mb', hmb', haddr, -⟩ := rot.consistent hs hne
  obtain rfl : mb = mb' := Option.some.inj (hmb.symm.trans hmb')
  rw [haddr]
  exact Nat.le_add_right _ _

end Rotation

end PothosCore.Framework

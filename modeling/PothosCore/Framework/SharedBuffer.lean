import PothosCore.Fault

/-!
# PothosCore.Framework.SharedBuffer

`SharedBuffer`: a region of memory, possibly mapped twice. A circular buffer
of length `L` at `A` is mapped at `[A, A + L)` and again at `[A + L, A + 2L)`;
`alias` is the address of the second mapping of its first byte, and `0` stands
for "no second mapping". A sub-buffer inherits the alias, shifted by its own
offset.
-/

namespace PothosCore.Framework

/-- `SharedBuffer`: address, length and alias (`0` when there is none). -/
structure SharedBuffer where
  address : Nat
  length : Nat
  aliasAddress : Nat
  deriving Repr, DecidableEq

namespace SharedBuffer

/-- `SharedBuffer::null()`. -/
def null : SharedBuffer := ⟨0, 0, 0⟩

/-- `getEnd()`. -/
def getEnd (b : SharedBuffer) : Nat := b.address + b.length

/-- `getAliasOffset()`. -/
def getAliasOffset (b : SharedBuffer) : Nat :=
  if b.aliasAddress ≠ 0 then b.aliasAddress - b.address else 0

/-- `SharedBuffer(address, length, buffer)`: a subset of a parent buffer. Only
the start is compared with the parent's start; the end may run to the end of the
second mapping. -/
def sub (address length : Nat) (buffer : SharedBuffer) : Except Fault SharedBuffer :=
  if buffer.address ≤ address ∧
      address + length ≤ max buffer.aliasAddress buffer.address + buffer.length then
    .ok { address := address, length := length,
          aliasAddress :=
            if buffer.aliasAddress ≠ 0 then buffer.aliasAddress + (address - buffer.address) else 0 }
  else .error (.thrown "SharedBufferError" "Pothos::SharedBuffer()" "not a subset")

/-- A buffer mapped twice in a row, as `makeCirc` returns it. -/
def Circular (b : SharedBuffer) : Prop := b.aliasAddress = b.address + b.length

/-- Inside the double mapping, a window that starts in the first mapping and is
no longer than the buffer is a legal sub-buffer. -/
theorem sub_of_circular {b : SharedBuffer} (hb : b.Circular) {address length : Nat}
    (hlo : b.address ≤ address) (hhi : address ≤ b.address + b.length) (hlen : length ≤ b.length) :
    sub address length b = .ok ⟨address, length, address + b.length⟩ := by
  have hend : address + length ≤ max b.aliasAddress b.address + b.length := by
    rw [hb, Nat.max_eq_left (by omega)]
    omega
  rw [sub, if_pos ⟨hlo, hend⟩]
  by_cases halias : b.aliasAddress = 0
  · have hzero : address + b.length = 0 := by rw [hb] at halias; omega
    simp [halias, hzero]
  · have : b.aliasAddress + (address - b.address) = address + b.length := by rw [hb]; omega
    rw [if_pos halias, this]

end SharedBuffer

end PothosCore.Framework

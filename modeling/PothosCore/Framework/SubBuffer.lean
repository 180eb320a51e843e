import PothosCore.Framework.BufferChunk
import PothosCore.Lib.Residue

/-!
# PothosCore.Framework.SubBuffer

`SharedBuffer(address, length, buffer)` in the arithmetic of `size_t`, where
sums wrap, and chains of such constructions from a mapping of memory.

The constructor compares the end of the new buffer with the larger of the
parent's address and alias plus the parent's length. Each level shifts the alias
by its own offset, so from the second level on the bound leaves the double
mapping, and a sum that wraps passes it anywhere. What a chain does keep is
`Reached`; the result is sound exactly when it is `Sound`.
-/

namespace PothosCore.Framework

open Lib

namespace SharedBuffer

/-- `SharedBuffer(address, length, buffer)` on a 64-bit machine. The alias is
shifted before the range is checked. -/
def subset (address length : UInt64) (buffer : SharedBuffer) : Except Fault SharedBuffer :=
  let shifted :=
    if buffer.aliasAddress ≠ 0 then
      SizeT.add buffer.aliasAddress (SizeT.sub address.toNat buffer.address)
    else 0
  if buffer.address ≤ address.toNat ∧
      SizeT.add address.toNat length.toNat ≤
        SizeT.add (max buffer.aliasAddress buffer.address) buffer.length then
    .ok ⟨address.toNat, length.toNat, shifted⟩
  else .error (.thrown "SharedBufferError" "Pothos::SharedBuffer()" "not a subset")

/-- Each construction takes the buffer before it as its parent. -/
def subsets (buffer : SharedBuffer) (calls : List (UInt64 × UInt64)) : Except Fault SharedBuffer :=
  calls.foldlM (fun parent call => subset call.1 call.2 parent) buffer

/-- `BufferChunk::getAlias()` on a 64-bit machine, for a chunk of this buffer. -/
def chunkAlias (buffer : SharedBuffer) (address : Nat) : Nat :=
  let offset := if buffer.aliasAddress ≠ 0 then SizeT.sub buffer.aliasAddress buffer.address else 0
  if buffer.aliasAddress = 0 then 0
  else if address > buffer.aliasAddress then SizeT.sub address offset
  else SizeT.add address offset

/-- What an accepted construction says. -/
theorem subset_ok {address length : UInt64} {buffer b : SharedBuffer}
    (h : subset address length buffer = .ok b) :
    buffer.address ≤ address.toNat ∧
      SizeT.add address.toNat length.toNat ≤
        SizeT.add (max buffer.aliasAddress buffer.address) buffer.length ∧
      b = ⟨address.toNat, length.toNat,
        if buffer.aliasAddress ≠ 0 then
          SizeT.add buffer.aliasAddress (SizeT.sub address.toNat buffer.address) else 0⟩ := by
  rw [subset] at h
  split at h
  case isTrue hrange => exact ⟨hrange.1, hrange.2, (Except.ok.inj h).symm⟩
  case isFalse => cases h

/-- Where no sum wraps, the constructor is `sub`. -/
theorem subset_eq_sub {address length : UInt64} {buffer : SharedBuffer}
    (hend : address.toNat + length.toNat < 2 ^ 64)
    (hbound : max buffer.aliasAddress buffer.address + buffer.length < 2 ^ 64)
    (halias : buffer.aliasAddress + address.toNat < 2 ^ 64) :
    subset address length buffer = sub address.toNat length.toNat buffer := by
  unfold subset sub
  rw [SizeT.add_eq hend, SizeT.add_eq hbound]
  by_cases hle : buffer.address ≤ address.toNat
  · rw [SizeT.sub_eq hle address.toNat_lt, SizeT.add_eq (by omega)]
  · simp only [hle, false_and, if_false]

/-- Where no difference or sum wraps, a chunk's alias is `BufferChunk.getAlias`. -/
theorem chunkAlias_eq_getAlias (h : Heap) (c : BufferChunk) (buffer : SharedBuffer)
    (hbuffer : c.getBuffer h = buffer) (hle : buffer.address ≤ buffer.aliasAddress)
    (halias : buffer.aliasAddress < 2 ^ 64)
    (hsum : c.address + (buffer.aliasAddress - buffer.address) < 2 ^ 64) :
    buffer.chunkAlias c.address = c.getAlias h := by
  unfold chunkAlias BufferChunk.getAlias getAliasOffset
  rw [hbuffer, SizeT.sub_eq hle halias]
  by_cases hzero : buffer.aliasAddress = 0
  · simp only [hzero, if_true]
  · simp only [hzero, ne_eq, not_false_eq_true, if_true, if_false]
    split
    case isTrue hgt => exact SizeT.sub_eq (by omega) (by omega)
    case isFalse => exact SizeT.add_eq hsum

end SharedBuffer

/-- Memory a shared buffer is made of: `[address, address + length)`, mapped a
second time behind itself when it is circular. Memory is not at the null address
and lies in the lower half of the address space. -/
structure Mapping where
  address : Nat
  length : Nat
  circular : Bool
  nonnull : 0 < address
  lowerHalf : address + (if circular then 2 else 1) * length ≤ 2 ^ 63

namespace Mapping

/-- The end of the mapping, of the second one for circular memory. -/
def getEnd (m : Mapping) : Nat := m.address + (if m.circular then 2 else 1) * m.length

/-- The buffer of the whole memory: `SharedBuffer(address, length, container)`,
with the alias that `makeCirc` sets. -/
def buffer (m : Mapping) : SharedBuffer :=
  ⟨m.address, m.length, if m.circular then m.address + m.length else 0⟩

/-- The buffer lies inside the mapping, and when that is circular, a chunk at
the start of the buffer or at any of its bytes has as its alias an address
inside the double mapping, of the same byte. -/
structure Holds (m : Mapping) (b : SharedBuffer) : Prop where
  start : m.address ≤ b.address
  finish : b.address + b.length ≤ m.getEnd
  aliased : m.circular → ∀ address, b.address ≤ address →
    (address = b.address ∨ address < b.address + b.length) →
      m.address ≤ b.chunkAlias address ∧ b.chunkAlias address < m.getEnd ∧
        b.chunkAlias address % m.length = address % m.length

/-- The end of a plain buffer does not wrap; a circular one stays in the first mapping. -/
def Sound (m : Mapping) (address length : Nat) : Prop :=
  if m.circular then address < m.address + m.length ∧ address + length ≤ m.address + m.length
  else address + length < 2 ^ 64

instance (m : Mapping) (address length : Nat) : Decidable (m.Sound address length) :=
  inferInstanceAs (Decidable (if m.circular then
    address < m.address + m.length ∧ address + length ≤ m.address + m.length
    else address + length < 2 ^ 64))

/-- What every chain of constructions keeps, wrapped or not. -/
structure Reached (m : Mapping) (b : SharedBuffer) : Prop where
  start : m.address ≤ b.address
  bounded : b.address < 2 ^ 64
  plain : ¬m.circular → b.aliasAddress = 0 ∧
    SizeT.add b.address b.length ≤ m.address + m.length
  shifted : m.circular → b.address + m.length < 2 ^ 64 →
    b.aliasAddress = b.address + m.length

variable {m : Mapping} {b : SharedBuffer}

theorem getEnd_le (m : Mapping) : m.getEnd ≤ 2 ^ 63 := m.lowerHalf

theorem getEnd_circular (hm : m.circular) : m.getEnd = m.address + 2 * m.length := by
  simp [getEnd, hm]

theorem getEnd_plain (hm : ¬m.circular) : m.getEnd = m.address + m.length := by
  simp [getEnd, hm]

theorem length_le (m : Mapping) : m.address + m.length ≤ m.getEnd := by
  unfold getEnd
  split <;> omega

@[simp] theorem buffer_address (m : Mapping) : m.buffer.address = m.address := rfl
@[simp] theorem buffer_length (m : Mapping) : m.buffer.length = m.length := rfl

/-- The buffer of the whole memory. -/
theorem reached_buffer (m : Mapping) : m.Reached m.buffer := by
  have hend := m.getEnd_le
  have hlength := m.length_le
  refine ⟨le_rfl, ?_, fun hm => ⟨?_, ?_⟩, fun hm _ => ?_⟩
  · rw [buffer_address]
    omega
  · simp [buffer, hm]
  · rw [buffer_address, buffer_length, SizeT.add_eq (by omega)]
  · simp [buffer, hm]

/-- One accepted construction. -/
theorem Reached.subset {address length : UInt64} {c : SharedBuffer} (h : m.Reached b)
    (hc : SharedBuffer.subset address length b = .ok c) : m.Reached c := by
  obtain ⟨hstart, hfinish, rfl⟩ := SharedBuffer.subset_ok hc
  refine ⟨h.start.trans hstart, address.toNat_lt, fun hm => ?_, fun hm hwrap => ?_⟩
  · obtain ⟨hzero, hbound⟩ := h.plain hm
    rw [hzero, Nat.zero_max] at hfinish
    exact ⟨by simp [hzero], hfinish.trans hbound⟩
  · -- The addresses of a chain only grow, so the parent's alias has not wrapped either.
    have halias := h.shifted hm (by dsimp only at hwrap; omega)
    have hpos : b.aliasAddress ≠ 0 := by
      have := m.nonnull
      have := h.start
      omega
    dsimp only at hwrap ⊢
    rw [if_pos hpos, halias, SizeT.sub_eq hstart address.toNat_lt,
      SizeT.add_eq (by omega)]
    omega

theorem Reached.subsets {calls : List (UInt64 × UInt64)} (h : m.Reached b) {c : SharedBuffer}
    (hc : b.subsets calls = .ok c) : m.Reached c := by
  induction calls generalizing b with
  | nil =>
      cases hc
      exact h
  | cons call calls ih =>
      rw [SharedBuffer.subsets, List.foldlM_cons] at hc
      cases hcall : SharedBuffer.subset call.1 call.2 b with
      | error fault =>
          rw [hcall] at hc
          cases hc
      | ok parent =>
          rw [hcall] at hc
          exact ih (h.subset hcall) hc

/-- The alias of a chunk of a circular buffer, where nothing wraps. -/
theorem Reached.chunkAlias (h : m.Reached b) (hm : m.circular)
    (hwrap : b.address + m.length < 2 ^ 64) {address : Nat}
    (hle : address ≤ b.address + m.length) (hsum : address + m.length < 2 ^ 64) :
    b.chunkAlias address = address + m.length := by
  have halias := h.shifted hm hwrap
  have hpos : b.aliasAddress ≠ 0 := by
    have := m.nonnull
    have := h.start
    omega
  have hoffset : SizeT.sub b.aliasAddress b.address = m.length := by
    rw [SizeT.sub_eq (by omega) (by omega)]
    omega
  unfold SharedBuffer.chunkAlias
  rw [if_pos hpos, if_neg hpos, hoffset, if_neg (by omega), SizeT.add_eq hsum]

theorem Reached.holds_plain (h : m.Reached b) (hm : ¬m.circular) :
    m.Holds b ↔ b.address + b.length < 2 ^ 64 := by
  have hend := m.getEnd_le
  constructor
  · intro hb
    have := hb.finish
    omega
  · intro hwrap
    obtain ⟨_, hbound⟩ := h.plain hm
    rw [SizeT.add_eq hwrap] at hbound
    exact ⟨h.start, (m.getEnd_plain hm).symm ▸ hbound, fun hcirc => absurd hcirc hm⟩

theorem Reached.holds_circular (h : m.Reached b) (hm : m.circular) :
    m.Holds b ↔ b.address < m.address + m.length ∧
      b.address + b.length ≤ m.address + m.length := by
  have hle := m.getEnd_le
  have hend := getEnd_circular hm
  have hstart := h.start
  constructor
  · intro hb
    have hfinish := hb.finish
    have hfirst : b.address < m.address + m.length := by
      obtain ⟨_, hinside, _⟩ := hb.aliased hm b.address le_rfl (.inl rfl)
      rw [h.chunkAlias hm (by omega) (by omega) (by omega)] at hinside
      omega
    refine ⟨hfirst, Nat.le_of_not_lt fun hcross => ?_⟩
    -- The first byte of the second mapping is not above the alias, and is sent past the end.
    obtain ⟨_, hinside, _⟩ :=
      hb.aliased hm (m.address + m.length) hfirst.le (.inr hcross)
    rw [h.chunkAlias hm (by omega) (by omega) (by omega)] at hinside
    omega
  · rintro ⟨hfirst, hlast⟩
    refine ⟨hstart, by omega, fun _ address hlo hhi => ?_⟩
    rw [h.chunkAlias hm (by omega) (by omega) (by omega)]
    exact ⟨by omega, by omega, Nat.add_mod_right address m.length⟩

/-- **Sub-buffers.** The buffer at the end of a chain of accepted constructions
is inside the memory, with the right alias, exactly when its end does not wrap
and it leaves the first mapping of circular memory alone. -/
theorem subsets_hold_iff (m : Mapping) (calls : List (UInt64 × UInt64)) (b : SharedBuffer)
    (h : m.buffer.subsets calls = .ok b) : m.Holds b ↔ m.Sound b.address b.length := by
  have hreached := m.reached_buffer.subsets h
  unfold Sound
  split
  case isTrue hm => exact hreached.holds_circular hm
  case isFalse hm => exact hreached.holds_plain hm

/-- Circular memory of one page. -/
def page : Mapping := ⟨0x10000, 0x1000, true, by decide, by decide⟩

theorem subsets_hold_page :
    page.buffer.subsets [(0x10400, 0x800), (0x10800, 0x800)] = .ok ⟨0x10800, 0x800, 0x11800⟩ ∧
      page.Holds ⟨0x10800, 0x800, 0x11800⟩ :=
  ⟨rfl, (subsets_hold_iff page [(0x10400, 0x800), (0x10800, 0x800)] ⟨0x10800, 0x800, 0x11800⟩
    rfl).2 (by decide)⟩

/-- The second page is a legal part of the first two, but has its alias behind
them; the third page is a legal part of the second, and is not mapped. -/
theorem subsets_leave_page :
    page.buffer.subsets [(0x11000, 0x1000)] = .ok ⟨0x11000, 0x1000, 0x12000⟩ ∧
      ¬page.Holds ⟨0x11000, 0x1000, 0x12000⟩ ∧
      page.buffer.subsets [(0x11000, 0x1000), (0x12000, 0x1000)] =
        .ok ⟨0x12000, 0x1000, 0x13000⟩ ∧
      ¬page.Holds ⟨0x12000, 0x1000, 0x13000⟩ := by
  refine ⟨rfl, fun h => ?_, rfl, fun h => ?_⟩
  · have hinside := (h.aliased rfl 0x11000 (by decide) (.inl rfl)).2.1
    exact absurd hinside (by decide)
  · exact absurd h.finish (by decide)

end Mapping

end PothosCore.Framework

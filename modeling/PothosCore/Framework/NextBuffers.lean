import PothosCore.Framework.ReferenceSteps
import PothosCore.Lib.Residue

/-!
# PothosCore.Framework.NextBuffers

`_incrNextBuffers` in the numbers of the machine. What remains of a chunk behind the end of
its buffer is an `int`, so a chunk that ends far before that end can appear to run past it,
and one that runs far past it to stay inside. The loop goes on as long as that number is
positive: a chain that leads back to itself can keep it so for ever.

`Counts` says how many next buffers the loop counts, without running it. Where chunks and
buffers are shorter than `2 ^ 31` bytes, the walk is that of `BufferChunk.copy`
(`copy_eq`).
-/

namespace PothosCore.Framework.NextBuffers

open PothosCore.Lib

/-- `int(n)` -/
def toInt (n : Int) : Int := Int.bmod n (2 ^ 32)

/-- `int lengthRemain = getEnd() - getBuffer().getEnd()` -/
def lengthRemain (h : Heap) (c : BufferChunk) : Int := toInt (c.getEnd - (c.getBuffer h).getEnd)

/-- The loop behind the buffer `mb`, for at most `rounds` rounds. -/
def countNext (h : Heap) : Nat → ManagedBuffer → Int → Option Nat
  | 0, _, _ => none
  | rounds + 1, mb, lengthRemain =>
      if lengthRemain ≤ 0 then some 0
      else
        match (h.impl mb).nextBuffer with
        | none => some 0
        | some next =>
            (countNext h rounds next (toInt (lengthRemain - (h.impl next).buffer.length))).map (· + 1)

/-- `_incrNextBuffers()`: the new value of `_nextBuffers`, which is of 64 bits. -/
def incrNextBuffers (h : Heap) (c : BufferChunk) : Except Fault Nat :=
  match c.managedBuffer with
  | none => .ok 0
  | some mb =>
      match countNext h (2 ^ 64) mb (lengthRemain h c) with
      | some nextBuffers => .ok nextBuffers
      | none => .error .diverged

/-- The copy constructor. -/
def copy (h : Heap) (c : BufferChunk) : Except Fault BufferChunk := do
  let nextBuffers ← incrNextBuffers h c
  .ok { c with nextBuffers := nextBuffers }

/-! ### What is counted -/

/-- Behind the buffer `mb` the loop counts `n` buffers: the `n`-th is the first with which
nothing remains, or the last of the chain. -/
def CountsFrom (h : Heap) : Nat → ManagedBuffer → Int → Prop
  | 0, mb, lengthRemain => lengthRemain ≤ 0 ∨ (h.impl mb).nextBuffer = none
  | n + 1, mb, lengthRemain =>
      0 < lengthRemain ∧ ∃ next, (h.impl mb).nextBuffer = some next ∧
        CountsFrom h n next (toInt (lengthRemain - (h.impl next).buffer.length))

/-- The chunk runs into `n` next buffers. -/
def Counts (h : Heap) (c : BufferChunk) (n : Nat) : Prop :=
  match c.managedBuffer with
  | none => n = 0
  | some mb => n < 2 ^ 64 ∧ CountsFrom h n mb (lengthRemain h c)

section
variable {h : Heap} {mb : ManagedBuffer} {remain : Int} {n : Nat}

theorem countNext_eq_some (rounds : Nat) (mb : ManagedBuffer) (remain : Int) :
    countNext h rounds mb remain = some n ↔ n < rounds ∧ CountsFrom h n mb remain := by
  induction rounds generalizing mb remain n with
  | zero => simp [countNext]
  | succ rounds ih =>
      rw [countNext]
      by_cases hremain : remain ≤ 0
      · rw [if_pos hremain]
        cases n with
        | zero => simp [CountsFrom, hremain]
        | succ n =>
            have hnot : ¬ 0 < remain := not_lt.mpr hremain
            simp [CountsFrom, hnot]
      · rw [if_neg hremain]
        cases hnext : (h.impl mb).nextBuffer with
        | none => cases n <;> simp [CountsFrom, hnext]
        | some next =>
            cases n with
            | zero => simp [CountsFrom, hnext, hremain]
            | succ n => simp [CountsFrom, hnext, not_le.mp hremain, ih]

variable {c w : BufferChunk}

/-- **The walk** ends with the number of buffers that the chunk runs into. -/
theorem incrNextBuffers_ok : incrNextBuffers h c = .ok n ↔ Counts h c n := by
  unfold incrNextBuffers Counts
  cases c.managedBuffer with
  | none => exact ⟨fun hn => (Except.ok.inj hn).symm, fun hn => congrArg _ hn.symm⟩
  | some mb =>
      have hcount := countNext_eq_some (h := h) (n := n) (2 ^ 64) mb (lengthRemain h c)
      dsimp only
      rw [← hcount]
      cases countNext h (2 ^ 64) mb (lengthRemain h c) <;> simp

theorem copy_ok : copy h c = .ok w ↔ ∃ n, Counts h c n ∧ w = { c with nextBuffers := n } := by
  unfold copy
  cases hn : incrNextBuffers h c with
  | error fault =>
      have hnot (n : Nat) : ¬ Counts h c n := fun hcounts => by
        rw [← incrNextBuffers_ok, hn] at hcounts
        cases hcounts
      constructor
      · intro hw
        cases hw
      · intro ⟨n, hcounts, _⟩
        exact absurd hcounts (hnot n)
  | ok n =>
      have hcounts := incrNextBuffers_ok.mp hn
      constructor
      · intro hw
        cases hw
        exact ⟨n, hcounts, rfl⟩
      · intro ⟨n', hcounts', hw⟩
        rw [← incrNextBuffers_ok, hn] at hcounts'
        cases hcounts'
        exact congrArg Except.ok hw.symm

/-- The buffers that are counted are there. -/
theorem length_chain (hn : CountsFrom h n mb remain) :
    (BufferChunk.chain h (h.impl mb).nextBuffer n).length = n := by
  induction n generalizing mb remain with
  | zero => simp [BufferChunk.chain]
  | succ n ih =>
      obtain ⟨-, next, hnext, hrest⟩ := hn
      rw [hnext, BufferChunk.chain, List.length_cons, ih hrest]

theorem length_nextList (hn : Counts h c n) :
    (BufferChunk.nextList h { c with nextBuffers := n }).length = n := by
  unfold Counts at hn
  unfold BufferChunk.nextList
  dsimp only
  cases hmb : c.managedBuffer with
  | none =>
      rw [hmb] at hn
      exact hn.symm
  | some mb =>
      rw [hmb] at hn
      exact length_chain hn.2

/-- A chunk that ends with its buffer. -/
theorem copy_of_lengthRemain (hc : lengthRemain h c ≤ 0) (hn : c.nextBuffers = 0) : copy h c = .ok c := by
  refine copy_ok.mpr ⟨0, ?_, ?_⟩
  · unfold Counts
    cases c.managedBuffer with
    | none => rfl
    | some mb => exact ⟨by decide, .inl hc⟩
  · rw [← hn]

/-- A chunk that ends where its buffer does, in addresses of 64 bits. -/
def Ends (h : Heap) (c : BufferChunk) : Prop :=
  c.getEnd % 2 ^ 64 = (c.getBuffer h).getEnd % 2 ^ 64 ∧ c.nextBuffers = 0

theorem ends_null (h : Heap) : Ends h .null := ⟨rfl, rfl⟩

theorem ends_ofManagedBuffer (h : Heap) (mb : ManagedBuffer) : Ends h (.ofManagedBuffer h mb) := ⟨rfl, rfl⟩

theorem Ends.copy (hc : Ends h c) : copy h c = .ok c := by
  refine copy_of_lengthRemain (le_of_eq ?_) hc.2
  refine Int.bmod_eq_zero_of_dvd ?_
  have hend := hc.1
  omega

/-- What is left of a chunk when its first bytes go, however many. -/
theorem Ends.rest (hc : Ends h c) (numBytes : Nat) : Ends h { c with
    address := SizeT.add c.address numBytes
    length := SizeT.sub c.length (numBytes % 2 ^ 64) } := by
  refine ⟨?_, hc.2⟩
  have hend := hc.1
  simp only [BufferChunk.getEnd, BufferChunk.getBuffer, SizeT.add, SizeT.sub] at hend ⊢
  omega

/-! ### Chunks and buffers that an `int` measures -/

theorem toInt_eq (hlow : -2 ^ 31 ≤ remain) (hhigh : remain < 2 ^ 31) : toInt remain = remain := by
  apply Int.bmod_eq_of_le
  · omega
  · omega

theorem countNext_eq (hbuffers : ∀ mb, 0 < (h.impl mb).buffer.length ∧ (h.impl mb).buffer.length < 2 ^ 31)
    (mb : ManagedBuffer) (rounds bound : Nat) (hbound : remain ≤ bound) (hrounds : remain < rounds)
    (hpos : 0 < rounds) (hremain : remain < 2 ^ 31) :
    countNext h rounds mb remain = some (BufferChunk.countNext h bound (h.impl mb).nextBuffer remain) := by
  induction rounds generalizing mb remain bound with
  | zero => exact absurd hpos (Nat.lt_irrefl 0)
  | succ rounds ih =>
      rw [countNext]
      cases bound with
      | zero => rw [if_pos (by omega), BufferChunk.countNext]
      | succ bound =>
          cases hnext : (h.impl mb).nextBuffer with
          | none => simp [BufferChunk.countNext]
          | some next =>
              rw [BufferChunk.countNext]
              by_cases hdone : remain ≤ 0
              · rw [if_pos hdone, if_neg (by omega)]
              · obtain ⟨hlen, hshort⟩ := hbuffers next
                rw [if_neg hdone, if_pos (by omega)]
                dsimp only
                rw [toInt_eq (by omega) (by omega), ih next bound (by omega) (by omega) (by omega) (by omega),
                  Option.map_some, Nat.add_comm]

/-- **Chunks and buffers shorter than `2 ^ 31` bytes** are copied as `BufferChunk.copy` has it. -/
theorem copy_eq (hbuffers : ∀ mb, 0 < (h.impl mb).buffer.length ∧ (h.impl mb).buffer.length < 2 ^ 31)
    (hlow : (c.getBuffer h).getEnd ≤ c.getEnd + 2 ^ 31) (hhigh : c.getEnd < (c.getBuffer h).getEnd + 2 ^ 31) :
    copy h c = .ok (c.copy h) := by
  have hremain : lengthRemain h c = c.getEnd - (c.getBuffer h).getEnd := toInt_eq (by omega) (by omega)
  unfold copy BufferChunk.copy incrNextBuffers BufferChunk.incrNextBuffers
  rw [hremain]
  cases c.managedBuffer with
  | none => rfl
  | some mb =>
      have hcount := countNext_eq hbuffers mb (2 ^ 64) ((c.getEnd : Int) - (c.getBuffer h).getEnd).toNat
        (Int.self_le_toNat _) (by push_cast; omega) (by decide) (by omega)
      dsimp only
      rw [hcount]
      rfl

end

end PothosCore.Framework.NextBuffers

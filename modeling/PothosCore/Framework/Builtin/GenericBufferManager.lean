import Mathlib.Data.List.Nodup
import PothosCore.Framework.Builtin.SlabQueue

/-!
# PothosCore.Framework.Builtin.GenericBufferManager

The generic buffer manager: every managed buffer has a slab of its own, cut
from one allocation, and the front is the unconsumed rest of the slab at the
head of the ready queue.

`pop` takes the new front from the queue. `push` does not: with an empty queue
it makes the returned buffer the front before the queue has seen it. The two
agree as long as a buffer returned to an empty queue is the next one in slab
order (`InOrder`); otherwise the queue parks it, and the front belongs to a
queue that is still empty.
-/

namespace PothosCore.Framework

open PothosCore.Lib PothosCore.Util

/-- `GenericBufferManager`. -/
structure GenericBufferManager where
  frontBuffer : BufferChunk
  bufferSize : Nat
  bytesPopped : Nat
  readyBuffs : OrderedQueue ManagedBuffer
  deriving Repr

namespace GenericBufferManager

/-- `empty()`. -/
def empty (m : GenericBufferManager) : Bool := m.readyBuffs.empty

/-- `pop(numBytes)`. -/
def pop (m : GenericBufferManager) (h : Heap) (numBytes : Nat) :
    Except Fault (GenericBufferManager × Heap) :=
  if m.readyBuffs.empty then .error (.assertion "not _readyBuffs.empty()")
  else
    let bytesPopped := m.bytesPopped + numBytes
    if bytesPopped * 2 < m.bufferSize then
      -- re-use the buffer for small consumes
      let buff := { m.frontBuffer.copy h with
        address := m.frontBuffer.address + numBytes
        length := m.frontBuffer.length - numBytes }
      let (front', h₁) := setFrontLocal h m.frontBuffer buff
      .ok ({ m with frontBuffer := front', bytesPopped := bytesPopped }, h₁)
    else do
      let readyBuffs ← m.readyBuffs.pop
      let h₁ := h.apply (m.readyBuffs.front.toList.map .decr)
      let (front', h₂) :=
        match readyBuffs.front with
        | none => setFrontBuffer h₁ m.frontBuffer .null
        | some buff => setFrontLocal h₁ m.frontBuffer (.ofManagedBuffer h₁ buff)
      .ok ({ m with frontBuffer := front', bytesPopped := 0, readyBuffs := readyBuffs }, h₂)

/-- `push(buff)`. -/
def push (m : GenericBufferManager) (h : Heap) (buff : ManagedBuffer) :
    Except Fault (GenericBufferManager × Heap) := do
  let (front', h₁) :=
    if m.readyBuffs.empty then setFrontLocal h m.frontBuffer (.ofManagedBuffer h buff)
    else (m.frontBuffer, h)
  let readyBuffs ← m.readyBuffs.push buff (h.impl buff).slabIndex
  .ok ({ m with frontBuffer := front', readyBuffs := readyBuffs }, h₁.apply [.incr buff])

instance : BufferManager GenericBufferManager where
  empty := empty
  front := frontBuffer
  pop := pop
  push := push

/-- The body of the loop of `init` that cuts the slab. -/
def initBuffer (commonSlab : SharedBuffer) (bufferSize first : Nat)
    (s : GenericBufferManager × Heap) (i : Nat) : Except Fault (GenericBufferManager × Heap) := do
  let addr := commonSlab.address + bufferSize * i
  let sharedBuff ← SharedBuffer.sub addr bufferSize commonSlab
  s.1.push (s.2.create (first + i) sharedBuff i) (first + i)

/-- `init(args)` of a fresh manager whose allocator returned `commonSlab`; the
managed buffers are allocated from `first` on. -/
def init (args : BufferManagerArgs) (commonSlab : SharedBuffer) (first : Nat) (h : Heap) :
    Except Fault (GenericBufferManager × Heap) := do
  let readyBuffs ← OrderedQueue.make args.numBuffers
  let m : GenericBufferManager := ⟨.null, args.bufferSize, 0, readyBuffs⟩
  let (m, h) ← (List.range args.numBuffers).foldlM
    (initBuffer commonSlab args.bufferSize first) (m, h)
  -- set the next buffer pointers
  let h := linkBuffers first args.numBuffers h
  -- the local vector of managed buffers goes out of scope
  .ok (m, h.apply ((List.range args.numBuffers).map fun i => .decr (first + i)))

end GenericBufferManager

/-! ### The invariant -/

/-- What a generic manager is made of: managed buffers in a row, and one
allocation with room for a slab for each. -/
structure Slabs extends Row where
  commonSlab : SharedBuffer
  bufferSize : Nat
  fits : numBuffers * bufferSize ≤ commonSlab.length

namespace Slabs

variable (p : Slabs)

/-- Where slab `s` starts. -/
def slabStart (s : Nat) : Nat := p.commonSlab.address + p.bufferSize * s

/-- Every managed buffer has its slab for memory. -/
def Laid (h : Heap) : Prop :=
  ∀ s < p.numBuffers, (h.impl (p.first + s)).buffer.address = p.slabStart s ∧
    (h.impl (p.first + s)).buffer.length = p.bufferSize

/-- Cutting a slab from the allocation never fails. -/
theorem sub_ok {s : Nat} (hs : s < p.numBuffers) :
    ∃ b, SharedBuffer.sub (p.slabStart s) p.bufferSize p.commonSlab = .ok b ∧
      b.address = p.slabStart s ∧ b.length = p.bufferSize := by
  have hcut : p.bufferSize * s + p.bufferSize ≤ p.commonSlab.length := by
    calc p.bufferSize * s + p.bufferSize = p.bufferSize * (s + 1) := rfl
      _ ≤ p.bufferSize * p.numBuffers := Nat.mul_le_mul_left _ hs
      _ = p.numBuffers * p.bufferSize := Nat.mul_comm _ _
      _ ≤ p.commonSlab.length := p.fits
  have hmax := Nat.le_max_right p.commonSlab.aliasAddress p.commonSlab.address
  have hin : p.commonSlab.address ≤ p.slabStart s ∧ p.slabStart s + p.bufferSize ≤
      max p.commonSlab.aliasAddress p.commonSlab.address + p.commonSlab.length := by
    unfold slabStart
    omega
  rw [SharedBuffer.sub, if_pos hin]
  exact ⟨_, rfl, rfl, rfl⟩

end Slabs

namespace GenericBufferManager

/-- What a generic manager keeps to whatever the order of the pushes. While no
slab is ready the front may be anything. -/
structure Stands (m : GenericBufferManager) (p : Slabs) (head tail : Nat) : Prop where
  bufferSize : m.bufferSize = p.bufferSize
  stock : p.Stock m.readyBuffs head tail
  bytesPopped : m.bytesPopped = 0 ∨ m.bytesPopped * 2 < p.bufferSize
  zero : head = tail → m.bytesPopped = 0
  front : head < tail → m.frontBuffer =
    ⟨p.slabStart (head % p.numBuffers) + m.bytesPopped, p.bufferSize - m.bytesPopped,
      .unspecified, some (p.ident head), 0⟩

/-- The invariant of a generic manager: the front is the rest of the slab of
the head check-out. -/
structure Offers (m : GenericBufferManager) (p : Slabs) (head tail : Nat) : Prop where
  bufferSize : m.bufferSize = p.bufferSize
  stock : p.Stock m.readyBuffs head tail
  bytesPopped : m.bytesPopped = 0 ∨ m.bytesPopped * 2 < p.bufferSize
  idle : head = tail → m.frontBuffer = .null ∧ m.bytesPopped = 0
  front : head < tail → m.frontBuffer =
    ⟨p.slabStart (head % p.numBuffers) + m.bytesPopped, p.bufferSize - m.bytesPopped,
      .unspecified, some (p.ident head), 0⟩

section
variable {m : GenericBufferManager} {h : Heap} {p : Slabs} {head tail : Nat}

theorem Offers.stands (w : Offers m p head tail) : Stands m p head tail where
  bufferSize := w.bufferSize
  stock := w.stock
  bytesPopped := w.bytesPopped
  zero := fun heq => (w.idle heq).2
  front := w.front

/-- As long as a slab is ready, that is the whole invariant. -/
theorem Stands.offers (w : Stands m p head tail) (hlt : head < tail) : Offers m p head tail where
  bufferSize := w.bufferSize
  stock := w.stock
  bytesPopped := w.bytesPopped
  idle := fun heq => absurd heq hlt.ne
  front := w.front

/-- The front made of a whole managed buffer. -/
theorem setFrontLocal_whole (front : BufferChunk) {mb : ManagedBuffer} {a n : Nat}
    (ha : (h.impl mb).buffer.address = a) (hn : (h.impl mb).buffer.length = n) :
    ∃ ops, setFrontLocal h front (.ofManagedBuffer h mb) =
      (⟨a, n, .unspecified, some mb, 0⟩, h.apply ops) := by
  obtain ⟨ops, hops⟩ : ∃ ops, setFrontLocal h front (.ofManagedBuffer h mb) =
      (BufferChunk.ofManagedBuffer h mb, h.apply ops) :=
    setFrontLocal_of_le h front (le_refl _) rfl
  refine ⟨ops, hops.trans ?_⟩
  rw [BufferChunk.ofManagedBuffer, ha, hn]

/-- A pop that leaves most of the slab offers the rest of it. -/
theorem pop_reuse (w : Offers m p head tail) (hl : p.Laid h) (hlt : head < tail) {numBytes : Nat}
    (hsmall : (m.bytesPopped + numBytes) * 2 < p.bufferSize) :
    ∃ m' ops, m.pop h numBytes = .ok (m', h.apply ops) ∧ Offers m' p head tail ∧
      m'.readyBuffs = m.readyBuffs ∧ m'.bytesPopped = m.bytesPopped + numBytes := by
  have hfront := w.front hlt
  obtain ⟨ha, hn⟩ := hl (head % p.numBuffers) (Nat.mod_lt _ p.pos)
  have hbytes := w.bytesPopped
  have hin : m.frontBuffer.getEnd ≤ (m.frontBuffer.getBuffer h).getEnd := by
    rw [hfront]
    simp only [BufferChunk.getEnd, BufferChunk.getBuffer, Heap.buffer, SharedBuffer.getEnd,
      Row.ident, ha, hn]
    omega
  let buff : BufferChunk := { m.frontBuffer with
    address := m.frontBuffer.address + numBytes, length := m.frontBuffer.length - numBytes }
  have hbuff : buff = ⟨p.slabStart (head % p.numBuffers) + (m.bytesPopped + numBytes),
      p.bufferSize - (m.bytesPopped + numBytes), .unspecified, some (p.ident head), 0⟩ := by
    simp only [buff, hfront, Nat.add_assoc, Nat.sub_sub]
  obtain ⟨ops, hops⟩ : ∃ ops, setFrontLocal h m.frontBuffer buff = (buff, h.apply ops) := by
    refine setFrontLocal_of_le h m.frontBuffer ?_ (by rw [hbuff])
    rw [hbuff]
    simp only [BufferChunk.getEnd, BufferChunk.getBuffer, Heap.buffer, SharedBuffer.getEnd,
      Row.ident, ha, hn]
    omega
  have hcopy : m.frontBuffer.copy h = m.frontBuffer :=
    BufferChunk.copy_of_le h _ hin (by rw [hfront])
  refine ⟨{ m with bytesPopped := m.bytesPopped + numBytes, frontBuffer := buff }, ops, ?_, ?_,
    rfl, rfl⟩
  · rw [pop, if_neg (by simp [w.stock.not_empty hlt]), if_pos (by rw [w.bufferSize]; exact hsmall)]
    simp only [hcopy]
    rw [show setFrontLocal h m.frontBuffer _ = _ from hops]
  · exact { w with
      bytesPopped := .inr hsmall
      idle := fun he => absurd he hlt.ne
      front := fun _ => hbuff }

/-- A pop that uses the slab up lends its managed buffer out. -/
theorem pop_move (w : Offers m p head tail) (hl : p.Laid h) (hlt : head < tail) {numBytes : Nat}
    (hbig : ¬ (m.bytesPopped + numBytes) * 2 < p.bufferSize) :
    ∃ m' ops, m.pop h numBytes = .ok (m', h.apply ops) ∧ Offers m' p (head + 1) tail ∧
      (∀ k, p.Lent m'.readyBuffs (head + 1) tail k ↔
        p.Lent m.readyBuffs head tail k ∨ k = head) ∧ m'.bytesPopped = 0 := by
  obtain ⟨q', hpop, hstock, hlent⟩ := w.stock.pop hlt
  let h₁ := h.apply [.decr (p.ident head)]
  have hunfold : m.pop h numBytes =
      let (front', h₂) :=
        match q'.front with
        | none => setFrontBuffer h₁ m.frontBuffer .null
        | some buff => setFrontLocal h₁ m.frontBuffer (.ofManagedBuffer h₁ buff)
      .ok ({ m with frontBuffer := front', bytesPopped := 0, readyBuffs := q' }, h₂) := by
    rw [pop, if_neg (by simp [w.stock.not_empty hlt]),
      if_neg (by rw [w.bufferSize]; exact hbig), hpop, w.stock.front_eq hlt]
    rfl
  rw [hunfold]
  rcases Nat.lt_or_eq_of_le (Nat.succ_le_of_lt hlt) with hlt' | heq
  · obtain ⟨ha, hn⟩ := hl ((head + 1) % p.numBuffers) (Nat.mod_lt _ p.pos)
    rw [← Heap.apply_impl_buffer h [.decr (p.ident head)]] at ha hn
    obtain ⟨ops, hops⟩ := setFrontLocal_whole m.frontBuffer ha hn
    have hops' : setFrontLocal h₁ m.frontBuffer (.ofManagedBuffer h₁ (p.ident (head + 1))) =
      _ := hops
    simp only [hstock.front_eq hlt', hops']
    refine ⟨_, [.decr (p.ident head)] ++ ops, by rw [Heap.apply_append], ?_, hlent, rfl⟩
    exact {
      bufferSize := w.bufferSize, stock := hstock, bytesPopped := .inl rfl
      idle := fun he => absurd he hlt'.ne
      front := fun _ => rfl }
  · simp only [hstock.front_none heq, setFrontBuffer]
    refine ⟨_, [.decr (p.ident head)] ++ _, by rw [Heap.apply_append], ?_, hlent, rfl⟩
    exact {
      bufferSize := w.bufferSize, stock := hstock, bytesPopped := .inl rfl
      idle := fun _ => ⟨rfl, rfl⟩
      front := fun hlt' => absurd heq hlt'.ne }

/-- A push never fails. The front is the next slab when the buffer is the next one
in slab order, or the queue is not empty. -/
theorem push_spec (w : Stands m p head tail) {s : Nat}
    (hslab : (h.impl (p.first + s)).slabIndex = s)
    (ha : (h.impl (p.first + s)).buffer.address = p.slabStart s)
    (hn : (h.impl (p.first + s)).buffer.length = p.bufferSize)
    (hs : m.readyBuffs.CheckedOut p.slab s) :
    ∃ m' ops tail', m.push h (p.first + s) = .ok (m', h.apply ops) ∧
      Stands m' p head tail' ∧
      (∀ k, p.Lent m'.readyBuffs head tail' k ↔
        p.Lent m.readyBuffs head tail k ∧ k % p.numBuffers ≠ s) ∧
      (∀ s', m'.readyBuffs.CheckedOut p.slab s' ↔ m.readyBuffs.CheckedOut p.slab s' ∧ s' ≠ s) ∧
      tail ≤ tail' ∧ (s = m.readyBuffs.indexToAck → tail < tail') ∧
      (s ≠ m.readyBuffs.indexToAck → tail' = tail) ∧
      m'.bytesPopped = m.bytesPopped ∧ (head < tail → m'.frontBuffer = m.frontBuffer) ∧
      (head = tail → m'.frontBuffer =
        ⟨p.slabStart s, p.bufferSize, .unspecified, some (p.first + s), 0⟩) ∧
      ((m.readyBuffs.empty = true → s = m.readyBuffs.indexToAck) → Offers m' p head tail') := by
  obtain ⟨q', tail', hpush, hstock, hlt, hle, hin, hstay, hout, hlent⟩ := w.stock.push hs
  rcases Nat.lt_or_eq_of_le w.stock.head_le with hlt' | heq
  · -- the front was there before, and stays
    have hw' : Offers { m with readyBuffs := q' } p head tail' :=
      { w.offers hlt' with
        stock := hstock
        idle := fun he => absurd he (hlt'.trans_le hle).ne
        front := fun _ => w.front hlt' }
    refine ⟨{ m with readyBuffs := q' }, [.incr (p.first + s)], tail', ?_, hw'.stands, hlent, hout,
      hle, hin, hstay, rfl, fun _ => rfl, fun he => absurd he hlt'.ne, fun _ => hw'⟩
    rw [push, hslab, hpush]
    simp only [w.stock.not_empty hlt']
    rfl
  · have hzero := w.zero heq
    obtain ⟨ops, hops⟩ := setFrontLocal_whole m.frontBuffer ha hn
    -- the buffer is the head check-out as soon as the queue hands it on
    have hfront : head < tail' → s = head % p.numBuffers := by
      intro hlt'
      by_contra hne
      refine (heq ▸ hlt').ne (hstay fun hack => hne ?_).symm
      rw [hack, w.stock.serving.ack, w.stock.capacity, heq]
    have hw' : Stands { m with
        frontBuffer := ⟨p.slabStart s, p.bufferSize, .unspecified, some (p.first + s), 0⟩
        readyBuffs := q' } p head tail' :=
      { bufferSize := w.bufferSize, stock := hstock, bytesPopped := .inl hzero
        zero := fun _ => hzero
        front := fun hlt' => by
          simp only [hzero, Nat.add_zero, Nat.sub_zero, ← hfront hlt', Row.ident] }
    refine ⟨_, ops ++ [.incr (p.first + s)], tail', ?_, hw', hlent, hout, hle, hin,
      hstay, rfl, fun hlt' => absurd heq hlt'.ne, fun _ => rfl, fun hack => ?_⟩
    · rw [push, hslab, hpush, hops, Heap.apply_append]
      simp only [w.stock.empty_iff.mpr heq]
      rfl
    · exact hw'.offers (heq ▸ hin (hack (w.stock.empty_iff.mpr heq)))

end

/-! ### The initial state -/

/-- After the first `i` rounds of the loop of `init`. -/
structure Made (m : GenericBufferManager) (h : Heap) (p : Slabs) (i : Nat) : Prop where
  offers : Offers m p 0 i
  bytesPopped : m.bytesPopped = 0
  filled : p.Filled m.readyBuffs i
  slab : ∀ s < i, (h.impl (p.first + s)).slabIndex = s
  laid : ∀ s < i, (h.impl (p.first + s)).buffer.address = p.slabStart s ∧
    (h.impl (p.first + s)).buffer.length = p.bufferSize

theorem Made.step {m : GenericBufferManager} {h : Heap} {p : Slabs} {i : Nat}
    (hm : Made m h p i) (hi : i < p.numBuffers) :
    ∃ m' h', initBuffer p.commonSlab p.bufferSize p.first (m, h) i = .ok (m', h') ∧
      Made m' h' p (i + 1) := by
  obtain ⟨b, hb, hba, hbn⟩ := p.sub_ok hi
  let h₁ := h.create (p.first + i) b i
  have hother : ∀ s, s < i → h₁.impl (p.first + s) = h.impl (p.first + s) := by
    intro s hs
    rw [Heap.create_impl, if_neg fun he => hs.ne (Nat.add_left_cancel he)]
  have hself : h₁.impl (p.first + i) = { Impl.fresh with buffer := b, slabIndex := i } := by
    rw [Heap.create_impl, if_pos rfl]
  obtain ⟨m', ops, tail', hpush, hstands, -, hout, hle, hin, -, hbytes, -, -, hoffers⟩ :=
    push_spec (h := h₁) hm.offers.stands (s := i) (by rw [hself]) (by rw [hself]; exact hba)
      (by rw [hself]; exact hbn) (hm.filled.checkedOut hi)
  have hack : i = m.readyBuffs.indexToAck := by
    rw [hm.filled.stock.serving.ack, hm.filled.stock.capacity, Nat.mod_eq_of_lt hi]
  obtain ⟨rfl, hfilled⟩ := hm.filled.push hi hstands.stock hin hout
  refine ⟨m', h₁.apply ops, ?_, hoffers fun _ => hack, hbytes.trans hm.bytesPopped, hfilled,
    fun s hs => ?_, fun s hs => ?_⟩
  · rw [initBuffer]
    show (SharedBuffer.sub (p.slabStart i) p.bufferSize p.commonSlab >>= _) = _
    rw [hb]
    exact hpush
  · rw [Heap.apply_slabIndex]
    rcases Nat.lt_succ_iff_lt_or_eq.mp hs with hs' | rfl
    · rw [hother s hs']; exact hm.slab s hs'
    · rw [hself]
  · rw [Heap.apply_impl_buffer]
    rcases Nat.lt_succ_iff_lt_or_eq.mp hs with hs' | rfl
    · rw [hother s hs']; exact hm.laid s hs'
    · rw [hself]; exact ⟨hba, hbn⟩

/-- **`init`.** A manager is set up without a fault: all its buffers are ready,
each has its slab, and the first one is at the front. -/
theorem init_spec (p : Slabs) (h : Heap) :
    ∃ m h', init ⟨p.numBuffers, p.bufferSize⟩ p.commonSlab p.first h = .ok (m, h') ∧
      Offers m p 0 p.numBuffers ∧ m.bytesPopped = 0 ∧ p.Slabbed h' ∧ p.Laid h' := by
  obtain ⟨q, hq, hfilled⟩ := p.make_filled
  let m₀ : GenericBufferManager := ⟨.null, p.bufferSize, 0, q⟩
  have hzero : Made m₀ h p 0 := by
    refine ⟨⟨rfl, hfilled.stock, .inl rfl, fun _ => ⟨rfl, rfl⟩, fun hlt => ?_⟩, rfl, hfilled,
      fun s hs => absurd hs (Nat.not_lt_zero s), fun s hs => absurd hs (Nat.not_lt_zero s)⟩
    exact absurd hlt (Nat.lt_irrefl 0)
  have hloop : ∀ n, n ≤ p.numBuffers → ∃ m h',
      (List.range n).foldlM (initBuffer p.commonSlab p.bufferSize p.first) (m₀, h) = .ok (m, h') ∧
        Made m h' p n := by
    intro n hn
    induction n with
    | zero => exact ⟨m₀, h, rfl, hzero⟩
    | succ n ih =>
        obtain ⟨m, h', hfold, hm⟩ := ih (by omega)
        obtain ⟨m', h'', hstep, hm'⟩ := hm.step hn
        refine ⟨m', h'', ?_, hm'⟩
        rw [List.range_succ, List.foldlM_append, hfold]
        show (initBuffer _ _ _ (m, h') n >>= fun s => pure s) = _
        rw [hstep]
        rfl
  obtain ⟨m, h₁, hfold, hm⟩ := hloop p.numBuffers (le_refl _)
  refine ⟨m, (linkBuffers p.first p.numBuffers h₁).apply
    ((List.range p.numBuffers).map fun i => .decr (p.first + i)), ?_, hm.offers,
    hm.bytesPopped, fun s hs => ?_, fun s hs => ?_⟩
  · simp only [init, hq]
    show ((List.range p.numBuffers).foldlM
      (initBuffer p.commonSlab p.bufferSize p.first) (m₀, h) >>= _) = _
    rw [hfold]
    rfl
  · rw [Heap.apply_slabIndex, linkBuffers_impl]
    exact hm.slab s hs
  · rw [Heap.apply_impl_buffer, linkBuffers_impl]
    exact hm.laid s hs

end GenericBufferManager

end PothosCore.Framework

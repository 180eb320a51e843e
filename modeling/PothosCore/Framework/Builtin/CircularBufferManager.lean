import PothosCore.Framework.Builtin.SlabQueue

/-!
# PothosCore.Framework.Builtin.CircularBufferManager

The circular buffer manager. All its managed buffers share one double-mapped
buffer; the window of the buffer at the front starts where the bytes handed out
so far end.

`Windows` is its invariant: the window of check-out `k` starts at the absolute
byte position `start k`. Consecutive starts are at most `bufferSize` apart, so
the windows not yet returned, of which there are at most `numBuffers` with the
front, span at most `numBuffers * bufferSize` positions. That span fits the
buffer, and positions closer than its length never meet modulo it.
-/

namespace PothosCore.Framework

open PothosCore.Lib PothosCore.Util

/-- `CircularBufferManager`. -/
structure CircularBufferManager where
  frontBuffer : BufferChunk
  frontAddress : Nat
  bufferSize : Nat
  bytesToPop : Nat
  circBuff : SharedBuffer
  readyBuffs : OrderedQueue ManagedBuffer
  deriving Repr

namespace CircularBufferManager

/-- `setCircFrontBuffer(buff)`. -/
def setCircFrontBuffer (m : CircularBufferManager) (h : Heap) (buff : ManagedBuffer) :
    Except Fault (CircularBufferManager × Heap) := do
  let sbuff ← SharedBuffer.sub m.frontAddress m.bufferSize m.circBuff
  let h₁ := h.reset buff sbuff (h.impl buff).slabIndex
  let (front', h₂) := setFrontLocal h₁ m.frontBuffer (.ofManagedBuffer h₁ buff)
  .ok ({ m with frontBuffer := front' }, h₂)

/-- `empty()`. -/
def empty (m : CircularBufferManager) : Bool := m.readyBuffs.empty

/-- The first half of `pop`: part of the front is consumed and the rest is
offered again. -/
def reuseFront (m : CircularBufferManager) (h : Heap) (numBytes : Nat) :
    CircularBufferManager × Heap :=
  let buff := { m.frontBuffer.copy h with
    address := m.frontBuffer.address + numBytes
    length := m.frontBuffer.length - numBytes }
  let (front', h') := setFrontLocal h m.frontBuffer buff
  ({ m with frontBuffer := front' }, h')

/-- `pop(numBytes)`. -/
def pop (m : CircularBufferManager) (h : Heap) (numBytes : Nat) :
    Except Fault (CircularBufferManager × Heap) :=
  if m.readyBuffs.empty then .error (.assertion "not _readyBuffs.empty()")
  else
    let bytesToPop := m.bytesToPop + numBytes
    if bytesToPop * 2 < m.bufferSize then
      -- re-use the buffer for small consumes
      .ok (reuseFront { m with bytesToPop := bytesToPop } h numBytes)
    else do
      let readyBuffs ← m.readyBuffs.pop
      let h₁ := h.apply (m.readyBuffs.front.toList.map .decr)
      if m.bufferSize < bytesToPop then .error (.assertion "_bufferSize >= _bytesToPop")
      else
        -- increment front address and adjust for aliasing
        let frontAddress := m.frontAddress + bytesToPop
        let frontAddress :=
          if m.circBuff.address + m.circBuff.length ≤ frontAddress
          then frontAddress - m.circBuff.length else frontAddress
        let m₁ := { m with
          frontAddress := frontAddress, bytesToPop := 0, readyBuffs := readyBuffs }
        -- prepare the next buffer in the queue
        match readyBuffs.front with
        | none =>
            let (front', h₂) := setFrontBuffer h₁ m.frontBuffer .null
            .ok ({ m₁ with frontBuffer := front' }, h₂)
        | some buff => m₁.setCircFrontBuffer h₁ buff

/-- `push(buff)`. -/
def push (m : CircularBufferManager) (h : Heap) (buff : ManagedBuffer) :
    Except Fault (CircularBufferManager × Heap) :=
  if m.readyBuffs.capacity ≤ (h.impl buff).slabIndex then
    .error (.assertion "buff.getSlabIndex() < _readyBuffs.capacity()")
  else do
    let wasEmpty := m.readyBuffs.empty
    let readyBuffs ← m.readyBuffs.push buff (h.impl buff).slabIndex
    let m₁ := { m with readyBuffs := readyBuffs }
    let h₁ := h.apply [.incr buff]
    -- prepare the next buffer in the queue
    match readyBuffs.front with
    | none => .ok (m₁, h₁)
    | some front => if wasEmpty then m₁.setCircFrontBuffer h₁ front else .ok (m₁, h₁)

instance : BufferManager CircularBufferManager where
  empty := empty
  front := frontBuffer
  pop := pop
  push := push

/-- The body of the loop of `init` that makes the managed buffers. -/
def initBuffer (circBuff : SharedBuffer) (first : Nat) (s : CircularBufferManager × Heap)
    (i : Nat) : Except Fault (CircularBufferManager × Heap) :=
  s.1.push (s.2.create (first + i) circBuff i) (first + i)

/-- `init(args)` of a fresh manager whose allocator returned `circBuff`; the
managed buffers are allocated from `first` on. -/
def init (args : BufferManagerArgs) (circBuff : SharedBuffer) (first : Nat) (h : Heap) :
    Except Fault (CircularBufferManager × Heap) := do
  let readyBuffs ← OrderedQueue.make args.numBuffers
  let m : CircularBufferManager :=
    ⟨.null, circBuff.address, args.bufferSize, 0, circBuff, readyBuffs⟩
  let (m, h) ← (List.range args.numBuffers).foldlM (initBuffer circBuff first) (m, h)
  -- set the next buffer pointers
  let h := linkBuffers first args.numBuffers h
  let h := h.setNextBuffer (first + (args.numBuffers - 1)) first
  -- the local vector of managed buffers goes out of scope
  .ok (m, h.apply ((List.range args.numBuffers).map fun i => .decr (first + i)))

end CircularBufferManager

/-! ### The window invariant -/

/-- What a circular manager is made of: managed buffers in a row, and a
double-mapped buffer that has room for all their windows. -/
structure Ring extends Row where
  circBuff : SharedBuffer
  bufferSize : Nat
  circular : circBuff.Circular
  fits : numBuffers * bufferSize ≤ circBuff.length

namespace Ring

variable (r : Ring)

/-- Absolute stream position `p`, as an address of the first mapping. -/
def addressAt (p : Nat) : Nat := r.circBuff.address + p % r.circBuff.length

/-- The memory of a managed buffer whose window starts at position `p`. -/
def window (p : Nat) : SharedBuffer :=
  ⟨r.addressAt p, r.bufferSize, r.addressAt p + r.circBuff.length⟩

theorem bufferSize_le : r.bufferSize ≤ r.circBuff.length :=
  (Nat.le_mul_of_pos_left _ r.pos).trans r.fits

/-- The front address after `n` more bytes, wrapped into the first mapping. -/
theorem addressAt_add {p n : Nat} (hn : n ≤ r.bufferSize) :
    (if r.circBuff.address + r.circBuff.length ≤ r.addressAt p + n
      then r.addressAt p + n - r.circBuff.length else r.addressAt p + n) =
      r.addressAt (p + n) := by
  have hle := hn.trans r.bufferSize_le
  by_cases hL : r.circBuff.length = 0
  · obtain rfl : n = 0 := by omega
    simp [hL]
  · have hlt := Nat.mod_lt p (Nat.pos_of_ne_zero hL)
    unfold Ring.addressAt
    rw [add_mod_of_le (Nat.pos_of_ne_zero hL) hle]
    split <;> split <;> omega

theorem addressAt_add_mod (p d : Nat) :
    (r.addressAt p + d) % r.circBuff.length = (r.circBuff.address + (p + d)) % r.circBuff.length := by
  rw [addressAt, Nat.add_assoc, ← Nat.add_mod_mod, Nat.mod_add_mod, Nat.add_mod_mod]

end Ring

namespace CircularBufferManager

/-- The manager but for its cached front: `head` check-outs were popped, `tail`
became ready, and the window of check-out `k` starts at position `start k`. -/
structure Queued (m : CircularBufferManager) (h : Heap) (r : Ring) (head tail : Nat)
    (start : Nat → Nat) : Prop where
  circBuff : m.circBuff = r.circBuff
  bufferSize : m.bufferSize = r.bufferSize
  stock : r.Stock m.readyBuffs head tail
  start_zero : start 0 = 0
  start_mono : ∀ k < head, start k ≤ start (k + 1)
  start_step : ∀ k < head, start (k + 1) ≤ start k + r.bufferSize
  frontAddress : m.frontAddress = r.addressAt (start head)
  lent : ∀ k, r.Lent m.readyBuffs head tail k → (h.impl (r.ident k)).buffer = r.window (start k)

/-- The invariant of a circular manager between calls. -/
structure Windows (m : CircularBufferManager) (h : Heap) (r : Ring) (head tail : Nat)
    (start : Nat → Nat) : Prop extends Queued m h r head tail start where
  bytesToPop : m.bytesToPop = 0 ∨ m.bytesToPop * 2 < r.bufferSize
  idle : head = tail → m.frontBuffer = .null ∧ m.bytesToPop = 0
  front : head < tail → m.frontBuffer =
    ⟨r.addressAt (start head) + m.bytesToPop, r.bufferSize - m.bytesToPop, .unspecified,
      some (r.ident head), 0⟩
  front_held : head < tail → (h.impl (r.ident head)).buffer = r.window (start head)

/-- The front of the ready queue is set up as a window at the front address. -/
theorem setCircFrontBuffer_spec (m : CircularBufferManager) (h : Heap) (buff : ManagedBuffer)
    (hc : m.circBuff.Circular) (hlo : m.circBuff.address ≤ m.frontAddress)
    (hhi : m.frontAddress ≤ m.circBuff.address + m.circBuff.length)
    (hlen : m.bufferSize ≤ m.circBuff.length) :
    ∃ h', m.setCircFrontBuffer h buff = .ok ({ m with
        frontBuffer := ⟨m.frontAddress, m.bufferSize, .unspecified, some buff, 0⟩ }, h') ∧
      (h'.impl buff).buffer =
        ⟨m.frontAddress, m.bufferSize, m.frontAddress + m.circBuff.length⟩ ∧
      (∀ mb, mb ≠ buff → (h'.impl mb).buffer = (h.impl mb).buffer) ∧
      h.SameLinks h' := by
  have hsub := SharedBuffer.sub_of_circular hc hlo hhi hlen
  let sbuff : SharedBuffer :=
    ⟨m.frontAddress, m.bufferSize, m.frontAddress + m.circBuff.length⟩
  let h₁ := h.reset buff sbuff (h.impl buff).slabIndex
  have hself : (h₁.impl buff).buffer = sbuff := by simp [h₁, Heap.reset_impl]
  have hchunk : BufferChunk.ofManagedBuffer h₁ buff =
      ⟨m.frontAddress, m.bufferSize, .unspecified, some buff, 0⟩ := by
    simp [BufferChunk.ofManagedBuffer, hself, sbuff]
  obtain ⟨ops, hops⟩ : ∃ ops, setFrontLocal h₁ m.frontBuffer (.ofManagedBuffer h₁ buff) =
      (BufferChunk.ofManagedBuffer h₁ buff, h₁.apply ops) :=
    setFrontLocal_of_le h₁ m.frontBuffer (le_refl _) rfl
  refine ⟨h₁.apply ops, ?_, ?_, fun mb hmb => ?_,
    (h.sameLinks_reset buff sbuff).trans (h₁.sameLinks_apply ops)⟩
  · simp only [setCircFrontBuffer, hsub]
    show Except.ok (_, _) = _
    rw [hops, hchunk]
  · rw [Heap.apply_impl_buffer, hself]
  · rw [Heap.apply_impl_buffer, Heap.reset_impl, if_neg hmb]

section
variable {m : CircularBufferManager} {h : Heap} {r : Ring} {head tail : Nat} {start : Nat → Nat}

/-! The starts of the windows up to the head lie close together. -/

theorem Queued.start_le (w : Queued m h r head tail start) {k : Nat} (hk : k ≤ head) :
    start k ≤ start head := by
  induction hk using Nat.decreasingInduction with
  | of_succ k hk ih => exact (w.start_mono k hk).trans ih
  | self => exact le_refl _

theorem Queued.start_span (w : Queued m h r head tail start) {k : Nat} (hk : k ≤ head) :
    start head ≤ start k + (head - k) * r.bufferSize := by
  induction hk using Nat.decreasingInduction with
  | of_succ k hk ih =>
      have hstep := w.start_step k hk
      have hsplit : head - k = (head - (k + 1)) + 1 := by omega
      rw [hsplit, Nat.add_mul]
      omega
  | self => omega

/-- A window not yet returned and the window at the head are less than the
buffer apart, whatever was consumed from either. -/
theorem Queued.span (w : Queued m h r head tail start) (hlt : head < tail) {k : Nat}
    (hk : k ≤ head) (htail : tail ≤ k + r.numBuffers) :
    start head + r.bufferSize ≤ start k + r.circBuff.length := by
  have hcount : (head - k) * r.bufferSize + r.bufferSize ≤ r.circBuff.length := by
    calc (head - k) * r.bufferSize + r.bufferSize = (head - k + 1) * r.bufferSize := by
            rw [Nat.add_mul, Nat.one_mul]
      _ ≤ r.numBuffers * r.bufferSize := Nat.mul_le_mul_right _ (by omega)
      _ ≤ r.circBuff.length := r.fits
  have := w.start_span hk
  omega

/-- With an empty buffer every window starts at the first byte. -/
theorem Queued.start_eq_zero (w : Queued m h r head tail start) (hL : r.circBuff.length = 0) :
    start head = 0 := by
  have hbs : r.bufferSize = 0 := Nat.le_zero.mp (hL ▸ r.bufferSize_le)
  have := w.start_span (Nat.zero_le head)
  rw [w.start_zero, hbs] at this
  omega

/-- The front address lies in the first mapping. -/
theorem Queued.addressAt_le (w : Queued m h r head tail start) :
    r.addressAt (start head) ≤ r.circBuff.address + r.circBuff.length := by
  by_cases hL : r.circBuff.length = 0
  · simp [Ring.addressAt, w.start_eq_zero hL]
  · exact Nat.add_le_add_left (Nat.mod_lt _ (Nat.pos_of_ne_zero hL)).le _

/-! ### The two calls -/

/-- A non-empty queue offers its front as the window at the front address. -/
theorem Queued.setFront (w : Queued m h r head tail start) (hlt : head < tail)
    (hb : m.bytesToPop = 0) :
    ∃ m' h', m.setCircFrontBuffer h (r.ident head) = .ok (m', h') ∧
      Windows m' h' r head tail start ∧ m'.readyBuffs = m.readyBuffs ∧ m'.bytesToPop = 0 ∧
      h.SameLinks h' := by
  obtain ⟨h', hset, hbuf, hother, hlinks⟩ :=
    setCircFrontBuffer_spec m h (r.ident head) (w.circBuff ▸ r.circular)
      (by rw [w.frontAddress, w.circBuff]; exact Nat.le_add_right _ _)
      (by rw [w.frontAddress, w.circBuff]; exact w.addressAt_le)
      (by rw [w.bufferSize, w.circBuff]; exact r.bufferSize_le)
  refine ⟨_, h', hset, ?_, rfl, hb, hlinks⟩
  exact { w with
    lent := fun k hk => by
      rw [hother _ (hk.ident_ne hlt)]
      exact w.lent k hk
    bytesToPop := .inl hb
    idle := fun he => absurd he hlt.ne
    front := fun _ => by simp only [w.frontAddress, w.bufferSize, hb, Nat.add_zero, Nat.sub_zero]
    front_held := fun _ => by rw [hbuf, w.frontAddress, w.bufferSize, w.circBuff]; rfl }

/-- A pop that leaves most of the window offers the rest of it. -/
theorem pop_reuse (w : Windows m h r head tail start) (hlt : head < tail) {numBytes : Nat}
    (hsmall : (m.bytesToPop + numBytes) * 2 < r.bufferSize) :
    ∃ m' h', m.pop h numBytes = .ok (m', h') ∧ Windows m' h' r head tail start ∧
      m'.readyBuffs = m.readyBuffs ∧ m'.bytesToPop = m.bytesToPop + numBytes ∧
      h.SameLinks h' := by
  have hne : m.readyBuffs.empty = false := w.stock.not_empty hlt
  have hfront := w.front hlt
  have hin : m.frontBuffer.getEnd ≤ (m.frontBuffer.getBuffer h).getEnd := by
    rw [hfront]
    simp only [BufferChunk.getEnd, BufferChunk.getBuffer, Heap.buffer, w.front_held hlt,
      Ring.window, SharedBuffer.getEnd]
    omega
  let buff : BufferChunk := { m.frontBuffer with
    address := m.frontBuffer.address + numBytes, length := m.frontBuffer.length - numBytes }
  have hbuff : buff = ⟨r.addressAt (start head) + (m.bytesToPop + numBytes),
      r.bufferSize - (m.bytesToPop + numBytes), .unspecified, some (r.ident head), 0⟩ := by
    simp only [buff, hfront, Nat.add_assoc, Nat.sub_sub]
  obtain ⟨ops, hops⟩ : ∃ ops, setFrontLocal h m.frontBuffer buff = (buff, h.apply ops) := by
    refine setFrontLocal_of_le h m.frontBuffer ?_ (by rw [hbuff])
    rw [hbuff]
    simp only [BufferChunk.getEnd, BufferChunk.getBuffer, Heap.buffer, w.front_held hlt,
      Ring.window, SharedBuffer.getEnd]
    omega
  have hcopy : m.frontBuffer.copy h = m.frontBuffer :=
    BufferChunk.copy_of_le h _ hin (by rw [hfront])
  refine ⟨{ m with bytesToPop := m.bytesToPop + numBytes, frontBuffer := buff }, h.apply ops, ?_,
    ?_, rfl, rfl, h.sameLinks_apply ops⟩
  · rw [pop, if_neg (by simp [hne]), if_pos (by rw [w.bufferSize]; exact hsmall)]
    simp only [reuseFront, hcopy]
    rw [show setFrontLocal h m.frontBuffer _ = _ from hops]
  · exact { w with
      bytesToPop := .inr hsmall
      idle := fun he => absurd he hlt.ne
      front := fun _ => hbuff
      lent := fun k hk => by rw [Heap.apply_impl_buffer]; exact w.lent k hk
      front_held := fun _ => by rw [Heap.apply_impl_buffer]; exact w.front_held hlt }

/-- A pop that uses the window up lends its managed buffer out and opens the
next window where the bytes handed out end. -/
theorem pop_move (w : Windows m h r head tail start) (hlt : head < tail) {numBytes : Nat}
    (hle : m.bytesToPop + numBytes ≤ r.bufferSize)
    (hbig : ¬ (m.bytesToPop + numBytes) * 2 < r.bufferSize) :
    ∃ m' h', m.pop h numBytes = .ok (m', h') ∧
      Windows m' h' r (head + 1) tail
        (Function.update start (head + 1) (start head + (m.bytesToPop + numBytes))) ∧
      (∀ k, r.Lent m'.readyBuffs (head + 1) tail k ↔
        r.Lent m.readyBuffs head tail k ∨ k = head) ∧ m'.bytesToPop = 0 ∧
      h.SameLinks h' := by
  obtain ⟨q', hpop, hstock, hout⟩ := w.stock.pop hlt
  let h₁ := h.apply [.decr (r.ident head)]
  let start' := Function.update start (head + 1) (start head + (m.bytesToPop + numBytes))
  have hstart : ∀ k, k ≤ head → start' k = start k := fun k hk =>
    Function.update_of_ne (by omega) _ _
  have hnew : start' (head + 1) = start head + (m.bytesToPop + numBytes) := Function.update_self ..
  let m₁ : CircularBufferManager := { m with
    frontAddress := r.addressAt (start' (head + 1)), bytesToPop := 0, readyBuffs := q' }
  have hq : Queued m₁ h₁ r (head + 1) tail start' := by
    refine ⟨w.circBuff, w.bufferSize, hstock, ?_, fun k hk => ?_, fun k hk => ?_, rfl,
      fun k hk => ?_⟩
    · rw [hstart 0 (Nat.zero_le _)]; exact w.start_zero
    · rcases Nat.lt_succ_iff_lt_or_eq.mp hk with hk' | rfl
      · rw [hstart k hk'.le, hstart (k + 1) hk']; exact w.start_mono k hk'
      · rw [hstart k (le_refl _), hnew]; omega
    · rcases Nat.lt_succ_iff_lt_or_eq.mp hk with hk' | rfl
      · rw [hstart k hk'.le, hstart (k + 1) hk']; exact w.start_step k hk'
      · rw [hstart k (le_refl _), hnew]; omega
    · rw [Heap.apply_impl_buffer, hstart k (Nat.le_of_lt_succ hk.1)]
      rcases (hout k).mp hk with hk' | rfl
      · exact w.lent k hk'
      · exact w.front_held hlt
  have hunfold : m.pop h numBytes =
      match q'.front with
      | none =>
          .ok ({ m₁ with frontBuffer := .null }, h₁.apply (m.frontBuffer.assign h₁ .null))
      | some buff => m₁.setCircFrontBuffer h₁ buff := by
    rw [pop, if_neg (by simp [w.stock.not_empty hlt]), if_neg (by rw [w.bufferSize]; exact hbig), hpop,
      w.stock.front_eq hlt]
    show (if m.bufferSize < m.bytesToPop + numBytes then _ else _) = _
    rw [if_neg (by rw [w.bufferSize]; omega)]
    simp only [w.circBuff, w.frontAddress, r.addressAt_add hle, setFrontBuffer, m₁, hnew]
    rfl
  rw [hunfold]
  rcases Nat.lt_or_eq_of_le (Nat.succ_le_of_lt hlt) with hlt' | heq
  · rw [show q'.front = _ from hq.stock.front_eq hlt']
    obtain ⟨m', h', hset, hwin, hready, hzero, hlinks⟩ := hq.setFront hlt' rfl
    exact ⟨m', h', hset, hwin, fun k => by rw [hready]; exact hout k, hzero,
      (h.sameLinks_apply _).trans hlinks⟩
  · have hnone : q'.front = none := hq.stock.front_none heq
    rw [hnone]
    refine ⟨_, _, rfl, ?_, hout, rfl, (h.sameLinks_apply _).trans (h₁.sameLinks_apply _)⟩
    exact { hq with
      lent := fun k hk => by rw [Heap.apply_impl_buffer]; exact hq.lent k hk
      bytesToPop := .inl rfl
      idle := fun _ => ⟨rfl, rfl⟩
      front := fun hlt' => absurd heq hlt'.ne
      front_held := fun hlt' => absurd heq hlt'.ne }

/-- Returning a managed buffer never fails. The other lent buffers stay lent,
and a front that is there stays. -/
theorem push_spec (w : Windows m h r head tail start) {s : Nat}
    (hslab : (h.impl (r.first + s)).slabIndex = s) (hs : m.readyBuffs.CheckedOut r.slab s) :
    ∃ m' h' tail', m.push h (r.first + s) = .ok (m', h') ∧ tail ≤ tail' ∧
      Windows m' h' r head tail' start ∧
      (∀ k, r.Lent m'.readyBuffs head tail' k ↔
        r.Lent m.readyBuffs head tail k ∧ k % r.numBuffers ≠ s) ∧
      (∀ s', m'.readyBuffs.CheckedOut r.slab s' ↔ m.readyBuffs.CheckedOut r.slab s' ∧ s' ≠ s) ∧
      (s = m.readyBuffs.indexToAck → tail < tail') ∧
      m'.bytesToPop = m.bytesToPop ∧ (head < tail → m'.frontBuffer = m.frontBuffer) ∧
      h.SameLinks h' := by
  obtain ⟨q', tail', hpush, hstock, hlt, hle, hack, -, hout, hlent⟩ := w.stock.push hs
  let h₁ := h.apply [.incr (r.first + s)]
  have hq : Queued { m with readyBuffs := q' } h₁ r head tail' start := by
    refine ⟨w.circBuff, w.bufferSize, hstock, w.start_zero, w.start_mono, w.start_step,
      w.frontAddress, fun k hk => ?_⟩
    rw [Heap.apply_impl_buffer]
    exact w.lent k ((hlent k).mp hk).1
  have hunfold : m.push h (r.first + s) =
      match q'.front with
      | none => .ok ({ m with readyBuffs := q' }, h₁)
      | some front =>
          if m.readyBuffs.empty then
            CircularBufferManager.setCircFrontBuffer { m with readyBuffs := q' } h₁ front
          else .ok ({ m with readyBuffs := q' }, h₁) := by
    rw [CircularBufferManager.push, hslab, if_neg (by rw [w.stock.capacity]; omega), hpush]
    rfl
  have hlinks := h.sameLinks_apply [.incr (r.first + s)]
  rw [hunfold]
  rcases Nat.lt_or_eq_of_le w.stock.head_le with hlt' | heq
  · -- the front was there before, and stays
    have hne : m.readyBuffs.empty = false := w.stock.not_empty hlt'
    rw [show q'.front = _ from hstock.front_eq (hlt'.trans_le hle)]
    simp only [hne]
    refine ⟨_, _, tail', rfl, hle, ?_, hlent, hout, hack, rfl, fun _ => rfl, hlinks⟩
    exact { hq with
      bytesToPop := w.bytesToPop
      idle := fun he => absurd he (hlt'.trans_le hle).ne
      front := fun _ => w.front hlt'
      front_held := fun _ => by rw [Heap.apply_impl_buffer]; exact w.front_held hlt' }
  · have hempty : m.readyBuffs.empty = true := w.stock.empty_iff.mpr heq
    obtain ⟨hnull, hzero⟩ := w.idle heq
    rcases Nat.lt_or_eq_of_le hle with htail | htail
    · rw [show q'.front = _ from hstock.front_eq (heq ▸ htail)]
      obtain ⟨m', h', hset, hwin, hready, hzero', hlinks'⟩ := hq.setFront (heq ▸ htail) hzero
      simp only [hempty, if_true]
      exact ⟨m', h', tail', hset, hle, hwin, fun k => by rw [hready]; exact hlent k,
        fun s' => by rw [hready]; exact hout s', hack, hzero'.trans hzero.symm,
        fun hlt' => absurd heq hlt'.ne, hlinks.trans hlinks'⟩
    · rw [show q'.front = _ from hstock.front_none (heq.trans htail)]
      refine ⟨_, _, tail', rfl, hle, ?_, hlent, hout, hack, rfl, fun hlt' => absurd heq hlt'.ne,
        hlinks⟩
      exact { hq with
        bytesToPop := .inl hzero
        idle := fun _ => ⟨hnull, hzero⟩
        front := fun hlt' => absurd (heq.trans htail) hlt'.ne
        front_held := fun hlt' => absurd (heq.trans htail) hlt'.ne }

/-- Only the memory behind the managed buffers matters to the invariant. -/
theorem Windows.of_buffer (w : Windows m h r head tail start) {h' : Heap}
    (hb : ∀ mb, (h'.impl mb).buffer = (h.impl mb).buffer) : Windows m h' r head tail start :=
  { w with
    lent := fun k hk => (hb _).trans (w.lent k hk)
    front_held := fun hlt => (hb _).trans (w.front_held hlt) }

end

/-! ### The initial state -/

/-- After the first `i` rounds of the loop of `init`. -/
structure Made (m : CircularBufferManager) (h : Heap) (r : Ring) (i : Nat) : Prop where
  windows : Windows m h r 0 i fun _ => 0
  filled : r.Filled m.readyBuffs i
  slab : ∀ s < i, (h.impl (r.first + s)).slabIndex = s
  bytesToPop : m.bytesToPop = 0

theorem Made.step {m : CircularBufferManager} {h : Heap} {r : Ring} {i : Nat}
    (hm : Made m h r i) (hi : i < r.numBuffers) :
    ∃ m' h', initBuffer r.circBuff r.first (m, h) i = .ok (m', h') ∧ Made m' h' r (i + 1) := by
  let h₁ := h.create (r.first + i) r.circBuff i
  have hother : ∀ s, s < i → h₁.impl (r.first + s) = h.impl (r.first + s) := by
    intro s hs
    rw [Heap.create_impl, if_neg fun he => hs.ne (Nat.add_left_cancel he)]
  have hself : (h₁.impl (r.first + i)).slabIndex = i := by rw [Heap.create_impl, if_pos rfl]
  have hident : r.ident 0 = r.first + 0 := by rw [Row.ident, Nat.zero_mod]
  have hw₁ : Windows m h₁ r 0 i fun _ => 0 :=
    { hm.windows with
      lent := fun k hk => absurd hk.1 (Nat.not_lt_zero k)
      front_held := fun hlt => by
        rw [hident, hother 0 hlt, ← hident]
        exact hm.windows.front_held hlt }
  obtain ⟨m', h', tail', hpush, hle, hw', -, hout, hack, hbytes, -, hlinks⟩ :=
    push_spec hw₁ hself (hm.filled.checkedOut hi)
  obtain ⟨rfl, hfilled⟩ := hm.filled.push hi hw'.stock hack hout
  refine ⟨m', h', hpush, hw', hfilled, fun s hs => ?_, hbytes.trans hm.bytesToPop⟩
  rw [(hlinks _).1]
  rcases Nat.lt_succ_iff_lt_or_eq.mp hs with hs' | rfl
  · rw [hother s hs']; exact hm.slab s hs'
  · exact hself

/-- **`init`.** A manager is set up without a fault: all its buffers are ready,
the first one is at the front, and the chain of next buffers is a cycle. -/
theorem init_spec (r : Ring) (h : Heap) :
    ∃ m h', init ⟨r.numBuffers, r.bufferSize⟩ r.circBuff r.first h = .ok (m, h') ∧
      Windows m h' r 0 r.numBuffers (fun _ => 0) ∧ r.Linked h' ∧ r.Slabbed h' ∧
      m.bytesToPop = 0 := by
  obtain ⟨q, hq, hfilled⟩ := r.make_filled
  let m₀ : CircularBufferManager :=
    ⟨.null, r.circBuff.address, r.bufferSize, 0, r.circBuff, q⟩
  have hzero : Made m₀ h r 0 := by
    refine ⟨?_, hfilled, fun s hs => absurd hs (Nat.not_lt_zero s), rfl⟩
    exact {
      circBuff := rfl, bufferSize := rfl, stock := hfilled.stock
      start_zero := rfl
      start_mono := fun k hk => absurd hk (Nat.not_lt_zero k)
      start_step := fun k hk => absurd hk (Nat.not_lt_zero k)
      frontAddress := by simp [m₀, Ring.addressAt]
      lent := fun k hk => absurd hk.1 (Nat.not_lt_zero k)
      bytesToPop := .inl rfl
      idle := fun _ => ⟨rfl, rfl⟩
      front := fun hlt => absurd hlt (Nat.lt_irrefl 0)
      front_held := fun hlt => absurd hlt (Nat.lt_irrefl 0) }
  have hloop : ∀ n, n ≤ r.numBuffers → ∃ m h',
      (List.range n).foldlM (initBuffer r.circBuff r.first) (m₀, h) = .ok (m, h') ∧
        Made m h' r n := by
    intro n hn
    induction n with
    | zero => exact ⟨m₀, h, rfl, hzero⟩
    | succ n ih =>
        obtain ⟨m, h', hfold, hm⟩ := ih (by omega)
        obtain ⟨m', h'', hstep, hm'⟩ := hm.step hn
        refine ⟨m', h'', ?_, hm'⟩
        rw [List.range_succ, List.foldlM_append, hfold]
        show (initBuffer _ _ (m, h') n >>= fun s => pure s) = _
        rw [hstep]
        rfl
  obtain ⟨m, h₁, hfold, hm⟩ := hloop r.numBuffers (le_refl _)
  let h₂ := (linkBuffers r.first r.numBuffers h₁).setNextBuffer
    (r.first + (r.numBuffers - 1)) r.first
  let ops := (List.range r.numBuffers).map fun i => RefOp.decr (r.first + i)
  have himpl : ∀ mb : Nat, ((h₂.apply ops).impl mb).buffer = (h₁.impl mb).buffer ∧
      ((h₂.apply ops).impl mb).slabIndex = (h₁.impl mb).slabIndex := by
    intro mb
    rw [Heap.apply_impl_buffer, Heap.apply_slabIndex]
    simp only [h₂, Heap.setNextBuffer_impl]
    split
    · next hmb => subst hmb; simp [linkBuffers_impl]
    · simp [linkBuffers_impl]
  refine ⟨m, h₂.apply ops, ?_, hm.windows.of_buffer fun mb => (himpl mb).1, fun k => ?_,
    fun s hs => (himpl _).2.trans (hm.slab s hs), hm.bytesToPop⟩
  · simp only [init, hq]
    show ((List.range r.numBuffers).foldlM (initBuffer r.circBuff r.first) (m₀, h) >>= _) = _
    rw [hfold]
    rfl
  · have hk := Nat.mod_lt k r.pos
    rw [Heap.apply_nextBuffer]
    simp only [h₂, Heap.setNextBuffer_impl, Row.ident]
    rw [succ_mod_eq_ite r.pos]
    by_cases hlast : k % r.numBuffers + 1 = r.numBuffers
    · have hk' : k % r.numBuffers = r.numBuffers - 1 := by omega
      rw [hk', if_pos rfl, if_pos (by omega)]
      rfl
    · have hne : k % r.numBuffers ≠ r.numBuffers - 1 := by omega
      rw [if_neg fun he => hne (Nat.add_left_cancel he), if_neg hlast, linkBuffers_impl,
        if_pos (by omega)]
      rfl

end CircularBufferManager

end PothosCore.Framework

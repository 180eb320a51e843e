import PothosCore.Util.RingDeque
import PothosCore.Framework.AccumulatorCover

/-!
# PothosCore.Framework.AccumulatorRing

The accumulator with the ring that its queue is. A ring has a capacity and asserts that
no element is pushed onto a full one; `push` doubles the capacity first where the ring
is full, `require` and `pop` push a single element in front.

The calls on the ring return what the calls on the list of chunks return (`push_ring`,
`pop_ring`, `require_ring`), so no assertion about the capacity fails.
-/

namespace PothosCore.Framework

open PothosCore.Lib PothosCore.Util

/-- `BufferAccumulator`, its queue a ring. -/
structure RingAccumulator where
  queue : RingDeque BufferChunk
  bytesAvailable : Nat
  inPoolBuffer : Bool
  pool : BufferPool
  deriving Repr

namespace RingAccumulator

open BufferAccumulator

/-- The accumulator without the capacity of its ring. -/
def acc (r : RingAccumulator) : BufferAccumulator := ⟨r.queue.elems, r.bytesAvailable, r.inPoolBuffer, r.pool⟩

/-- The capacity that the constructor asks for. -/
def initialCapacity : Nat := 64

/-- Never let the queue become empty. -/
def neverEmpty (queue : RingDeque BufferChunk) : Except Fault (RingDeque BufferChunk) :=
  if queue.empty then queue.pushFront .null else .ok queue

/-- `BufferAccumulator()` -/
def make : Except Fault RingAccumulator := do
  let queue ← RingDeque.make initialCapacity
  let queue ← neverEmpty queue
  .ok ⟨queue, 0, false, .make⟩

/-- `push(buffer)`. -/
def push (r : RingAccumulator) (h : Heap) (buffer : BufferChunk) :
    Except Fault (RingAccumulator × List RefOp) :=
  if r.queue.elems = [] then .error (.assertion "not queue.empty()")
  else do
    let (elems, ops₁) := removeDummy h r.queue.elems
    let queue ← RingDeque.pushGrowing { r.queue with elems := elems } buffer
    let (elems, _) ← amalgamate h queue.elems
    let (elems, ops₂) := removeBack h elems
    let nexts ← restoreNextBuffers h buffer.managedBuffer buffer.nextBuffers
    let queue ← nexts.foldlM RingDeque.pushGrowing { queue with elems := elems }
    .ok ({ r with queue := queue, bytesAvailable := r.bytesAvailable + buffer.length },
      ops₁ ++ ops₂ ++ nexts.flatMap (BufferChunk.acquire h))

/-- `pop(numBytes)`. -/
def pop (r : RingAccumulator) (h : Heap) (numBytes : Nat) : Except Fault (RingAccumulator × List RefOp) :=
  if r.bytesAvailable < numBytes then .error (.assertion "_bytesAvailable >= numBytes")
  else
    match r.queue.elems with
    | [] => .error (.assertion "not queue.empty()")
    | f :: elems =>
        if f.length < numBytes then .error (.assertion "queue.front().length >= numBytes")
        else do
          let (elems, ops₁) ← moveFront h r.inPoolBuffer (consume f numBytes) elems
          let inPoolBuffer := r.inPoolBuffer && elems.length == r.queue.elems.length
          let (elems, ops₂) := removeConsumed h elems
          let queue ← neverEmpty { r.queue with elems := elems }
          .ok ({ r with
              queue := queue, bytesAvailable := r.bytesAvailable - numBytes,
              inPoolBuffer := inPoolBuffer }, ops₁ ++ ops₂)

/-- `require(numBytes)`. -/
def require (r : RingAccumulator) (h : Heap) (mem : Memory) (fresh : Nat × Nat) (numBytes : Nat) :
    Except Fault (RingAccumulator × Heap × Memory) :=
  if r.queue.elems = [] then .error (.assertion "not queue.empty()")
  else if r.acc.Suffices h numBytes then .ok (r, h, mem)
  else do
    let (pool, buffer, h) := r.pool.get h fresh numBytes
    let buffer := buffer.copy h
    let h := h.apply (buffer.acquire h)
    let newBuffer := { buffer with dtype := r.acc.front.dtype, length := 0 }
    let (mem, newBuffer, elems, ops) := fill h mem newBuffer buffer.length r.queue.elems
    let queue ← RingDeque.pushFront { r.queue with elems := elems } newBuffer
    .ok ({ r with queue := queue, inPoolBuffer := true, pool := pool }, h.apply ops, mem)

/-! ### The calls on the ring and on the list -/

variable {r : RingAccumulator} {h : Heap} {acc' : BufferAccumulator} {ops : List RefOp}

theorem amalgamate_length {q q' : List BufferChunk} {going : Bool} (ha : amalgamate h q = .ok (q', going)) :
    q'.length = q.length := by
  have hlen := congrArg List.length (amalgamate_managedBuffer ha)
  rwa [List.length_map, List.length_map] at hlen

theorem removeDummy_length (h : Heap) (q : List BufferChunk) : (removeDummy h q).1.length ≤ q.length := by
  cases q with
  | nil => exact Nat.le_refl 0
  | cons c q =>
      rw [removeDummy]
      split
      · exact Nat.le_succ _
      · exact Nat.le_refl _

theorem removeBack_length (h : Heap) (q : List BufferChunk) : (removeBack h q).1.length ≤ q.length := by
  rcases removeBack_cases (h := h) q with hr | ⟨pre, f, b, rfl, -, -, hr⟩
  · rw [hr]
  · rw [hr, List.length_append, List.length_append]
    exact Nat.add_le_add_left (Nat.le_succ 1) _

theorem neverEmpty_ok {queue : RingDeque BufferChunk} (hroom : queue.Room) :
    ∃ queue', neverEmpty queue = .ok queue' ∧ queue'.elems = orDummy queue.elems ∧ queue'.Room := by
  rw [neverEmpty, orDummy]
  by_cases he : queue.elems = []
  · have hsize : queue.size = 0 := by rw [RingDeque.size, he]; rfl
    have hempty : queue.empty = true := by rw [RingDeque.empty, he]; rfl
    rw [if_pos hempty, if_pos he]
    have hpush := RingDeque.pushFront_ok (hsize ▸ hroom.pos) BufferChunk.null
    rw [he] at hpush
    exact ⟨_, hpush, rfl, hroom.pos, hroom.pos⟩
  · have hempty : ¬ queue.empty = true := by
      rw [RingDeque.empty, List.isEmpty_iff]
      exact he
    rw [if_neg hempty, if_neg he]
    exact ⟨queue, rfl, rfl, hroom⟩

theorem make_ring : ∃ r, make = .ok r ∧ r.acc = .make ∧ r.queue.Room :=
  ⟨⟨⟨[.null], initialCapacity⟩, 0, false, .make⟩, rfl, rfl, ⟨by decide, by decide⟩⟩

/-- **`push` on the ring** is `push` on the list. -/
theorem push_ring (hroom : r.queue.Room) {buffer : BufferChunk} (hp : r.acc.push h buffer = .ok (acc', ops)) :
    ∃ r', r.push h buffer = .ok (r', ops) ∧ r'.acc = acc' ∧ r'.queue.Room := by
  have hne : r.queue.elems ≠ [] := by
    intro hnil
    rw [BufferAccumulator.push, acc, if_pos hnil] at hp
    cases hp
  obtain ⟨q, going, nexts, ha, hn, rfl, rfl⟩ := push_inv hp
  obtain ⟨queue₁, hqueue₁, helems₁, hroom₁⟩ :=
    RingDeque.pushGrowing_ok (hroom.shrink (removeDummy_length h r.queue.elems)) buffer
  have hq : (removeBack h q).1.length ≤ queue₁.elems.length := by
    rw [helems₁]
    exact (removeBack_length h q).trans (amalgamate_length ha).le
  obtain ⟨queue₂, hqueue₂, helems₂, hroom₂⟩ := RingDeque.foldlM_pushGrowing_ok nexts (hroom₁.shrink hq)
  have ha' : amalgamate h queue₁.elems = .ok (q, going) := helems₁ ▸ ha
  refine ⟨{ r with queue := queue₂, bytesAvailable := r.bytesAvailable + buffer.length }, ?_, ?_, hroom₂⟩
  · rw [push, if_neg hne]
    simp only [bind, Except.bind, hqueue₁, ha', hn, hqueue₂]
    rfl
  · rw [acc, helems₂]
    rfl

theorem moveFront_length {i : Bool} {f : BufferChunk} {q q' : List BufferChunk}
    (hm : moveFront h i f q = .ok (q', ops)) : q'.length ≤ q.length + 1 := by
  cases moveFront_inv hm with
  | last _ => exact Nat.zero_le _
  | keepLast _ => exact Nat.le_refl _
  | absorb _ => exact Nat.le_succ _
  | drop _ _ => exact Nat.le_succ _
  | overrun _ _ _ => exact Nat.le_succ _
  | keep _ _ _ => exact Nat.le_refl _

/-- **`pop` on the ring** is `pop` on the list. -/
theorem pop_ring (hroom : r.queue.Room) {n : Nat} (hp : r.acc.pop h n = .ok (acc', ops)) :
    ∃ r', r.pop h n = .ok (r', ops) ∧ r'.acc = acc' ∧ r'.queue.Room := by
  obtain ⟨⟨elems, capacity⟩, bytesAvailable, inPoolBuffer, pool⟩ := r
  rw [BufferAccumulator.pop, acc] at hp
  rw [pop]
  dsimp only at hp ⊢
  split at hp
  · cases hp
  · next hbytes =>
      rw [if_neg hbytes]
      cases elems with
      | nil => cases hp
      | cons f q =>
          dsimp only at hp ⊢
          split at hp
          · cases hp
          · next hlen =>
              rw [if_neg hlen]
              cases hm : moveFront h inPoolBuffer (consume f n) q with
              | error e =>
                  rw [hm] at hp
                  cases hp
              | ok moved =>
                  obtain ⟨q', ops₁⟩ := moved
                  rw [hm] at hp
                  have hle : (removeConsumed h q').1.length ≤ (f :: q).length :=
                    (removeConsumed_suffix h q').length_le.trans (moveFront_length hm)
                  obtain ⟨queue, hqueue, helems, hroom'⟩ := neverEmpty_ok (hroom.shrink hle)
                  obtain ⟨rfl, rfl⟩ := Prod.mk.inj (Except.ok.inj hp)
                  simp only [bind, Except.bind, hqueue]
                  refine ⟨_, rfl, ?_, hroom'⟩
                  rw [acc, helems]

/-- The copy loop leaves no more chunks than there were. -/
theorem fill_length (h : Heap) (mem : Memory) (nb : BufferChunk) (room : Nat) (q : List BufferChunk) :
    (fill h mem nb room q).2.2.1.length ≤ q.length := by
  induction q generalizing mem nb room with
  | nil => exact Nat.le_refl 0
  | cons f q ih =>
      rw [fill]
      dsimp only
      split
      · exact (ih _ _ _).trans (Nat.le_succ _)
      · exact Nat.le_refl _

/-- What the copy loop of `require` starts with. -/
def poolBuffer (r : RingAccumulator) (h : Heap) (b : BufferChunk) : BufferChunk :=
  { b.copy h with dtype := r.acc.front.dtype, length := 0 }

/-- **`require` on the ring** is `require` on the list. The pool's buffer has room for the
front, so the loop drains at least one chunk. -/
theorem require_ring (hroom : r.queue.Room) {mem mem' : Memory} {fresh : Nat × Nat} {n : Nat} {h' : Heap}
    (hsize : ¬ r.acc.Suffices h n → n ≤ (r.pool.get h fresh n).2.1.length)
    (hp : r.acc.require h mem fresh n = .ok (acc', h', mem')) :
    ∃ r', r.require h mem fresh n = .ok (r', h', mem') ∧ r'.acc = acc' ∧ r'.queue.Room := by
  have hne : r.queue.elems ≠ [] := by
    intro hnil
    rw [BufferAccumulator.require, acc, if_pos hnil] at hp
    cases hp
  have hne' : r.acc.queue ≠ [] := hne
  by_cases hsuff : r.acc.Suffices h n
  · rw [BufferAccumulator.require, if_neg hne', if_pos hsuff] at hp
    obtain ⟨rfl, hrest⟩ := Prod.mk.inj (Except.ok.inj hp)
    obtain ⟨rfl, rfl⟩ := Prod.mk.inj hrest
    rw [require, if_neg hne, if_pos hsuff]
    exact ⟨r, rfl, rfl, hroom⟩
  · obtain ⟨f, q, hq⟩ := List.exists_cons_of_ne_nil hne
    cases hget : r.pool.get h fresh n with
    | mk pool rest =>
        obtain ⟨b, h₁⟩ := rest
        let h₂ := h₁.apply ((b.copy h₁).acquire h₁)
        let filled := fill h₂ mem (r.poolBuffer h₁ b) (b.copy h₁).length r.queue.elems
        have hlist : r.acc.require h mem fresh n =
            .ok (⟨filled.2.1 :: filled.2.2.1, r.bytesAvailable, true, pool⟩, h₂.apply filled.2.2.2, filled.1) := by
          have hget' : r.acc.pool.get h fresh n = (pool, b, h₁) := hget
          rw [BufferAccumulator.require, if_neg hne', if_neg hsuff, hget']
          rfl
        have hring : r.require h mem fresh n = Except.bind
            (RingDeque.pushFront { r.queue with elems := filled.2.2.1 } filled.2.1)
            fun queue => .ok (⟨queue, r.bytesAvailable, true, pool⟩, h₂.apply filled.2.2.2, filled.1) := by
          rw [require, if_neg hne, if_neg hsuff, hget]
          rfl
        have hsize := hsize hsuff
        rw [hget] at hsize
        have hfit : f.length ≤ (b.copy h₁).length := by
          have hlt : r.acc.front.length < n := Nat.lt_of_not_le fun hle => hsuff (.inl hle)
          have hf : r.acc.front = f := by rw [front, acc, hq]; rfl
          rw [hf] at hlt
          exact hlt.le.trans hsize
        have hdrained : filled.2.2.1.length < r.queue.capacity := by
          obtain ⟨mem₁, nb₁, room₁, hfill⟩ := fill_front h₂ mem (r.poolBuffer h₁ b) f q hfit
          have hle := fill_length h₂ mem₁ nb₁ room₁ q
          have hcap := hroom.le
          rw [RingDeque.size, hq, List.length_cons] at hcap
          have hfilled : filled.2.2.1 = (fill h₂ mem₁ nb₁ room₁ q).2.2.1 := by rw [← hfill, ← hq]
          rw [hfilled]
          omega
        rw [hlist] at hp
        obtain ⟨rfl, hrest⟩ := Prod.mk.inj (Except.ok.inj hp)
        obtain ⟨rfl, rfl⟩ := Prod.mk.inj hrest
        have hpush := RingDeque.pushFront_ok (q := { r.queue with elems := filled.2.2.1 }) hdrained filled.2.1
        rw [hring, hpush]
        exact ⟨_, rfl, rfl, hroom.pos, hdrained⟩

end RingAccumulator

end PothosCore.Framework

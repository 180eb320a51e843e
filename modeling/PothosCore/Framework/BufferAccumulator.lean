import PothosCore.Framework.BufferPool
import PothosCore.Lib.Memory

/-!
# PothosCore.Framework.BufferAccumulator

`BufferAccumulator`: the input queue of a port. `push` joins contiguous chunks
into the one nearest to the front, `require` copies the front of the queue into
a pool buffer, and `pop` consumes bytes and moves what is left of a front into
the chunk behind it where that chunk's memory holds the same bytes.

The calls return their reference traffic in program order; `require` copies
bytes and allocates, so it returns the memory and the heap.
-/

namespace PothosCore.Framework

open PothosCore.Lib

/-- `size_t` subtraction. -/
def sizeSub (a b : Nat) : Nat := if b ≤ a then a - b else a + 2 ^ 64 - b

/-- `BufferAccumulator`. -/
structure BufferAccumulator where
  queue : List BufferChunk
  /-- A `size_t`: fewer than `2 ^ 64` bytes are queued at a time. -/
  bytesAvailable : Nat
  inPoolBuffer : Bool
  pool : BufferPool
  deriving Repr

/-- The contents of the memory. -/
abbrev Memory := Nat → UInt8

namespace BufferAccumulator

/-- `BufferAccumulator()`: the queue is never empty, it holds an empty buffer. -/
def make : BufferAccumulator := ⟨[.null], 0, false, .make⟩

/-- `front()`. -/
def front (acc : BufferAccumulator) : BufferChunk := acc.queue.headD .null

/-- The number of bytes of a queue. -/
def total (queue : List BufferChunk) : Nat := (queue.map (·.length)).sum

@[simp] theorem total_nil : total [] = 0 := rfl

@[simp] theorem total_cons (c : BufferChunk) (q : List BufferChunk) :
    total (c :: q) = c.length + total q := rfl

@[simp] theorem total_append (q q' : List BufferChunk) :
    total (q ++ q') = total q + total q' := by simp [total]

/-! ### push -/

/-- The test of the amalgamation loop: `b`, or its alias, continues `f`. -/
def Touches (h : Heap) (f b : BufferChunk) : Prop :=
  b.address = f.getEnd ∨ b.getAlias h = f.getEnd

instance (h : Heap) (f b : BufferChunk) : Decidable (Touches h f b) := by
  unfold Touches; infer_instance

/-- `b`'s bytes go to the chunk `f` before it. -/
def mergeFront (f b : BufferChunk) : BufferChunk := { f with length := f.length + b.length }

/-- What is left of a chunk whose bytes went to the chunk before it. -/
def emptied (b : BufferChunk) : BufferChunk := { b with address := b.address + b.length, length := 0 }

/-- The amalgamation loop, from the back of the queue to its front. The flag says
that the loop has not stopped yet. -/
def amalgamate (h : Heap) : List BufferChunk → Except Fault (List BufferChunk × Bool)
  | [] => .ok ([], true)
  | f :: queue => do
      let (queue', going) ← amalgamate h queue
      match queue', going with
      | b :: rest, true =>
          if b.isSome = false then .error (.assertion "b")
          else if f.isSome = false then .error (.assertion "f")
          else if Touches h f b then .ok (mergeFront f b :: emptied b :: rest, true)
          else .ok (f :: b :: rest, false)
      | [], _ => .ok ([f], true)
      | queue', false => .ok (f :: queue', false)

/-- If the back has no length and the same buffer as the chunk before it, it is
removed from the queue. -/
def removeBack (h : Heap) : List BufferChunk → List BufferChunk × List RefOp
  | [] => ([], [])
  | [b] => ([b], [])
  | [f, b] =>
      if b.managedBuffer = f.managedBuffer ∧ b.length = 0 then ([f], b.destroy h) else ([f, b], [])
  | c :: queue => (c :: (removeBack h queue).1, (removeBack h queue).2)

/-- The loop `restoreNextBuffers`: an empty chunk for each of the `n` buffers that
follow `mb`. -/
def restoreNextBuffers (h : Heap) : Option ManagedBuffer → Nat → Except Fault (List BufferChunk)
  | _, 0 => .ok []
  | none, _ + 1 => .error (.undefined "mb._impl->nextBuffer")
  | some mb, n + 1 => do
      let next := (h.impl mb).nextBuffer
      let rest ← restoreNextBuffers h next n
      .ok (⟨(h.buffer next).address, 0, .unspecified, next, 0⟩ :: rest)

/-- Remove a possible dummy empty buffer from the front. -/
def removeDummy (h : Heap) : List BufferChunk → List BufferChunk × List RefOp
  | [] => ([], [])
  | c :: queue => if c.length = 0 then (queue, c.destroy h) else (c :: queue, [])

/-- `push(buffer)`. -/
def push (acc : BufferAccumulator) (h : Heap) (buffer : BufferChunk) :
    Except Fault (BufferAccumulator × List RefOp) :=
  if acc.queue = [] then .error (.assertion "not queue.empty()")
  else do
    let (queue, ops₁) := removeDummy h acc.queue
    let (queue, _) ← amalgamate h (queue ++ [buffer])
    let (queue, ops₂) := removeBack h queue
    let nexts ← restoreNextBuffers h buffer.managedBuffer buffer.nextBuffers
    .ok ({ acc with queue := queue ++ nexts, bytesAvailable := acc.bytesAvailable + buffer.length },
      ops₁ ++ ops₂ ++ nexts.flatMap (BufferChunk.acquire h))

/-- **Induction along the loop.** A chunk of the queue is left alone, or it takes
over the bytes of the chunk behind it while the loop is going. -/
theorem amalgamate_induct {h : Heap} {motive : List BufferChunk → List BufferChunk → Bool → Prop}
    (nil : motive [] [] true)
    (single : ∀ f q going, amalgamate h q = .ok ([], going) → motive q [] going →
      motive (f :: q) [f] true)
    (stop : ∀ f q b rest going, amalgamate h q = .ok (b :: rest, going) →
      motive q (b :: rest) going → (going = true → ¬ Touches h f b) →
      motive (f :: q) (f :: b :: rest) false)
    (merge : ∀ f q b rest, amalgamate h q = .ok (b :: rest, true) → motive q (b :: rest) true →
      f.isSome = true → b.isSome = true → Touches h f b →
      motive (f :: q) (mergeFront f b :: emptied b :: rest) true)
    {q q' : List BufferChunk} {going : Bool} (ha : amalgamate h q = .ok (q', going)) :
    motive q q' going := by
  induction q generalizing q' going with
  | nil =>
      obtain ⟨rfl, rfl⟩ : [] = q' ∧ true = going := by simpa [amalgamate] using ha
      exact nil
  | cons f q ih =>
      rw [amalgamate] at ha
      cases hq : amalgamate h q with
      | error e => rw [hq] at ha; cases ha
      | ok r =>
          obtain ⟨r, g⟩ := r
          rw [hq] at ha
          have hr := ih hq
          cases r with
          | nil =>
              obtain ⟨rfl, rfl⟩ : [f] = q' ∧ true = going := by
                cases g <;> simpa [bind, Except.bind] using ha
              exact single f q g hq hr
          | cons b rest =>
              cases g with
              | false =>
                  obtain ⟨rfl, rfl⟩ : f :: b :: rest = q' ∧ false = going := by
                    simpa [bind, Except.bind] using ha
                  exact stop f q b rest false hq hr (fun h => by cases h)
              | true =>
                  simp only [bind, Except.bind] at ha
                  split at ha
                  · cases ha
                  · next hb =>
                      split at ha
                      · cases ha
                      · next hf =>
                          split at ha
                          · next ht =>
                              obtain ⟨rfl, rfl⟩ : mergeFront f b :: emptied b :: rest = q' ∧
                                  true = going := by simpa using ha
                              exact merge f q b rest hq hr (by simpa using hf) (by simpa using hb) ht
                          · next ht =>
                              obtain ⟨rfl, rfl⟩ : f :: b :: rest = q' ∧ false = going := by
                                simpa using ha
                              exact stop f q b rest true hq hr (fun _ => ht)

/-- Over chunks that all have a managed buffer the loop runs. -/
theorem amalgamate_ok {h : Heap} {q : List BufferChunk} (hq : ∀ c ∈ q, c.isSome = true) :
    ∃ q' going, amalgamate h q = .ok (q', going) ∧ ∀ c ∈ q', c.isSome = true := by
  induction q with
  | nil => exact ⟨[], true, rfl, by simp⟩
  | cons f q ih =>
      obtain ⟨r, g, hr, hsome⟩ := ih fun c hc => hq c (List.mem_cons_of_mem f hc)
      have hf : f.isSome = true := hq f List.mem_cons_self
      rw [amalgamate, hr]
      cases r with
      | nil => cases g <;> exact ⟨[f], true, rfl, by simpa using hf⟩
      | cons b rest =>
          have hb : b.isSome = true := hsome b List.mem_cons_self
          have hkeep : ∀ c ∈ f :: b :: rest, c.isSome = true := by
            intro c hc
            rcases List.mem_cons.mp hc with rfl | hc
            · exact hf
            · exact hsome c hc
          cases g with
          | false => exact ⟨f :: b :: rest, false, rfl, hkeep⟩
          | true =>
              simp only [bind, Except.bind, hb, hf]
              by_cases ht : Touches h f b
              · refine ⟨mergeFront f b :: emptied b :: rest, true, by simp [ht], fun c hc => ?_⟩
                rcases List.mem_cons.mp hc with rfl | hc
                · exact hf
                · rcases List.mem_cons.mp hc with rfl | hc
                  · exact hb
                  · exact hsome c (List.mem_cons_of_mem b hc)
              · exact ⟨f :: b :: rest, false, by simp [ht], hkeep⟩

/-! ### pop -/

/-- Move what is left of the front `f` into the chunk `b` behind it. -/
def moveInto (f b : BufferChunk) : BufferChunk :=
  { b with address := b.address - f.length, length := b.length + f.length }

/-- Is what is left of a pool buffer taken to lie in the chunk behind it? -/
def Absorbs (h : Heap) (inPoolBuffer : Bool) (f b : BufferChunk) : Prop :=
  inPoolBuffer = true ∧ f.length ≤ sizeSub b.address (b.getBuffer h).address

instance (h : Heap) (p : Bool) (f b : BufferChunk) : Decidable (Absorbs h p f b) := by
  unfold Absorbs; infer_instance

/-- Is the front past the end of its own buffer, and the chunk behind it
contiguous? -/
def Overran (h : Heap) (f b : BufferChunk) : Prop :=
  (f.getBuffer h).getEnd ≤ f.address ∧ f.getEnd = b.address

instance (h : Heap) (f b : BufferChunk) : Decidable (Overran h f b) := by
  unfold Overran; infer_instance

/-- The three rules of `pop`, for the consumed front `f` and the queue behind. -/
def moveFront (h : Heap) (inPoolBuffer : Bool) (f : BufferChunk) :
    List BufferChunk → Except Fault (List BufferChunk × List RefOp)
  | [] => if f.length = 0 then .ok ([], f.destroy h) else .ok ([f], [])
  | b :: queue =>
      -- the front is from the pool, and the remainder bytes are in front+1
      if Absorbs h inPoolBuffer f b then .ok (moveInto f b :: queue, f.destroy h)
      -- the front is now empty
      else if f.length = 0 then .ok (b :: queue, f.destroy h)
      else if b.isSome = false then .error (.assertion "b")
      else if f.isSome = false then .error (.assertion "f")
      -- the front passed its boundary, and front+1 is contiguous
      else if Overran h f b then .ok (moveInto f b :: queue, f.destroy h)
      else .ok (f :: b :: queue, [])

/-- Pop all of the front-most consumed buffers. -/
def removeConsumed (h : Heap) : List BufferChunk → List BufferChunk × List RefOp
  | [] => ([], [])
  | c :: queue =>
      if c.length = 0 then ((removeConsumed h queue).1, c.destroy h ++ (removeConsumed h queue).2)
      else (c :: queue, [])

/-- Never let the queue become empty. -/
def orDummy (queue : List BufferChunk) : List BufferChunk :=
  if queue = [] then [.null] else queue

/-- Consume `n` bytes of a chunk. -/
def consume (c : BufferChunk) (n : Nat) : BufferChunk :=
  { c with address := c.address + n, length := c.length - n }

/-- `pop(numBytes)`. -/
def pop (acc : BufferAccumulator) (h : Heap) (numBytes : Nat) :
    Except Fault (BufferAccumulator × List RefOp) :=
  if acc.bytesAvailable < numBytes then .error (.assertion "_bytesAvailable >= numBytes")
  else
    match acc.queue with
    | [] => .error (.assertion "not queue.empty()")
    | f :: queue =>
        if f.length < numBytes then .error (.assertion "queue.front().length >= numBytes")
        else do
          let (queue', ops₁) ← moveFront h acc.inPoolBuffer (consume f numBytes) queue
          -- clear the pool buffer state when the queue size shrinks
          let inPoolBuffer := acc.inPoolBuffer && queue'.length == acc.queue.length
          let (queue', ops₂) := removeConsumed h queue'
          .ok ({ acc with
              queue := orDummy queue', bytesAvailable := acc.bytesAvailable - numBytes,
              inPoolBuffer := inPoolBuffer }, ops₁ ++ ops₂)

/-! ### require -/

/-- The copy loop: fill `newBuffer`, which has room for `room` more bytes. -/
def fill (h : Heap) (mem : Memory) (newBuffer : BufferChunk) (room : Nat) :
    List BufferChunk → Memory × BufferChunk × List BufferChunk × List RefOp
  | [] => (mem, newBuffer, [], [])
  | f :: queue =>
      let copied := min room f.length
      let mem := copyBytes mem newBuffer.getEnd f.address copied
      let newBuffer := { newBuffer with length := newBuffer.length + copied }
      -- buffer is drained, pop from queue
      if f.length = copied then
        let (mem, newBuffer, queue, ops) := fill h mem newBuffer (room - copied) queue
        (mem, newBuffer, queue, f.destroy h ++ ops)
      -- otherwise it is a partial, and the new buffer is full
      else (mem, newBuffer, consume f copied :: queue, [])

/-- Does `require` leave the queue as it is? -/
def Suffices (acc : BufferAccumulator) (h : Heap) (numBytes : Nat) : Prop :=
  numBytes ≤ acc.front.length ∨
    -- not enough bytes, but a single buffer can eventually have enough
    (acc.bytesAvailable < numBytes ∧ acc.queue.length = 1 ∧
      numBytes ≤ (acc.front.getBuffer h).length)

instance (acc : BufferAccumulator) (h : Heap) (numBytes : Nat) :
    Decidable (acc.Suffices h numBytes) := by
  unfold Suffices; infer_instance

/-- `require(numBytes)`; `fresh` is what the allocator would return. -/
def require (acc : BufferAccumulator) (h : Heap) (mem : Memory) (fresh : Nat × Nat)
    (numBytes : Nat) : Except Fault (BufferAccumulator × Heap × Memory) :=
  if acc.queue = [] then .error (.assertion "not queue.empty()")
  else if acc.Suffices h numBytes then .ok (acc, h, mem)
  else
    let (pool, buffer, h) := acc.pool.get h fresh numBytes
    -- the new buffer is a copy of the pool's
    let buffer := buffer.copy h
    let h := h.apply (buffer.acquire h)
    let newBuffer := { buffer with dtype := acc.front.dtype, length := 0 }
    let (mem, newBuffer, queue, ops) := fill h mem newBuffer buffer.length acc.queue
    .ok ({ acc with queue := newBuffer :: queue, inPoolBuffer := true, pool := pool },
      h.apply ops, mem)

/-! ### What the calls can do -/

/-- The outcomes of the three rules of `pop`. -/
inductive Moved (h : Heap) (p : Bool) (f : BufferChunk) :
    List BufferChunk → List BufferChunk → List RefOp → Prop
  | last : f.length = 0 → Moved h p f [] [] (f.destroy h)
  | keepLast : f.length ≠ 0 → Moved h p f [] [f] []
  | absorb {b : BufferChunk} {q : List BufferChunk} :
      Absorbs h p f b → Moved h p f (b :: q) (moveInto f b :: q) (f.destroy h)
  | drop {b : BufferChunk} {q : List BufferChunk} :
      ¬ Absorbs h p f b → f.length = 0 → Moved h p f (b :: q) (b :: q) (f.destroy h)
  | overrun {b : BufferChunk} {q : List BufferChunk} :
      ¬ Absorbs h p f b → f.length ≠ 0 → Overran h f b →
        Moved h p f (b :: q) (moveInto f b :: q) (f.destroy h)
  | keep {b : BufferChunk} {q : List BufferChunk} :
      ¬ Absorbs h p f b → f.length ≠ 0 → ¬ Overran h f b →
        Moved h p f (b :: q) (f :: b :: q) []

section
variable {h : Heap}

theorem moveFront_inv {p : Bool} {f : BufferChunk} {q q' : List BufferChunk} {ops : List RefOp}
    (hm : moveFront h p f q = .ok (q', ops)) : Moved h p f q q' ops := by
  cases q with
  | nil =>
      simp only [moveFront] at hm
      split at hm
      · next hf =>
          obtain ⟨rfl, rfl⟩ := Prod.mk.inj (Except.ok.inj hm)
          exact .last hf
      · next hf =>
          obtain ⟨rfl, rfl⟩ := Prod.mk.inj (Except.ok.inj hm)
          exact .keepLast hf
  | cons b q =>
      simp only [moveFront] at hm
      split at hm
      · next ha =>
          obtain ⟨rfl, rfl⟩ := Prod.mk.inj (Except.ok.inj hm)
          exact .absorb ha
      · next ha =>
          split at hm
          · next hf =>
              obtain ⟨rfl, rfl⟩ := Prod.mk.inj (Except.ok.inj hm)
              exact .drop ha hf
          · next hf =>
              split at hm
              · cases hm
              · split at hm
                · cases hm
                · split at hm
                  · next ho =>
                      obtain ⟨rfl, rfl⟩ := Prod.mk.inj (Except.ok.inj hm)
                      exact .overrun ha hf ho
                  · next ho =>
                      obtain ⟨rfl, rfl⟩ := Prod.mk.inj (Except.ok.inj hm)
                      exact .keep ha hf ho

/-- The rules assert nothing about chunks that have a managed buffer. -/
theorem moveFront_ok {p : Bool} {f : BufferChunk} {q : List BufferChunk}
    (hf : q = [] ∨ f.isSome = true) (hq : ∀ c ∈ q, c.isSome = true) :
    ∃ r, moveFront h p f q = .ok r := by
  cases q with
  | nil =>
      simp only [moveFront]
      split
      · exact ⟨_, rfl⟩
      · exact ⟨_, rfl⟩
  | cons b q =>
      have hf' : f.isSome = true := hf.resolve_left (List.cons_ne_nil b q)
      have hb : b.isSome = true := hq b List.mem_cons_self
      simp only [moveFront, hf', hb]
      split
      · exact ⟨_, rfl⟩
      · split
        · exact ⟨_, rfl⟩
        · simp only [Bool.true_eq_false, if_false]
          split
          · exact ⟨_, rfl⟩
          · exact ⟨_, rfl⟩

/-- The back of the queue is removed, or nothing is. -/
theorem removeBack_cases : ∀ q : List BufferChunk, removeBack h q = (q, []) ∨
    ∃ pre f b, q = pre ++ [f, b] ∧ b.managedBuffer = f.managedBuffer ∧ b.length = 0 ∧
      removeBack h q = (pre ++ [f], b.destroy h)
  | [] => .inl rfl
  | [_] => .inl rfl
  | [f, b] => by
      by_cases hb : b.managedBuffer = f.managedBuffer ∧ b.length = 0
      · exact .inr ⟨[], f, b, rfl, hb.1, hb.2, by simp [removeBack, hb]⟩
      · exact .inl (by simp only [removeBack, if_neg hb])
  | c :: d :: e :: q => by
      rcases removeBack_cases (d :: e :: q) with hr | ⟨pre, f, b, hq, hmb, hlen, hr⟩
      · exact .inl (by simp only [removeBack, hr])
      · exact .inr ⟨c :: pre, f, b, by rw [hq, List.cons_append], hmb, hlen,
          by simp only [removeBack, hr, List.cons_append]⟩

/-- A chunk of length zero at the start of its managed buffer. -/
structure Placeholder (h : Heap) (c : BufferChunk) : Prop where
  isSome : c.isSome = true
  length : c.length = 0
  nextBuffers : c.nextBuffers = 0
  address : c.address = (c.getBuffer h).address

/-- The next buffers of a chunk come back as placeholders, one for each. -/
theorem restoreNextBuffers_spec {mb : ManagedBuffer} {n : Nat}
    (hl : (BufferChunk.chain h (h.impl mb).nextBuffer n).length = n) :
    ∃ nexts, restoreNextBuffers h (some mb) n = .ok nexts ∧
      nexts.flatMap (BufferChunk.handles h) = BufferChunk.chain h (h.impl mb).nextBuffer n ∧
      ∀ c ∈ nexts, Placeholder h c := by
  induction n generalizing mb with
  | zero => exact ⟨[], rfl, by cases (h.impl mb).nextBuffer <;> rfl, by simp⟩
  | succ n ih =>
      cases hnext : (h.impl mb).nextBuffer with
      | none => rw [hnext] at hl; simp [BufferChunk.chain] at hl
      | some m =>
          rw [hnext, BufferChunk.chain, List.length_cons] at hl
          obtain ⟨rest, hrest, hrefs, hplace⟩ := ih (Nat.succ.inj hl)
          let c : BufferChunk := ⟨(h.buffer (some m)).address, 0, .unspecified, some m, 0⟩
          refine ⟨c :: rest, ?_, ?_, fun d hd => ?_⟩
          · rw [restoreNextBuffers]
            simp only [hnext, hrest, bind, Except.bind]
            rfl
          · rw [List.flatMap_cons, hrefs]
            simp [c, BufferChunk.handles, BufferChunk.nextList, BufferChunk.chain]
          · rcases List.mem_cons.mp hd with rfl | hd
            · exact ⟨rfl, rfl, rfl, rfl⟩
            · exact hplace d hd

/-- What a `push` that returns has done. -/
theorem push_inv {acc acc' : BufferAccumulator} {buffer : BufferChunk} {ops : List RefOp}
    (hp : acc.push h buffer = .ok (acc', ops)) :
    ∃ q going nexts, amalgamate h ((removeDummy h acc.queue).1 ++ [buffer]) = .ok (q, going) ∧
      restoreNextBuffers h buffer.managedBuffer buffer.nextBuffers = .ok nexts ∧
      acc' = { acc with queue := (removeBack h q).1 ++ nexts,
                        bytesAvailable := acc.bytesAvailable + buffer.length } ∧
      ops = (removeDummy h acc.queue).2 ++ (removeBack h q).2 ++
        nexts.flatMap (BufferChunk.acquire h) := by
  rw [push] at hp
  split at hp
  · cases hp
  · simp only [bind, Except.bind] at hp
    split at hp
    · cases hp
    · next r ha =>
        split at hp
        · cases hp
        · next nexts hn =>
            obtain ⟨rfl, rfl⟩ := Prod.mk.inj (Except.ok.inj hp)
            exact ⟨r.1, r.2, nexts, ha, hn, rfl, rfl⟩

/-- The same for a chunk whose next buffers exist: they come back as placeholders. -/
theorem push_spec {acc acc' : BufferAccumulator} {buffer : BufferChunk} {ops : List RefOp}
    (hsome : buffer.isSome = true) (hlinked : (buffer.nextList h).length = buffer.nextBuffers)
    (hp : acc.push h buffer = .ok (acc', ops)) :
    ∃ q going nexts, amalgamate h ((removeDummy h acc.queue).1 ++ [buffer]) = .ok (q, going) ∧
      acc' = { acc with queue := (removeBack h q).1 ++ nexts,
                        bytesAvailable := acc.bytesAvailable + buffer.length } ∧
      ops = (removeDummy h acc.queue).2 ++ (removeBack h q).2 ++
        nexts.flatMap (BufferChunk.acquire h) ∧
      nexts.flatMap (BufferChunk.handles h) = buffer.nextList h ∧
      ∀ c ∈ nexts, Placeholder h c := by
  obtain ⟨q, going, nexts, ha, hn, hacc, hops⟩ := push_inv hp
  obtain ⟨mb, hmb⟩ := Option.isSome_iff_exists.mp hsome
  have hlist : buffer.nextList h =
      BufferChunk.chain h (h.impl mb).nextBuffer buffer.nextBuffers := by
    rw [BufferChunk.nextList, hmb]
  rw [hlist] at hlinked ⊢
  obtain ⟨nexts', hn', hrefs, hplace⟩ := restoreNextBuffers_spec hlinked
  obtain rfl : nexts' = nexts := by
    rw [hmb] at hn
    exact Except.ok.inj (hn'.symm.trans hn)
  exact ⟨q, going, nexts', ha, hacc, hops, hrefs, hplace⟩

/-- A push onto chunks that all have a managed buffer returns. -/
theorem push_ok {acc : BufferAccumulator} {buffer : BufferChunk} (hne : acc.queue ≠ [])
    (hq : ∀ c ∈ (removeDummy h acc.queue).1 ++ [buffer], c.isSome = true)
    (hn : ∃ nexts, restoreNextBuffers h buffer.managedBuffer buffer.nextBuffers = .ok nexts) :
    ∃ r, acc.push h buffer = .ok r := by
  obtain ⟨q, going, ha, -⟩ := amalgamate_ok (h := h) hq
  obtain ⟨nexts, hn⟩ := hn
  rw [push, if_neg hne]
  simp only [bind, Except.bind, ha, hn]
  exact ⟨_, rfl⟩

/-- What a `pop` that returns has done. -/
theorem pop_inv {acc acc' : BufferAccumulator} {n : Nat} {ops : List RefOp}
    (hp : acc.pop h n = .ok (acc', ops)) :
    ∃ f q q' ops', acc.queue = f :: q ∧ n ≤ f.length ∧
      Moved h acc.inPoolBuffer (consume f n) q q' ops' ∧
      acc' = { acc with
        queue := orDummy (removeConsumed h q').1, bytesAvailable := acc.bytesAvailable - n,
        inPoolBuffer := acc.inPoolBuffer && q'.length == acc.queue.length } ∧
      ops = ops' ++ (removeConsumed h q').2 := by
  rw [pop] at hp
  split at hp
  · cases hp
  · split at hp
    · cases hp
    · next f q hq =>
        split at hp
        · cases hp
        · next hlen =>
            simp only [bind, Except.bind] at hp
            split at hp
            · cases hp
            · next r hm =>
                obtain ⟨rfl, rfl⟩ := Prod.mk.inj (Except.ok.inj hp)
                exact ⟨f, q, r.1, r.2, hq, Nat.le_of_not_lt hlen, moveFront_inv hm, rfl, rfl⟩

/-- A pop of no more than the front has returns. -/
theorem pop_ok {acc : BufferAccumulator} {n : Nat} {f : BufferChunk} {q : List BufferChunk}
    (hq : acc.queue = f :: q) (hn : n ≤ f.length) (hbytes : n ≤ acc.bytesAvailable)
    (hf : q = [] ∨ f.isSome = true) (hsome : ∀ c ∈ q, c.isSome = true) :
    ∃ r, acc.pop h n = .ok r := by
  obtain ⟨r, hr⟩ := moveFront_ok (h := h) (p := acc.inPoolBuffer) (f := consume f n) hf hsome
  rw [pop, if_neg (Nat.not_lt.mpr hbytes), hq]
  simp only [if_neg (Nat.not_lt.mpr hn), bind, Except.bind, hr]
  exact ⟨_, rfl⟩

end

end BufferAccumulator

end PothosCore.Framework

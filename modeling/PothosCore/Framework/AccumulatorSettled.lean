import PothosCore.Framework.AccumulatorCover
import PothosCore.Framework.AccumulatorContent

/-!
# PothosCore.Framework.AccumulatorSettled

What an accumulator keeps to whichever addresses its chunks have: its count of bytes is
the sum of the queue, its chunks have managed buffers, and the pool is stocked. Each call
returns then, and its accumulator keeps to the same (`Settled.push`, `Settled.require`,
`Settled.pop`).

A call also keeps the chunks behind the front in their own managed buffers, so that `pop`
takes no address below zero (`Settled.noWrap`).
-/

namespace PothosCore.Framework

open PothosCore.Lib

namespace BufferAccumulator

/-- **The invariant.** -/
structure Settled (h : Heap) (acc : BufferAccumulator) : Prop where
  available : acc.bytesAvailable = total acc.queue
  queue : Shaped acc.queue
  stocked : Stocked h acc.pool acc.queue

section
variable {h : Heap} {acc : BufferAccumulator}

theorem Settled.start (h : Heap) : Settled h .make where
  available := rfl
  queue := .inl rfl
  stocked := ⟨fun p hp => (by cases hp), fun mb hmb => (by cases hmb)⟩

/-- What a balanced change of the queue leaves of the pool. -/
theorem Stocked.change {pool : BufferPool} {q q' r : List BufferChunk} {ops : List RefOp}
    (hs : Stocked h pool r) (ho : Owned h (refs h q ++ refs h pool.buffs)) (hb : Balanced h ops q q') :
    Stocked (h.apply ops) pool q' := by
  refine ⟨fun p hp => (hs.pooled p hp).congr (getBuffer_apply h ops p), ?_⟩
  rw [refs_apply, refs_apply]
  exact ho.balanced hb

/-- A heap that agrees on what the accumulator refers to. -/
theorem Settled.other (hs : Settled h acc) {heap : Heap}
    (hagree : Agree h heap (refs h acc.queue ++ refs h acc.pool.buffs))
    (howned : Owned heap (refs h acc.queue ++ refs h acc.pool.buffs)) : Settled heap acc := by
  have hq : Agree h heap (refs h acc.queue) := fun mb hmb => hagree mb (List.mem_append_left _ hmb)
  have hp : Agree h heap (refs h acc.pool.buffs) := fun mb hmb => hagree mb (List.mem_append_right _ hmb)
  refine ⟨hs.available, hs.queue, fun p hpp => (hs.stocked.pooled p hpp).congr (hp.getBuffer p hpp), ?_⟩
  rw [hq.refs, hp.refs]
  exact howned

theorem Settled.push (hs : Settled h acc) {buffer : BufferChunk} (hsome : buffer.isSome = true)
    (hlinked : (buffer.nextList h).length = buffer.nextBuffers)
    (howned : Owned h (refs h (acc.queue ++ [buffer]) ++ refs h acc.pool.buffs)) :
    ∃ acc' ops, acc.push h buffer = .ok (acc', ops) ∧ Settled (h.apply ops) acc' ∧
      acc'.bytesAvailable = acc.bytesAvailable + buffer.length := by
  obtain ⟨mb, hmb⟩ := Option.isSome_iff_exists.mp hsome
  have hnexts : ∃ nexts, restoreNextBuffers h buffer.managedBuffer buffer.nextBuffers = .ok nexts := by
    have hl := hlinked
    rw [BufferChunk.nextList, hmb] at hl
    obtain ⟨nexts, hn, -⟩ := restoreNextBuffers_spec hl
    exact ⟨nexts, hmb ▸ hn⟩
  obtain ⟨⟨acc', ops⟩, hp⟩ := push_ok hs.queue.ne_nil (hs.queue.isSome_pushed hsome) hnexts
  obtain ⟨havail, htotal, -⟩ := push_content (fun _ => 0) hsome hlinked hp
  have hpool : acc'.pool = acc.pool := by
    obtain ⟨q, going, nexts, -, rfl, -⟩ := push_spec hsome hlinked hp
    rfl
  refine ⟨acc', ops, hp, ⟨?_, push_shape hsome hlinked hs.queue hp, ?_⟩, havail⟩
  · rw [havail, htotal, hs.available]
  · rw [hpool]
    exact hs.stocked.change howned (push_balanced hsome hlinked hp)

/-- The bytes of the front are there. -/
theorem Settled.front_le (hs : Settled h acc) : acc.front.length ≤ acc.bytesAvailable := by
  obtain ⟨f, q, hq⟩ := List.exists_cons_of_ne_nil hs.queue.ne_nil
  have hfront : acc.front = f := by rw [front, hq]; rfl
  rw [hs.available, hfront, hq, total_cons]
  exact Nat.le_add_right _ _

theorem Settled.pop (hs : Settled h acc) {n : Nat} (hn : n ≤ acc.front.length) :
    ∃ acc' ops, acc.pop h n = .ok (acc', ops) ∧ Settled (h.apply ops) acc' ∧
      acc'.bytesAvailable = acc.bytesAvailable - n := by
  have havail : n ≤ acc.bytesAvailable := hn.trans hs.front_le
  obtain ⟨f, q, hq⟩ := List.exists_cons_of_ne_nil hs.queue.ne_nil
  have hfront : acc.front = f := by rw [front, hq]; rfl
  have hshape := hs.queue
  rw [hq] at hshape
  obtain ⟨⟨acc', ops⟩, hp⟩ := pop_ok (h := h) hq (hfront ▸ hn) havail
    (hshape.front_cases.imp_left And.right) hshape.tail
  have hsame : acc'.pool = acc.pool ∧ acc'.bytesAvailable = acc.bytesAvailable - n := by
    obtain ⟨f', q₀, q', ops', -, -, -, rfl, -⟩ := pop_inv hp
    exact ⟨rfl, rfl⟩
  refine ⟨acc', ops, hp, ⟨?_, (pop_shape hs.queue hp).1, ?_⟩, hsame.2⟩
  · rw [hsame.2, hs.available, pop_total hp]
    exact Nat.add_sub_cancel_left _ _
  · rw [hsame.1]
    exact hs.stocked.change hs.stocked.owned (pop_balanced hp)

/-! ### require -/

/-- How far the copy loop fills the new buffer. -/
theorem fill_filled (h : Heap) (mem : Memory) (nb : BufferChunk) (room : Nat) (q : List BufferChunk) :
    (fill h mem nb room q).2.1.length = nb.length + min room (total q) := by
  induction q generalizing mem nb room with
  | nil => simp [fill]
  | cons f q ih =>
      rw [fill, total_cons]
      dsimp only
      split
      · next hdrain =>
          rw [ih]
          show nb.length + min room f.length + min (room - min room f.length) (total q) = _
          omega
      · show nb.length + min room f.length = _
        omega

/-- What `require` does: nothing, or it fills the pool's buffer. -/
structure Gathered (h : Heap) (acc : BufferAccumulator) (n : Nat) (fresh : Nat × Nat) (h' : Heap)
    (acc' : BufferAccumulator) : Prop where
  settled : Settled h' acc'
  available : acc'.bytesAvailable = acc.bytesAvailable
  enough : n ≤ acc.bytesAvailable → n ≤ acc'.front.length
  based : (∀ c ∈ acc.queue.tail, Based h c) → ∀ c ∈ acc'.queue.tail, Based h' c
  front : ¬ acc.Suffices h n →
    n ≤ (acc.pool.get h fresh n).2.1.length ∧
      acc'.front.managedBuffer = (acc.pool.get h fresh n).2.1.managedBuffer

theorem Settled.require (hs : Settled h acc) (mem : Memory) {fresh : Nat × Nat} (n : Nat)
    (hnew : fresh.1 ∉ refs h acc.queue ++ refs h acc.pool.buffs) :
    ∃ acc' h' mem', acc.require h mem fresh n = .ok (acc', h', mem') ∧ Gathered h acc n fresh h' acc' := by
  by_cases hsuff : acc.Suffices h n
  · refine ⟨acc, h, mem, ?_, hs, rfl, fun hn => ?_, fun hbased => hbased, absurd hsuff⟩
    · rw [BufferAccumulator.require, if_neg hs.queue.ne_nil, if_pos hsuff]
    · exact hsuff.elim id fun hfew => absurd hn (Nat.not_le.mpr hfew.1)
  · obtain ⟨pool, b, h', hget, hstocked, hmem, hmin, hagree⟩ := hs.stocked.get (n := n) hnew
    obtain ⟨hreq, hstocked'⟩ := hstocked.require mem hmem hs.queue.ne_nil hsuff hget
    have hpooled := hstocked.pooled b hmem
    have hlength : n ≤ b.length := by
      rw [hpooled.length, hmin]
      exact Nat.le_max_right _ _
    let nb : BufferChunk := { b with dtype := acc.front.dtype, length := 0 }
    let h₁ := h'.apply (b.acquire h')
    let r := fill h₁ mem nb b.length acc.queue
    obtain ⟨hsame, -, -, htotal⟩ := fill_shape h₁ mem nb b.length acc.queue
    have hfilled : r.2.1.length = 0 + min b.length (total acc.queue) := fill_filled h₁ mem nb b.length acc.queue
    refine ⟨_, _, _, hreq, ⟨?_, .inr ⟨List.cons_ne_nil _ _, fun c hc => ?_⟩, hstocked'⟩, rfl,
      fun hn => ?_, fun hbased => ?_, fun _ => ⟨?_, ?_⟩⟩
    · show acc.bytesAvailable = total (r.2.1 :: r.2.2.1)
      rw [hs.available, htotal, total_cons]
      exact (Nat.zero_add _).symm
    · cases List.mem_cons.mp hc with
      | inl hc =>
          rw [hc, BufferChunk.isSome, hsame]
          exact hpooled.isSome
      | inr hc => exact hs.queue.fill mem nb b.length c hc
    · show n ≤ r.2.1.length
      rw [hs.available] at hn
      omega
    · obtain ⟨f, q, hq⟩ := List.exists_cons_of_ne_nil hs.queue.ne_nil
      have hfront : acc.front = f := by rw [BufferAccumulator.front, hq]; rfl
      have hlt : acc.front.length < n := Nat.lt_of_not_le fun hle => hsuff (.inl hle)
      -- the loop drains the front, so what it leaves comes from behind it
      obtain ⟨mem', nb', room', hrest⟩ := fill_front h₁ mem nb f q (hfront ▸ hlt.le.trans hlength)
      have hgets : ∀ c ∈ acc.queue, c.getBuffer h₁ = c.getBuffer h := (hagree.trans (agree_apply h' _ _)).getBuffer
      have hbased₁ : ∀ c ∈ q, Based h₁ c := by
        rw [hq] at hbased
        intro c hc
        rw [Based, hgets c (hq ▸ List.mem_cons_of_mem f hc)]
        exact hbased c hc
      show ∀ c ∈ r.2.2.1, Based (h₁.apply r.2.2.2) c
      have hr : r.2.2.1 = (fill h₁ mem' nb' room' q).2.2.1 := by rw [← hrest, ← hq]
      rw [hr]
      intro c hc
      rw [Based, getBuffer_apply]
      exact fill_based mem' nb' room' hbased₁ c hc
    · rw [hget]
      exact hlength
    · show r.2.1.managedBuffer = _
      rw [hget, hsame]

/-- A buffer that `get` hands out is referred to by the pool alone. -/
theorem get_unshared {pool : BufferPool} {q : List BufferChunk} {fresh : Nat × Nat} {n : Nat}
    (ho : Owned h (refs h q ++ refs h pool.buffs)) (hnew : fresh.1 ∉ refs h q) :
    ∀ mb ∈ (pool.get h fresh n).2.1.managedBuffer, mb ∉ refs h q := by
  intro mb hmb hmem
  rcases get_cases pool h fresh n with ⟨b, hfind, hget⟩ | hget
  · rw [hget] at hmb
    have hmb : b.managedBuffer = some mb := hmb
    have hin := List.mem_of_find?_eq_some hfind
    have huse := List.find?_some hfind
    by_cases hgrow : pool.minBuffSize < n
    · rw [BufferPool.grow, if_pos hgrow] at hin
      cases hin
    · rw [BufferPool.grow, if_neg hgrow] at hin huse
      rw [hmb, beq_iff_eq] at huse
      have hcount := ho mb (List.mem_append_left _ hmem)
      have hq := List.count_pos_iff.mpr hmem
      have hpool : 0 < (refs h pool.buffs).count mb := List.count_pos_iff.mpr (mem_refs (h := h) hin hmb)
      rw [List.count_append] at hcount
      have huse : (h.impl mb).counter = 1 := huse
      omega
  · rw [hget] at hmb
    dsimp only at hmb
    rw [(allocate_spec _ fresh _).1] at hmb
    obtain rfl := Option.some.inj hmb
    exact hnew hmem

/-! ### Addresses of `pop` -/

/-- `pop` of `n` bytes subtracts no more than there is: from the count, from the length of
the front, and from the address of the chunk that what is left of the front is moved into,
also in the comparison that decides about the move. -/
structure NoWrap (h : Heap) (acc : BufferAccumulator) (n : Nat) : Prop where
  count : n ≤ acc.bytesAvailable
  length : n ≤ acc.front.length
  compared : ∀ b ∈ acc.queue[1]?, Based h b
  moved : ∀ b ∈ acc.queue[1]?, Absorbs h acc.inPoolBuffer (consume acc.front n) b ∨
    Overran h (consume acc.front n) b → (consume acc.front n).length ≤ b.address

theorem Settled.noWrap (hs : Settled h acc) (hbased : ∀ c ∈ acc.queue.tail, Based h c) {n : Nat}
    (hn : n ≤ acc.front.length) : NoWrap h acc n := by
  have hsecond : ∀ b ∈ acc.queue[1]?, Based h b := by
    intro b hb
    cases hq : acc.queue with
    | nil => rw [hq] at hb; cases hb
    | cons f q =>
        rw [hq] at hb hbased
        exact hbased b (List.mem_of_getElem? hb)
  refine ⟨hn.trans hs.front_le, hn, hsecond, fun b hb hrule => ?_⟩
  cases hrule with
  | inl habsorbs =>
      have hle := habsorbs.le (hsecond b hb)
      omega
  | inr hover =>
      have hend := hover.2
      rw [BufferChunk.getEnd] at hend
      omega

end

end BufferAccumulator

end PothosCore.Framework

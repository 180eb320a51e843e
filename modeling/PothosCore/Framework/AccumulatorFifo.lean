import PothosCore.Framework.AccumulatorCover

/-!
# PothosCore.Framework.AccumulatorFifo

The accumulator is a byte queue. `Flowing` is the invariant: the queue shows the
bytes of the abstract one, the counters account for the references, and the pool
buffers are covered, so that `require` writes to no queued byte. Every event that
is admitted and `Faithful` returns and keeps it.

Without `Faithful` the bytes go wrong: `require` on the empty queue leaves the
pool flag set on an empty front, and the next two pushes make it look as if the
front were a copy of what lies before the second chunk.
-/

namespace PothosCore.Framework

open PothosCore.Lib

namespace BufferAccumulator

section
variable {h h' : Heap} {p : BufferChunk} {q : List BufferChunk}

theorem based_congr (hg : ∀ c ∈ q, c.getBuffer h' = c.getBuffer h) (hb : ∀ c ∈ q, Based h c) :
    ∀ c ∈ q, Based h' c := by
  intro c hc
  rw [Based, hg c hc]
  exact hb c hc

theorem Covers.congr (hg : ∀ c ∈ q, c.getBuffer h' = c.getBuffer h) (hc : Covers h p q) :
    Covers h' p q := by
  induction q with
  | nil => trivial
  | cons c q ih =>
      refine ⟨fun x hx => ?_, ih (fun d hd => hg d (List.mem_cons_of_mem c hd)) hc.2⟩
      rw [hg c List.mem_cons_self] at hx
      exact hc.1 x hx

theorem CoversFront.congr (hg : ∀ c ∈ q, c.getBuffer h' = c.getBuffer h)
    (hc : CoversFront h p q) : CoversFront h' p q := by
  cases q with
  | nil => trivial
  | cons f q => exact ⟨hc.1, hc.2.congr fun d hd => hg d (List.mem_cons_of_mem f hd)⟩

end

namespace Stream

/-! ### The invariant -/

/-- What `require` relies on, for a queue `q`: different buffers of the pool have no
byte in common, and the queue covers them. -/
structure Ready (h : Heap) (pool : BufferPool) (q : List BufferChunk) : Prop
    extends Stocked h pool q where
  apart : ∀ p ∈ pool.buffs, ∀ p' ∈ pool.buffs, p'.managedBuffer = p.managedBuffer ∨
    Apart p'.address p'.length p.address p.length
  covers : ∀ p ∈ pool.buffs, CoversFront h p q

/-- **The invariant.** -/
structure Flowing (s : Stream) : Prop where
  bytes : content s.mem s.acc.queue = s.fifo
  available : s.acc.bytesAvailable = total s.acc.queue
  queue : Shaped s.acc.queue
  based : ∀ c ∈ s.acc.queue.tail, Based s.heap c
  ready : Ready s.heap s.acc.pool s.acc.queue

section
variable {s s' : Stream} {h h' : Heap}

theorem Flowing.start (heap : Heap) (mem : Memory) : Flowing (Stream.start heap mem) where
  bytes := rfl
  available := rfl
  queue := .inl rfl
  based := fun c hc => by cases hc
  ready := ⟨⟨fun p hp => (by cases hp), fun mb hmb => (by cases hmb)⟩,
    fun p hp => (by cases hp), fun p hp => (by cases hp)⟩

/-- A change of the queue leaves the pool ready, if the queue still covers it. -/
theorem Ready.balanced {ops : List RefOp} {pool : BufferPool} {q q' r : List BufferChunk}
    (hr : Ready h pool r) (ho : Owned h (refs h q ++ refs h pool.buffs)) (hb : Balanced h ops q q')
    (hc : ∀ p ∈ pool.buffs, CoversFront h p q') : Ready (h.apply ops) pool q' := by
  have hget := getBuffer_apply h ops
  refine ⟨⟨fun p hp => (hr.pooled p hp).congr (hget p), ?_⟩, hr.apart,
    fun p hp => (hc p hp).congr fun c _ => hget c⟩
  rw [refs_apply, refs_apply]
  exact ho.balanced hb

/-! ### push -/

/-- The bytes of an admitted chunk are covered by its own reference. -/
theorem Pushable.covers {buffer p : BufferChunk} (hadm : Pushable s buffer)
    (hp : p ∈ s.acc.pool.buffs) : Covers s.heap p [buffer] := by
  refine ⟨fun x hx hx' hpx hpx' => ?_, trivial⟩
  rcases hadm.separate p hp with hmb | hapart
  · rw [Holds, hmb]
    exact List.mem_cons_self
  · have hends := hadm.ends
    rw [BufferChunk.getEnd] at hpx'
    rw [SharedBuffer.getEnd] at hends
    unfold Apart at hapart
    omega

theorem Flowing.push (hf : Flowing s) {buffer : BufferChunk} (hadm : Pushable s buffer)
    (hfaith : s.Faithful (.push buffer)) :
    ∃ t, s.call (.push buffer) = .ok t ∧ Flowing t ∧
      t.fifo = s.fifo ++ readBytes s.mem buffer.address buffer.length := by
  obtain ⟨mb, hmb⟩ := Option.isSome_iff_exists.mp hadm.isSome
  have hnexts : ∃ nexts,
      restoreNextBuffers s.heap buffer.managedBuffer buffer.nextBuffers = .ok nexts := by
    have hl := hadm.linked
    rw [BufferChunk.nextList, hmb] at hl
    obtain ⟨nexts, hn, -⟩ := restoreNextBuffers_spec hl
    exact ⟨nexts, hmb ▸ hn⟩
  obtain ⟨⟨acc', ops⟩, hp⟩ := push_ok hf.queue.ne_nil
    (hf.queue.isSome_pushed hadm.isSome) hnexts
  have hpool : acc'.pool = s.acc.pool := by
    obtain ⟨q, going, nexts, -, rfl, -⟩ := push_spec hadm.isSome hadm.linked hp
    rfl
  obtain ⟨havail, htotal, hcontent⟩ :=
    push_content s.mem hadm.isSome hadm.linked hp
  have hqueue := push_shape hadm.isSome hadm.linked hf.queue hp
  have hbased := push_based hadm.isSome hadm.linked hadm.starts hf.based hp
  have howned : Owned s.heap (refs s.heap (s.acc.queue ++ [buffer]) ++
      refs s.heap s.acc.pool.buffs) := by
    refine hadm.owned.perm ?_
    rw [held, refs_append, List.append_assoc, List.append_assoc]
    exact List.Perm.append_left _ (List.perm_append_comm.trans (by simp))
  refine ⟨⟨acc', s.heap.apply ops, s.mem, s.fifo ++ readBytes s.mem buffer.address buffer.length⟩,
    by simp only [call, hp, bind, Except.bind], ⟨?_, ?_, hqueue, ?_, ?_⟩, rfl⟩
  · show content s.mem acc'.queue = _
    rw [hcontent hfaith, hf.bytes]
  · rw [havail, htotal, hf.available]
  · exact based_congr (fun c _ => getBuffer_apply s.heap ops c) hbased
  · show Ready (s.heap.apply ops) acc'.pool acc'.queue
    rw [hpool]
    exact hf.ready.balanced howned (push_balanced hadm.isSome hadm.linked hp) fun p hpp =>
      push_covers hadm.isSome hadm.linked hadm.starts hf.based hfaith hpp (hadm.covers hpp)
        (hf.ready.covers p hpp) hp

/-! ### pop -/

theorem Flowing.pop (hf : Flowing s) {n : Nat} (hadm : n ≤ s.acc.front.length)
    (hfaith : s.Faithful (.pop n)) :
    ∃ t, s.call (.pop n) = .ok t ∧ Flowing t ∧ t.fifo = s.fifo.drop n := by
  obtain ⟨f, q, hq⟩ := List.exists_cons_of_ne_nil hf.queue.ne_nil
  have hadm : n ≤ f.length := by
    rw [front, hq] at hadm
    exact hadm
  have havail : n ≤ s.acc.bytesAvailable := by
    rw [hf.available, hq, total_cons]
    exact hadm.trans (Nat.le_add_right _ _)
  have hshape := hf.queue
  rw [hq] at hshape
  obtain ⟨⟨acc', ops⟩, hp⟩ := pop_ok (h := s.heap) hq hadm havail
    (hshape.front_cases.imp_left And.right) hshape.tail
  have hpool : acc'.pool = s.acc.pool ∧ acc'.bytesAvailable = s.acc.bytesAvailable - n := by
    obtain ⟨f', q₀, q', ops', -, -, -, rfl, -⟩ := pop_inv hp
    exact ⟨rfl, rfl⟩
  have htotal := pop_total hp
  have hcontent := pop_content s.mem hf.based hp
  obtain ⟨hshape', htail⟩ := pop_shape hf.queue hp
  refine ⟨⟨acc', s.heap.apply ops, s.mem, s.fifo.drop n⟩,
    by simp only [call, hp, bind, Except.bind], ⟨?_, ?_, hshape', ?_, ?_⟩, rfl⟩
  · show content s.mem acc'.queue = _
    rw [hcontent.mpr hfaith, hf.bytes]
  · rw [hpool.2, hf.available, htotal]
    exact Nat.add_sub_cancel_left _ _
  · exact based_congr (fun c _ => getBuffer_apply s.heap ops c)
      fun c hc => hf.based c (htail c hc)
  · show Ready (s.heap.apply ops) acc'.pool acc'.queue
    rw [hpool.1]
    exact hf.ready.balanced hf.ready.owned (pop_balanced hp) fun p hpp =>
      pop_covers hf.based (hf.ready.pooled p hpp).getEnd.le (hf.ready.covers p hpp) hp

/-! ### require: the pool -/

theorem Ready.grow {pool : BufferPool} {q : List BufferChunk} (hr : Ready h pool q) (n : Nat) :
    Ready (pool.grow h n).2 (pool.grow h n).1 q := by
  obtain ⟨hs, -, hsub, ops, hops⟩ := hr.toStocked.grow n
  refine ⟨hs, fun p hp p' hp' => hr.apart p (hsub p hp) p' (hsub p' hp'), fun p hp => ?_⟩
  rw [hops]
  exact (hr.covers p (hsub p hp)).congr fun c _ => getBuffer_apply h ops c

/-- **A buffer of which the pool holds the only copy has no byte in the queue.** -/
theorem Ready.unique {pool : BufferPool} {q : List BufferChunk} (hr : Ready h pool q)
    (hb : ∀ c ∈ q.tail, Based h c) {b : BufferChunk} (hfind : pool.findUnique h = some b) :
    b ∈ pool.buffs ∧ ∀ c ∈ q, Apart b.address b.length c.address c.length := by
  have hmem : b ∈ pool.buffs := List.mem_of_find?_eq_some hfind
  have huse : h.useCount b.managedBuffer = 1 := by
    simpa using List.find?_some hfind
  refine ⟨hmem, (hr.covers b hmem).apart hb fun hhold => ?_⟩
  obtain ⟨mb, hmb⟩ := Option.isSome_iff_exists.mp (hr.pooled b hmem).isSome
  obtain ⟨c, hc, hcmb⟩ := List.mem_map.mp hhold
  have hq : 0 < (refs h q).count mb := List.count_pos_iff.mpr (mem_refs hc (hcmb.trans hmb))
  have hpool : 0 < (refs h pool.buffs).count mb := List.count_pos_iff.mpr (mem_refs hmem hmb)
  have hcount := hr.owned mb (List.mem_append_left _ (List.count_pos_iff.mp hq))
  rw [hmb, Heap.useCount] at huse
  rw [List.count_append] at hcount
  omega

/-- A new buffer of the pool. -/
theorem Ready.allocate {pool : BufferPool} {q : List BufferChunk} (hr : Ready h pool q)
    {fresh : Nat × Nat} (hnew : fresh.1 ∉ refs h q ++ refs h pool.buffs)
    (hclear : ∀ c ∈ q, c.getEnd ≤ fresh.2 ∨
      fresh.2 + pool.minBuffSize ≤ min (c.getBuffer h).address c.address)
    (hpool : ∀ p ∈ pool.buffs, Apart fresh.2 pool.minBuffSize p.address p.length) :
    let h' := BufferPool.allocate h fresh pool.minBuffSize
    let b := BufferChunk.ofManagedBuffer h' fresh.1
    Ready h' { pool with buffs := pool.buffs ++ [b] } q ∧
      ∀ c ∈ q, Apart b.address b.length c.address c.length := by
  intro h' b
  have hb : b = ⟨fresh.2, pool.minBuffSize, .unspecified, some fresh.1, 0⟩ :=
    (allocate_spec h fresh pool.minBuffSize).1
  have hagree := agree_allocate h hnew pool.minBuffSize
  have hq : Agree h h' (refs h q) := fun mb hmb => hagree mb (List.mem_append_left _ hmb)
  have hclear' := covers_of_clear (h := h) (p := b) (q := q) (by rw [hb]; exact hclear)
  have hnewApart : ∀ p ∈ pool.buffs, Apart b.address b.length p.address p.length := by
    rw [hb]
    exact hpool
  refine ⟨⟨hr.toStocked.allocate hnew, fun p hp p' hp' => ?_, fun p hp => ?_⟩, ?_⟩
  · rcases List.mem_append.mp hp with hp | hp
    · rcases List.mem_append.mp hp' with hp' | hp'
      · exact hr.apart p hp p' hp'
      · rw [List.mem_singleton.mp hp']
        exact .inr (hnewApart p hp)
    · rw [List.mem_singleton.mp hp]
      rcases List.mem_append.mp hp' with hp' | hp'
      · have := hnewApart p' hp'
        unfold Apart at this ⊢
        omega
      · rw [List.mem_singleton.mp hp']
        exact .inl rfl
  · rcases List.mem_append.mp hp with hp | hp
    · exact (hr.covers p hp).congr hq.getBuffer
    · rw [List.mem_singleton.mp hp]
      exact hclear'.2.congr hq.getBuffer
  · rw [hb]
    intro c hc
    have := hclear c hc
    rw [BufferChunk.getEnd] at this
    show Apart fresh.2 pool.minBuffSize c.address c.length
    unfold Apart
    omega

/-- **What `get` returns has no byte in the queue.** -/
theorem Ready.get {pool : BufferPool} {q : List BufferChunk} (hr : Ready h pool q)
    (hb : ∀ c ∈ q.tail, Based h c) {fresh : Nat × Nat} {n : Nat}
    (hnew : fresh.1 ∉ refs h q ++ refs h pool.buffs)
    (hclear : ∀ c ∈ q, c.getEnd ≤ fresh.2 ∨
      fresh.2 + max pool.minBuffSize n ≤ min (c.getBuffer h).address c.address)
    (hpool : ∀ p ∈ pool.buffs, Apart fresh.2 (max pool.minBuffSize n) p.address p.length) :
    ∃ pool' b h', pool.get h fresh n = (pool', b, h') ∧ Ready h' pool' q ∧ b ∈ pool'.buffs ∧
      pool'.minBuffSize = max pool.minBuffSize n ∧ Agree h h' (refs h q) ∧
      ∀ c ∈ q, Apart b.address b.length c.address c.length := by
  obtain ⟨-, hsize, hsub, ops, hops⟩ := hr.toStocked.grow n
  have hr₁ := hr.grow n
  have hnew₁ := hr.toStocked.new_grow n hnew
  have hgetBuffer : ∀ c, BufferChunk.getBuffer (pool.grow h n).2 c = c.getBuffer h := by
    rw [hops]
    exact getBuffer_apply h ops
  have hagree : Agree h (pool.grow h n).2 (refs h q) := hops ▸ agree_apply h ops _
  rcases get_cases pool h fresh n with ⟨b, hfind, hget⟩ | hget
  · obtain ⟨hmem, hfree⟩ := hr₁.unique (based_congr (fun c _ => hgetBuffer c) hb) hfind
    exact ⟨_, b, _, hget, hr₁, hmem, hsize, hagree, hfree⟩
  · obtain ⟨hr₂, hfree⟩ := hr₁.allocate hnew₁ (by simpa only [hgetBuffer, hsize] using hclear)
      (by rw [hsize]; exact fun p hp => hpool p (hsub p hp))
    refine ⟨_, _, _, hget, hr₂, List.mem_append_right _ (List.mem_singleton_self _), hsize,
      hagree.trans fun mb hmb => agree_allocate _ hnew₁ _ mb ?_, hfree⟩
    rw [hops, refs_apply]
    exact List.mem_append_left _ hmb

/-! ### require: the copy -/

theorem Flowing.require (hf : Flowing s) {n : Nat} {fresh : Nat × Nat}
    (hadm : Allocates s fresh (max s.acc.pool.minBuffSize n)) :
    ∃ t, s.call (.require n fresh) = .ok t ∧ Flowing t ∧ t.fifo = s.fifo := by
  by_cases hsuff : s.acc.Suffices s.heap n
  · refine ⟨s, ?_, hf, rfl⟩
    simp only [call, BufferAccumulator.require, if_neg hf.queue.ne_nil, if_pos hsuff, bind,
      Except.bind]
  · obtain ⟨pool', b, h', hget, hr, hmem, hsize, hagree, hfree⟩ :=
      hf.ready.get hf.based hadm.new hadm.queue hadm.pool
    obtain ⟨hreq, hs⟩ := hr.toStocked.require s.mem hmem hf.queue.ne_nil hsuff hget
    have hpooled := hr.pooled b hmem
    obtain ⟨f, q, hq⟩ := List.exists_cons_of_ne_nil hf.queue.ne_nil
    have hfront : s.acc.front = f := by rw [front, hq]; rfl
    let nb : BufferChunk := { b with dtype := s.acc.front.dtype, length := 0 }
    let h₁ := h'.apply (b.acquire h')
    let r := fill h₁ s.mem nb b.length s.acc.queue
    have hroom : f.length ≤ b.length := by
      rw [hpooled.length, hsize, ← hfront]
      have hlt : s.acc.front.length < n := Nat.lt_of_not_le fun hle => hsuff (.inl hle)
      exact hlt.le.trans (Nat.le_max_right _ _)
    -- the loop drains the front, so what it leaves comes from behind it
    obtain ⟨mem', nb', room', hrest⟩ := fill_front h₁ s.mem nb f q hroom
    have hr₁ : r.2.2.1 = (fill h₁ mem' nb' room' q).2.2.1 := by
      simp only [r, hq, hrest]
    have hget₁ : ∀ c ∈ s.acc.queue, c.getBuffer h₁ = c.getBuffer s.heap :=
      (hagree.trans (agree_apply h' _ _)).getBuffer
    have hbased : ∀ c ∈ q, Based h₁ c := by
      have hb := hf.based
      rw [hq] at hb
      exact based_congr (fun c hc => hget₁ c (hq ▸ List.mem_cons_of_mem f hc)) hb
    obtain ⟨hsame, -, hle, htotal⟩ := fill_shape h₁ s.mem nb b.length s.acc.queue
    have hmb : r.2.1.managedBuffer = b.managedBuffer := by rw [hsame]
    have hgetr := getBuffer_apply h₁ r.2.2.2
    refine ⟨⟨⟨r.2.1 :: r.2.2.1, s.acc.bytesAvailable, true, pool'⟩, h₁.apply r.2.2.2, r.1, s.fifo⟩,
      by simp only [call, hreq, bind, Except.bind]; rfl,
      ⟨?_, ?_, .inr ⟨List.cons_ne_nil _ _, fun c hc => ?_⟩, ?_, hs, hr.apart,
        fun p hp => ⟨fun x hx hx' hpx hpx' => ?_, ?_⟩⟩, rfl⟩
    · rw [← hf.bytes]
      exact fill_content s.mem nb b.length (by rw [Nat.zero_add]; exact hfree)
    · rw [hf.available]
      exact (htotal.trans (Nat.zero_add _)).symm
    · rcases List.mem_cons.mp hc with rfl | hc
      · rw [BufferChunk.isSome, hmb]
        exact hpooled.isSome
      · exact hf.queue.fill s.mem nb b.length c hc
    · show ∀ c ∈ r.2.2.1, Based (h₁.apply r.2.2.2) c
      rw [hr₁]
      exact based_congr (fun c _ => hgetr c) (fill_based mem' nb' room' hbased)
    · rcases hr.apart b hmem p hp with hpb | hapart
      · rw [Holds, hpb, ← hmb]
        exact List.mem_cons_self
      · have hx : r.2.1.address ≤ x := hx
        have hx' : x < r.2.1.address + r.2.1.length := hx'
        have haddr : r.2.1.address = b.address := by rw [hsame]
        have hle : r.2.1.length ≤ 0 + b.length := hle
        rw [BufferChunk.getEnd] at hpx'
        unfold Apart at hapart
        omega
    · have hcover := hr.covers p hp
      rw [hq] at hcover
      show Covers (h₁.apply r.2.2.2) p r.2.2.1
      rw [hr₁]
      exact (fill_covers mem' nb' room' (hcover.2.congr fun c _ => getBuffer_apply h' _ c)).congr
        fun c _ => hgetr c

/-! ### Between the calls -/

theorem Flowing.other (hf : Flowing s) {heap : Heap} {mem : Memory}
    (hadm : Undisturbed s heap mem) : Flowing { s with heap := heap, mem := mem } := by
  have hq : Agree s.heap heap (refs s.heap s.acc.queue) :=
    fun mb hmb => hadm.impls mb (List.mem_append_left _ hmb)
  have hp : Agree s.heap heap (refs s.heap s.acc.pool.buffs) :=
    fun mb hmb => hadm.impls mb (List.mem_append_right _ hmb)
  refine ⟨?_, hf.available, hf.queue, ?_, ⟨fun p hpp => ?_, ?_⟩, hf.ready.apart,
    fun p hpp => (hf.ready.covers p hpp).congr hq.getBuffer⟩
  · rw [← hf.bytes]
    refine content_congr fun c hc => readBytes_congr fun x hx hx' => ?_
    have := hadm.bytes c hc (x - c.address) (by omega)
    rwa [Nat.add_sub_cancel' hx] at this
  · exact based_congr (fun c hc => hq.getBuffer c (List.mem_of_mem_tail hc)) hf.based
  · exact (hf.ready.pooled p hpp).congr (hp.getBuffer p hpp)
  · show Owned heap (refs heap s.acc.queue ++ refs heap s.acc.pool.buffs)
    rw [hq.refs, hp.refs]
    exact hadm.owned

/-! ### Runs -/

/-- What an event does to the byte queue. -/
def advance (s : Stream) : Event → List UInt8
  | .push buffer => s.fifo ++ readBytes s.mem buffer.address buffer.length
  | .pop numBytes => s.fifo.drop numBytes
  | _ => s.fifo

/-- **An admitted event whose comparisons tell the truth returns, and keeps the
invariant.** -/
theorem Flowing.step (hf : Flowing s) {e : Event} (hadm : s.Admits e) (hfaith : s.Faithful e) :
    ∃ t, s.step e = some t ∧ Flowing t ∧ t.fifo = s.advance e := by
  have hcall : ∃ t, s.call e = .ok t ∧ Flowing t ∧ t.fifo = s.advance e := by
    cases e with
    | push buffer => exact hf.push hadm hfaith
    | require n fresh => exact hf.require hadm
    | pop n => exact hf.pop hadm hfaith
    | other heap mem => exact ⟨_, rfl, hf.other hadm, rfl⟩
  obtain ⟨t, ht, hft, hadv⟩ := hcall
  refine ⟨t, ?_, hft, hadv⟩
  rw [Stream.step, if_pos hadm, ht]
  rfl

/-- The invariant along a run. -/
theorem Flowing.run {es : List Event} (hf : Flowing s)
    (hrun : Exec (restrict (ofPartial Stream.step) Stream.Faithful) s es s') : Flowing s' := by
  refine hrun.invariant (fun t e t' ht hstep => ?_) hf
  obtain ⟨u, hu, hfu, -⟩ := ht.step (step_inv hstep.1).1 hstep.2
  obtain rfl : u = t' := Option.some.inj (hu.symm.trans hstep.1)
  exact hfu

/-- A `pop` shows the right bytes exactly if its comparison tells the truth. -/
theorem Flowing.pop_iff (hf : Flowing s) {n : Nat} (hstep : s.step (.pop n) = some s') :
    content s'.mem s'.acc.queue = s'.fifo ↔ s.Faithful (.pop n) := by
  have hcall := (step_inv hstep).2
  simp only [call, bind, Except.bind] at hcall
  split at hcall
  · cases hcall
  · next r hp =>
      obtain rfl := Except.ok.inj hcall
      rw [Faithful, ← pop_content s.mem hf.based hp, hf.bytes]

end

/-- **The accumulator is a byte queue.** In a run whose address comparisons tell
the truth the queue shows the bytes pushed and not yet popped, every call
returns, and a `pop` goes wrong exactly if it takes other bytes for those left in
a pool buffer. -/
theorem content_eq_fifo {heap : Heap} {mem : Memory} {es : List Event} {s : Stream}
    (hrun : Exec (restrict (ofPartial Stream.step) Stream.Faithful) (start heap mem) es s) :
    content s.mem s.acc.queue = s.fifo ∧ s.acc.bytesAvailable = s.fifo.length ∧
      (∀ e, s.Admits e → s.Faithful e → ∃ t, s.step e = some t ∧ t.fifo = s.advance e) ∧
      ∀ n t, s.step (.pop n) = some t →
        (content t.mem t.acc.queue = t.fifo ↔ s.Faithful (.pop n)) := by
  have hf := (Flowing.start heap mem).run hrun
  refine ⟨hf.bytes, ?_, fun e hadm hfaith => ?_, fun n t hstep => hf.pop_iff hstep⟩
  · rw [hf.available, ← content_length, hf.bytes]
  · obtain ⟨t, ht, -, hadv⟩ := hf.step hadm hfaith
    exact ⟨t, ht, hadv⟩

/-- Two blocks of memory, the second referred to twice. -/
def twoBlocks : Heap :=
  ((Heap.empty.create 1 ⟨100, 16, 0⟩ 0).create 2 ⟨200, 16, 0⟩ 0).apply [.incr 2]

/-- Every byte tells its address. -/
def addressed : Memory := fun x => UInt8.ofNat x

/-- Two chunks are copied to the pool, and what is left of the copy is absorbed
into the chunk that follows the second. -/
theorem content_eq_fifo_absorbed : ∃ s, Exec (restrict (ofPartial Stream.step) Stream.Faithful)
    (start twoBlocks addressed)
    [.push ⟨100, 4, .unspecified, some 1, 0⟩, .push ⟨200, 8, .unspecified, some 2, 0⟩,
      .require 8 (3, 1000), .push ⟨208, 4, .unspecified, some 2, 0⟩, .pop 8] s ∧
    content s.mem s.acc.queue = [204, 205, 206, 207, 208, 209, 210, 211] ∧
    s.acc.front.address = 204 := by
  have hrun : (runPartial (guarded Stream.step Stream.Faithful) (start twoBlocks addressed)
      [.push ⟨100, 4, .unspecified, some 1, 0⟩, .push ⟨200, 8, .unspecified, some 2, 0⟩,
        .require 8 (3, 1000), .push ⟨208, 4, .unspecified, some 2, 0⟩, .pop 8]).map
      (fun s => (s.fifo, s.acc.front.address)) =
        some ([204, 205, 206, 207, 208, 209, 210, 211], 204) := by decide +kernel
  obtain ⟨s, hs, hval⟩ := Option.map_eq_some_iff.mp hrun
  have hexec := exec_of_runPartial hs
  rw [ofPartial_guarded] at hexec
  obtain ⟨hfifo, haddr⟩ := Prod.mk.inj hval
  exact ⟨s, hexec, (content_eq_fifo hexec).1.trans hfifo, haddr⟩

/-- `require` on the empty queue sets the pool flag; after two pushes a `pop` takes
the bytes before the second chunk for the rest of the first. -/
theorem content_ne_fifo_stale_flag : ∃ s, Exec (ofPartial Stream.step) (start twoBlocks addressed)
    [.require 4 (3, 1000), .push ⟨100, 4, .unspecified, some 1, 0⟩,
      .push ⟨208, 4, .unspecified, some 2, 0⟩, .pop 2] s ∧
    s.fifo = [102, 103, 208, 209, 210, 211] ∧
    content s.mem s.acc.queue = [206, 207, 208, 209, 210, 211] := by
  have hrun : (runPartial Stream.step (start twoBlocks addressed)
      [.require 4 (3, 1000), .push ⟨100, 4, .unspecified, some 1, 0⟩,
        .push ⟨208, 4, .unspecified, some 2, 0⟩, .pop 2]).map
      (fun s => (s.fifo, content s.mem s.acc.queue)) =
        some ([102, 103, 208, 209, 210, 211], [206, 207, 208, 209, 210, 211]) := by
    decide +kernel
  obtain ⟨s, hs, hval⟩ := Option.map_eq_some_iff.mp hrun
  obtain ⟨hfifo, hcontent⟩ := Prod.mk.inj hval
  exact ⟨s, exec_of_runPartial hs, hfifo, hcontent⟩

end Stream

end BufferAccumulator

end PothosCore.Framework

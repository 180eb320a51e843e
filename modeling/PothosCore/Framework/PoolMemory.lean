import PothosCore.Framework.AccumulatorSettled

/-!
# PothosCore.Framework.PoolMemory

The memory of the buffers of a pool. An allocator returns memory that nobody uses, so the
buffers that somebody refers to have no address in common; and `get` hands out a buffer
to which nobody else refers, so a chunk of it has none in common with the chunks that
others hold.
-/

namespace PothosCore.Framework

open PothosCore.Lib BufferAccumulator

/-- The two buffers have no address in common, in their first mappings. -/
def SharedBuffer.Apart (a b : SharedBuffer) : Prop := a.getEnd ≤ b.address ∨ b.getEnd ≤ a.address

instance (a b : SharedBuffer) : Decidable (a.Apart b) := by
  unfold SharedBuffer.Apart; infer_instance

theorem SharedBuffer.Apart.symm {a b : SharedBuffer} (h : a.Apart b) : b.Apart a := Or.symm h

namespace BufferPool

/-- The buffers that the pool or a holder of `q` refers to. -/
def refs (h : Heap) (pool : BufferPool) (q : List BufferChunk) : List ManagedBuffer :=
  BufferAccumulator.refs h q ++ BufferAccumulator.refs h pool.buffs

/-- What the allocator may return for a request of this size: a new managed buffer, and
memory apart from that of the buffers in use. A larger request drops the entries first. -/
def Allocates (h : Heap) (pool : BufferPool) (q : List BufferChunk) (numBytes : Nat) (fresh : Nat × Nat) : Prop :=
  fresh.1 ∉ pool.refs h q ∧ ∀ mb ∈ (pool.grow h numBytes).1.refs h q,
    (h.impl mb).buffer.Apart ⟨fresh.2, (pool.grow h numBytes).1.minBuffSize, 0⟩

instance (h : Heap) (pool : BufferPool) (q : List BufferChunk) (numBytes : Nat) (fresh : Nat × Nat) :
    Decidable (Allocates h pool q numBytes fresh) := by
  unfold Allocates; infer_instance

/-- The chunk is part of one managed buffer. -/
def Part (h : Heap) (c : BufferChunk) (mb : ManagedBuffer) : Prop :=
  c.managedBuffer = some mb ∧ c.nextBuffers = 0 ∧ (h.impl mb).buffer.address ≤ c.address ∧
    c.getEnd ≤ (h.impl mb).buffer.getEnd

/-- A pool, and the chunks `q` that others hold. -/
structure Supplied (h : Heap) (pool : BufferPool) (q : List BufferChunk) : Prop where
  stocked : Stocked h pool q
  part : ∀ c ∈ q, ∃ mb, Part h c mb
  apart : ∀ a ∈ pool.refs h q, ∀ b ∈ pool.refs h q, a ≠ b → (h.impl a).buffer.Apart (h.impl b).buffer

section
variable {h h' : Heap} {pool : BufferPool} {q q' : List BufferChunk} {c : BufferChunk} {mb : ManagedBuffer}

theorem Part.handles (hc : Part h c mb) : c.handles h = [mb] := by
  obtain ⟨hmb, hzero, -⟩ := hc
  unfold BufferChunk.handles BufferChunk.nextList
  rw [hmb, hzero]
  simp [BufferChunk.chain]

theorem Part.apply (hc : Part h c mb) (ops : List RefOp) : Part (h.apply ops) c mb := by
  unfold Part
  rw [Heap.apply_impl_buffer]
  exact hc

theorem refs_apply (ops : List RefOp) : pool.refs (h.apply ops) q = pool.refs h q := by
  unfold refs
  rw [BufferAccumulator.refs_apply, BufferAccumulator.refs_apply]

theorem Supplied.make (h : Heap) : Supplied h .make [] where
  stocked := ⟨fun p hp => (by cases hp), fun mb hmb => (by cases hmb)⟩
  part := fun c hc => (by cases hc)
  apart := fun a ha => (by cases ha)

/-- Other holders of the same buffers. -/
theorem Supplied.regroup (hs : Supplied h pool q) {ops : List RefOp}
    (howned : Owned (h.apply ops) (pool.refs h q')) (hpart : ∀ c ∈ q', ∃ mb, Part h c mb)
    (hsub : ∀ mb ∈ pool.refs h q', mb ∈ pool.refs h q) : Supplied (h.apply ops) pool q' where
  stocked := by
    refine ⟨fun p hp => (hs.stocked.pooled p hp).congr (getBuffer_apply h ops p), ?_⟩
    rw [BufferAccumulator.refs_apply, BufferAccumulator.refs_apply]
    exact howned
  part := fun c hc => by
    obtain ⟨mb, hpart⟩ := hpart c hc
    exact ⟨mb, hpart.apply ops⟩
  apart := by
    intro a ha b hb hne
    rw [refs_apply] at ha hb
    rw [Heap.apply_impl_buffer, Heap.apply_impl_buffer]
    exact hs.apart a (hsub a ha) b (hsub b hb) hne

/-- A chunk of a buffer in use refers to no other. -/
theorem mem_refs_hold {out : BufferChunk} (hout : Part h out mb) (hmem : mb ∈ pool.refs h q) {x : ManagedBuffer}
    (hx : x ∈ pool.refs h (q ++ [out])) : x ∈ pool.refs h q := by
  rw [refs, refs_append, refs_cons, refs_nil, List.append_nil, hout.handles, List.append_assoc] at hx
  rcases List.mem_append.mp hx with hx | hx
  · exact List.mem_append_left _ hx
  · rcases List.mem_append.mp hx with hx | hx
    · obtain rfl := List.mem_singleton.mp hx
      exact hmem
    · exact List.mem_append_right _ hx

/-- Another chunk of a buffer in use is held: a copy, and a reference with it. -/
theorem Supplied.hold (hs : Supplied h pool q) {b out : BufferChunk} (hb : Part h b mb)
    (hmem : mb ∈ pool.refs h q) (hout : Part h out mb) :
    Supplied (h.apply (b.acquire h)) pool (q ++ [out]) := by
  have hrefs : pool.refs h (q ++ [out]) = BufferAccumulator.refs h q ++
      (b.handles h ++ BufferAccumulator.refs h pool.buffs) := by
    rw [refs, refs_append, refs_cons, refs_nil, List.append_nil, hb.handles, hout.handles, List.append_assoc]
  refine hs.regroup ?_ (fun x hx => ?_) fun x hx => ?_
  · rw [hrefs]
    refine (hs.stocked.owned.acquire fun x hx => ?_).perm (List.perm_append_comm_assoc _ _ _)
    rw [hb.handles] at hx
    obtain rfl := List.mem_singleton.mp hx
    exact hmem
  · rcases List.mem_append.mp hx with hx | hx
    · exact hs.part x hx
    · obtain rfl := List.mem_singleton.mp hx
      exact ⟨mb, hout⟩
  · exact mem_refs_hold hout hmem hx

/-- A chunk is copied. -/
theorem Supplied.share (hs : Supplied h pool q) (hc : c ∈ q) :
    Supplied (h.apply (c.acquire h)) pool (q ++ [c]) := by
  obtain ⟨mb, hpart⟩ := hs.part c hc
  exact hs.hold hpart (List.mem_append_left _ (mem_refs hc hpart.1)) hpart

theorem refs_perm (hq : q.Perm q') : (pool.refs h q).Perm (pool.refs h q') :=
  (hq.flatMap_right _).append_right _

theorem Supplied.perm (hs : Supplied h pool q) (hq : q.Perm q') : Supplied h pool q' where
  stocked := ⟨hs.stocked.pooled, hs.stocked.owned.perm (refs_perm hq)⟩
  part := fun c hc => hs.part c (hq.mem_iff.mpr hc)
  apart := fun a ha b hb => hs.apart a ((refs_perm hq).mem_iff.mpr ha) b ((refs_perm hq).mem_iff.mpr hb)

/-- The buffers of a chunk and those of the others. -/
theorem refs_perm_cons (hq : q.Perm (c :: q')) : (pool.refs h q).Perm (c.handles h ++ pool.refs h q') := by
  rw [refs, refs, ← List.append_assoc]
  exact (hq.flatMap_right _).append_right _

/-- A chunk is released. -/
theorem Supplied.release (hs : Supplied h pool q) (hq : q.Perm (c :: q')) :
    Supplied (h.apply (c.destroy h)) pool q' := by
  have hperm : (pool.refs h q).Perm (c.handles h ++ pool.refs h q') := refs_perm_cons hq
  refine hs.regroup (fun mb hmb => ?_) (fun x hx => ?_) fun mb hmb => ?_
  · have hcount := hs.stocked.owned mb (hperm.mem_iff.mpr (List.mem_append_right _ hmb))
    have heq := hperm.count_eq mb
    rw [refs] at heq
    rw [heq, List.count_append] at hcount
    rw [Heap.apply_counter, net_destroy]
    push_cast at hcount
    linarith
  · exact hs.part x (hq.mem_iff.mpr (List.mem_cons_of_mem _ hx))
  · exact hperm.mem_iff.mpr (List.mem_append_right _ hmb)

/-! ### `get` -/

/-- Growing drops references, and moves no memory. -/
theorem Supplied.refs_grow (hs : Supplied h pool q) {n : Nat} :
    (pool.grow h n).1.refs (pool.grow h n).2 q = (pool.grow h n).1.refs h q ∧
      (∀ x ∈ (pool.grow h n).1.refs h q, x ∈ pool.refs h q) ∧
      ∀ x, ((pool.grow h n).2.impl x).buffer = (h.impl x).buffer := by
  obtain ⟨-, -, hsub, ops, hops⟩ := hs.stocked.grow n
  refine ⟨by rw [hops, refs_apply], fun x hx => ?_, fun x => by rw [hops, Heap.apply_impl_buffer]⟩
  rcases List.mem_append.mp hx with hx | hx
  · exact List.mem_append_left _ hx
  · obtain ⟨p, hp, hpx⟩ := List.mem_flatMap.mp hx
    exact List.mem_append_right _ (List.mem_flatMap.mpr ⟨p, hsub p hp, hpx⟩)

/-- The buffers in use after `get`: those from before, where they were, and the new one. -/
theorem Supplied.refs_get (hs : Supplied h pool q) {n : Nat} {fresh : Nat × Nat}
    (hnew : pool.Allocates h q n fresh) {pool' : BufferPool} {b : BufferChunk}
    (hget : pool.get h fresh n = (pool', b, h')) {x : ManagedBuffer} (hx : x ∈ pool'.refs h' q) :
    (x ∈ (pool.grow h n).1.refs h q ∧ (h'.impl x).buffer = (h.impl x).buffer) ∨
      (x = fresh.1 ∧ (h'.impl x).buffer = ⟨fresh.2, (pool.grow h n).1.minBuffSize, 0⟩) := by
  obtain ⟨hsame, hsub, hbuffer⟩ := hs.refs_grow (n := n)
  rcases get_cases pool h fresh n with ⟨b', -, hfound⟩ | hmade
  · obtain ⟨rfl, -, rfl⟩ : (pool.grow h n).1 = pool' ∧ b' = b ∧ (pool.grow h n).2 = h' := by
      simpa using hfound.symm.trans hget
    rw [hsame] at hx
    exact .inl ⟨hx, hbuffer x⟩
  · have hfresh : fresh.1 ∉ (pool.grow h n).1.refs (pool.grow h n).2 q := by
      rw [hsame]
      exact fun hmem => hnew.1 (hsub _ hmem)
    have hagree := agree_allocate (pool.grow h n).2 hfresh (pool.grow h n).1.minBuffSize
    have hq : Agree (pool.grow h n).2 (allocate (pool.grow h n).2 fresh (pool.grow h n).1.minBuffSize)
        (BufferAccumulator.refs (pool.grow h n).2 q) := fun mb hmb => hagree mb (List.mem_append_left _ hmb)
    have hbuffs : Agree (pool.grow h n).2 (allocate (pool.grow h n).2 fresh (pool.grow h n).1.minBuffSize)
        (BufferAccumulator.refs (pool.grow h n).2 (pool.grow h n).1.buffs) :=
      fun mb hmb => hagree mb (List.mem_append_right _ hmb)
    obtain ⟨hb, hpooled, -⟩ := allocate_spec (pool.grow h n).2 fresh (pool.grow h n).1.minBuffSize
    obtain ⟨rfl, -, rfl⟩ : _ = pool' ∧ _ = b ∧ _ = h' := by simpa using hmade.symm.trans hget
    rw [refs, hq.refs, refs_append, hbuffs.refs, refs_cons, hpooled.handles, hb, refs_nil, List.append_nil,
      ← List.append_assoc] at hx
    rcases List.mem_append.mp hx with hx | hx
    · refine .inl ⟨hsame ▸ hx, ?_⟩
      rw [(hagree x hx).1, hbuffer]
    · obtain rfl : x = fresh.1 := by simpa using hx
      refine .inr ⟨rfl, ?_⟩
      rw [allocate, Heap.create_impl, if_pos rfl]

/-- What holds of the memory in use and of new memory holds of the memory in use after `get`. -/
theorem Supplied.get_forall (hs : Supplied h pool q) {n : Nat} {fresh : Nat × Nat}
    (hnew : pool.Allocates h q n fresh) {pool' : BufferPool} {b : BufferChunk}
    (hget : pool.get h fresh n = (pool', b, h')) {P : SharedBuffer → Prop}
    (hold : ∀ x ∈ pool.refs h q, P (h.impl x).buffer)
    (hfresh : P ⟨fresh.2, (pool.grow h n).1.minBuffSize, 0⟩) :
    ∀ x ∈ pool'.refs h' q, P (h'.impl x).buffer := by
  intro x hx
  obtain ⟨-, hsub, -⟩ := hs.refs_grow (n := n)
  rcases hs.refs_get hnew hget hx with ⟨hx, hbuffer⟩ | ⟨-, hbuffer⟩
  · rw [hbuffer]
    exact hold x (hsub x hx)
  · rw [hbuffer]
    exact hfresh

/-- **`get`** hands out all of a buffer to which the pool alone refers. -/
theorem Supplied.get (hs : Supplied h pool q) {n : Nat} {fresh : Nat × Nat}
    (hnew : pool.Allocates h q n fresh) :
    ∃ pool' b h' mb, pool.get h fresh n = (pool', b, h') ∧ Supplied h' pool' q ∧ b.copy h' = b ∧
      Part h' b mb ∧ n ≤ b.length ∧ mb ∈ BufferAccumulator.refs h' pool'.buffs ∧
      mb ∉ BufferAccumulator.refs h' q := by
  have hid : fresh.1 ∉ BufferAccumulator.refs h q ++ BufferAccumulator.refs h pool.buffs := hnew.1
  obtain ⟨pool', b, h', hget, hstocked, hb, hsize, hagree⟩ := hs.stocked.get (n := n) hid
  have hpooled := hstocked.pooled b hb
  obtain ⟨mb, hmb⟩ := Option.isSome_iff_exists.mp hpooled.isSome
  have hbuffer : b.getBuffer h' = (h'.impl mb).buffer := by rw [BufferChunk.getBuffer, hmb]; rfl
  have hunshared := get_unshared hs.stocked.owned (fun hm => hid (List.mem_append_left _ hm)) (n := n) mb
    (by rw [hget]; exact hmb)
  refine ⟨pool', b, h', mb, hget, ⟨hstocked, fun c hc => ?_, fun x hx y hy hne => ?_⟩,
    BufferChunk.copy_of_le h' b hpooled.getEnd.le hpooled.nextBuffers,
    ⟨hmb, hpooled.nextBuffers, by rw [hpooled.address, hbuffer], by rw [hpooled.getEnd, hbuffer]⟩, ?_,
    mem_refs hb hmb, by rw [hagree.refs]; exact hunshared⟩
  · obtain ⟨x, hx⟩ := hs.part c hc
    refine ⟨x, ?_⟩
    have hsame := (hagree x (mem_refs hc hx.1)).1
    unfold Part
    rw [hsame]
    exact hx
  · obtain ⟨-, hsub, -⟩ := hs.refs_grow (n := n)
    rcases hs.refs_get hnew hget hx with ⟨hx, hxb⟩ | ⟨rfl, hxb⟩ <;>
      rcases hs.refs_get hnew hget hy with ⟨hy, hyb⟩ | ⟨hyf, hyb⟩ <;> rw [hxb, hyb]
    · exact hs.apart x (hsub x hx) y (hsub y hy) hne
    · exact hnew.2 x hx
    · exact (hnew.2 y hy).symm
    · exact absurd hyf.symm hne
  · rw [hpooled.length, hsize]
    exact Nat.le_max_right _ _

end

end BufferPool

end PothosCore.Framework

import PothosCore.Framework.AccumulatorRefs

/-!
# PothosCore.Framework.AccumulatorPool

The pool of an accumulator: what `get` does to its buffers and to the counters.
Every buffer of the pool is all of a managed buffer that the pool made.
-/

namespace PothosCore.Framework

open PothosCore.Lib

namespace BufferAccumulator

/-- A buffer as the pool made it. -/
structure Pooled (h : Heap) (size : Nat) (p : BufferChunk) : Prop where
  isSome : p.isSome = true
  nextBuffers : p.nextBuffers = 0
  length : p.length = size
  address : p.address = (p.getBuffer h).address
  size : (p.getBuffer h).length = size

/-- What `get` starts from and what it leaves, for a queue `q`. -/
structure Stocked (h : Heap) (pool : BufferPool) (q : List BufferChunk) : Prop where
  pooled : ∀ p ∈ pool.buffs, Pooled h pool.minBuffSize p
  owned : Owned h (refs h q ++ refs h pool.buffs)

section
variable {h h' : Heap}

theorem Pooled.congr {size : Nat} {p : BufferChunk} (hp : Pooled h size p)
    (hg : p.getBuffer h' = p.getBuffer h) : Pooled h' size p where
  isSome := hp.isSome
  nextBuffers := hp.nextBuffers
  length := hp.length
  address := hg ▸ hp.address
  size := hg ▸ hp.size

theorem Pooled.getEnd {size : Nat} {p : BufferChunk} (hp : Pooled h size p) :
    p.getEnd = (p.getBuffer h).getEnd := by
  rw [BufferChunk.getEnd, SharedBuffer.getEnd, hp.address, hp.length, hp.size]

theorem Pooled.handles {size : Nat} {p : BufferChunk} (hp : Pooled h size p) :
    p.handles h = p.managedBuffer.toList := by
  unfold BufferChunk.handles BufferChunk.nextList
  rw [hp.nextBuffers]
  cases p.managedBuffer <;> simp [BufferChunk.chain]

theorem agree_allocate (h : Heap) {l : List ManagedBuffer} {fresh : Nat × Nat} (hnew : fresh.1 ∉ l)
    (n : Nat) : Agree h (BufferPool.allocate h fresh n) l := by
  intro mb hmb
  have hne : mb ≠ fresh.1 := fun he => hnew (he ▸ hmb)
  rw [BufferPool.allocate, Heap.create_impl, if_neg hne]
  exact ⟨rfl, rfl⟩

/-- A larger request drops the entries of the pool. -/
theorem Stocked.grow {pool : BufferPool} {q : List BufferChunk} (hs : Stocked h pool q) (n : Nat) :
    Stocked (pool.grow h n).2 (pool.grow h n).1 q ∧
      (pool.grow h n).1.minBuffSize = max pool.minBuffSize n ∧
      (∀ p ∈ (pool.grow h n).1.buffs, p ∈ pool.buffs) ∧
      ∃ ops, (pool.grow h n).2 = h.apply ops := by
  unfold BufferPool.grow
  by_cases hn : pool.minBuffSize < n
  · rw [if_pos hn]
    refine ⟨⟨fun p hp => (by cases hp), ?_⟩, (Nat.max_eq_right hn.le).symm,
      fun p hp => (by cases hp), _, rfl⟩
    intro mb hmb
    rw [refs_apply, refs_nil, List.append_nil] at hmb ⊢
    have hcount := hs.owned mb (List.mem_append_left _ hmb)
    rw [List.count_append] at hcount
    rw [Heap.apply_counter, net_flatMap_destroy]
    push_cast at hcount
    linarith
  · rw [if_neg hn]
    exact ⟨hs, (Nat.max_eq_left (Nat.le_of_not_lt hn)).symm, fun p hp => hp, [], rfl⟩

/-- What `allocate` makes. -/
theorem allocate_spec (h : Heap) (fresh : Nat × Nat) (n : Nat) :
    let h' := BufferPool.allocate h fresh n
    BufferChunk.ofManagedBuffer h' fresh.1 = ⟨fresh.2, n, .unspecified, some fresh.1, 0⟩ ∧
      Pooled h' n (BufferChunk.ofManagedBuffer h' fresh.1) ∧ (h'.impl fresh.1).counter = 1 := by
  intro h'
  have himpl : h'.impl fresh.1 =
      { Impl.fresh with buffer := ⟨fresh.2, n, 0⟩, slabIndex := 0 } := by
    simp only [h', BufferPool.allocate, Heap.create_impl, if_true]
  have hb : BufferChunk.ofManagedBuffer h' fresh.1 =
      ⟨fresh.2, n, .unspecified, some fresh.1, 0⟩ := by
    simp only [BufferChunk.ofManagedBuffer, himpl]
  have hbuffer : BufferChunk.getBuffer h' ⟨fresh.2, n, .unspecified, some fresh.1, 0⟩ =
      ⟨fresh.2, n, 0⟩ := by
    show (h'.impl fresh.1).buffer = _
    rw [himpl]
  refine ⟨hb, ?_, by rw [himpl]; rfl⟩
  rw [hb]
  exact ⟨rfl, rfl, rfl, by rw [hbuffer], by rw [hbuffer]⟩

/-- A new buffer of the pool. -/
theorem Stocked.allocate {pool : BufferPool} {q : List BufferChunk} (hs : Stocked h pool q)
    {fresh : Nat × Nat} (hnew : fresh.1 ∉ refs h q ++ refs h pool.buffs) :
    let h' := BufferPool.allocate h fresh pool.minBuffSize
    Stocked h' { pool with buffs := pool.buffs ++ [BufferChunk.ofManagedBuffer h' fresh.1] } q := by
  intro h'
  obtain ⟨hb, hpooled, hcounter⟩ := allocate_spec h fresh pool.minBuffSize
  have hagree := agree_allocate h hnew pool.minBuffSize
  have hq : Agree h h' (refs h q) := fun mb hmb => hagree mb (List.mem_append_left _ hmb)
  have hbuffs : Agree h h' (refs h pool.buffs) :=
    fun mb hmb => hagree mb (List.mem_append_right _ hmb)
  refine ⟨fun p hp => ?_, fun mb hmb => ?_⟩
  · rcases List.mem_append.mp hp with hp | hp
    · exact (hs.pooled p hp).congr (hbuffs.getBuffer p hp)
    · exact List.mem_singleton.mp hp ▸ hpooled
  · have hrefs : refs h' (pool.buffs ++ [BufferChunk.ofManagedBuffer h' fresh.1]) =
        refs h pool.buffs ++ [fresh.1] := by
      rw [refs_append, hbuffs.refs, refs_cons, hpooled.handles, hb]
      rfl
    rw [hq.refs, hrefs, ← List.append_assoc] at hmb ⊢
    rw [List.count_append]
    rcases List.mem_append.mp hmb with hmb | hmb
    · have hne : mb ≠ fresh.1 := fun he => hnew (he ▸ hmb)
      have hcount := hs.owned mb hmb
      have hsame : (h'.impl mb).counter = (h.impl mb).counter := by
        simp only [h', BufferPool.allocate, Heap.create_impl, if_neg hne]
      rw [hsame, List.count_singleton, if_neg (by simpa using fun he => hne he.symm)]
      exact hcount
    · obtain rfl := List.mem_singleton.mp hmb
      rw [List.count_eq_zero.mpr hnew, hcounter]
      simp

/-- The ways of `get`: it finds a buffer of its own after a larger request dropped
the entries, or it makes a new one. -/
theorem get_cases (pool : BufferPool) (h : Heap) (fresh : Nat × Nat) (n : Nat) :
    let pool' := (pool.grow h n).1
    let h' := (pool.grow h n).2
    (∃ b, pool'.findUnique h' = some b ∧ pool.get h fresh n = (pool', b, h')) ∨
      pool.get h fresh n =
        (let h'' := BufferPool.allocate h' fresh pool'.minBuffSize
         let b := BufferChunk.ofManagedBuffer h'' fresh.1
         ({ pool' with buffs := pool'.buffs ++ [b] }, b, h'')) := by
  simp only
  cases hfind : (pool.grow h n).1.findUnique (pool.grow h n).2 with
  | some b => exact .inl ⟨b, rfl, by simp only [BufferPool.get, hfind]⟩
  | none => exact .inr (by simp only [BufferPool.get, hfind])

/-- A managed buffer the pool has not made yet is not dropped by a larger request. -/
theorem Stocked.new_grow {pool : BufferPool} {q : List BufferChunk} (hs : Stocked h pool q)
    {fresh : Nat × Nat} (n : Nat) (hnew : fresh.1 ∉ refs h q ++ refs h pool.buffs) :
    fresh.1 ∉ refs (pool.grow h n).2 q ++ refs (pool.grow h n).2 (pool.grow h n).1.buffs := by
  obtain ⟨-, -, hsub, ops, hops⟩ := hs.grow n
  rw [hops, refs_apply, refs_apply]
  intro hm
  refine hnew ?_
  rcases List.mem_append.mp hm with hm | hm
  · exact List.mem_append_left _ hm
  · obtain ⟨p, hp, hpm⟩ := List.mem_flatMap.mp hm
    exact List.mem_append_right _ (List.mem_flatMap.mpr ⟨p, hsub p hp, hpm⟩)

/-! ### require -/

/-- The copy loop changes the length of the new buffer only, and copies no byte
twice. -/
theorem fill_shape (h : Heap) (mem : Memory) (nb : BufferChunk) (room : Nat)
    (q : List BufferChunk) :
    let r := fill h mem nb room q
    r.2.1 = { nb with length := r.2.1.length } ∧ nb.length ≤ r.2.1.length ∧
      r.2.1.length ≤ nb.length + room ∧ total (r.2.1 :: r.2.2.1) = total (nb :: q) := by
  induction q generalizing mem nb room with
  | nil => exact ⟨rfl, Nat.le_refl _, Nat.le_add_right _ _, rfl⟩
  | cons f q ih =>
      have hroom : min room f.length ≤ room := Nat.min_le_left _ _
      have hlen : min room f.length ≤ f.length := Nat.min_le_right _ _
      simp only [fill]
      split
      · next hdrain =>
          obtain ⟨hsame, hge, hle, htotal⟩ := ih
            (copyBytes mem nb.getEnd f.address (min room f.length))
            { nb with length := nb.length + min room f.length } (room - min room f.length)
          refine ⟨hsame, (Nat.le_add_right _ _).trans hge, hle.trans ?_, ?_⟩
          · show nb.length + min room f.length + (room - min room f.length) ≤ nb.length + room
            omega
          · rw [htotal, total_cons, total_cons, total_cons]
            show nb.length + min room f.length + total q = nb.length + (f.length + total q)
            omega
      · refine ⟨rfl, Nat.le_add_right _ _, Nat.add_le_add_left hroom _, ?_⟩
        show nb.length + min room f.length + (f.length - min room f.length + total q) =
          nb.length + (f.length + total q)
        omega

/-- **What `get` returns is a buffer of the pool**, of the requested size or more. -/
theorem Stocked.get {pool : BufferPool} {q : List BufferChunk} (hs : Stocked h pool q)
    {fresh : Nat × Nat} {n : Nat} (hnew : fresh.1 ∉ refs h q ++ refs h pool.buffs) :
    ∃ pool' b h', pool.get h fresh n = (pool', b, h') ∧ Stocked h' pool' q ∧ b ∈ pool'.buffs ∧
      pool'.minBuffSize = max pool.minBuffSize n ∧ Agree h h' (refs h q) := by
  obtain ⟨hs₁, hsize, -, ops, hops⟩ := hs.grow n
  have hnew₁ := hs.new_grow n hnew
  have hagree : Agree h (pool.grow h n).2 (refs h q) := hops ▸ agree_apply h ops _
  rcases get_cases pool h fresh n with ⟨b, hfind, hget⟩ | hget
  · exact ⟨_, b, _, hget, hs₁, List.mem_of_find?_eq_some hfind, hsize, hagree⟩
  · refine ⟨_, _, _, hget, hs₁.allocate hnew₁, List.mem_append_right _ (List.mem_singleton_self _),
      hsize, hagree.trans fun mb hmb => agree_allocate _ hnew₁ _ mb ?_⟩
    rw [hops, refs_apply]
    exact List.mem_append_left _ hmb

/-- **`require` when the queue does not suffice**: the copy loop fills a buffer of
the pool, and the references are accounted for. -/
theorem Stocked.require (mem : Memory) {acc : BufferAccumulator} {fresh : Nat × Nat} {n : Nat}
    {pool : BufferPool} {b : BufferChunk} (hs : Stocked h' pool acc.queue) (hb : b ∈ pool.buffs)
    (hne : acc.queue ≠ []) (hsuff : ¬ acc.Suffices h n)
    (hget : acc.pool.get h fresh n = (pool, b, h')) :
    let nb : BufferChunk := { b with dtype := acc.front.dtype, length := 0 }
    let h₁ := h'.apply (b.acquire h')
    let r := fill h₁ mem nb b.length acc.queue
    acc.require h mem fresh n = .ok (⟨r.2.1 :: r.2.2.1, acc.bytesAvailable, true, pool⟩,
        h₁.apply r.2.2.2, r.1) ∧
      Stocked (h₁.apply r.2.2.2) pool (r.2.1 :: r.2.2.1) := by
  intro nb h₁ r
  have hpooled := hs.pooled b hb
  have hcopy : b.copy h' = b :=
    BufferChunk.copy_of_le h' b hpooled.getEnd.le hpooled.nextBuffers
  have hhandles : r.2.1.handles h' = b.handles h' := by
    rw [(fill_shape h₁ mem nb b.length acc.queue).1]
    rfl
  refine ⟨?_, fun p hp => ((hs.pooled p hp).congr (getBuffer_apply h' _ p)).congr
    (getBuffer_apply h₁ _ p), ?_⟩
  · simp only [BufferAccumulator.require, if_neg hne, if_neg hsuff, hget, hcopy]
    rfl
  · have howned := hs.owned.acquire (c := b) fun mb hmb =>
      List.mem_append_right _ (List.mem_flatMap.mpr ⟨b, hb, hmb⟩)
    have hstart : Owned h₁ (refs h₁ acc.queue ++ (b.handles h' ++ refs h' pool.buffs)) := by
      rw [refs_apply]
      exact howned.perm (List.perm_append_comm_assoc _ _ _)
    have hend := hstart.balanced (fill_balanced mem nb b.length acc.queue)
    simp only [h₁, refs_apply, refs_cons, handles_apply, hhandles] at hend ⊢
    rw [List.append_assoc]
    exact hend.perm (List.perm_append_comm_assoc _ _ _)

end

end BufferAccumulator

end PothosCore.Framework

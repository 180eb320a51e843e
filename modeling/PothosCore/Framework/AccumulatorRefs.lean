import Mathlib.Data.List.Count
import PothosCore.Framework.BufferAccumulator

/-!
# PothosCore.Framework.AccumulatorRefs

The reference account of the accumulator. `refs` lists the managed buffers the
chunks of a queue refer to, with multiplicity. Whatever a call does to the
queue, the counters move by exactly the difference (`Balanced`); amalgamation
moves bytes between chunks and no references at all.
-/

namespace PothosCore.Framework

open PothosCore.Lib

namespace BufferAccumulator

/-- Every reference the chunks of a queue hold, with multiplicity. -/
def refs (h : Heap) (queue : List BufferChunk) : List ManagedBuffer :=
  queue.flatMap (BufferChunk.handles h)

/-- `ops` is the reference traffic of changing the queue from `q` to `q'`, which
refers to no further buffers. -/
structure Balanced (h : Heap) (ops : List RefOp) (q q' : List BufferChunk) : Prop where
  count : ∀ mb, ((refs h q).count mb : Int) + RefOp.net mb ops = (refs h q').count mb
  subset : ∀ mb ∈ refs h q', mb ∈ refs h q

section
variable (h : Heap)

@[simp] theorem refs_nil : refs h [] = [] := rfl

@[simp] theorem refs_cons (c : BufferChunk) (q : List BufferChunk) :
    refs h (c :: q) = c.handles h ++ refs h q := rfl

@[simp] theorem refs_append (q q' : List BufferChunk) :
    refs h (q ++ q') = refs h q ++ refs h q' := List.flatMap_append

/-- Taking the references of a list of handles. -/
theorem net_incr (mb : ManagedBuffer) (l : List ManagedBuffer) :
    RefOp.net mb (l.map .incr) = l.count mb := by
  induction l with
  | nil => rfl
  | cons m l ih =>
      rw [List.map_cons, RefOp.net_cons, ih, RefOp.delta, List.count_cons]
      by_cases hm : m = mb
      · simp [hm, Int.add_comm]
      · simp [hm]

/-- Dropping the references of a list of handles. -/
theorem net_decr (mb : ManagedBuffer) (l : List ManagedBuffer) :
    RefOp.net mb (l.map .decr) = -(l.count mb : Int) := by
  induction l with
  | nil => rfl
  | cons m l ih =>
      rw [List.map_cons, RefOp.net_cons, ih, RefOp.delta, List.count_cons]
      by_cases hm : m = mb
      · simp [hm]
      · simp [hm]

theorem net_acquire (c : BufferChunk) (mb : ManagedBuffer) :
    RefOp.net mb (c.acquire h) = (c.handles h).count mb := net_incr mb _

theorem net_destroy (c : BufferChunk) (mb : ManagedBuffer) :
    RefOp.net mb (c.destroy h) = -((c.handles h).count mb : Int) := by
  simp only [BufferChunk.destroy, BufferChunk.handles, RefOp.net_append, net_decr,
    List.count_append]
  omega

theorem net_flatMap_acquire (mb : ManagedBuffer) (q : List BufferChunk) :
    RefOp.net mb (q.flatMap (BufferChunk.acquire h)) = (refs h q).count mb := by
  induction q with
  | nil => rfl
  | cons c q ih =>
      rw [List.flatMap_cons, RefOp.net_append, ih, net_acquire, refs_cons, List.count_append]
      omega

theorem net_flatMap_destroy (mb : ManagedBuffer) (q : List BufferChunk) :
    RefOp.net mb (q.flatMap (BufferChunk.destroy h)) = -((refs h q).count mb : Int) := by
  induction q with
  | nil => rfl
  | cons c q ih =>
      rw [List.flatMap_cons, RefOp.net_append, ih, net_destroy, refs_cons, List.count_append]
      omega

/-! ### Balance of a call -/

variable {h}

theorem Balanced.refl (q : List BufferChunk) : Balanced h [] q q :=
  ⟨fun _ => Int.add_zero _, fun _ => id⟩

theorem Balanced.trans {ops ops' : List RefOp} {q q' q'' : List BufferChunk}
    (hb : Balanced h ops q q') (hb' : Balanced h ops' q' q'') :
    Balanced h (ops ++ ops') q q'' := by
  refine ⟨fun mb => ?_, fun mb hmb => hb.subset mb (hb'.subset mb hmb)⟩
  rw [RefOp.net_append, ← hb'.count mb, ← hb.count mb, Int.add_assoc]

/-- Popping the front. -/
theorem Balanced.drop (c : BufferChunk) (q : List BufferChunk) :
    Balanced h (c.destroy h) (c :: q) q := by
  refine ⟨fun mb => ?_, fun mb hmb => List.mem_append_right _ hmb⟩
  rw [net_destroy, refs_cons, List.count_append]
  omega

theorem Balanced.append {ops : List RefOp} {q q' : List BufferChunk} (hb : Balanced h ops q q')
    (r : List BufferChunk) : Balanced h ops (q ++ r) (q' ++ r) := by
  refine ⟨fun mb => ?_, fun mb hmb => ?_⟩
  · have := hb.count mb
    rw [refs_append, refs_append, List.count_append, List.count_append]
    omega
  · rw [refs_append] at hmb ⊢
    exact (List.mem_append.mp hmb).elim (fun hm => List.mem_append_left _ (hb.subset mb hm))
      (List.mem_append_right _)

/-- Rewriting ranges leaves the account as it is. -/
theorem Balanced.congr {ops : List RefOp} {q q' r r' : List BufferChunk} (hb : Balanced h ops q r)
    (hq : refs h q' = refs h q) (hr : refs h r' = refs h r) : Balanced h ops q' r' := by
  refine ⟨fun mb => ?_, ?_⟩
  · rw [hq, hr]
    exact hb.count mb
  · rw [hq, hr]
    exact hb.subset

/-! ### The parts of `push` -/

theorem removeDummy_balanced (q : List BufferChunk) :
    Balanced h (removeDummy h q).2 q (removeDummy h q).1 := by
  cases q with
  | nil => exact .refl []
  | cons c q =>
      simp only [removeDummy]
      by_cases hc : c.length = 0
      · rw [if_pos hc]; exact .drop c q
      · rw [if_neg hc]; exact .refl _

theorem removeBack_balanced (q : List BufferChunk) :
    Balanced h (removeBack h q).2 q (removeBack h q).1 := by
  rcases removeBack_cases (h := h) q with hr | ⟨pre, f, b, rfl, -, -, hr⟩
  · rw [hr]
    exact .refl q
  · rw [hr]
    have hdrop := Balanced.drop (h := h) b []
    refine ⟨fun mb => ?_, fun mb hmb => ?_⟩
    · have := hdrop.count mb
      simp only [refs_append, refs_cons, refs_nil, List.count_append, List.append_nil] at this ⊢
      simp only [List.count_nil] at this
      omega
    · simp only [refs_append, refs_cons, refs_nil, List.mem_append, List.append_nil] at hmb ⊢
      tauto

/-- **Amalgamation moves no references.** -/
theorem amalgamate_refs {q q' : List BufferChunk} {going : Bool}
    (ha : amalgamate h q = .ok (q', going)) : refs h q' = refs h q := by
  refine amalgamate_induct (motive := fun q q' _ => refs h q' = refs h q) rfl ?_ ?_ ?_ ha
  · intro f q going _ ih
    rw [refs_cons, refs_cons, ih]
  · intro f q b rest going _ ih _
    rw [refs_cons, ih, refs_cons]
  · intro f q b rest _ ih _ _ _
    rw [refs_cons h f q, ← ih]
    rfl

/-- What `push` gives up before it takes references for the next buffers. -/
theorem push_released {queue q : List BufferChunk} {buffer : BufferChunk} {going : Bool}
    (ha : amalgamate h ((removeDummy h queue).1 ++ [buffer]) = .ok (q, going)) :
    Balanced h ((removeDummy h queue).2 ++ (removeBack h q).2) (queue ++ [buffer])
      (removeBack h q).1 := by
  have hdummy : Balanced h (removeDummy h queue).2 (queue ++ [buffer])
      ((removeDummy h queue).1 ++ [buffer]) := (removeDummy_balanced queue).append [buffer]
  have hback : Balanced h (removeBack h q).2 ((removeDummy h queue).1 ++ [buffer])
      (removeBack h q).1 := (removeBack_balanced q).congr (amalgamate_refs ha).symm rfl
  exact hdummy.trans hback

/-- **The account of `push`.** The references of the pushed chunk become the
queue's, the empty next buffers are referred to anew. -/
theorem push_balanced {acc acc' : BufferAccumulator} {buffer : BufferChunk} {ops : List RefOp}
    (hsome : buffer.isSome = true) (hlinked : (buffer.nextList h).length = buffer.nextBuffers)
    (hp : acc.push h buffer = .ok (acc', ops)) :
    Balanced h ops (acc.queue ++ [buffer]) acc'.queue := by
  obtain ⟨q, going, nexts, ha, rfl, rfl, hrefs, -⟩ := push_spec hsome hlinked hp
  have hq := push_released ha
  refine ⟨fun m => ?_, fun m hm => ?_⟩
  · have := hq.count m
    rw [RefOp.net_append, net_flatMap_acquire, refs_append h (removeBack h q).1, List.count_append]
    omega
  · rcases List.mem_append.mp (refs_append h _ _ ▸ hm) with hm | hm
    · exact hq.subset m hm
    · rw [refs_append, refs_cons]
      refine List.mem_append_right _ (List.mem_append_left _ ?_)
      rw [refs, hrefs] at hm
      exact List.mem_append_right _ hm

/-! ### The parts of `pop` -/

theorem Moved.balanced {p : Bool} {f : BufferChunk} {q q' : List BufferChunk} {ops : List RefOp}
    (hm : Moved h p f q q' ops) : Balanced h ops (f :: q) q' := by
  cases hm with
  | last _ => exact .drop f []
  | keepLast _ => exact .refl _
  | @absorb b q _ => exact (Balanced.drop f (b :: q)).congr rfl rfl
  | drop _ _ => exact .drop f _
  | @overrun b q _ _ _ => exact (Balanced.drop f (b :: q)).congr rfl rfl
  | keep _ _ _ => exact .refl _

theorem removeConsumed_balanced (q : List BufferChunk) :
    Balanced h (removeConsumed h q).2 q (removeConsumed h q).1 := by
  induction q with
  | nil => exact .refl []
  | cons c q ih =>
      simp only [removeConsumed]
      by_cases hc : c.length = 0
      · rw [if_pos hc]; exact (Balanced.drop c q).trans ih
      · rw [if_neg hc]; exact .refl _

theorem refs_orDummy (q : List BufferChunk) : refs h (orDummy q) = refs h q := by
  unfold orDummy
  split
  · next hq => subst hq; rfl
  · rfl

/-- **The account of `pop`.** -/
theorem pop_balanced {acc acc' : BufferAccumulator} {n : Nat} {ops : List RefOp}
    (hp : acc.pop h n = .ok (acc', ops)) : Balanced h ops acc.queue acc'.queue := by
  obtain ⟨f, q, q', ops', hq, -, hm, rfl, rfl⟩ := pop_inv hp
  rw [hq]
  exact (hm.balanced.trans (removeConsumed_balanced q')).congr rfl (refs_orDummy _)

/-! ### The parts of `require` -/

theorem fill_balanced (mem : Memory) (nb : BufferChunk) (room : Nat) (q : List BufferChunk) :
    Balanced h (fill h mem nb room q).2.2.2 q (fill h mem nb room q).2.2.1 := by
  induction q generalizing mem nb room with
  | nil => exact .refl []
  | cons f q ih =>
      simp only [fill]
      split
      · exact (Balanced.drop f q).trans (ih _ _ _)
      · exact (Balanced.refl (f :: q)).congr rfl rfl

/-! ### Other heaps -/

/-- The chain of next buffers is read off the buffers in it. -/
theorem chain_congr {h h' : Heap} {mb : Option ManagedBuffer} {n : Nat}
    (hs : ∀ m ∈ BufferChunk.chain h mb n, (h'.impl m).nextBuffer = (h.impl m).nextBuffer) :
    BufferChunk.chain h' mb n = BufferChunk.chain h mb n := by
  induction n generalizing mb with
  | zero => cases mb <;> rfl
  | succ n ih =>
      cases mb with
      | none => rfl
      | some m =>
          simp only [BufferChunk.chain] at hs ⊢
          rw [hs m List.mem_cons_self, ih fun m' hm' => hs m' (List.mem_cons_of_mem m hm')]

theorem handles_congr {h h' : Heap} {c : BufferChunk}
    (hs : ∀ m ∈ c.handles h, (h'.impl m).nextBuffer = (h.impl m).nextBuffer) :
    c.handles h' = c.handles h := by
  unfold BufferChunk.handles BufferChunk.nextList at hs ⊢
  cases hmb : c.managedBuffer with
  | none => rfl
  | some m =>
      rw [hmb] at hs
      simp only at hs ⊢
      rw [hs m (List.mem_append_left _ (by simp)), chain_congr fun m' hm' =>
        hs m' (List.mem_append_right _ hm')]

/-- A heap that agrees on what a queue refers to gives it the same references. -/
theorem refs_congr_heap {h h' : Heap} {q : List BufferChunk}
    (hs : ∀ m ∈ refs h q, (h'.impl m).nextBuffer = (h.impl m).nextBuffer) :
    refs h' q = refs h q := by
  induction q with
  | nil => rfl
  | cons c q ih =>
      rw [refs_cons, refs_cons, handles_congr fun m hm => hs m (List.mem_append_left _ hm),
        ih fun m hm => hs m (List.mem_append_right _ hm)]

theorem mem_refs {h : Heap} {q : List BufferChunk} {c : BufferChunk} {mb : ManagedBuffer}
    (hc : c ∈ q) (hmb : c.managedBuffer = some mb) : mb ∈ refs h q := by
  refine List.mem_flatMap.mpr ⟨c, hc, List.mem_append_left _ ?_⟩
  rw [hmb]
  exact List.mem_singleton_self mb

theorem getBuffer_congr {h h' : Heap} {q : List BufferChunk} {c : BufferChunk} (hc : c ∈ q)
    (hs : ∀ m ∈ refs h q, (h'.impl m).buffer = (h.impl m).buffer) :
    c.getBuffer h' = c.getBuffer h := by
  unfold BufferChunk.getBuffer
  cases hmb : c.managedBuffer with
  | none => rfl
  | some m => exact hs m (mem_refs hc hmb)

@[simp] theorem handles_apply (h : Heap) (ops : List RefOp) (c : BufferChunk) :
    c.handles (h.apply ops) = c.handles h :=
  handles_congr fun m _ => Heap.apply_nextBuffer h ops m

theorem destroy_apply (h : Heap) (ops : List RefOp) (c : BufferChunk) :
    c.destroy (h.apply ops) = c.destroy h := by
  have hh := handles_apply h ops c
  unfold BufferChunk.handles at hh
  rw [BufferChunk.destroy, List.append_cancel_left hh]
  rfl

@[simp] theorem refs_apply (h : Heap) (ops : List RefOp) (q : List BufferChunk) :
    refs (h.apply ops) q = refs h q :=
  refs_congr_heap fun m _ => Heap.apply_nextBuffer h ops m

@[simp] theorem getBuffer_apply (h : Heap) (ops : List RefOp) (c : BufferChunk) :
    c.getBuffer (h.apply ops) = c.getBuffer h := Heap.apply_buffer h ops _

/-! ### Heaps that agree, counters that account -/

/-- Two heaps agree on buffers and chains of these managed buffers. -/
def Agree (h h' : Heap) (l : List ManagedBuffer) : Prop :=
  ∀ mb ∈ l, (h'.impl mb).buffer = (h.impl mb).buffer ∧
    (h'.impl mb).nextBuffer = (h.impl mb).nextBuffer

/-- The counters account for a list of references. -/
def Owned (h : Heap) (l : List ManagedBuffer) : Prop :=
  ∀ mb ∈ l, (l.count mb : Int) ≤ (h.impl mb).counter

instance (h h' : Heap) (l : List ManagedBuffer) : Decidable (Agree h h' l) := by
  unfold Agree; infer_instance

instance (h : Heap) (l : List ManagedBuffer) : Decidable (Owned h l) := by
  unfold Owned; infer_instance

theorem agree_apply (h : Heap) (ops : List RefOp) (l : List ManagedBuffer) :
    Agree h (h.apply ops) l :=
  fun mb _ => ⟨Heap.apply_impl_buffer h ops mb, Heap.apply_nextBuffer h ops mb⟩

theorem Agree.trans {h h' h'' : Heap} {l : List ManagedBuffer} (ha : Agree h h' l)
    (ha' : Agree h' h'' l) : Agree h h'' l :=
  fun mb hmb => ⟨(ha' mb hmb).1.trans (ha mb hmb).1, (ha' mb hmb).2.trans (ha mb hmb).2⟩

theorem Agree.refs {h h' : Heap} {q : List BufferChunk} (ha : Agree h h' (refs h q)) :
    refs h' q = refs h q :=
  refs_congr_heap fun mb hmb => (ha mb hmb).2

theorem Agree.handles {h h' : Heap} {q : List BufferChunk}
    (ha : Agree h h' (BufferAccumulator.refs h q)) : ∀ c ∈ q, c.handles h' = c.handles h :=
  fun c hc => handles_congr fun m hm => (ha m (List.mem_flatMap.mpr ⟨c, hc, hm⟩)).2

theorem Agree.getBuffer {h h' : Heap} {q : List BufferChunk}
    (ha : Agree h h' (BufferAccumulator.refs h q)) : ∀ c ∈ q, c.getBuffer h' = c.getBuffer h :=
  fun _ hc => getBuffer_congr hc fun mb hmb => (ha mb hmb).1

/-- The counters follow the traffic of a change of the queue. -/
theorem Owned.balanced {ops : List RefOp} {q q' : List BufferChunk} {l : List ManagedBuffer}
    (ho : Owned h (refs h q ++ l)) (hb : Balanced h ops q q') :
    Owned (h.apply ops) (refs h q' ++ l) := by
  intro mb hmb
  have hmb' : mb ∈ refs h q ++ l := by
    rcases List.mem_append.mp hmb with hm | hm
    · exact List.mem_append_left _ (hb.subset mb hm)
    · exact List.mem_append_right _ hm
  have hcount := ho mb hmb'
  have hnet := hb.count mb
  rw [Heap.apply_counter]
  rw [List.count_append] at hcount ⊢
  push_cast at hcount ⊢
  linarith

theorem Owned.perm {l l' : List ManagedBuffer} (ho : Owned h l) (hp : l.Perm l') : Owned h l' := by
  intro mb hmb
  rw [← hp.count_eq]
  exact ho mb (hp.mem_iff.mpr hmb)

/-- Taking another copy of a handle that is held. -/
theorem Owned.acquire {l : List ManagedBuffer} {c : BufferChunk} (ho : Owned h l)
    (hc : ∀ mb ∈ c.handles h, mb ∈ l) :
    Owned (h.apply (c.acquire h)) (c.handles h ++ l) := by
  intro mb hmb
  have hl : mb ∈ l := by
    rcases List.mem_append.mp hmb with hm | hm
    · exact hc mb hm
    · exact hm
  have hcount := ho mb hl
  rw [Heap.apply_counter, net_acquire, List.count_append]
  push_cast
  linarith

end

end BufferAccumulator

end PothosCore.Framework

import PothosCore.Framework.NextBuffers
import PothosCore.Util.OrderedQueue

/-!
# PothosCore.Framework.CountedManager

The references that a buffer manager keeps, and the steps by which its calls move them.

A manager refers to the buffers of its queue and to that of its cached front. `Fronted` is
what both managers keep to whatever they are asked: the front is the first ready buffer,
or, while none is ready, one that is parked. A pop that uses the front up takes both
references on its buffer away, so it must find a third one.

A pop of any number of bytes is counted in 64 bits. A front that is popped past its end
has an address and a length that wrapped; it still ends where its buffer does.
-/

namespace PothosCore.Framework

open PothosCore.Lib PothosCore.Util

/-- A pop re-uses the front: a local copy of it is edited, `setFrontBuffer` of that, and the
local goes. The new front, and the reference steps. -/
def offerRest (h : Heap) (front : BufferChunk) (numBytes : Nat) : Except Fault (BufferChunk × List RefOp) := do
  let buff ← NextBuffers.copy h front
  let rest := { buff with
    address := SizeT.add buff.address numBytes
    length := SizeT.sub buff.length (numBytes % 2 ^ 64) }
  let front' ← NextBuffers.copy h rest
  .ok (front', buff.acquire h ++ (front.destroy h ++ front'.acquire h) ++ rest.destroy h)

/-- A manager with its queue, and the reference steps of its calls. -/
class CountedManager (M : Type) extends BufferManager M where
  /-- `_readyBuffs`. -/
  readyBuffs : M → OrderedQueue ManagedBuffer
  /-- Does this pop re-use the front buffer? -/
  reuses : M → Nat → Bool
  /-- `pop(numBytes)`, of any `size_t`. -/
  popT : M → Heap → Nat → Except Fault (M × Heap)
  popOps : M → Heap → Nat → List RefOp
  pushOps : M → Heap → ManagedBuffer → List RefOp

namespace CountedManager

variable {M : Type} [CountedManager M]

/-- The references of a manager. -/
def refs (m : M) : List ManagedBuffer :=
  (readyBuffs m).elems ++ (BufferManager.front m).managedBuffer.toList

/-- Two heaps agree on the memory and the slabs. -/
def SameBuffers (h h' : Heap) : Prop :=
  ∀ mb, (h'.impl mb).buffer = (h.impl mb).buffer ∧ (h'.impl mb).slabIndex = (h.impl mb).slabIndex

/-- What the queue and the front keep to. -/
structure Fronted (own : ManagedBuffer → Prop) (m : M) (h : Heap) : Prop where
  settled : (readyBuffs m).Settled
  owned : ∀ mb ∈ (readyBuffs m).elems, own mb
  slabs : ∀ a b, own a → own b → (h.impl a).slabIndex = (h.impl b).slabIndex → a = b
  parked : ∀ (i : Nat) (mb : ManagedBuffer), (readyBuffs m).pushedElems[i]? = some (some mb) →
    (h.impl mb).slabIndex = i
  ends : NextBuffers.Ends h (BufferManager.front m)
  front : (readyBuffs m).readyElems ≠ [] →
    (BufferManager.front m).managedBuffer = (readyBuffs m).readyElems.head?
  stale : (readyBuffs m).readyElems = [] →
    ∀ mb ∈ (BufferManager.front m).managedBuffer, mb ∈ (readyBuffs m).elems

/-- What a pop does to the references. Besides the queue and the front nobody needs to
refer to the front buffer if it is used again. -/
structure Popped (own : ManagedBuffer → Prop) (m m' : M) (h h' : Heap) (numBytes : Nat) : Prop where
  links : h.SameLinks h'
  counter : ∀ mb, (h'.impl mb).counter = ((h.apply (popOps m h numBytes)).impl mb).counter
  refs : ∀ mb, ((refs m').count mb : Int) = (refs m).count mb + RefOp.net mb (popOps m h numBytes)
  covered : ∀ c : ManagedBuffer → Int, (∀ mb, own mb → ((CountedManager.refs m).count mb : Int) ≤ c mb) →
    (reuses m numBytes = true ∨
      ∀ mb ∈ (BufferManager.front m).managedBuffer, ((CountedManager.refs m).count mb : Int) < c mb) →
    Covered own 2 c (popOps m h numBytes)

/-- What a push does to the references. The first step is one more reference on the buffer
that comes back. -/
structure Pushed (own : ManagedBuffer → Prop) (m m' : M) (h h' : Heap) (mb : ManagedBuffer) : Prop where
  links : h.SameLinks h'
  counter : ∀ x, (h'.impl x).counter = ((h.apply (pushOps m h mb)).impl x).counter
  refs : ∀ x, ((refs m').count x : Int) = (refs m).count x + RefOp.net x (pushOps m h mb)
  ready : (readyBuffs m).readyElems <+: (readyBuffs m').readyElems
  covered : ∃ ops, pushOps m h mb = .incr mb :: ops ∧
    ∀ c : ManagedBuffer → Int, (∀ x, own x → ((CountedManager.refs m).count x : Int) ≤ c x) →
      Covered own 2 (fun x => c x + RefOp.delta x (.incr mb)) ops

section
variable {own : ManagedBuffer → Prop} {h h' : Heap}

theorem sameBuffers_apply (h : Heap) (ops : List RefOp) : SameBuffers h (h.apply ops) :=
  fun mb => ⟨Heap.apply_impl_buffer h ops mb, Heap.apply_slabIndex h ops mb⟩

theorem SameBuffers.ends {c : BufferChunk} (hs : SameBuffers h h') (hc : NextBuffers.Ends h c) :
    NextBuffers.Ends h' c := by
  have hbuffer : c.getBuffer h' = c.getBuffer h := by
    unfold BufferChunk.getBuffer
    cases c.managedBuffer with
    | none => rfl
    | some mb => exact (hs mb).1
  exact ⟨hbuffer ▸ hc.1, hc.2⟩

theorem Fronted.congr {m : M} (hf : Fronted own m h) (hs : SameBuffers h h') : Fronted own m h' where
  settled := hf.settled
  owned := hf.owned
  slabs a b ha hb heq := hf.slabs a b ha hb (by rw [← (hs a).2, ← (hs b).2, heq])
  parked i mb hi := (hs mb).2.trans (hf.parked i mb hi)
  ends := hs.ends hf.ends
  front := hf.front
  stale := hf.stale

/-- A slot to which a buffer comes back is free. -/
theorem Fronted.free {m : M} (hf : Fronted own m h) {mb : ManagedBuffer} (hown : own mb)
    (hnew : mb ∉ (readyBuffs m).elems) (y : ManagedBuffer) :
    (readyBuffs m).pushedElems[(h.impl mb).slabIndex]? ≠ some (some y) := by
  intro hy
  have hmem : y ∈ (readyBuffs m).elems :=
    List.mem_append_right _ (List.mem_filterMap.mpr ⟨some y, List.mem_of_getElem? hy, rfl⟩)
  rw [hf.slabs y mb (hf.owned y hmem) hown (hf.parked _ y hy)] at hmem
  exact hnew hmem

variable {m m' : M} {x₀ mb : ManagedBuffer} {rest : List ManagedBuffer}

/-- The front is the first ready buffer. -/
theorem Fronted.head (hf : Fronted own m h) (hready : (readyBuffs m).readyElems = x₀ :: rest) :
    (BufferManager.front m).managedBuffer = some x₀ := by
  rw [hf.front (by simp [hready]), hready]
  rfl

/-- The front becomes another chunk on its buffer. -/
theorem Fronted.reuse (hf : Fronted own m h) (hqueue : readyBuffs m' = readyBuffs m)
    (hends : NextBuffers.Ends h (BufferManager.front m'))
    (hmb : (BufferManager.front m').managedBuffer = (BufferManager.front m).managedBuffer) : Fronted own m' h where
  settled := hqueue ▸ hf.settled
  owned := hqueue ▸ hf.owned
  slabs := hf.slabs
  parked := hqueue ▸ hf.parked
  ends := hends
  front hne := by
    rw [hqueue] at hne
    rw [hmb, hqueue]
    exact hf.front hne
  stale hnil := by
    rw [hqueue] at hnil
    rw [hmb, hqueue]
    exact hf.stale hnil

/-- The front goes to the next ready buffer. -/
theorem Fronted.move (hf : Fronted own m h) (hready : (readyBuffs m).readyElems = x₀ :: rest)
    (hqueue : readyBuffs m' = { readyBuffs m with readyElems := rest })
    (hslab : ∀ mb, (h'.impl mb).slabIndex = (h.impl mb).slabIndex)
    (hends : NextBuffers.Ends h' (BufferManager.front m'))
    (hmb : (BufferManager.front m').managedBuffer = rest.head?) : Fronted own m' h' where
  settled := by
    rw [hqueue]
    exact hf.settled
  owned mb hmem := by
    refine hf.owned mb ?_
    simp only [hqueue, OrderedQueue.elems] at hmem
    simp only [OrderedQueue.elems, hready]
    exact List.mem_cons_of_mem _ hmem
  slabs a b ha hb heq := hf.slabs a b ha hb (by rw [← hslab a, ← hslab b, heq])
  parked i mb hi := by
    rw [hqueue] at hi
    exact (hslab mb).trans (hf.parked i mb hi)
  ends := hends
  front _ := by rw [hmb, hqueue]
  stale hnil mb hmem := by
    have hrest : rest = [] := by
      rw [hqueue] at hnil
      exact hnil
    rw [hmb, hrest] at hmem
    cases hmem

section
variable (hf : Fronted own m h) (hown : own mb) (hnew : mb ∉ (readyBuffs m).elems)
  (hpush : (readyBuffs m).push mb (h.impl mb).slabIndex = .ok (readyBuffs m'))
include hf hown hnew hpush

/-- The buffers of the queue after a push, and their slots. -/
theorem Fronted.pushed : (∀ x ∈ (readyBuffs m').elems, own x) ∧
    ∀ (i : Nat) (x : ManagedBuffer), (readyBuffs m').pushedElems[i]? = some (some x) → (h.impl x).slabIndex = i := by
  obtain ⟨helems, -, -, hparked, -, -⟩ := OrderedQueue.push_elems hpush hf.settled (hf.free hown hnew)
  refine ⟨fun x hx => ?_, fun i x hi => ?_⟩
  · rcases List.mem_cons.mp (helems.mem_iff.mp hx) with rfl | hx
    · exact hown
    · exact hf.owned x hx
  · rcases hparked i x hi with hi | ⟨rfl, rfl⟩
    · exact hf.parked i x hi
    · rfl

/-- A buffer comes back, and the front stays: as long as nothing is ready, or behind what
is. -/
theorem Fronted.behind (hfront : BufferManager.front m' = BufferManager.front m)
    (hnil : (readyBuffs m).readyElems = [] → (readyBuffs m').readyElems = []) : Fronted own m' h := by
  obtain ⟨howned, hslots⟩ := hf.pushed hown hnew hpush
  obtain ⟨helems, ⟨rest, hrest⟩, hsettled, -, -, -⟩ :=
    OrderedQueue.push_elems hpush hf.settled (hf.free hown hnew)
  refine ⟨hsettled, howned, hf.slabs, hslots, hfront ▸ hf.ends, fun hne => ?_, fun hempty x hx => ?_⟩
  · have hne' : (readyBuffs m).readyElems ≠ [] := fun hempty => hne (hnil hempty)
    rw [hfront, hf.front hne', ← hrest, List.head?_append_of_ne_nil _ hne']
  · have hempty' : (readyBuffs m).readyElems = [] := (List.append_eq_nil_iff.mp (hrest.trans hempty)).1
    rw [hfront] at hx
    exact helems.mem_iff.mpr (List.mem_cons_of_mem _ (hf.stale hempty' x hx))

/-- A buffer comes back while nothing is ready, and becomes the front. -/
theorem Fronted.ahead (hempty : (readyBuffs m).readyElems = [])
    (hslab : ∀ x, (h'.impl x).slabIndex = (h.impl x).slabIndex) (hends : NextBuffers.Ends h' (BufferManager.front m'))
    (hmb : (BufferManager.front m').managedBuffer = some mb) : Fronted own m' h' := by
  obtain ⟨howned, hslots⟩ := hf.pushed hown hnew hpush
  obtain ⟨-, -, hsettled, -, hfirst, hmem⟩ := OrderedQueue.push_elems hpush hf.settled (hf.free hown hnew)
  refine ⟨hsettled, howned, fun a b ha hb heq => ?_, fun i x hi => (hslab x).trans (hslots i x hi), hends,
    fun hne => ?_, fun _ x hx => ?_⟩
  · exact hf.slabs a b ha hb (by rw [← hslab a, ← hslab b, heq])
  · rw [hmb]
    exact ((hfirst hempty).resolve_left hne).symm
  · rw [hmb] at hx
    obtain rfl : mb = x := Option.some.inj hx
    exact hmem

end

end

end CountedManager

/-- A manager whose calls keep to this. -/
class LawfulManager (M : Type) extends CountedManager M where
  ready_of_empty {m : M} : BufferManager.empty m = (CountedManager.readyBuffs m).empty
  pop_spec {own : ManagedBuffer → Prop} {m m' : M} {h h' : Heap} {numBytes : Nat} :
    CountedManager.Fronted own m h → CountedManager.popT m h numBytes = .ok (m', h') →
    CountedManager.Fronted own m' h' ∧ CountedManager.Popped own m m' h h' numBytes
  push_spec {own : ManagedBuffer → Prop} {m m' : M} {h h' : Heap} {mb : ManagedBuffer} :
    CountedManager.Fronted own m h → own mb → mb ∉ (CountedManager.readyBuffs m).elems →
    BufferManager.push m h mb = .ok (m', h') →
    CountedManager.Fronted own m' h' ∧ CountedManager.Pushed own m m' h h' mb

/-! ### The steps of a pop and a push -/

section
variable {own : ManagedBuffer → Prop} {c : ManagedBuffer → Int} {x₀ mb : ManagedBuffer}

/-- The front is set to another chunk on its buffer. -/
theorem covered_reuse (h : own x₀ → 2 ≤ c x₀) : Covered own 2 c [.incr x₀, .decr x₀, .incr x₀, .decr x₀] := by
  simp only [Covered, RefOp.target, RefOp.need, RefOp.delta, if_true, and_true]
  refine ⟨fun hown => ?_, fun hown => ?_, fun hown => ?_, fun hown => ?_⟩ <;> have := h hown <;> omega

/-- The queue and the front leave `x₀`, and the front goes to the next buffer. -/
theorem covered_move {next : Option ManagedBuffer} (h : own x₀ → 3 ≤ c x₀)
    (hnext : ∀ x ∈ next, own x → 1 ≤ c x ∧ (x = x₀ → 4 ≤ c x)) :
    Covered own 2 c (.decr x₀ :: (next.toList.map .incr ++ [.decr x₀] ++ next.toList.map .incr ++
      next.toList.map .decr)) := by
  cases next with
  | none =>
      simp only [Option.toList_none, List.map_nil, List.nil_append, List.append_nil, Covered, RefOp.target,
        RefOp.need, RefOp.delta, if_true, and_true]
      refine ⟨fun hown => ?_, fun hown => ?_⟩ <;> have := h hown <;> omega
  | some x =>
      have hx := hnext x rfl
      simp only [Option.toList_some, List.map_cons, List.map_nil, List.cons_append, List.nil_append, Covered,
        RefOp.target, RefOp.need, RefOp.delta, if_true, and_true]
      by_cases heq : x = x₀
      · subst heq
        simp only [if_true]
        refine ⟨fun hown => ?_, fun hown => ?_, fun hown => ?_, fun hown => ?_, fun hown => ?_⟩ <;>
          have := (hx hown).2 rfl <;> omega
      · have heq' : ¬ x₀ = x := fun he => heq he.symm
        simp only [heq, heq', if_false]
        refine ⟨fun hown => ?_, fun hown => ?_, fun hown => ?_, fun hown => ?_, fun hown => ?_⟩ <;>
          first | (have hle := h hown; omega) | (have hle := hx hown; omega)

/-- The front goes to the buffer `mb` that comes back, from one that is in the queue. -/
theorem covered_front {old : Option ManagedBuffer} (hnew : own mb → 1 ≤ c mb) (hne : ∀ x ∈ old, x ≠ mb)
    (hold : ∀ x ∈ old, own x → 2 ≤ c x) :
    Covered own 2 c (old.toList.map .decr ++ [.incr mb] ++ [.decr mb]) := by
  cases old with
  | none =>
      simp only [Option.toList_none, List.map_nil, List.nil_append, List.cons_append, Covered, RefOp.target,
        RefOp.need, RefOp.delta, if_true, and_true]
      refine ⟨fun hown => ?_, fun hown => ?_⟩ <;> have := hnew hown <;> omega
  | some x =>
      have hx := hold x rfl
      have hne := hne x rfl
      have hne' : ¬ mb = x := fun he => hne he.symm
      simp only [Option.toList_some, List.map_cons, List.map_nil, List.cons_append, List.nil_append, Covered,
        RefOp.target, RefOp.need, RefOp.delta, if_true, hne, if_false, and_true]
      refine ⟨fun hown => ?_, fun hown => ?_, fun hown => ?_⟩ <;>
        first | (have hle := hx hown; omega) | (have hle := hnew hown; omega)

end

namespace BufferChunk

theorem within_ofManagedBuffer (h : Heap) (mb : ManagedBuffer) : (ofManagedBuffer h mb).Within h :=
  ⟨le_refl _, rfl⟩

theorem within_null (h : Heap) : null.Within h := ⟨Nat.zero_le _, rfl⟩

end BufferChunk

/-- A front that ends with its buffer is offered again, whatever is popped of it. -/
theorem offerRest_eq {h : Heap} {front : BufferChunk} {x₀ : ManagedBuffer} (hf : NextBuffers.Ends h front)
    (hmb : front.managedBuffer = some x₀) (numBytes : Nat) :
    offerRest h front numBytes = .ok ({ front with
        address := SizeT.add front.address numBytes
        length := SizeT.sub front.length (numBytes % 2 ^ 64) },
      [.incr x₀, .decr x₀, .incr x₀, .decr x₀]) := by
  have hops (c : BufferChunk) (hc : c.nextBuffers = 0) (hmb : c.managedBuffer = some x₀) :
      c.acquire h = [.incr x₀] ∧ c.destroy h = [.decr x₀] := by
    have hhandles := BufferChunk.handles_of_nextBuffers (h := h) hc
    have hnext : c.nextList h = [] := by simpa [BufferChunk.handles] using hhandles
    refine ⟨?_, ?_⟩
    · rw [BufferChunk.acquire, hhandles, hmb]
      rfl
    · rw [BufferChunk.destroy, hnext, hmb]
      rfl
  have hrest := hf.rest numBytes
  unfold offerRest
  rw [hf.copy]
  dsimp only [bind, Except.bind]
  rw [hrest.copy]
  dsimp only
  rw [(hops front hf.2 hmb).1, (hops front hf.2 hmb).2, (hops _ hrest.2 hmb).1, (hops _ hrest.2 hmb).2]
  rfl

namespace CountedManager

variable {M : Type} [CountedManager M] {own : ManagedBuffer → Prop} {m m' : M} {h h' : Heap} {numBytes : Nat}
  {x₀ mb : ManagedBuffer}

theorem popped_reuse (hfront : (BufferManager.front m).managedBuffer = some x₀)
    (hmem : x₀ ∈ (readyBuffs m).elems) (hqueue : readyBuffs m' = readyBuffs m)
    (hfront' : (BufferManager.front m').managedBuffer = some x₀)
    (hops : popOps m h numBytes = [.incr x₀, .decr x₀, .incr x₀, .decr x₀])
    (hheap : h' = h.apply (popOps m h numBytes)) : Popped own m m' h h' numBytes where
  links := hheap ▸ Heap.sameLinks_apply h _
  counter mb := by rw [hheap]
  refs mb := by
    rw [hops]
    simp only [CountedManager.refs, hqueue, hfront, hfront', RefOp.net_cons, RefOp.net_nil, RefOp.delta]
    split <;> omega
  covered c hc _ := by
    rw [hops]
    refine covered_reuse fun hown => ?_
    have hle := hc x₀ hown
    have hpos := List.count_pos_iff.mpr hmem
    simp only [CountedManager.refs, hfront, List.count_append, Option.toList_some, List.count_singleton_self] at hle
    omega

theorem popped_move {rest : List ManagedBuffer} (hready : (readyBuffs m).readyElems = x₀ :: rest)
    (hfront : (BufferManager.front m).managedBuffer = some x₀)
    (hready' : (readyBuffs m').readyElems = rest)
    (hpushed : (readyBuffs m').pushedElems = (readyBuffs m).pushedElems)
    (hfront' : (BufferManager.front m').managedBuffer = rest.head?)
    (hreuse : reuses m numBytes = false)
    (hops : popOps m h numBytes = .decr x₀ :: (rest.head?.toList.map .incr ++ [.decr x₀] ++
      rest.head?.toList.map .incr ++ rest.head?.toList.map .decr))
    (hlinks : h.SameLinks h')
    (hcounter : ∀ mb, (h'.impl mb).counter = ((h.apply (popOps m h numBytes)).impl mb).counter) :
    Popped own m m' h h' numBytes where
  links := hlinks
  counter := hcounter
  refs mb := by
    rw [hops]
    simp only [CountedManager.refs, OrderedQueue.elems, hready, hready', hpushed, hfront, hfront', RefOp.net_cons,
      RefOp.net_append, BufferAccumulator.net_incr, BufferAccumulator.net_decr, RefOp.net_nil, RefOp.delta,
      List.count_append, List.count_cons, Option.toList_some, List.count_nil, List.cons_append]
    push_cast
    by_cases hx : x₀ = mb
    · simp [hx]
      omega
    · simp [hx]
  covered c hc hheld := by
    rw [hops]
    have hthird := (hheld.resolve_left (by simp [hreuse])) x₀ (by rw [hfront]; rfl)
    refine covered_move (fun hown => ?_) fun x hx hown => ?_
    · simp only [CountedManager.refs, OrderedQueue.elems, hready, hfront, List.count_append, List.count_cons_self,
        Option.toList_some, List.cons_append, List.count_nil] at hthird
      omega
    · have hxmem : x ∈ rest := List.mem_of_head? hx
      have hxpos := List.count_pos_iff.mpr hxmem
      have hle := hc x hown
      simp only [CountedManager.refs, OrderedQueue.elems, hready, List.count_append, List.cons_append,
        List.count_cons] at hle
      refine ⟨by omega, ?_⟩
      rintro rfl
      simp only [CountedManager.refs, OrderedQueue.elems, hready, hfront, List.count_append, List.count_cons_self,
        Option.toList_some, List.cons_append, List.count_nil] at hthird
      omega

/-- A push to a queue that offers something leaves the front alone. -/
theorem pushed_behind (hfront' : (BufferManager.front m').managedBuffer = (BufferManager.front m).managedBuffer)
    (helems : (readyBuffs m').elems.Perm (mb :: (readyBuffs m).elems))
    (hready : (readyBuffs m).readyElems <+: (readyBuffs m').readyElems) (hops : pushOps m h mb = [.incr mb])
    (hheap : h' = h.apply (pushOps m h mb)) : Pushed own m m' h h' mb where
  links := hheap ▸ Heap.sameLinks_apply h _
  counter x := by rw [hheap]
  refs x := by
    rw [hops]
    simp only [CountedManager.refs, hfront', List.count_append, helems.count_eq, List.count_cons, RefOp.net_cons,
      RefOp.net_nil, RefOp.delta]
    by_cases hx : mb = x
    · simp [hx]
      omega
    · simp [hx]
  ready := hready
  covered := ⟨[], hops, fun _ _ => trivial⟩

/-- A push that makes the buffer the front, in whichever order it takes its references. -/
theorem pushed_front {pre post : List RefOp} {old : Option ManagedBuffer}
    (hold : (BufferManager.front m).managedBuffer = old) (hmem : ∀ x ∈ old, x ∈ (readyBuffs m).elems)
    (hnew : mb ∉ (readyBuffs m).elems) (hfront' : (BufferManager.front m').managedBuffer = some mb)
    (helems : (readyBuffs m').elems.Perm (mb :: (readyBuffs m).elems))
    (hready : (readyBuffs m).readyElems <+: (readyBuffs m').readyElems)
    (hpre : pre = [] ∧ post = [.incr mb] ∨ pre = [.incr mb] ∧ post = [])
    (hops : pushOps m h mb = .incr mb :: (pre ++ (old.toList.map .decr ++ [.incr mb] ++ [.decr mb]) ++ post))
    (hlinks : h.SameLinks h')
    (hcounter : ∀ x, (h'.impl x).counter = ((h.apply (pushOps m h mb)).impl x).counter) :
    Pushed own m m' h h' mb where
  links := hlinks
  counter := hcounter
  refs x := by
    have hnet : RefOp.net x (pushOps m h mb) = 2 * (RefOp.incr mb).delta x - (old.toList.count x : Int) := by
      rw [hops]
      rcases hpre with ⟨rfl, rfl⟩ | ⟨rfl, rfl⟩ <;>
        simp only [RefOp.net_cons, RefOp.net_append, BufferAccumulator.net_decr, RefOp.net_nil, RefOp.delta] <;>
        split <;> omega
    rw [hnet]
    simp only [CountedManager.refs, hold, hfront', List.count_append, helems.count_eq, List.count_cons,
      Option.toList_some, List.count_nil, RefOp.delta]
    by_cases hx : mb = x
    · simp [hx]
      omega
    · simp [hx]
  ready := hready
  covered := by
    refine ⟨_, hops, fun c hc => ?_⟩
    have hne : ∀ x ∈ old, x ≠ mb := fun x hx he => hnew (he ▸ hmem x hx)
    have htwo : ∀ x ∈ old, own x → 2 ≤ c x + (RefOp.incr mb).delta x := by
      intro x hx hown
      have hle := hc x hown
      have hpos := List.count_pos_iff.mpr (hmem x hx)
      obtain rfl : old = some x := hx
      simp only [CountedManager.refs, hold, List.count_append, Option.toList_some, List.count_singleton_self] at hle
      simp only [RefOp.delta]
      split <;> omega
    have hone : own mb → 1 ≤ c mb + (RefOp.incr mb).delta mb := by
      intro hown
      have hle := hc mb hown
      simp only [RefOp.delta, if_true]
      omega
    rcases hpre with ⟨rfl, rfl⟩ | ⟨rfl, rfl⟩
    · refine (covered_front hone hne htwo).append ?_
      refine ⟨fun hown => ?_, trivial⟩
      have hone := hone hown
      have hzero : (old.toList.count mb : Int) = 0 := by
        rw [Int.natCast_eq_zero, List.count_eq_zero]
        intro hmb
        exact hne mb (by simpa using hmb) rfl
      simp only [RefOp.net_append, BufferAccumulator.net_decr, RefOp.net_cons, RefOp.net_nil, RefOp.target, RefOp.need,
        RefOp.delta, if_true, hzero] at hone ⊢
      omega
    · rw [List.append_nil]
      refine ⟨hone, (covered_front (fun hown => ?_) hne fun x hx hown => ?_)⟩
      · have hone := hone hown
        simp only [RefOp.delta, if_true] at hone ⊢
        omega
      · have htwo := htwo x hx hown
        have hother : ¬ mb = x := fun he => hne x hx he.symm
        simp only [RefOp.delta, hother, if_false] at htwo ⊢
        omega

end CountedManager

end PothosCore.Framework

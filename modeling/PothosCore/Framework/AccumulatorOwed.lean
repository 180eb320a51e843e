import PothosCore.Framework.AccumulatorKeeping

/-!
# PothosCore.Framework.AccumulatorOwed

The invariant of an accumulator with its ledger, the calls one by one, and runs:
a call keeps every reference that is owed exactly if it is `Safe`, and when the
stream has been drained each reference has been given up exactly once.
-/

namespace PothosCore.Framework

open PothosCore.Lib

namespace BufferAccumulator

/-- A buffer that has a reference at every moment is not cleaned up. -/
theorem KeptOver.cleaned {entries : List Entry} {h : Heap} {n : ManagedBuffer → Int}
    {ms : List Moment} (mb : ManagedBuffer) (hk : KeptOver entries n ms)
    (hn : n mb ≤ (h.impl mb).counter) (hmb : ∀ m ∈ ms, mb ∈ owed entries m.1) :
    (h.apply (ms.map Prod.snd)).cleaned.count mb = h.cleaned.count mb := by
  induction ms generalizing h n with
  | nil => rfl
  | cons m ms ih =>
      obtain ⟨hpos, hrest⟩ := hk
      have hpos := hpos mb (hmb m List.mem_cons_self)
      rw [List.map_cons, Heap.apply_cons, ih hrest ?_ fun m' hm' => hmb m' (List.mem_cons_of_mem m hm')]
      · cases hop : m.2 with
        | incr mb' => rfl
        | decr mb' =>
            simp only [Heap.applyOp]
            split
            · next hone =>
                have hne : mb' ≠ mb := by
                  rintro rfl
                  rw [hop] at hpos
                  simp only [RefOp.delta, if_true] at hpos
                  omega
                show (h.cleaned ++ [mb']).count mb = _
                rw [List.count_append, List.count_singleton, if_neg (by simpa using hne), Nat.add_zero]
            · rfl
      · rw [Heap.applyOp_impl]
        show n mb + m.2.delta mb ≤ (h.impl mb).counter + m.2.delta mb
        omega

namespace Ledger

/-- **The invariant.** -/
structure Keeping (s : Ledger) : Prop where
  held : ∀ e ∈ s.entries, s.mark < e.stop → ∀ mb ∈ e.refs,
    HeldAt s.heap mb e.stop s.popped s.acc.queue
  marked : s.popped ≤ s.mark
  pushed : s.pushed = s.popped + total s.acc.queue
  queue : Shaped s.acc.queue
  stocked : Stocked s.heap s.acc.pool s.acc.queue
  balance : ∀ mb, ((handedIn s.entries).count mb : Int) + RefOp.net mb s.traffic =
    (refs s.heap s.acc.queue).count mb

/-- No buffer that is still owed a reference is cleaned up between `s` and `t`. -/
def Spared (s t : Ledger) : Prop :=
  ∀ mb ∈ owed t.entries t.mark, t.heap.cleaned.count mb = s.heap.cleaned.count mb

section
variable {s t : Ledger} {moments : List Moment}

theorem Keeping.start (heap : Heap) (mem : Memory) : Keeping (Ledger.start heap mem) where
  held := fun e he => by cases he
  marked := Nat.le_refl 0
  pushed := rfl
  queue := .inl rfl
  stocked := ⟨fun p hp => (by cases hp), fun mb hmb => (by cases hmb)⟩
  balance := fun _ => rfl

/-- What is owed is held. -/
theorem Keeping.mem (hk : Keeping s) {mark : Nat} (hle : s.mark ≤ mark) :
    ∀ mb ∈ owed s.entries mark, mb ∈ refs s.heap s.acc.queue := by
  intro mb hmb
  obtain ⟨e, he, hm⟩ := List.mem_flatMap.mp hmb
  obtain ⟨he, hstop⟩ := List.mem_filter.mp he
  have hlt : mark < e.stop := by simpa using hstop
  exact (hk.held e he (hle.trans_lt hlt) mb hm).mem

theorem mem_owed {entries : List Entry} {mark : Nat} {mb : ManagedBuffer} :
    mb ∈ owed entries mark ↔ ∃ e ∈ entries, mark < e.stop ∧ mb ∈ e.refs := by
  simp [owed, handedIn, and_assoc]

/-! ### push -/

theorem call_push {buffer : BufferChunk} (hcall : s.call (.push buffer) = .ok (t, moments)) :
    ∃ acc ops, s.acc.push s.heap buffer = .ok (acc, ops) ∧ moments = ops.map (s.mark, ·) ∧
      t = { s with
        acc := acc, heap := s.heap.apply ops, pushed := s.pushed + buffer.length,
        entries := s.entries ++ [⟨s.pushed + buffer.length, buffer.handles s.heap⟩],
        traffic := s.traffic ++ ops } := by
  simp only [call, bind, Except.bind] at hcall
  split at hcall
  · cases hcall
  · next r hp =>
      obtain ⟨rfl, rfl⟩ := Prod.mk.inj (Except.ok.inj hcall)
      exact ⟨r.1, r.2, hp, rfl, rfl⟩

/-- The place of an entry's references before `push` looks at the chunk. -/
theorem Keeping.held_pushed (hk : Keeping s) {buffer : BufferChunk} :
    ∀ e ∈ s.entries ++ [⟨s.pushed + buffer.length, buffer.handles s.heap⟩], s.mark < e.stop →
      ∀ mb ∈ e.refs, HeldAt s.heap mb e.stop s.popped
        ((removeDummy s.heap s.acc.queue).1 ++ [buffer]) := by
  intro e he hmark mb hmb
  rcases List.mem_append.mp he with he | he
  · exact heldAt_append.mpr (.inl (removeDummy_heldAt (hk.held e he hmark mb hmb)
      (hk.marked.trans_lt hmark)))
  · rw [List.mem_singleton.mp he] at hmb ⊢
    refine heldAt_append.mpr (.inr (.inl ⟨hmb, ?_⟩))
    rw [(removeDummy_content s.mem s.heap s.acc.queue).2, hk.pushed]

theorem Keeping.push (hk : Keeping s) {buffer : BufferChunk} (hadm : s.Admits (.push buffer))
    (hcall : s.call (.push buffer) = .ok (t, moments)) : Keeping t := by
  obtain ⟨hsome, hlinked, howned⟩ := hadm
  obtain ⟨acc, ops, hp, -, rfl⟩ := call_push hcall
  have hbal := push_balanced hsome hlinked hp
  have hpool : acc.pool = s.acc.pool := by
    obtain ⟨q, going, nexts, -, rfl, -⟩ := push_spec hsome hlinked hp
    rfl
  refine ⟨fun e he hmark mb hmb => ?_, hk.marked, ?_, push_shape hsome hlinked hk.queue hp,
    ⟨?_, ?_⟩, fun mb => ?_⟩
  · exact (push_heldAt hsome hlinked hp (hk.held_pushed e he hmark mb hmb)).congr
      fun c _ => handles_apply s.heap ops c
  · show s.pushed + buffer.length = s.popped + total acc.queue
    rw [(push_content s.mem hsome hlinked hp).2.1, hk.pushed, Nat.add_assoc]
  · show ∀ p ∈ acc.pool.buffs, Pooled (s.heap.apply ops) acc.pool.minBuffSize p
    rw [hpool]
    exact fun p hp => (hk.stocked.pooled p hp).congr (getBuffer_apply s.heap ops p)
  · show Owned (s.heap.apply ops) (refs (s.heap.apply ops) acc.queue ++
      refs (s.heap.apply ops) acc.pool.buffs)
    rw [refs_apply, refs_apply, hpool]
    exact howned.balanced hbal
  · have h₁ := hk.balance mb
    have h₂ := hbal.count mb
    show ((handedIn (s.entries ++ [⟨s.pushed + buffer.length, buffer.handles s.heap⟩])).count mb : Int) +
      RefOp.net mb (s.traffic ++ ops) = (refs (s.heap.apply ops) acc.queue).count mb
    rw [refs_append, refs_cons, refs_nil, List.append_nil, List.count_append] at h₂
    rw [refs_apply, RefOp.net_append, handedIn_concat, List.count_append]
    push_cast at h₂ ⊢
    omega

/-- **`push` keeps what is owed exactly if it is safe.** -/
theorem Keeping.push_iff (hk : Keeping s) {buffer : BufferChunk}
    (hadm : s.Admits (.push buffer)) (hcall : s.call (.push buffer) = .ok (t, moments)) :
    KeptOver t.entries (fun mb => (s.holding (.push buffer)).count mb) moments ↔
      s.Safe (.push buffer) := by
  obtain ⟨hsome, hlinked, -⟩ := hadm
  obtain ⟨acc, ops, hp, rfl, rfl⟩ := call_push hcall
  obtain ⟨q, going, nexts, ha, rfl, rfl, -, -⟩ := push_spec hsome hlinked hp
  let entries := s.entries ++ [⟨s.pushed + buffer.length, buffer.handles s.heap⟩]
  let gone := (removeDummy s.heap s.acc.queue).2 ++ (removeBack s.heap q).2
  have hcount : ∀ mb, ((s.holding (.push buffer)).count mb : Int) + RefOp.net mb gone =
      (refs s.heap (removeBack s.heap q).1).count mb := (push_released ha).count
  have hincr : nexts.flatMap (BufferChunk.acquire s.heap) = (refs s.heap nexts).map .incr := by
    rw [refs, List.map_flatMap]
    rfl
  have hid : ∀ ops : List RefOp, (ops.map (s.mark, ·)).map Prod.snd = ops := fun ops => by
    rw [List.map_map]
    exact List.map_id _
  show KeptOver entries _ ((gone ++ nexts.flatMap (BufferChunk.acquire s.heap)).map (s.mark, ·)) ↔ _
  rw [List.map_append, keptOver_append, hincr, hid]
  constructor
  · rintro ⟨hgone, -⟩ hremoves hmark mb hmb
    rcases removeBack_amalgamated ha with ⟨-, pre, f, b, rfl, hr, -, -, hb, -, hrefs⟩ | ⟨hnot, -⟩
    · have hne : gone ≠ [] := by
        simp only [gone, hr]
        obtain ⟨m, hm⟩ := Option.isSome_iff_exists.mp hsome
        simp [BufferChunk.destroy, hb.trans hm]
      have hpos := hgone.last hne mb (mem_owed.mpr
        ⟨_, List.mem_append_right _ (List.mem_singleton_self _), hmark, List.mem_append_right _ hmb⟩)
      have hleft : refs s.heap (removeBack s.heap (pre ++ [f, b])).1 =
          refs s.heap (removeDummy s.heap s.acc.queue).1 := by rw [hr]; exact hrefs
      rw [hcount, hleft] at hpos
      exact List.count_pos_iff.mp (by omega)
    · exact absurd hremoves hnot
  · intro hsafe
    have hmem : ∀ mb ∈ owed entries s.mark, mb ∈ refs s.heap (removeBack s.heap q).1 := by
      intro mb hmb
      obtain ⟨e, he, hmark, hme⟩ := mem_owed.mp hmb
      rcases removeBack_amalgamated ha with ⟨hr, pre, f, b, rfl, hrb, -, hf, -, -, hrefs⟩ | ⟨-, hrb⟩
      · rw [hrb]
        rcases List.mem_append.mp he with he | he
        · show mb ∈ refs s.heap (pre ++ [f])
          rw [hrefs]
          exact (removeDummy_heldAt (hk.held e he hmark mb hme) (hk.marked.trans_lt hmark)).mem
        · rw [List.mem_singleton.mp he] at hmark hme
          rcases List.mem_append.mp hme with hown | hnext
          · rw [← hf] at hown
            rw [refs_append, refs_cons]
            exact List.mem_append_right _ (List.mem_append_left _ (List.mem_append_left _ hown))
          · show mb ∈ refs s.heap (pre ++ [f])
            rw [hrefs]
            exact hsafe hr hmark mb hnext
      · rw [hrb]
        exact (amalgamate_heldAt ha s.popped (hk.held_pushed e he hmark mb hme)).mem
    have hpos : ∀ mb ∈ owed entries s.mark,
        0 < ((s.holding (.push buffer)).count mb : Int) + RefOp.net mb gone := by
      intro mb hmb
      have := List.count_pos_iff.mpr (hmem mb hmb)
      rw [hcount]
      omega
    refine ⟨keptOver_decr (fun op hop => ?_) hpos, keptOver_incr hpos⟩
    rcases List.mem_append.mp hop with hop | hop
    · exact removeDummy_isDecr op hop
    · exact removeBack_isDecr op hop

/-! ### pop -/

theorem call_pop {n : Nat} (hcall : s.call (.pop n) = .ok (t, moments)) :
    ∃ acc ops, s.acc.pop s.heap n = .ok (acc, ops) ∧
      moments = ops.map (max s.mark (s.popped + n), ·) ∧
      t = { s with
        acc := acc, heap := s.heap.apply ops, popped := s.popped + n,
        mark := max s.mark (s.popped + n), traffic := s.traffic ++ ops } := by
  simp only [call, bind, Except.bind] at hcall
  split at hcall
  · cases hcall
  · next r hp =>
      obtain ⟨rfl, rfl⟩ := Prod.mk.inj (Except.ok.inj hcall)
      exact ⟨r.1, r.2, hp, rfl, rfl⟩

theorem Keeping.pop (hk : Keeping s) {n : Nat} (hcall : s.call (.pop n) = .ok (t, moments))
    (hsafe : s.Safe (.pop n)) : Keeping t := by
  obtain ⟨acc, ops, hp, -, rfl⟩ := call_pop hcall
  have hbal := pop_balanced hp
  have hpool : acc.pool = s.acc.pool := by
    obtain ⟨f, q, q', ops', -, -, -, rfl, -⟩ := pop_inv hp
    rfl
  refine ⟨fun e he hmark mb hmb => ?_, Nat.le_max_right _ _, ?_, (pop_shape hk.queue hp).1,
    ⟨?_, ?_⟩, fun mb => ?_⟩
  · have hmark : max s.mark (s.popped + n) < e.stop := hmark
    have hplace := pop_heldAt hp (hk.held e he (by omega) mb hmb) (by omega)
      fun b hb hrule hlen => hsafe b hb hrule hlen mb (mem_owed.mpr ⟨e, he, hmark, hmb⟩)
    exact hplace.congr fun c _ => handles_apply s.heap ops c
  · show s.pushed = s.popped + n + total acc.queue
    rw [hk.pushed, pop_total hp, Nat.add_assoc]
  · show ∀ p ∈ acc.pool.buffs, Pooled (s.heap.apply ops) acc.pool.minBuffSize p
    rw [hpool]
    exact fun p hp => (hk.stocked.pooled p hp).congr (getBuffer_apply s.heap ops p)
  · show Owned (s.heap.apply ops) (refs (s.heap.apply ops) acc.queue ++
      refs (s.heap.apply ops) acc.pool.buffs)
    rw [refs_apply, refs_apply, hpool]
    exact hk.stocked.owned.balanced hbal
  · have h₁ := hk.balance mb
    have h₂ := hbal.count mb
    show ((handedIn s.entries).count mb : Int) + RefOp.net mb (s.traffic ++ ops) =
      (refs (s.heap.apply ops) acc.queue).count mb
    rw [refs_apply, RefOp.net_append]
    omega

theorem pop_isDecr {acc acc' : BufferAccumulator} {h : Heap} {n : Nat} {ops : List RefOp}
    (hp : acc.pop h n = .ok (acc', ops)) : ∀ op ∈ ops, IsDecr op := by
  obtain ⟨f, q, q', ops', -, -, hm, -, rfl⟩ := pop_inv hp
  intro op hop
  rcases List.mem_append.mp hop with hop | hop
  · exact hm.isDecr op hop
  · exact removeConsumed_isDecr op hop

/-- Where a front gives its bytes away, `pop` leaves what the chunks behind it
refer to, and it has given up the front's own reference. -/
theorem pop_moved {acc acc' : BufferAccumulator} {h : Heap} {n : Nat} {ops : List RefOp}
    (hshape : Shaped acc.queue) (hp : acc.pop h n = .ok (acc', ops)) {b : BufferChunk}
    (hb : b ∈ acc.queue[1]?) (hrule : Absorbs h acc.inPoolBuffer (consume acc.front n) b ∨
      Overran h (consume acc.front n) b) (hlen : n < acc.front.length) :
    ops ≠ [] ∧ ∀ mb ∈ refs h acc'.queue, mb ∈ refs h acc.queue.tail := by
  obtain ⟨f, q, q', ops', hq, hn, hm, rfl, rfl⟩ := pop_inv hp
  have hfront : acc.front = f := by rw [front, hq]; rfl
  rw [hq] at hb hshape ⊢
  rw [hfront] at hrule hlen
  cases q with
  | nil => cases hb
  | cons c q =>
      obtain rfl := Option.some.inj hb
      have hsome : f.isSome = true := hshape.front_cases.resolve_left fun hc => by cases hc.2
      obtain ⟨m, hfm⟩ := Option.isSome_iff_exists.mp hsome
      have hlen' : (consume f n).length ≠ 0 := by
        show f.length - n ≠ 0
        omega
      have hkeep : ∀ r : List BufferChunk, ∀ mb ∈ refs h (orDummy (removeConsumed h r).1),
          mb ∈ refs h r := by
        intro r mb hmb
        rw [refs_orDummy] at hmb
        obtain ⟨d, hd, hdm⟩ := List.mem_flatMap.mp hmb
        exact List.mem_flatMap.mpr ⟨d, (removeConsumed_suffix h r).subset hd, hdm⟩
      have hdestroy : ∀ l : List RefOp, (consume f n).destroy h ++ l ≠ [] := by
        intro l
        simp [BufferChunk.destroy, consume, hfm]
      cases hm with
      | absorb _ => exact ⟨hdestroy _, hkeep _⟩
      | drop _ hz => exact absurd hz hlen'
      | overrun _ _ _ => exact ⟨hdestroy _, hkeep _⟩
      | keep hna _ hno => exact absurd hrule (not_or.mpr ⟨hna, hno⟩)

/-- **`pop` keeps what is owed exactly if it is safe.** -/
theorem Keeping.pop_iff (hk : Keeping s) {n : Nat}
    (hcall : s.call (.pop n) = .ok (t, moments)) :
    KeptOver t.entries (fun mb => (s.holding (.pop n)).count mb) moments ↔ s.Safe (.pop n) := by
  obtain ⟨acc, ops, hp, rfl, rfl⟩ := call_pop hcall
  have hcount := (pop_balanced hp).count
  show KeptOver s.entries (fun mb => ((refs s.heap s.acc.queue).count mb : Int)) _ ↔ _
  constructor
  · intro hkept b hb hrule hlen mb hmb
    obtain ⟨hne, hleft⟩ := pop_moved hk.queue hp hb hrule hlen
    have hpos := hkept.last hne mb hmb
    rw [hcount] at hpos
    exact hleft mb (List.count_pos_iff.mp (by omega))
  · intro hsafe
    refine keptOver_decr (pop_isDecr hp) fun mb hmb => ?_
    rw [hcount]
    have ht := (hk.pop hcall hsafe).mem (Nat.le_refl _) mb hmb
    have ht : mb ∈ refs (s.heap.apply ops) acc.queue := ht
    rw [refs_apply] at ht
    have := List.count_pos_iff.mpr ht
    omega

/-! ### require -/

/-- A larger request of the pool cleans up no buffer that the queue refers to. -/
theorem get_cleaned {pool : BufferPool} {h : Heap} {q : List BufferChunk} (fresh : Nat × Nat)
    (n : Nat) (hs : Stocked h pool q) {mb : ManagedBuffer} (hmb : mb ∈ refs h q) :
    (pool.get h fresh n).2.2.cleaned.count mb = h.cleaned.count mb := by
  have hgrow : (pool.grow h n).2.cleaned.count mb = h.cleaned.count mb := by
    unfold BufferPool.grow
    split
    · have hdecr : ∀ op ∈ pool.buffs.flatMap (BufferChunk.destroy h), IsDecr op := by
        intro op hop
        obtain ⟨c, -, hc⟩ := List.mem_flatMap.mp hop
        exact destroy_isDecr c op hc
      have hkept : KeptOver [⟨1, [mb]⟩]
          (fun m => ((refs h q ++ refs h pool.buffs).count m : Int))
          ((pool.buffs.flatMap (BufferChunk.destroy h)).map (0, ·)) := by
        refine keptOver_decr hdecr fun m hm => ?_
        obtain ⟨e, he, -, hme⟩ := mem_owed.mp hm
        rw [List.mem_singleton.mp he] at hme
        obtain rfl := List.mem_singleton.mp hme
        have := List.count_pos_iff.mpr hmb
        rw [net_flatMap_destroy, List.count_append]
        omega
      have hclean := hkept.cleaned mb (hs.owned mb (List.mem_append_left _ hmb)) fun m hm => by
        obtain ⟨op, -, rfl⟩ := List.mem_map.mp hm
        exact mem_owed.mpr ⟨_, List.mem_singleton_self _, Nat.zero_lt_one, List.mem_singleton_self _⟩
      rw [List.map_map] at hclean
      have hid : (pool.buffs.flatMap (BufferChunk.destroy h)).map (Prod.snd ∘ fun op => (0, op)) =
          pool.buffs.flatMap (BufferChunk.destroy h) := List.map_id _
      rw [hid] at hclean
      exact hclean
    · rfl
  rcases get_cases pool h fresh n with ⟨b, -, hget⟩ | hget
  · rw [hget]
    exact hgrow
  · rw [hget]
    exact hgrow

/-- **`require` keeps what is owed.** -/
theorem Keeping.require (hk : Keeping s) {n : Nat} {fresh : Nat × Nat}
    (hadm : s.Admits (.require n fresh))
    (hcall : s.call (.require n fresh) = .ok (t, moments)) :
    Keeping t ∧ KeptOver t.entries (fun mb => (s.holding (.require n fresh)).count mb) moments ∧
      Spared s t := by
  by_cases hsuff : s.acc.Suffices s.heap n
  · simp only [call, BufferAccumulator.require, if_neg hk.queue.ne_nil, if_pos hsuff, bind,
      Except.bind] at hcall
    obtain ⟨rfl, rfl⟩ := Prod.mk.inj (Except.ok.inj hcall)
    exact ⟨hk, trivial, fun _ _ => rfl⟩
  · obtain ⟨pool', b, h', hget, hs, hmem, -, hagree⟩ := hk.stocked.get (n := n) hadm
    obtain ⟨hreq, hs'⟩ := hs.require s.mem hmem hk.queue.ne_nil hsuff hget
    have hpooled := hs.pooled b hmem
    have hcopy : b.copy h' = b :=
      BufferChunk.copy_of_le h' b hpooled.getEnd.le hpooled.nextBuffers
    let nb : BufferChunk := { b with dtype := s.acc.front.dtype, length := 0 }
    let h₁ := h'.apply (b.acquire h')
    let r := fill h₁ s.mem nb b.length s.acc.queue
    let copying := (fillMoments h' s.popped b.length s.acc.queue).map
      fun m : Moment => (max s.mark m.1, m.2)
    have hsnd : ((b.acquire h').map (s.mark, ·) ++ copying).map Prod.snd =
        b.acquire h' ++ r.2.2.2 := by
      rw [List.map_append, List.map_map, List.map_map]
      congr 1
      · exact List.map_id _
      · have hmoments := fillMoments_apply h' (b.acquire h') s.popped b.length s.acc.queue
        rw [← fillMoments_snd s.popped s.mem nb b.length, hmoments]
        rfl
    have hcalled : s.call (.require n fresh) = .ok ({ s with
        acc := ⟨r.2.1 :: r.2.2.1, s.acc.bytesAvailable, true, pool'⟩, heap := h₁.apply r.2.2.2,
        mem := r.1, mark := max s.mark (s.popped + r.2.1.length),
        traffic := s.traffic ++ (b.acquire h' ++ r.2.2.2) },
        (b.acquire h').map (s.mark, ·) ++ copying) := by
      simp only [call, hreq, if_neg hsuff, hget, hcopy, bind, Except.bind]
      rw [← hsnd]
      rfl
    obtain ⟨rfl, rfl⟩ := Prod.mk.inj (Except.ok.inj (hcalled.symm.trans hcall))
    obtain ⟨hsame, -, -, htotal⟩ := fill_shape h₁ s.mem nb b.length s.acc.queue
    have hheld : ∀ e ∈ s.entries, s.mark < e.stop → ∀ mb ∈ e.refs,
        HeldAt h' mb e.stop s.popped s.acc.queue :=
      fun e he hmark mb hmb => (hk.held e he hmark mb hmb).congr hagree.handles
    have hrefs : refs h' s.acc.queue = refs s.heap s.acc.queue := hagree.refs
    have hkept : KeptOver s.entries (fun mb => ((refs s.heap s.acc.queue).count mb : Int))
        ((b.acquire h').map (s.mark, ·) ++ copying) := by
      rw [keptOver_append]
      constructor
      · refine keptOver_incr fun mb hmb => ?_
        have := List.count_pos_iff.mpr (hk.mem (Nat.le_refl _) mb hmb)
        omega
      · refine fillMoments_kept b.length (fun e he hmark _ => hheld e he hmark) fun mb => ?_
        rw [List.map_map]
        have hid : (b.acquire h').map (Prod.snd ∘ fun op => (s.mark, op)) = b.acquire h' :=
          List.map_id _
        rw [hid, net_acquire, hrefs]
        omega
    refine ⟨⟨fun e he hmark mb hmb => ?_, ?_, ?_, .inr ⟨List.cons_ne_nil _ _, fun c hc => ?_⟩,
      hs', fun mb => ?_⟩, hkept, fun mb hmb => ?_⟩
    · have hmark : max s.mark (s.popped + r.2.1.length) < e.stop := hmark
      have hrest := fill_heldAt (h := h₁) s.mem nb b.length r.2.1.length
        ((hheld e he (by omega) mb hmb).congr fun c _ => handles_apply h' _ c)
        (Nat.zero_add _).symm (by omega)
      exact .inr (hrest.congr fun c _ => handles_apply h₁ _ c)
    · exact hk.marked.trans (Nat.le_max_left _ _)
    · rw [hk.pushed]
      exact congrArg (s.popped + ·) (htotal.trans (Nat.zero_add _)).symm
    · rcases List.mem_cons.mp hc with rfl | hc
      · rw [BufferChunk.isSome, hsame]
        exact hpooled.isSome
      · exact hk.queue.fill s.mem nb b.length c hc
    · have h₁' := hk.balance mb
      have h₂ := (fill_balanced (h := h₁) s.mem nb b.length s.acc.queue).count mb
      have hhandles : r.2.1.handles h' = b.handles h' := by
        rw [hsame]
        rfl
      show ((handedIn s.entries).count mb : Int) +
        RefOp.net mb (s.traffic ++ (b.acquire h' ++ r.2.2.2)) =
          (refs (h₁.apply r.2.2.2) (r.2.1 :: r.2.2.1)).count mb
      rw [refs_apply, hrefs] at h₂
      rw [refs_apply, refs_apply, refs_cons, hhandles, List.count_append, RefOp.net_append,
        RefOp.net_append, net_acquire]
      rw [refs_apply] at h₂
      push_cast
      linarith
    · have hmem₀ := hk.mem (Nat.le_max_left _ _) mb hmb
      show (h₁.apply r.2.2.2).cleaned.count mb = _
      rw [← Heap.apply_append, ← hsnd, hkept.cleaned mb ?_ ?_]
      · have hclean := get_cleaned fresh n hk.stocked hmem₀
        rw [hget] at hclean
        exact hclean
      · rw [← hrefs]
        refine le_trans ?_ (hs.owned mb (List.mem_append_left _ (hrefs ▸ hmem₀)))
        rw [List.count_append]
        omega
      · intro m hm
        refine owed_mono ?_ hmb
        rcases List.mem_append.mp hm with hm | hm
        · obtain ⟨op, -, rfl⟩ := List.mem_map.mp hm
          exact Nat.le_max_left _ _
        · obtain ⟨m', hm', rfl⟩ := List.mem_map.mp hm
          rw [← fillMoments_apply h' (b.acquire h')] at hm'
          have hle : m'.1 ≤ s.popped + r.2.1.length := fillMoments_mark s.mem nb b.length m' hm'
          exact max_le_max_left s.mark hle

/-! ### Runs -/

theorem Keeping.other (hk : Keeping s) {heap : Heap} {mem : Memory}
    (hadm : s.Admits (.other heap mem)) : Keeping { s with heap := heap, mem := mem } := by
  obtain ⟨hagree, howned⟩ := hadm
  have hq : Agree s.heap heap (refs s.heap s.acc.queue) :=
    fun mb hmb => hagree mb (List.mem_append_left _ hmb)
  have hp : Agree s.heap heap (refs s.heap s.acc.pool.buffs) :=
    fun mb hmb => hagree mb (List.mem_append_right _ hmb)
  refine ⟨fun e he hmark mb hmb => (hk.held e he hmark mb hmb).congr hq.handles, hk.marked,
    hk.pushed, hk.queue, ⟨fun p hpp => (hk.stocked.pooled p hpp).congr (hp.getBuffer p hpp), ?_⟩,
    fun mb => ?_⟩
  · show Owned heap (refs heap s.acc.queue ++ refs heap s.acc.pool.buffs)
    rw [hq.refs, hp.refs]
    exact howned
  · show _ = ((refs heap s.acc.queue).count mb : Int)
    rw [hq.refs]
    exact hk.balance mb

/-- **A call keeps what is owed, at every moment, exactly if it is safe.** -/
theorem Keeping.kept_iff (hk : Keeping s) {e : Event} (hadm : s.Admits e)
    (hcall : s.call e = .ok (t, moments)) :
    KeptOver t.entries (fun mb => (s.holding e).count mb) moments ↔ s.Safe e := by
  cases e with
  | push buffer => exact hk.push_iff hadm hcall
  | require n fresh => exact iff_of_true (hk.require hadm hcall).2.1 trivial
  | pop n => exact hk.pop_iff hcall
  | other heap mem =>
      obtain ⟨rfl, rfl⟩ := Prod.mk.inj (Except.ok.inj hcall)
      exact iff_of_true trivial trivial

theorem Keeping.step (hk : Keeping s) {e : Event} (hadm : s.Admits e)
    (hcall : s.call e = .ok (t, moments)) (hsafe : s.Safe e) : Keeping t := by
  cases e with
  | push buffer => exact hk.push hadm hcall
  | require n fresh => exact (hk.require hadm hcall).1
  | pop n => exact hk.pop hcall hsafe
  | other heap mem =>
      obtain ⟨rfl, rfl⟩ := Prod.mk.inj (Except.ok.inj hcall)
      exact hk.other hadm

/-- **A safe call cleans up nothing that is owed a reference.** -/
theorem Keeping.spared (hk : Keeping s) {e : Event} (hadm : s.Admits e)
    (hcall : s.call e = .ok (t, moments)) (hsafe : s.Safe e) :
    Spared s t ∨ ∃ heap mem, e = .other heap mem := by
  have hkept := (hk.kept_iff hadm hcall).mpr hsafe
  have hsteps : ∀ (mark : Nat) (ops : List RefOp), (ops.map (mark, ·)).map Prod.snd = ops :=
    fun mark ops => by rw [List.map_map]; exact List.map_id _
  cases e with
  | push buffer =>
      refine .inl fun mb hmb => ?_
      obtain ⟨hsome, hlinked, howned⟩ := hadm
      obtain ⟨acc, ops, hp, rfl, rfl⟩ := call_push hcall
      have hmem : mb ∈ s.holding (.push buffer) := by
        obtain ⟨e, he, hmark, hme⟩ := mem_owed.mp hmb
        rcases List.mem_append.mp he with he | he
        · show mb ∈ refs s.heap (s.acc.queue ++ [buffer])
          rw [refs_append]
          exact List.mem_append_left _ (hk.held e he hmark mb hme).mem
        · rw [List.mem_singleton.mp he] at hme
          show mb ∈ refs s.heap (s.acc.queue ++ [buffer])
          rw [refs_append, refs_cons]
          exact List.mem_append_right _ (List.mem_append_left _ hme)
      have hclean := hkept.cleaned (h := s.heap) mb ?_ fun m hm => ?_
      · rw [hsteps] at hclean
        exact hclean
      · refine le_trans ?_ (howned mb (List.mem_append_left _ hmem))
        rw [List.count_append]
        omega
      · obtain ⟨op, -, rfl⟩ := List.mem_map.mp hm
        exact hmb
  | require n fresh => exact .inl (hk.require hadm hcall).2.2
  | pop n =>
      refine .inl fun mb hmb => ?_
      obtain ⟨acc, ops, hp, rfl, rfl⟩ := call_pop hcall
      have hmem := hk.mem (Nat.le_max_left _ _) mb hmb
      have hclean := hkept.cleaned (h := s.heap) mb ?_ fun m hm => ?_
      · rw [hsteps] at hclean
        exact hclean
      · refine le_trans ?_ (hk.stocked.owned mb (List.mem_append_left _ hmem))
        rw [List.count_append]
        show ((refs s.heap s.acc.queue).count mb : Int) ≤ _
        omega
      · obtain ⟨op, -, rfl⟩ := List.mem_map.mp hm
        exact hmb
  | other heap mem => exact .inr ⟨heap, mem, rfl⟩

theorem Keeping.run {es : List Event} (hk : Keeping s)
    (hrun : Exec (restrict (ofPartial Ledger.step) Ledger.Safe) s es t) : Keeping t := by
  refine hrun.invariant (fun u e v hu hstep => ?_) hk
  obtain ⟨hadm, ms, hcall⟩ := step_inv hstep.1
  exact hu.step hadm hcall hstep.2

/-- A `pop` that drains the stream leaves no reference behind. -/
theorem drained {n : Nat} (hk : Keeping s) (hcall : s.call (.pop n) = .ok (t, moments))
    (hsafe : s.Safe (.pop n)) (hdrained : t.popped = t.pushed) :
    refs t.heap t.acc.queue = [] := by
  have htotal := (hk.pop hcall hsafe).pushed
  obtain ⟨acc, ops, hp, -, rfl⟩ := call_pop hcall
  have hdrained : s.popped + n = s.pushed := hdrained
  have htotal : s.pushed = s.popped + n + total acc.queue := htotal
  obtain ⟨f, q, q', ops', -, -, -, rfl, -⟩ := pop_inv hp
  have hzero : total (removeConsumed s.heap q').1 = 0 := by
    have := (orDummy_content s.mem (removeConsumed s.heap q').1).2
    have htotal : s.pushed = s.popped + n + total (orDummy (removeConsumed s.heap q').1) := htotal
    omega
  show refs (s.heap.apply ops) (orDummy (removeConsumed s.heap q').1) = []
  rw [refs_apply, refs_orDummy]
  cases hr : (removeConsumed s.heap q').1 with
  | nil => rfl
  | cons c r =>
      rw [hr, total_cons] at hzero
      have hne := removeConsumed_head s.heap q' c (by rw [hr]; rfl)
      omega

end

/-- The account of the references in a state. -/
structure Sound (s : Ledger) : Prop where
  /-- What is owed a reference of the queue has one, so it is in use. -/
  referred : ∀ mb ∈ owed s.entries s.mark,
    mb ∈ refs s.heap s.acc.queue ∧ 0 < (s.heap.impl mb).counter
  /-- What came in and was taken, less what was given up, is what the queue holds. -/
  balance : ∀ mb, ((handedIn s.entries).count mb : Int) + RefOp.net mb s.traffic =
    (refs s.heap s.acc.queue).count mb
  /-- The next call keeps what is owed, at every moment, exactly if it is safe. -/
  kept : ∀ e t, s.step e = some t → (s.Kept e ↔ s.Safe e)
  /-- A safe call cleans up nothing that is owed a reference. -/
  spared : ∀ e t, s.step e = some t → s.Safe e →
    Spared s t ∨ ∃ heap mem, e = .other heap mem
  /-- A safe `pop` that drains the stream has released each reference once. -/
  released : ∀ n t, s.step (.pop n) = some t → s.Safe (.pop n) → t.popped = t.pushed →
    ∀ mb, RefOp.net mb t.traffic = -((handedIn t.entries).count mb : Int)

/-- **Managed buffers are held as long as their bytes are queued**, in every run of
safe calls. -/
theorem sound_of_safe {heap : Heap} {mem : Memory} {es : List Event} {s : Ledger}
    (hrun : Exec (restrict (ofPartial Ledger.step) Ledger.Safe) (start heap mem) es s) :
    Sound s := by
  have hk := (Keeping.start heap mem).run hrun
  refine ⟨fun mb hmb => ?_, hk.balance, fun e t hstep => ?_, fun e t hstep hsafe => ?_,
    fun n t hstep hsafe hdrained mb => ?_⟩
  · have hmem := hk.mem (Nat.le_refl _) mb hmb
    have hpos := List.count_pos_iff.mpr hmem
    have hcount := hk.stocked.owned mb (List.mem_append_left _ hmem)
    rw [List.count_append] at hcount
    exact ⟨hmem, by omega⟩
  · obtain ⟨hadm, ms, hcall⟩ := step_inv hstep
    rw [← hk.kept_iff hadm hcall]
    constructor
    · exact fun hkept => hkept t ms hcall
    · intro hkept t' ms' hcall'
      obtain ⟨rfl, rfl⟩ := Prod.mk.inj (Except.ok.inj (hcall.symm.trans hcall'))
      exact hkept
  · obtain ⟨hadm, ms, hcall⟩ := step_inv hstep
    exact hk.spared hadm hcall hsafe
  · obtain ⟨-, ms, hcall⟩ := step_inv hstep
    have hbalance := (hk.pop hcall hsafe).balance mb
    rw [drained hk hcall hsafe hdrained, List.count_nil] at hbalance
    omega

/-- Two buffers in a chain, behind each other in memory. The first is referred to
twice. -/
def chained : Heap :=
  (((Heap.empty.create 1 ⟨100, 8, 0⟩ 0).create 2 ⟨108, 8, 0⟩ 1).setNextBuffer 1 2).apply [.incr 1]

/-- A chunk that was amalgamated upstream is pushed and popped in two parts. -/
theorem sound_of_safe_amalgamated : ∃ s, Exec (restrict (ofPartial Ledger.step) Ledger.Safe)
    (start chained fun _ => 0) [.push ⟨100, 12, .unspecified, some 1, 1⟩, .pop 10, .pop 2] s ∧
    Sound s ∧ s.acc.queue.map (·.managedBuffer) = [none] ∧ s.heap.cleaned = [2] := by
  have hrun : (runPartial (guarded Ledger.step Ledger.Safe) (start chained fun _ => 0)
      [.push ⟨100, 12, .unspecified, some 1, 1⟩, .pop 10, .pop 2]).map
      (fun s => (s.acc.queue.map (·.managedBuffer), s.heap.cleaned)) = some ([none], [2]) := by
    decide +kernel
  obtain ⟨s, hs, hval⟩ := Option.map_eq_some_iff.mp hrun
  have hexec := exec_of_runPartial hs
  rw [ofPartial_guarded] at hexec
  obtain ⟨hqueue, hcleaned⟩ := Prod.mk.inj hval
  exact ⟨s, hexec, sound_of_safe hexec, hqueue, hcleaned⟩

/-- `push` removes a chunk that was amalgamated upstream, and its next buffer goes
back to its manager before the placeholder refers to it again. -/
theorem not_kept_amalgamated : ∃ s t, Exec (ofPartial Ledger.step) (start chained fun _ => 0)
      [.push ⟨100, 4, .unspecified, some 1, 0⟩] s ∧
    s.step (.push ⟨104, 8, .unspecified, some 1, 1⟩) = some t ∧
    owed t.entries t.mark = [1, 1, 2] ∧ t.heap.cleaned = [2] ∧
    t.acc.queue.map (·.managedBuffer) = [some 1, some 2] := by
  have hrun : ((runPartial Ledger.step (start chained fun _ => 0)
      [.push ⟨100, 4, .unspecified, some 1, 0⟩]).bind fun s =>
      s.step (.push ⟨104, 8, .unspecified, some 1, 1⟩)).map (fun t =>
        (owed t.entries t.mark, t.heap.cleaned, t.acc.queue.map (·.managedBuffer))) =
      some ([1, 1, 2], [2], [some 1, some 2]) := by decide +kernel
  obtain ⟨t, ht, hval⟩ := Option.map_eq_some_iff.mp hrun
  obtain ⟨s, hs, hstep⟩ := Option.bind_eq_some_iff.mp ht
  obtain ⟨howed, hrest⟩ := Prod.mk.inj hval
  obtain ⟨hcleaned, hqueue⟩ := Prod.mk.inj hrest
  exact ⟨s, t, exec_of_runPartial hs, hstep, howed, hcleaned, hqueue⟩

end Ledger

end BufferAccumulator

end PothosCore.Framework

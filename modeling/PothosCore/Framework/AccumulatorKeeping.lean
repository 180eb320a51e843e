import PothosCore.Framework.AccumulatorCover
import PothosCore.Framework.AccumulatorLedger

/-!
# PothosCore.Framework.AccumulatorKeeping

Which calls keep what is owed. The invariant says where the references are: a
buffer that is owed a reference is held by a chunk that ends at or behind the last
byte of the pushed one (`HeldAt`). Amalgamation moves ends towards the back, and
chunks leave the queue when the stream has passed their ends.

Two steps break this. `push` removes a chunk whose bytes went to the one before
it before it takes the references on the next buffers anew. And `pop` gives the
bytes of a front away together with the front's references.
-/

namespace PothosCore.Framework

open PothosCore.Lib

namespace BufferAccumulator

/-! ### Moments -/

section
variable {entries : List Entry}

theorem keptOver_append {n : ManagedBuffer → Int} {ms ms' : List Moment} :
    KeptOver entries n (ms ++ ms') ↔ KeptOver entries n ms ∧
      KeptOver entries (fun mb => n mb + RefOp.net mb (ms.map Prod.snd)) ms' := by
  induction ms generalizing n with
  | nil => simp [KeptOver]
  | cons m ms ih =>
      simp only [List.cons_append, KeptOver, ih, List.map_cons, RefOp.net_cons, and_assoc,
        Int.add_assoc]

/-- Is this step a decrement? -/
def IsDecr : RefOp → Prop
  | .incr _ => False
  | .decr _ => True

theorem net_le_zero {ops : List RefOp} (hops : ∀ op ∈ ops, IsDecr op) (mb : ManagedBuffer) :
    RefOp.net mb ops ≤ 0 := by
  induction ops with
  | nil => exact le_refl 0
  | cons op ops ih =>
      have hrest := ih fun o ho => hops o (List.mem_cons_of_mem op ho)
      have hop := hops op List.mem_cons_self
      rw [RefOp.net_cons]
      cases op with
      | incr m => cases hop
      | decr m =>
          simp only [RefOp.delta]
          split
          · omega
          · omega

/-- References that are left when all have been given up were there all along. -/
theorem keptOver_decr {n : ManagedBuffer → Int} {ops : List RefOp} {mark : Nat}
    (hops : ∀ op ∈ ops, IsDecr op) (hn : ∀ mb ∈ owed entries mark, 0 < n mb + RefOp.net mb ops) :
    KeptOver entries n (ops.map (mark, ·)) := by
  induction ops generalizing n with
  | nil => trivial
  | cons op ops ih =>
      have hrest : ∀ o ∈ ops, IsDecr o := fun o ho => hops o (List.mem_cons_of_mem op ho)
      refine ⟨fun mb hmb => ?_, ih hrest fun mb hmb => ?_⟩
      · have := hn mb hmb
        have := net_le_zero hrest mb
        rw [RefOp.net_cons] at *
        omega
      · have := hn mb hmb
        rw [RefOp.net_cons] at this
        omega

/-- Taking references. -/
theorem keptOver_incr {n : ManagedBuffer → Int} {l : List ManagedBuffer} {mark : Nat}
    (hn : ∀ mb ∈ owed entries mark, 0 < n mb) :
    KeptOver entries n ((l.map RefOp.incr).map (mark, ·)) := by
  induction l generalizing n with
  | nil => trivial
  | cons m l ih =>
      have hpos : ∀ mb ∈ owed entries mark, 0 < n mb + RefOp.delta mb (.incr m) := by
        intro mb hmb
        have := hn mb hmb
        simp only [RefOp.delta]
        split
        · omega
        · omega
      exact ⟨hpos, ih hpos⟩

/-- What is owed after the last step is there. -/
theorem KeptOver.last {n : ManagedBuffer → Int} {ops : List RefOp} {mark : Nat}
    (hk : KeptOver entries n (ops.map (mark, ·))) (hne : ops ≠ []) :
    ∀ mb ∈ owed entries mark, 0 < n mb + RefOp.net mb ops := by
  induction ops generalizing n with
  | nil => exact absurd rfl hne
  | cons op ops ih =>
      intro mb hmb
      cases ops with
      | nil =>
          have := hk.1 mb hmb
          rw [RefOp.net_cons, RefOp.net_nil]
          omega
      | cons o ops =>
          have := ih hk.2 (List.cons_ne_nil o ops) mb hmb
          rw [RefOp.net_cons]
          omega

theorem owed_mono {mark mark' : Nat} (hle : mark ≤ mark') {mb : ManagedBuffer}
    (hmb : mb ∈ owed entries mark') : mb ∈ owed entries mark := by
  obtain ⟨e, he, hm⟩ := List.mem_flatMap.mp hmb
  obtain ⟨he, hstop⟩ := List.mem_filter.mp he
  have hlt : mark' < e.stop := by simpa using hstop
  exact List.mem_flatMap.mpr ⟨e, List.mem_filter.mpr ⟨he, by simpa using hle.trans_lt hlt⟩, hm⟩

end

/-! ### Where the references are -/

/-- A chunk of the queue that ends at `stop` or behind holds `mb`; the queue starts
at `base`. -/
def HeldAt (h : Heap) (mb : ManagedBuffer) (stop : Nat) : Nat → List BufferChunk → Prop
  | _, [] => False
  | base, c :: q =>
      (mb ∈ c.handles h ∧ stop ≤ base + c.length) ∨ HeldAt h mb stop (base + c.length) q

section
variable {h : Heap} {mb : ManagedBuffer} {stop base : Nat} {q q' : List BufferChunk}

theorem HeldAt.mem (hh : HeldAt h mb stop base q) : mb ∈ refs h q := by
  induction q generalizing base with
  | nil => cases hh
  | cons c q ih =>
      rcases hh with ⟨hc, -⟩ | hq
      · exact List.mem_append_left _ hc
      · exact List.mem_append_right _ (ih hq)

theorem heldAt_append : HeldAt h mb stop base (q ++ q') ↔
    HeldAt h mb stop base q ∨ HeldAt h mb stop (base + total q) q' := by
  induction q generalizing base with
  | nil => simp [HeldAt]
  | cons c q ih => rw [List.cons_append, HeldAt, HeldAt, ih, total_cons, Nat.add_assoc, or_assoc]

/-- Everything a queue refers to is held from its start on. -/
theorem heldAt_of_mem (hmb : mb ∈ refs h q) (hle : stop ≤ base) : HeldAt h mb stop base q := by
  induction q generalizing base with
  | nil => cases hmb
  | cons c q ih =>
      rcases List.mem_append.mp hmb with hc | hq
      · exact .inl ⟨hc, hle.trans (Nat.le_add_right _ _)⟩
      · exact .inr (ih hq (hle.trans (Nat.le_add_right _ _)))

theorem HeldAt.congr {h' : Heap} (hq : ∀ c ∈ q, c.handles h' = c.handles h)
    (hh : HeldAt h mb stop base q) : HeldAt h' mb stop base q := by
  induction q generalizing base with
  | nil => cases hh
  | cons c q ih =>
      refine hh.imp (fun hc => ?_) (ih fun d hd => hq d (List.mem_cons_of_mem c hd))
      rw [hq c List.mem_cons_self]
      exact hc

/-- A front that ends before `stop` holds nothing that is owed from there on. -/
theorem HeldAt.tail {c : BufferChunk} (hh : HeldAt h mb stop base (c :: q))
    (hc : base + c.length < stop) : HeldAt h mb stop (base + c.length) q :=
  hh.resolve_left fun hf => Nat.not_lt.mpr hf.2 hc

/-! ### push -/

/-- **Amalgamation moves no end towards the front.** -/
theorem amalgamate_heldAt {going : Bool} (ha : amalgamate h q = .ok (q', going)) :
    ∀ base, HeldAt h mb stop base q → HeldAt h mb stop base q' := by
  refine amalgamate_induct (motive := fun q q' _ =>
    ∀ base, HeldAt h mb stop base q → HeldAt h mb stop base q') (fun _ => id) ?_ ?_ ?_ ha
  · intro f q going ha _ base hh
    obtain rfl := (amalgamate_going ha).1 rfl
    exact hh
  · intro f q b rest going _ ih _ base hh
    exact hh.imp id (ih _)
  · intro f q b rest _ ih _ _ _ base hh
    rcases hh with ⟨hf, hle⟩ | hq
    · refine .inl ⟨hf, hle.trans ?_⟩
      show base + f.length ≤ base + (f.length + b.length)
      omega
    · have hend : base + (f.length + b.length) + 0 = base + f.length + b.length := by omega
      rcases ih _ hq with ⟨hb, hle⟩ | hrest
      · refine .inr (.inl ⟨hb, ?_⟩)
        show stop ≤ base + (f.length + b.length) + 0
        omega
      · refine .inr (.inr ?_)
        show HeldAt h mb stop (base + (f.length + b.length) + 0) rest
        rw [hend]
        exact hrest

theorem removeDummy_heldAt (hh : HeldAt h mb stop base q) (hlt : base < stop) :
    HeldAt h mb stop base (removeDummy h q).1 := by
  cases q with
  | nil => cases hh
  | cons c q =>
      simp only [removeDummy]
      by_cases hc : c.length = 0
      · rw [if_pos hc]
        have := hh.tail (by omega)
        rwa [hc] at this
      · rw [if_neg hc]
        exact hh

/-- What the loop does to the last two chunks of the queue. -/
theorem amalgamate_back {going : Bool} (ha : amalgamate h q = .ok (q', going)) :
    ∀ pre f b, q = pre ++ [f, b] → ∃ pre' f',
      q' = pre' ++ [f', if Touches h f b then emptied b else b] ∧
        f'.managedBuffer = f.managedBuffer ∧ refs h (pre' ++ [f']) = refs h (pre ++ [f]) := by
  refine amalgamate_induct (motive := fun q q' _ => ∀ pre f b, q = pre ++ [f, b] → ∃ pre' f',
      q' = pre' ++ [f', if Touches h f b then emptied b else b] ∧
        f'.managedBuffer = f.managedBuffer ∧ refs h (pre' ++ [f']) = refs h (pre ++ [f]))
    ?_ ?_ ?_ ?_ ha
  · intro pre f b hq
    cases pre <;> cases hq
  · intro f₀ q going ha _ pre f b hq
    obtain rfl := (amalgamate_going ha).1 rfl
    cases pre with
    | nil => cases hq
    | cons c pre => cases pre <;> cases (List.cons.inj hq).2
  · intro f₀ q b₀ rest going ha ih hstop pre f b hq
    cases pre with
    | nil =>
        obtain ⟨rfl, rfl⟩ := List.cons.inj hq
        obtain ⟨hb, rfl⟩ : b :: [] = b₀ :: rest ∧ true = going := by
          simpa [amalgamate, bind, Except.bind] using ha
        obtain ⟨rfl, rfl⟩ := List.cons.inj hb
        exact ⟨[], f₀, by rw [if_neg (hstop rfl)]; rfl, rfl, rfl⟩
    | cons c pre =>
        obtain ⟨rfl, rfl⟩ := List.cons.inj hq
        obtain ⟨pre', f', hrest, hmb, hrefs⟩ := ih pre f b rfl
        refine ⟨f₀ :: pre', f', by rw [hrest]; rfl, hmb, ?_⟩
        rw [List.cons_append, List.cons_append, refs_cons, refs_cons, hrefs]
  · intro f₀ q b₀ rest ha ih _ _ ht pre f b hq
    cases pre with
    | nil =>
        obtain ⟨rfl, rfl⟩ := List.cons.inj hq
        have hb : b :: [] = b₀ :: rest := by
          simpa [amalgamate, bind, Except.bind] using ha
        obtain ⟨rfl, rfl⟩ := List.cons.inj hb
        exact ⟨[], mergeFront f₀ b, by rw [if_pos ht]; rfl, rfl, rfl⟩
    | cons c pre =>
        obtain ⟨rfl, rfl⟩ := List.cons.inj hq
        obtain ⟨pre', f', hrest, hmb, hrefs⟩ := ih pre f b rfl
        cases pre' with
        | nil =>
            obtain ⟨rfl, rfl⟩ := List.cons.inj hrest
            refine ⟨[mergeFront f₀ b₀], emptied b₀, rfl, hmb, ?_⟩
            show f₀.handles h ++ refs h [b₀] = f₀.handles h ++ refs h (pre ++ [f])
            rw [← hrefs]
            rfl
        | cons d pre' =>
            obtain ⟨rfl, rfl⟩ := List.cons.inj hrest
            refine ⟨mergeFront f₀ b₀ :: emptied b₀ :: pre', f', rfl, hmb, ?_⟩
            show f₀.handles h ++ refs h (b₀ :: pre' ++ [f']) = f₀.handles h ++ refs h (pre ++ [f])
            rw [← hrefs]

/-- `removeBack` on a queue of two chunks or more. -/
theorem removeBack_append : ∀ (pre : List BufferChunk) (f b : BufferChunk),
    removeBack h (pre ++ [f, b]) =
      if b.managedBuffer = f.managedBuffer ∧ b.length = 0 then (pre ++ [f], b.destroy h)
      else (pre ++ [f, b], [])
  | [], _, _ => rfl
  | [c], f, b => by
      have ih := removeBack_append [] f b
      simp only [List.nil_append] at ih
      simp only [List.cons_append, List.nil_append, removeBack]
      split <;> rfl
  | c :: d :: pre, f, b => by
      have ih := removeBack_append (d :: pre) f b
      have hne : ∃ e q, pre ++ [f, b] = e :: q := by cases pre <;> exact ⟨_, _, rfl⟩
      obtain ⟨e, q, heq⟩ := hne
      simp only [List.cons_append, heq] at ih ⊢
      simp only [removeBack, ih]
      split <;> rfl

/-- Whether `push` removes the chunk it appended can be told from the queue. -/
theorem removeBack_amalgamated {queue : List BufferChunk} {buffer : BufferChunk} {going : Bool}
    (ha : amalgamate h (queue ++ [buffer]) = .ok (q, going)) :
    (RemovesFrom h queue buffer ∧ ∃ pre f b, q = pre ++ [f, b] ∧
      removeBack h q = (pre ++ [f], b.destroy h) ∧ b.length = 0 ∧
      f.managedBuffer = buffer.managedBuffer ∧ b.managedBuffer = buffer.managedBuffer ∧
      b.nextBuffers = buffer.nextBuffers ∧ refs h (pre ++ [f]) = refs h queue) ∨
    (¬ RemovesFrom h queue buffer ∧ removeBack h q = (q, [])) := by
  rcases List.eq_nil_or_concat' queue with rfl | ⟨pre, f, rfl⟩
  · obtain ⟨rfl, -⟩ : [buffer] = q ∧ true = going := by
      simpa [amalgamate, bind, Except.bind] using ha
    refine .inr ⟨fun hr => ?_, rfl⟩
    obtain ⟨f, hf, -⟩ := hr
    cases hf
  · rw [List.append_assoc] at ha
    obtain ⟨pre', f', rfl, hmb, hrefs⟩ := amalgamate_back ha pre f buffer rfl
    have hlast : (pre ++ [f]).getLast? = some f := by simp
    have hb : (if Touches h f buffer then emptied buffer else buffer).managedBuffer =
        buffer.managedBuffer := by split <;> rfl
    have hn : (if Touches h f buffer then emptied buffer else buffer).nextBuffers =
        buffer.nextBuffers := by split <;> rfl
    have hlen : (if Touches h f buffer then emptied buffer else buffer).length = 0 ↔
        (Touches h f buffer ∨ buffer.length = 0) := by
      by_cases ht : Touches h f buffer
      · rw [if_pos ht]
        exact ⟨fun _ => .inl ht, fun _ => rfl⟩
      · rw [if_neg ht]
        exact ⟨.inr, fun hor => hor.resolve_left ht⟩
    generalize (if Touches h f buffer then emptied buffer else buffer) = b at hb hn hlen ⊢
    rw [removeBack_append]
    by_cases hr : RemovesFrom h (pre ++ [f]) buffer
    · obtain ⟨g, hg, hgm, hgl⟩ := id hr
      rw [hlast] at hg
      obtain rfl := Option.some.inj hg
      rw [if_pos ⟨hb.trans (hgm.trans hmb.symm), hlen.mpr hgl⟩]
      exact .inl ⟨hr, pre', f', _, rfl, rfl, hlen.mpr hgl, hmb.trans hgm.symm, hb, hn, hrefs⟩
    · rw [if_neg fun hc => hr ⟨f, hlast, hb.symm.trans (hc.1.trans hmb), hlen.mp hc.2⟩]
      exact .inr ⟨hr, rfl⟩

theorem nextList_congr {b c : BufferChunk} (hm : b.managedBuffer = c.managedBuffer)
    (hn : b.nextBuffers = c.nextBuffers) : b.nextList h = c.nextList h := by
  unfold BufferChunk.nextList
  rw [hm, hn]

/-- **`push` keeps the place of every reference**, those of the chunk included. -/
theorem push_heldAt {acc acc' : BufferAccumulator} {buffer : BufferChunk} {ops : List RefOp}
    (hsome : buffer.isSome = true) (hlinked : (buffer.nextList h).length = buffer.nextBuffers)
    (hp : acc.push h buffer = .ok (acc', ops))
    (hh : HeldAt h mb stop base ((removeDummy h acc.queue).1 ++ [buffer])) :
    HeldAt h mb stop base acc'.queue := by
  obtain ⟨q, going, nexts, ha, rfl, -, hrefs, -⟩ := push_spec hsome hlinked hp
  have hq := amalgamate_heldAt ha base hh
  show HeldAt h mb stop base ((removeBack h q).1 ++ nexts)
  rcases removeBack_amalgamated ha with ⟨-, pre, f, b, rfl, hr, hlen, hf, hb, hn, -⟩ | ⟨-, hr⟩
  · rw [hr]
    show HeldAt h mb stop base (pre ++ [f] ++ nexts)
    have hsplit : pre ++ [f, b] = pre ++ [f] ++ [b] := by simp
    rw [hsplit] at hq
    rcases heldAt_append.mp hq with hq | ⟨hmb, hle⟩ | hq
    · exact heldAt_append.mpr (.inl hq)
    · rcases List.mem_append.mp hmb with hown | hnext
      · -- the chunk before it has the same managed buffer and ends where it does
        refine heldAt_append.mpr (.inl (heldAt_append.mpr (.inr (.inl ⟨?_, ?_⟩))))
        · rw [hb, ← hf] at hown
          exact List.mem_append_left _ hown
        · rw [total_append, total_cons, total_nil] at hle
          omega
      · refine heldAt_append.mpr (.inr (heldAt_of_mem ?_ (by omega)))
        rw [refs, hrefs, ← nextList_congr hb hn]
        exact hnext
    · cases hq
  · rw [hr]
    exact heldAt_append.mpr (.inl hq)

/-! ### pop -/

/-- **The rules of `pop` keep the place of a reference**, if the chunks behind the
front have it where a front gives its bytes away. -/
theorem Moved.heldAt {i : Bool} {f : BufferChunk} {ops : List RefOp} (hm : Moved h i f q q' ops)
    (hh : HeldAt h mb stop base (f :: q)) (hlt : base < stop)
    (hsafe : ∀ b ∈ q.head?, Absorbs h i f b ∨ Overran h f b → f.length ≠ 0 → mb ∈ refs h q) :
    HeldAt h mb stop base q' := by
  have hempty : f.length = 0 → HeldAt h mb stop base q := by
    intro hf
    have := hh.tail (by omega)
    rwa [hf] at this
  have hmoved : ∀ {b : BufferChunk} {r : List BufferChunk}, q = b :: r →
      Absorbs h i f b ∨ Overran h f b → HeldAt h mb stop base (moveInto f b :: r) := by
    intro b r hq hrule
    subst hq
    have hend : base + (moveInto f b).length = base + f.length + b.length := by
      show base + (b.length + f.length) = _
      omega
    rcases hh with ⟨-, hle⟩ | ⟨hb, hle⟩ | hr
    · have hf : f.length ≠ 0 := by omega
      rcases List.mem_append.mp (hsafe b rfl hrule hf) with hb | hr
      · exact .inl ⟨hb, by omega⟩
      · exact .inr (heldAt_of_mem hr (by omega))
    · exact .inl ⟨hb, by omega⟩
    · refine .inr ?_
      rw [hend]
      exact hr
  cases hm with
  | last hf => exact hempty hf
  | keepLast _ => exact hh
  | absorb ha => exact hmoved rfl (.inl ha)
  | drop _ hf => exact hempty hf
  | overrun _ _ ho => exact hmoved rfl (.inr ho)
  | keep _ _ _ => exact hh

theorem removeConsumed_heldAt (hh : HeldAt h mb stop base q) (hlt : base < stop) :
    HeldAt h mb stop base (removeConsumed h q).1 := by
  induction q with
  | nil => exact hh
  | cons c q ih =>
      simp only [removeConsumed]
      by_cases hc : c.length = 0
      · rw [if_pos hc]
        have := hh.tail (by omega)
        rw [hc] at this
        exact ih this
      · rw [if_neg hc]
        exact hh

/-- **`pop` keeps the place of what is owed.** -/
theorem pop_heldAt {acc acc' : BufferAccumulator} {n : Nat} {ops : List RefOp}
    (hp : acc.pop h n = .ok (acc', ops)) (hh : HeldAt h mb stop base acc.queue)
    (hlt : base + n < stop)
    (hsafe : ∀ b ∈ acc.queue[1]?, Absorbs h acc.inPoolBuffer (consume acc.front n) b ∨
      Overran h (consume acc.front n) b → n < acc.front.length → mb ∈ refs h acc.queue.tail) :
    HeldAt h mb stop (base + n) acc'.queue := by
  obtain ⟨f, q, q', ops', hq, hn, hm, rfl, -⟩ := pop_inv hp
  have hfront : acc.front = f := by rw [front, hq]; rfl
  rw [hq] at hh
  rw [hq, hfront] at hsafe
  have hconsumed : HeldAt h mb stop (base + n) (consume f n :: q) := by
    have hend : base + n + (consume f n).length = base + f.length := by
      show base + n + (f.length - n) = _
      omega
    rw [HeldAt, hend]
    exact hh
  have hq' : HeldAt h mb stop (base + n) q' := by
    refine hm.heldAt hconsumed hlt fun b hb hrule hlen => hsafe b ?_ hrule ?_
    · cases q with
      | nil => cases hb
      | cons c q => exact hb
    · have : f.length - n ≠ 0 := hlen
      omega
  have hr := removeConsumed_heldAt hq' hlt
  show HeldAt h mb stop (base + n) (orDummy (removeConsumed h q').1)
  unfold orDummy
  split
  · next hnil => rw [hnil] at hr; cases hr
  · exact hr

/-! ### require -/

/-- The copy loop keeps the place of what is owed when it is done. -/
theorem fill_heldAt (mem : Memory) (nb : BufferChunk) (room copied : Nat)
    (hh : HeldAt h mb stop base q)
    (hcopied : (fill h mem nb room q).2.1.length = nb.length + copied)
    (hlt : base + copied < stop) :
    HeldAt h mb stop (base + copied) (fill h mem nb room q).2.2.1 := by
  induction q generalizing mem nb room base copied with
  | nil => cases hh
  | cons f q ih =>
      simp only [fill] at hcopied ⊢
      split at hcopied
      · next hdrain =>
          rw [if_pos hdrain]
          let nb' : BufferChunk := { nb with length := nb.length + min room f.length }
          have hge := (fill_shape h (copyBytes mem nb.getEnd f.address (min room f.length)) nb'
            (room - min room f.length) q).2.1
          obtain ⟨rest, hrest⟩ := Nat.exists_eq_add_of_le hge
          have hsum : copied = f.length + rest := by
            rw [hrest] at hcopied
            have : nb.length + min room f.length + rest = nb.length + copied := hcopied
            omega
          have hq := ih (copyBytes mem nb.getEnd f.address (min room f.length)) nb'
            (room - min room f.length) rest (hh.tail (by omega)) hrest (by omega)
          rwa [hsum, ← Nat.add_assoc]
      · next hdrain =>
          rw [if_neg hdrain]
          have hc : min room f.length = copied := by
            have : nb.length + min room f.length = nb.length + copied := hcopied
            omega
          have hend : base + copied + (consume f (min room f.length)).length =
              base + f.length := by
            show base + copied + (f.length - min room f.length) = _
            omega
          show HeldAt h mb stop (base + copied) (consume f (min room f.length) :: q)
          rw [HeldAt, hend]
          exact hh

theorem fillMoments_mark (mem : Memory) (nb : BufferChunk) (room : Nat) :
    ∀ m ∈ fillMoments h base room q,
      m.1 + nb.length ≤ base + (fill h mem nb room q).2.1.length := by
  induction q generalizing mem nb room base with
  | nil => exact fun m hm => by cases hm
  | cons f q ih =>
      intro m hm
      simp only [fillMoments] at hm
      simp only [fill]
      split at hm
      · next hdrain =>
          rw [if_pos hdrain]
          let nb' : BufferChunk := { nb with length := nb.length + min room f.length }
          let r := fill h (copyBytes mem nb.getEnd f.address (min room f.length)) nb'
            (room - min room f.length) q
          show m.1 + nb.length ≤ base + r.2.1.length
          have hge : nb.length + min room f.length ≤ r.2.1.length := (fill_shape h _ nb' _ q).2.1
          rcases List.mem_append.mp hm with hm | hm
          · obtain ⟨op, -, rfl⟩ := List.mem_map.mp hm
            show base + min room f.length + nb.length ≤ base + r.2.1.length
            omega
          · have hle : m.1 + (nb.length + min room f.length) ≤
                base + min room f.length + r.2.1.length := ih _ nb' _ m hm
            omega
      · cases hm

theorem fillMoments_apply (h : Heap) (ops : List RefOp) (base room : Nat) (q : List BufferChunk) :
    fillMoments (h.apply ops) base room q = fillMoments h base room q := by
  induction q generalizing base room with
  | nil => rfl
  | cons f q ih => simp only [fillMoments, ih, destroy_apply]

/-- The reference steps of the copy loop are those of its moments. -/
theorem fillMoments_snd (start : Nat) (mem : Memory) (nb : BufferChunk) (room : Nat) :
    (fillMoments h start room q).map Prod.snd = (fill h mem nb room q).2.2.2 := by
  induction q generalizing mem nb room start with
  | nil => rfl
  | cons f q ih =>
      simp only [fillMoments, fill]
      split
      · rw [List.map_append, List.map_map, ih _ (copyBytes mem nb.getEnd f.address (min room f.length))
          { nb with length := nb.length + min room f.length }]
        congr 1
        exact List.map_id _
      · rfl

theorem destroy_isDecr (c : BufferChunk) : ∀ op ∈ c.destroy h, IsDecr op := by
  intro op hop
  rcases List.mem_append.mp hop with hop | hop
  · obtain ⟨m, -, rfl⟩ := List.mem_map.mp hop
    trivial
  · obtain ⟨m, -, rfl⟩ := List.mem_map.mp hop
    trivial

theorem removeDummy_isDecr : ∀ op ∈ (removeDummy h q).2, IsDecr op := by
  cases q with
  | nil => exact fun op hop => by cases hop
  | cons c q =>
      simp only [removeDummy]
      split
      · exact destroy_isDecr c
      · exact fun op hop => by cases hop

theorem removeBack_isDecr : ∀ op ∈ (removeBack h q).2, IsDecr op := by
  rcases removeBack_cases (h := h) q with hr | ⟨pre, f, b, -, -, -, hr⟩
  · rw [hr]
    exact fun op hop => by cases hop
  · rw [hr]
    exact destroy_isDecr b

theorem Moved.isDecr {i : Bool} {f : BufferChunk} {ops : List RefOp} (hm : Moved h i f q q' ops) :
    ∀ op ∈ ops, IsDecr op := by
  cases hm with
  | keepLast _ => exact fun op hop => by cases hop
  | keep _ _ _ => exact fun op hop => by cases hop
  | last _ => exact destroy_isDecr f
  | absorb _ => exact destroy_isDecr f
  | drop _ _ => exact destroy_isDecr f
  | overrun _ _ _ => exact destroy_isDecr f

/-- The front that `removeConsumed` leaves has bytes. -/
theorem removeConsumed_head (h : Heap) (q : List BufferChunk) :
    ∀ c ∈ (removeConsumed h q).1.head?, c.length ≠ 0 := by
  induction q with
  | nil => exact fun c hc => by cases hc
  | cons d q ih =>
      simp only [removeConsumed]
      split
      · exact ih
      · next hd =>
          intro c hc
          obtain rfl := Option.some.inj hc
          exact hd

theorem removeConsumed_isDecr : ∀ op ∈ (removeConsumed h q).2, IsDecr op := by
  induction q with
  | nil => exact fun op hop => by cases hop
  | cons c q ih =>
      simp only [removeConsumed]
      split
      · intro op hop
        rcases List.mem_append.mp hop with hop | hop
        · exact destroy_isDecr c op hop
        · exact ih op hop
      · exact fun op hop => by cases hop

/-- **Every moment of the copy loop keeps what is owed**: a chunk is given up when
its bytes have been copied. -/
theorem fillMoments_kept {entries : List Entry} {n : ManagedBuffer → Int} {mark : Nat} (room : Nat)
    (hh : ∀ e ∈ entries, mark < e.stop → base < e.stop → ∀ m ∈ e.refs, HeldAt h m e.stop base q)
    (hn : ∀ m, ((refs h q).count m : Int) ≤ n m) :
    KeptOver entries n ((fillMoments h base room q).map fun m => (max mark m.1, m.2)) := by
  induction q generalizing n base room with
  | nil => trivial
  | cons f q ih =>
      simp only [fillMoments]
      split
      · next hdrain =>
          have htail : ∀ e ∈ entries, mark < e.stop → base + min room f.length < e.stop →
              ∀ m ∈ e.refs, HeldAt h m e.stop (base + min room f.length) q := by
            intro e he hmark hlt m hm
            rw [← hdrain] at hlt ⊢
            exact (hh e he hmark (by omega) m hm).tail hlt
          have hrest : ∀ m, ((refs h q).count m : Int) ≤ n m + RefOp.net m (f.destroy h) := by
            intro m
            have := hn m
            rw [refs_cons, List.count_append] at this
            rw [net_destroy]
            omega
          rw [List.map_append, keptOver_append]
          constructor
          · rw [List.map_map]
            show KeptOver entries n
              ((f.destroy h).map fun op => (max mark (base + min room f.length), op))
            refine keptOver_decr (destroy_isDecr f) fun m hm => ?_
            obtain ⟨e, he, hme⟩ := List.mem_flatMap.mp hm
            obtain ⟨he, hstop⟩ := List.mem_filter.mp he
            have hlt : max mark (base + min room f.length) < e.stop := by simpa using hstop
            have hmem := (htail e he (by omega) (by omega) m hme).mem
            have hpos : 0 < (refs h q).count m := List.count_pos_iff.mpr hmem
            have := hrest m
            omega
          · refine ih _ htail fun m => ?_
            rw [List.map_map, List.map_map]
            have hid : (f.destroy h).map ((Prod.snd ∘ fun m : Moment => (max mark m.1, m.2)) ∘
                fun op => (base + min room f.length, op)) = f.destroy h := List.map_id _
            rw [hid]
            exact hrest m
      · trivial

end

end BufferAccumulator

end PothosCore.Framework

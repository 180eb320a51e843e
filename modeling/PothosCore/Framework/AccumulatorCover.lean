import PothosCore.Framework.AccumulatorContent

/-!
# PothosCore.Framework.AccumulatorCover

Why `require` may write to a re-used pool buffer. A queued byte that lies in a
pool buffer is covered by a reference to that buffer, held by its own chunk or
by one behind it (`Covers`): amalgamation gives a chunk bytes of the buffers
behind it, and chunks leave the queue from the front. So a pool buffer that is
referred to by the pool alone has none of its bytes queued.
-/

namespace PothosCore.Framework

open PothosCore.Lib

namespace BufferAccumulator

/-- The chunk does not start before its managed buffer. -/
def Based (h : Heap) (c : BufferChunk) : Prop := (c.getBuffer h).address ≤ c.address

instance (h : Heap) (c : BufferChunk) : Decidable (Based h c) :=
  inferInstanceAs (Decidable ((c.getBuffer h).address ≤ c.address))

/-- Some chunk of the queue refers to the managed buffer of `p`. -/
def Holds (p : BufferChunk) (q : List BufferChunk) : Prop :=
  p.managedBuffer ∈ q.map (·.managedBuffer)

/-- Every byte of the chunks, back to the starts of their managed buffers, that
lies in `p` has a reference to `p`'s managed buffer at or behind it. -/
def Covers (h : Heap) (p : BufferChunk) : List BufferChunk → Prop
  | [] => True
  | c :: q =>
      (∀ x, (c.getBuffer h).address ≤ x → x < c.getEnd → p.address ≤ x → x < p.getEnd →
        Holds p (c :: q)) ∧ Covers h p q

/-- The same of a whole queue, whose front is looked at from its address on. -/
def CoversFront (h : Heap) (p : BufferChunk) : List BufferChunk → Prop
  | [] => True
  | f :: q =>
      (∀ x, f.address ≤ x → x < f.getEnd → p.address ≤ x → x < p.getEnd →
        Holds p (f :: q)) ∧ Covers h p q

/-- The queue is never empty. It is the null chunk, or its chunks have managed
buffers. -/
def Shaped (q : List BufferChunk) : Prop :=
  q = [.null] ∨ (q ≠ [] ∧ ∀ c ∈ q, c.isSome = true)

theorem Shaped.ne_nil {q : List BufferChunk} (hq : Shaped q) : q ≠ [] := by
  rcases hq with rfl | hq
  · exact List.cons_ne_nil _ _
  · exact hq.1

theorem Shaped.tail {q : List BufferChunk} (hq : Shaped q) : ∀ c ∈ q.tail, c.isSome = true := by
  rcases hq with rfl | hq
  · exact fun c hc => by cases hc
  · exact fun c hc => hq.2 c (List.mem_of_mem_tail hc)

theorem Shaped.front_cases {f : BufferChunk} {q : List BufferChunk} (hq : Shaped (f :: q)) :
    (f = .null ∧ q = []) ∨ f.isSome = true := by
  rcases hq with hq | hq
  · exact .inl (List.cons.inj hq)
  · exact .inr (hq.2 f List.mem_cons_self)

section
variable {mem : Memory} {h : Heap} {p : BufferChunk}

theorem Covers.append {q q' : List BufferChunk} (hq : Covers h p q) (hq' : Covers h p q') :
    Covers h p (q ++ q') := by
  induction q with
  | nil => exact hq'
  | cons c q ih =>
      refine ⟨fun x hx hx' hp hp' => ?_, ih hq.2⟩
      have := hq.1 x hx hx' hp hp'
      show p.managedBuffer ∈ (c :: (q ++ q')).map (·.managedBuffer)
      simp only [Holds, List.map_cons, List.map_append, List.mem_cons, List.mem_append] at this ⊢
      tauto

/-- A queue looked at from its addresses on is covered as well. -/
theorem Covers.front {q : List BufferChunk} (hq : Covers h p q) (hb : ∀ c ∈ q.head?, Based h c) :
    CoversFront h p q := by
  cases q with
  | nil => trivial
  | cons c q => exact ⟨fun x hx => hq.1 x ((hb c rfl).trans hx), hq.2⟩

theorem CoversFront.append {q q' : List BufferChunk} (hq : CoversFront h p q) (hq' : Covers h p q')
    (hb : ∀ c ∈ q', Based h c) : CoversFront h p (q ++ q') := by
  cases q with
  | nil => exact hq'.front fun c hc => hb c (List.mem_of_mem_head? hc)
  | cons f q =>
      refine ⟨fun x hx hx' hp hp' => ?_, hq.2.append hq'⟩
      have := hq.1 x hx hx' hp hp'
      show p.managedBuffer ∈ (f :: (q ++ q')).map (·.managedBuffer)
      simp only [Holds, List.map_cons, List.map_append, List.mem_cons, List.mem_append] at this ⊢
      tauto

theorem covers_placeholders {q : List BufferChunk} (hq : ∀ c ∈ q, Placeholder h c) :
    Covers h p q := by
  induction q with
  | nil => trivial
  | cons c q ih =>
      refine ⟨fun x hx hx' _ _ => ?_, ih fun d hd => hq d (List.mem_cons_of_mem c hd)⟩
      have hc := hq c List.mem_cons_self
      rw [BufferChunk.getEnd, hc.length, hc.address] at hx'
      omega

/-- Ranges without a common byte. -/
theorem apart_of_forall {a n b m : Nat}
    (hx : ∀ x, a ≤ x → x < a + n → b ≤ x → x < b + m → False) : Apart a n b m := by
  unfold Apart
  by_contra hc
  exact hx (max a b) (by omega) (by omega) (by omega) (by omega)

/-- A buffer that no chunk refers to has no byte in the queue. -/
theorem CoversFront.apart {q : List BufferChunk} (hc : CoversFront h p q)
    (hb : ∀ c ∈ q.tail, Based h c) (hp : ¬ Holds p q) :
    ∀ c ∈ q, Apart p.address p.length c.address c.length := by
  induction q with
  | nil => exact fun c hcq => by cases hcq
  | cons f q ih =>
      intro c hcq
      rcases List.mem_cons.mp hcq with rfl | hcq
      · exact apart_of_forall fun x hpx hpx' hx hx' => hp (hc.1 x hx hx' hpx hpx')
      · exact ih (hc.2.front fun d hd => hb d (List.mem_of_mem_head? hd))
          (fun d hd => hb d (List.mem_of_mem_tail hd)) (fun hq => hp (List.mem_cons_of_mem _ hq)) c hcq

/-- A queue that stays clear of a range is covered. -/
theorem covers_of_clear {q : List BufferChunk}
    (hq : ∀ c ∈ q, c.getEnd ≤ p.address ∨ p.getEnd ≤ min (c.getBuffer h).address c.address) :
    Covers h p q ∧ CoversFront h p q := by
  have hcover : Covers h p q := by
    induction q with
    | nil => trivial
    | cons c q ih =>
        refine ⟨fun x hx hx' hpx hpx' => ?_, ih fun d hd => hq d (List.mem_cons_of_mem c hd)⟩
        have := hq c List.mem_cons_self
        omega
  refine ⟨hcover, ?_⟩
  cases q with
  | nil => trivial
  | cons f q =>
      refine ⟨fun x hx hx' hpx hpx' => ?_, hcover.2⟩
      have := hq f List.mem_cons_self
      omega

/-! ### push -/

theorem amalgamate_managedBuffer {q q' : List BufferChunk} {going : Bool}
    (ha : amalgamate h q = .ok (q', going)) :
    q'.map (·.managedBuffer) = q.map (·.managedBuffer) := by
  refine amalgamate_induct
    (motive := fun q q' _ => q'.map (·.managedBuffer) = q.map (·.managedBuffer)) rfl ?_ ?_ ?_ ha
  · intro f q going _ ih
    rw [List.map_cons, List.map_cons, ih]
  · intro f q b rest going _ ih _
    rw [List.map_cons, ih, List.map_cons]
  · intro f q b rest _ ih _ _ _
    rw [List.map_cons (l := q), ← ih]
    rfl

/-- The loop moves no chunk before the start of its managed buffer. -/
theorem amalgamate_based {q q' : List BufferChunk} {going : Bool}
    (ha : amalgamate h q = .ok (q', going)) :
    ((∀ c ∈ q, Based h c) → ∀ c ∈ q', Based h c) ∧
      ((∀ c ∈ q.tail, Based h c) → ∀ c ∈ q'.tail, Based h c) := by
  refine amalgamate_induct (motive := fun q q' _ =>
    ((∀ c ∈ q, Based h c) → ∀ c ∈ q', Based h c) ∧
      ((∀ c ∈ q.tail, Based h c) → ∀ c ∈ q'.tail, Based h c)) ⟨id, id⟩ ?_ ?_ ?_ ha
  · intro f q going _ _
    refine ⟨fun hq c hc => ?_, fun _ c hc => by cases hc⟩
    rw [List.mem_singleton] at hc
    exact hc ▸ hq f List.mem_cons_self
  · intro f q b rest going _ ih _
    refine ⟨fun hq c hc => ?_, ih.1⟩
    rcases List.mem_cons.mp hc with rfl | hc
    · exact hq c List.mem_cons_self
    · exact ih.1 (fun d hd => hq d (List.mem_cons_of_mem f hd)) c hc
  · intro f q b rest _ ih _ _ _
    have htail : (∀ c ∈ q, Based h c) → ∀ c ∈ emptied b :: rest, Based h c := by
      intro hq c hc
      rcases List.mem_cons.mp hc with rfl | hc
      · exact (ih.1 hq b List.mem_cons_self).trans (Nat.le_add_right _ _)
      · exact ih.1 hq c (List.mem_cons_of_mem b hc)
    refine ⟨fun hq c hc => ?_, htail⟩
    rcases List.mem_cons.mp hc with rfl | hc
    · exact hq f List.mem_cons_self
    · exact htail (fun d hd => hq d (List.mem_cons_of_mem f hd)) c hc

/-- The bytes a chunk takes over are covered where they come from. -/
theorem merge_covered {buffs q rest : List BufferChunk} {f b : BufferChunk}
    (hp : p ∈ buffs) (ha : amalgamate h q = .ok (b :: rest, true)) (ht : Touches h f b)
    (hs : AliasShows mem h buffs (f :: q)) (hb : Based h b) (hc : Covers h p (b :: rest))
    {x : Nat} (hx : f.getEnd ≤ x) (hx' : x < f.getEnd + b.length) (hpx : p.address ≤ x)
    (hpx' : x < p.getEnd) : Holds p (mergeFront f b :: emptied b :: rest) := by
  rcases joined_cases ha ht hs with hj | ⟨-, hj⟩
  · have hbx : x < b.getEnd := by rw [BufferChunk.getEnd, hj]; exact hx'
    have hhold := hc.1 x (hb.trans (hj ▸ hx)) hbx hpx hpx'
    exact List.mem_cons_of_mem _ hhold
  · have := hj p hp
    rw [BufferChunk.getEnd] at hpx'
    unfold Apart at this
    omega

/-- **Amalgamation keeps the cover.** -/
theorem amalgamate_covers {buffs q q' : List BufferChunk} {going : Bool} (hp : p ∈ buffs)
    (ha : amalgamate h q = .ok (q', going)) (hs : AliasShows mem h buffs q) :
    ((∀ c ∈ q, Based h c) → Covers h p q → Covers h p q') ∧
      ((∀ c ∈ q.tail, Based h c) → CoversFront h p q → CoversFront h p q') := by
  revert hs
  refine amalgamate_induct (motive := fun q q' _ => AliasShows mem h buffs q →
    ((∀ c ∈ q, Based h c) → Covers h p q → Covers h p q') ∧
      ((∀ c ∈ q.tail, Based h c) → CoversFront h p q → CoversFront h p q')) ?_ ?_ ?_ ?_ ha
  · exact fun _ => ⟨fun _ => id, fun _ => id⟩
  · intro f q going ha _ _
    obtain rfl := (amalgamate_going ha).1 rfl
    exact ⟨fun _ => id, fun _ => id⟩
  · intro f q b rest going ha ih _ hs
    have hmb : (f :: b :: rest).map (·.managedBuffer) = (f :: q).map (·.managedBuffer) := by
      rw [List.map_cons, amalgamate_managedBuffer ha, List.map_cons]
    refine ⟨fun hq hc => ⟨fun x hx hx' hp hp' => ?_, ?_⟩, fun hq hc => ⟨fun x hx hx' hp hp' => ?_, ?_⟩⟩
    · rw [Holds, hmb]
      exact hc.1 x hx hx' hp hp'
    · exact (ih hs.tail).1 (fun d hd => hq d (List.mem_cons_of_mem f hd)) hc.2
    · rw [Holds, hmb]
      exact hc.1 x hx hx' hp hp'
    · exact (ih hs.tail).1 hq hc.2
  · intro f q b rest ha ih _ _ ht hs
    have hmb : (mergeFront f b :: emptied b :: rest).map (·.managedBuffer) =
        (f :: q).map (·.managedBuffer) := by
      rw [List.map_cons (l := q), ← amalgamate_managedBuffer ha]
      rfl
    have hend : (mergeFront f b).getEnd = f.getEnd + b.length := by
      simp only [BufferChunk.getEnd, mergeFront]
      omega
    -- the chunk behind keeps its end, and so its cover
    have htail : (∀ c ∈ q, Based h c) → Covers h p q →
        Covers h p (b :: rest) ∧ Covers h p (emptied b :: rest) := by
      intro hq hc
      have hcb := (ih hs.tail).1 hq hc
      exact ⟨hcb, fun x hx hx' => hcb.1 x hx hx', hcb.2⟩
    have hbase : (∀ c ∈ q, Based h c) → Based h b := fun hq =>
      (amalgamate_based ha).1 hq b List.mem_cons_self
    refine ⟨fun hq hc => ⟨fun x hx hx' hpx hpx' => ?_, ?_⟩,
      fun hq hc => ⟨fun x hx hx' hpx hpx' => ?_, ?_⟩⟩
    · have hq' : ∀ c ∈ q, Based h c := fun d hd => hq d (List.mem_cons_of_mem f hd)
      rw [hend] at hx'
      rcases Nat.lt_or_ge x f.getEnd with hlt | hge
      · rw [Holds, hmb]
        exact hc.1 x hx hlt hpx hpx'
      · exact merge_covered hp ha ht hs (hbase hq') (htail hq' hc.2).1 hge hx' hpx hpx'
    · exact (htail (fun d hd => hq d (List.mem_cons_of_mem f hd)) hc.2).2
    · rw [hend] at hx'
      rcases Nat.lt_or_ge x f.getEnd with hlt | hge
      · rw [Holds, hmb]
        exact hc.1 x hx hlt hpx hpx'
      · exact merge_covered hp ha ht hs (hbase hq) (htail hq hc.2).1 hge hx' hpx hpx'
    · exact (htail hq hc.2).2

/-- Removing the back keeps the cover: the chunk before it has its buffer. -/
theorem removeBack_covers {q : List BufferChunk} (hc : CoversFront h p q) :
    CoversFront h p (removeBack h q).1 := by
  rcases removeBack_cases (h := h) q with hr | ⟨pre, f, b, rfl, hmb, -, hr⟩
  · rw [hr]; exact hc
  · rw [hr]
    have hhold : ∀ pre : List BufferChunk, Holds p (pre ++ [f, b]) → Holds p (pre ++ [f]) := by
      intro pre hp
      simp only [Holds, List.map_append, List.map_cons, List.map_nil, List.mem_append,
        List.mem_cons, List.not_mem_nil, or_false, hmb] at hp ⊢
      tauto
    have hcover : ∀ pre : List BufferChunk, Covers h p (pre ++ [f, b]) → Covers h p (pre ++ [f]) := by
      intro pre
      induction pre with
      | nil => exact fun hc => ⟨fun x hx hx' hp hp' => hhold [] (hc.1 x hx hx' hp hp'), trivial⟩
      | cons c pre ih =>
          exact fun hc => ⟨fun x hx hx' hp hp' => hhold (c :: pre) (hc.1 x hx hx' hp hp'), ih hc.2⟩
    cases pre with
    | nil => exact ⟨fun x hx hx' hp hp' => hhold [] (hc.1 x hx hx' hp hp'), trivial⟩
    | cons c pre =>
        exact ⟨fun x hx hx' hp hp' => hhold (c :: pre) (hc.1 x hx hx' hp hp'), hcover pre hc.2⟩

theorem removeDummy_covers {q : List BufferChunk} (hb : ∀ c ∈ q.tail, Based h c) :
    (CoversFront h p q → CoversFront h p (removeDummy h q).1) ∧
      ∀ c ∈ (removeDummy h q).1.tail, Based h c := by
  cases q with
  | nil => exact ⟨id, hb⟩
  | cons f q =>
      simp only [removeDummy]
      by_cases hf : f.length = 0
      · rw [if_pos hf]
        exact ⟨fun hc => hc.2.front fun c hc => hb c (List.mem_of_mem_head? hc),
          fun c hc => hb c (List.mem_of_mem_tail hc)⟩
      · rw [if_neg hf]
        exact ⟨id, hb⟩

theorem removeBack_tail {q : List BufferChunk} :
    ((removeBack h q).1 = [] → q = []) ∧ (∀ c ∈ (removeBack h q).1, c ∈ q) ∧
      ∀ c ∈ (removeBack h q).1.tail, c ∈ q.tail := by
  rcases removeBack_cases (h := h) q with hr | ⟨pre, f, b, rfl, -, -, hr⟩
  · rw [hr]
    exact ⟨id, fun _ => id, fun _ => id⟩
  · rw [hr]
    refine ⟨fun hnil => (by simp at hnil), fun c hc => ?_, fun c hc => ?_⟩
    · simp only [List.mem_append, List.mem_cons, List.not_mem_nil, or_false] at hc ⊢
      tauto
    · cases pre with
      | nil => cases hc
      | cons d pre =>
          simp only [List.cons_append, List.tail_cons, List.mem_append, List.mem_cons,
            List.not_mem_nil, or_false] at hc ⊢
          tauto

/-- The queue the loop of `push` runs over, behind its front. -/
theorem pushed_based {q : List BufferChunk} {buffer : BufferChunk} (hbuffer : Based h buffer)
    (hb : ∀ c ∈ q.tail, Based h c) :
    ∀ c ∈ ((removeDummy h q).1 ++ [buffer]).tail, Based h c := by
  have htail := (removeDummy_covers (p := buffer) hb).2
  intro c hc
  cases hr : (removeDummy h q).1 with
  | nil => rw [hr] at hc; cases hc
  | cons d r =>
      rw [hr] at hc htail
      rcases List.mem_append.mp hc with hc | hc
      · exact htail c hc
      · exact List.mem_singleton.mp hc ▸ hbuffer

theorem Shaped.isSome_pushed {q : List BufferChunk} (hq : Shaped q) {buffer : BufferChunk}
    (hb : buffer.isSome = true) : ∀ c ∈ (removeDummy h q).1 ++ [buffer], c.isSome = true := by
  intro c hc
  rcases List.mem_append.mp hc with hc | hc
  · cases q with
    | nil => cases hc
    | cons f q =>
        simp only [removeDummy] at hc
        split at hc
        · exact hq.tail c hc
        · next hf =>
            rcases hq.front_cases with ⟨rfl, -⟩ | hsome
            · exact absurd rfl hf
            · rcases List.mem_cons.mp hc with rfl | hc
              · exact hsome
              · exact hq.tail c hc
  · rw [List.mem_singleton.mp hc]
    exact hb

theorem removeBack_ne_nil {q q' : List BufferChunk} {buffer : BufferChunk} {going : Bool}
    (ha : amalgamate h (q ++ [buffer]) = .ok (q', going)) : (removeBack h q').1 ≠ [] := by
  intro hr
  have hmbs := amalgamate_managedBuffer ha
  rw [(removeBack_tail.1 hr)] at hmbs
  simp at hmbs

/-- **`push` keeps the shape of the queue.** -/
theorem push_shape {acc acc' : BufferAccumulator} {buffer : BufferChunk} {ops : List RefOp}
    (hbuf : buffer.isSome = true) (hlinked : (buffer.nextList h).length = buffer.nextBuffers)
    (hshape : Shaped acc.queue) (hp : acc.push h buffer = .ok (acc', ops)) :
    Shaped acc'.queue := by
  have hsome := hshape.isSome_pushed (h := h) hbuf
  obtain ⟨q, going, nexts, ha, rfl, -, -, hplace⟩ := push_spec hbuf hlinked hp
  have hsome' : ∀ c ∈ q, c.isSome = true := by
    intro c hc
    have hcm : c.managedBuffer ∈ q.map (·.managedBuffer) := List.mem_map_of_mem hc
    rw [amalgamate_managedBuffer ha] at hcm
    obtain ⟨d, hd, hdm⟩ := List.mem_map.mp hcm
    have := hsome d hd
    rwa [BufferChunk.isSome, hdm] at this
  refine .inr ⟨List.append_ne_nil_of_left_ne_nil (removeBack_ne_nil ha) _, fun c hc => ?_⟩
  rcases List.mem_append.mp hc with hc | hc
  · exact hsome' c (removeBack_tail.2.1 c hc)
  · exact (hplace c hc).isSome

theorem push_based {acc acc' : BufferAccumulator} {buffer : BufferChunk} {ops : List RefOp}
    (hbuf : buffer.isSome = true) (hlinked : (buffer.nextList h).length = buffer.nextBuffers)
    (hbuffer : Based h buffer) (hb : ∀ c ∈ acc.queue.tail, Based h c)
    (hp : acc.push h buffer = .ok (acc', ops)) : ∀ c ∈ acc'.queue.tail, Based h c := by
  obtain ⟨q, going, nexts, ha, rfl, -, -, hplace⟩ := push_spec hbuf hlinked hp
  intro c hc
  rw [List.tail_append_of_ne_nil (removeBack_ne_nil ha)] at hc
  rcases List.mem_append.mp hc with hc | hc
  · exact (amalgamate_based ha).2 (pushed_based hbuffer hb) c (removeBack_tail.2.2 c hc)
  · exact (hplace c hc).address.ge

/-- **`push` keeps the cover**, when the chunk's own bytes are covered. -/
theorem push_covers {acc acc' : BufferAccumulator} {buffer : BufferChunk} {ops : List RefOp}
    (hsome : buffer.isSome = true) (hlinked : (buffer.nextList h).length = buffer.nextBuffers)
    (hbuffer : Based h buffer) (hb : ∀ c ∈ acc.queue.tail, Based h c)
    (hs : AliasShows mem h acc.pool.buffs ((removeDummy h acc.queue).1 ++ [buffer]))
    (hp : p ∈ acc.pool.buffs) (hcb : Covers h p [buffer]) (hc : CoversFront h p acc.queue)
    (hpush : acc.push h buffer = .ok (acc', ops)) : CoversFront h p acc'.queue := by
  obtain ⟨q, going, nexts, ha, rfl, -, -, hplace⟩ := push_spec hsome hlinked hpush
  have hstart := ((removeDummy_covers hb).1 hc).append hcb
    fun c hc => List.mem_singleton.mp hc ▸ hbuffer
  exact (removeBack_covers ((amalgamate_covers hp ha hs).2 (pushed_based hbuffer hb) hstart)).append
    (covers_placeholders hplace) fun c hc => (hplace c hc).address.ge

/-! ### pop -/

/-- The rules of `pop` put no chunk behind the front. -/
theorem Moved.tail {i : Bool} {f : BufferChunk} {q q' : List BufferChunk} {ops : List RefOp}
    (hm : Moved h i f q q' ops) : ∀ c ∈ q'.tail, c ∈ q := by
  cases hm with
  | last _ => exact fun c hc => by cases hc
  | keepLast _ => exact fun c hc => by cases hc
  | absorb _ => exact fun c hc => List.mem_cons_of_mem _ hc
  | drop _ _ => exact fun c hc => List.mem_cons_of_mem _ hc
  | overrun _ _ _ => exact fun c hc => List.mem_cons_of_mem _ hc
  | keep _ _ _ => exact fun c hc => hc

theorem Moved.isSome {i : Bool} {f : BufferChunk} {q q' : List BufferChunk} {ops : List RefOp}
    (hm : Moved h i f q q' ops) (hf : f.length ≠ 0 → f.isSome = true)
    (hq : ∀ c ∈ q, c.isSome = true) : ∀ c ∈ q', c.isSome = true := by
  have hmoved : ∀ {b : BufferChunk} {r : List BufferChunk}, (∀ c ∈ b :: r, c.isSome = true) →
      ∀ c ∈ moveInto f b :: r, c.isSome = true := by
    intro b r hr c hc
    rcases List.mem_cons.mp hc with rfl | hc
    · exact hr b List.mem_cons_self
    · exact hr c (List.mem_cons_of_mem b hc)
  cases hm with
  | last _ => exact hq
  | keepLast hlen => exact fun c hc => List.mem_singleton.mp hc ▸ hf hlen
  | absorb _ => exact hmoved hq
  | drop _ _ => exact hq
  | overrun _ _ _ => exact hmoved hq
  | keep _ hlen _ =>
      intro c hc
      rcases List.mem_cons.mp hc with rfl | hc
      · exact hf hlen
      · exact hq c hc

/-- The rules of `pop` keep the cover of a pool buffer. A front that overran its
own buffer is past the end of it, so its buffer covers nothing of it. -/
theorem Moved.covers {i : Bool} {f : BufferChunk} {q q' : List BufferChunk} {ops : List RefOp}
    (hm : Moved h i f q q' ops) (hb : ∀ c ∈ q, Based h c)
    (hp : p.getEnd ≤ (p.getBuffer h).getEnd) (hc : CoversFront h p (f :: q)) :
    CoversFront h p q' := by
  cases hm with
  | last _ => trivial
  | keepLast _ => exact hc
  | @absorb b q ha =>
      have hbb : Based h b := hb b List.mem_cons_self
      have hle := ha.le hbb
      refine ⟨fun x hx hx' hpx hpx' => hc.2.1 x ?_ ?_ hpx hpx', hc.2.2⟩
      · have hx : b.address - f.length ≤ x := hx
        unfold Based at hbb
        omega
      · have hx' : x < b.address - f.length + (b.length + f.length) := hx'
        show x < b.address + b.length
        omega
  | drop _ _ => exact hc.2.front fun c hc => hb c (List.mem_of_mem_head? hc)
  | @overrun b q _ _ ho =>
      have hend : f.address + f.length = b.address := ho.2
      have haddr : b.address - f.length = f.address := by omega
      refine ⟨fun x hx hx' hpx hpx' => ?_, hc.2.2⟩
      have hx : f.address ≤ x := haddr ▸ hx
      have hx' : x < b.address - f.length + (b.length + f.length) := hx'
      rcases Nat.lt_or_ge x f.getEnd with hlt | hge
      · have hhold := hc.1 x hx hlt hpx hpx'
        rcases List.mem_cons.mp hhold with hmb | hhold
        · have hsame : p.getBuffer h = f.getBuffer h := by
            rw [BufferChunk.getBuffer, hmb]
            rfl
          rw [hsame] at hp
          have := ho.1
          omega
        · exact hhold
      · have hxb : b.address ≤ x := ho.2 ▸ hge
        refine hc.2.1 x ((hb b List.mem_cons_self).trans hxb) ?_ hpx hpx'
        show x < b.address + b.length
        omega
  | keep _ _ _ => exact hc

theorem removeConsumed_suffix (h : Heap) (q : List BufferChunk) :
    (removeConsumed h q).1 <:+ q := by
  induction q with
  | nil => exact List.suffix_refl []
  | cons c q ih =>
      simp only [removeConsumed]
      split
      · exact ih.trans (List.suffix_cons c q)
      · exact List.suffix_refl _

theorem removeConsumed_tail (h : Heap) (q : List BufferChunk) :
    ∀ c ∈ (removeConsumed h q).1.tail, c ∈ q.tail := by
  cases q with
  | nil => exact fun c hc => hc
  | cons d q =>
      simp only [removeConsumed]
      split
      · exact fun c hc => (removeConsumed_suffix h q).subset (List.mem_of_mem_tail hc)
      · exact fun c hc => hc

theorem removeConsumed_covers {q : List BufferChunk} (hb : ∀ c ∈ q.tail, Based h c)
    (hc : CoversFront h p q) : CoversFront h p (removeConsumed h q).1 := by
  induction q with
  | nil => trivial
  | cons c q ih =>
      simp only [removeConsumed]
      by_cases hz : c.length = 0
      · rw [if_pos hz]
        exact ih (fun d hd => hb d (List.mem_of_mem_tail hd))
          (hc.2.front fun d hd => hb d (List.mem_of_mem_head? hd))
      · rw [if_neg hz]
        exact hc

theorem orDummy_shape {q : List BufferChunk} (hq : ∀ c ∈ q, c.isSome = true) :
    Shaped (orDummy q) ∧ ∀ c ∈ (orDummy q).tail, c ∈ q.tail := by
  unfold orDummy
  split
  · exact ⟨.inl rfl, fun c hc => by cases hc⟩
  · next hne => exact ⟨.inr ⟨hne, hq⟩, fun c hc => hc⟩

theorem orDummy_covers {q : List BufferChunk} (hc : CoversFront h p q) :
    CoversFront h p (orDummy q) := by
  unfold orDummy
  split
  · refine ⟨fun x hx hx' => ?_, trivial⟩
    have : x < 0 := hx'
    omega
  · exact hc

/-- **`pop` keeps the shape of the queue.** -/
theorem pop_shape {acc acc' : BufferAccumulator} {n : Nat} {ops : List RefOp}
    (hq : Shaped acc.queue) (hp : acc.pop h n = .ok (acc', ops)) :
    Shaped acc'.queue ∧ ∀ c ∈ acc'.queue.tail, c ∈ acc.queue.tail := by
  obtain ⟨f, q, q', ops', hfq, hn, hm, rfl, -⟩ := pop_inv hp
  rw [hfq] at hq
  have hsome : ∀ c ∈ q', c.isSome = true := by
    refine hm.isSome (fun hlen => ?_) fun c hc => hq.tail c hc
    refine (hq.front_cases).resolve_left fun hf => hlen ?_
    show f.length - n = 0
    rw [hf.1]
    exact Nat.zero_sub n
  obtain ⟨hshape, htail⟩ := orDummy_shape
    fun c hc => hsome c ((removeConsumed_suffix h q').subset hc)
  refine ⟨hshape, fun c hc => ?_⟩
  rw [hfq]
  exact hm.tail c (removeConsumed_tail h q' c (htail c hc))

/-- **`pop` keeps the cover** of a buffer that is all of its managed buffer. -/
theorem pop_covers {acc acc' : BufferAccumulator} {n : Nat} {ops : List RefOp}
    (hb : ∀ c ∈ acc.queue.tail, Based h c) (hp : p.getEnd ≤ (p.getBuffer h).getEnd)
    (hc : CoversFront h p acc.queue) (hpop : acc.pop h n = .ok (acc', ops)) :
    CoversFront h p acc'.queue := by
  obtain ⟨f, q, q', ops', hfq, hn, hm, rfl, -⟩ := pop_inv hpop
  rw [hfq] at hb hc
  have hconsumed : CoversFront h p (consume f n :: q) := by
    refine ⟨fun x hx hx' => hc.1 x ((Nat.le_add_right _ _).trans hx) ?_, hc.2⟩
    have : x < f.address + n + (f.length - n) := hx'
    show x < f.address + f.length
    omega
  exact orDummy_covers (removeConsumed_covers (fun c hc => hb c (hm.tail c hc))
    (hm.covers hb hp hconsumed))

/-! ### require: the copy loop -/

theorem fill_based (mem : Memory) (nb : BufferChunk) (room : Nat) {q : List BufferChunk}
    (hb : ∀ c ∈ q, Based h c) : ∀ c ∈ (fill h mem nb room q).2.2.1, Based h c := by
  induction q generalizing mem nb room with
  | nil => exact hb
  | cons f q ih =>
      simp only [fill]
      split
      · exact ih _ _ _ fun d hd => hb d (List.mem_cons_of_mem f hd)
      · intro d hd
        rcases List.mem_cons.mp hd with rfl | hd
        · exact (hb f List.mem_cons_self).trans (Nat.le_add_right _ _)
        · exact hb d (List.mem_cons_of_mem f hd)

/-- What the copy loop leaves of the queue is covered as the queue was. -/
theorem fill_covers (mem : Memory) (nb : BufferChunk) (room : Nat) {q : List BufferChunk}
    (hc : Covers h p q) : Covers h p (fill h mem nb room q).2.2.1 := by
  induction q generalizing mem nb room with
  | nil => trivial
  | cons f q ih =>
      simp only [fill]
      split
      · exact ih _ _ _ hc.2
      · have hend : (consume f (min room f.length)).getEnd = f.getEnd := by
          simp only [consume, BufferChunk.getEnd]
          omega
        exact ⟨fun x hx hx' => hc.1 x hx (hend ▸ hx'), hc.2⟩

theorem fill_isSome (h : Heap) (mem : Memory) (nb : BufferChunk) (room : Nat) {q : List BufferChunk}
    (hq : ∀ c ∈ q, c.isSome = true) : ∀ c ∈ (fill h mem nb room q).2.2.1, c.isSome = true := by
  induction q generalizing mem nb room with
  | nil => exact hq
  | cons f q ih =>
      simp only [fill]
      split
      · exact ih _ _ _ fun d hd => hq d (List.mem_cons_of_mem f hd)
      · intro c hc
        rcases List.mem_cons.mp hc with rfl | hc
        · exact hq f List.mem_cons_self
        · exact hq c (List.mem_cons_of_mem f hc)

/-- The copy loop leaves no chunk without a managed buffer. -/
theorem Shaped.fill {q : List BufferChunk} (hq : Shaped q) (mem : Memory) (nb : BufferChunk)
    (room : Nat) : ∀ c ∈ (fill h mem nb room q).2.2.1, c.isSome = true := by
  rcases hq with rfl | ⟨-, hsome⟩
  · intro c hc
    simp [BufferAccumulator.fill] at hc
  · exact fill_isSome h mem nb room hsome

/-- A front that fits is drained. -/
theorem fill_front (h : Heap) (mem : Memory) (nb f : BufferChunk) {room : Nat} (q : List BufferChunk)
    (hf : f.length ≤ room) : ∃ mem' nb' room',
      (fill h mem nb room (f :: q)).2.2.1 = (fill h mem' nb' room' q).2.2.1 := by
  refine ⟨copyBytes mem nb.getEnd f.address f.length, { nb with length := nb.length + f.length },
    room - f.length, ?_⟩
  rw [fill]
  simp only [Nat.min_eq_right hf, if_true]

/-- **The copy loop moves bytes from the queue to the new buffer.** It writes to
the free room of the new buffer alone, which meets none of the chunks. -/
theorem fill_content (mem : Memory) (nb : BufferChunk) (room : Nat) {q : List BufferChunk}
    (hq : ∀ c ∈ q, Apart nb.address (nb.length + room) c.address c.length) :
    let r := fill h mem nb room q
    content r.1 (r.2.1 :: r.2.2.1) = content mem (nb :: q) := by
  induction q generalizing mem nb room with
  | nil => rfl
  | cons f q ih =>
      have hf := hq f List.mem_cons_self
      let copied := min room f.length
      let mem' := copyBytes mem nb.getEnd f.address copied
      let nb' : BufferChunk := { nb with length := nb.length + copied }
      have hroom : copied ≤ room := Nat.min_le_left _ _
      have hlen : copied ≤ f.length := Nat.min_le_right _ _
      have hout : ∀ a n, Apart nb.address (nb.length + room) a n →
          readBytes mem' a n = readBytes mem a n := by
        intro a n ha
        unfold Apart at ha
        by_cases hn : n = 0
        · rw [hn]; rfl
        · by_cases hz : nb.length + room = 0
          · have hz' : copied = 0 := by omega
            refine readBytes_congr fun x _ _ => copyBytes_of_outside mem ?_
            omega
          · refine readBytes_copyBytes_of_disjoint mem ?_
            unfold BufferChunk.getEnd
            omega
      have hnb : readBytes mem' nb'.address nb'.length =
          readBytes mem nb.address nb.length ++ readBytes mem f.address copied := by
        rw [readBytes_add]
        congr 1
        · exact readBytes_copyBytes_of_disjoint mem (.inl (le_refl _))
        · exact readBytes_copyBytes_self mem _ _ _
      have hqueue : content mem' q = content mem q :=
        content_congr fun c hc => hout _ _ (hq c (List.mem_cons_of_mem f hc))
      simp only [fill]
      by_cases hdrain : f.length = copied
      · rw [if_pos hdrain]
        have hsum : nb'.length + (room - copied) = nb.length + room := by
          show nb.length + copied + (room - copied) = _
          omega
        have hq' : ∀ c ∈ q, Apart nb'.address (nb'.length + (room - copied)) c.address c.length := by
          intro c hc
          rw [hsum]
          exact hq c (List.mem_cons_of_mem f hc)
        calc content _ _ = content mem' (nb' :: q) := ih mem' nb' (room - copied) hq'
          _ = content mem (nb :: f :: q) := by
              rw [content_cons, hnb, hqueue, content_cons, content_cons, List.append_assoc, ← hdrain]
      · rw [if_neg hdrain]
        have hrest : readBytes mem' (f.address + copied) (f.length - copied) =
            readBytes mem (f.address + copied) (f.length - copied) := by
          refine hout _ _ ?_
          unfold Apart at hf ⊢
          omega
        have hsplit : f.length = copied + (f.length - copied) := by omega
        show readBytes mem' nb'.address nb'.length ++ (readBytes mem' (f.address + copied)
          (f.length - copied) ++ content mem' q) = _
        rw [hnb, hrest, hqueue, content_cons, content_cons, hsplit, readBytes_add,
          Nat.add_sub_cancel_left]
        simp only [List.append_assoc]

end

end BufferAccumulator

end PothosCore.Framework

import PothosCore.Framework.AccumulatorStream

/-!
# PothosCore.Framework.AccumulatorContent

What the calls of the accumulator do to the bytes of its queue: `push` appends
those of the chunk and `pop` removes bytes from the front, as long as the
address comparisons they rely on tell the truth.
-/

namespace PothosCore.Framework

open PothosCore.Lib

namespace BufferAccumulator

section
variable {mem : Memory} {h : Heap}

@[simp] theorem content_nil : content mem [] = [] := rfl

@[simp] theorem content_cons (c : BufferChunk) (q : List BufferChunk) :
    content mem (c :: q) = readBytes mem c.address c.length ++ content mem q := rfl

@[simp] theorem content_append (q q' : List BufferChunk) :
    content mem (q ++ q') = content mem q ++ content mem q' := List.flatMap_append

theorem content_length (q : List BufferChunk) : (content mem q).length = total q := by
  induction q with
  | nil => rfl
  | cons c q ih => rw [content_cons, List.length_append, readBytes_length, ih, total_cons]

theorem content_congr {mem mem' : Memory} {q : List BufferChunk}
    (hm : ∀ c ∈ q, readBytes mem' c.address c.length = readBytes mem c.address c.length) :
    content mem' q = content mem q := by
  induction q with
  | nil => rfl
  | cons c q ih =>
      rw [content_cons, content_cons, ih fun d hd => hm d (List.mem_cons_of_mem c hd),
        hm c List.mem_cons_self]

/-! ### push: the loop -/

/-- While the loop is going, the bytes behind the current chunk have reached it. -/
theorem amalgamate_going {q q' : List BufferChunk} {going : Bool}
    (ha : amalgamate h q = .ok (q', going)) :
    (q' = [] → q = []) ∧ (going = true → Chained h q) ∧
      ∀ b rest, q' = b :: rest → ∃ c cs, q = c :: cs ∧ b.address = c.address ∧
        b.managedBuffer = c.managedBuffer ∧ (going = true → b.length = total q ∧ total rest = 0) := by
  refine amalgamate_induct (motive := fun q q' going =>
    (q' = [] → q = []) ∧ (going = true → Chained h q) ∧
      ∀ b rest, q' = b :: rest → ∃ c cs, q = c :: cs ∧ b.address = c.address ∧
        b.managedBuffer = c.managedBuffer ∧ (going = true → b.length = total q ∧ total rest = 0))
    ?_ ?_ ?_ ?_ ha
  · exact ⟨fun _ => rfl, fun _ => trivial, fun b rest hb => by cases hb⟩
  · intro f q going _ ih
    obtain rfl := ih.1 rfl
    refine ⟨fun hf => (by cases hf), fun _ => trivial, fun b rest hb => ?_⟩
    obtain ⟨rfl, rfl⟩ := List.cons.inj hb
    exact ⟨f, [], rfl, rfl, rfl, fun _ => ⟨rfl, rfl⟩⟩
  · intro f q b rest going _ ih _
    refine ⟨fun hf => (by cases hf), fun hg => (by cases hg), fun b' rest' hb => ?_⟩
    obtain ⟨rfl, rfl⟩ := List.cons.inj hb
    exact ⟨f, q, rfl, rfl, rfl, fun hg => by cases hg⟩
  · intro f q b rest _ ih _ _ ht
    obtain ⟨c, cs, rfl, haddr, hmb, hlen⟩ := ih.2.2 b rest rfl
    obtain ⟨hb, hrest⟩ := hlen rfl
    refine ⟨fun hf => (by cases hf), fun _ => ⟨?_, ih.2.1 rfl⟩, fun b' rest' hb' => ?_⟩
    · simpa [Touches, BufferChunk.getAlias, BufferChunk.getBuffer, haddr, hmb] using ht
    · obtain ⟨rfl, rfl⟩ := List.cons.inj hb'
      refine ⟨f, c :: cs, rfl, rfl, rfl, fun _ => ⟨?_, ?_⟩⟩
      · show f.length + b.length = total (f :: c :: cs)
        rw [hb, total_cons f]
      · show 0 + total rest = 0
        rw [hrest]

/-- The alias of a chunk depends on its address and its managed buffer. -/
theorem getAlias_congr {b c : BufferChunk} (ha : b.address = c.address)
    (hm : b.managedBuffer = c.managedBuffer) : b.getAlias h = c.getAlias h := by
  unfold BufferChunk.getAlias BufferChunk.getBuffer
  rw [ha, hm]

theorem AliasShows.tail {buffs q : List BufferChunk} {f : BufferChunk}
    (hs : AliasShows mem h buffs (f :: q)) : AliasShows mem h buffs q := by
  cases q with
  | nil => trivial
  | cons c cs => exact hs.1

/-- What joins the chunk `b` to `f`: `b` follows `f`, or its alias does and
`AliasShows` vouches for the bytes. -/
theorem joined_cases {buffs q rest : List BufferChunk} {f b : BufferChunk}
    (ha : amalgamate h q = .ok (b :: rest, true)) (ht : Touches h f b)
    (hs : AliasShows mem h buffs (f :: q)) :
    b.address = f.getEnd ∨
      (readBytes mem f.getEnd b.length = readBytes mem b.address b.length ∧
        ∀ p ∈ buffs, Apart f.getEnd b.length p.address p.length) := by
  obtain ⟨-, hchain, hhead⟩ := amalgamate_going ha
  obtain ⟨c, cs, rfl, haddr, hmb, hlen⟩ := hhead b rest rfl
  by_cases hb : b.address = f.getEnd
  · exact .inl hb
  · have halias : c.getAlias h = f.getEnd := by
      rw [← getAlias_congr haddr hmb]
      exact ht.resolve_left hb
    have hshow := hs.2 (hchain rfl) (haddr ▸ hb) halias
    rw [(hlen rfl).1, haddr]
    exact .inr hshow

/-- **The loop of `push` shows the same bytes.** -/
theorem amalgamate_content {buffs q q' : List BufferChunk} {going : Bool}
    (ha : amalgamate h q = .ok (q', going)) (hs : AliasShows mem h buffs q) :
    content mem q' = content mem q := by
  revert hs
  refine amalgamate_induct (motive := fun q q' _ =>
    AliasShows mem h buffs q → content mem q' = content mem q) ?_ ?_ ?_ ?_ ha
  · exact fun _ => rfl
  · intro f q going ha _ _
    obtain rfl := (amalgamate_going ha).1 rfl
    rfl
  · intro f q b rest going ha ih _ hs
    rw [content_cons f, content_cons f, ih (hs.tail)]
  · intro f q b rest ha ih _ _ ht hs
    have hjoin : readBytes mem f.getEnd b.length = readBytes mem b.address b.length := by
      rcases joined_cases ha ht hs with hb | hb
      · rw [hb]
      · exact hb.1
    calc content mem (mergeFront f b :: emptied b :: rest)
        = readBytes mem f.address (f.length + b.length) ++ content mem rest := rfl
      _ = readBytes mem f.address f.length ++ content mem (b :: rest) := by
          rw [readBytes_add, List.append_assoc, content_cons b, ← hjoin]
          rfl
      _ = content mem (f :: q) := by rw [ih (hs.tail), content_cons]

theorem amalgamate_total {q q' : List BufferChunk} {going : Bool}
    (ha : amalgamate h q = .ok (q', going)) : total q' = total q := by
  refine amalgamate_induct (motive := fun q q' _ => total q' = total q) rfl ?_ ?_ ?_ ha
  · intro f q going ha _
    obtain rfl := (amalgamate_going ha).1 rfl
    rfl
  · intro f q b rest going _ ih _
    rw [total_cons f, total_cons f, ih]
  · intro f q b rest _ ih _ _ _
    show f.length + b.length + (0 + total rest) = total (f :: q)
    rw [total_cons f, ← ih, total_cons b]
    omega

/-! ### push: the ends of the queue -/

theorem removeDummy_content (mem : Memory) (h : Heap) (q : List BufferChunk) :
    content mem (removeDummy h q).1 = content mem q ∧ total (removeDummy h q).1 = total q := by
  cases q with
  | nil => exact ⟨rfl, rfl⟩
  | cons c q =>
      simp only [removeDummy]
      by_cases hc : c.length = 0
      · simp [hc]
      · simp [hc]

theorem removeBack_content (mem : Memory) (h : Heap) (q : List BufferChunk) :
    content mem (removeBack h q).1 = content mem q ∧ total (removeBack h q).1 = total q := by
  rcases removeBack_cases (h := h) q with hr | ⟨pre, f, b, rfl, -, hlen, hr⟩
  · rw [hr]; exact ⟨rfl, rfl⟩
  · rw [hr]; simp [hlen]

theorem placeholders_content (mem : Memory) {q : List BufferChunk} (hq : ∀ c ∈ q, Placeholder h c) :
    content mem q = [] ∧ total q = 0 := by
  induction q with
  | nil => exact ⟨rfl, rfl⟩
  | cons c q ih =>
      obtain ⟨hcontent, htotal⟩ := ih fun d hd => hq d (List.mem_cons_of_mem c hd)
      have hc := (hq c List.mem_cons_self).length
      rw [content_cons, total_cons, hc, hcontent, htotal]
      exact ⟨rfl, rfl⟩

/-- **`push` appends the bytes of the chunk.** -/
theorem push_content (mem : Memory) {acc acc' : BufferAccumulator} {buffer : BufferChunk} {ops : List RefOp}
    (hsome : buffer.isSome = true)
    (hlinked : (buffer.nextList h).length = buffer.nextBuffers)
    (hp : acc.push h buffer = .ok (acc', ops)) :
    acc'.bytesAvailable = acc.bytesAvailable + buffer.length ∧
      total acc'.queue = total acc.queue + buffer.length ∧
      (AliasShows mem h acc.pool.buffs ((removeDummy h acc.queue).1 ++ [buffer]) →
        content mem acc'.queue =
          content mem acc.queue ++ readBytes mem buffer.address buffer.length) := by
  obtain ⟨q, going, nexts, ha, rfl, -, -, hplace⟩ := push_spec hsome hlinked hp
  obtain ⟨hcontent, htotal⟩ := placeholders_content mem hplace
  obtain ⟨hbc, hbt⟩ := removeBack_content mem h q
  obtain ⟨hdc, hdt⟩ := removeDummy_content mem h acc.queue
  refine ⟨rfl, ?_, fun hs => ?_⟩
  · rw [total_append, htotal, hbt, amalgamate_total ha, total_append, hdt]
    simp
  · rw [content_append, hcontent, hbc, amalgamate_content ha hs, content_append, hdc]
    simp

/-! ### pop: the rules -/

/-- A front that is absorbed fits before the chunk behind it. -/
theorem Absorbs.le {p : Bool} {f b : BufferChunk} (ha : Absorbs h p f b)
    (hb : (b.getBuffer h).address ≤ b.address) :
    f.length ≤ b.address - (b.getBuffer h).address := by
  have hle := ha.2
  rwa [sizeSub, if_pos hb] at hle

theorem Moved.total {p : Bool} {f : BufferChunk} {q q' : List BufferChunk} {ops : List RefOp}
    (hm : Moved h p f q q' ops) : total q' = total (f :: q) := by
  have hmoved : ∀ {b : BufferChunk} {r : List BufferChunk},
      BufferAccumulator.total (moveInto f b :: r) = BufferAccumulator.total (f :: b :: r) := by
    intro b r
    rw [total_cons, total_cons f, total_cons b]
    show b.length + f.length + _ = _
    omega
  cases hm with
  | last hf => simp [hf]
  | keepLast _ => rfl
  | absorb _ => exact hmoved
  | drop _ hf => simp [hf]
  | overrun _ _ _ => exact hmoved
  | keep _ _ _ => rfl

/-- The bytes of a queue whose front took over those of the chunk before it. -/
theorem moveInto_content (mem : Memory) {f b : BufferChunk} (q : List BufferChunk)
    (hle : f.length ≤ b.address) :
    content mem (moveInto f b :: q) =
      readBytes mem (b.address - f.length) f.length ++ content mem (b :: q) := by
  rw [content_cons, content_cons b]
  show readBytes mem (b.address - f.length) (b.length + f.length) ++ _ = _
  rw [Nat.add_comm b.length, readBytes_add, Nat.sub_add_cancel hle, List.append_assoc]

/-- **The rules of `pop` show the same bytes exactly if `PoolShows` vouches for
those left in a pool buffer.** -/
theorem Moved.content_iff (mem : Memory) {p : Bool} {f : BufferChunk} {q q' : List BufferChunk}
    {ops : List RefOp} (hm : Moved h p f q q' ops)
    (hbased : ∀ b ∈ q, (b.getBuffer h).address ≤ b.address) :
    content mem q' = content mem (f :: q) ↔ ∀ b ∈ q.head?, PoolShows mem h p f b := by
  have hkept : ∀ {b : BufferChunk}, ¬ Absorbs h p f b → ∀ c ∈ some b, PoolShows mem h p f c := by
    intro b hna c hc ha
    exact absurd (Option.some.inj hc ▸ ha) hna
  cases hm with
  | last hf => simp [hf]
  | keepLast _ => simp
  | @absorb b q ha =>
      have hle := ha.le (hbased b List.mem_cons_self)
      rw [moveInto_content mem q (by omega), content_cons f, List.append_left_inj]
      constructor
      · intro heq c hc _
        rw [← Option.some.inj hc]
        exact heq
      · intro hs
        exact hs b rfl ha
  | @drop b q hna hf => exact ⟨fun _ => hkept hna, fun _ => by simp [hf]⟩
  | @overrun b q hna _ ho =>
      have hend : f.address + f.length = b.address := ho.2
      refine ⟨fun _ => hkept hna, fun _ => ?_⟩
      rw [moveInto_content mem q (by omega), content_cons f]
      congr 2
      omega
  | @keep b q hna _ _ => exact ⟨fun _ => hkept hna, fun _ => rfl⟩

theorem removeConsumed_content (mem : Memory) (h : Heap) (q : List BufferChunk) :
    content mem (removeConsumed h q).1 = content mem q ∧
      total (removeConsumed h q).1 = total q := by
  induction q with
  | nil => exact ⟨rfl, rfl⟩
  | cons c q ih =>
      simp only [removeConsumed]
      by_cases hc : c.length = 0
      · simp [hc, ih]
      · simp [hc]

theorem orDummy_content (mem : Memory) (q : List BufferChunk) :
    content mem (orDummy q) = content mem q ∧ total (orDummy q) = total q := by
  unfold orDummy
  split
  · next hq => subst hq; exact ⟨rfl, rfl⟩
  · exact ⟨rfl, rfl⟩

theorem pop_total {acc acc' : BufferAccumulator} {n : Nat} {ops : List RefOp}
    (hp : acc.pop h n = .ok (acc', ops)) : total acc.queue = n + total acc'.queue := by
  obtain ⟨f, q, q', ops', hq, hn, hm, rfl, -⟩ := pop_inv hp
  have hct := (removeConsumed_content (fun _ => 0) h q').2
  have hot := (orDummy_content (fun _ => 0) (removeConsumed h q').1).2
  show total acc.queue = n + total (orDummy (removeConsumed h q').1)
  rw [hot, hct, hm.total, hq, total_cons, total_cons]
  show f.length + total q = n + (f.length - n + total q)
  omega

/-- **`pop` removes bytes from the front**, exactly if `PoolShows` vouches. -/
theorem pop_content (mem : Memory) {acc acc' : BufferAccumulator} {n : Nat} {ops : List RefOp}
    (hbased : ∀ b ∈ acc.queue.tail, (b.getBuffer h).address ≤ b.address)
    (hp : acc.pop h n = .ok (acc', ops)) :
    content mem acc'.queue = (content mem acc.queue).drop n ↔
      ∀ b ∈ acc.queue[1]?, PoolShows mem h acc.inPoolBuffer (consume acc.front n) b := by
  obtain ⟨f, q, q', ops', hq, hn, hm, rfl, -⟩ := pop_inv hp
  have hfront : acc.front = f := by rw [front, hq]; rfl
  rw [hq] at hbased
  have hcc := (removeConsumed_content mem h q').1
  have hoc := (orDummy_content mem (removeConsumed h q').1).1
  have hdrop : (content mem (f :: q)).drop n = content mem (consume f n :: q) := by
    rw [content_cons, List.drop_append_of_le_length (by simpa using hn), readBytes_drop]
    rfl
  rw [hoc, hcc, hq, hdrop, hfront, hm.content_iff mem hbased]
  cases q with
  | nil => rfl
  | cons c q => rfl

end

end BufferAccumulator

end PothosCore.Framework

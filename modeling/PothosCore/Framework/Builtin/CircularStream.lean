import PothosCore.Framework.AccumulatorCover
import PothosCore.Framework.Builtin.CircularSession

/-!
# PothosCore.Framework.Builtin.CircularStream

A circular buffer manager that feeds an accumulator: the producer writes to the
manager's front, posts as much of it as it likes, and the managed buffers come
back when the accumulator is done with them, with any lag.

Positions count the bytes of the stream. A queued chunk that starts at position
`pos` belongs to a window that opened at `start k ≤ pos`, and its address is as
far behind the start of the window as `pos` is behind `start k` (`Placed`). No
rewrite of the queue changes that: amalgamation moves bytes forward in positions
and in addresses alike, and a front that passed the end of its own window is
behind the start of the next one. What ends a chunk is the position the producer
has reached, and that is less than a turn behind the start of any window that was
not returned.
-/

namespace PothosCore.Framework

open PothosCore.Lib PothosCore.Util

namespace CircularBufferManager

/-- A manager, the accumulator it feeds, the cells of the circular buffer, all the
bytes produced so far and the number of those that were popped. -/
structure Feed where
  session : Session CircularBufferManager
  acc : BufferAccumulator
  cells : Nat → UInt8
  produced : List UInt8
  popped : Nat

/-- The producer posts a part of the front, the consumer pops, a managed buffer
comes back. -/
inductive FeedEvent
  | post (data : List UInt8)
  | pop (numBytes : Nat)
  | release (mb : ManagedBuffer)

namespace Feed

/-- Nothing was produced yet. -/
def start (heap : Heap) (mgr : CircularBufferManager) (cells : Nat → UInt8) : Feed :=
  ⟨Session.start heap mgr, .make, cells, [], 0⟩

/-- Change the counters of the heap. -/
def touch (s : Session CircularBufferManager) (ops : List RefOp) : Session CircularBufferManager :=
  { s with heap := s.heap.apply ops }

/-- May this event happen? The producer posts from a front that is there, and no
managed buffer comes back that the queue refers to. -/
def Admits (s : Feed) : FeedEvent → Prop
  | .post data => s.session.front.isSome = true ∧ data.length ≤ s.session.front.length
  | .pop numBytes => numBytes ≤ s.acc.front.length
  | .release mb => mb ∈ s.session.out ∧ ∀ c ∈ s.acc.queue, c.managedBuffer ≠ some mb

instance (s : Feed) (e : FeedEvent) : Decidable (s.Admits e) := by
  cases e <;> unfold Admits <;> infer_instance

/-- The event itself. The port holds a copy of the front while it is produced to;
it pops the manager, and then the subscriber's accumulator takes the chunk. -/
def call (s : Feed) : FeedEvent → Except Fault Feed
  | .post data => do
      let front := s.session.front.copy s.session.heap
      let session := touch s.session (front.acquire s.session.heap)
      let cells := writeCyclic s.session.mgr.circBuff.length s.cells front.address data
      let (mgr, heap) ← session.mgr.pop session.heap data.length
      let session := session.record mgr heap (.pop data.length)
      let (acc, ops) ← s.acc.push heap { front with length := data.length }
      .ok { s with
        session := touch session ops, acc := acc, cells := cells, produced := s.produced ++ data }
  | .pop numBytes => do
      let (acc, ops) ← s.acc.pop s.session.heap numBytes
      .ok { s with session := touch s.session ops, acc := acc, popped := s.popped + numBytes }
  | .release mb => do
      let (mgr, heap) ← s.session.mgr.push s.session.heap mb
      .ok { s with session := s.session.record mgr heap (.push mb) }

/-- One admissible event that returns. -/
def step (s : Feed) (e : FeedEvent) : Option Feed :=
  if s.Admits e then (s.call e).toOption else none

theorem step_inv {s s' : Feed} {e : FeedEvent} (h : s.step e = some s') :
    s.Admits e ∧ s.call e = .ok s' :=
  ok_of_guarded h

end Feed

/-! ### Chunks in their windows -/

/-- The chunks of a queue that starts at position `pos` lie in the windows `ks`. -/
def Placed (r : Ring) (start : Nat → Nat) : Nat → List Nat → List BufferChunk → Prop
  | _, [], [] => True
  | pos, k :: ks, c :: queue =>
      (c.managedBuffer = some (r.ident k) ∧ c.nextBuffers = 0 ∧ start k ≤ pos ∧
        c.address = r.addressAt (start k) + (pos - start k)) ∧
      Placed r start (pos + c.length) ks queue
  | _, _, _ => False

/-- Windows come one after the other. -/
def Steps (j k : Nat) : Prop := j ≤ k ∧ k ≤ j + 1

/-- A list that ends in `j` goes on to a window that may follow `j`. -/
theorem snoc_steps {ks : List Nat} {j k : Nat} (hs : (ks ++ [j]).IsChain Steps)
    (hk : Steps j k) : (ks ++ [j] ++ [k]).IsChain Steps := by
  refine List.isChain_append.mpr ⟨hs, List.isChain_singleton k, fun x hx y hy => ?_⟩
  obtain rfl : j = x := by simpa using hx
  obtain rfl : k = y := by simpa using hy
  exact hk

theorem suffix_snoc {ks ks' : List Nat} {k : Nat} (hs : (ks ++ [k]).IsChain Steps)
    (hsuffix : ks' <:+ ks) : (ks' ++ [k]).IsChain Steps := by
  obtain ⟨pre, rfl⟩ := hsuffix
  rw [List.append_assoc] at hs
  exact hs.right_of_append

section
variable {r : Ring} {start : Nat → Nat} {pos : Nat} {ks : List Nat} {h : Heap}
  {q q' : List BufferChunk}

theorem Placed.isSome (hp : Placed r start pos ks q) : ∀ c ∈ q, c.isSome = true := by
  induction q generalizing pos ks with
  | nil => exact fun c hc => by cases hc
  | cons d q ih =>
      cases ks with
      | nil => cases hp
      | cons k ks =>
          intro c hc
          rcases List.mem_cons.mp hc with rfl | hc
          · rw [BufferChunk.isSome, hp.1.1]
            rfl
          · exact ih hp.2 c hc

theorem Placed.mem (hp : Placed r start pos ks q) :
    ∀ k ∈ ks, ∃ c ∈ q, c.managedBuffer = some (r.ident k) := by
  induction q generalizing pos ks with
  | nil =>
      cases ks with
      | nil => exact fun k hk => by cases hk
      | cons k ks => cases hp
  | cons d q ih =>
      cases ks with
      | nil => cases hp
      | cons j ks =>
          intro k hk
          rcases List.mem_cons.mp hk with rfl | hk
          · exact ⟨d, List.mem_cons_self, hp.1.1⟩
          · obtain ⟨c, hc, hmb⟩ := ih hp.2 k hk
            exact ⟨c, List.mem_cons_of_mem d hc, hmb⟩

/-- Only the starts of the windows in use matter. -/
theorem Placed.congr {start' : Nat → Nat} (hs : ∀ k ∈ ks, start' k = start k)
    (hp : Placed r start pos ks q) : Placed r start' pos ks q := by
  induction q generalizing pos ks with
  | nil =>
      cases ks with
      | nil => trivial
      | cons k ks => cases hp
  | cons d q ih =>
      cases ks with
      | nil => cases hp
      | cons k ks =>
          refine ⟨?_, ih (fun j hj => hs j (List.mem_cons_of_mem k hj)) hp.2⟩
          rw [hs k List.mem_cons_self]
          exact hp.1

theorem Placed.append {ks' : List Nat} (hp : Placed r start pos ks q)
    (hp' : Placed r start (pos + BufferAccumulator.total q) ks' q') :
    Placed r start pos (ks ++ ks') (q ++ q') := by
  induction q generalizing pos ks with
  | nil =>
      cases ks with
      | nil => exact hp'
      | cons k ks => cases hp
  | cons d q ih =>
      cases ks with
      | nil => cases hp
      | cons k ks =>
          rw [BufferAccumulator.total_cons, ← Nat.add_assoc] at hp'
          exact ⟨hp.1, ih hp.2 hp'⟩

/-- A queue in two parts. -/
theorem Placed.split {pre post : List BufferChunk} (hp : Placed r start pos ks (pre ++ post)) :
    ∃ ks₁ ks₂, ks = ks₁ ++ ks₂ ∧ Placed r start pos ks₁ pre ∧
      Placed r start (pos + BufferAccumulator.total pre) ks₂ post := by
  induction pre generalizing pos ks with
  | nil => exact ⟨[], ks, rfl, trivial, hp⟩
  | cons c pre ih =>
      cases ks with
      | nil => cases hp
      | cons k ks =>
          obtain ⟨ks₁, ks₂, rfl, h₁, h₂⟩ := ih hp.2
          refine ⟨k :: ks₁, ks₂, rfl, ⟨hp.1, h₁⟩, ?_⟩
          rw [BufferAccumulator.total_cons, ← Nat.add_assoc]
          exact h₂

/-! ### What the rewrites do to placed chunks -/

/-- **Amalgamation keeps chunks in their windows.** -/
theorem amalgamate_placed {going : Bool} (ha : BufferAccumulator.amalgamate h q = .ok (q', going)) :
    ∀ pos ks, Placed r start pos ks q → Placed r start pos ks q' := by
  refine BufferAccumulator.amalgamate_induct (motive := fun q q' _ =>
    ∀ pos ks, Placed r start pos ks q → Placed r start pos ks q') (fun _ _ => id) ?_ ?_ ?_ ha
  · intro f q going ha _ pos ks hp
    obtain rfl := (BufferAccumulator.amalgamate_going ha).1 rfl
    exact hp
  · intro f q b rest going _ ih _ pos ks hp
    cases ks with
    | nil => cases hp
    | cons k ks => exact ⟨hp.1, ih _ _ hp.2⟩
  · intro f q b rest _ ih _ _ _ pos ks hp
    cases ks with
    | nil => cases hp
    | cons k ks =>
        have hq := ih _ _ hp.2
        cases ks with
        | nil => cases hq
        | cons j ks =>
            obtain ⟨⟨hmb, hn, hstart, haddr⟩, hrest⟩ := hq
            refine ⟨hp.1, ⟨hmb, hn, ?_, ?_⟩, ?_⟩
            · show start j ≤ pos + (f.length + b.length)
              omega
            · show b.address + b.length = r.addressAt (start j) + (pos + (f.length + b.length) - start j)
              omega
            · show Placed r start (pos + (f.length + b.length) + 0) ks rest
              rw [Nat.add_zero, ← Nat.add_assoc]
              exact hrest

theorem removeDummy_placed (hp : Placed r start pos ks q) :
    ∃ ks', ks' <:+ ks ∧ Placed r start pos ks' (BufferAccumulator.removeDummy h q).1 := by
  cases q with
  | nil => exact ⟨ks, List.suffix_refl ks, hp⟩
  | cons c q =>
      cases ks with
      | nil => cases hp
      | cons k ks =>
          simp only [BufferAccumulator.removeDummy]
          by_cases hc : c.length = 0
          · rw [if_pos hc]
            have hq := hp.2
            rw [hc] at hq
            exact ⟨ks, List.suffix_cons k ks, hq⟩
          · rw [if_neg hc]
            exact ⟨k :: ks, List.suffix_refl _, hp⟩

theorem removeConsumed_placed (hp : Placed r start pos ks q) :
    ∃ ks', ks' <:+ ks ∧ Placed r start pos ks' (BufferAccumulator.removeConsumed h q).1 := by
  induction q generalizing ks with
  | nil => exact ⟨ks, List.suffix_refl ks, hp⟩
  | cons c q ih =>
      cases ks with
      | nil => cases hp
      | cons k ks =>
          simp only [BufferAccumulator.removeConsumed]
          by_cases hc : c.length = 0
          · rw [if_pos hc]
            have hq := hp.2
            rw [hc] at hq
            obtain ⟨ks', hsuffix, hq'⟩ := ih hq
            exact ⟨ks', hsuffix.trans (List.suffix_cons k ks), hq'⟩
          · rw [if_neg hc]
            exact ⟨k :: ks, List.suffix_refl _, hp⟩

/-- **The rules of `pop` keep chunks in their windows**, outside the pool. A front
past the end of its own window is behind the start of the next one. -/
theorem moved_placed {f : BufferChunk} {ops : List RefOp} {k : Nat}
    (hm : BufferAccumulator.Moved h false f q q' ops)
    (hp : Placed r start pos (k :: ks) (f :: q))
    (hbuffer : (h.impl (r.ident k)).buffer = r.window (start k))
    (hnext : ∀ j ∈ ks.head?, start j ≤ start k + r.bufferSize) :
    ∃ ks', ks' <:+ k :: ks ∧ Placed r start pos ks' q' := by
  have hempty : f.length = 0 → ∃ ks', ks' <:+ k :: ks ∧ Placed r start pos ks' q := by
    intro hf
    have hq := hp.2
    rw [hf] at hq
    exact ⟨ks, List.suffix_cons k ks, hq⟩
  cases hm with
  | last hf => exact hempty hf
  | keepLast _ => exact ⟨_, List.suffix_refl _, hp⟩
  | absorb ha => cases ha.1
  | drop _ hf => exact hempty hf
  | @overrun b q _ _ ho =>
      obtain ⟨⟨hmb, -, hstart, haddr⟩, hq⟩ := hp
      cases ks with
      | nil => cases hq
      | cons j ks =>
          obtain ⟨⟨hmb', hn', hstart', haddr'⟩, hrest⟩ := hq
          have hpast : r.addressAt (start k) + r.bufferSize ≤ f.address := by
            have hle := ho.1
            rw [BufferChunk.getBuffer, hmb, Heap.buffer, hbuffer] at hle
            exact hle
          have hj := hnext j rfl
          refine ⟨j :: ks, List.suffix_cons k _, ⟨hmb', hn', by omega, ?_⟩, ?_⟩
          · show b.address - f.length = r.addressAt (start j) + (pos - start j)
            omega
          · show Placed r start (pos + (b.length + f.length)) ks q
            rw [Nat.add_comm b.length, ← Nat.add_assoc]
            exact hrest
  | keep _ _ _ => exact ⟨_, List.suffix_refl _, hp⟩

/-- Consuming bytes of the front. -/
theorem Placed.consume {f : BufferChunk} {n : Nat} (hp : Placed r start pos ks (f :: q))
    (hn : n ≤ f.length) :
    Placed r start (pos + n) ks (BufferAccumulator.consume f n :: q) := by
  cases ks with
  | nil => cases hp
  | cons k ks =>
      obtain ⟨⟨hmb, hnext, hstart, haddr⟩, hq⟩ := hp
      refine ⟨⟨hmb, hnext, by omega, ?_⟩, ?_⟩
      · show f.address + n = _
        omega
      · have hend : pos + n + (BufferAccumulator.consume f n).length = pos + f.length := by
          show pos + n + (f.length - n) = _
          omega
        rw [hend]
        exact hq

/-- The chunk at the back. -/
theorem Placed.snoc {c : BufferChunk} (hp : Placed r start pos ks (q ++ [c])) :
    ∃ ks₁ k, ks = ks₁ ++ [k] ∧ Placed r start pos ks₁ q ∧ c.managedBuffer = some (r.ident k) := by
  obtain ⟨ks₁, ks₂, rfl, hq, hc⟩ := hp.split
  cases ks₂ with
  | nil => cases hc
  | cons k ks₂ =>
      cases ks₂ with
      | nil => exact ⟨ks₁, k, rfl, hq, hc.1.1⟩
      | cons j ks₂ => cases hc.2

/-- The place of a chunk, from its own window on. -/
theorem Placed.bounds (hp : Placed r start pos ks q) : ∀ c ∈ q, ∃ k ∈ ks, ∃ p,
    start k ≤ p ∧ p + c.length ≤ pos + BufferAccumulator.total q ∧
      c.address = r.addressAt (start k) + (p - start k) := by
  induction q generalizing pos ks with
  | nil => exact fun c hc => by cases hc
  | cons d q ih =>
      cases ks with
      | nil => cases hp
      | cons k ks =>
          rw [BufferAccumulator.total_cons]
          intro c hc
          rcases List.mem_cons.mp hc with rfl | hc
          · exact ⟨k, List.mem_cons_self, pos, hp.1.2.2.1, by omega, hp.1.2.2.2⟩
          · obtain ⟨j, hj, p, hstart, hend, haddr⟩ := ih hp.2 c hc
            exact ⟨j, List.mem_cons_of_mem k hj, p, hstart, by omega, haddr⟩

/-! ### The two calls of the accumulator -/

theorem removeDummy_orDummy (h : Heap) (q : List BufferChunk) :
    (BufferAccumulator.removeDummy h (BufferAccumulator.orDummy q)).1 =
      (BufferAccumulator.removeDummy h q).1 := by
  cases q with
  | nil => rfl
  | cons c q => rfl

/-- **`push` puts the chunk into the window at the head.** The back of the queue
stays in that window: it is only dropped behind a chunk of the same window. -/
theorem push_placed {acc acc' : BufferAccumulator} {chunk : BufferChunk} {ops : List RefOp}
    {head : Nat} (hqueue : acc.queue = BufferAccumulator.orDummy q)
    (hp : Placed r start pos ks q)
    (hc : Placed r start (pos + BufferAccumulator.total q) [head] [chunk])
    (hident : ∀ k ∈ ks, r.ident k = r.ident head → k = head)
    (hsteps : (ks ++ [head]).IsChain Steps) (hpush : acc.push h chunk = .ok (acc', ops)) :
    ∃ ks' q', acc'.queue = BufferAccumulator.orDummy q' ∧
      Placed r start pos (ks' ++ [head]) q' ∧ (∀ k ∈ ks', k ∈ ks) ∧
      (ks' ++ [head]).IsChain Steps ∧
      BufferAccumulator.total q' = BufferAccumulator.total q + chunk.length ∧
      acc'.bytesAvailable = acc.bytesAvailable + chunk.length ∧
      acc'.inPoolBuffer = acc.inPoolBuffer := by
  obtain ⟨q₁, going, nexts, ha, hn, rfl, -⟩ := BufferAccumulator.push_inv hpush
  obtain rfl : nexts = [] := by
    rw [hc.1.1, hc.1.2.1] at hn
    exact (Except.ok.inj hn).symm
  rw [hqueue, removeDummy_orDummy] at ha
  obtain ⟨ks₁, hsuffix, hd⟩ := removeDummy_placed (h := h) hp
  have hdt := (BufferAccumulator.removeDummy_content (fun _ => 0) h q).2
  have hq₁ : Placed r start pos (ks₁ ++ [head]) q₁ := by
    refine amalgamate_placed ha pos _ (hd.append ?_)
    rw [hdt]
    exact hc
  have hsteps₁ : (ks₁ ++ [head]).IsChain Steps :=
    suffix_snoc hsteps hsuffix
  have htotal : BufferAccumulator.total q₁ = BufferAccumulator.total q + chunk.length := by
    rw [BufferAccumulator.amalgamate_total ha, BufferAccumulator.total_append, hdt]
    simp
  have hne := BufferAccumulator.removeBack_ne_nil ha
  have hback : BufferAccumulator.total (BufferAccumulator.removeBack h q₁).1 =
      BufferAccumulator.total q + chunk.length :=
    (BufferAccumulator.removeBack_content (fun _ => 0) h q₁).2.trans htotal
  have hqueue' : (BufferAccumulator.removeBack h q₁).1 ++ [] =
      BufferAccumulator.orDummy (BufferAccumulator.removeBack h q₁).1 := by
    rw [List.append_nil, BufferAccumulator.orDummy, if_neg hne]
  rcases BufferAccumulator.removeBack_cases (h := h) q₁ with hr | ⟨pre, f, b, rfl, hmb, -, hr⟩
  · refine ⟨ks₁, q₁, ?_, hq₁, fun k hk => hsuffix.subset hk, hsteps₁, htotal, rfl, rfl⟩
    rw [hr] at hqueue'
    rw [hr]
    exact hqueue'
  · -- the back goes, and the chunk before it has the same managed buffer
    have hpre : pre ++ [f, b] = (pre ++ [f]) ++ [b] := by simp
    rw [hpre] at hq₁
    obtain ⟨ks₂, k, hks, hq₂, hb⟩ := hq₁.snoc
    obtain ⟨rfl, hk⟩ := List.append_inj' hks rfl
    obtain rfl : head = k := List.singleton_inj.mp hk
    obtain ⟨ks₃, j, rfl, -, hf⟩ := hq₂.snoc
    have hj : j = head := by
      refine hident j (hsuffix.subset (List.mem_append_right _ (List.mem_singleton_self j))) ?_
      exact Option.some.inj (hf.symm.trans (hmb.symm.trans hb))
    subst hj
    rw [hr] at hqueue' hback
    refine ⟨ks₃, pre ++ [f], ?_, hq₂, fun k hk => ?_, hsteps₁.left_of_append, hback, rfl, rfl⟩
    · rw [hr]
      exact hqueue'
    · exact hsuffix.subset (List.mem_append_left _ hk)

/-- **`pop` leaves the rest of the queue in its windows.** -/
theorem pop_placed {acc acc' : BufferAccumulator} {n : Nat} {ops : List RefOp}
    (hqueue : acc.queue = BufferAccumulator.orDummy q) (hpool : acc.inPoolBuffer = false)
    (hp : Placed r start pos ks q)
    (hbuffer : ∀ k ∈ ks, (h.impl (r.ident k)).buffer = r.window (start k))
    (hnext : ks.IsChain fun j k => start k ≤ start j + r.bufferSize)
    (hpop : acc.pop h n = .ok (acc', ops)) :
    ∃ ks' q', ks' <:+ ks ∧ acc'.queue = BufferAccumulator.orDummy q' ∧
      Placed r start (pos + n) ks' q' ∧ acc'.inPoolBuffer = false ∧
      acc'.bytesAvailable = acc.bytesAvailable - n ∧
      BufferAccumulator.total q = n + BufferAccumulator.total q' := by
  have htotal := BufferAccumulator.pop_total hpop
  obtain ⟨f, rest, q₁, ops', hq, hn, hm, rfl, -⟩ := BufferAccumulator.pop_inv hpop
  rw [hpool] at hm
  have hresult : ∃ ks', ks' <:+ ks ∧ Placed r start (pos + n) ks' q₁ := by
    cases q with
    | nil =>
        -- only the dummy is there, and nothing can be popped from it
        obtain ⟨rfl, rfl⟩ : BufferChunk.null = f ∧ [] = rest := by
          simpa [BufferAccumulator.orDummy, hqueue] using hq
        cases ks with
        | cons k ks => cases hp
        | nil =>
            refine ⟨[], List.suffix_refl [], ?_⟩
            cases hm with
            | last _ => trivial
            | keepLast hf => exact absurd (Nat.zero_sub n) hf
    | cons c q =>
        obtain ⟨rfl, rfl⟩ : c = f ∧ q = rest := by
          simpa [BufferAccumulator.orDummy, hqueue] using hq
        cases ks with
        | nil => cases hp
        | cons k ks =>
            refine moved_placed hm (hp.consume hn) (hbuffer k List.mem_cons_self) fun j hj => ?_
            cases ks with
            | nil => cases hj
            | cons i ks =>
                obtain rfl : i = j := by simpa using hj
                exact (List.isChain_cons_cons.mp hnext).1
  obtain ⟨ks', hsuffix, hq₁⟩ := hresult
  obtain ⟨ks'', hsuffix', hq₂⟩ := removeConsumed_placed (h := h) hq₁
  refine ⟨ks'', _, hsuffix'.trans hsuffix, rfl, hq₂, ?_, rfl, ?_⟩
  · show (acc.inPoolBuffer && _) = false
    rw [hpool]
    rfl
  · have hd := (BufferAccumulator.orDummy_content (fun _ => 0) q).2
    have hd' := (BufferAccumulator.orDummy_content (fun _ => 0)
      (BufferAccumulator.removeConsumed h q₁).1).2
    rw [← hd, ← hqueue, htotal]
    exact congrArg (n + ·) hd'

end

/-! ### The invariant of a feed -/

/-- A window whose managed buffer has not come back. -/
def Held (m : CircularBufferManager) (r : Ring) (head tail k : Nat) : Prop :=
  r.Lent m.readyBuffs head tail k ∨ (k = head ∧ head < tail)

/-- The queue `q` of a feed lies in the windows `ks`, and the cells still hold what
was produced. -/
structure Flowing (s : Feed) (r : Ring) (head tail : Nat) (start : Nat → Nat) (ks : List Nat)
    (q : List BufferChunk) : Prop where
  handouts : Handouts s.session r head tail start
  queue : s.acc.queue = BufferAccumulator.orDummy q
  placed : Placed r start s.popped ks q
  held : ∀ k ∈ ks, Held s.session.mgr r head tail k
  steps : (ks ++ [head]).IsChain Steps
  reached : s.produced.length = start head + s.session.mgr.bytesToPop
  balance : s.popped + BufferAccumulator.total q = s.produced.length
  bytesAvailable : s.acc.bytesAvailable = BufferAccumulator.total q
  inPoolBuffer : s.acc.inPoolBuffer = false
  cells : readCyclic r.circBuff.length s.cells (r.circBuff.address + s.popped)
    (BufferAccumulator.total q) = s.produced.drop s.popped

/-- Reference traffic does not concern the manager. -/
theorem Handouts.touch {s : Session CircularBufferManager} {r : Ring} {head tail : Nat}
    {start : Nat → Nat} (hh : Handouts s r head tail start) (ops : List RefOp) :
    Handouts (Feed.touch s ops) r head tail start :=
  { hh with
    windows := hh.windows.of_buffer fun mb => Heap.apply_impl_buffer s.heap ops mb
    slabbed := hh.slabbed.of_links (s.heap.sameLinks_apply ops)
    linked := hh.linked.of_links (s.heap.sameLinks_apply ops) }

theorem Flowing.start {m : CircularBufferManager} {h : Heap} {r : Ring} (cells : Nat → UInt8)
    (w : Windows m h r 0 r.numBuffers fun _ => 0) (hl : r.Linked h) (hs : r.Slabbed h)
    (hzero : m.bytesToPop = 0) :
    Flowing (Feed.start h m cells) r 0 r.numBuffers (fun _ => 0) [] [] where
  handouts := handouts_start w hl hs
  queue := rfl
  placed := trivial
  held := fun k hk => by cases hk
  steps := List.isChain_singleton 0
  reached := by
    show 0 = 0 + m.bytesToPop
    rw [hzero]
  balance := rfl
  bytesAvailable := rfl
  inPoolBuffer := rfl
  cells := rfl

section
variable {s s' : Feed} {r : Ring} {head tail : Nat} {start : Nat → Nat} {ks : List Nat}
  {q : List BufferChunk}

/-- The window of a chunk opened no later than the one at the head. -/
theorem Held.le {m : CircularBufferManager} {k : Nat} (hk : Held m r head tail k) : k ≤ head := by
  rcases hk with hk | ⟨rfl, -⟩
  · exact hk.1.le
  · exact le_refl _

/-- What is still to be produced to the front window is less than a turn ahead of
the windows that are held. -/
theorem Flowing.turn (hf : Flowing s r head tail start ks q) (hlt : head < tail) :
    ∀ k ∈ ks, start head + r.bufferSize ≤ start k + r.circBuff.length := by
  intro k hk
  have hw := hf.handouts.windows
  rcases hf.held k hk with hlent | ⟨rfl, -⟩
  · exact hw.span hlt hlent.1.le hlent.2.1
  · exact hw.span hlt (le_refl _) hw.stock.tail_le

/-- The same for the position of the consumer. -/
theorem Flowing.popped_turn (hf : Flowing s r head tail start ks q) (hlt : head < tail) :
    start head + r.bufferSize ≤ s.popped + r.circBuff.length := by
  have hp := hf.placed
  have hturn := hf.turn hlt
  cases ks with
  | nil =>
      cases q with
      | cons c q => cases hp
      | nil =>
          have hbalance := hf.balance
          have hreached := hf.reached
          have hle := r.bufferSize_le
          simp only [BufferAccumulator.total_nil] at hbalance
          omega
  | cons k ks =>
      cases q with
      | nil => cases hp
      | cons c q =>
          have hstart := hp.1.2.2.1
          have := hturn k List.mem_cons_self
          omega

/-- The managed buffers of the windows that are held show those windows. -/
theorem Flowing.buffer (hf : Flowing s r head tail start ks q) :
    ∀ k ∈ ks, (s.session.heap.impl (r.ident k)).buffer = r.window (start k) := by
  intro k hk
  rcases hf.held k hk with hlent | ⟨rfl, hlt⟩
  · exact hf.handouts.windows.lent k hlent
  · exact hf.handouts.windows.front_held hlt

/-- Window after window, the starts are at most `bufferSize` apart. -/
theorem Flowing.start_step (hf : Flowing s r head tail start ks q) :
    ks.IsChain fun j k => start k ≤ start j + r.bufferSize := by
  have hchain : ks.IsChain Steps := hf.steps.left_of_append
  refine hchain.imp_of_mem_imp fun j k _ hk hjk => ?_
  have hle := (hf.held k hk).le
  rcases Nat.lt_or_eq_of_le hjk.1 with hlt | rfl
  · obtain rfl : k = j + 1 := Nat.le_antisymm hjk.2 hlt
    exact hf.handouts.windows.start_step j hle
  · exact Nat.le_add_right _ _

/-- The accumulator's part of a post: the chunk at the producer's position, in the
window at the head, joins the queue. -/
theorem Flowing.pushed (hf : Flowing s r head tail start ks q) (hlt : head < tail)
    {data : List UInt8} {h : Heap} {acc : BufferAccumulator} {ops : List RefOp}
    (hpush : s.acc.push h { s.session.front with length := data.length } = .ok (acc, ops)) :
    ∃ ks' q', acc.queue = BufferAccumulator.orDummy q' ∧
      Placed r start s.popped (ks' ++ [head]) q' ∧ (∀ k ∈ ks', k ∈ ks) ∧
      (ks' ++ [head]).IsChain Steps ∧
      BufferAccumulator.total q' = BufferAccumulator.total q + data.length ∧
      acc.bytesAvailable = s.acc.bytesAvailable + data.length ∧
      acc.inPoolBuffer = s.acc.inPoolBuffer := by
  have hfront : s.session.front = _ := hf.handouts.windows.front hlt
  have hbalance := hf.balance
  have hreached := hf.reached
  refine push_placed hf.queue hf.placed ?_ (fun k hk hident => ?_) hf.steps hpush
  · rw [hfront]
    refine ⟨⟨rfl, rfl, by omega, ?_⟩, trivial⟩
    show r.addressAt (start head) + s.session.mgr.bytesToPop = _
    omega
  · rcases hf.held k hk with hlent | ⟨rfl, -⟩
    · exact absurd hident (hlent.ident_ne hlt)
    · rfl

/-- The producer's part of a post: the cells in front of it are all free. -/
theorem Flowing.written (hf : Flowing s r head tail start ks q) (hlt : head < tail)
    {data : List UInt8} (hdata : data.length ≤ s.session.front.length) :
    readCyclic r.circBuff.length
        (writeCyclic r.circBuff.length s.cells s.session.front.address data)
        (r.circBuff.address + s.popped) (BufferAccumulator.total q + data.length) =
      (s.produced ++ data).drop s.popped := by
  have hfront : s.session.front = _ := hf.handouts.windows.front hlt
  have hbalance := hf.balance
  have hreached := hf.reached
  have hturn := hf.popped_turn hlt
  have hsize := r.bufferSize_le
  rw [hfront] at hdata ⊢
  simp only at hdata ⊢
  have hbytes := hf.handouts.windows.bytesToPop
  have hend : s.produced.length + data.length ≤ start head + r.bufferSize := by omega
  have haddr : r.addressAt (start head) + s.session.mgr.bytesToPop ≡
      r.circBuff.address + s.popped + BufferAccumulator.total q [MOD r.circBuff.length] := by
    have hmod := r.addressAt_add_mod (start head) s.session.mgr.bytesToPop
    rw [← hreached, ← hbalance, ← Nat.add_assoc] at hmod
    exact hmod
  rw [writeCyclic_congr _ haddr, readCyclic_add,
    readCyclic_writeCyclic_before _ (le_refl _) (by omega), readCyclic_writeCyclic_self _ _ (by omega),
    hf.cells, List.drop_append_of_le_length (by omega)]

/-- **A post keeps the invariant.** -/
theorem Flowing.post (hf : Flowing s r head tail start ks q) {data : List UInt8}
    (hadm : s.Admits (.post data)) :
    ∃ s' head' start' ks' q', s.call (.post data) = .ok s' ∧
      Flowing s' r head' tail start' ks' q' := by
  obtain ⟨hsome, hdata⟩ := hadm
  have hlt := hf.handouts.front_isSome.mp hsome
  have hfront : s.session.front = _ := hf.handouts.windows.front hlt
  have hwindow := hf.handouts.windows.front_held hlt
  have hbytes := hf.handouts.windows.bytesToPop
  have hn : data.length ≤ r.bufferSize - s.session.mgr.bytesToPop := by
    rw [hfront] at hdata
    exact hdata
  have hcopy : s.session.front.copy s.session.heap = s.session.front := by
    refine BufferChunk.copy_of_le _ _ ?_ (by rw [hfront])
    rw [hfront]
    simp only [BufferChunk.getEnd, BufferChunk.getBuffer, Heap.buffer, hwindow, Ring.window,
      SharedBuffer.getEnd]
    omega
  let session := Feed.touch s.session (s.session.front.acquire s.session.heap)
  have hh := hf.handouts.touch (s.session.front.acquire s.session.heap)
  -- the push that follows the manager's pop, on whatever heap that leaves
  have hpush : ∀ h, ∃ acc ops,
      s.acc.push h { s.session.front with length := data.length } = .ok (acc, ops) := by
    intro h
    have hsome' : ∀ c ∈ (BufferAccumulator.removeDummy h s.acc.queue).1 ++
        [{ s.session.front with length := data.length }], c.isSome = true := by
      intro c hc
      rcases List.mem_append.mp hc with hc | hc
      · rw [hf.queue, removeDummy_orDummy] at hc
        obtain ⟨ks', -, hd⟩ := removeDummy_placed (h := h) hf.placed
        exact hd.isSome c hc
      · rw [List.mem_singleton.mp hc, hfront]
        rfl
    obtain ⟨⟨acc, ops⟩, hpush⟩ := BufferAccumulator.push_ok
      (by rw [hf.queue, BufferAccumulator.orDummy]; split <;> simp_all) hsome'
      ⟨[], by rw [hfront]; rfl⟩
    exact ⟨acc, ops, hpush⟩
  have hwritten := hf.written hlt hdata
  have hcall : ∀ m' h' acc ops, session.mgr.pop session.heap data.length = .ok (m', h') →
      s.acc.push h' { s.session.front with length := data.length } = .ok (acc, ops) →
      s.call (.post data) = .ok { s with
        session := Feed.touch (session.record m' h' (.pop data.length)) ops, acc := acc,
        cells := writeCyclic s.session.mgr.circBuff.length s.cells s.session.front.address data,
        produced := s.produced ++ data } := by
    intro m' h' acc ops hpop hpush
    simp only [Feed.call, hcopy]
    rw [show (Feed.touch s.session _).mgr.pop _ data.length = _ from hpop]
    show (s.acc.push h' _ >>= _) = _
    rw [hpush]
    rfl
  have hcirc : s.session.mgr.circBuff = r.circBuff := hf.handouts.windows.circBuff
  have hreached := hf.reached
  have hbalance := hf.balance
  by_cases hsmall : (s.session.mgr.bytesToPop + data.length) * 2 < r.bufferSize
  · -- the window stays at the front
    obtain ⟨m', h', hpop, hh', hready, htoPop⟩ := hh.pop_reuse hlt hsmall
    obtain ⟨acc, ops, hpush⟩ := hpush h'
    obtain ⟨ks', q', hqueue, hplaced, hks, hsteps, htotal, havailable, hpool⟩ :=
      hf.pushed hlt hpush
    refine ⟨_, head, start, ks' ++ [head], q', hcall m' h' acc ops hpop hpush, ?_⟩
    exact {
      handouts := hh'.touch ops
      queue := hqueue
      placed := hplaced
      held := fun k hk => by
        rcases List.mem_append.mp hk with hk | hk
        · exact (hf.held k (hks k hk)).imp (fun hlent => hready ▸ hlent) id
        · exact .inr ⟨List.mem_singleton.mp hk, hlt⟩
      steps := snoc_steps hsteps ⟨le_refl _, Nat.le_succ _⟩
      reached := by
        show (s.produced ++ data).length = start head + m'.bytesToPop
        rw [htoPop, List.length_append, hreached, Nat.add_assoc]
        rfl
      balance := by
        show s.popped + _ = (s.produced ++ data).length
        rw [htotal, List.length_append, ← hbalance, Nat.add_assoc]
      bytesAvailable := by
        show acc.bytesAvailable = _
        rw [havailable, hf.bytesAvailable, htotal]
      inPoolBuffer := hpool.trans hf.inPoolBuffer
      cells := by
        show readCyclic _ (writeCyclic _ _ _ _) _ _ = _
        rw [htotal, hcirc]
        exact hwritten }
  · -- the window is lent out, and the next one opens where it ends
    have hle : s.session.mgr.bytesToPop + data.length ≤ r.bufferSize := by omega
    obtain ⟨m', h', start', hpop, hh', hstart, hnew, hlent, hzero⟩ := hh.pop_move hlt hle hsmall
    obtain ⟨acc, ops, hpush⟩ := hpush h'
    obtain ⟨ks', q', hqueue, hplaced, hks, hsteps, htotal, havailable, hpool⟩ :=
      hf.pushed hlt hpush
    have hksle : ∀ k ∈ ks' ++ [head], k ≤ head := by
      intro k hk
      rcases List.mem_append.mp hk with hk | hk
      · exact (hf.held k (hks k hk)).le
      · exact (List.mem_singleton.mp hk).le
    refine ⟨_, head + 1, start', ks' ++ [head], q', hcall m' h' acc ops hpop hpush, ?_⟩
    exact {
      handouts := hh'.touch ops
      queue := hqueue
      placed := hplaced.congr fun k hk => hstart k (hksle k hk)
      held := fun k hk => by
        refine .inl ((hlent k).mpr ?_)
        rcases List.mem_append.mp hk with hk | hk
        · exact (hf.held k (hks k hk)).imp id And.left
        · exact .inr (List.mem_singleton.mp hk)
      steps := snoc_steps hsteps ⟨Nat.le_succ _, le_refl _⟩
      reached := by
        show (s.produced ++ data).length = start' (head + 1) + m'.bytesToPop
        rw [hzero, hnew, List.length_append, hreached, Nat.add_assoc]
        rfl
      balance := by
        show s.popped + _ = (s.produced ++ data).length
        rw [htotal, List.length_append, ← hbalance, Nat.add_assoc]
      bytesAvailable := by
        show acc.bytesAvailable = _
        rw [havailable, hf.bytesAvailable, htotal]
      inPoolBuffer := hpool.trans hf.inPoolBuffer
      cells := by
        show readCyclic _ (writeCyclic _ _ _ _) _ _ = _
        rw [htotal, hcirc]
        exact hwritten }

/-- **A pop keeps the invariant.** -/
theorem Flowing.pop (hf : Flowing s r head tail start ks q) {n : Nat}
    (hadm : s.Admits (.pop n)) :
    ∃ s' ks' q', s.call (.pop n) = .ok s' ∧ Flowing s' r head tail start ks' q' := by
  obtain ⟨⟨acc, ops⟩, hpop⟩ : ∃ res, s.acc.pop s.session.heap n = .ok res := by
    have hsome := hf.placed.isSome
    have hbytes := hf.bytesAvailable
    have hn : n ≤ ((BufferAccumulator.orDummy q).headD .null).length := by
      rw [← hf.queue]
      exact hadm
    cases q with
    | nil =>
        have hzero : n = 0 := Nat.le_zero.mp hn
        exact BufferAccumulator.pop_ok hf.queue (by omega) (by omega) (.inl rfl)
          fun c hc => by cases hc
    | cons c q =>
        have hc : n ≤ c.length := hn
        rw [BufferAccumulator.total_cons] at hbytes
        exact BufferAccumulator.pop_ok hf.queue hc (by omega) (.inr (hsome c List.mem_cons_self))
          fun d hd => hsome d (List.mem_cons_of_mem c hd)
  obtain ⟨ks', q', hsuffix, hqueue, hplaced, hpool, havailable, htotal⟩ :=
    pop_placed hf.queue hf.inPoolBuffer hf.placed hf.buffer hf.start_step hpop
  have hbalance := hf.balance
  have hbytes := hf.bytesAvailable
  refine ⟨{ s with
    session := Feed.touch s.session ops, acc := acc, popped := s.popped + n }, ks', q', ?_, ?_⟩
  · simp only [Feed.call, hpop]
    rfl
  · exact {
      handouts := hf.handouts.touch ops
      queue := hqueue
      placed := hplaced
      held := fun k hk => hf.held k (hsuffix.subset hk)
      steps := suffix_snoc hf.steps hsuffix
      reached := hf.reached
      balance := by
        show s.popped + n + _ = s.produced.length
        omega
      bytesAvailable := by
        show acc.bytesAvailable = _
        omega
      inPoolBuffer := hpool
      cells := by
        have hdrop := congrArg (List.drop n) hf.cells
        rw [readCyclic_drop, List.drop_drop, Nat.add_assoc, htotal, Nat.add_sub_cancel_left] at hdrop
        exact hdrop }

/-- **A managed buffer that comes back keeps the invariant.** -/
theorem Flowing.release (hf : Flowing s r head tail start ks q) {mb : ManagedBuffer}
    (hadm : s.Admits (.release mb)) :
    ∃ s' tail', s.call (.release mb) = .ok s' ∧ Flowing s' r head tail' start ks q := by
  obtain ⟨hmem, hclear⟩ := hadm
  obtain ⟨m', h', tail', hpush, hh', htail, hlent, hbytes⟩ := hf.handouts.push hmem
  have hother : ∀ k ∈ ks, r.ident k ≠ mb := by
    intro k hk he
    obtain ⟨c, hc, hmb⟩ := hf.placed.mem k hk
    refine hclear c ?_ (he ▸ hmb)
    rw [hf.queue, BufferAccumulator.orDummy, if_neg (List.ne_nil_of_mem hc)]
    exact hc
  refine ⟨{ s with session := s.session.record m' h' (.push mb) }, tail', ?_, ?_⟩
  · simp only [Feed.call, hpush]
    rfl
  · exact { hf with
      handouts := hh'
      held := fun k hk => (hf.held k hk).imp (fun hl => (hlent k).mpr ⟨hl, hother k hk⟩)
        (And.imp_right fun hlt => hlt.trans_le htail)
      reached := hf.reached.trans (congrArg (start head + ·) hbytes.symm) }

/-- **One event.** -/
theorem Flowing.step (hf : Flowing s r head tail start ks q) {e : FeedEvent}
    (hstep : s.step e = some s') :
    ∃ head' tail' start' ks' q', Flowing s' r head' tail' start' ks' q' := by
  obtain ⟨hadm, hcall⟩ := Feed.step_inv hstep
  cases e with
  | post data =>
      obtain ⟨t, head', start', ks', q', ht, hf'⟩ := hf.post hadm
      obtain rfl : t = s' := Except.ok.inj (ht.symm.trans hcall)
      exact ⟨head', tail, start', ks', q', hf'⟩
  | pop n =>
      obtain ⟨t, ks', q', ht, hf'⟩ := hf.pop hadm
      obtain rfl : t = s' := Except.ok.inj (ht.symm.trans hcall)
      exact ⟨head, tail, start, ks', q', hf'⟩
  | release mb =>
      obtain ⟨t, tail', ht, hf'⟩ := hf.release hadm
      obtain rfl : t = s' := Except.ok.inj (ht.symm.trans hcall)
      exact ⟨head, tail', start, ks, q, hf'⟩

/-- Every admissible event returns. -/
theorem Flowing.returns (hf : Flowing s r head tail start ks q) {e : FeedEvent}
    (hadm : s.Admits e) : ∃ t, s.call e = .ok t := by
  cases e with
  | post data =>
      obtain ⟨t, -, -, -, -, ht, -⟩ := hf.post hadm
      exact ⟨t, ht⟩
  | pop n =>
      obtain ⟨t, -, -, ht, -⟩ := hf.pop hadm
      exact ⟨t, ht⟩
  | release mb =>
      obtain ⟨t, -, ht, -⟩ := hf.release hadm
      exact ⟨t, ht⟩

end

/-! ### What the consumer sees -/

/-- What a consumer of a feed may rely on. -/
structure Delivers (r : Ring) (s : Feed) : Prop where
  /-- Every chunk of the queue lies inside the double mapping. -/
  inside : ∀ c ∈ s.acc.queue, c.isSome = true → r.circBuff.address ≤ c.address ∧
    c.getEnd ≤ r.circBuff.address + 2 * r.circBuff.length
  /-- The front shows the bytes that are next, in production order. -/
  reads : readCyclic r.circBuff.length s.cells s.acc.front.address s.acc.front.length =
    (s.produced.drop s.popped).take s.acc.front.length
  /-- No byte gets lost on the way. -/
  available : s.popped + s.acc.bytesAvailable = s.produced.length
  /-- No event throws. -/
  returns : ∀ e, s.Admits e → ∃ t, s.call e = .ok t

section
variable {s : Feed} {r : Ring} {head tail : Nat} {start : Nat → Nat} {ks : List Nat}
  {q : List BufferChunk}

/-- The producer is at most a turn ahead of a window that is held. -/
theorem Flowing.ahead (hf : Flowing s r head tail start ks q) :
    ∀ k ∈ ks, s.produced.length ≤ start k + r.circBuff.length := by
  intro k hk
  have hreached := hf.reached
  have hbytes := hf.handouts.windows.bytesToPop
  rcases Nat.lt_or_eq_of_le hf.handouts.windows.stock.head_le with hlt | heq
  · have := hf.turn hlt k hk
    omega
  · have hzero := (hf.handouts.windows.idle heq).2
    have hspan := hf.handouts.windows.start_span (hf.held k hk).le
    have hcount : (head - k) * r.bufferSize ≤ r.circBuff.length := by
      refine (Nat.mul_le_mul_right _ ?_).trans r.fits
      rcases hf.held k hk with hlent | ⟨-, hlt⟩
      · have := hlent.2.1
        omega
      · exact absurd heq hlt.ne
    omega

/-- A chunk starts behind its window's start in the first mapping, and ends at most
a turn behind it. -/
theorem Flowing.inside (hf : Flowing s r head tail start ks q) : ∀ c ∈ q,
    r.circBuff.address ≤ c.address ∧ c.getEnd ≤ r.circBuff.address + 2 * r.circBuff.length := by
  intro c hc
  obtain ⟨k, hk, p, hstart, hend, haddr⟩ := hf.placed.bounds c hc
  have hahead := hf.ahead k hk
  have hbalance := hf.balance
  have hfirst : r.circBuff.address ≤ r.addressAt (start k) := Nat.le_add_right _ _
  have hlast : r.addressAt (start k) ≤ r.circBuff.address + r.circBuff.length := by
    by_cases hL : r.circBuff.length = 0
    · rw [Ring.addressAt, hL, Nat.mod_zero]
      have := hf.handouts.windows.start_le (hf.held k hk).le
      have := hf.handouts.windows.start_eq_zero hL
      omega
    · exact Nat.add_le_add_left (Nat.mod_lt _ (Nat.pos_of_ne_zero hL)).le _
  refine ⟨by omega, ?_⟩
  show c.address + c.length ≤ _
  omega

/-- The front is at the consumer's position. -/
theorem Flowing.reads (hf : Flowing s r head tail start ks q) :
    readCyclic r.circBuff.length s.cells s.acc.front.address s.acc.front.length =
      (s.produced.drop s.popped).take s.acc.front.length := by
  have hplaced := hf.placed
  have hcells := hf.cells
  cases q with
  | nil =>
      have hfront : s.acc.front = .null := by
        rw [BufferAccumulator.front, hf.queue]
        rfl
      rw [hfront]
      rfl
  | cons c q =>
      have hfront : s.acc.front = c := by
        rw [BufferAccumulator.front, hf.queue]
        rfl
      cases ks with
      | nil => cases hplaced
      | cons k ks =>
          obtain ⟨⟨-, -, hstart, haddr⟩, -⟩ := hplaced
          rw [hfront, ← hcells, BufferAccumulator.total_cons,
            readCyclic_take _ _ _ _ (Nat.le_add_right _ _)]
          refine readCyclic_congr _ ?_ _
          rw [haddr, Nat.ModEq, r.addressAt_add_mod, Nat.add_sub_cancel' hstart]

theorem Flowing.delivers (hf : Flowing s r head tail start ks q) : Delivers r s where
  inside := fun c hc hsome => by
    refine hf.inside c ?_
    rw [hf.queue, BufferAccumulator.orDummy] at hc
    split at hc
    · rw [List.mem_singleton.mp hc] at hsome
      cases hsome
    · exact hc
  reads := hf.reads
  available := by rw [hf.bytesAvailable, hf.balance]
  returns := fun _ hadm => hf.returns hadm

end

/-- **A circular manager and an accumulator compose.** A producer that posts parts
of the front in order, and a consumer that pops what the front of the accumulator
has, agree on the stream, whatever the lag with which managed buffers come back. -/
theorem feed_delivers (r : Ring) (h : Heap) (cells : Nat → UInt8) :
    ∃ m h', init ⟨r.numBuffers, r.bufferSize⟩ r.circBuff r.first h = .ok (m, h') ∧
      ∀ es s, Exec (ofPartial Feed.step) (Feed.start h' m cells) es s → Delivers r s := by
  obtain ⟨m, h', hinit, hw, hlinked, hslabbed, hzero⟩ := init_spec r h
  refine ⟨m, h', hinit, fun es s hrun => ?_⟩
  have hinv : ∃ head tail start ks q, Flowing s r head tail start ks q := by
    refine hrun.invariant (P := fun s => ∃ head tail start ks q, Flowing s r head tail start ks q)
      ?_ ⟨0, _, _, [], [], .start cells hw hlinked hslabbed hzero⟩
    intro s e s' hs hstep
    obtain ⟨head, tail, start, ks, q, hf⟩ := hs
    exact hf.step hstep
  obtain ⟨head, tail, start, ks, q, hf⟩ := hinv
  exact hf.delivers

/-- Two windows of eight bytes: the second turn starts at address 29 of `[16, 48)`,
and is joined across the end of the first mapping. -/
theorem feed_delivers_across_wrap :
    ∃ r : Ring, ∃ m h' s,
      init ⟨2, 8⟩ ⟨16, 16, 32⟩ 0 .empty = .ok (m, h') ∧
        Exec (ofPartial Feed.step) (Feed.start h' m fun _ => 0)
          [.post [0, 1, 2, 3, 4], .post [5, 6, 7, 8, 9, 10, 11, 12], .pop 13, .release 1,
            .release 0, .post [13, 14, 15, 16, 17, 18, 19, 20], .post [21, 22, 23, 24, 25, 26, 27]] s ∧
        (s.acc.front.address, s.acc.front.length) = (29, 15) ∧ Delivers r s := by
  let r : Ring := ⟨⟨2, 0, by decide⟩, ⟨16, 16, 32⟩, 8, rfl, by decide⟩
  let es : List FeedEvent := [.post [0, 1, 2, 3, 4], .post [5, 6, 7, 8, 9, 10, 11, 12], .pop 13,
    .release 1, .release 0, .post [13, 14, 15, 16, 17, 18, 19, 20],
    .post [21, 22, 23, 24, 25, 26, 27]]
  obtain ⟨m, h', hinit, hdelivers⟩ := feed_delivers r .empty fun _ => 0
  have hrun : ((init ⟨2, 8⟩ ⟨16, 16, 32⟩ 0 .empty).toOption.bind fun i =>
      (runPartial Feed.step (Feed.start i.2 i.1 fun _ => 0) es).map fun s =>
        (s.acc.front.address, s.acc.front.length)) = some (29, 15) := by decide +kernel
  rw [show init ⟨2, 8⟩ ⟨16, 16, 32⟩ 0 .empty = .ok (m, h') from hinit] at hrun
  obtain ⟨s, hs, hfront⟩ := Option.map_eq_some_iff.mp hrun
  have hexec := exec_of_runPartial hs
  exact ⟨r, m, h', s, hinit, hexec, hfront, hdelivers es s hexec⟩

end CircularBufferManager

end PothosCore.Framework

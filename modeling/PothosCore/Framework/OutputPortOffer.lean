import PothosCore.Framework.Builtin.CircularRotation
import PothosCore.Framework.Builtin.GenericRotation
import PothosCore.Framework.OutputPortUse

/-!
# PothosCore.Framework.OutputPortOffer

What holds of an output port in use whatever was called: what is left of the offer of
`preWorkTasks`, and who has which bytes. The chunks that `getBuffer` returned, the space
in `_buffer`, the front of the manager and the buffers of the pool have no byte in common
while the chunks are held.
-/

namespace PothosCore.Framework

open PothosCore.Lib

/-- The chunk has no address of the buffer. -/
def BufferChunk.Misses (c : BufferChunk) (b : SharedBuffer) : Prop :=
  ∀ x, c.Covers x → x < b.address ∨ b.getEnd ≤ x

theorem BufferChunk.misses_of_apart {c : BufferChunk} {b : SharedBuffer} (h : c.range.Apart b) : c.Misses b := by
  intro x hx
  rcases h with h | h
  · exact .inl (hx.2.trans_le h)
  · exact .inr (h.trans hx.1)

theorem BufferChunk.not_covers {c : BufferChunk} (h : c.length = 0) (x : Nat) : ¬ c.Covers x := by
  intro hx
  unfold BufferChunk.Covers BufferChunk.getEnd at hx
  omega

/-- The bytes of the chunk are bytes of the other. -/
theorem BufferChunk.covers_shorter {c : BufferChunk} {n x : Nat} (hn : n ≤ c.length)
    (hx : BufferChunk.Covers { c with length := n } x) : c.Covers x := by
  unfold BufferChunk.Covers BufferChunk.getEnd at hx ⊢
  dsimp only at hx
  omega

/-- Outside of a buffer no address is mapped. -/
theorem SharedBuffer.Clear.not_maps {a b : SharedBuffer} (h : a.Clear b) {x : Nat} (hx : b.address ≤ x)
    (hx' : x < b.getEnd) : ¬ a.Maps x := by
  intro hmaps
  unfold SharedBuffer.Clear at h
  unfold SharedBuffer.Maps at hmaps
  omega

namespace PortUse

section
variable {M : Type} [PartialManager M] (rot : Rotation M)

/-- The chunks share no byte. -/
def Disjoint (c d : BufferChunk) : Prop := ∀ x y, c.Covers x → d.Covers y → ¬ rot.Same x y

/-- The buffer is in its memory, either what is left of the manager's front buffer or
outside of the manager's memory. -/
structure Lies (w : PortUse M) (buffer : BufferChunk) (fromManager : Bool) : Prop where
  isSome : buffer.isSome = true
  length : buffer.length < 2 ^ 64
  address : (buffer.getBuffer (w.heapOf fromManager)).address ≤ buffer.address
  getEnd : buffer.getEnd ≤ (buffer.getBuffer (w.heapOf fromManager)).getEnd
  past : fromManager = true → ∀ mb ∈ buffer.managedBuffer, rot.Past w.session ⟨mb, buffer.address, 0⟩ ∧
    buffer.getEnd = (w.session.heap.impl mb).buffer.getEnd
  maps : fromManager = true → ∀ x, buffer.Covers x → rot.memory.Maps x
  outside : fromManager = false → ∀ x, buffer.Covers x → ¬ rot.memory.Maps x

/-- What `preWorkTasks` offered, in the middle of `work`. -/
structure Offering (w : PortUse M) : Prop where
  elements : w.port.elements = w.offered.length / w.port.dtype.sizeT
  pos : 0 < w.port.elements
  dtype : w.offered.dtype = w.port.dtype
  isSome : w.offered.isSome = true
  length : w.offered.length < 2 ^ 64
  pending : w.port.pendingElements = w.produced % 2 ^ 64
  /-- `_buffer` was moved out by `getBuffer`, or is still what was offered. -/
  buffer : w.port.buffer = { BufferChunk.null with dtype := w.port.dtype } ∨
    (w.port.buffer = w.offered ∧ Lies rot w w.offered w.port.bufferFromManager)

/-- The manager does not offer the bytes of a chunk that is held. -/
structure Secure (w : PortUse M) (r : Returned) : Prop where
  past : r.origin = .manager → ∀ mb ∈ r.chunk.managedBuffer,
    rot.Past w.session ⟨mb, r.chunk.address, r.chunk.length⟩ ∧
      r.chunk.getEnd ≤ (w.session.heap.impl mb).buffer.getEnd
  bare : r.origin = .manager → r.chunk.managedBuffer = none → r.chunk.length = 0
  outside : r.origin ≠ .manager → ∀ x, r.chunk.Covers x → ¬ rot.memory.Maps x
  misses : r.origin ≠ .pool → ∀ mb ∈ w.poolRefs, r.chunk.Misses (w.heap.impl mb).buffer

/-- The invariant of a port in use. -/
structure Kept (w : PortUse M) : Prop where
  inv : rot.Inv w.session
  memory : w.memory = rot.memory
  working : w.working = true → Offering rot w
  supplied : w.pool.Supplied w.heap (pooled w.held)
  clear : ∀ mb ∈ w.poolRefs, rot.memory.Clear (w.heap.impl mb).buffer
  held : ∀ r ∈ w.held, Secure rot w r
  free : ∀ r ∈ w.held, Disjoint rot r.chunk w.port.buffer
  misses : ∀ mb ∈ w.poolRefs, w.port.buffer.Misses (w.heap.impl mb).buffer

end

section
variable {M : Type} [PartialManager M] {rot : Rotation M} {w w' : PortUse M}

theorem kept_start {manager : Session M} (hinv : rot.Inv manager) (dtype : DType) (readBeforeWrite : Bool)
    (heap inputs : Heap) : Kept rot (bufferManagerSetup manager rot.memory dtype readBeforeWrite heap inputs) where
  inv := hinv
  memory := rfl
  working := fun h => by cases h
  supplied := .make heap
  clear := fun mb hmb => by cases hmb
  held := fun r hr => by cases hr
  free := fun r hr => by cases hr
  misses := fun mb hmb => by cases hmb

/-- Addresses outside of the memory of the manager are bytes of their own. -/
theorem disjoint_outside {c d : BufferChunk} (hc : ∀ x, c.Covers x → ¬ rot.memory.Maps x)
    (hcd : ∀ x, c.Covers x → ¬ d.Covers x) : Disjoint rot c d := by
  intro x y hx hy hsame
  rcases rot.same_maps hsame with rfl | ⟨hmaps, -⟩
  · exact hcd x hx hy
  · exact hc x hx hmaps

/-- **A chunk that is held has no byte of the front.** -/
theorem Kept.disjoint_front (hw : Kept rot w) {r : Returned} (hr : r ∈ w.held)
    (hne : BufferManager.empty w.session.mgr = false) : Disjoint rot r.chunk w.session.front := by
  have hsecure := hw.held r hr
  by_cases horigin : r.origin = .manager
  · intro x y hx hy
    cases hmb : r.chunk.managedBuffer with
    | none => exact absurd hx (BufferChunk.not_covers (hsecure.bare horigin hmb) x)
    | some mb =>
        obtain ⟨hpast, hend⟩ := hsecure.past horigin mb hmb
        exact rot.apart hw.inv hpast hend hne hx.1 hx.2 hy
  · refine disjoint_outside (hsecure.outside horigin) fun x hx hy => ?_
    exact hsecure.outside horigin x hx (rot.mapped hw.inv hne hy)

/-- A buffer of the pool has no byte of the front. -/
theorem Kept.misses_front (hw : Kept rot w) (hne : BufferManager.empty w.session.mgr = false)
    {mb : ManagedBuffer} (hmb : mb ∈ w.poolRefs) : w.session.front.Misses (w.heap.impl mb).buffer := by
  intro x hx
  by_contra hin
  have hin : (w.heap.impl mb).buffer.address ≤ x ∧ x < (w.heap.impl mb).buffer.getEnd := by omega
  exact (hw.clear mb hmb).not_maps hin.1 hin.2 (rot.mapped hw.inv hne hx)

/-! ### The manager moves on -/

theorem getBuffer_some {h : Heap} {c : BufferChunk} {mb : ManagedBuffer} (hmb : c.managedBuffer = some mb) :
    c.getBuffer h = (h.impl mb).buffer := by
  rw [BufferChunk.getBuffer, hmb]
  rfl

/-- The manager in use goes on to `s`, and buffers in use stay what they are. -/
theorem Lies.advance {c : BufferChunk} {fromManager : Bool} (hc : Lies rot w c fromManager) {s : Session M}
    (hpast : fromManager = true → ∀ mb ∈ c.managedBuffer, rot.Past w.session ⟨mb, c.address, 0⟩ →
      rot.Past s ⟨mb, c.address, 0⟩ ∧
        (s.heap.impl mb).buffer.address = (w.session.heap.impl mb).buffer.address ∧
        (s.heap.impl mb).buffer.length = (w.session.heap.impl mb).buffer.length) :
    Lies rot { w with port := { w.port with bufferManager := s } } c fromManager := by
  obtain ⟨mb, hmb⟩ := Option.isSome_iff_exists.mp hc.isSome
  have haddress := hc.address
  have hgetEnd := hc.getEnd
  cases fromManager with
  | false => exact ⟨hc.isSome, hc.length, haddress, hgetEnd, fun h => (by cases h), hc.maps, hc.outside⟩
  | true =>
      obtain ⟨hoff, hend⟩ := hc.past rfl mb hmb
      obtain ⟨hoff', haddr, hlen⟩ := hpast rfl mb hmb hoff
      have hsame : (s.heap.impl mb).buffer.getEnd = (w.session.heap.impl mb).buffer.getEnd := by
        rw [SharedBuffer.getEnd, SharedBuffer.getEnd, haddr, hlen]
      simp only [heapOf, if_true, getBuffer_some hmb] at haddress hgetEnd
      refine ⟨hc.isSome, hc.length, ?_, ?_, fun _ mb' hmb' => ?_, hc.maps, hc.outside⟩
      · simp only [heapOf, if_true, getBuffer_some hmb, session]
        rw [haddr]
        exact haddress
      · simp only [heapOf, if_true, getBuffer_some hmb, session]
        rw [hsame]
        exact hgetEnd
      · obtain rfl : mb = mb' := Option.some.inj (hmb.symm.trans hmb')
        exact ⟨hoff', hend.trans hsame.symm⟩

/-- The manager in use goes on to `s`, past what it was past. -/
theorem Kept.advance (hw : Kept rot w) {s : Session M} (hinv : rot.Inv s)
    (hpast : ∀ e, rot.Past w.session e → w.Refers e.mb → rot.Past s e ∧
      (s.heap.impl e.mb).buffer.address = (w.session.heap.impl e.mb).buffer.address ∧
      (s.heap.impl e.mb).buffer.length = (w.session.heap.impl e.mb).buffer.length) :
    Kept rot { w with port := { w.port with bufferManager := s } } where
  inv := hinv
  memory := hw.memory
  working := fun hworking => by
    have ho := hw.working hworking
    refine ⟨ho.elements, ho.pos, ho.dtype, ho.isSome, ho.length, ho.pending, ho.buffer.imp_right fun hp => ⟨hp.1, ?_⟩⟩
    refine hp.2.advance fun hfrom mb hmb hoff => hpast _ hoff (.inl ⟨hfrom, ?_⟩)
    rw [hp.1]
    exact hmb
  supplied := hw.supplied
  clear := hw.clear
  held := fun r hr => by
    have hsecure := hw.held r hr
    refine ⟨fun horigin mb hmb => ?_, hsecure.bare, hsecure.outside, hsecure.misses⟩
    obtain ⟨hold, hend⟩ := hsecure.past horigin mb hmb
    obtain ⟨hnew, haddr, hlen⟩ := hpast _ hold (.inr ⟨r, hr, horigin, hmb⟩)
    refine ⟨hnew, ?_⟩
    show r.chunk.getEnd ≤ (s.heap.impl mb).buffer.getEnd
    rw [SharedBuffer.getEnd, haddr, hlen]
    exact hend
  free := hw.free
  misses := hw.misses

/-- What `bufferManagerPop` left. -/
theorem bufferManagerPop_inv {n : Nat} (h : w.bufferManagerPop n = .ok w') :
    ∃ s, w.session.pop n = .ok s ∧ w' = { w with port := { w.port with bufferManager := s } } := by
  obtain ⟨s, hpop, hok⟩ := bind_ok h
  exact ⟨s, hpop, (Except.ok.inj hok).symm⟩

theorem Kept.pop (hw : Kept rot w) {n : Nat} (h : w.bufferManagerPop n = .ok w') : Kept rot w' := by
  obtain ⟨s, hpop, rfl⟩ := bufferManagerPop_inv h
  refine hw.advance (rot.pop_inv hw.inv hpop) fun e he _ => ?_
  obtain ⟨hpast, hbuffer⟩ := rot.past_pop hw.inv he hpop
  have hshort := rot.past_shorter (n := e.length) hpast (Nat.le_add_right _ _)
  exact ⟨hshort, hbuffer⟩

theorem Kept.push (hw : Kept rot w) {mb : ManagedBuffer} (hmb : mb ∈ w.session.out) (hrefers : ¬ w.Refers mb)
    (h : w.call (.push mb) = .ok w') : Kept rot w' := by
  obtain ⟨⟨mgr, heap⟩, hcall, hok⟩ := bind_ok h
  obtain rfl := Except.ok.inj hok
  have hstep : w.session.step (.push mb) = some (w.session.record mgr heap (.push mb)) := by
    have hadm : w.session.Admits (.push mb) := hmb
    rw [Session.step, if_pos hadm, hcall]
  refine hw.advance (rot.push_inv hw.inv hstep) fun e he hkept => ?_
  exact rot.past_push hw.inv he hstep fun heq => hrefers (heq ▸ hkept)

/-! ### The offer -/

/-- A buffer that may be written to may be offered. -/
theorem Lends.lies (hw : Kept rot w) {c : BufferChunk} (hc : w.Lends c) : Lies rot w c false := by
  obtain ⟨-, hsome, hlength, haddress, hgetEnd, hclear, -⟩ := hc
  rw [hw.memory] at hclear
  exact ⟨hsome, hlength, haddress, hgetEnd, fun h => (by cases h), fun h => (by cases h),
    fun _ x hx => hclear.not_maps hx.1 hx.2⟩

/-- So may the front of the manager. -/
theorem Kept.lies_front (hw : Kept rot w) (hsize : rot.bufferSize < 2 ^ 64)
    (hne : BufferManager.empty w.session.mgr = false) : Lies rot w (w.session.front.copy w.session.heap) true := by
  obtain ⟨mb, hmb, -, hlen, -⟩ := rot.consistent hw.inv hne
  have hbuffer : (w.session.front.copy w.session.heap).getBuffer (w.heapOf true) =
      (w.session.heap.impl mb).buffer := getBuffer_some hmb
  have hend := rot.front_getEnd hw.inv hne hmb
  rw [rot.bufferSize_eq hw.inv] at hlen
  refine ⟨?_, ?_, ?_, ?_, fun _ mb' hmb' => ?_, fun _ x hx => rot.mapped hw.inv hne hx, fun h => by cases h⟩
  · rw [BufferChunk.isSome, BufferChunk.copy_managedBuffer, hmb]
    rfl
  · rw [BufferChunk.copy_length]
    omega
  · rw [hbuffer]
    exact rot.address_le_front hw.inv hne hmb
  · rw [hbuffer]
    exact hend.le
  · obtain rfl : mb = mb' := Option.some.inj (hmb.symm.trans hmb')
    exact ⟨rot.past_front hw.inv hne hmb, hend⟩

theorem disjoint_null {c d : BufferChunk} (hd : d.length = 0) : Disjoint rot c d :=
  fun _ y _ hy => absurd hy (BufferChunk.not_covers hd y)

theorem misses_null {c : BufferChunk} (hc : c.length = 0) (b : SharedBuffer) : c.Misses b :=
  fun x hx => absurd hx (BufferChunk.not_covers hc x)

/-- What is provided to the port, if it is not null, may be offered, and nobody else has a
byte of it. -/
theorem Kept.provide (hw : Kept rot w) (hsize : rot.bufferSize < 2 ^ 64) {input : Option BufferChunk}
    (hlends : ∀ buffer ∈ input, w.Lends buffer) {c : BufferChunk} {fromManager : Bool}
    (hprovide : w.provide input = (c, fromManager)) :
    (c = .null ∨ Lies rot w c fromManager) ∧ (∀ r ∈ w.held, Disjoint rot r.chunk c) ∧
      ∀ mb ∈ w.poolRefs, c.Misses (w.heap.impl mb).buffer := by
  cases input with
  | some buffer =>
      obtain ⟨rfl, rfl⟩ : buffer = c ∧ false = fromManager := Prod.mk.inj hprovide
      have hlend := hlends buffer rfl
      have hlies := Lends.lies hw hlend
      obtain ⟨-, -, -, -, -, -, hpool, hheld⟩ := hlend
      refine ⟨.inr hlies, fun r hr x y hx hy hsame => ?_, fun mb hmb => ?_⟩
      · rcases rot.same_maps hsame with rfl | ⟨-, hmaps⟩
        · have hapart := BufferChunk.misses_of_apart (hheld r hr) x hx
          have hy' : buffer.range.address ≤ x ∧ x < buffer.range.getEnd := hy
          omega
        · exact hlies.outside rfl y hy hmaps
      · exact BufferChunk.misses_of_apart (hpool mb hmb).symm
  | none =>
      unfold PortUse.provide at hprovide
      dsimp only at hprovide
      cases hempty : BufferManager.empty w.session.mgr with
      | true =>
          rw [hempty, if_pos rfl] at hprovide
          obtain ⟨rfl, rfl⟩ := Prod.mk.inj hprovide
          exact ⟨.inl rfl, fun r _ => disjoint_null rfl, fun mb _ => misses_null rfl _⟩
      | false =>
          rw [hempty, if_neg Bool.false_ne_true] at hprovide
          obtain ⟨rfl, rfl⟩ := Prod.mk.inj hprovide
          exact ⟨.inr (hw.lies_front hsize hempty), fun r hr => hw.disjoint_front hr hempty,
            fun mb hmb => hw.misses_front hempty hmb⟩

theorem Kept.preWork (hw : Kept rot w) (hsize : rot.bufferSize < 2 ^ 64) {input : Option BufferChunk}
    (hlends : ∀ buffer ∈ input, w.Lends buffer) : Kept rot (w.preWork input) := by
  rcases hprovide : w.provide input with ⟨c, fromManager⟩
  obtain ⟨hlies, hfree, hmisses⟩ := hw.provide hsize hlends hprovide
  unfold PortUse.preWork
  rw [hprovide]
  refine ⟨hw.inv, hw.memory, fun hworking => ?_, hw.supplied, hw.clear, fun r hr => ?_, hfree, hmisses⟩
  · have helements : { c with dtype := w.port.dtype }.elements ≠ 0 := of_decide_eq_true hworking
    have hlies : Lies rot w c fromManager := by
      rcases hlies with rfl | hlies
      · exact absurd (Nat.zero_div _) helements
      · exact hlies
    refine ⟨rfl, Nat.pos_of_ne_zero helements, rfl, hlies.isSome, hlies.length, if_neg helements, .inr ⟨rfl, ?_⟩⟩
    exact ⟨hlies.isSome, hlies.length, hlies.address, hlies.getEnd, hlies.past, hlies.maps, hlies.outside⟩
  · have hsecure := hw.held r hr
    exact ⟨hsecure.past, hsecure.bare, hsecure.outside, hsecure.misses⟩

/-! ### The calls of the block -/

/-- The invariant does not read these fields. -/
theorem Kept.congr (hw : Kept rot w) (pendingElements reserveElements workEvents : Nat)
    (postedBuffers : List BufferChunk) (produced : Nat)
    (hpending : w.working = true → pendingElements = produced % 2 ^ 64) :
    Kept rot { w with
      port := { w.port with
        pendingElements := pendingElements
        reserveElements := reserveElements
        workEvents := workEvents
        postedBuffers := postedBuffers }
      produced := produced } := by
  refine ⟨hw.inv, hw.memory, fun hworking => ?_, hw.supplied, hw.clear, fun r hr => ?_, hw.free, hw.misses⟩
  · have ho := hw.working hworking
    refine ⟨ho.elements, ho.pos, ho.dtype, ho.isSome, ho.length, hpending hworking, ?_⟩
    refine ho.buffer.imp_right fun hp => ⟨hp.1, ?_⟩
    exact ⟨hp.2.isSome, hp.2.length, hp.2.address, hp.2.getEnd, hp.2.past, hp.2.maps, hp.2.outside⟩
  · have hsecure := hw.held r hr
    exact ⟨hsecure.past, hsecure.bare, hsecure.outside, hsecure.misses⟩

theorem Kept.popElements (hw : Kept rot w) {n : Nat} (h : w.popElements n = .ok w') : Kept rot w' := by
  obtain ⟨w₁, hpop, hok⟩ := bind_ok h
  obtain rfl := Except.ok.inj hok
  have hw₁ := hw.pop hpop
  exact hw₁.congr _ _ _ _ _ fun hworking => (hw₁.working hworking).pending

theorem Kept.produce (hw : Kept rot w) (n : Nat) : Kept rot (w.produce n) := by
  refine hw.congr _ _ _ _ _ fun hworking => ?_
  rw [(hw.working hworking).pending, SizeT.add, Nat.mod_add_mod]

theorem Kept.setReserve (hw : Kept rot w) (n : Nat) : Kept rot (w.setReserve n) :=
  hw.congr _ _ _ _ _ fun hworking => (hw.working hworking).pending

theorem Kept.postBuffer (hw : Kept rot w) (c : BufferChunk) : Kept rot (w.postBuffer c) :=
  hw.congr _ _ _ _ _ fun hworking => (hw.working hworking).pending

theorem Kept.finish (hw : Kept rot w) : Kept rot w.finish where
  inv := hw.inv
  memory := hw.memory
  working := fun h => by cases h
  supplied := hw.supplied
  clear := hw.clear
  held := fun r hr => ⟨(hw.held r hr).past, (hw.held r hr).bare, (hw.held r hr).outside, (hw.held r hr).misses⟩
  free := fun r _ => disjoint_null rfl
  misses := fun mb _ => misses_null rfl _

/-- `postWorkTasks` pops, or does not, posts, and clears `_buffer`. -/
theorem postWork_inv {r : Posted} (h : w.postWork = .ok (r, w')) :
    ∃ w₁, (w₁ = w ∨ ∃ n, w.bufferManagerPop n = .ok w₁) ∧
      (w' = w₁.finish ∨ ∃ buffer, w' = (w₁.postBuffer buffer).finish) := by
  unfold postWork at h
  split at h
  · obtain ⟨w₁, hpop, hok⟩ := bind_ok h
    obtain ⟨-, rfl⟩ := Prod.mk.inj (Except.ok.inj hok)
    refine ⟨w₁, ?_, .inr ⟨_, rfl⟩⟩
    unfold popProduced at hpop
    cases hproduced : w.producedPop with
    | none =>
        rw [hproduced] at hpop
        exact .inl (Except.ok.inj hpop).symm
    | some n =>
        rw [hproduced] at hpop
        exact .inr ⟨n, hpop⟩
  · obtain ⟨w₁, hpop, hok⟩ := bind_ok h
    obtain ⟨-, rfl⟩ := Prod.mk.inj (Except.ok.inj hok)
    refine ⟨w₁, ?_, .inl rfl⟩
    unfold popReserve at hpop
    split at hpop
    · exact .inr ⟨_, hpop⟩
    · exact .inl (Except.ok.inj hpop).symm

theorem Kept.postWork (hw : Kept rot w) {r : Posted} (h : w.postWork = .ok (r, w')) : Kept rot w' := by
  obtain ⟨w₁, hpop, hfinish⟩ := postWork_inv h
  have hw₁ : Kept rot w₁ := by
    rcases hpop with rfl | ⟨n, hpop⟩
    · exact hw
    · exact hw.pop hpop
  rcases hfinish with rfl | ⟨buffer, rfl⟩
  · exact hw₁.finish
  · exact (hw₁.postBuffer buffer).finish

/-! ### `getBuffer` -/

theorem pooled_append_other (held : List Returned) {r : Returned} (hpool : r.origin ≠ .pool) :
    pooled (held ++ [r]) = pooled held := by
  unfold pooled
  rw [List.filter_append, List.filter_singleton, decide_eq_false hpool]
  exact congrArg _ (List.append_nil _)

theorem pooled_append_pool (held : List Returned) {r : Returned} (hpool : r.origin = .pool) :
    pooled (held ++ [r]) = pooled held ++ [r.chunk] := by
  unfold pooled
  rw [List.filter_append, List.filter_singleton, decide_eq_true hpool, List.map_append]
  rfl

/-- `_buffer` moves out. -/
theorem Kept.moveOut (hw : Kept rot w) {r : Returned} (hr : Secure rot w r) (hpool : r.origin ≠ .pool)
    (hdtype : w.port.buffer.dtype = w.port.dtype) :
    Kept rot { w with
      port := { w.port with buffer := { BufferChunk.null with dtype := w.port.buffer.dtype } }
      held := w.held ++ [r] } := by
  have hpooled := pooled_append_other w.held hpool
  refine ⟨hw.inv, hw.memory, fun hworking => ?_, ?_, ?_, fun x hx => ?_, fun x _ => disjoint_null rfl,
    fun mb _ => misses_null rfl _⟩
  · have ho := hw.working hworking
    refine ⟨ho.elements, ho.pos, ho.dtype, ho.isSome, ho.length, ho.pending, .inl ?_⟩
    rw [hdtype]
  · show BufferPool.Supplied w.heap w.pool (pooled (w.held ++ [r]))
    rw [hpooled]
    exact hw.supplied
  · show ∀ mb ∈ w.pool.refs w.heap (pooled (w.held ++ [r])), rot.memory.Clear (w.heap.impl mb).buffer
    rw [hpooled]
    exact hw.clear
  · have hx : Secure rot w x := by
      rcases List.mem_append.mp hx with hx | hx
      · exact hw.held x hx
      · obtain rfl := List.mem_singleton.mp hx
        exact hr
    refine ⟨hx.past, hx.bare, hx.outside, ?_⟩
    show x.origin ≠ .pool → ∀ mb ∈ w.pool.refs w.heap (pooled (w.held ++ [r])),
      x.chunk.Misses (w.heap.impl mb).buffer
    rw [hpooled]
    exact hx.misses

/-- The type of `_buffer` is the type of the port, also when it was moved out. -/
theorem Kept.buffer_dtype (hw : Kept rot w) (hworking : w.working = true) :
    w.port.buffer.dtype = w.port.dtype := by
  rcases (hw.working hworking).buffer with hnull | ⟨hbuffer, -⟩
  · rw [hnull]
  · rw [hbuffer]
    exact (hw.working hworking).dtype

/-- What is taken of `_buffer` the manager does not offer again. -/
theorem Kept.secure_front (hw : Kept rot w) (hworking : w.working = true) {n : Nat}
    (hle : n ≤ w.port.buffer.length) {w₁ : PortUse M} (htake : w.takeFront n = .ok w₁) (memory : SharedBuffer) :
    Secure rot w₁ ⟨{ w.port.buffer with length := n }, memory,
      if w.port.bufferFromManager then .manager else .input⟩ := by
  have hmisses : ∀ mb ∈ w.poolRefs,
      BufferChunk.Misses { w.port.buffer with length := n } (w.heap.impl mb).buffer :=
    fun mb hmb x hx => hw.misses mb hmb x (BufferChunk.covers_shorter hle hx)
  have hnull : w.port.buffer = { BufferChunk.null with dtype := w.port.dtype } → n = 0 := by
    intro hnull
    rw [hnull] at hle
    exact Nat.le_zero.mp hle
  unfold takeFront at htake
  cases hfrom : w.port.bufferFromManager with
  | false =>
      rw [hfrom, if_neg Bool.false_ne_true] at htake
      obtain rfl := Except.ok.inj htake
      refine ⟨fun h => (by cases h), fun h => (by cases h), fun _ x hx => ?_, fun _ => hmisses⟩
      rcases (hw.working hworking).buffer with hbuffer | ⟨hbuffer, hlies⟩
      · exact absurd hx (BufferChunk.not_covers (hnull hbuffer) x)
      · have hcovers := BufferChunk.covers_shorter hle hx
        rw [hbuffer] at hcovers
        exact hlies.outside hfrom x hcovers
  | true =>
      rw [hfrom, if_pos rfl] at htake
      obtain ⟨s, hpop, rfl⟩ := bufferManagerPop_inv htake
      refine ⟨fun _ mb hmb => ?_, fun _ hnone => ?_, fun h => absurd rfl h, fun _ => hmisses⟩
      · rcases (hw.working hworking).buffer with hbuffer | ⟨hbuffer, hlies⟩
        · rw [hbuffer] at hmb
          cases hmb
        · have hmb' : w.offered.managedBuffer = some mb := by rw [← hbuffer]; exact hmb
          obtain ⟨hpast, hend⟩ := hlies.past hfrom mb hmb'
          obtain ⟨hpast', haddr, hlen⟩ := rot.past_pop hw.inv hpast hpop
          rw [← hbuffer, Nat.zero_add] at hpast'
          refine ⟨hpast', ?_⟩
          show w.port.buffer.address + n ≤ (s.heap.impl mb).buffer.getEnd
          rw [SharedBuffer.getEnd, haddr, hlen, ← SharedBuffer.getEnd, ← hend, ← hbuffer]
          exact Nat.add_le_add_left hle _
      · rcases (hw.working hworking).buffer with hbuffer | ⟨hbuffer, hlies⟩
        · exact hnull hbuffer
        · have hsome := hlies.isSome
          rw [← hbuffer, BufferChunk.isSome, show w.port.buffer.managedBuffer = none from hnone] at hsome
          cases hsome

/-- `getBuffer` uses the front buffer. -/
theorem getBuffer_front {dtype : DType} {n : Nat} {fresh : Nat × Nat}
    (hle : SizeT.mul n dtype.sizeT ≤ w.port.buffer.length) {r : Returned}
    (h : w.getBuffer dtype n fresh = .ok (r, w')) :
    ∃ w₁, w.takeFront (SizeT.mul n dtype.sizeT) = .ok w₁ ∧
      r = ⟨{ w.port.buffer with length := SizeT.mul n dtype.sizeT }, w.port.buffer.getBuffer w₁.bufferHeap,
        if w.port.bufferFromManager then .manager else .input⟩ ∧
      w' = { w₁ with
        port := { w₁.port with buffer := { BufferChunk.null with dtype := w.port.buffer.dtype } }
        held := w.held ++ [r] } := by
  unfold PortUse.getBuffer at h
  simp only [if_pos hle] at h
  obtain ⟨w₁, htake, hok⟩ := bind_ok h
  obtain ⟨rfl, rfl⟩ := Prod.mk.inj (Except.ok.inj hok)
  exact ⟨w₁, htake, rfl, rfl⟩

theorem takeFront_inv {n : Nat} {w₁ : PortUse M} (htake : w.takeFront n = .ok w₁) :
    w₁ = w ∨ ∃ s, w.session.pop n = .ok s ∧ w₁ = { w with port := { w.port with bufferManager := s } } := by
  unfold takeFront at htake
  split at htake
  · exact .inr (bufferManagerPop_inv htake)
  · exact .inl (Except.ok.inj htake).symm

theorem Kept.takeFront (hw : Kept rot w) {n : Nat} {w₁ : PortUse M} (htake : w.takeFront n = .ok w₁) : Kept rot w₁ := by
  unfold PortUse.takeFront at htake
  split at htake
  · exact hw.pop htake
  · obtain rfl := Except.ok.inj htake
    exact hw

theorem Kept.getBuffer_front (hw : Kept rot w) (hworking : w.working = true) {dtype : DType} {n : Nat}
    {fresh : Nat × Nat} (hle : SizeT.mul n dtype.sizeT ≤ w.port.buffer.length) {r : Returned}
    (h : w.getBuffer dtype n fresh = .ok (r, w')) : Kept rot w' := by
  obtain ⟨w₁, htake, rfl, rfl⟩ := PortUse.getBuffer_front hle h
  have hsecure := hw.secure_front hworking hle htake (w.port.buffer.getBuffer w₁.bufferHeap)
  have hpool : (if w.port.bufferFromManager then Origin.manager else .input) ≠ .pool := by
    cases w.port.bufferFromManager <;> simp
  have hdtype := hw.buffer_dtype hworking
  have hw₁ := hw.takeFront htake
  rcases takeFront_inv htake with rfl | ⟨s, -, rfl⟩
  · exact hw₁.moveOut hsecure hpool hdtype
  · exact hw₁.moveOut hsecure hpool hdtype

/-- The pool and its holders change: the buffers of the pool are where buffers of the pool
were, or where there was room. -/
theorem Kept.repool (hw : Kept rot w) {pool : BufferPool} {heap : Heap} {held : List Returned}
    (hs : pool.Supplied heap (pooled held))
    (hmemory : ∀ mb ∈ pool.refs heap (pooled held),
      (∃ x ∈ w.poolRefs, (heap.impl mb).buffer = (w.heap.impl x).buffer) ∨ w.Room (heap.impl mb).buffer)
    (hheld : ∀ r ∈ held, r ∈ w.held ∨
      (r.origin = .pool ∧ (∀ x, r.chunk.Covers x → ¬ rot.memory.Maps x) ∧ Disjoint rot r.chunk w.port.buffer)) :
    Kept rot { w with pool := pool, heap := heap, held := held } where
  inv := hw.inv
  memory := hw.memory
  working := fun hworking => by
    have ho := hw.working hworking
    refine ⟨ho.elements, ho.pos, ho.dtype, ho.isSome, ho.length, ho.pending, ho.buffer.imp_right fun hp => ⟨hp.1, ?_⟩⟩
    exact ⟨hp.2.isSome, hp.2.length, hp.2.address, hp.2.getEnd, hp.2.past, hp.2.maps, hp.2.outside⟩
  supplied := hs
  clear := fun mb hmb => by
    rcases hmemory mb hmb with ⟨x, hx, hbuffer⟩ | ⟨hclear, -⟩
    · show rot.memory.Clear (heap.impl mb).buffer
      rw [hbuffer]
      exact hw.clear x hx
    · exact hw.memory ▸ hclear
  held := fun r hr => by
    rcases hheld r hr with hr | ⟨horigin, houtside, -⟩
    · have hsecure := hw.held r hr
      refine ⟨hsecure.past, hsecure.bare, hsecure.outside, fun horigin mb hmb => ?_⟩
      show r.chunk.Misses (heap.impl mb).buffer
      rcases hmemory mb hmb with ⟨x, hx, hbuffer⟩ | ⟨-, hroom, -⟩
      · rw [hbuffer]
        exact hsecure.misses horigin x hx
      · exact BufferChunk.misses_of_apart (hroom r hr)
    · refine ⟨fun h => ?_, fun h => ?_, fun _ => houtside, fun h => absurd horigin h⟩
      all_goals rw [horigin] at h; cases h
  free := fun r hr => by
    rcases hheld r hr with hr | ⟨-, -, hfree⟩
    · exact hw.free r hr
    · exact hfree
  misses := fun mb hmb => by
    show w.port.buffer.Misses (heap.impl mb).buffer
    rcases hmemory mb hmb with ⟨x, hx, hbuffer⟩ | ⟨-, -, hroom⟩
    · rw [hbuffer]
      exact hw.misses x hx
    · exact BufferChunk.misses_of_apart hroom

/-- What `getBuffer` takes of the pool: part of a buffer that nobody else refers to. -/
structure Spare (w : PortUse M) (numBytes : Nat) (fresh : Nat × Nat) (pool : BufferPool) (b : BufferChunk) (heap : Heap)
    (mb : ManagedBuffer) : Prop where
  get : w.pool.get w.heap fresh numBytes = (pool, b, heap)
  supplied : pool.Supplied heap (pooled w.held)
  copy : b.copy heap = b
  whole : BufferPool.Part heap b mb
  part : BufferPool.Part heap { b with length := numBytes } mb
  mem : mb ∈ pool.refs heap (pooled w.held)
  unshared : mb ∉ BufferAccumulator.refs heap (pooled w.held)
  memory : ∀ x ∈ pool.refs heap (pooled w.held),
    (∃ y ∈ w.poolRefs, (heap.impl x).buffer = (w.heap.impl y).buffer) ∨ w.Room (heap.impl x).buffer

theorem Kept.spare (hw : Kept rot w) {numBytes : Nat} {fresh : Nat × Nat} (hnew : w.Allocates numBytes fresh) :
    ∃ pool b heap mb, Spare w numBytes fresh pool b heap mb := by
  obtain ⟨pool, b, heap, mb, hget, hsupplied, hcopy, hpart, hle, hmem, hunshared⟩ := hw.supplied.get hnew.1
  refine ⟨pool, b, heap, mb, hget, hsupplied, hcopy, hpart, ?_, List.mem_append_right _ hmem, hunshared, ?_⟩
  · obtain ⟨hmb, hnext, haddr, hend⟩ := hpart
    exact ⟨hmb, hnext, haddr, (Nat.add_le_add_left hle _).trans hend⟩
  · intro x hx
    refine hw.supplied.get_forall hnew.1 hget
      (P := fun buffer => (∃ y ∈ w.poolRefs, buffer = (w.heap.impl y).buffer) ∨ w.Room buffer)
      (fun y hy => .inl ⟨y, hy, rfl⟩) (.inr hnew.2) x hx

/-- `getBuffer` uses the pool. -/
theorem getBuffer_pool {dtype : DType} {n : Nat} {fresh : Nat × Nat} {pool : BufferPool} {b : BufferChunk} {heap : Heap}
    {mb : ManagedBuffer} (hlt : w.port.buffer.length < SizeT.mul n dtype.sizeT)
    (hs : Spare w (SizeT.mul n dtype.sizeT) fresh pool b heap mb) :
    w.getBuffer dtype n fresh = .ok
      (⟨{ b with length := SizeT.mul n dtype.sizeT, dtype := dtype }, (heap.impl mb).buffer, .pool⟩,
        { w with
          pool := pool
          heap := heap.apply (b.acquire heap)
          held := w.held ++
            [⟨{ b with length := SizeT.mul n dtype.sizeT, dtype := dtype }, (heap.impl mb).buffer, .pool⟩] }) := by
  have hmemory : BufferChunk.getBuffer heap { b with length := SizeT.mul n dtype.sizeT, dtype := dtype } =
      (heap.impl mb).buffer := getBuffer_some hs.whole.1
  unfold PortUse.getBuffer
  simp only [if_neg hlt.not_ge, hs.get, hs.copy, hmemory]

/-- The chunk of the pool has no byte of the manager, nor of `_buffer`. -/
theorem Spare.free (hw : Kept rot w) {numBytes : Nat} {fresh : Nat × Nat} {pool : BufferPool} {b : BufferChunk}
    {heap : Heap} {mb : ManagedBuffer} (hs : Spare w numBytes fresh pool b heap mb) :
    (∀ x, BufferChunk.Covers { b with length := numBytes } x → ¬ rot.memory.Maps x) ∧
      w.port.buffer.Misses (heap.impl mb).buffer ∧
      ∀ r ∈ w.held, r.origin ≠ .pool → r.chunk.Misses (heap.impl mb).buffer := by
  obtain ⟨-, -, haddr, hend⟩ := hs.part
  rcases hs.memory mb hs.mem with ⟨y, hy, hbuffer⟩ | ⟨hclear, hheld, hroom⟩
  · rw [hbuffer] at haddr hend ⊢
    refine ⟨fun x hx => (hw.clear y hy).not_maps (haddr.trans hx.1) (hx.2.trans_le hend), hw.misses y hy, ?_⟩
    exact fun r hr horigin => (hw.held r hr).misses horigin y hy
  · rw [hw.memory] at hclear
    refine ⟨fun x hx => hclear.not_maps (haddr.trans hx.1) (hx.2.trans_le hend), ?_, fun r hr _ => ?_⟩
    · exact BufferChunk.misses_of_apart hroom
    · exact BufferChunk.misses_of_apart (hheld r hr)

/-- A chunk of a buffer has no byte of a chunk outside of the buffer. -/
theorem disjoint_part {c d : BufferChunk} {b : SharedBuffer} (hc : ∀ x, c.Covers x → ¬ rot.memory.Maps x)
    (haddr : b.address ≤ c.address) (hend : c.getEnd ≤ b.getEnd) (hd : d.Misses b) : Disjoint rot c d := by
  refine disjoint_outside hc fun x hx hy => ?_
  have hmiss := hd x hy
  unfold BufferChunk.Covers at hx
  omega

theorem Kept.getBuffer_pool (hw : Kept rot w) {dtype : DType} {n : Nat} {fresh : Nat × Nat}
    (hlt : w.port.buffer.length < SizeT.mul n dtype.sizeT) (hnew : w.Allocates (SizeT.mul n dtype.sizeT) fresh)
    {r : Returned} (h : w.getBuffer dtype n fresh = .ok (r, w')) : Kept rot w' := by
  obtain ⟨pool, b, heap, mb, hs⟩ := hw.spare hnew
  rw [PortUse.getBuffer_pool hlt hs] at h
  obtain ⟨rfl, rfl⟩ := Prod.mk.inj (Except.ok.inj h)
  obtain ⟨houtside, hmisses, -⟩ := hs.free hw
  have hpart := hs.part
  have hpooled := pooled_append_pool w.held
    (r := ⟨{ b with length := SizeT.mul n dtype.sizeT, dtype := dtype }, (heap.impl mb).buffer, .pool⟩) rfl
  have hout : BufferPool.Part heap { b with length := SizeT.mul n dtype.sizeT, dtype := dtype } mb := hs.part
  refine hw.repool ?_ (fun x hx => ?_) fun x hx => ?_
  · rw [hpooled]
    exact hs.supplied.hold hs.whole hs.mem hout
  · rw [hpooled, BufferPool.refs_apply] at hx
    rw [Heap.apply_impl_buffer]
    exact hs.memory x (BufferPool.mem_refs_hold hout hs.mem hx)
  · rcases List.mem_append.mp hx with hx | hx
    · exact .inl hx
    · obtain rfl := List.mem_singleton.mp hx
      exact .inr ⟨rfl, houtside, disjoint_part houtside hpart.2.2.1 hpart.2.2.2 hmisses⟩

theorem Kept.getBuffer (hw : Kept rot w) (hworking : w.working = true) {dtype : DType} {n : Nat} {fresh : Nat × Nat}
    (hnew : w.Allocates (SizeT.mul n dtype.sizeT) fresh) {r : Returned}
    (h : w.getBuffer dtype n fresh = .ok (r, w')) : Kept rot w' := by
  by_cases hle : SizeT.mul n dtype.sizeT ≤ w.port.buffer.length
  · exact hw.getBuffer_front hworking hle h
  · exact hw.getBuffer_pool (not_le.mp hle) hnew h

/-! ### The holders -/

theorem Kept.share (hw : Kept rot w) {r : Returned} (hr : r ∈ w.held) : Kept rot (w.share r) := by
  have hheld : ∀ x ∈ w.held ++ [r], x ∈ w.held := by
    intro x hx
    rcases List.mem_append.mp hx with hx | hx
    · exact hx
    · obtain rfl := List.mem_singleton.mp hx
      exact hr
  unfold PortUse.share
  by_cases hpool : r.origin = .pool
  · have hmem : r.chunk ∈ pooled w.held := List.mem_map_of_mem (List.mem_filter.mpr ⟨hr, decide_eq_true hpool⟩)
    obtain ⟨mb, hpart⟩ := hw.supplied.part r.chunk hmem
    have hmb : mb ∈ w.poolRefs := List.mem_append_left _ (BufferAccumulator.mem_refs hmem hpart.1)
    rw [if_pos hpool]
    refine hw.repool ?_ (fun x hx => .inl ⟨x, ?_, ?_⟩) fun x hx => .inl (hheld x hx)
    · rw [pooled_append_pool w.held hpool]
      exact hw.supplied.share hmem
    · rw [pooled_append_pool w.held hpool, BufferPool.refs_apply] at hx
      exact BufferPool.mem_refs_hold hpart hmb hx
    · rw [Heap.apply_impl_buffer]
  · rw [if_neg hpool]
    refine hw.repool ?_ (fun x hx => .inl ⟨x, ?_, rfl⟩) fun x hx => .inl (hheld x hx)
    · rw [pooled_append_other w.held hpool]
      exact hw.supplied
    · rw [pooled_append_other w.held hpool] at hx
      exact hx

theorem pooled_erase_pool {held : List Returned} {r : Returned} (hr : r ∈ held) (hpool : r.origin = .pool) :
    (pooled held).Perm (r.chunk :: pooled (held.erase r)) := by
  have hperm := ((List.perm_cons_erase hr).filter (·.origin = .pool)).map (·.chunk)
  rwa [List.filter_cons, if_pos (decide_eq_true hpool)] at hperm

theorem pooled_erase_other {held : List Returned} {r : Returned} (hr : r ∈ held) (hpool : r.origin ≠ .pool) :
    (pooled held).Perm (pooled (held.erase r)) := by
  have hperm := ((List.perm_cons_erase hr).filter (·.origin = .pool)).map (·.chunk)
  rwa [List.filter_cons, if_neg (by simpa using hpool)] at hperm

theorem Kept.release (hw : Kept rot w) {r : Returned} (hr : r ∈ w.held) : Kept rot (w.release r) := by
  have hheld : ∀ x ∈ w.held.erase r, x ∈ w.held := fun x => List.mem_of_mem_erase
  unfold PortUse.release
  by_cases hpool : r.origin = .pool
  · have hperm := pooled_erase_pool hr hpool
    rw [if_pos hpool]
    refine hw.repool (hw.supplied.release hperm) (fun x hx => .inl ⟨x, ?_, ?_⟩) fun x hx => .inl (hheld x hx)
    · rw [BufferPool.refs_apply] at hx
      exact (BufferPool.refs_perm_cons hperm).mem_iff.mpr (List.mem_append_right _ hx)
    · rw [Heap.apply_impl_buffer]
  · have hperm := pooled_erase_other hr hpool
    rw [if_neg hpool]
    refine hw.repool (hw.supplied.perm hperm) (fun x hx => .inl ⟨x, ?_, rfl⟩) fun x hx => .inl (hheld x hx)
    exact (BufferPool.refs_perm hperm).mem_iff.mpr hx

/-! ### Every run -/

/-- **One step.** -/
theorem Kept.step (hw : Kept rot w) (hsize : rot.bufferSize < 2 ^ 64) {a : Action} (h : w.step a = some w') :
    Kept rot w' := by
  obtain ⟨hadmits, hcall⟩ := step_inv h
  cases a with
  | preWork input =>
      obtain rfl := Except.ok.inj hcall
      exact hw.preWork hsize hadmits.2
  | popElements n => exact hw.popElements hcall
  | produce n =>
      obtain rfl := Except.ok.inj hcall
      exact hw.produce n
  | setReserve n =>
      obtain rfl := Except.ok.inj hcall
      exact hw.setReserve n
  | postBuffer buffer =>
      obtain rfl := Except.ok.inj hcall
      exact hw.postBuffer buffer
  | getBuffer dtype n fresh =>
      obtain ⟨⟨r, w₁⟩, hget, rfl⟩ := map_ok hcall
      exact hw.getBuffer hadmits.1 hadmits.2 hget
  | postWork =>
      obtain ⟨⟨r, w₁⟩, hpost, rfl⟩ := map_ok hcall
      exact hw.postWork hpost
  | share r =>
      obtain rfl := Except.ok.inj hcall
      exact hw.share hadmits
  | release r =>
      obtain rfl := Except.ok.inj hcall
      exact hw.release hadmits
  | push mb => exact hw.push hadmits.1 hadmits.2 hcall

/-- **Every run.** -/
theorem Kept.exec (hw : Kept rot w) (hsize : rot.bufferSize < 2 ^ 64) {actions : List Action}
    (h : Exec (ofPartial PortUse.step) w actions w') : Kept rot w' :=
  h.invariant (fun _ _ _ hw hstep => hw.step hsize hstep) hw

end

/-! ### Both managers -/

/-- A port with a generic manager. -/
theorem kept_generic (p : Slabs) (h : Heap) (hsize : p.bufferSize < 2 ^ 64) (dtype : DType)
    (readBeforeWrite : Bool) (heap inputs : Heap) :
    ∃ m h', GenericBufferManager.init ⟨p.numBuffers, p.bufferSize⟩ p.commonSlab p.first h = .ok (m, h') ∧
      ∀ actions w, Exec (ofPartial step)
          (bufferManagerSetup (Session.start h' m) p.commonSlab dtype readBeforeWrite heap inputs) actions w →
        Kept (GenericBufferManager.rotation p) w := by
  obtain ⟨m, h', hinit, hoffers, -, hslabbed, hlaid⟩ := GenericBufferManager.init_spec p h
  have hinv : (GenericBufferManager.rotation p).Inv (Session.start h' m) :=
    ⟨0, _, GenericBufferManager.standing_start hoffers hslabbed hlaid⟩
  exact ⟨m, h', hinit, fun _ _ hrun => (kept_start hinv dtype readBeforeWrite heap inputs).exec hsize hrun⟩

/-- A port with a circular manager. -/
theorem kept_circular (r : Ring) (h : Heap) (hsize : r.bufferSize < 2 ^ 64) (dtype : DType)
    (readBeforeWrite : Bool) (heap inputs : Heap) :
    ∃ m h', CircularBufferManager.init ⟨r.numBuffers, r.bufferSize⟩ r.circBuff r.first h = .ok (m, h') ∧
      ∀ actions w, Exec (ofPartial step)
          (bufferManagerSetup (Session.start h' m) r.circBuff dtype readBeforeWrite heap inputs) actions w →
        Kept (CircularBufferManager.rotation r) w := by
  obtain ⟨m, h', hinit, hwindows, hlinked, hslabbed, -⟩ := CircularBufferManager.init_spec r h
  have hinv : (CircularBufferManager.rotation r).Inv (Session.start h' m) :=
    ⟨0, _, _, CircularBufferManager.handouts_start hwindows hlinked hslabbed⟩
  exact ⟨m, h', hinit, fun _ _ hrun => (kept_start hinv dtype readBeforeWrite heap inputs).exec hsize hrun⟩

end PortUse

end PothosCore.Framework

import PothosCore.Framework.Builtin.GenericBufferManager
import PothosCore.Framework.ManagerStart

/-!
# PothosCore.Framework.Builtin.GenericReferences

The generic manager as a `LawfulManager`, whatever the amounts and the order of the pushes.
-/

namespace PothosCore.Framework

open PothosCore.Lib PothosCore.Util

namespace GenericBufferManager

/-- Does a pop of `numBytes` more re-use the front? The sum and its double are of 64 bits. -/
def reuses (m : GenericBufferManager) (numBytes : Nat) : Bool :=
  SizeT.mul (SizeT.add m.bytesPopped numBytes) 2 < m.bufferSize

/-- `pop(numBytes)`, of any `size_t`. -/
def popT (m : GenericBufferManager) (h : Heap) (numBytes : Nat) : Except Fault (GenericBufferManager × Heap) :=
  if m.readyBuffs.empty then .error (.assertion "not _readyBuffs.empty()")
  else if m.reuses numBytes then do
    let (front', ops) ← offerRest h m.frontBuffer numBytes
    .ok ({ m with frontBuffer := front', bytesPopped := SizeT.add m.bytesPopped numBytes }, h.apply ops)
  else do
    let readyBuffs ← m.readyBuffs.pop
    let h₁ := h.apply (m.readyBuffs.front.toList.map .decr)
    let (front', h₂) :=
      match readyBuffs.front with
      | none => setFrontBuffer h₁ m.frontBuffer .null
      | some buff => setFrontLocal h₁ m.frontBuffer (.ofManagedBuffer h₁ buff)
    .ok ({ m with frontBuffer := front', bytesPopped := 0, readyBuffs := readyBuffs }, h₂)

/-- The reference steps of `pop`. -/
def popOps (m : GenericBufferManager) (h : Heap) (numBytes : Nat) : List RefOp :=
  if m.reuses numBytes then
    match offerRest h m.frontBuffer numBytes with
    | .ok (_, ops) => ops
    | .error _ => []
  else
    m.readyBuffs.front.toList.map .decr ++
      match m.readyBuffs.readyElems.tail.head? with
      | none => m.frontBuffer.assign h .null
      | some buff => setFrontOps h m.frontBuffer (.ofManagedBuffer h buff)

/-- The reference steps of `push`. -/
def pushOps (m : GenericBufferManager) (h : Heap) (buff : ManagedBuffer) : List RefOp :=
  (if m.readyBuffs.empty then setFrontOps h m.frontBuffer (.ofManagedBuffer h buff) else []) ++ [.incr buff]

instance : CountedManager GenericBufferManager where
  readyBuffs := readyBuffs
  reuses := reuses
  popT := popT
  popOps := popOps
  pushOps := pushOps

section
variable {own : ManagedBuffer → Prop} {m m' : GenericBufferManager} {h h' : Heap}

theorem pop_fronted {numBytes : Nat} (hfronted : CountedManager.Fronted own m h)
    (hpop : m.popT h numBytes = .ok (m', h')) :
    CountedManager.Fronted own m' h' ∧ CountedManager.Popped own m m' h h' numBytes := by
  cases hready : m.readyBuffs.readyElems with
  | nil =>
      rw [popT, if_pos (by simp [OrderedQueue.empty, hready])] at hpop
      cases hpop
  | cons x₀ rest =>
      have hne : m.readyBuffs.readyElems ≠ [] := by simp [hready]
      have hfront : m.frontBuffer.managedBuffer = some x₀ := hfronted.head hready
      have hzero : m.frontBuffer.nextBuffers = 0 := hfronted.ends.2
      have hmem : x₀ ∈ m.readyBuffs.elems := by simp [OrderedQueue.elems, hready]
      rw [popT, if_neg (by simp [OrderedQueue.empty, hready])] at hpop
      split at hpop
      next hsmall =>
        -- the rest of the front ends with its buffer, also when its bytes are used up
        have hends : NextBuffers.Ends h m.frontBuffer := hfronted.ends
        have hoffer := offerRest_eq hends hfront numBytes
        have hops : m.popOps h numBytes = [.incr x₀, .decr x₀, .incr x₀, .decr x₀] := by
          rw [popOps, if_pos hsmall, hoffer]
        rw [hoffer] at hpop
        have hheap : h' = h.apply (m.popOps h numBytes) := by
          rw [hops]
          cases hpop
          rfl
        cases hpop
        refine ⟨CountedManager.Fronted.congr ?_ (CountedManager.sameBuffers_apply h _),
          CountedManager.popped_reuse hfront hmem rfl hfront hops hheap⟩
        exact hfronted.reuse rfl (hfronted.ends.rest numBytes) rfl
      next hlarge =>
        let q' : OrderedQueue ManagedBuffer := { m.readyBuffs with readyElems := rest }
        have hqueue : m.readyBuffs.pop = .ok q' := by rw [OrderedQueue.pop, hready]
        have hhead : m.readyBuffs.front.toList = [x₀] := by simp [OrderedQueue.front, hready]
        have htail : m.readyBuffs.readyElems.tail.head? = rest.head? := by rw [hready, List.tail_cons]
        have hsub : ∀ mb ∈ q'.elems, mb ∈ m.readyBuffs.elems := by
          intro mb hmb
          simp only [q', OrderedQueue.elems, hready] at hmb ⊢
          exact List.mem_cons_of_mem _ hmb
        rw [hqueue, hhead] at hpop
        have hops : m.popOps h numBytes = .decr x₀ :: (rest.head?.toList.map .incr ++ [.decr x₀] ++
            rest.head?.toList.map .incr ++ rest.head?.toList.map .decr) := by
          rw [popOps, if_neg hlarge, hhead, htail]
          cases rest with
          | nil => simp [assign_within hzero (BufferChunk.within_null h), hfront]
          | cons x rest =>
              simp only [List.head?_cons]
              rw [setFrontOps_within hzero (BufferChunk.within_ofManagedBuffer h x), hfront]
              rfl
        -- the front is a whole buffer, or none
        have hres : ∃ front', NextBuffers.Ends h front' ∧ front'.managedBuffer = rest.head? ∧
            h' = h.apply (m.popOps h numBytes) ∧ m' =
              { m with frontBuffer := front', bytesPopped := 0, readyBuffs := q' } := by
          rw [popOps, if_neg hlarge, hhead, htail]
          cases rest with
          | nil =>
              cases hpop
              refine ⟨.null, NextBuffers.ends_null h, rfl, ?_, rfl⟩
              show (h.apply [.decr x₀]).apply (m.frontBuffer.assign (h.apply [.decr x₀]) .null) =
                h.apply ([.decr x₀] ++ m.frontBuffer.assign h .null)
              rw [assign_apply, Heap.apply_append]
          | cons x rest =>
              have hwithin := BufferChunk.within_ofManagedBuffer h x
              have hset : setFrontLocal (h.apply [.decr x₀]) m.frontBuffer
                  (.ofManagedBuffer (h.apply [.decr x₀]) x) =
                  (.ofManagedBuffer h x,
                    h.apply ([.decr x₀] ++ setFrontOps h m.frontBuffer (.ofManagedBuffer h x))) := by
                rw [ofManagedBuffer_apply, setFrontLocal_eq, setFrontOps_apply, Heap.apply_append,
                  BufferChunk.copy_of_le]
                · exact (BufferAccumulator.getBuffer_apply h [.decr x₀] _) ▸ hwithin.1
                · rfl
              have hbody : Except.ok ({ m with
                  frontBuffer := (setFrontLocal (h.apply [.decr x₀]) m.frontBuffer
                    (.ofManagedBuffer (h.apply [.decr x₀]) x)).1
                  bytesPopped := 0
                  readyBuffs := q' }, (setFrontLocal (h.apply [.decr x₀]) m.frontBuffer
                    (.ofManagedBuffer (h.apply [.decr x₀]) x)).2) = Except.ok (m', h') := hpop
              rw [hset] at hbody
              cases hbody
              exact ⟨.ofManagedBuffer h x, NextBuffers.ends_ofManagedBuffer h x, rfl, rfl, rfl⟩
        obtain ⟨front', hends, hmb, rfl, rfl⟩ := hres
        refine ⟨CountedManager.Fronted.congr ?_ (CountedManager.sameBuffers_apply h _),
          CountedManager.popped_move hready hfront rfl rfl hmb (by simpa [CountedManager.reuses] using hlarge) hops
            (Heap.sameLinks_apply h _) fun _ => rfl⟩
        exact hfronted.move hready rfl (fun _ => rfl) hends hmb

theorem push_fronted {mb : ManagedBuffer} (hfronted : CountedManager.Fronted own m h) (hown : own mb)
    (hnew : mb ∉ m.readyBuffs.elems) (hpush : m.push h mb = .ok (m', h')) :
    CountedManager.Fronted own m' h' ∧ CountedManager.Pushed own m m' h h' mb := by
  cases hqueue : m.readyBuffs.push mb (h.impl mb).slabIndex with
  | error e =>
      rw [GenericBufferManager.push, hqueue] at hpush
      cases hpush
  | ok q' =>
      obtain ⟨helems, hprefix, -, -, -, -⟩ :=
        OrderedQueue.push_elems hqueue hfronted.settled (hfronted.free hown hnew)
      rw [GenericBufferManager.push, hqueue] at hpush
      by_cases hempty : m.readyBuffs.readyElems = []
      · -- the front is made of the buffer, wherever the queue puts it
        have hzero : m.frontBuffer.nextBuffers = 0 := hfronted.ends.2
        have hwithin := BufferChunk.within_ofManagedBuffer h mb
        have hset : setFrontLocal h m.frontBuffer (.ofManagedBuffer h mb) =
            (.ofManagedBuffer h mb, h.apply (setFrontOps h m.frontBuffer (.ofManagedBuffer h mb))) := by
          rw [setFrontLocal_eq, BufferChunk.copy_of_le h _ hwithin.1 hwithin.2]
        have hops : m.pushOps h mb = .incr mb :: ([] ++
            (m.frontBuffer.managedBuffer.toList.map .decr ++ [.incr mb] ++ [.decr mb]) ++ [.incr mb]) := by
          rw [pushOps, if_pos (by simp [OrderedQueue.empty, hempty]), setFrontOps_within hzero hwithin]
          simp [BufferChunk.ofManagedBuffer]
        have hres : h' = h.apply (m.pushOps h mb) ∧
            m' = { m with frontBuffer := .ofManagedBuffer h mb, readyBuffs := q' } := by
          rw [pushOps, if_pos (by simp [OrderedQueue.empty, hempty]), Heap.apply_append]
          simp only [OrderedQueue.empty, hempty, List.isEmpty_nil, if_true, hset] at hpush
          cases hpush
          exact ⟨rfl, rfl⟩
        obtain ⟨rfl, rfl⟩ := hres
        refine ⟨CountedManager.Fronted.congr ?_ (CountedManager.sameBuffers_apply h _),
          CountedManager.pushed_front rfl (hfronted.stale hempty) hnew rfl helems hprefix (.inl ⟨rfl, rfl⟩) hops
            (Heap.sameLinks_apply h _) fun _ => rfl⟩
        exact hfronted.ahead hown hnew hqueue hempty (fun _ => rfl) (NextBuffers.ends_ofManagedBuffer h mb) rfl
      · have hops : m.pushOps h mb = [.incr mb] := by
          rw [pushOps, if_neg (by simpa [OrderedQueue.empty] using hempty)]
          rfl
        have hres : h' = h.apply (m.pushOps h mb) ∧ m' = { m with readyBuffs := q' } := by
          rw [hops]
          have hfull : m.readyBuffs.empty = false := by simpa [OrderedQueue.empty] using hempty
          simp only [hfull, Bool.false_eq_true, if_false] at hpush
          cases hpush
          exact ⟨rfl, rfl⟩
        obtain ⟨rfl, rfl⟩ := hres
        refine ⟨CountedManager.Fronted.congr ?_ (CountedManager.sameBuffers_apply h _),
          CountedManager.pushed_behind rfl helems hprefix hops rfl⟩
        exact hfronted.behind hown hnew hqueue rfl fun hnil => absurd hnil hempty

end

instance : LawfulManager GenericBufferManager where
  ready_of_empty := rfl
  pop_spec := pop_fronted
  push_spec := push_fronted

/-! ### The start -/

open CountedManager

/-- **`init`** makes buffers to which only the manager refers. -/
theorem init_counted {args : BufferManagerArgs} {commonSlab : SharedBuffer} {first : Nat} {h h' : Heap}
    {m : GenericBufferManager} (hinit : init args commonSlab first h = .ok (m, h')) :
    Fronted (InRow first args.numBuffers) m h' ∧
      ∀ mb, InRow first args.numBuffers mb → (h'.impl mb).counter = (CountedManager.refs m).count mb := by
  unfold init at hinit
  cases hmake : (OrderedQueue.make args.numBuffers : Except Fault (OrderedQueue ManagedBuffer)) with
  | error e =>
      rw [hmake] at hinit
      cases hinit
  | ok q =>
      rw [hmake] at hinit
      let m₀ : GenericBufferManager := ⟨.null, args.bufferSize, 0, q⟩
      have hempty := OrderedQueue.make_elems hmake
      have hnone : ∀ mb, ¬ InRow first 0 mb := fun mb hmb => Nat.not_lt.mpr hmb.1 hmb.2
      have hfresh : Fronted (InRow first 0) m₀ h := .fresh _ h hnone hempty rfl
      cases hfold : (List.range args.numBuffers).foldlM (initBuffer commonSlab args.bufferSize first) (m₀, h) with
      | error e =>
          have hbody : ((List.range args.numBuffers).foldlM (initBuffer commonSlab args.bufferSize first) (m₀, h) >>=
            _) = Except.ok (m, h') := hinit
          rw [hfold] at hbody
          cases hbody
      | ok s =>
          have hmade : Making first args.numBuffers s.1 s.2 := by
            refine foldlM_range_induct (motive := fun i s => Making first i s.1 s.2) ?_ (.zero hfresh)
              args.numBuffers s hfold
            intro i s s' hmaking hstep
            unfold initBuffer at hstep
            dsimp only at hstep
            cases hsub : SharedBuffer.sub (commonSlab.address + args.bufferSize * i) args.bufferSize commonSlab with
            | error e =>
                rw [hsub] at hstep
                cases hstep
            | ok buff =>
                rw [hsub] at hstep
                have hpush : s.1.push (s.2.create (first + i) buff i) (first + i) = .ok (s'.1, s'.2) := hstep
                exact hmaking.push hpush
          have hbody : ((List.range args.numBuffers).foldlM (initBuffer commonSlab args.bufferSize first) (m₀, h) >>=
            _) = Except.ok (m, h') := hinit
          rw [hfold] at hbody
          cases hbody
          exact hmade.done (fun mb => by rw [linkBuffers_impl]; exact ⟨rfl, rfl⟩) fun mb => by rw [linkBuffers_impl]

end GenericBufferManager

end PothosCore.Framework

import PothosCore.Framework.Builtin.CircularBufferManager
import PothosCore.Framework.ManagerStart

/-!
# PothosCore.Framework.Builtin.CircularReferences

The circular manager as a `LawfulManager`. A buffer gets its window when it comes to the
front, so a front that was just set is as long as a buffer is.
-/

namespace PothosCore.Framework

open PothosCore.Lib PothosCore.Util

namespace CircularBufferManager

/-- The heap in which the window of the next front was set, at `frontAddress`. -/
def windowed (m : CircularBufferManager) (h : Heap) (frontAddress : Nat) (buff : ManagedBuffer) : Heap :=
  match SharedBuffer.sub frontAddress m.bufferSize m.circBuff with
  | .ok sbuff => h.reset buff sbuff (h.impl buff).slabIndex
  | .error _ => h

/-- The reference steps of `setCircFrontBuffer`. -/
def setCircFrontOps (m : CircularBufferManager) (h : Heap) (frontAddress : Nat) (buff : ManagedBuffer) :
    List RefOp :=
  let h₁ := m.windowed h frontAddress buff
  setFrontOps h₁ m.frontBuffer (.ofManagedBuffer h₁ buff)

/-- Does a pop of `numBytes` more re-use the front? The sum and its double are of 64 bits. -/
def reuses (m : CircularBufferManager) (numBytes : Nat) : Bool :=
  SizeT.mul (SizeT.add m.bytesToPop numBytes) 2 < m.bufferSize

/-- The front address after a pop that uses the front up. -/
def nextAddress (m : CircularBufferManager) (numBytes : Nat) : Nat :=
  let frontAddress := SizeT.add m.frontAddress (SizeT.add m.bytesToPop numBytes)
  if SizeT.add m.circBuff.address m.circBuff.length ≤ frontAddress then SizeT.sub frontAddress m.circBuff.length
  else frontAddress

/-- `pop(numBytes)`, of any `size_t`. -/
def popT (m : CircularBufferManager) (h : Heap) (numBytes : Nat) : Except Fault (CircularBufferManager × Heap) :=
  if m.readyBuffs.empty then .error (.assertion "not _readyBuffs.empty()")
  else if m.reuses numBytes then do
    let (front', ops) ← offerRest h m.frontBuffer numBytes
    .ok ({ m with frontBuffer := front', bytesToPop := SizeT.add m.bytesToPop numBytes }, h.apply ops)
  else do
    let readyBuffs ← m.readyBuffs.pop
    let h₁ := h.apply (m.readyBuffs.front.toList.map .decr)
    if m.bufferSize < SizeT.add m.bytesToPop numBytes then .error (.assertion "_bufferSize >= _bytesToPop")
    else
      let m₁ := { m with
        frontAddress := m.nextAddress numBytes, bytesToPop := 0, readyBuffs := readyBuffs }
      -- prepare the next buffer in the queue
      match readyBuffs.front with
      | none =>
          let (front', h₂) := setFrontBuffer h₁ m.frontBuffer .null
          .ok ({ m₁ with frontBuffer := front' }, h₂)
      | some buff => m₁.setCircFrontBuffer h₁ buff

/-- The reference steps of `pop`. -/
def popOps (m : CircularBufferManager) (h : Heap) (numBytes : Nat) : List RefOp :=
  if m.reuses numBytes then
    match offerRest h m.frontBuffer numBytes with
    | .ok (_, ops) => ops
    | .error _ => []
  else
    m.readyBuffs.front.toList.map .decr ++
      match m.readyBuffs.readyElems.tail.head? with
      | none => m.frontBuffer.assign h .null
      | some buff => m.setCircFrontOps h (m.nextAddress numBytes) buff

/-- The reference steps of `push`. -/
def pushOps (m : CircularBufferManager) (h : Heap) (buff : ManagedBuffer) : List RefOp :=
  .incr buff ::
    match m.readyBuffs.push buff (h.impl buff).slabIndex with
    | .error _ => []
    | .ok readyBuffs =>
        match readyBuffs.front with
        | none => []
        | some front => if m.readyBuffs.empty then m.setCircFrontOps h m.frontAddress front else []

instance : CountedManager CircularBufferManager where
  readyBuffs := readyBuffs
  reuses := reuses
  popT := popT
  popOps := popOps
  pushOps := pushOps

section
variable {own : ManagedBuffer → Prop} {m m' : CircularBufferManager} {h h' : Heap}

/-- The steps are those of a front within its buffer. -/
theorem setCircFrontOps_eq (hzero : m.frontBuffer.nextBuffers = 0) (frontAddress : Nat) (buff : ManagedBuffer) :
    m.setCircFrontOps h frontAddress buff = [.incr buff] ++ m.frontBuffer.managedBuffer.toList.map .decr ++
      [.incr buff] ++ [.decr buff] := by
  rw [setCircFrontOps, setFrontOps_within hzero (BufferChunk.within_ofManagedBuffer _ buff)]
  rfl

/-- What `setCircFrontBuffer` leaves: the window of `buff` is its buffer and the front. -/
theorem setCircFrontBuffer_inv {buff : ManagedBuffer} (hset : m.setCircFrontBuffer h buff = .ok (m', h')) :
    ∃ sbuff, h' = (h.reset buff sbuff (h.impl buff).slabIndex).apply (m.setCircFrontOps h m.frontAddress buff) ∧
      m' = { m with frontBuffer := .ofManagedBuffer (h.reset buff sbuff (h.impl buff).slabIndex) buff } := by
  rw [setCircFrontBuffer] at hset
  cases hsub : SharedBuffer.sub m.frontAddress m.bufferSize m.circBuff with
  | error e =>
      rw [hsub] at hset
      cases hset
  | ok sbuff =>
      have hwithin := BufferChunk.within_ofManagedBuffer (h.reset buff sbuff (h.impl buff).slabIndex) buff
      rw [hsub] at hset
      have hbody : Except.ok ({ m with
          frontBuffer := (setFrontLocal (h.reset buff sbuff (h.impl buff).slabIndex) m.frontBuffer
            (.ofManagedBuffer (h.reset buff sbuff (h.impl buff).slabIndex) buff)).1 },
          (setFrontLocal (h.reset buff sbuff (h.impl buff).slabIndex) m.frontBuffer
            (.ofManagedBuffer (h.reset buff sbuff (h.impl buff).slabIndex) buff)).2) = Except.ok (m', h') := hset
      rw [setFrontLocal_eq, BufferChunk.copy_of_le _ _ hwithin.1 hwithin.2] at hbody
      cases hbody
      exact ⟨sbuff, by rw [setCircFrontOps, windowed, hsub], rfl⟩

/-- The slabs are the same when a window is set. -/
theorem reset_slabIndex (buff mb : ManagedBuffer) (sbuff : SharedBuffer) :
    ((h.reset buff sbuff (h.impl buff).slabIndex).impl mb).slabIndex = (h.impl mb).slabIndex :=
  (Heap.sameLinks_reset h buff sbuff mb).1

theorem reset_counter (buff mb : ManagedBuffer) (sbuff : SharedBuffer) :
    ((h.reset buff sbuff (h.impl buff).slabIndex).impl mb).counter = (h.impl mb).counter := by
  rw [Heap.reset_impl]
  split
  next heq => rw [heq]
  next => rfl

theorem pop_fronted {numBytes : Nat} (hfronted : CountedManager.Fronted own m h)
    (hpop : m.popT h numBytes = .ok (m', h')) :
    CountedManager.Fronted own m' h' ∧ CountedManager.Popped own m m' h h' numBytes := by
  cases hready : m.readyBuffs.readyElems with
  | nil =>
      rw [popT, if_pos (by simp [OrderedQueue.empty, hready])] at hpop
      cases hpop
  | cons x₀ rest =>
      have hne : m.readyBuffs.readyElems ≠ [] := by simp [hready]
      have hfront : m.frontBuffer.managedBuffer = some x₀ := hfronted.head hready
      have hzero : m.frontBuffer.nextBuffers = 0 := hfronted.ends.2
      have hmem : x₀ ∈ m.readyBuffs.elems := by simp [OrderedQueue.elems, hready]
      rw [popT, if_neg (by simp [OrderedQueue.empty, hready])] at hpop
      split at hpop
      next hsmall =>
        have hends : NextBuffers.Ends h m.frontBuffer := hfronted.ends
        have hoffer := offerRest_eq hends hfront numBytes
        have hops : m.popOps h numBytes = [.incr x₀, .decr x₀, .incr x₀, .decr x₀] := by
          rw [popOps, if_pos hsmall, hoffer]
        rw [hoffer] at hpop
        have hheap : h' = h.apply (m.popOps h numBytes) := by
          rw [hops]
          cases hpop
          rfl
        cases hpop
        refine ⟨CountedManager.Fronted.congr ?_ (CountedManager.sameBuffers_apply h _),
          CountedManager.popped_reuse hfront hmem rfl hfront hops hheap⟩
        exact hfronted.reuse rfl (hfronted.ends.rest numBytes) rfl
      next hlarge =>
        let q' : OrderedQueue ManagedBuffer := { m.readyBuffs with readyElems := rest }
        have hqueue : m.readyBuffs.pop = .ok q' := by rw [OrderedQueue.pop, hready]
        have hhead : m.readyBuffs.front.toList = [x₀] := by simp [OrderedQueue.front, hready]
        have htail : m.readyBuffs.readyElems.tail.head? = rest.head? := by rw [hready, List.tail_cons]
        have hops : m.popOps h numBytes = .decr x₀ :: (rest.head?.toList.map .incr ++ [.decr x₀] ++
            rest.head?.toList.map .incr ++ rest.head?.toList.map .decr) := by
          rw [popOps, if_neg hlarge, hhead, htail]
          cases rest with
          | nil => simp [assign_within hzero (BufferChunk.within_null h), hfront]
          | cons x rest =>
              simp only [List.head?_cons]
              rw [setCircFrontOps_eq hzero, hfront]
              rfl
        rw [hqueue, hhead] at hpop
        -- the front is a whole window, or none
        have hres : ∃ front', NextBuffers.Ends h' front' ∧ front'.managedBuffer = rest.head? ∧
            (∀ mb, (h'.impl mb).slabIndex = (h.impl mb).slabIndex) ∧ h.SameLinks h' ∧
            (∀ mb, (h'.impl mb).counter = ((h.apply (m.popOps h numBytes)).impl mb).counter) ∧
            m'.frontBuffer = front' ∧ m'.readyBuffs = { m.readyBuffs with readyElems := rest } := by
          simp only [bind, Except.bind] at hpop
          split at hpop
          · cases hpop
          rw [show q'.front = rest.head? from rfl] at hpop
          rw [hops]
          cases rest with
          | nil =>
              cases hpop
              refine ⟨.null, NextBuffers.ends_null _, rfl, ?_, ?_, ?_, rfl, rfl⟩
              · intro mb
                show (((h.apply [.decr x₀]).apply _).impl mb).slabIndex = _
                rw [Heap.apply_slabIndex, Heap.apply_slabIndex]
              · exact (Heap.sameLinks_apply h _).trans (Heap.sameLinks_apply _ _)
              · intro mb
                show (((h.apply [.decr x₀]).apply
                  (m.frontBuffer.assign (h.apply [.decr x₀]) .null)).impl mb).counter = _
                rw [assign_apply, assign_within hzero (BufferChunk.within_null h), hfront, ← Heap.apply_append]
                rfl
          | cons x rest =>
              obtain ⟨sbuff, rfl, rfl⟩ := setCircFrontBuffer_inv hpop
              have hends := NextBuffers.ends_ofManagedBuffer
                ((h.apply [.decr x₀]).reset x sbuff ((h.apply [.decr x₀]).impl x).slabIndex) x
              refine ⟨_, (CountedManager.sameBuffers_apply _ _).ends hends, rfl, ?_, ?_, ?_, rfl, rfl⟩
              · intro mb
                rw [Heap.apply_slabIndex, reset_slabIndex, Heap.apply_slabIndex]
              · exact ((Heap.sameLinks_apply h _).trans (Heap.sameLinks_reset _ x sbuff)).trans
                  (Heap.sameLinks_apply _ _)
              · intro mb
                rw [Heap.apply_counter, reset_counter, Heap.apply_counter, setCircFrontOps_eq (by exact hzero)]
                simp [hfront, Int.add_assoc, Heap.applyOp_impl]
        obtain ⟨front', hends, hmb, hslab, hlinks, hcounter, hf', hq'⟩ := hres
        obtain ⟨front, frontAddress, bufferSize, bytesToPop, circBuff, readyBuffs⟩ := m'
        simp only at hf' hq'
        subst hf' hq'
        exact ⟨hfronted.move hready rfl hslab hends hmb, CountedManager.popped_move hready hfront rfl rfl hmb
          (by simpa [CountedManager.reuses] using hlarge) hops hlinks hcounter⟩

theorem push_fronted {mb : ManagedBuffer} (hfronted : CountedManager.Fronted own m h) (hown : own mb)
    (hnew : mb ∉ m.readyBuffs.elems) (hpush : m.push h mb = .ok (m', h')) :
    CountedManager.Fronted own m' h' ∧ CountedManager.Pushed own m m' h h' mb := by
  have hzero : m.frontBuffer.nextBuffers = 0 := hfronted.ends.2
  rw [CircularBufferManager.push] at hpush
  split at hpush
  · cases hpush
  cases hqueue : m.readyBuffs.push mb (h.impl mb).slabIndex with
  | error e =>
      rw [hqueue] at hpush
      cases hpush
  | ok q' =>
      obtain ⟨helems, hprefix, -, -, hfirst, -⟩ :=
        OrderedQueue.push_elems hqueue hfronted.settled (hfronted.free hown hnew)
      -- nothing but the queue changes
      have hbehind : m.pushOps h mb = [.incr mb] → h' = h.apply [.incr mb] → m' = { m with readyBuffs := q' } →
          (m.readyBuffs.readyElems = [] → q'.readyElems = []) →
            CountedManager.Fronted own m' h' ∧ CountedManager.Pushed own m m' h h' mb := by
        rintro hops rfl rfl hnil
        refine ⟨CountedManager.Fronted.congr ?_ (CountedManager.sameBuffers_apply h _),
          CountedManager.pushed_behind rfl helems hprefix hops (congrArg h.apply hops.symm)⟩
        exact hfronted.behind hown hnew hqueue rfl hnil
      rw [hqueue] at hpush
      simp only [bind, Except.bind] at hpush
      by_cases hempty : m.readyBuffs.readyElems = []
      · rcases hfirst hempty with hnil | hhead
        · have hnone : q'.front = none := by simp [OrderedQueue.front, hnil]
          have hops : m.pushOps h mb = [.incr mb] := by simp only [pushOps, hqueue, hnone]
          rw [hnone] at hpush
          cases hpush
          exact hbehind hops rfl rfl fun _ => hnil
        · -- the buffer is the front, with the next window
          have hwas : m.readyBuffs.empty = true := by simp [OrderedQueue.empty, hempty]
          have hsome : q'.front = some mb := hhead
          have hops : m.pushOps h mb = .incr mb :: ([.incr mb] ++
              (m.frontBuffer.managedBuffer.toList.map .decr ++ [.incr mb] ++ [.decr mb]) ++ []) := by
            simp only [pushOps, hqueue, hsome, hwas, if_true, setCircFrontOps_eq hzero]
            simp
          simp only [hsome, hwas, if_true] at hpush
          obtain ⟨sbuff, rfl, rfl⟩ := setCircFrontBuffer_inv hpush
          have hends := NextBuffers.ends_ofManagedBuffer
            ((h.apply [.incr mb]).reset mb sbuff ((h.apply [.incr mb]).impl mb).slabIndex) mb
          have hslab : ∀ x, ((((h.apply [.incr mb]).reset mb sbuff ((h.apply [.incr mb]).impl mb).slabIndex).apply
              (({ m with readyBuffs := q' } : CircularBufferManager).setCircFrontOps (h.apply [.incr mb])
                m.frontAddress mb)).impl x).slabIndex = (h.impl x).slabIndex := by
            intro x
            rw [Heap.apply_slabIndex, reset_slabIndex, Heap.apply_slabIndex]
          refine ⟨?_, CountedManager.pushed_front rfl (hfronted.stale hempty) hnew rfl helems hprefix
            (.inr ⟨rfl, rfl⟩) hops ?_ ?_⟩
          · exact hfronted.ahead hown hnew hqueue hempty hslab
              ((CountedManager.sameBuffers_apply _ _).ends hends) rfl
          · exact ((Heap.sameLinks_apply h _).trans (Heap.sameLinks_reset _ mb sbuff)).trans (Heap.sameLinks_apply _ _)
          · intro x
            show _ = ((h.apply (m.pushOps h mb)).impl x).counter
            rw [hops, Heap.apply_counter, reset_counter, Heap.apply_counter, setCircFrontOps_eq (by exact hzero),
              Heap.apply_counter]
            simp [Int.add_assoc]
      · have hwas : m.readyBuffs.empty = false := by simpa [OrderedQueue.empty] using hempty
        have hops : m.pushOps h mb = [.incr mb] := by
          simp only [pushOps, hqueue, hwas, Bool.false_eq_true, if_false]
          cases q'.front <;> rfl
        have hres : m' = { m with readyBuffs := q' } ∧ h' = h.apply [.incr mb] := by
          simp only [hwas, Bool.false_eq_true, if_false] at hpush
          split at hpush <;> cases hpush <;> exact ⟨rfl, rfl⟩
        exact hbehind hops hres.2 hres.1 fun hnil => absurd hnil hempty

end

instance : LawfulManager CircularBufferManager where
  ready_of_empty := rfl
  pop_spec := pop_fronted
  push_spec := push_fronted

/-! ### The start -/

open CountedManager

/-- **`init`** makes buffers to which only the manager refers. -/
theorem init_counted {args : BufferManagerArgs} {circBuff : SharedBuffer} {first : Nat} {h h' : Heap}
    {m : CircularBufferManager} (hinit : init args circBuff first h = .ok (m, h')) :
    Fronted (InRow first args.numBuffers) m h' ∧
      ∀ mb, InRow first args.numBuffers mb → (h'.impl mb).counter = (CountedManager.refs m).count mb := by
  unfold init at hinit
  cases hmake : (OrderedQueue.make args.numBuffers : Except Fault (OrderedQueue ManagedBuffer)) with
  | error e =>
      rw [hmake] at hinit
      cases hinit
  | ok q =>
      rw [hmake] at hinit
      let m₀ : CircularBufferManager := ⟨.null, circBuff.address, args.bufferSize, 0, circBuff, q⟩
      have hempty := OrderedQueue.make_elems hmake
      have hnone : ∀ mb, ¬ InRow first 0 mb := fun mb hmb => Nat.not_lt.mpr hmb.1 hmb.2
      have hfresh : Fronted (InRow first 0) m₀ h := .fresh _ h hnone hempty rfl
      cases hfold : (List.range args.numBuffers).foldlM (initBuffer circBuff first) (m₀, h) with
      | error e =>
          have hbody : ((List.range args.numBuffers).foldlM (initBuffer circBuff first) (m₀, h) >>= _) =
            Except.ok (m, h') := hinit
          rw [hfold] at hbody
          cases hbody
      | ok s =>
          have hmade : Making first args.numBuffers s.1 s.2 := by
            refine foldlM_range_induct (motive := fun i s => Making first i s.1 s.2) ?_ (.zero hfresh)
              args.numBuffers s hfold
            intro i s s' hmaking hstep
            have hpush : s.1.push (s.2.create (first + i) circBuff i) (first + i) = .ok (s'.1, s'.2) := hstep
            exact hmaking.push hpush
          have hbody : ((List.range args.numBuffers).foldlM (initBuffer circBuff first) (m₀, h) >>= _) =
            Except.ok (m, h') := hinit
          rw [hfold] at hbody
          cases hbody
          have hlinked : ∀ mb, ∃ next, ((linkBuffers first args.numBuffers s.2).setNextBuffer
              (first + (args.numBuffers - 1)) first).impl mb = { s.2.impl mb with nextBuffer := next } := by
            intro mb
            rw [Heap.setNextBuffer_impl]
            split
            next hmb =>
              rw [linkBuffers_impl, ← hmb]
              exact ⟨_, rfl⟩
            next =>
              rw [linkBuffers_impl]
              exact ⟨_, rfl⟩
          refine hmade.done (fun mb => ?_) fun mb => ?_ <;> obtain ⟨next, hnext⟩ := hlinked mb
          · rw [hnext]
            exact ⟨rfl, rfl⟩
          · rw [hnext]

end CircularBufferManager

end PothosCore.Framework

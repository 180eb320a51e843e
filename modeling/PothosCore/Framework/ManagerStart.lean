import Mathlib.Data.List.Nodup
import PothosCore.Framework.CountedManager

/-!
# PothosCore.Framework.ManagerStart

The references of a manager that is being made. `init` allocates its managed buffers in a
row and pushes each; the local vector holds one more reference on all of them.
-/

namespace PothosCore.Framework

open PothosCore.Util

/-- What each pass of a loop over `0, …, n - 1` keeps. -/
theorem foldlM_range_induct {ε σ : Type} {f : σ → Nat → Except ε σ} {motive : Nat → σ → Prop}
    (hstep : ∀ i s s', motive i s → f s i = .ok s' → motive (i + 1) s') {s₀ : σ} (h₀ : motive 0 s₀) (n : Nat) :
    ∀ s, (List.range n).foldlM f s₀ = .ok s → motive n s := by
  induction n with
  | zero =>
      intro s h
      obtain rfl : s₀ = s := Except.ok.inj h
      exact h₀
  | succ n ih =>
      intro s h
      rw [List.range_succ, List.foldlM_append] at h
      cases hfold : (List.range n).foldlM f s₀ with
      | error e =>
          rw [hfold] at h
          cases h
      | ok s₁ =>
          rw [hfold] at h
          cases hf : f s₁ n with
          | error e =>
              have hlast : (f s₁ n >>= fun s => pure s) = .ok s := h
              rw [hf] at hlast
              cases hlast
          | ok s₂ =>
              have hlast : (f s₁ n >>= fun s => pure s) = .ok s := h
              rw [hf] at hlast
              cases hlast
              exact hstep n s₁ s (ih s₁ hfold) hf

namespace CountedManager

/-- The managed buffers `first`, …, `first + n - 1`. -/
def InRow (first n : Nat) (mb : ManagedBuffer) : Prop := first ≤ mb ∧ mb < first + n

theorem inRow_succ {first n : Nat} {mb : ManagedBuffer} (h : InRow first (n + 1) mb) :
    InRow first n mb ∨ mb = first + n := by
  rcases Nat.lt_succ_iff_lt_or_eq.mp h.2 with hlt | heq
  · exact .inl ⟨h.1, hlt⟩
  · exact .inr heq

section
variable {M : Type} [CountedManager M] {m : M} {h : Heap}

/-- A manager that was given nothing yet. -/
theorem Fronted.fresh (own : ManagedBuffer → Prop) (h : Heap) (hslabs : ∀ mb, ¬ own mb)
    (hqueue : (readyBuffs m).elems = [] ∧ (readyBuffs m).Settled) (hfront : BufferManager.front m = .null) :
    Fronted own m h := by
  have hnone : ∀ mb, mb ∉ (readyBuffs m).elems := by simp [hqueue.1]
  refine ⟨hqueue.2, fun mb hmb => absurd hmb (hnone mb), fun a _ ha => absurd ha (hslabs a), fun i mb hi => ?_, ?_,
    fun hne => ?_, fun _ mb hmb => ?_⟩
  · have hmem : mb ∈ (readyBuffs m).elems :=
      List.mem_append_right _ (List.mem_filterMap.mpr ⟨some mb, List.mem_of_getElem? hi, rfl⟩)
    exact absurd hmem (hnone mb)
  · rw [hfront]
    exact NextBuffers.ends_null h
  · exact absurd (List.append_eq_nil_iff.mp hqueue.1).1 hne
  · rw [hfront] at hmb
    cases hmb

theorem Fronted.refs_owned {own : ManagedBuffer → Prop} (hf : Fronted own m h) :
    ∀ mb ∈ CountedManager.refs m, own mb := by
  intro mb hmb
  refine hf.owned mb ?_
  rcases List.mem_append.mp hmb with hmb | hmb
  · exact hmb
  · have hfront : mb ∈ (BufferManager.front m).managedBuffer := by simpa using hmb
    by_cases hempty : (readyBuffs m).readyElems = []
    · exact hf.stale hempty mb hfront
    · rw [hf.front hempty] at hfront
      exact List.mem_append_left _ (List.mem_of_head? hfront)

/-- The next managed buffer is allocated, with the next slab. -/
theorem Fronted.create {first n : Nat} (hf : Fronted (InRow first n) m h)
    (hslabs : ∀ i < n, (h.impl (first + i)).slabIndex = i) (buff : SharedBuffer) :
    Fronted (InRow first (n + 1)) m (h.create (first + n) buff n) := by
  have hother : ∀ mb, InRow first n mb → (h.create (first + n) buff n).impl mb = h.impl mb := by
    intro mb hmb
    rw [Heap.create_impl, if_neg hmb.2.ne]
  have hslab : ∀ mb, InRow first (n + 1) mb → first + ((h.create (first + n) buff n).impl mb).slabIndex = mb := by
    intro mb hmb
    rcases inRow_succ hmb with hold | rfl
    · obtain ⟨i, rfl⟩ := Nat.exists_eq_add_of_le hold.1
      rw [hother _ hold, hslabs i (Nat.lt_of_add_lt_add_left hold.2)]
    · rw [Heap.create_impl, if_pos rfl]
  refine ⟨hf.settled, fun mb hmb => ?_, fun a b ha hb heq => ?_, fun i mb hi => ?_, ?_, hf.front, hf.stale⟩
  · obtain ⟨hle, hlt⟩ := hf.owned mb hmb
    exact ⟨hle, hlt.trans (Nat.lt_succ_self _)⟩
  · rw [← hslab a ha, ← hslab b hb, heq]
  · have hmem : mb ∈ (readyBuffs m).elems :=
      List.mem_append_right _ (List.mem_filterMap.mpr ⟨some mb, List.mem_of_getElem? hi, rfl⟩)
    rw [hother mb (hf.owned mb hmem)]
    exact hf.parked i mb hi
  · have hbuffer : (BufferManager.front m).getBuffer (h.create (first + n) buff n) =
        (BufferManager.front m).getBuffer h := by
      unfold BufferChunk.getBuffer
      cases hmb : (BufferManager.front m).managedBuffer with
      | none => rfl
      | some mb =>
          have hown := hf.refs_owned mb (List.mem_append_right _ (by simp [hmb]))
          exact congrArg Impl.buffer (hother mb hown)
    exact ⟨hbuffer ▸ hf.ends.1, hf.ends.2⟩

end

/-- `n` buffers were made, and the local vector refers to all of them. -/
structure Making {M : Type} [LawfulManager M] (first n : Nat) (m : M) (h : Heap) : Prop where
  fronted : Fronted (InRow first n) m h
  slabs : ∀ i < n, (h.impl (first + i)).slabIndex = i
  counter : ∀ mb, InRow first n mb → (h.impl mb).counter = (CountedManager.refs m).count mb + 1

section
variable {M : Type} [LawfulManager M] {first n : Nat} {m m' : M} {h h' : Heap}

/-- No buffer was made yet. -/
theorem Making.zero (hf : Fronted (InRow first 0) m h) : Making first 0 m h :=
  ⟨hf, fun _ hi => absurd hi (Nat.not_lt_zero _), fun _ hmb => absurd hmb.2 (Nat.not_lt.mpr hmb.1)⟩

/-- The next buffer is made and pushed. -/
theorem Making.push (hm : Making first n m h) {buff : SharedBuffer}
    (hpush : BufferManager.push m (h.create (first + n) buff n) (first + n) = .ok (m', h')) :
    Making first (n + 1) m' h' := by
  have hnot : ¬ InRow first n (first + n) := fun hmb => Nat.lt_irrefl _ hmb.2
  have howned := hm.fronted.refs_owned
  have hnew : first + n ∉ (readyBuffs m).elems := fun hmem => hnot (howned _ (List.mem_append_left _ hmem))
  obtain ⟨hfronted, hpushed⟩ := LawfulManager.push_spec (hm.fronted.create hm.slabs buff)
    ⟨Nat.le_add_right _ _, Nat.lt_succ_self _⟩ hnew hpush
  refine ⟨hfronted, fun i hi => ?_, fun mb hmb => ?_⟩
  · rw [(hpushed.links _).1, Heap.create_impl]
    rcases Nat.lt_succ_iff_lt_or_eq.mp hi with hlt | rfl
    · rw [if_neg fun he => hlt.ne (Nat.add_left_cancel he), hm.slabs i hlt]
    · rw [if_pos rfl]
  · have hrefs := hpushed.refs mb
    have hcount : ((h.create (first + n) buff n).impl mb).counter = (CountedManager.refs m).count mb + 1 := by
      rw [Heap.create_impl]
      rcases inRow_succ hmb with hold | rfl
      · rw [if_neg hold.2.ne, hm.counter mb hold]
      · have hzero := List.count_eq_zero.mpr fun hmem => hnot (howned _ hmem)
        rw [if_pos rfl, hzero]
        rfl
    rw [hpushed.counter, Heap.apply_counter, hcount]
    omega

/-- The chain is set, and the local vector goes. -/
theorem Making.done (hm : Making first n m h) {h₁ : Heap} (hsame : SameBuffers h h₁)
    (hcounter : ∀ mb, (h₁.impl mb).counter = (h.impl mb).counter) :
    Fronted (InRow first n) m (h₁.apply ((List.range n).map fun i => .decr (first + i))) ∧
      ∀ mb, InRow first n mb →
        ((h₁.apply ((List.range n).map fun i => .decr (first + i))).impl mb).counter =
          (CountedManager.refs m).count mb := by
  refine ⟨(hm.fronted.congr hsame).congr (sameBuffers_apply h₁ _), fun mb hmb => ?_⟩
  have hrow : ((List.range n).map (first + ·)).count mb = 1 := by
    obtain ⟨i, rfl⟩ := Nat.exists_eq_add_of_le hmb.1
    refine List.count_eq_one_of_mem (List.nodup_range.map fun a b => Nat.add_left_cancel) ?_
    exact List.mem_map.mpr ⟨i, List.mem_range.mpr (Nat.lt_of_add_lt_add_left hmb.2), rfl⟩
  have hops : (List.range n).map (fun i => RefOp.decr (first + i)) = ((List.range n).map (first + ·)).map .decr := by
    rw [List.map_map]
    rfl
  rw [Heap.apply_counter, hcounter, hm.counter mb hmb, hops, BufferAccumulator.net_decr, hrow]
  omega

end

end CountedManager

end PothosCore.Framework

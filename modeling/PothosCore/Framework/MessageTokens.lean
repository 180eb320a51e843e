import Mathlib.Algebra.Order.BigOperators.Group.Finset
import Mathlib.Data.Fintype.Prod
import PothosCore.Fault
import PothosCore.Framework.Builtin.GenericBufferManager
import PothosCore.Framework.MessageQueues

/-!
# PothosCore.Framework.MessageTokens

Where the tokens of a port are: with the token manager, on their way back to it, or held
by as many references as the counter says, of the message that is being posted and of the
entries of the queues (`Accounted`). No operation that is in order fails.
-/

namespace PothosCore.Framework

open PothosCore.Util PothosCore.Lib

variable {O I A : Type}

/-! ### Tokens in a generic manager -/

/-- A manager whose buffers have no bytes pops one with each call, the front of its queue. -/
theorem GenericBufferManager.pop_token {m : GenericBufferManager} {h : Heap} {q : OrderedQueue ManagedBuffer}
    (hsize : m.bufferSize = 0) (hpop : m.readyBuffs.pop = .ok q) :
    ∃ m' h', m.pop h 0 = .ok (m', h') ∧ m'.readyBuffs = q ∧ m'.bufferSize = 0 := by
  have hempty : m.readyBuffs.empty = false := by
    cases hready : m.readyBuffs.readyElems with
    | nil =>
        rw [OrderedQueue.pop, hready] at hpop
        cases hpop
    | cons mb rest => rw [OrderedQueue.empty, hready]; rfl
  unfold GenericBufferManager.pop
  rw [if_neg (by rw [hempty]; exact Bool.false_ne_true)]
  simp only [hsize, Nat.not_lt_zero, if_false, hpop]
  exact ⟨_, _, rfl, rfl, rfl⟩

/-- A token that is pushed goes to its place in the queue. -/
theorem GenericBufferManager.push_token {m m' : GenericBufferManager} {h h' : Heap} {mb : ManagedBuffer}
    (hpush : m.push h mb = .ok (m', h')) : m.readyBuffs.push mb (h.impl mb).slabIndex = .ok m'.readyBuffs := by
  rw [GenericBufferManager.push] at hpush
  obtain ⟨q, hq, hpush⟩ := bind_ok hpush
  cases hpush
  exact hq

/-! ### Queues that are bounded -/

/-- A queue was doubled until it is as large as it may be at most. -/
structure Bounded {α : Type} (queue : RingDeque α) : Prop where
  capacity : ∃ n ≤ 10, queue.capacity = 2 ^ n
  le : queue.size ≤ queue.capacity

/-- The queue after a push: one more entry, unless it was full at the bound. -/
def Pushed {α : Type} (queue : RingDeque α) (elem : α) (queue' : RingDeque α) (lost : List α) : Prop :=
  (lost = [] ∧ queue'.elems = queue.elems ++ [elem]) ∨
    (queue.size = maxQueueCapacity ∧ lost = queue.elems ∧ queue'.elems = [elem])

/-- What is lost and what is in the queue is what was there, and the new entry. -/
theorem Pushed.elems_eq {α : Type} {queue queue' : RingDeque α} {elem : α} {lost : List α}
    (h : Pushed queue elem queue' lost) : queue.elems ++ [elem] = lost ++ queue'.elems := by
  rcases h with ⟨rfl, h⟩ | ⟨-, rfl, h⟩ <;> rw [h]
  rfl

theorem Bounded.start {α : Type} : Bounded (⟨[], 1⟩ : RingDeque α) := ⟨⟨0, by omega, rfl⟩, Nat.zero_le 1⟩

theorem Bounded.shrink {α : Type} {queue : RingDeque α} (h : Bounded queue) {elems : List α}
    (hle : elems.length ≤ queue.elems.length) : Bounded ⟨elems, queue.capacity⟩ :=
  ⟨h.capacity, Nat.le_trans hle h.le⟩

/-- **A bounded queue takes any entry.** -/
theorem queuePush_spec {α : Type} {queue : RingDeque α} (h : Bounded queue) (elem : α) :
    ∃ queue' lost, queuePush queue elem = .ok (queue', lost) ∧ Bounded queue' ∧ Pushed queue elem queue' lost := by
  obtain ⟨n, hn, hcap⟩ := h.capacity
  have hpos : 0 < queue.capacity := hcap ▸ Nat.two_pow_pos n
  have hle := h.le
  unfold queuePush
  by_cases hfull : queue.full = true
  · have hsize : queue.size = queue.capacity := by
      rw [RingDeque.full, beq_iff_eq] at hfull
      exact hfull
    rw [if_pos hfull]
    by_cases hmax : maxQueueCapacity ≤ queue.size
    · rw [if_pos hmax, RingDeque.pushBack_ok (q := ⟨[], queue.capacity⟩) hpos]
      have hbound : queue.capacity ≤ 2 ^ 10 := hcap ▸ Nat.pow_le_pow_right Nat.two_pos hn
      exact ⟨_, _, rfl, ⟨⟨n, hn, hcap⟩, hpos⟩,
        .inr ⟨Nat.le_antisymm (hsize ▸ hbound) hmax, rfl, rfl⟩⟩
    · have hlt : n < 10 := by
        by_contra hge
        have heq : n = 10 := by omega
        rw [hsize, hcap, heq] at hmax
        exact hmax (Nat.le_refl _)
      have hroom : queue.size < queue.capacity * 2 := by omega
      rw [if_neg hmax, RingDeque.setCapacity_ok (Nat.le_of_lt hroom) (by omega)]
      refine ⟨⟨queue.elems ++ [elem], queue.capacity * 2⟩, [], ?_, ⟨⟨n + 1, hlt, by rw [hcap, Nat.pow_succ]⟩, ?_⟩,
        .inl ⟨rfl, rfl⟩⟩
      · show (RingDeque.pushBack ⟨queue.elems, queue.capacity * 2⟩ elem >>= _) = _
        rw [RingDeque.pushBack_ok (q := ⟨queue.elems, queue.capacity * 2⟩) hroom]
        rfl
      · rw [RingDeque.size, List.length_append]
        exact hroom
  · have hlt : queue.size < queue.capacity := by
      rw [RingDeque.full, beq_iff_eq] at hfull
      exact Nat.lt_of_le_of_ne hle hfull
    rw [if_neg hfull, RingDeque.pushBack_ok hlt]
    refine ⟨_, _, rfl, ⟨⟨n, hn, hcap⟩, ?_⟩, .inl ⟨rfl, rfl⟩⟩
    rw [RingDeque.size, List.length_append]
    exact hlt

namespace Messages

variable [DecidableEq O] {s s' : Messages O I A}

/-! ### What the parts of an operation leave alone -/

@[simp] theorem release_ports (token : Option (Token O)) : (s.release token).ports = s.ports := by
  cases token <;> rfl

@[simp] theorem release_queue (token : Option (Token O)) : (s.release token).queue = s.queue := by
  cases token <;> rfl

@[simp] theorem release_gone (token : Option (Token O)) : (s.release token).gone = s.gone := by
  cases token <;> rfl

@[simp] theorem release_posted (token : Option (Token O)) : (s.release token).posted = s.posted := by
  cases token <;> rfl

@[simp] theorem drop_ports (entries : List (Entry O A)) : (s.drop entries).ports = s.ports := by
  induction entries generalizing s with
  | nil => rfl
  | cons e entries ih => exact ih.trans (release_ports _)

@[simp] theorem drop_queue (entries : List (Entry O A)) : (s.drop entries).queue = s.queue := by
  induction entries generalizing s with
  | nil => rfl
  | cons e entries ih => exact ih.trans (release_queue _)

@[simp] theorem drop_gone (entries : List (Entry O A)) : (s.drop entries).gone = s.gone := by
  induction entries generalizing s with
  | nil => rfl
  | cons e entries ih => exact ih.trans (release_gone _)

@[simp] theorem drop_posted (entries : List (Entry O A)) : (s.drop entries).posted = s.posted := by
  induction entries generalizing s with
  | nil => rfl
  | cons e entries ih => exact ih.trans (release_posted _)

@[simp] theorem acquire_ports (token : Option (Token O)) : (s.acquire token).ports = s.ports := by
  cases token <;> rfl

@[simp] theorem acquire_queue (token : Option (Token O)) : (s.acquire token).queue = s.queue := by
  cases token <;> rfl

@[simp] theorem acquire_gone (token : Option (Token O)) : (s.acquire token).gone = s.gone := by
  cases token <;> rfl

@[simp] theorem acquire_posted (token : Option (Token O)) : (s.acquire token).posted = s.posted := by
  cases token <;> rfl

@[simp] theorem acquire_returning (token : Option (Token O)) : (s.acquire token).returning = s.returning := by
  cases token <;> rfl

/-! ### References -/

/-- The references of a list of tokens. -/
def refs (tokens : List (Option (Token O))) (t : Token O) : Nat := tokens.count (some t)

/-- The references of the entries of a queue. -/
def queued (s : Messages O I A) (t : Token O) (b : Inbox I) : Nat := refs ((s.queue b).elems.map Entry.token) t

/-- The reference of the message that is being posted. -/
def hand (s : Messages O I A) (t : Token O) : Nat :=
  refs (((s.ports t.1).posting.map fun p => p.entry.token).toList) t

/-- A token is not with its manager. -/
def Out (s : Messages O I A) (t : Token O) : Prop := 0 < s.counter t ∨ t ∈ s.returning

/-- A token on its way back has no references. -/
structure Returns (s : Messages O I A) : Prop where
  nodup : s.returning.Nodup
  zero : ∀ t ∈ s.returning, s.counter t = 0

/-- **Dropping a reference** does not bring a token back yet. -/
theorem Returns.release (h : s.Returns) (token : Option (Token O)) (hpos : ∀ t, token = some t → 0 < s.counter t) :
    (s.release token).Returns ∧ (∀ t, (s.release token).Out t ↔ s.Out t) ∧
      ∀ t, (s.release token).counter t + refs [token] t = s.counter t := by
  cases token with
  | none => exact ⟨h, fun _ => Iff.rfl, fun t => by simp [Messages.release, refs]⟩
  | some t =>
      have hcount := hpos t rfl
      have hnot : t ∉ s.returning := fun hmem => by
        rw [h.zero t hmem] at hcount
        exact absurd hcount (Nat.lt_irrefl 0)
      have hself : (s.release (some t)).counter t = s.counter t - 1 := Function.update_self ..
      have hother : ∀ t', t' ≠ t → (s.release (some t)).counter t' = s.counter t' :=
        fun t' ht => Function.update_of_ne ht ..
      have hreturning : ∀ t', t' ∈ (s.release (some t)).returning ↔ t' ∈ s.returning ∨ (t' = t ∧ s.counter t = 1) := by
        intro t'
        show t' ∈ (if s.counter t = 1 then s.returning ++ [t] else s.returning) ↔ _
        by_cases hone : s.counter t = 1 <;> simp [hone]
      refine ⟨⟨?_, ?_⟩, ?_, ?_⟩
      · show (if s.counter t = 1 then s.returning ++ [t] else s.returning).Nodup
        by_cases hone : s.counter t = 1
        · rw [if_pos hone]
          exact h.nodup.append (List.nodup_singleton t) (List.disjoint_singleton.mpr hnot)
        · rw [if_neg hone]
          exact h.nodup
      · intro t' hmem
        rcases (hreturning t').mp hmem with hold | ⟨rfl, hone⟩
        · rw [hother t' fun heq => hnot (heq ▸ hold)]
          exact h.zero t' hold
        · rw [hself, hone]
      · intro t'
        rw [Out, hreturning]
        by_cases ht : t' = t
        · subst ht
          rw [hself]
          refine iff_of_true ?_ (.inl hcount)
          by_cases hone : s.counter t' = 1
          · exact .inr (.inr ⟨rfl, hone⟩)
          · exact .inl (by omega)
        · rw [hother t' ht]
          simp [ht, Out]
      · intro t'
        by_cases ht : t' = t
        · subst ht
          rw [hself]
          simp only [refs, List.count_singleton_self]
          omega
        · rw [hother t' ht]
          simp [refs, Ne.symm ht]

/-- Dropping entries whose references are there. -/
theorem Returns.drop (h : s.Returns) (entries : List (Entry O A))
    (hcount : ∀ t, refs (entries.map Entry.token) t ≤ s.counter t) :
    (s.drop entries).Returns ∧ (∀ t, (s.drop entries).Out t ↔ s.Out t) ∧
      ∀ t, (s.drop entries).counter t + refs (entries.map Entry.token) t = s.counter t := by
  induction entries generalizing s with
  | nil => exact ⟨h, fun _ => Iff.rfl, fun _ => rfl⟩
  | cons e entries ih =>
      have hsplit : ∀ t, refs ((e :: entries).map Entry.token) t =
          refs [e.token] t + refs (entries.map Entry.token) t :=
        fun t => by
          rw [refs, List.map_cons, ← List.singleton_append, List.count_append]
          rfl
      obtain ⟨hreturns, hout, hone⟩ := h.release e.token fun t ht => by
        have := hcount t
        rw [hsplit, ht] at this
        simp only [refs, List.count_singleton_self] at this
        omega
      obtain ⟨hrest, houtRest, hcounter⟩ := ih hreturns fun t => by
        have h₁ := hcount t
        have h₂ := hone t
        rw [hsplit] at h₁
        omega
      refine ⟨hrest, fun t => (houtRest t).trans (hout t), fun t => ?_⟩
      have h₁ := hcounter t
      have h₂ := hone t
      rw [hsplit]
      show ((s.release e.token).drop entries).counter t + _ = _
      omega

/-- Taking a reference of a token that is not on its way back. -/
theorem Returns.acquire (h : s.Returns) (token : Option (Token O)) (hnot : ∀ t, token = some t → t ∉ s.returning) :
    (s.acquire token).Returns ∧ (∀ t, (s.acquire token).Out t ↔ s.Out t ∨ token = some t) ∧
      ∀ t, (s.acquire token).counter t = s.counter t + refs [token] t := by
  cases token with
  | none => exact ⟨h, fun t => by simp [Messages.acquire], fun t => by simp [Messages.acquire, refs]⟩
  | some t =>
      have hself : (s.acquire (some t)).counter t = s.counter t + 1 := Function.update_self ..
      have hother : ∀ t', t' ≠ t → (s.acquire (some t)).counter t' = s.counter t' :=
        fun t' ht => Function.update_of_ne ht ..
      refine ⟨⟨h.nodup, fun t' hmem => ?_⟩, fun t' => ?_, fun t' => ?_⟩
      · rw [hother t' fun heq => hnot t rfl (heq ▸ hmem)]
        exact h.zero t' hmem
      · rw [Out, Out]
        by_cases ht : t' = t
        · subst ht
          exact iff_of_true (.inl (hself ▸ Nat.succ_pos _)) (.inr rfl)
        · rw [hother t' ht]
          simp [Ne.symm ht]
      · by_cases ht : t' = t
        · subst ht
          rw [hself]
          simp [refs]
        · rw [hother t' ht]
          simp [refs, Ne.symm ht]

/-! ### The account -/

/-- **Where the tokens are.** -/
structure Accounted [Fintype I] (s : Messages O I A) : Prop where
  returns : s.Returns
  counter : ∀ t, s.counter t = s.hand t + ∑ b, s.queued t b
  own : ∀ o p t, (s.ports o).posting = some p → p.entry.token = some t → t.1 = o
  bounded : ∀ b, Bounded (s.queue b)
  manager : ∀ o, ∃ head tail, OrderedQueue.Serving (s.ports o).tokenManager id head tail ∧
    (s.ports o).tokenManager.capacity = numTokens ∧
    ∀ slot, (s.ports o).tokenManager.CheckedOut id slot ↔ s.Out (o, slot)

omit [DecidableEq O] in
theorem start_serving : OrderedQueue.Serving allTokens id 0 numTokens where
  pos := by decide
  size := rfl
  ack := rfl
  head_le := Nat.zero_le _
  tail_le := Nat.le_refl _
  ready := rfl
  parked := fun i x hx => by
    have hmem : some x ∈ List.replicate numTokens none := List.mem_of_getElem? hx
    cases List.eq_of_mem_replicate hmem

theorem accounted_start [Fintype I] : (start : Messages O I A).Accounted where
  returns := ⟨List.nodup_nil, fun t ht => absurd ht List.not_mem_nil⟩
  counter := fun t => by simp [start, hand, queued, refs]
  own := fun o p t hp => by cases hp
  bounded := fun b => Bounded.start
  manager := fun o => by
    refine ⟨0, numTokens, start_serving, rfl, fun slot => iff_of_false ?_ ?_⟩
    · rintro ⟨hnot, hslot⟩
      have hlt : slot < numTokens := (List.getElem?_eq_some_iff.mp hslot).1
      exact hnot (List.mem_map.mpr ⟨slot, List.mem_range.mpr hlt, rfl⟩)
    · rintro (hpos | hmem)
      · exact absurd hpos (Nat.lt_irrefl 0)
      · exact absurd hmem List.not_mem_nil

variable [Fintype I]

/-- The managers stay as they are, and so do the tokens that are out. -/
theorem Accounted.of_out (h : s.Accounted) (hreturns : s'.Returns)
    (hcounter : ∀ t, s'.counter t = s'.hand t + ∑ b, s'.queued t b)
    (hown : ∀ o p t, (s'.ports o).posting = some p → p.entry.token = some t → t.1 = o)
    (hbounded : ∀ b, Bounded (s'.queue b))
    (hmanager : ∀ o, (s'.ports o).tokenManager = (s.ports o).tokenManager) (hout : ∀ t, s'.Out t ↔ s.Out t) :
    s'.Accounted where
  returns := hreturns
  counter := hcounter
  own := hown
  bounded := hbounded
  manager := fun o => by
    obtain ⟨head, tail, hserving, hcapacity, hchecked⟩ := h.manager o
    rw [hmanager]
    exact ⟨head, tail, hserving, hcapacity, fun slot => (hchecked slot).trans (hout (o, slot)).symm⟩

theorem Accounted.le_counter (h : s.Accounted) (t : Token O) (b : Inbox I) : s.hand t + s.queued t b ≤ s.counter t := by
  have hle : s.queued t b ≤ ∑ b, s.queued t b := Finset.single_le_sum (fun _ _ => Nat.zero_le _) (Finset.mem_univ b)
  rw [h.counter]
  omega

variable [DecidableEq I]

/-- Another content of one queue. -/
theorem sum_queued_setQueue (s : Messages O I A) (t : Token O) (b : Inbox I) (q : RingDeque (Entry O A))
    (left : List (Entry O A × Bool)) :
    (∑ b', (s.setQueue b q left).queued t b') + s.queued t b =
      (∑ b', s.queued t b') + refs (q.elems.map Entry.token) t := by
  have hself : (s.setQueue b q left).queued t b = refs (q.elems.map Entry.token) t := by
    show refs ((Function.update s.queue b q b).elems.map Entry.token) t = _
    rw [Function.update_self]
  have hother : ∀ b' ∈ Finset.univ.erase b, (s.setQueue b q left).queued t b' = s.queued t b' := by
    intro b' hb'
    show refs ((Function.update s.queue b q b').elems.map Entry.token) t = _
    rw [Function.update_of_ne (Finset.ne_of_mem_erase hb')]
    rfl
  have hrest : ∑ b' ∈ Finset.univ.erase b, (s.setQueue b q left).queued t b' =
      ∑ b' ∈ Finset.univ.erase b, s.queued t b' := Finset.sum_congr rfl hother
  rw [← Finset.add_sum_erase _ _ (Finset.mem_univ b),
    ← Finset.add_sum_erase _ (fun b' => s.queued t b') (Finset.mem_univ b), hrest, hself]
  omega

omit [DecidableEq O] [Fintype I] in
theorem bounded_setQueue (h : ∀ b, Bounded (s.queue b)) {b : Inbox I} {q : RingDeque (Entry O A)} (hq : Bounded q)
    (left : List (Entry O A × Bool)) (b' : Inbox I) : Bounded ((s.setQueue b q left).queue b') := by
  show Bounded (Function.update s.queue b q b')
  by_cases hb : b' = b
  · rw [hb, Function.update_self]
    exact hq
  · rw [Function.update_of_ne hb]
    exact h b'

/-- **Entries that leave a queue**, taken or cleared, drop their references. -/
theorem Accounted.leave (h : s.Accounted) {b : Inbox I} {out keep : List (Entry O A)}
    (hqueue : (s.queue b).elems = out ++ keep) (left : List (Entry O A × Bool)) :
    ((s.setQueue b ⟨keep, (s.queue b).capacity⟩ left).drop out).Accounted := by
  have hrefs : ∀ t, s.queued t b = refs (out.map Entry.token) t + refs (keep.map Entry.token) t := by
    intro t
    rw [queued, hqueue, List.map_append]
    exact List.count_append
  obtain ⟨hreturns, hout, hcounter⟩ :=
    Returns.drop (s := s.setQueue b ⟨keep, (s.queue b).capacity⟩ left) ⟨h.returns.nodup, h.returns.zero⟩ out
      fun t => by
        have hle := h.le_counter t b
        have hsplit := hrefs t
        show _ ≤ s.counter t
        omega
  refine h.of_out hreturns (fun t => ?_) ?_ ?_ (fun o => by rw [drop_ports]; rfl) hout
  · have hsum := sum_queued_setQueue s t b ⟨keep, (s.queue b).capacity⟩ left
    have hdrop := hcounter t
    have hsplit := hrefs t
    have hexact := h.counter t
    have hsame : (s.setQueue b ⟨keep, (s.queue b).capacity⟩ left).counter t = s.counter t := rfl
    have hhand : ((s.setQueue b ⟨keep, (s.queue b).capacity⟩ left).drop out).hand t = s.hand t := by
      rw [hand, drop_ports]
      rfl
    simp only [queued, drop_queue] at hsum ⊢
    rw [hhand]
    simp only [queued] at hexact hsplit
    omega
  · rw [drop_ports]
    exact h.own
  · rw [drop_queue]
    refine bounded_setQueue h.bounded ((h.bounded b).shrink ?_) left
    rw [hqueue, List.length_append]
    exact Nat.le_add_left _ _

/-- **A push** of an entry whose token is held. -/
theorem Accounted.pushEntry (h : s.Accounted) (b : Inbox I) (e : Entry O A)
    (hheld : ∀ t, e.token = some t → 0 < s.hand t) :
    ∃ s' lost, s.pushEntry b e = .ok s' ∧ s'.Accounted ∧ s'.ports = s.ports ∧ s'.posted = s.posted ∧
      Pushed (s.queue b) e (s'.queue b) lost ∧ (∀ b', b' ≠ b → s'.queue b' = s.queue b') ∧
      s'.gone = Function.update s.gone b (s.gone b ++ lost.map (·, false)) := by
  obtain ⟨q, lost, hpush, hbounded, hpushed⟩ := queuePush_spec (h.bounded b) e
  have hself : (s.setQueue b q (lost.map (·, false))).queue b = q := Function.update_self ..
  have hrefs : ∀ t, s.queued t b + refs [e.token] t =
      refs (lost.map Entry.token) t + refs (q.elems.map Entry.token) t := by
    intro t
    have hcount := congrArg (fun l => refs (l.map Entry.token) t) hpushed.elems_eq
    simp only [List.map_append, refs, List.count_append] at hcount
    exact hcount
  have hone : ∀ t, refs [e.token] t ≤ 1 := fun t => List.count_le_length
  have hlost : ∀ t, refs (lost.map Entry.token) t ≤ s.queued t b := by
    intro t
    rcases hpushed with ⟨rfl, -⟩ | ⟨-, rfl, -⟩
    · exact Nat.zero_le _
    · exact Nat.le_refl _
  obtain ⟨hreturns₁, hout₁, hcounter₁⟩ :=
    Returns.drop (s := s.setQueue b q (lost.map (·, false))) ⟨h.returns.nodup, h.returns.zero⟩ lost
      fun t => by
        have hle := h.le_counter t b
        have := hlost t
        show _ ≤ s.counter t
        omega
  have hpos : ∀ t, e.token = some t → 0 < ((s.setQueue b q (lost.map (·, false))).drop lost).counter t := by
    intro t ht
    have hdrop := hcounter₁ t
    have hle := h.le_counter t b
    have hhand := hheld t ht
    have := hlost t
    have hsame : (s.setQueue b q (lost.map (·, false))).counter t = s.counter t := rfl
    omega
  obtain ⟨hreturns₂, hout₂, hcounter₂⟩ := hreturns₁.acquire e.token fun t ht hmem => by
    have hzero := hreturns₁.zero t hmem
    have := hpos t ht
    omega
  refine ⟨_, lost, by rw [Messages.pushEntry, hpush]; rfl, ?_, by simp [setQueue], by simp [setQueue], ?_, ?_,
    by simp [setQueue]⟩
  · refine h.of_out hreturns₂ (fun t => ?_) ?_ ?_ (fun o => by simp [setQueue]) (fun t => ?_)
    · have hsum := sum_queued_setQueue s t b q (lost.map (·, false))
      have hdrop := hcounter₁ t
      have hacquire := hcounter₂ t
      have hsplit := hrefs t
      have hexact := h.counter t
      have hsame : (s.setQueue b q (lost.map (·, false))).counter t = s.counter t := rfl
      have hhand : (((s.setQueue b q (lost.map (·, false))).drop lost).acquire e.token).hand t = s.hand t := by
        rw [hand, acquire_ports, drop_ports]
        rfl
      simp only [queued, drop_queue, acquire_queue] at hsum hexact hsplit ⊢
      rw [hhand]
      omega
    · rw [acquire_ports, drop_ports]
      exact h.own
    · rw [acquire_queue, drop_queue]
      exact bounded_setQueue h.bounded hbounded _
    · rw [hout₂, hout₁]
      refine or_iff_left_of_imp fun ht => .inl ?_
      have hle := h.le_counter t b
      have := hheld t ht
      show 0 < s.counter t
      omega
  · rw [acquire_queue, drop_queue, hself]
    exact hpushed
  · intro b' hb'
    rw [acquire_queue, drop_queue]
    exact Function.update_of_ne hb' ..

end Messages

end PothosCore.Framework

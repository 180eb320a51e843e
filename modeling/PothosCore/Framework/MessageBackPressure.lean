import PothosCore.Framework.MessageDelivery

/-!
# PothosCore.Framework.MessageBackPressure

Runs. In every run each token is with its manager, held, or on its way back, and what has
left a queue and what is on its way there are the posted messages (`tokens_accounted`).

Tokens bound a queue: each call of `work` that posts begins with a token, and a port has
sixteen. So as long as a port posts in calls of `work` only, and at most `m` messages in
each, there are never more than `17 * m - 1` of its messages in a queue, whatever else its
subscribers do; queues that have room for that lose nothing (`messages_delivered`).
-/

namespace PothosCore.Framework

open PothosCore.Util PothosCore.Lib

variable {O I A : Type}

namespace Messages

variable [DecidableEq O] [DecidableEq I] (F : MessageFabric O I A)

/-- A message of a port goes to this queue. -/
def goes (o : O) (b : Inbox I) (message : A) : Bool := ((F.subscribers o).map (F.inbox · message)).contains b

/-- What has come from a port and left a queue. -/
def left (s : Messages O I A) (o : O) (b : Inbox I) : List (Entry O A) :=
  ((s.gone b).map Prod.fst).filter (Entry.From o)

/-- What has left a queue and what is on its way are what the port has posted. -/
def Delivered (s : Messages O I A) : Prop :=
  ∀ o b, (s.left o b ++ s.flow F o b).map Entry.message = (s.posted o).filter (goes F o b)

variable {F} {s s' : Messages O I A}

theorem delivered_start : (start : Messages O I A).Delivered F := fun _ _ => rfl

/-- The entries of a post are its message, for the queues that it goes to. -/
theorem Moves.added_eq {e : MessageEvent O I A} (h : s.Moves F e s') (o : O) (b : Inbox I) :
    (s'.added F o b e).map Entry.message = (posts o e).filter (goes F o b) := by
  cases e with
  | postMessage o' message =>
      rw [added, posts]
      by_cases ho : o' = o
      · subst ho
        obtain ⟨entry, htakes⟩ := h.takes o' message rfl
        rw [if_pos rfl, if_pos rfl, pending, htakes.posting]
        dsimp only
        rw [htakes.message]
        by_cases hgoes : b ∈ (F.subscribers o').map (F.inbox · message)
        · have htrue : goes F o' b message = true := List.contains_iff_mem.mpr hgoes
          rw [if_pos hgoes, List.filter_cons_of_pos htrue]
          exact congrArg (fun x => [x]) htakes.message
        · have hfalse : ¬ goes F o' b message = true := fun h => hgoes (List.contains_iff_mem.mp h)
          rw [if_neg hgoes, List.filter_cons_of_neg hfalse]
          rfl
      · rw [if_neg ho, if_neg ho]
        rfl
  | _ => rfl

theorem Delivered.step (h : s.Delivered F) {e : MessageEvent O I A} (hmoves : s.Moves F e s') : s'.Delivered F := by
  intro o b
  obtain ⟨gone, hgone, hflow, -⟩ := hmoves.queue b
  have hleft : s'.left o b = s.left o b ++ (gone.map Prod.fst).filter (Entry.From o) := by
    rw [left, hgone, List.map_append, List.filter_append]
    rfl
  rw [hleft, List.append_assoc, ← hflow o, ← List.append_assoc, List.map_append, h o b, hmoves.added_eq,
    hmoves.posted, List.filter_append]

/-! ### Every run -/

variable [Fintype I]

/-- A run keeps the account. -/
theorem Sound.run (h : s.Sound) (hnodup : ∀ o, (F.subscribers o).Nodup) {events : List (MessageEvent O I A)}
    (hrun : Exec (Step F) s events s') : s'.Sound :=
  hrun.invariant (fun s e t hs hstep => by
    obtain ⟨s'', hcall, hsound, -⟩ := hs.call hnodup hstep.1
    rw [hstep.2] at hcall
    cases hcall
    exact hsound) h

theorem Sound.delivered (h : s.Sound) (hdelivered : s.Delivered F) (hnodup : ∀ o, (F.subscribers o).Nodup)
    {events : List (MessageEvent O I A)} (hrun : Exec (Step F) s events s') : s'.Delivered F := by
  refine (hrun.invariant (P := fun s => s.Sound ∧ s.Delivered F) (fun s e t hs hstep => ?_) ⟨h, hdelivered⟩).2
  obtain ⟨s'', hcall, hsound, hmoves⟩ := hs.1.call hnodup hstep.1
  rw [hstep.2] at hcall
  cases hcall
  exact ⟨hsound, hs.2.step hmoves⟩

/-- What leaves a queue that is not cleared is taken. -/
theorem Sound.taken (h : s.Sound) (hnodup : ∀ o, (F.subscribers o).Nodup) {b : Inbox I}
    {events : List (MessageEvent O I A)} (hrun : Exec (restrict (Step F) fun s e => ¬ s.Clears b e) s events s')
    (htaken : ∀ x ∈ s.gone b, x.2 = true) : ∀ x ∈ s'.gone b, x.2 = true := by
  refine (hrun.invariant (P := fun s => s.Sound ∧ ∀ x ∈ s.gone b, x.2 = true) (fun s e t hs hstep => ?_) ⟨h, htaken⟩).2
  obtain ⟨s'', hcall, hsound, hmoves⟩ := hs.1.call hnodup hstep.1.1
  rw [hstep.1.2] at hcall
  cases hcall
  refine ⟨hsound, fun x hx => ?_⟩
  obtain ⟨gone, hgone, -, hclears⟩ := hmoves.queue b
  rw [hgone] at hx
  rcases List.mem_append.mp hx with hold | hnew
  · exact hs.2 x hold
  · by_contra hfalse
    exact hstep.2 (hclears x hnew (Bool.eq_false_iff.mpr hfalse))

omit [DecidableEq I] in
/-- The slots of a port's tokens. -/
theorem Accounted.slot_lt (h : s.Accounted) {t : Token O} (hout : s.Out t) : t.2 < numTokens := by
  obtain ⟨head, tail, hserving, hcapacity, hchecked⟩ := h.manager t.1
  have hslot := ((hchecked t.2).mpr hout).2
  rw [← hcapacity, ← hserving.size]
  exact (List.getElem?_eq_some_iff.mp hslot).1

/-- **Tokens and messages, in every run.** Every operation that is in order returns. The
counter of a token is the number of the references to it, in the message that is being
posted and in the queues; a token that has none is with its manager or on its way there.
What has left a queue and what is on its way are the posted messages, in order, and where a
queue was never cleared they were taken. -/
theorem tokens_accounted (hnodup : ∀ o, (F.subscribers o).Nodup) (events : List (MessageEvent O I A))
    (hrun : Exec (Step F) start events s) :
    (∀ e, s.Admits e → ∃ s', s.call F e = .ok s') ∧
      (∀ t, s.counter t = s.hand t + ∑ b, s.queued t b) ∧
      (∀ o slot, slot < numTokens →
        (¬ (s.ports o).tokenManager.CheckedOut id slot ∧ s.counter (o, slot) = 0 ∧ (o, slot) ∉ s.returning) ∨
        ((s.ports o).tokenManager.CheckedOut id slot ∧ 0 < s.counter (o, slot) ∧ (o, slot) ∉ s.returning) ∨
        ((s.ports o).tokenManager.CheckedOut id slot ∧ s.counter (o, slot) = 0 ∧ (o, slot) ∈ s.returning)) ∧
      s.Delivered F ∧
      ∀ b, Exec (restrict (Step F) fun s e => ¬ s.Clears b e) start events s → ∀ x ∈ s.gone b, x.2 = true := by
  have hsound := sound_start.run hnodup hrun
  refine ⟨fun e he => ?_, hsound.accounted.counter, fun o slot _ => ?_,
    sound_start.delivered delivered_start hnodup hrun,
    fun b hkept => sound_start.taken hnodup hkept fun x hx => absurd hx List.not_mem_nil⟩
  · obtain ⟨s', hcall, -⟩ := hsound.call hnodup he
    exact ⟨s', hcall⟩
  · obtain ⟨head, tail, -, -, hchecked⟩ := hsound.accounted.manager o
    rw [hchecked slot, Out]
    by_cases hreturning : (o, slot) ∈ s.returning
    · have hzero := hsound.accounted.returns.zero _ hreturning
      exact .inr (.inr ⟨.inr hreturning, hzero, hreturning⟩)
    · rcases Nat.eq_zero_or_pos (s.counter (o, slot)) with hzero | hpos
      · exact .inl ⟨fun hout => hout.elim (fun hpos => absurd hzero (Nat.pos_iff_ne_zero.mp hpos)) hreturning,
          hzero, hreturning⟩
      · exact .inr (.inl ⟨.inl hpos, hpos, hreturning⟩)

/-! ### Back-pressure -/

/-- The entry of the first post of a call of `work`. -/
def first (e : Entry O A) : Bool := e.source.any Prod.snd

/-- The posts of the current call of `work`, or `m` between the calls. -/
def postsSoFar (m : Nat) : Option Nat → Nat
  | some (k + 1) => k + 1
  | _ => m

/-- At the end of a flow there are no more entries than its first posts allow for, when no
call of `work` posts more than `m`. -/
def Spaced (m : Nat) (work : Option Nat) (flow : List (Entry O A)) : Prop :=
  ∀ l, l <:+ flow → l.length ≤ l.countP first * m + (postsSoFar m work - 1)

omit [DecidableEq O] in
theorem Spaced.suffix {m : Nat} {work : Option Nat} {flow flow' : List (Entry O A)} (h : Spaced m work flow)
    (hsuffix : flow' <:+ flow) : Spaced m work flow' := fun l hl => h l (hl.trans hsuffix)

omit [DecidableEq O] in
theorem Spaced.mono {m : Nat} {work work' : Option Nat} {flow : List (Entry O A)} (h : Spaced m work flow)
    (hle : postsSoFar m work ≤ postsSoFar m work') : Spaced m work' flow := fun l hl => by
  have := h l hl
  omega

omit [DecidableEq O] in
/-- The next post of a call of `work`. -/
theorem Spaced.post {m k : Nat} {flow : List (Entry O A)} (h : Spaced m (some k) flow) (hk : k < m) {entry : Entry O A}
    (hfirst : first entry = decide (k = 0)) : Spaced m (some (k + 1)) (flow ++ [entry]) := by
  intro l hl
  rcases l.eq_nil_or_concat with rfl | ⟨l, e, rfl⟩
  · exact Nat.zero_le _
  · rw [List.concat_eq_append] at hl ⊢
    obtain ⟨before, hbefore⟩ := hl
    rw [← List.append_assoc] at hbefore
    obtain ⟨hflow, he⟩ := List.append_inj' hbefore rfl
    obtain rfl := List.singleton_inj.mp he
    have hle := h l ⟨before, hflow⟩
    rw [List.length_append, List.length_singleton, List.countP_append, List.countP_singleton, hfirst]
    cases k with
    | zero =>
        have hm : postsSoFar m (some 0) = m := rfl
        have hone : postsSoFar m (some (0 + 1)) = 1 := rfl
        rw [hm] at hle
        rw [decide_eq_true rfl, if_pos rfl, Nat.add_mul, Nat.one_mul, hone]
        omega
    | succ k =>
        have hsome : ∀ n, postsSoFar m (some (n + 1)) = n + 1 := fun _ => rfl
        rw [hsome] at hle ⊢
        have hcount : l.countP first + 0 = l.countP first := rfl
        rw [decide_eq_false (Nat.succ_ne_zero k), if_neg Bool.false_ne_true, hcount]
        omega

/-- The operations of a run that keeps to the rules for a queue: the ports in front of it
post to it alone, in calls of `work`, at most `m` messages in each, and nobody else
pushes onto it or clears it. -/
def KeepsTo (F : MessageFabric O I A) (b : Inbox I) (m : O → Nat) (s : Messages O I A) : MessageEvent O I A → Prop
  | .postMessage o message =>
      b.1 ∈ F.subscribers o → F.inbox b.1 message = b ∧ ∃ k, (s.ports o).work = some k ∧ k < m o
  | .pushMessage i _ => (i, false) ≠ b
  | .clear b' => b' ≠ b
  | _ => True

/-- **What tokens keep of a flow**: the entries are spaced, the first posts among them have
tokens, and no two have the same. -/
structure Held (F : MessageFabric O I A) (b : Inbox I) (m : Nat) (s : Messages O I A) (o : O) : Prop where
  work : ∀ k, (s.ports o).work = some k → k ≤ m
  spaced : Spaced m (s.ports o).work (s.flow F o b)
  tokens : ((s.flow F o b).filterMap Entry.token).Nodup
  own : ∀ e ∈ s.flow F o b, ∀ t, e.token = some t → t.1 = o
  first : ∀ e ∈ s.flow F o b, first e = true → ∃ t, e.token = some t

omit [Fintype I] in
theorem held_start (b : Inbox I) (m : Nat) (o : O) : Held F b m start o where
  work := fun k hk => (by cases hk)
  spaced := fun l hl => by
    obtain rfl := List.suffix_nil.mp hl
    exact Nat.zero_le _
  tokens := List.nodup_nil
  own := fun e he => absurd he List.not_mem_nil
  first := fun e he => absurd he List.not_mem_nil

theorem postsSoFar_le {m : Nat} {work : Option Nat} (h : ∀ k, work = some k → k ≤ m) : postsSoFar m work ≤ m := by
  cases work with
  | none => exact Nat.le_refl m
  | some k =>
      cases k with
      | zero => exact Nat.le_refl m
      | succ k => exact h _ rfl

/-- The token of an entry on its way has a reference. -/
theorem Accounted.counter_pos (h : s.Accounted) {o : O} {b : Inbox I} {e : Entry O A} (he : e ∈ s.flow F o b)
    {t : Token O} (ht : e.token = some t) : 0 < s.counter t := by
  have hle := h.le_counter t b
  rcases List.mem_append.mp he with hqueue | hpending
  · have hmem : some t ∈ (s.queue b).elems.map Entry.token :=
      List.mem_map.mpr ⟨e, (List.mem_filter.mp hqueue).1, ht⟩
    have hpos : 0 < s.queued t b := List.count_pos_iff.mpr hmem
    omega
  · rw [pending] at hpending
    cases hp : (s.ports o).posting with
    | none =>
        rw [hp] at hpending
        exact absurd hpending List.not_mem_nil
    | some p =>
        rw [hp] at hpending
        dsimp only at hpending
        by_cases hmem : b ∈ p.rest.map (F.inbox · p.entry.message)
        · rw [if_pos hmem] at hpending
          obtain rfl := List.mem_singleton.mp hpending
          have hown := h.own o p t hp ht
          have hpos : 0 < s.hand t := by
            rw [hand, hown, hp]
            simp [refs, ht]
          omega
        · rw [if_neg hmem] at hpending
          exact absurd hpending List.not_mem_nil

omit [DecidableEq O] [DecidableEq I] [Fintype I] in
/-- Fewer entries have fewer tokens. -/
theorem nodup_suffix {flow flow' : List (Entry O A)} (h : (flow.filterMap Entry.token).Nodup)
    (hsuffix : flow' <:+ flow) : (flow'.filterMap Entry.token).Nodup := (hsuffix.sublist.filterMap Entry.token).nodup h

/-- **One operation.** -/
theorem Held.step {b : Inbox I} {m : O → Nat} {o : O} (h : Held F b (m o) s o) (hsound : s.Sound)
    (hb : b.1 ∈ F.subscribers o) {e : MessageEvent O I A} (hadmits : s.Admits e) (hmoves : s.Moves F e s')
    (hkeeps : KeepsTo F b m s e) : Held F b (m o) s' o := by
  obtain ⟨gone, -, hflow, -⟩ := hmoves.queue b
  have hsuffix : s'.flow F o b <:+ s.flow F o b ++ s'.added F o b e := ⟨_, (hflow o).symm⟩
  have hsame : s'.added F o b e = [] → (∀ k, (s'.ports o).work = some k → k ≤ m o) →
      postsSoFar (m o) (s.ports o).work ≤ postsSoFar (m o) (s'.ports o).work → Held F b (m o) s' o := by
    intro hadded hwork hle
    rw [hadded, List.append_nil] at hsuffix
    exact ⟨hwork, (h.spaced.mono hle).suffix hsuffix, nodup_suffix h.tokens hsuffix,
      fun e he => h.own e (hsuffix.mem he), fun e he => h.first e (hsuffix.mem he)⟩
  have hafter := hmoves.work o
  have hunchanged : s'.added F o b e = [] → (s'.ports o).work = (s.ports o).work → Held F b (m o) s' o :=
    fun hadded heq => hsame hadded (by rw [heq]; exact h.work) (by rw [heq])
  cases e with
  | preWork o' =>
      by_cases ho : o' = o
      · subst ho
        rw [workAfter, if_pos rfl] at hafter
        refine hsame rfl (fun k hk => ?_) ?_
        · rw [hafter] at hk
          cases hk
          exact Nat.zero_le _
        · rw [hafter]
          exact postsSoFar_le h.work
      · exact hunchanged rfl (hafter.trans (if_neg ho))
  | postWork o' =>
      by_cases ho : o' = o
      · subst ho
        rw [workAfter, if_pos rfl] at hafter
        refine hsame rfl (fun k hk => ?_) ?_
        · rw [hafter] at hk
          cases hk
        · rw [hafter]
          exact postsSoFar_le h.work
      · exact hunchanged rfl (hafter.trans (if_neg ho))
  | postMessage o' message =>
      by_cases ho : o' = o
      · subst ho
        obtain ⟨hinbox, k, hk, hlt⟩ := hkeeps hb
        obtain ⟨entry, htakes⟩ := hmoves.takes o' message rfl
        have hadded : s'.added F o' b (.postMessage o' message) = [entry] := by
          rw [added, if_pos rfl, pending, htakes.posting]
          dsimp only
          rw [htakes.message]
          exact if_pos (List.mem_map.mpr ⟨b.1, hb, hinbox⟩)
        rw [workAfter, if_pos rfl, hk, Option.map_some] at hafter
        have hfirst : Messages.first entry = decide (k = 0) := by
          rw [Messages.first, htakes.source, hk]
          simp
        have hspaced := h.spaced
        rw [hk] at hspaced
        rw [hadded] at hsuffix
        refine ⟨fun n hn => ?_, ?_, nodup_suffix ?_ hsuffix, fun e he t ht => ?_,
          fun e he hone => ?_⟩
        · rw [hafter] at hn
          cases hn
          exact hlt
        · rw [hafter]
          exact (hspaced.post hlt hfirst).suffix hsuffix
        · rw [List.filterMap_append]
          refine h.tokens.append ?_ fun t ht hnew => ?_
          · cases htoken : entry.token <;> simp [htoken]
          · obtain ⟨e, he, htoken⟩ := List.mem_filterMap.mp ht
            obtain ⟨e', he', htoken'⟩ := List.mem_filterMap.mp hnew
            obtain rfl := List.mem_singleton.mp he'
            exact (htakes.fresh t htoken').2 (.inl (hsound.accounted.counter_pos he htoken))
        · rcases List.mem_append.mp (hsuffix.mem he) with hold | hnew
          · exact h.own e hold t ht
          · obtain rfl := List.mem_singleton.mp hnew
            exact (htakes.fresh t ht).1
        · rcases List.mem_append.mp (hsuffix.mem he) with hold | hnew
          · exact h.first e hold hone
          · obtain rfl := List.mem_singleton.mp hnew
            rw [hfirst, decide_eq_true_iff] at hone
            exact htakes.first (by rw [hk, hone])
      · exact hunchanged (by rw [added, if_neg ho]) (hafter.trans (if_neg ho))
  | push o' => exact hunchanged rfl hafter
  | posted o' => exact hunchanged rfl hafter
  | pop b' => exact hunchanged rfl hafter
  | pushMessage i message => exact hunchanged rfl hafter
  | clear b' => exact hunchanged rfl hafter
  | bufferManagerPush t => exact hunchanged rfl hafter

/-- **A flow is bounded** by the tokens of the port. -/
theorem Held.length_le {b : Inbox I} {m : Nat} {o : O} (h : Held F b m s o) (hsound : s.Sound) :
    (s.flow F o b).length ≤ numTokens * m + (m - 1) := by
  have hslots : ((s.flow F o b).filterMap Entry.token).length ≤ numTokens := by
    have hnodup : (((s.flow F o b).filterMap Entry.token).map Prod.snd).Nodup := by
      refine h.tokens.map_on fun t ht t' ht' heq => ?_
      obtain ⟨e, he, htoken⟩ := List.mem_filterMap.mp ht
      obtain ⟨e', he', htoken'⟩ := List.mem_filterMap.mp ht'
      exact Prod.ext ((h.own e he t htoken).trans (h.own e' he' t' htoken').symm) heq
    have hsub : ((s.flow F o b).filterMap Entry.token).map Prod.snd ⊆ List.range numTokens := by
      intro slot hslot
      obtain ⟨t, ht, rfl⟩ := List.mem_map.mp hslot
      obtain ⟨e, he, htoken⟩ := List.mem_filterMap.mp ht
      exact List.mem_range.mpr (hsound.accounted.slot_lt (.inl (hsound.accounted.counter_pos he htoken)))
    have hle := (List.subperm_of_subset hnodup hsub).length_le
    rw [List.length_map, List.length_range] at hle
    exact hle
  have hcount : (s.flow F o b).countP Messages.first ≤ ((s.flow F o b).filterMap Entry.token).length := by
    rw [List.length_filterMap_eq_countP]
    refine List.countP_mono_left fun e he hone => ?_
    obtain ⟨t, ht⟩ := h.first e he hone
    rw [ht]
    rfl
  have hspaced := h.spaced _ (List.suffix_refl _)
  have hmul := Nat.mul_le_mul_right m (hcount.trans hslots)
  have hposts := postsSoFar_le h.work
  omega

omit [Fintype I] in
/-- A queue whose entries all come from some ports is as long as their flows at most. -/
theorem size_le_sum {b : Inbox I} {ports : Finset O} (h : ∀ e ∈ (s.queue b).elems, ∃ o ∈ ports, e.From o = true) :
    (s.queue b).size ≤ ∑ o ∈ ports, (s.flow F o b).length := by
  have hfilter : ∀ l : List (Entry O A), (∀ e ∈ l, ∃ o ∈ ports, e.From o = true) →
      l.length ≤ ∑ o ∈ ports, (l.filter (Entry.From o)).length := by
    intro l
    induction l with
    | nil => exact fun _ => Nat.zero_le _
    | cons e l ih =>
        intro hl
        obtain ⟨o, ho, hfrom⟩ := hl e List.mem_cons_self
        have hrest := ih fun e' he' => hl e' (List.mem_cons_of_mem e he')
        rw [← Finset.add_sum_erase _ _ ho] at hrest ⊢
        have hle : ∑ o' ∈ ports.erase o, (l.filter (Entry.From o')).length ≤
            ∑ o' ∈ ports.erase o, ((e :: l).filter (Entry.From o')).length :=
          Finset.sum_le_sum fun o' _ => ((List.sublist_cons_self e l).filter (Entry.From o')).length_le
        rw [List.length_cons, List.filter_cons_of_pos hfrom, List.length_cons]
        omega
  refine (hfilter _ h).trans (Finset.sum_le_sum fun o _ => ?_)
  rw [flow, List.length_append]
  exact Nat.le_add_right _ _

omit [Fintype I] in
/-- A pending entry comes from the port that posts it. -/
theorem Orderly.from_pending (h : s.Orderly) {o : O} {b : Inbox I} {e : Entry O A} (he : e ∈ s.pending F o b) :
    e.From o = true := by
  rw [pending] at he
  cases hp : (s.ports o).posting with
  | none =>
      rw [hp] at he
      exact absurd he List.not_mem_nil
  | some p =>
      rw [hp] at he
      dsimp only at he
      by_cases hmem : b ∈ p.rest.map (F.inbox · p.entry.message)
      · rw [if_pos hmem] at he
        rw [List.mem_singleton.mp he]
        exact h.source o p hp
      · rw [if_neg hmem] at he
        exact absurd he List.not_mem_nil

omit [Fintype I] in
/-- A port adds nothing to the queues of a port that does not subscribe to it. -/
theorem Moves.added_of_not_mem {e : MessageEvent O I A} (h : s.Moves F e s') {o : O} {b : Inbox I}
    (hb : b.1 ∉ F.subscribers o) : s'.added F o b e = [] := by
  cases e with
  | postMessage o' message =>
      rw [added]
      by_cases ho : o' = o
      · subst ho
        obtain ⟨entry, htakes⟩ := h.takes o' message rfl
        rw [if_pos rfl, pending, htakes.posting]
        refine if_neg fun hmem => hb ?_
        obtain ⟨i, hi, heq⟩ := List.mem_map.mp hmem
        exact heq ▸ hi
      · rw [if_neg ho]
  | _ => rfl

/-- What a run that keeps to the rules for a queue has done. -/
structure Relieved (F : MessageFabric O I A) (b : Inbox I) (m : O → Nat) (ports : Finset O) (s : Messages O I A) :
    Prop where
  sound : s.Sound
  delivered : s.Delivered F
  held : ∀ o ∈ ports, Held F b (m o) s o
  others : ∀ o, o ∉ ports → s.flow F o b = []
  entries : ∀ e ∈ (s.queue b).elems, ∃ o ∈ ports, e.From o = true
  taken : ∀ x ∈ s.gone b, x.2 = true

/-- The longest that a queue gets. -/
def longest (m : O → Nat) (ports : Finset O) : Nat := ∑ o ∈ ports, (numTokens * m o + (m o - 1))

theorem Relieved.size_le {b : Inbox I} {m : O → Nat} {ports : Finset O} (h : Relieved F b m ports s) :
    (s.queue b).size ≤ longest m ports :=
  (size_le_sum h.entries).trans (Finset.sum_le_sum fun o ho => (h.held o ho).length_le h.sound)

/-- **One operation** of a run that keeps to the rules. -/
theorem Relieved.step {b : Inbox I} {m : O → Nat} {ports : Finset O} (h : Relieved F b m ports s)
    (hnodup : ∀ o, (F.subscribers o).Nodup) (hports : ∀ o, o ∈ ports ↔ b.1 ∈ F.subscribers o)
    (hroom : longest m ports < maxQueueCapacity) {e : MessageEvent O I A} (hstep : Step F s e s')
    (hkeeps : KeepsTo F b m s e) : Relieved F b m ports s' := by
  obtain ⟨s'', hcall, hsound, hmoves⟩ := h.sound.call hnodup hstep.1
  rw [hstep.2] at hcall
  cases hcall
  refine ⟨hsound, h.delivered.step hmoves, fun o ho => (h.held o ho).step h.sound ((hports o).mp ho) hstep.1 hmoves
    hkeeps, fun o ho => ?_, fun x hx => ?_, fun x hx => ?_⟩
  · obtain ⟨gone, -, hflow, -⟩ := hmoves.queue b
    have hadded : s'.added F o b e = [] := hmoves.added_of_not_mem fun hmem => ho ((hports o).mpr hmem)
    have hnil := hflow o
    rw [h.others o ho, hadded] at hnil
    exact (List.append_eq_nil_iff.mp hnil.symm).2
  · rcases hmoves.entries b x hx with hold | ⟨o, hpending⟩ | ⟨message, rfl, hslot⟩
    · exact h.entries x hold
    · refine ⟨o, ?_, h.sound.orderly.from_pending hpending⟩
      by_contra ho
      have hmem : x ∈ s.flow F o b := List.mem_append_right _ hpending
      rw [h.others o ho] at hmem
      exact absurd hmem List.not_mem_nil
    · have hb : (b.1, false) = b := Prod.ext rfl hslot.symm
      exact absurd hb hkeeps
  · obtain ⟨gone, hgone, -, hclears⟩ := hmoves.queue b
    rw [hgone] at hx
    rcases List.mem_append.mp hx with hold | hnew
    · exact h.taken x hold
    · by_contra hfalse
      rcases hclears x hnew (Bool.eq_false_iff.mpr hfalse) with rfl | hfull
      · exact hkeeps rfl
      · have := h.size_le
        omega

/-- **Back-pressure.** Let the ports in front of a queue post to it in calls of `work` only,
at most `m o` messages in each, and let the queue have room for `17 * m o - 1` messages of
each of them. Then in every run, however slow the subscribers are, the queue never
overflows: what has left it was taken, and what was taken, what is queued and what is about
to be pushed are the messages that each of the ports has posted, in order. -/
theorem messages_delivered (hnodup : ∀ o, (F.subscribers o).Nodup) (b : Inbox I) (m : O → Nat) (ports : Finset O)
    (hports : ∀ o, o ∈ ports ↔ b.1 ∈ F.subscribers o) (hroom : longest m ports < maxQueueCapacity)
    (events : List (MessageEvent O I A)) (hrun : Exec (restrict (Step F) (KeepsTo F b m)) start events s) :
    (s.queue b).size ≤ longest m ports ∧ (∀ x ∈ s.gone b, x.2 = true) ∧
      ∀ o, (s.left o b ++ s.flow F o b).map Entry.message = (s.posted o).filter (goes F o b) := by
  have hrelieved : Relieved F b m ports s := by
    refine hrun.invariant (fun s e t hs hstep => hs.step hnodup hports hroom hstep.1 hstep.2) ?_
    exact ⟨sound_start, delivered_start, fun o _ => held_start b (m o) o, fun _ _ => rfl,
      fun e he => absurd he List.not_mem_nil, fun x hx => absurd hx List.not_mem_nil⟩
  exact ⟨hrelieved.size_le, hrelieved.taken, fun o => hrelieved.delivered o b⟩

/-- A port with one subscriber, and a call of `work` that posts twice. -/
def oneSubscriber : MessageFabric Unit Unit Nat := ⟨fun _ => [()], fun _ => false, fun _ => false⟩

def postTwo : List (MessageEvent Unit Unit Nat) :=
  [.preWork (), .postMessage () 7, .push (), .posted (), .pop ((), false), .bufferManagerPush ((), 0),
    .postMessage () 8, .push (), .posted (), .postWork ()]

theorem postTwo_run :
    ∃ s, Exec (restrict (Step oneSubscriber) (KeepsTo oneSubscriber ((), false) fun _ => 2)) start postTwo s :=
  ⟨_, .cons ⟨⟨⟨rfl, rfl, rfl⟩, rfl⟩, trivial⟩ <|
    .cons ⟨⟨rfl, rfl⟩, fun _ => ⟨rfl, 0, rfl, by decide⟩⟩ <|
    .cons ⟨⟨⟨_, rfl, List.cons_ne_nil _ _⟩, rfl⟩, trivial⟩ <|
    .cons ⟨⟨⟨_, rfl, rfl⟩, rfl⟩, trivial⟩ <|
    .cons ⟨⟨List.cons_ne_nil _ _, rfl⟩, trivial⟩ <|
    .cons ⟨⟨List.mem_cons_self, rfl⟩, trivial⟩ <|
    .cons ⟨⟨rfl, rfl⟩, fun _ => ⟨rfl, 1, rfl, by decide⟩⟩ <|
    .cons ⟨⟨⟨_, rfl, List.cons_ne_nil _ _⟩, rfl⟩, trivial⟩ <|
    .cons ⟨⟨⟨_, rfl, rfl⟩, rfl⟩, trivial⟩ <|
    .cons ⟨⟨rfl, rfl⟩, trivial⟩ <|
    .nil _⟩

theorem oneSubscriber_nodup (o : Unit) : (oneSubscriber.subscribers o).Nodup := List.nodup_singleton ()

theorem postTwo_accounted :
    ∃ s, Exec (Step oneSubscriber) start postTwo s ∧ (∀ t, s.counter t = s.hand t + ∑ b, s.queued t b) ∧
      s.Delivered oneSubscriber := by
  obtain ⟨s, hrun⟩ := postTwo_run
  obtain ⟨-, hcounter, -, hdelivered, -⟩ := tokens_accounted oneSubscriber_nodup postTwo hrun.of_restrict
  exact ⟨s, hrun.of_restrict, hcounter, hdelivered⟩

theorem postTwo_delivered :
    ∃ s : Messages Unit Unit Nat, (s.queue ((), false)).size ≤ longest (fun _ => 2) {()} ∧
      (∀ x ∈ s.gone ((), false), x.2 = true) ∧
      ∀ o, (s.left o ((), false) ++ s.flow oneSubscriber o ((), false)).map Entry.message =
        (s.posted o).filter (goes oneSubscriber o ((), false)) := by
  obtain ⟨s, hrun⟩ := postTwo_run
  exact ⟨s, messages_delivered oneSubscriber_nodup ((), false) (fun _ => 2) {()} (fun o => by simp [oneSubscriber])
    (by decide) postTwo hrun⟩

end Messages

end PothosCore.Framework

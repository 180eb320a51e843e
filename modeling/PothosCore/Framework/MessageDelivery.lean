import PothosCore.Framework.MessageTokens

/-!
# PothosCore.Framework.MessageDelivery

What an operation does to the messages of one port in one queue: the flow from the port to
the queue, that is the entries in the queue and the one that is yet to be pushed, grows at
its end with a post, and loses what leaves the queue at its front (`Moves`). So in any run
what has left a queue, and what is on its way, are the messages that were posted, in order.
-/

namespace PothosCore.Framework

open PothosCore.Util PothosCore.Lib

variable {O I A : Type}

namespace Messages

section

variable [DecidableEq I] (F : MessageFabric O I A)

/-- The entry that is yet to be pushed onto a queue. -/
def pending (s : Messages O I A) (o : O) (b : Inbox I) : List (Entry O A) :=
  match (s.ports o).posting with
  | some p => if b ∈ p.rest.map (F.inbox · p.entry.message) then [p.entry] else []
  | none => []

variable [DecidableEq O]

/-- The entries on their way from a port through a queue. -/
def flow (s : Messages O I A) (o : O) (b : Inbox I) : List (Entry O A) :=
  (s.queue b).elems.filter (Entry.From o) ++ s.pending F o b

/-- What an operation adds to a flow: a post adds the new entry. -/
def added (s' : Messages O I A) (o : O) (b : Inbox I) : MessageEvent O I A → List (Entry O A)
  | .postMessage o' _ => if o' = o then s'.pending F o b else []
  | _ => []

/-- The messages of an operation that a port posts. -/
def posts (o : O) : MessageEvent O I A → List A
  | .postMessage o' message => if o' = o then [message] else []
  | _ => []

/-- A queue is cleared by this operation: it was asked to, or an entry was pushed onto it
when it was full at the bound. -/
def Clears (s : Messages O I A) (b : Inbox I) (e : MessageEvent O I A) : Prop :=
  e = .clear b ∨ (s.queue b).size = maxQueueCapacity

/-- The posts of a call of `work`, after an operation. -/
def workAfter (o : O) (work : Option Nat) : MessageEvent O I A → Option Nat
  | .preWork o' => if o' = o then some 0 else work
  | .postMessage o' _ => if o' = o then work.map (· + 1) else work
  | .postWork o' => if o' = o then none else work
  | _ => work

/-- A post makes an entry, with a token that was with the manager; the first post of a call
of `work` has one. -/
structure Takes (s : Messages O I A) (o : O) (message : A) (s' : Messages O I A) (entry : Entry O A) : Prop where
  posting : (s'.ports o).posting = some ⟨entry, F.subscribers o⟩
  message : entry.message = message
  source : entry.source = some (o, decide ((s.ports o).work = some 0))
  fresh : ∀ t, entry.token = some t → t.1 = o ∧ ¬ s.Out t
  first : (s.ports o).work = some 0 → ∃ t, entry.token = some t

/-- **What an operation moves.** -/
structure Moves (s : Messages O I A) (e : MessageEvent O I A) (s' : Messages O I A) : Prop where
  queue : ∀ b, ∃ left, s'.gone b = s.gone b ++ left ∧
    (∀ o, s.flow F o b ++ s'.added F o b e = (left.map Prod.fst).filter (Entry.From o) ++ s'.flow F o b) ∧
    ∀ x ∈ left, x.2 = false → s.Clears b e
  posted : ∀ o, s'.posted o = s.posted o ++ posts o e
  work : ∀ o, (s'.ports o).work = workAfter o (s.ports o).work e
  takes : ∀ o message, e = .postMessage o message → ∃ entry, s.Takes F o message s' entry
  entries : ∀ b, ∀ x ∈ (s'.queue b).elems, x ∈ (s.queue b).elems ∨ (∃ o, x ∈ s.pending F o b) ∨
    ∃ message, e = .pushMessage b.1 message ∧ b.2 = false

/-- A port posts one message at a time, which it has not yet pushed to any of the rest of
its subscribers, and starts to work with a token. -/
structure Orderly (s : Messages O I A) : Prop where
  source : ∀ o p, (s.ports o).posting = some p → p.entry.From o = true
  nodup : ∀ o p, (s.ports o).posting = some p → p.rest.Nodup
  ready : ∀ o, (s.ports o).work = some 0 → (s.ports o).tokenManager.empty = false

/-- The state of the ports in a run. -/
structure Sound [Fintype I] (s : Messages O I A) : Prop where
  accounted : s.Accounted
  orderly : s.Orderly

end

variable [DecidableEq O] [DecidableEq I] {F : MessageFabric O I A} {s s' : Messages O I A}

omit [DecidableEq I] in
theorem sound_start [Fintype I] : (start : Messages O I A).Sound :=
  ⟨accounted_start, ⟨fun _ _ hp => (by cases hp), fun _ _ hp => (by cases hp), fun _ hwork => (by cases hwork)⟩⟩

theorem added_of_ne {e : MessageEvent O I A} (h : ∀ o message, e ≠ .postMessage o message) (o : O) (b : Inbox I) :
    s.added F o b e = [] := by
  cases e with
  | postMessage o' message => exact absurd rfl (h o' message)
  | _ => rfl

omit [DecidableEq I] in
theorem posts_of_ne {e : MessageEvent O I A} (h : ∀ o message, e ≠ .postMessage o message) (o : O) :
    posts o e = [] := by
  cases e with
  | postMessage o' message => exact absurd rfl (h o' message)
  | _ => rfl

/-- An operation that moves no message. -/
theorem Moves.of_same {e : MessageEvent O I A} (hpost : ∀ o message, e ≠ .postMessage o message)
    (hqueue : s'.queue = s.queue) (hgone : s'.gone = s.gone) (hposted : s'.posted = s.posted)
    (hpending : ∀ o b, s'.pending F o b = s.pending F o b)
    (hwork : ∀ o, (s'.ports o).work = workAfter o (s.ports o).work e) : s.Moves F e s' where
  queue := fun b => by
    refine ⟨[], by rw [hgone, List.append_nil], fun o => ?_, fun x hx => absurd hx List.not_mem_nil⟩
    rw [added_of_ne hpost, List.append_nil, flow, flow, hqueue, hpending]
    rfl
  posted := fun o => by rw [hposted, posts_of_ne hpost, List.append_nil]
  work := hwork
  takes := fun o message he => absurd he (hpost o message)
  entries := fun b x hx => .inl (hqueue ▸ hx)

omit [DecidableEq O] in
theorem pending_congr {o : O} (h : (s'.ports o).posting = (s.ports o).posting) (b : Inbox I) :
    s'.pending F o b = s.pending F o b := by
  rw [pending, pending, h]

omit [DecidableEq I] in
@[simp] theorem setPort_ports (o : O) (port : MessagePort O I A) :
    (s.setPort o port).ports = Function.update s.ports o port := rfl

omit [DecidableEq I] in
/-- One port has changed. -/
theorem Orderly.of_port (h : s.Orderly) {o : O} (hothers : ∀ o', o' ≠ o → s'.ports o' = s.ports o')
    (hposting : ∀ p, (s'.ports o).posting = some p → p.entry.From o = true ∧ p.rest.Nodup)
    (hready : (s'.ports o).work = some 0 → (s'.ports o).tokenManager.empty = false) : s'.Orderly := by
  have hcases : ∀ o', o' = o ∨ s'.ports o' = s.ports o' := fun o' => (em (o' = o)).imp_right (hothers o')
  refine ⟨fun o' p hp => ?_, fun o' p hp => ?_, fun o' hwork => ?_⟩
  · rcases hcases o' with rfl | heq
    · exact (hposting p hp).1
    · exact h.source o' p (heq ▸ hp)
  · rcases hcases o' with rfl | heq
    · exact (hposting p hp).2
    · exact h.nodup o' p (heq ▸ hp)
  · rcases hcases o' with rfl | heq
    · exact hready hwork
    · rw [heq] at hwork ⊢
      exact h.ready o' hwork

variable [Fintype I]

/-! ### Operations on a port -/

omit [DecidableEq I] in
/-- A port that changes neither its tokens nor what it posts. -/
theorem Accounted.setPort (h : s.Accounted) {o : O} {port : MessagePort O I A}
    (hmanager : port.tokenManager = (s.ports o).tokenManager)
    (hposting : port.posting.map Posting.entry = (s.ports o).posting.map Posting.entry) :
    (s.setPort o port).Accounted := by
  have hentry : ∀ o', ((s.setPort o port).ports o').posting.map Posting.entry =
      (s.ports o').posting.map Posting.entry := by
    intro o'
    rw [setPort_ports]
    by_cases ho : o' = o
    · rw [ho, Function.update_self, hposting]
    · rw [Function.update_of_ne ho]
  refine h.of_out ⟨h.returns.nodup, h.returns.zero⟩ (fun t => ?_) (fun o' p t hp ht => ?_) h.bounded (fun o' => ?_)
    fun t => Iff.rfl
  · have hhand : (s.setPort o port).hand t = s.hand t := by
      have hmap := congrArg (Option.map Entry.token) (hentry t.1)
      rw [Option.map_map, Option.map_map] at hmap
      exact congrArg (fun x => refs x.toList t) hmap
    rw [hhand]
    exact h.counter t
  · have hmap := hentry o'
    rw [hp] at hmap
    obtain ⟨p', hp', heq⟩ := Option.map_eq_some_iff.mp hmap.symm
    exact h.own o' p' t hp' (heq ▸ ht)
  · rw [setPort_ports]
    by_cases ho : o' = o
    · rw [ho, Function.update_self, hmanager]
    · rw [Function.update_of_ne ho]

/-- `preWorkTasks` and the end of `postWorkTasks`. -/
theorem Sound.setWork (h : s.Sound) {o : O} {work : Option Nat}
    (hwork : work = some 0 → (s.ports o).tokenManager.empty = false) {e : MessageEvent O I A}
    (hpost : ∀ o message, e ≠ .postMessage o message)
    (hafter : ∀ o', workAfter o' (s.ports o').work e = if o = o' then work else (s.ports o').work) :
    (s.setPort o { s.ports o with work := work }).Sound ∧
      s.Moves F e (s.setPort o { s.ports o with work := work }) := by
  have hself : (s.setPort o { s.ports o with work := work }).ports o = { s.ports o with work := work } :=
    Function.update_self ..
  have hothers : ∀ o', o' ≠ o → (s.setPort o { s.ports o with work := work }).ports o' = s.ports o' :=
    fun o' ho => Function.update_of_ne ho ..
  have hports : ∀ o', ((s.setPort o { s.ports o with work := work }).ports o').posting = (s.ports o').posting := by
    intro o'
    by_cases ho : o' = o
    · rw [ho, hself]
    · rw [hothers o' ho]
  refine ⟨⟨h.accounted.setPort rfl rfl, h.orderly.of_port hothers ?_ ?_⟩,
    .of_same hpost rfl rfl rfl (fun o' b => pending_congr (hports o') b) fun o' => ?_⟩
  · intro p hp
    rw [hports] at hp
    exact ⟨h.orderly.source o p hp, h.orderly.nodup o p hp⟩
  · rw [hself]
    exact hwork
  · rw [hafter]
    by_cases ho : o = o'
    · subst ho
      rw [hself, if_pos rfl]
    · rw [hothers o' (Ne.symm ho), if_neg ho]

/-! ### A post and its pushes -/

/-- A pop of a token takes the front of the queue, if there is one. -/
theorem tokenManagerPop_spec {tokens : OrderedQueue Nat} {head tail : Nat}
    (hserving : OrderedQueue.Serving tokens id head tail) :
    ∃ slot tokens', tokenManagerPop tokens = .ok (slot, tokens') ∧
      (∃ head', OrderedQueue.Serving tokens' id head' tail) ∧ tokens'.capacity = tokens.capacity ∧
      (∀ k, tokens'.CheckedOut id k ↔ tokens.CheckedOut id k ∨ slot = some k) ∧
      (∀ k, slot = some k → ¬ tokens.CheckedOut id k) ∧ (tokens.empty = false → slot ≠ none) := by
  cases hfront : tokens.front with
  | none =>
      refine ⟨none, tokens, by rw [tokenManagerPop, hfront], ⟨head, hserving⟩, rfl, fun k => by simp, by simp,
        fun hempty => ?_⟩
      rw [OrderedQueue.front, List.head?_eq_none_iff] at hfront
      rw [OrderedQueue.empty, hfront] at hempty
      cases hempty
  | some slot =>
      obtain ⟨tokens', hpop, hserving', hcapacity, hready, -, hchecked⟩ := OrderedQueue.pop_spec hserving hfront
      refine ⟨some slot, tokens', ?_, ⟨head + 1, hserving'⟩, hcapacity, fun k => ?_, ?_,
        fun _ => Option.some_ne_none slot⟩
      · rw [tokenManagerPop, hfront]
        show (OrderedQueue.pop _ >>= _) = _
        rw [hpop]
        rfl
      · rw [hchecked]
        simp [eq_comm]
      · intro k hk hout
        obtain rfl := Option.some.inj hk
        refine hout.1 ?_
        rw [hready]
        exact List.mem_map.mpr ⟨slot, List.mem_cons_self, rfl⟩

variable (F) in
/-- The port after a post that has taken a token. -/
def postingPort (s : Messages O I A) (o : O) (message : A) (token : Option (Token O)) (tokens : OrderedQueue Nat) :
    MessagePort O I A :=
  ⟨tokens, (s.ports o).work.map (· + 1),
    some ⟨⟨message, token, some (o, (s.ports o).work = some 0)⟩, F.subscribers o⟩⟩

variable (F) in
/-- The state after a post that has taken a token. -/
def afterPost (s : Messages O I A) (o : O) (message : A) (token : Option (Token O)) (tokens : OrderedQueue Nat) :
    Messages O I A :=
  { (s.acquire token).setPort o (s.postingPort F o message token tokens) with
    posted := Function.update (s.acquire token).posted o ((s.acquire token).posted o ++ [message]) }

section

variable {o : O} {message : A} {token : Option (Token O)} {tokens : OrderedQueue Nat}

omit [DecidableEq I] [Fintype I] in
theorem afterPost_ports_self :
    (s.afterPost F o message token tokens).ports o = s.postingPort F o message token tokens :=
  Function.update_self ..

omit [DecidableEq I] [Fintype I] in
theorem afterPost_ports_of_ne {o' : O} (ho : o' ≠ o) :
    (s.afterPost F o message token tokens).ports o' = s.ports o' := by
  show Function.update (s.acquire token).ports o _ o' = _
  rw [Function.update_of_ne ho, acquire_ports]

omit [DecidableEq I] [Fintype I] in
theorem afterPost_queue : (s.afterPost F o message token tokens).queue = s.queue := acquire_queue token

omit [DecidableEq I] in
/-- The reference of a token that is taken is that of the message. -/
theorem Accounted.afterPost (h : s.Accounted) (hidle : (s.ports o).posting = none)
    (htoken : ∀ t, token = some t → t.1 = o ∧ ¬ s.Out t) {head tail : Nat}
    (hserving : OrderedQueue.Serving tokens id head tail) (hcapacity : tokens.capacity = numTokens)
    (hchecked : ∀ k, tokens.CheckedOut id k ↔ s.Out (o, k) ∨ token = some (o, k)) :
    (s.afterPost F o message token tokens).Accounted := by
  obtain ⟨hreturns, hout, hcounter⟩ := h.returns.acquire token
    fun t ht hmem => (htoken t ht).2 (.inr hmem)
  have hself : (s.afterPost F o message token tokens).ports o = s.postingPort F o message token tokens :=
    afterPost_ports_self
  have houtAll : ∀ t, (s.afterPost F o message token tokens).Out t ↔ s.Out t ∨ token = some t := hout
  refine ⟨⟨hreturns.nodup, hreturns.zero⟩, fun t => ?_, fun o' p t hp ht => ?_, fun b => ?_, fun o' => ?_⟩
  · have hexact := h.counter t
    have hsum : ∑ b, (s.afterPost F o message token tokens).queued t b = ∑ b, s.queued t b := by
      simp only [queued, afterPost_queue]
    show (s.acquire token).counter t = _
    rw [hcounter, hexact, hsum]
    by_cases ho : t.1 = o
    · have hnone : s.hand t = 0 := by
        rw [hand, ho, hidle]
        rfl
      have hnew : (s.afterPost F o message token tokens).hand t = refs [token] t := by
        rw [hand, ho, hself]
        rfl
      omega
    · have hsame : (s.afterPost F o message token tokens).hand t = s.hand t := by
        rw [hand, hand, afterPost_ports_of_ne ho]
      have hzero : refs [token] t = 0 := by
        refine List.count_eq_zero.mpr fun hmem => ?_
        exact ho (htoken t (List.mem_singleton.mp hmem).symm).1
      omega
  · by_cases ho : o' = o
    · subst ho
      rw [hself] at hp
      cases hp
      exact (htoken t ht).1
    · rw [afterPost_ports_of_ne ho] at hp
      exact h.own o' p t hp ht
  · rw [afterPost_queue]
    exact h.bounded b
  · by_cases ho : o' = o
    · subst ho
      rw [hself]
      exact ⟨head, tail, hserving, hcapacity, fun k => (hchecked k).trans (houtAll (o', k)).symm⟩
    · rw [afterPost_ports_of_ne ho]
      obtain ⟨head', tail', hserving', hcapacity', hchecked'⟩ := h.manager o'
      refine ⟨head', tail', hserving', hcapacity', fun k => ?_⟩
      rw [houtAll, hchecked']
      exact (or_iff_left fun ht => ho (htoken _ ht).1).symm

omit [DecidableEq I] [Fintype I] in
theorem Orderly.afterPost (h : s.Orderly) (hnodup : (F.subscribers o).Nodup) :
    (s.afterPost F o message token tokens).Orderly := by
  refine h.of_port (fun o' ho => afterPost_ports_of_ne ho) (fun p hp => ?_) fun hwork => ?_
  · rw [afterPost_ports_self] at hp
    cases hp
    exact ⟨decide_eq_true rfl, hnodup⟩
  · rw [afterPost_ports_self] at hwork
    obtain ⟨n, -, hn⟩ := Option.map_eq_some_iff.mp hwork
    exact absurd hn (Nat.succ_ne_zero n)

omit [Fintype I] in
/-- The new entry is at the end of the flow to each queue that it goes to. -/
theorem Moves.afterPost (hidle : (s.ports o).posting = none) (htoken : ∀ t, token = some t → t.1 = o ∧ ¬ s.Out t)
    (hfirst : (s.ports o).work = some 0 → ∃ t, token = some t) :
    s.Moves F (.postMessage o message) (s.afterPost F o message token tokens) where
  queue b := by
    refine ⟨[], ?_, fun o' => ?_, fun x hx => absurd hx List.not_mem_nil⟩
    · rw [List.append_nil]
      exact congrFun (acquire_gone token) b
    · rw [flow, flow, afterPost_queue]
      by_cases ho : o' = o
      · subst ho
        have hnone : s.pending F o' b = [] := by rw [pending, hidle]
        rw [hnone, List.append_nil, added, if_pos rfl]
        rfl
      · have hsame : (s.afterPost F o message token tokens).pending F o' b = s.pending F o' b :=
          pending_congr (by rw [afterPost_ports_of_ne ho]) b
        rw [added, if_neg (Ne.symm ho), List.append_nil, hsame]
        rfl
  posted o' := by
    show Function.update (s.acquire token).posted o ((s.acquire token).posted o ++ [message]) o' = _
    rw [acquire_posted]
    by_cases ho : o' = o
    · subst ho
      rw [Function.update_self, posts, if_pos rfl]
    · rw [Function.update_of_ne ho, posts, if_neg (Ne.symm ho), List.append_nil]
  work o' := by
    rw [workAfter]
    by_cases ho : o' = o
    · subst ho
      rw [afterPost_ports_self, if_pos rfl]
      rfl
    · rw [afterPost_ports_of_ne ho, if_neg (Ne.symm ho)]
  takes o' message' he := by
    cases he
    exact ⟨_, by rw [afterPost_ports_self]; rfl, rfl, rfl, htoken, hfirst⟩
  entries b x hx := .inl (afterPost_queue (s := s) ▸ hx)

end

/-- The start of `_postMessage`. -/
theorem Sound.postMessage (h : s.Sound) (hnodup : ∀ o, (F.subscribers o).Nodup) {o : O} (message : A)
    (hidle : (s.ports o).posting = none) :
    ∃ s', s.call F (.postMessage o message) = .ok s' ∧ s'.Sound ∧ s.Moves F (.postMessage o message) s' := by
  obtain ⟨head, tail, hserving, hcapacity, hchecked⟩ := h.accounted.manager o
  obtain ⟨slot, tokens, hpop, ⟨head', hserving'⟩, hcapacity', hchecked', hfresh, hsome⟩ := tokenManagerPop_spec hserving
  have htoken : ∀ t, slot.map (o, ·) = some t → t.1 = o ∧ ¬ s.Out t := by
    intro t ht
    obtain ⟨k, hk, rfl⟩ := Option.map_eq_some_iff.mp ht
    exact ⟨rfl, fun hout => hfresh k hk ((hchecked k).mpr hout)⟩
  have hout : ∀ k, tokens.CheckedOut id k ↔ s.Out (o, k) ∨ slot.map (o, ·) = some (o, k) := by
    intro k
    rw [hchecked', hchecked, Option.map_eq_some_iff]
    simp
  have hfirst : (s.ports o).work = some 0 → ∃ t, slot.map (o, ·) = some t := by
    intro hzero
    obtain ⟨k, hk⟩ := Option.ne_none_iff_exists'.mp (hsome (h.orderly.ready o hzero))
    exact ⟨(o, k), by rw [hk]; rfl⟩
  refine ⟨s.afterPost F o message (slot.map (o, ·)) tokens, ?_,
    ⟨h.accounted.afterPost hidle htoken hserving' (hcapacity'.trans hcapacity) hout, h.orderly.afterPost (hnodup o)⟩,
    Moves.afterPost hidle htoken hfirst⟩
  show (tokenManagerPop (s.ports o).tokenManager >>= _) = _
  rw [hpop]
  rfl

omit [Fintype I] in
/-- An entry that was pending, or comes from no port, is pushed. -/
theorem Moves.of_pushed {e : MessageEvent O I A} {b : Inbox I} {entry : Entry O A} {lost : List (Entry O A)}
    (hpushed : Pushed (s.queue b) entry (s'.queue b) lost) (hqueue : ∀ b', b' ≠ b → s'.queue b' = s.queue b')
    (hgone : s'.gone = Function.update s.gone b (s.gone b ++ lost.map (·, false))) (hposted : s'.posted = s.posted)
    (hpending : ∀ o, s.pending F o b = [entry].filter (Entry.From o) ++ s'.pending F o b)
    (hother : ∀ o b', b' ≠ b → s'.pending F o b' = s.pending F o b')
    (hpost : ∀ o message, e ≠ .postMessage o message)
    (hwork : ∀ o, (s'.ports o).work = workAfter o (s.ports o).work e)
    (hentry : (∃ o, entry ∈ s.pending F o b) ∨ ∃ message, e = .pushMessage b.1 message ∧ b.2 = false) :
    s.Moves F e s' where
  queue := fun b' => by
    rw [hgone]
    by_cases hb : b' = b
    · subst hb
      refine ⟨lost.map (·, false), Function.update_self .., fun o => ?_, fun x hx _ => .inr ?_⟩
      · have hfilter := congrArg (List.filter (Entry.From o)) hpushed.elems_eq
        rw [List.filter_append, List.filter_append] at hfilter
        have hlost : (lost.map (·, false)).map Prod.fst = lost := by
          rw [List.map_map]
          exact List.map_id lost
        rw [added_of_ne hpost, List.append_nil, flow, flow, hpending, hlost, ← List.append_assoc, hfilter,
          List.append_assoc]
      · rcases hpushed with ⟨rfl, -⟩ | ⟨hfull, -⟩
        · exact absurd hx List.not_mem_nil
        · exact hfull
    · refine ⟨[], by rw [Function.update_of_ne hb, List.append_nil], fun o => ?_,
        fun x hx => absurd hx List.not_mem_nil⟩
      rw [added_of_ne hpost, List.append_nil, flow, flow, hqueue b' hb, hother o b' hb]
      rfl
  posted := fun o => by rw [hposted, posts_of_ne hpost, List.append_nil]
  work := hwork
  takes := fun o message he => absurd he (hpost o message)
  entries := fun b' x hx => by
    by_cases hb : b' = b
    · subst hb
      have hmem : x ∈ (s.queue b').elems ++ [entry] := by
        rw [hpushed.elems_eq]
        exact List.mem_append_right lost hx
      rcases List.mem_append.mp hmem with hold | hnew
      · exact .inl hold
      · obtain rfl := List.mem_singleton.mp hnew
        exact .inr hentry
    · exact .inl (hqueue b' hb ▸ hx)

omit [DecidableEq I] [Fintype I] in
theorem from_iff {e : Entry O A} {o o' : O} (h : e.From o = true) : e.From o' = true ↔ o' = o := by
  rw [Entry.From, decide_eq_true_iff] at h ⊢
  rw [h]
  exact ⟨fun heq => (Option.some.inj heq).symm, fun heq => heq ▸ rfl⟩

/-- `_postMessage` pushes onto the next queue. -/
theorem Sound.push (h : s.Sound) {o : O} {p : Posting O I A} (hp : (s.ports o).posting = some p) (hne : p.rest ≠ []) :
    ∃ s', s.call F (.push o) = .ok s' ∧ s'.Sound ∧ s.Moves F (.push o) s' := by
  obtain ⟨entry, list⟩ := p
  cases list with
  | nil => exact absurd rfl hne
  | cons i rest =>
      let s₁ := s.setPort o { s.ports o with posting := some ⟨entry, rest⟩ }
      have hself : (s₁.ports o).posting = some ⟨entry, rest⟩ := by
        show (Function.update s.ports o _ o).posting = _
        rw [Function.update_self]
      have hothers : ∀ o', o' ≠ o → s₁.ports o' = s.ports o' := fun o' ho => Function.update_of_ne ho ..
      have hfrom : entry.From o = true := h.orderly.source o _ hp
      have hnodup := List.nodup_cons.mp (h.orderly.nodup o _ hp)
      have haccounted : s₁.Accounted := h.accounted.setPort rfl (by rw [hp]; rfl)
      obtain ⟨s', lost, hpush, haccounted', hports, hposted, hpushed, hqueue, hgone⟩ :=
        haccounted.pushEntry (F.inbox i entry.message) entry fun t ht => by
          have hown := h.accounted.own o _ t hp ht
          rw [hand, hown, hself]
          simp [refs, ht]
      have hself' : (s'.ports o).posting = some ⟨entry, rest⟩ := by rw [hports, hself]
      have hothers' : ∀ o', o' ≠ o → s'.ports o' = s.ports o' := fun o' ho => by rw [hports, hothers o' ho]
      refine ⟨s', ?_, ⟨haccounted', h.orderly.of_port hothers' (fun p' hp' => ?_) fun hwork => ?_⟩, ?_⟩
      · rw [call, hp]
        exact hpush
      · rw [hself'] at hp'
        cases hp'
        exact ⟨hfrom, hnodup.2⟩
      · have hport : s'.ports o = { s.ports o with posting := some ⟨entry, rest⟩ } := by
          rw [hports]
          exact Function.update_self ..
        rw [hport] at hwork ⊢
        exact h.orderly.ready o hwork
      · refine .of_pushed hpushed hqueue hgone hposted (fun o' => ?_) (fun o' b hb => ?_) (fun _ _ he => (by cases he))
          (fun o' => ?_) (.inl ⟨o, ?_⟩)
        · by_cases ho : o' = o
          · subst ho
            have hnot : F.inbox i entry.message ∉ rest.map (F.inbox · entry.message) := by
              intro hmem
              obtain ⟨j, hj, heq⟩ := List.mem_map.mp hmem
              have hij : j = i := congrArg Prod.fst heq
              exact hnodup.1 (hij ▸ hj)
            rw [pending, hp, pending, hself']
            dsimp only
            rw [List.map_cons, if_pos List.mem_cons_self, if_neg hnot, List.filter_cons_of_pos hfrom]
            rfl
          · have hfalse : ¬ entry.From o' = true := fun heq => ho ((from_iff hfrom).mp heq)
            rw [List.filter_cons_of_neg hfalse]
            exact (pending_congr (by rw [hothers' o' ho]) _).symm
        · by_cases ho : o' = o
          · subst ho
            rw [pending, hself', pending, hp]
            dsimp only
            simp only [List.map_cons, List.mem_cons, or_iff_right hb]
          · exact pending_congr (by rw [hothers' o' ho]) _
        · by_cases ho : o' = o
          · subst ho
            have hport : s₁.ports o' = { s.ports o' with posting := some ⟨entry, rest⟩ } := Function.update_self ..
            rw [hports, hport]
            rfl
          · rw [hothers' o' ho]
            rfl
        · show entry ∈ s.pending F o (F.inbox i entry.message)
          rw [pending, hp]
          dsimp only
          rw [List.map_cons, if_pos List.mem_cons_self]
          exact List.mem_cons_self

/-- `pushMessage` -/
theorem Sound.pushMessage (h : s.Sound) (i : I) (message : A) :
    ∃ s', s.call F (.pushMessage i message) = .ok s' ∧ s'.Sound ∧ s.Moves F (.pushMessage i message) s' := by
  obtain ⟨s', lost, hpush, haccounted, hports, hposted, hpushed, hqueue, hgone⟩ :=
    h.accounted.pushEntry (i, false) ⟨message, none, none⟩ fun t ht => (by cases ht)
  refine ⟨s', hpush, ⟨haccounted, ?_⟩, .of_pushed hpushed hqueue hgone hposted (fun o => ?_) (fun o b _ => ?_)
    (fun _ _ he => (by cases he)) (fun o => by rw [hports]; rfl) (.inr ⟨message, rfl, rfl⟩)⟩
  · constructor
    · rw [hports]
      exact h.orderly.source
    · rw [hports]
      exact h.orderly.nodup
    · rw [hports]
      exact h.orderly.ready
  · rw [List.filter_cons_of_neg (by simp [Entry.From])]
    exact (pending_congr (by rw [hports]) _).symm
  · exact pending_congr (by rw [hports]) _

/-- The end of `_postMessage` drops its own reference. -/
theorem Sound.posted (h : s.Sound) {o : O} {p : Posting O I A} (hp : (s.ports o).posting = some p)
    (hrest : p.rest = []) :
    ∃ s', s.call F (.posted o) = .ok s' ∧ s'.Sound ∧ s.Moves F (.posted o) s' := by
  obtain ⟨entry, rest⟩ := p
  obtain rfl : rest = [] := hrest
  let s₁ := s.setPort o { s.ports o with posting := none }
  have hself : s₁.ports o = { s.ports o with posting := none } := Function.update_self ..
  have hothers : ∀ o', o' ≠ o → s₁.ports o' = s.ports o' := fun o' ho => Function.update_of_ne ho ..
  have hhand : ∀ t, s.hand t = refs [entry.token] t + s₁.hand t := by
    intro t
    by_cases ho : t.1 = o
    · rw [hand, hand, ho, hp, hself]
      rfl
    · have hzero : refs [entry.token] t = 0 := by
        refine List.count_eq_zero.mpr fun hmem => ho ?_
        exact h.accounted.own o _ t hp (List.mem_singleton.mp hmem).symm
      rw [hzero, hand, hand, hothers t.1 ho, Nat.zero_add]
  have hentry : [entry].map Entry.token = [entry.token] := rfl
  obtain ⟨hreturns, hout, hcounter⟩ := Returns.drop (s := s₁) ⟨h.accounted.returns.nodup, h.accounted.returns.zero⟩
    [entry] fun t => by
      have hexact := h.accounted.counter t
      have hsplit := hhand t
      show _ ≤ s.counter t
      rw [hentry]
      omega
  refine ⟨s₁.drop [entry], by rw [call, hp], ⟨?_, ?_⟩, ?_⟩
  · refine h.accounted.of_out hreturns (fun t => ?_) (fun o' p t hp' ht => ?_) ?_ (fun o' => ?_) hout
    · have hdrop := hcounter t
      have hexact := h.accounted.counter t
      have hsplit := hhand t
      have hsame : s₁.counter t = s.counter t := rfl
      have hhand' : (s₁.drop [entry]).hand t = s₁.hand t := by rw [hand, drop_ports, hand]
      have hqueued : ∀ b, (s₁.drop [entry]).queued t b = s.queued t b := fun b => by rw [queued, drop_queue]; rfl
      have hsum : ∑ b, (s₁.drop [entry]).queued t b = ∑ b, s.queued t b := Finset.sum_congr rfl fun b _ => hqueued b
      rw [hentry] at hdrop
      omega
    · rw [drop_ports] at hp'
      by_cases ho : o' = o
      · subst ho
        rw [hself] at hp'
        cases hp'
      · rw [hothers o' ho] at hp'
        exact h.accounted.own o' p t hp' ht
    · rw [drop_queue]
      exact h.accounted.bounded
    · rw [drop_ports]
      by_cases ho : o' = o
      · subst ho
        rw [hself]
      · rw [hothers o' ho]
  · refine h.orderly.of_port (o := o) (fun o' ho => by rw [drop_ports, hothers o' ho]) (fun p hp' => ?_) fun hwork => ?_
    · rw [drop_ports, hself] at hp'
      cases hp'
    · rw [drop_ports, hself] at hwork ⊢
      exact h.orderly.ready o hwork
  · refine .of_same (fun _ _ he => (by cases he)) (drop_queue _) (drop_gone _) (drop_posted _) (fun o' b => ?_)
      fun o' => ?_
    · by_cases ho : o' = o
      · subst ho
        rw [pending, drop_ports, hself, pending, hp]
        rfl
      · exact pending_congr (by rw [drop_ports, hothers o' ho]) b
    · rw [drop_ports]
      by_cases ho : o' = o
      · subst ho
        rw [hself]
        rfl
      · rw [hothers o' ho]
        rfl

/-! ### Operations on a queue -/

/-- Entries leave a queue at its front. -/
theorem Sound.leave (h : s.Sound) {b : Inbox I} (out : List (Entry O A)) {keep : List (Entry O A)} (taken : Bool)
    (hqueue : (s.queue b).elems = out ++ keep) {e : MessageEvent O I A}
    (hclears : taken = false → s.Clears b e) (hpost : ∀ o message, e ≠ .postMessage o message)
    (hwork : ∀ o, workAfter o (s.ports o).work e = (s.ports o).work) :
    ((s.setQueue b ⟨keep, (s.queue b).capacity⟩ (out.map (·, taken))).drop out).Sound ∧
      s.Moves F e ((s.setQueue b ⟨keep, (s.queue b).capacity⟩ (out.map (·, taken))).drop out) := by
  have hports : ((s.setQueue b ⟨keep, (s.queue b).capacity⟩ (out.map (·, taken))).drop out).ports = s.ports :=
    drop_ports out
  refine ⟨⟨h.accounted.leave hqueue _, ?_⟩, ⟨fun b' => ?_, fun o => ?_, fun o => by rw [hports, hwork],
    fun o message he => absurd he (hpost o message), fun b' x hx => .inl ?_⟩⟩
  · constructor
    · rw [hports]
      exact h.orderly.source
    · rw [hports]
      exact h.orderly.nodup
    · rw [hports]
      exact h.orderly.ready
  · rw [drop_gone]
    have hpending : ∀ o, pending F ((s.setQueue b ⟨keep, (s.queue b).capacity⟩ (out.map (·, taken))).drop out) o b' =
        s.pending F o b' := fun o => pending_congr (by rw [hports]) b'
    by_cases hb : b' = b
    · subst hb
      refine ⟨out.map (·, taken), Function.update_self .., fun o => ?_, fun x hx hx' => hclears ?_⟩
      · have hself : ((s.setQueue b' ⟨keep, (s.queue b').capacity⟩ (out.map (·, taken))).drop out).queue b' =
            ⟨keep, (s.queue b').capacity⟩ := by
          rw [drop_queue]
          exact Function.update_self ..
        have hfst : (out.map (·, taken)).map Prod.fst = out := by
          rw [List.map_map]
          exact List.map_id out
        rw [added_of_ne hpost, List.append_nil, flow, flow, hpending, hself, hqueue, List.filter_append, hfst,
          List.append_assoc]
      · obtain ⟨y, -, rfl⟩ := List.mem_map.mp hx
        exact hx'
    · refine ⟨[], by rw [List.append_nil]; exact Function.update_of_ne hb .., fun o => ?_,
        fun x hx => absurd hx List.not_mem_nil⟩
      have hother : ((s.setQueue b ⟨keep, (s.queue b).capacity⟩ (out.map (·, taken))).drop out).queue b' =
          s.queue b' := by
        rw [drop_queue]
        exact Function.update_of_ne hb ..
      rw [added_of_ne hpost, List.append_nil, flow, flow, hpending, hother]
      rfl
  · rw [drop_posted, posts_of_ne hpost, List.append_nil]
    rfl
  · rw [drop_queue] at hx
    by_cases hb : b' = b
    · subst hb
      have hself : ((s.setQueue b' ⟨keep, (s.queue b').capacity⟩ (out.map (·, taken))).queue b') =
          ⟨keep, (s.queue b').capacity⟩ := Function.update_self ..
      rw [hself] at hx
      rw [hqueue]
      exact List.mem_append_right out hx
    · have hother : (s.setQueue b ⟨keep, (s.queue b).capacity⟩ (out.map (·, taken))).queue b' = s.queue b' :=
        Function.update_of_ne hb ..
      exact hother ▸ hx

/-- A token comes back to its manager. -/
theorem Sound.bufferManagerPush (h : s.Sound) {t : Token O} (ht : t ∈ s.returning) :
    ∃ s', s.call F (.bufferManagerPush t) = .ok s' ∧ s'.Sound ∧ s.Moves F (.bufferManagerPush t) s' := by
  obtain ⟨head, tail, hserving, hcapacity, hchecked⟩ := h.accounted.manager t.1
  obtain ⟨q, tail', hpush, hserving', hcapacity', hready, hchecked', -, -⟩ :=
    OrderedQueue.push_spec hserving ((hchecked t.2).mpr (.inr ht))
  let s' : Messages O I A :=
    { s.setPort t.1 { s.ports t.1 with tokenManager := q } with returning := s.returning.erase t }
  have hself : s'.ports t.1 = { s.ports t.1 with tokenManager := q } := Function.update_self ..
  have hothers : ∀ o', o' ≠ t.1 → s'.ports o' = s.ports o' := fun o' ho => Function.update_of_ne ho ..
  have hposting : ∀ o', (s'.ports o').posting = (s.ports o').posting := by
    intro o'
    by_cases ho : o' = t.1
    · rw [ho, hself]
    · rw [hothers o' ho]
  have hout : ∀ t', s'.Out t' ↔ s.Out t' ∧ t' ≠ t := by
    intro t'
    show 0 < s.counter t' ∨ t' ∈ s.returning.erase t ↔ _
    rw [h.accounted.returns.nodup.mem_erase_iff, Out]
    by_cases heq : t' = t
    · subst heq
      have hzero := h.accounted.returns.zero t' ht
      simp [hzero]
    · simp [heq]
  refine ⟨s', ?_, ⟨⟨⟨h.accounted.returns.nodup.erase t, fun t' ht' => ?_⟩, fun t' => ?_, fun o' p t' hp ht' => ?_,
    h.accounted.bounded, fun o' => ?_⟩, h.orderly.of_port hothers (fun p hp => ?_) fun hwork => ?_⟩,
    .of_same (fun _ _ he => (by cases he)) rfl rfl rfl (fun o' b => pending_congr (hposting o') b) fun o' => ?_⟩
  · show (OrderedQueue.push _ t.2 t.2 >>= _) = _
    rw [show (s.ports t.1).tokenManager.push t.2 t.2 = .ok q from hpush]
    rfl
  · exact h.accounted.returns.zero t' (List.mem_of_mem_erase ht')
  · have hhand : s'.hand t' = s.hand t' := by rw [hand, hand, hposting]
    rw [hhand]
    exact h.accounted.counter t'
  · rw [hposting] at hp
    exact h.accounted.own o' p t' hp ht'
  · by_cases ho : o' = t.1
    · subst ho
      rw [hself]
      refine ⟨head, tail', hserving', hcapacity'.trans hcapacity, fun k => ?_⟩
      rw [hout]
      refine (hchecked' k).trans (and_congr (hchecked k) (not_congr ?_))
      exact ⟨fun hk => by rw [show k = t.2 from hk], fun hk => congrArg Prod.snd hk⟩
    · rw [hothers o' ho]
      obtain ⟨head', tail'', hserving'', hcapacity'', hchecked''⟩ := h.accounted.manager o'
      refine ⟨head', tail'', hserving'', hcapacity'', fun k => ?_⟩
      rw [hout, hchecked'']
      exact (and_iff_left fun hk => ho (congrArg Prod.fst hk)).symm
  · rw [hposting] at hp
    exact ⟨h.orderly.source _ p hp, h.orderly.nodup _ p hp⟩
  · rw [hself] at hwork ⊢
    have hold := h.orderly.ready t.1 hwork
    rw [OrderedQueue.empty, List.isEmpty_eq_false_iff] at hold ⊢
    exact fun hnil => hold (List.prefix_nil.mp (hnil ▸ hready))
  · by_cases ho : o' = t.1
    · rw [ho, hself]
      rfl
    · rw [hothers o' ho]
      rfl

/-! ### Runs -/

/-- **One operation** that is in order returns, keeps the account, and moves messages. -/
theorem Sound.call (h : s.Sound) (hnodup : ∀ o, (F.subscribers o).Nodup) {e : MessageEvent O I A}
    (hadmits : s.Admits e) : ∃ s', s.call F e = .ok s' ∧ s'.Sound ∧ s.Moves F e s' := by
  cases e with
  | preWork o => exact ⟨_, rfl, h.setWork (fun _ => hadmits.2.2) (fun _ _ he => (by cases he)) fun _ => rfl⟩
  | postMessage o message => exact h.postMessage hnodup message hadmits
  | push o =>
      obtain ⟨p, hp, hne⟩ := hadmits
      exact h.push hp hne
  | posted o =>
      obtain ⟨p, hp, hrest⟩ := hadmits
      exact h.posted hp hrest
  | postWork o =>
      exact ⟨_, rfl, h.setWork (fun hwork => (by cases hwork)) (fun _ _ he => (by cases he)) fun _ => rfl⟩
  | pop b =>
      cases helems : (s.queue b).elems with
      | nil => exact absurd helems hadmits
      | cons entry rest =>
          refine ⟨_, ?_, h.leave [entry] true helems (fun hfalse => (by cases hfalse))
            (fun _ _ he => (by cases he)) fun _ => rfl⟩
          rw [Messages.call, helems]
          rfl
  | pushMessage i message => exact h.pushMessage i message
  | clear b =>
      exact ⟨_, rfl, h.leave (s.queue b).elems false (List.append_nil _).symm (fun _ => .inl rfl)
        (fun _ _ he => (by cases he)) fun _ => rfl⟩
  | bufferManagerPush t => exact h.bufferManagerPush hadmits

end Messages

end PothosCore.Framework

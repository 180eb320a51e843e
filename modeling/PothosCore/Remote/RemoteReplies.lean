import PothosCore.Remote.RemoteSteps

/-!
# PothosCore.Remote.RemoteReplies

Where a request that was sent is, or its reply: on its way, in the hands of a thread, or
in the cache (`Spot`). A thread has one of these at most, at one spot, and it belongs to
its latest call (`Tracked`). So a reply goes to the call it answers, and no reply that is
stored overwrites another.
-/

namespace PothosCore.Remote

variable {ι : Type} {tid : ι → UInt32}

/-- Where a request or its reply can be. -/
inductive Spot (ι : Type)
  | way
  | hands (t : ι)
  | cache

namespace System

variable {s s' : System ι} {a : Action ι} {t u : ι} {p' : Place ι} {g' : Connection ι} {b : Bool}

/-- A request, or its reply, is at a spot. -/
def Present (tid : ι → UInt32) (s : System ι) : Spot ι → Request ι → Prop
  | .way, q => q ∈ s.shared.inFlight
  | .hands t, q => (s.place t).hand = some ⟨q⟩
  | .cache, q => s.shared.tidToReply (tid q.thread) = some ⟨q⟩

/-- The request is that of the latest call of its thread, which has been sent; if the
thread has left the call, the connection is inactive. -/
structure Pending (s : System ι) (q : Request ι) : Prop where
  latest : s.calls q.thread = q.number + 1
  sent : ¬ (s.place q.thread).Unsent
  left : s.place q.thread = .outside → s.shared.connectionActive = false

/-- The requests that were sent, and their replies. -/
structure Tracked (tid : ι → UInt32) (s : System ι) : Prop where
  /-- A thread in a call is in its latest. -/
  numbered : ∀ u n, (s.place u).number = some n → s.calls u = n + 1
  pending : ∀ x q, Present tid s x q → s.Pending q
  /-- A thread has one request or reply, at one spot. -/
  apart : ∀ x y q q', Present tid s x q → Present tid s y q' → q.thread = q'.thread → x = y
  single : (s.shared.inFlight.map (·.thread)).Nodup
  /-- The cache has a reply under the thread id of its request. -/
  keyed : ∀ k r, s.shared.tidToReply k = some r → tid r.answers.thread = k
  /-- A thread that is going to return a reply returns its own. -/
  own : ∀ u r, (s.place u).result = some r → r.answers.thread = u

theorem not_present_start (x : Spot ι) (q : Request ι) : ¬ Present tid (start : System ι) x q := by
  cases x <;> simp [Present, start, Connection.start, Connection.inFlight, Place.hand]

theorem Tracked.start : (start : System ι).Tracked tid where
  numbered := by simp [System.start, Place.number]
  pending x q h := absurd h (not_present_start x q)
  apart x y q q' h := absurd h (not_present_start x q)
  single := by simp [System.start, Connection.start, Connection.inFlight]
  keyed := by simp [System.start, Connection.start]
  own := by simp [System.start, Place.result]

/-! ### Where a step leaves the replies -/

/-- A request or its reply goes from one spot to another, and no other moves. -/
structure Goes (tid : ι → UInt32) (s s' : System ι) (x y : Spot ι) (q : Request ι) : Prop where
  was : Present tid s x q
  only : ∀ z q', Present tid s' z q' →
    (z = y ∧ q' = q) ∨ (Present tid s z q' ∧ (z = x → q'.thread ≠ q.thread))

/-- What was present at a spot afterwards was present before, at this spot or another. -/
theorem Goes.present {x y z : Spot ι} {q q' : Request ι} (h : Goes tid s s' x y q)
    (hz : Present tid s' z q') : ∃ z', Present tid s z' q' := by
  rcases h.only z q' hz with ⟨-, rfl⟩ | ⟨hold, -⟩
  · exact ⟨x, h.was⟩
  · exact ⟨z, hold⟩

/-- One request or reply goes, and there is still one for a thread, at one spot. -/
theorem Goes.apart {x y : Spot ι} {q : Request ι} (h : Goes tid s s' x y q)
    (hs : ∀ x y q q', Present tid s x q → Present tid s y q' → q.thread = q'.thread → x = y)
    (z z' : Spot ι) (q₁ q₂ : Request ι) (h₁ : Present tid s' z q₁) (h₂ : Present tid s' z' q₂)
    (hthread : q₁.thread = q₂.thread) : z = z' := by
  rcases h.only z q₁ h₁ with ⟨rfl, rfl⟩ | ⟨hold₁, hne₁⟩
  · rcases h.only z' q₂ h₂ with ⟨rfl, -⟩ | ⟨hold₂, hne₂⟩
    · rfl
    · exact absurd hthread.symm (hne₂ (hs _ _ _ _ hold₂ h.was hthread.symm))
  · rcases h.only z' q₂ h₂ with ⟨rfl, rfl⟩ | ⟨hold₂, -⟩
    · exact absurd hthread (hne₁ (hs _ _ _ _ hold₁ h.was hthread))
    · exact hs _ _ _ _ hold₁ hold₂ hthread

variable [DecidableEq ι]

theorem present_hands {q : Request ι} : Present tid (s.goto t p' g' b) (.hands u) q ↔
    (if u = t then p'.hand else (s.place u).hand) = some ⟨q⟩ := by
  rw [Present, goto_view Place.hand_wake]

theorem present_cache {q : Request ι} (hcache : g'.tidToReply = s.shared.tidToReply)
    (hx : Present tid (s.goto t p' g' b) .cache q) : Present tid s .cache q := by
  rwa [Present, goto_shared, hcache] at hx

/-- Nothing new is present when nothing is sent, received, found or stored. -/
theorem present_keeps {x : Spot ι} {q : Request ι} (hway : List.Sublist g'.inFlight s.shared.inFlight)
    (hhand : p'.hand = (s.place t).hand ∨ p'.hand = none) (hcache : g'.tidToReply = s.shared.tidToReply)
    (hx : Present tid (s.goto t p' g' b) x q) : Present tid s x q := by
  cases x with
  | way => exact hway.subset hx
  | hands u =>
      rw [present_hands] at hx
      rw [Present]
      grind
  | cache => exact present_cache hcache hx

theorem Tracked.goes_receives (hs : s.Tracked tid) {r : Reply ι}
    (hway : s.shared.inFlight = r.answers :: g'.inFlight) (hhand : p'.hand = some r)
    (hcache : g'.tidToReply = s.shared.tidToReply) :
    Goes tid s (s.goto t p' g' b) .way (.hands t) r.answers where
  was := by simp [Present, hway]
  only z q hz := by
    cases z with
    | way =>
        refine .inr ⟨by simpa [Present, hway] using .inr hz, fun _ hthread => ?_⟩
        have hsingle := hs.single
        simp only [hway, List.map_cons, List.nodup_cons] at hsingle
        exact hsingle.1 (hthread ▸ List.mem_map_of_mem hz)
    | hands u =>
        rw [present_hands] at hz
        by_cases hut : u = t
        · rw [if_pos hut, hhand, Option.some.injEq] at hz
          exact .inl ⟨by rw [hut], by rw [hz]⟩
        · rw [if_neg hut] at hz
          exact .inr ⟨hz, by simp⟩
    | cache => exact .inr ⟨present_cache hcache hz, by simp⟩

theorem Tracked.goes_finds (hs : s.Tracked tid) {r : Reply ι} (hway : g'.inFlight = s.shared.inFlight)
    (hhand : p'.hand = some r) (hfound : s.shared.tidToReply (tid t) = some r)
    (hcache : g'.tidToReply = Function.update s.shared.tidToReply (tid t) none) :
    Goes tid s (s.goto t p' g' b) .cache (.hands t) r.answers := by
  have htid := hs.keyed _ r hfound
  refine ⟨by rw [Present, htid, hfound], fun z q hz => ?_⟩
  cases z with
  | way => exact .inr ⟨by rwa [Present, ← hway], by simp⟩
  | hands u =>
      rw [present_hands] at hz
      by_cases hut : u = t
      · rw [if_pos hut, hhand, Option.some.injEq] at hz
        exact .inl ⟨by rw [hut], by rw [hz]⟩
      · rw [if_neg hut] at hz
        exact .inr ⟨hz, by simp⟩
  | cache =>
      rw [Present, goto_shared, hcache] at hz
      by_cases hq : tid q.thread = tid t
      · simp [hq] at hz
      · rw [Function.update_of_ne hq] at hz
        exact .inr ⟨hz, fun _ hthread => hq (hthread ▸ htid)⟩

theorem goes_stores {n : Nat} {r : Reply ι} (hp : s.place t = .deliver n r)
    (hway : g'.inFlight = s.shared.inFlight) (hhand : p'.hand = none)
    (hcache : g'.tidToReply = Function.update s.shared.tidToReply (tid r.answers.thread) (some r)) :
    Goes tid s (s.goto t p' g' b) (.hands t) .cache r.answers where
  was := by simp [Present, hp, Place.hand]
  only z q hz := by
    cases z with
    | way => exact .inr ⟨by rwa [Present, ← hway], by simp⟩
    | hands u =>
        rw [present_hands] at hz
        by_cases hut : u = t
        · simp [hut, hhand] at hz
        · rw [if_neg hut] at hz
          exact .inr ⟨hz, by simp [hut]⟩
    | cache =>
        rw [Present, goto_shared, hcache] at hz
        by_cases hq : tid q.thread = tid r.answers.thread
        · rw [hq, Function.update_self, Option.some.injEq] at hz
          exact .inl ⟨rfl, by rw [hz]⟩
        · rw [Function.update_of_ne hq] at hz
          exact .inr ⟨hz, by simp⟩

/-- **Where a step of a thread leaves the replies**: nothing new is present, a request is
sent, or one goes from a spot to another. -/
theorem Tracked.present_takes (hs : s.Tracked tid) (h : Takes tid t (s.place t) s.shared p' g' b) :
    (∀ z q, Present tid (s.goto t p' g' b) z q → Present tid s z q) ∨
    (∃ n, s.place t = .send n ∧ p' = .lock n ∧ ∀ z q, Present tid (s.goto t p' g' b) z q →
      Present tid s z q ∨ (z = .way ∧ q = ⟨t, n⟩)) ∨
    ∃ x y q, Goes tid s (s.goto t p' g' b) x y q := by
  generalize hp : s.place t = p at h
  cases h.moves with
  | keeps hway hhand hcache => exact .inl fun z q => present_keeps hway (.inl (hhand.trans (hp ▸ rfl))) hcache
  | returns hway hcache => exact .inl fun z q => present_keeps (hway ▸ .refl _) (.inr rfl) hcache
  | @sends n _ _ hway hcache =>
      refine .inr (.inl ⟨n, rfl, rfl, fun z q hz => ?_⟩)
      cases z with
      | way =>
          have : q ∈ s.shared.inFlight ∨ q = ⟨t, n⟩ := by simpa [Present, hway] using hz
          exact this.imp_right fun h => ⟨rfl, h⟩
      | hands u =>
          rw [present_hands] at hz
          rw [Present]
          grind [Place.hand]
      | cache => exact .inl (present_cache hcache hz)
  | receives hway _ hhand hcache => exact .inr (.inr ⟨_, _, _, hs.goes_receives hway hhand hcache⟩)
  | finds hway _ hhand hfound hcache => exact .inr (.inr ⟨_, _, _, hs.goes_finds hway hhand hfound hcache⟩)
  | stores hway hhand _ hcache => exact .inr (.inr ⟨_, _, _, goes_stores hp hway hhand hcache⟩)

/-! ### The invariant is kept -/

omit [DecidableEq ι] in
/-- A thread that has not sent its request has none on its way, and no reply. -/
theorem Tracked.fresh (hs : s.Tracked tid) {x : Spot ι} {q : Request ι} (ht : (s.place t).Unsent)
    (hx : Present tid s x q) : q.thread ≠ t := by
  intro h
  exact (hs.pending x q hx).sent (h ▸ ht)

theorem Tracked.takes_apart (hs : s.Tracked tid) (h : Takes tid t (s.place t) s.shared p' g' b)
    (x y : Spot ι) (q q' : Request ι) (hx : Present tid (s.goto t p' g' b) x q)
    (hy : Present tid (s.goto t p' g' b) y q') (hthread : q.thread = q'.thread) : x = y := by
  rcases hs.present_takes h with hkeeps | ⟨n, hp, hp', hsends⟩ | ⟨z, w, q₀, hgoes⟩
  · exact hs.apart x y q q' (hkeeps x q hx) (hkeeps y q' hy) hthread
  · have hunsent : (s.place t).Unsent := by simp [hp, Place.Unsent]
    rcases hsends x q hx with hx | ⟨rfl, rfl⟩
    · rcases hsends y q' hy with hy | ⟨rfl, rfl⟩
      · exact hs.apart x y q q' hx hy hthread
      · exact absurd hthread (hs.fresh hunsent hx)
    · rcases hsends y q' hy with hy | ⟨rfl, -⟩
      · exact absurd hthread.symm (hs.fresh hunsent hy)
      · rfl
  · exact hgoes.apart hs.apart x y q q' hx hy hthread

theorem Tracked.takes_single (hs : s.Tracked tid) (h : Takes tid t (s.place t) s.shared p' g' b) :
    (g'.inFlight.map (·.thread)).Nodup := by
  generalize hp : s.place t = p at h
  cases h.moves with
  | keeps hway => exact hs.single.sublist (hway.map _)
  | finds hway | stores hway | returns hway =>
      rw [hway]
      exact hs.single
  | receives hway =>
      have := hs.single
      rw [hway, List.map_cons] at this
      exact this.of_cons
  | @sends n _ _ hway =>
      have hfresh (q) (hq : q ∈ s.shared.inFlight) : q.thread ≠ t :=
        hs.fresh (x := .way) (by simp [hp, Place.Unsent]) hq
      rw [hway, List.map_append, List.nodup_append]
      refine ⟨hs.single, by simp, ?_⟩
      simpa using hfresh

theorem Tracked.takes_keyed (hs : s.Tracked tid) (h : Takes tid t (s.place t) s.shared p' g' b)
    (k : UInt32) (r : Reply ι) (hr : g'.tidToReply k = some r) : tid r.answers.thread = k := by
  have hkeyed := hs.keyed k r
  generalize s.place t = p at h
  cases h.moves with
  | keeps _ _ hcache | sends _ hcache | receives _ _ _ hcache | returns _ hcache =>
      exact hkeyed (hcache ▸ hr)
  | finds _ _ _ _ hcache | stores _ _ _ hcache =>
      rw [hcache, Function.update_apply] at hr
      grind

theorem Tracked.takes_own (hinj : Function.Injective tid) (hs : s.Tracked tid)
    (h : Takes tid t (s.place t) s.shared p' g' b) (u : ι) (r : Reply ι)
    (hr : ((s.goto t p' g' b).place u).result = some r) : r.answers.thread = u := by
  rw [goto_view Place.result_wake] at hr
  by_cases hut : u = t
  · rw [if_pos hut] at hr
    subst hut
    rcases h.result hr with hresult | hfound | htid
    · exact hs.own u r hresult
    · exact hinj (hs.keyed _ r hfound)
    · exact hinj htid
  · rw [if_neg hut] at hr
    exact hs.own u r hr

/-- A thread that returns takes its reply with it. -/
theorem Tracked.takes_returns (hs : s.Tracked tid) {n : Nat} {r : Reply ι} {z : Spot ι} {q : Request ι}
    (hp : s.place t = .notifyReturn n r) (h : Takes tid t (s.place t) s.shared p' g' b)
    (hz : Present tid (s.goto t p' g' b) z q) : q.thread ≠ t := by
  intro hq
  have hmoves : p' = .outside ∧ g'.inFlight = s.shared.inFlight ∧ g'.tidToReply = s.shared.tidToReply := by
    rw [hp] at h
    cases h with
    | run h => simp only [Place.run] at h; grind [Connection.inFlight]
  obtain ⟨rfl, hway, hcache⟩ := hmoves
  have hold := present_keeps (hway ▸ .refl _) (.inr rfl) hcache hz
  have hown := hs.own t r (by simp [hp, Place.result])
  have hhand : Present tid s (.hands t) r.answers := by simp [Present, hp, Place.hand]
  obtain rfl := hs.apart _ _ _ _ hold hhand (hq.trans hown.symm)
  simp [present_hands, Place.hand] at hz

theorem Tracked.takes_pending (hs : s.Tracked tid) (h : Takes tid t (s.place t) s.shared p' g' b)
    (x : Spot ι) (q : Request ι) (hx : Present tid (s.goto t p' g' b) x q) :
    (s.goto t p' g' b).Pending q := by
  have hkept (z) (hz : Present tid s z q) : (s.goto t p' g' b).Pending q := by
    obtain ⟨hlatest, hsent, hleft⟩ := hs.pending z q hz
    refine ⟨hlatest, ?_, ?_⟩
    · rw [goto_view Place.unsent_wake]
      grind [h.active.1]
    · rw [goto_view (F := fun p => p = .outside) Place.wake_eq_outside, goto_shared]
      intro hout
      by_cases hqt : q.thread = t
      · rcases h.active.2.2 (by simpa [hqt] using hout) with hinactive | ⟨n, r, hp⟩
        · exact hinactive
        · exact absurd hqt (hs.takes_returns hp h hx)
      · exact h.active.2.1 (hleft (by simpa [hqt] using hout))
  rcases hs.present_takes h with hkeeps | ⟨n, hp, hp', hsends⟩ | ⟨z, w, q₀, hgoes⟩
  · exact hkept x (hkeeps x q hx)
  · rcases hsends x q hx with hold | ⟨rfl, rfl⟩
    · exact hkept x hold
    · -- the request that is sent
      subst hp'
      refine ⟨hs.numbered t n (by simp [hp, Place.number]), ?_, ?_⟩ <;> simp [Place.Unsent]
  · obtain ⟨z', hz'⟩ := hgoes.present hx
    exact hkept z' hz'

theorem Tracked.takes_numbered (hs : s.Tracked tid) (h : Takes tid t (s.place t) s.shared p' g' b)
    (u : ι) (n : Nat) (hn : ((s.goto t p' g' b).place u).number = some n) : s.calls u = n + 1 := by
  rw [goto_view Place.number_wake] at hn
  by_cases hut : u = t
  · rw [if_pos hut] at hn
    rcases h.number.2 with rfl | hnumber
    · simp [Place.number] at hn
    · exact hs.numbered u n (by rw [hut, ← hnumber, hn])
  · exact hs.numbered u n (by simpa [hut] using hn)

theorem Tracked.takes (hinj : Function.Injective tid) (hs : s.Tracked tid)
    (h : Takes tid t (s.place t) s.shared p' g' b) : (s.goto t p' g' b).Tracked tid :=
  ⟨hs.takes_numbered h, hs.takes_pending h, hs.takes_apart h, hs.takes_single h, hs.takes_keyed h,
    hs.takes_own hinj h⟩

/-- A new call finds none of its thread's requests, since those that are left are there
only once the connection is inactive. -/
theorem Tracked.called (hs : s.Tracked tid) (ht : s.place t = .outside)
    (hactive : s.shared.connectionActive = true) : (s.called t).Tracked tid := by
  have hpresent (x q) (hx : Present tid (s.called t) x q) : Present tid s x q := by
    cases x with
    | way | cache => exact hx
    | hands u => rwa [Present, called_view Place.hand ht (fun _ => rfl)] at hx
  refine ⟨fun u n hn => ?_, fun x q hx => ?_, fun x y q q' hx hy => ?_, hs.single, hs.keyed, fun u r hr => ?_⟩
  · rw [called_calls]
    by_cases hut : u = t
    · subst hut
      simpa [Place.number] using hn
    · rw [if_neg hut]
      exact hs.numbered u n (by rwa [called_place hut] at hn)
  · obtain ⟨hlatest, hsent, hleft⟩ := hs.pending x q (hpresent x q hx)
    have hqt : q.thread ≠ t := by
      intro hqt
      simp [hleft (hqt ▸ ht)] at hactive
    constructor <;> simpa [called_calls, called_place hqt, hqt]
  · exact hs.apart x y q q' (hpresent x q hx) (hpresent y q' hy)
  · rw [called_view Place.result ht (fun _ => rfl)] at hr
    exact hs.own u r hr

omit [DecidableEq ι] in
theorem Tracked.served (hs : s.Tracked tid) {g : Connection ι} (hway : g.inFlight = s.shared.inFlight)
    (hcache : g.tidToReply = s.shared.tidToReply) (hactive : g.connectionActive = s.shared.connectionActive) :
    ({ s with shared := g } : System ι).Tracked tid := by
  have hpresent (x q) (hx : Present tid { s with shared := g } x q) : Present tid s x q := by
    cases x with
    | way => rwa [Present, ← hway]
    | hands u => exact hx
    | cache => rwa [Present, ← hcache]
  refine ⟨hs.numbered, fun x q hx => ?_, fun x y q q' hx hy => ?_, by rw [hway]; exact hs.single,
    by rw [hcache]; exact hs.keyed, hs.own⟩
  · obtain ⟨hlatest, hsent, hleft⟩ := hs.pending x q (hpresent x q hx)
    exact ⟨hlatest, hsent, fun hout => hactive.trans (hleft hout)⟩
  · exact hs.apart x y q q' (hpresent x q hx) (hpresent y q' hy)

/-- **Requests and replies stay tracked**, whatever throws. -/
theorem Tracked.step (hinj : Function.Injective tid) (hs : s.Tracked tid) (h : s.step tid a = some s') :
    s'.Tracked tid := by
  obtain ⟨t, p', g', b, ht, rfl, -⟩ | ⟨t, hout, hactive, rfl⟩ | ⟨os, serving, is, rfl, hway⟩ := step_cases h
  · exact hs.takes hinj ht
  · exact hs.called hout hactive
  · exact hs.served hway rfl rfl

/-! ### The replies that were returned -/

/-- A call that returned has its reply, and is over. -/
structure Settled (s : System ι) : Prop where
  own : ∀ r ∈ s.shared.returned, r.reply.answers = r.request
  made : ∀ r ∈ s.shared.returned, r.request.number < s.calls r.request.thread
  ended : ∀ r ∈ s.shared.returned, ∀ n, (s.place r.request.thread).number = some n → r.request.number < n
  once : (s.shared.returned.map (·.reply)).Nodup

/-- What was received was returned, is in the cache, or in the hands of a thread. -/
def Kept (tid : ι → UInt32) (s : System ι) : Prop :=
  ∀ r ∈ s.shared.received, r ∈ s.shared.returned.map (·.reply) ∨
    s.shared.tidToReply (tid r.answers.thread) = some r ∨ ∃ t, (s.place t).hand = some r

omit [DecidableEq ι] in
theorem Settled.start : (start : System ι).Settled := by
  constructor <;> simp [System.start, Connection.start]

omit [DecidableEq ι] in
theorem Kept.start : Kept tid (start : System ι) := by
  simp [Kept, System.start, Connection.start]

omit [DecidableEq ι] in
/-- The reply that a call is about to return answers its request. -/
theorem Tracked.answers (hs : s.Tracked tid) {n : Nat} {r : Reply ι} (hp : s.place t = .notifyReturn n r) :
    r.answers = ⟨t, n⟩ := by
  have hthread : r.answers.thread = t := hs.own t r (by simp [hp, Place.result])
  have hlatest := (hs.pending (.hands t) r.answers (by simp [Present, hp, Place.hand])).latest
  have hcalls := hs.numbered t n (by simp [hp, Place.number])
  rw [hthread, hcalls] at hlatest
  rw [← hthread, Nat.succ.inj hlatest]

theorem Settled.takes (hs : s.Settled) (htracked : s.Tracked tid)
    (h : Takes tid t (s.place t) s.shared p' g' b) : (s.goto t p' g' b).Settled := by
  have hover (r) (hr : r ∈ s.shared.returned) (n)
      (hn : ((s.goto t p' g' b).place r.request.thread).number = some n) : r.request.number < n := by
    refine hs.ended r hr n ?_
    rw [goto_view Place.number_wake] at hn
    rcases h.number.2 with rfl | hnumber
    · grind [Place.number]
    · grind
  have hreturned : g'.returned = s.shared.returned ∨ ∃ n r, s.place t = .notifyReturn n r ∧
      p' = .outside ∧ g'.returned = s.shared.returned ++ [⟨⟨t, n⟩, r⟩] := by
    generalize s.place t = p at h
    cases h.moves with
    | keeps _ _ _ _ hreturned | sends _ _ _ hreturned | receives _ _ _ _ _ hreturned
    | finds _ _ _ _ _ _ hreturned | stores _ _ _ _ _ hreturned => exact .inl hreturned
    | returns _ _ _ hreturned => exact .inr ⟨_, _, rfl, rfl, hreturned⟩
  rcases hreturned with hsame | ⟨n, r, hp, rfl, hnew⟩
  · exact ⟨hsame ▸ hs.own, hsame ▸ hs.made, hsame ▸ hover, hsame ▸ hs.once⟩
  · have hanswers := htracked.answers hp
    have hnumber : (s.place t).number = some n := by simp [hp, Place.number]
    refine ⟨fun x hx => ?_, fun x hx => ?_, fun x hx m hm => ?_, ?_⟩
    · rw [goto_shared, hnew, List.mem_append, List.mem_singleton] at hx
      rcases hx with hx | rfl
      · exact hs.own x hx
      · exact hanswers
    · rw [goto_shared, hnew, List.mem_append, List.mem_singleton] at hx
      rcases hx with hx | rfl
      · exact hs.made x hx
      · simp [htracked.numbered t n hnumber]
    · rw [goto_shared, hnew, List.mem_append, List.mem_singleton] at hx
      rcases hx with hx | rfl
      · exact hover x hx m hm
      · simp [Place.number] at hm
    · rw [goto_shared, hnew, List.map_append, List.nodup_append]
      refine ⟨hs.once, by simp, ?_⟩
      rintro _ hold _ hr rfl
      -- it would have been returned by a call that is not over
      obtain ⟨x, hx, rfl⟩ := List.mem_map.mp hold
      obtain rfl : x.reply = r := by simpa using hr
      have hrequest : x.request = ⟨t, n⟩ := (hs.own x hx).symm.trans hanswers
      have := hs.ended x hx n (by rw [hrequest]; exact hnumber)
      simp [hrequest] at this

theorem Settled.called (hs : s.Settled) : (s.called t).Settled := by
  refine ⟨hs.own, fun r hr => ?_, fun r hr n hn => ?_, hs.once⟩
  · have := hs.made r hr
    rw [called_calls]
    grind
  · by_cases hrt : r.request.thread = t
    · have := hs.made r hr
      rw [hrt, called_self] at hn
      simp only [Place.number, Option.some.injEq] at hn
      rwa [← hn, ← hrt]
    · rw [called_place hrt] at hn
      exact hs.ended r hr n hn

theorem Settled.step (hs : s.Settled) (htracked : s.Tracked tid) (h : s.step tid a = some s') :
    s'.Settled := by
  obtain ⟨t, p', g', b, ht, rfl, -⟩ | ⟨t, -, -, rfl⟩ | ⟨os, serving, is, rfl, -⟩ := step_cases h
  · exact hs.takes htracked ht
  · exact hs.called
  · exact ⟨hs.own, hs.made, hs.ended, hs.once⟩

omit [DecidableEq ι] in
/-- **No reply is overwritten**: where a reply is going to be stored, the cache has none. -/
theorem Tracked.stores (hinj : Function.Injective tid) (hs : s.Tracked tid) {n : Nat} {r : Reply ι}
    (hp : s.place t = .deliver n r) : s.shared.tidToReply (tid r.answers.thread) = none := by
  cases hcache : s.shared.tidToReply (tid r.answers.thread) with
  | none => rfl
  | some r' =>
      have hkeyed := hs.keyed _ r' hcache
      have hcached : Present tid s .cache r'.answers := by rw [Present, hkeyed, hcache]
      have hhand : Present tid s (.hands t) r.answers := by simp [Present, hp, Place.hand]
      cases hs.apart _ _ _ _ hcached hhand (hinj hkeyed)

/-- A reply in the hands of a thread stays in its hands, unless the step takes it. -/
theorem hands_kept {r : Reply ι} (hhand : (s.place t).hand = some r → p'.hand = some r)
    (hr : ∃ u, (s.place u).hand = some r) : ∃ u, ((s.goto t p' g' b).place u).hand = some r := by
  obtain ⟨u, hu⟩ := hr
  refine ⟨u, ?_⟩
  rw [goto_view Place.hand_wake]
  grind

theorem Kept.takes (hinj : Function.Injective tid) (hs : Kept tid s) (htracked : s.Tracked tid)
    (h : Takes tid t (s.place t) s.shared p' g' b) : Kept tid (s.goto t p' g' b) := by
  intro r hr
  rw [goto_shared] at hr ⊢
  have hkept := hs r
  generalize hp : s.place t = p at h
  cases h.moves with
  | keeps _ hhand hcache hreceived hreturned =>
      rw [hreceived] at hr
      rw [hcache, hreturned]
      exact (hkept hr).imp_right (.imp_right (hands_kept (by rw [hp, hhand]; exact id)))
  | sends _ hcache hreceived hreturned =>
      rw [hreceived] at hr
      rw [hcache, hreturned]
      exact (hkept hr).imp_right (.imp_right (hands_kept (by simp [hp, Place.hand])))
  | receives _ hnone hhand hcache hreceived hreturned =>
      rw [hreceived, List.mem_append, List.mem_singleton] at hr
      rw [hcache, hreturned]
      rcases hr with hr | rfl
      · exact (hkept hr).imp_right (.imp_right (hands_kept (by simp [hp, hnone])))
      · exact .inr (.inr ⟨t, by rw [goto_self, hhand]⟩)
  | finds _ hnone hhand hfound hcache hreceived hreturned =>
      rw [hreceived] at hr
      rw [hcache, hreturned]
      rcases hkept hr with hdone | hcached | hhands
      · exact .inl hdone
      · by_cases htid : tid r.answers.thread = tid t
        · exact .inr (.inr ⟨t, by rw [goto_self, hhand, ← hfound, ← htid, hcached]⟩)
        · exact .inr (.inl (by rw [Function.update_of_ne htid, hcached]))
      · exact .inr (.inr (hands_kept (by simp [hp, hnone]) hhands))
  | @stores n r' _ _ _ _ hhand _ hcache hreceived hreturned =>
      rw [hreceived] at hr
      rw [hcache, hreturned]
      rcases hkept hr with hdone | hcached | ⟨u, hu⟩
      · exact .inl hdone
      · have hne : tid r.answers.thread ≠ tid r'.answers.thread := by
          intro htid
          simp [htid, htracked.stores hinj hp] at hcached
        exact .inr (.inl (by rw [Function.update_of_ne hne, hcached]))
      · by_cases hut : u = t
        · obtain rfl : r' = r := by simpa [hut, hp, Place.hand] using hu
          exact .inr (.inl (by simp))
        · exact .inr (.inr ⟨u, by rw [goto_view Place.hand_wake, if_neg hut, hu]⟩)
  | @returns n r' _ _ _ hcache hreceived hreturned =>
      rw [hreceived] at hr
      rw [hcache, hreturned]
      rcases hkept hr with hdone | hcached | ⟨u, hu⟩
      · exact .inl (by rw [List.map_append]; exact List.mem_append_left _ hdone)
      · exact .inr (.inl hcached)
      · by_cases hut : u = t
        · obtain rfl : r' = r := by simpa [hut, hp, Place.hand] using hu
          exact .inl (by simp)
        · exact .inr (.inr ⟨u, by rw [goto_view Place.hand_wake, if_neg hut, hu]⟩)

theorem Kept.step (hinj : Function.Injective tid) (hs : Kept tid s) (htracked : s.Tracked tid)
    (h : s.step tid a = some s') : Kept tid s' := by
  obtain ⟨t, p', g', b, ht, rfl, -⟩ | ⟨t, hout, -, rfl⟩ | ⟨os, serving, is, rfl, -⟩ := step_cases h
  · exact hs.takes hinj htracked ht
  · intro r hr
    refine (hs r hr).imp_right (.imp_right fun ⟨u, hu⟩ => ⟨u, ?_⟩)
    rwa [called_view Place.hand hout (fun _ => rfl)]
  · exact hs

end System

end PothosCore.Remote

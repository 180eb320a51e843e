import PothosCore.Util.EvalValue

/-!
# PothosCore.Util.EvalComposition

`EvalEnvironment::eval` keeps the user's constants whatever the expression is, and gives the
value of a clean expression (`eval_eq_value`). In one that is not clean, a literal rewrites
an expression inside itself, and so registers its temporaries over those of the literals
before it, and the rewritten text names one of these.
-/

namespace PothosCore.Util

variable {F : Type} (P : Muparser F)

/-! ### The constants -/

theorem tmpKey_injective {i j : Nat} (h : tmpKey i = tmpKey j) : i = j := by
  have hdigits : Nat.toDigits 10 i = Nat.toDigits 10 j := List.append_cancel_left h
  rw [← Nat.ofDigitChars_ten_toDigits (n := i), hdigits, Nat.ofDigitChars_ten_toDigits]

/-- The constants are the same but for those with names like temporaries. -/
def Same (consts consts' : Constants F) : Prop := ∀ name, ¬ tmpTypeId <+: name → consts' name = consts name

theorem Same.refl (consts : Constants F) : Same consts consts := fun _ _ => rfl

theorem Same.trans {a b c : Constants F} (hab : Same a b) (hbc : Same b c) : Same a c := by
  intro name hname
  rw [hbc name hname, hab name hname]

theorem registerConstantObj_apply {consts : Constants F} {name : Text} {index : Nat} (obj : EvalObject F)
    (hne : name ≠ tmpKey index) : registerConstantObj consts (tmpKey index) obj name = consts name := by
  rw [registerConstantObj, unregisterConstant, Function.update_of_ne hne, Function.update_of_ne hne]

theorem Same.register {a b : Constants F} (h : Same a b) (index : Nat) (obj : EvalObject F) :
    Same a (registerConstantObj b (tmpKey index) obj) := by
  intro name hname
  have hne : name ≠ tmpKey index := by
    rintro rfl
    exact hname (List.prefix_append _ _)
  rw [registerConstantObj_apply obj hne, h name hname]

/-- The constants are the same but for the first `d` temporaries. -/
def AgreeFrom (d : Nat) (consts consts' : Constants F) : Prop :=
  ∀ name, (∀ i < d, name ≠ tmpKey i) → consts' name = consts name

namespace AgreeFrom

variable {a b c : Constants F} {d d' : Nat}

theorem refl (d : Nat) (a : Constants F) : AgreeFrom d a a := fun _ _ => rfl

theorem mono (h : AgreeFrom d a b) (hle : d ≤ d') : AgreeFrom d' a b :=
  fun name hname => h name fun i hi => hname i (Nat.lt_of_lt_of_le hi hle)

theorem trans (hab : AgreeFrom d a b) (hbc : AgreeFrom d' b c) : AgreeFrom (max d d') a c := by
  intro name hname
  rw [hbc.mono (Nat.le_max_right d d') name hname, hab.mono (Nat.le_max_left d d') name hname]

theorem register (h : AgreeFrom d a b) (index : Nat) (obj : EvalObject F) :
    AgreeFrom (max d (index + 1)) a (registerConstantObj b (tmpKey index) obj) := by
  refine h.trans fun name hname => ?_
  exact registerConstantObj_apply obj (hname index (Nat.lt_succ_self index))

end AgreeFrom

theorem registerAll_other {objs : List (EvalObject F)} {index : Nat} {name : Text} (consts : Constants F)
    (h : ∀ i < objs.length, name ≠ tmpKey (index + i)) : registerAll consts index objs name = consts name := by
  induction objs generalizing consts index with
  | nil => rfl
  | cons obj objs ih =>
      rw [registerAll, ih _ fun i hi => ?_, registerConstantObj_apply obj (by simpa using h 0 (by simp))]
      have hkey : index + 1 + i = index + (i + 1) := by omega
      rw [hkey]
      exact h (i + 1) (by simpa using hi)

theorem registerAll_own {objs : List (EvalObject F)} {i : Nat} {obj : EvalObject F} (consts : Constants F)
    (index : Nat) (h : objs[i]? = some obj) :
    registerAll consts index objs (tmpKey (index + i)) = some (objectToMupValue obj) := by
  induction objs generalizing consts index i with
  | nil => simp at h
  | cons first objs ih =>
      cases i with
      | zero =>
          obtain rfl : first = obj := by simpa using h
          rw [registerAll, Nat.add_zero, registerAll_other]
          · simp [registerConstantObj]
          · intro i _ he
            have := tmpKey_injective he
            omega
      | succ i =>
          have hkey : index + (i + 1) = index + 1 + i := by omega
          rw [registerAll, hkey]
          exact ih _ _ (by simpa using h)

/-- After some literals: of the temporaries for these, those from `lost` on hold their values,
and only the first `d` are not as they were. -/
structure Holds (lost d : Nat) (objs : List (EvalObject F)) (base consts : Constants F) : Prop where
  others : AgreeFrom d base consts
  own : ∀ i obj, lost ≤ i → objs[i]? = some obj → consts (tmpKey i) = some (objectToMupValue obj)
  count : objs.length ≤ d

namespace Holds

variable {lost d t : Nat} {objs : List (EvalObject F)} {base consts consts₁ : Constants F}

/-- The next literal, which registers the first `t` temporaries while it is evaluated. -/
theorem next (h : Holds lost d objs base consts) (hagree : AgreeFrom t consts consts₁) (obj : EvalObject F) :
    Holds (max lost (min t objs.length)) (max (max d t) (objs.length + 1)) (objs ++ [obj]) base
      (registerConstantObj consts₁ (tmpKey objs.length) obj) where
  others := (h.others.trans hagree).register objs.length obj
  own := by
    intro i x hlost hx
    by_cases hlast : i = objs.length
    · subst hlast
      obtain rfl : obj = x := by simpa using hx
      simp [registerConstantObj]
    · have hlt : i < objs.length := by
        have := (List.getElem?_eq_some_iff.mp hx).1
        simp at this
        omega
      rw [registerConstantObj_apply obj fun he => hlast (tmpKey_injective he), hagree]
      · rw [List.getElem?_append_left hlt] at hx
        exact h.own i x (by omega) hx
      · intro j hj he
        have := tmpKey_injective he
        omega
  count := by simp

/-- The parser finds what it should, if the text names nothing else. -/
theorem parse (h : Holds lost d objs base consts) {text : Text} (hfresh : fresh lost objs.length d text = true) :
    parse P (registerAll base 0 objs) text = parse P consts text := by
  have hreads := P.reads text (registerAll base 0 objs) consts fun name hname => by
    by_cases htmp : ∃ i < d, name = tmpKey i
    · obtain ⟨i, hi, rfl⟩ := htmp
      have hown := List.all_eq_true.mp hfresh i (List.mem_range.mpr hi)
      simp only [Bool.or_eq_true, Bool.and_eq_true, decide_eq_true_eq, hname, not_true_eq_false, or_false] at hown
      obtain ⟨obj, hobj⟩ : ∃ obj, objs[i]? = some obj := ⟨objs[i], List.getElem?_eq_getElem hown.2⟩
      have hvalue := registerAll_own base 0 hobj
      rw [Nat.zero_add] at hvalue
      rw [hvalue, h.own i obj hown.1 hobj]
    · have hne : ∀ i < d, name ≠ tmpKey i := fun i hi he => htmp ⟨i, hi, he⟩
      rw [h.others name hne, registerAll_other]
      intro i hi
      rw [Nat.zero_add]
      exact hne i (Nat.lt_of_lt_of_le hi h.count)
  simp [Util.parse, hreads]

end Holds

/-! ### A computation and what it should be worth -/

/-- The computation ends and keeps the user's constants. If it is clean, with the first `d`
temporaries not as in `base`, it ends with what it should and registers `temps` of them. -/
def Follows {α : Type} (run : Constants F → Outcome F α) (worth : Constants F → Worth α)
    (temps : Constants F → Nat) (clean : Constants F → Nat → Prop) : Prop :=
  ∀ consts, ∃ r consts', run consts = some (r, consts') ∧ Same consts consts' ∧
    ∀ base d, AgreeFrom d base consts → clean base d →
      worth base = some r ∧ AgreeFrom (temps base) consts consts'

namespace Follows

variable {α β : Type} {run : Constants F → Outcome F α} {worth : Constants F → Worth α}
  {f : α → Constants F → Outcome F β} {g : α → Constants F → Worth β}
  {t t' : Constants F → Nat} {q q' : Constants F → Nat → Prop}

theorem pure (r : Except Fault α) : Follows (F := F) (fun consts => some (r, consts)) (fun _ => some r) t q := by
  intro consts
  exact ⟨r, consts, rfl, .refl _, fun _ _ _ _ => ⟨rfl, .refl _ _⟩⟩

theorem mono (h : Follows run worth t q) (ht : ∀ base, t base ≤ t' base) (hq : ∀ base d, q' base d → q base d) :
    Follows run worth t' q' := by
  intro consts
  obtain ⟨r, consts', hrun, hsame, hclean⟩ := h consts
  refine ⟨r, consts', hrun, hsame, fun base d hbase hq' => ?_⟩
  obtain ⟨hworth, hagree⟩ := hclean base d hbase (hq base d hq')
  exact ⟨hworth, hagree.mono (ht base)⟩

theorem caught (h : Follows run worth t q) (expr : Text) :
    Follows (fun consts => (run consts).caught expr) (fun base => (worth base).map (rethrown expr)) t q := by
  intro consts
  obtain ⟨r, consts', hrun, hsame, hclean⟩ := h consts
  refine ⟨rethrown expr r, consts', by simp [hrun, Outcome.caught], hsame, fun base d hbase hq => ?_⟩
  obtain ⟨hworth, hagree⟩ := hclean base d hbase hq
  exact ⟨by simp [hworth], hagree⟩

/-- One computation after the other, unless the first throws. -/
theorem bind (h : Follows run worth t q) (hf : ∀ a, Follows (f a) (g a) t' q') :
    Follows (fun consts => (run consts).bind f) (fun base => (worth base).bind fun a => g a base)
      (fun base => max (t base) (if (worth base).thrown then 0 else t' base))
      (fun base d => q base d ∧ ((worth base).thrown = false → q' base (max d (t base)))) := by
  intro consts
  obtain ⟨r, consts₁, hrun, hsame, hclean⟩ := h consts
  cases r with
  | error fault =>
      refine ⟨.error fault, consts₁, by simp [hrun, Outcome.bind], hsame, fun base d hbase hq => ?_⟩
      obtain ⟨hworth, hagree⟩ := hclean base d hbase hq.1
      exact ⟨by simp [hworth, Worth.bind], hagree.mono (Nat.le_max_left _ _)⟩
  | ok a =>
      obtain ⟨r, consts₂, hrun₂, hsame₂, hclean₂⟩ := hf a consts₁
      refine ⟨r, consts₂, by simp [hrun, Outcome.bind, hrun₂], hsame.trans hsame₂, fun base d hbase hq => ?_⟩
      obtain ⟨hworth, hagree⟩ := hclean base d hbase hq.1
      have hthrown : (worth base).thrown = false := by simp [hworth, Worth.thrown]
      obtain ⟨hworth₂, hagree₂⟩ := hclean₂ base _ (hbase.trans hagree) (hq.2 hthrown)
      refine ⟨by simp [hworth, Worth.bind, hworth₂], ?_⟩
      dsimp only
      rw [hthrown, if_neg Bool.false_ne_true]
      exact hagree.trans hagree₂

end Follows

theorem Worth.thrown_map_rethrown (expr : Text) (x : Worth (EvalObject F)) :
    Worth.thrown (x.map (rethrown expr)) = x.thrown := by
  cases x with
  | none => rfl
  | some r =>
      cases r with
      | ok _ => rfl
      | error fault => cases fault <;> rfl

section Loops

variable {eval : Constants F → Text → Outcome F (EvalObject F)} {value : Constants F → Text → Worth (EvalObject F)}
  {temps : Constants F → Text → Nat} {clean : Constants F → Nat → Text → Bool} {expr : Text}

/-- What a text is worth, in the loops below. -/
def FollowsText (eval : Constants F → Text → Outcome F (EvalObject F))
    (value : Constants F → Text → Worth (EvalObject F)) (temps : Constants F → Text → Nat)
    (clean : Constants F → Nat → Text → Bool) (tok : Text) : Prop :=
  Follows (fun consts => eval consts tok) (fun base => value base tok) (fun base => temps base tok)
    (fun base d => clean base d tok = true)

theorem Follows.elements {tokens : List Text} {vec : List (EvalObject F)}
    (h : ∀ tok ∈ tokens, FollowsText eval value temps clean tok) :
    Follows (evalElements eval expr vec tokens) (fun base => elementValues (value base) expr vec tokens)
      (fun base => partTemps (fun tok => (value base tok).thrown) (temps base) tokens)
      (fun base d => cleanParts (fun tok => (value base tok).thrown) (temps base) (clean base) d tokens = true) := by
  induction tokens generalizing vec with
  | nil => exact .pure _
  | cons tok tokens ih =>
      have hrest (obj) := @ih (vec ++ [obj]) fun t ht => h t (List.mem_cons_of_mem _ ht)
      refine (((h tok List.mem_cons_self).caught expr).bind hrest).mono (fun base => ?_) fun base d hclean => ?_
      · rw [Worth.thrown_map_rethrown]
        exact Nat.le_refl _
      · rw [cleanParts, Bool.and_eq_true, Bool.or_eq_true] at hclean
        refine ⟨hclean.1, fun hthrown => ?_⟩
        rw [Worth.thrown_map_rethrown] at hthrown
        exact hclean.2.resolve_left (by simp [hthrown])

theorem Follows.entries {tokens : List Text} {map : List (EvalObject F × EvalObject F)}
    (h : ∀ tok ∈ entryParts tokens, FollowsText eval value temps clean tok) :
    Follows (evalEntries P eval expr map tokens) (fun base => entryValues P (value base) expr map tokens)
      (fun base => partTemps (fun tok => (value base tok).thrown) (temps base) (entryParts tokens))
      (fun base d => cleanParts (fun tok => (value base tok).thrown) (temps base) (clean base) d
        (entryParts tokens) = true) := by
  induction tokens generalizing map with
  | nil => exact .pure _
  | cons tok tokens ih =>
      cases hsplit : splitExpr tok ':' with
      | error fault =>
          have hrun : evalEntries P eval expr map (tok :: tokens) = fun consts => some (.error fault, consts) := by
            funext consts
            simp only [evalEntries, hsplit]
          rw [hrun]
          simp only [entryValues, hsplit]
          exact .pure _
      | ok keyVal =>
          by_cases hpair : ∃ key val, keyVal = [key, val]
          · obtain ⟨key, val, rfl⟩ := hpair
            have hrun : evalEntries P eval expr map (tok :: tokens) = fun consts =>
                ((eval consts key).caught expr).bind fun key consts =>
                  ((eval consts val).caught expr).bind fun val consts =>
                    evalEntries P eval expr (emplace P.less key val map) tokens consts := by
              funext consts
              simp only [evalEntries, hsplit]
            rw [hrun]
            simp only [entryParts, entryValues, hsplit, List.mem_cons] at h ⊢
            have hkey := (h key (.inl rfl)).caught expr
            have hval := (h val (.inr (.inl rfl))).caught expr
            have hrest (map) := @ih map fun t ht => h t (.inr (.inr ht))
            refine (hkey.bind fun _ => hval.bind fun _ => hrest _).mono (fun base => ?_) fun base d hclean => ?_
            · simp only [Worth.thrown_map_rethrown, partTemps]
              exact Nat.le_refl _
            · simp only [cleanParts, Bool.and_eq_true, Bool.or_eq_true] at hclean
              refine ⟨hclean.1, fun hthrown => ?_⟩
              rw [Worth.thrown_map_rethrown] at hthrown
              obtain ⟨hcleanVal, hcleanRest⟩ := hclean.2.resolve_left (by simp [hthrown])
              refine ⟨hcleanVal, fun hthrown => ?_⟩
              rw [Worth.thrown_map_rethrown] at hthrown
              exact hcleanRest.resolve_left (by simp [hthrown])
          · have hrun : evalEntries P eval expr map (tok :: tokens) = fun consts =>
                some (.error (.thrown "Exception" (evalAt tok) "not key:value"), consts) := by
              funext consts
              rw [evalEntries, hsplit]
              split
              · next heq => cases heq
              · next heq => exact absurd ⟨_, _, Except.ok.inj heq⟩ hpair
              · rfl
            have hworth : (fun base => entryValues P (value base) expr map (tok :: tokens)) = fun _ =>
                some (.error (.thrown "Exception" (evalAt tok) "not key:value")) := by
              funext base
              rw [entryValues, hsplit]
              split
              · next heq => cases heq
              · next heq => exact absurd ⟨_, _, Except.ok.inj heq⟩ hpair
              · rfl
            rw [hrun, hworth]
            exact .pure _

/-- The loop over the tokens ends with the rewritten text. -/
theorem rewriteTokens_ends {tokens : List Text}
    (h : ∀ tok ∈ tokens.filter isLiteral, FollowsText eval value temps clean tok)
    (index : Nat) (newExpr : Text) (consts : Constants F) :
    ∃ r consts', rewriteTokens eval index newExpr tokens consts = some (r, consts') ∧ Same consts consts' ∧
      ∀ text, r = .ok text → text = newExpr ++ replaced index tokens := by
  induction tokens generalizing index newExpr consts with
  | nil => exact ⟨_, _, rfl, .refl _, by simp [replaced]⟩
  | cons tok tokens ih =>
      have hrest := ih fun t ht => h t (by
        rw [List.mem_filter] at ht ⊢
        exact ⟨List.mem_cons_of_mem _ ht.1, ht.2⟩)
      cases hlit : isLiteral tok with
      | false => simpa [rewriteTokens, replaced, hlit, List.append_assoc] using hrest index (newExpr ++ tok) consts
      | true =>
          obtain ⟨r, consts₁, hrun, hsame, -⟩ := h tok (by simp [hlit]) consts
          cases r with
          | error fault =>
              exact ⟨.error fault, consts₁, by simp [rewriteTokens, hlit, hrun, Outcome.bind], hsame,
                fun text ht => (by cases ht)⟩
          | ok obj =>
              obtain ⟨r, consts₂, hrun₂, hsame₂, htext⟩ := hrest (index + 1) (newExpr ++ tmpKey index)
                (registerConstantObj consts₁ (tmpKey index) obj)
              refine ⟨r, consts₂, by simp [rewriteTokens, hlit, hrun, Outcome.bind, hrun₂],
                (hsame.register index obj).trans hsame₂, fun text ht => ?_⟩
              simp [htext text ht, replaced, hlit]

/-- The loop registers the values of the literals. -/
theorem rewriteTokens_values {tokens : List Text}
    (h : ∀ tok ∈ tokens.filter isLiteral, FollowsText eval value temps clean tok) {text : Text} {base : Constants F}
    (newExpr : Text) {lost d : Nat} {objs : List (EvalObject F)} {consts : Constants F}
    (hholds : Holds lost d objs base consts)
    (hclean : cleanLiterals (fun tok => (value base tok).thrown) (temps base) (clean base) text lost objs.length d
      (tokens.filter isLiteral) = true) :
    ∃ values, literalValues (value base) (tokens.filter isLiteral) = some values ∧
      ∃ consts', AgreeFrom (literalTemps (fun tok => (value base tok).thrown) (temps base) objs.length
          (tokens.filter isLiteral)) consts consts' ∧
        match values with
        | .error fault => rewriteTokens eval objs.length newExpr tokens consts = some (.error fault, consts')
        | .ok more =>
            rewriteTokens eval objs.length newExpr tokens consts
                = some (.ok (newExpr ++ replaced objs.length tokens), consts') ∧
              ∃ lost' d', Holds lost' d' (objs ++ more) base consts' ∧
                fresh lost' (objs ++ more).length d' text = true := by
  induction tokens generalizing newExpr lost d objs consts with
  | nil =>
      rw [List.filter_nil, cleanLiterals, Bool.and_eq_true] at hclean
      refine ⟨.ok [], rfl, consts, .refl _ _, by simp [rewriteTokens, replaced], lost, d, ?_⟩
      rw [List.append_nil]
      exact ⟨hholds, hclean.2⟩
  | cons tok tokens ih =>
      cases hlit : isLiteral tok with
      | false =>
          simp only [List.filter_cons, hlit, Bool.false_eq_true, if_false] at h hclean ⊢
          have hrest := ih h (newExpr ++ tok) hholds hclean
          simpa [rewriteTokens, replaced, hlit, List.append_assoc] using hrest
      | true =>
          simp only [List.filter_cons, hlit, if_true] at h hclean ⊢
          obtain ⟨r, consts₁, hrun, -, hvalue⟩ := h tok List.mem_cons_self consts
          rw [cleanLiterals, Bool.and_eq_true, Bool.or_eq_true] at hclean
          obtain ⟨hworth, hagree⟩ := hvalue base d hholds.others hclean.1
          cases r with
          | error fault =>
              refine ⟨.error fault, by simp [literalValues, hworth, Worth.bind], consts₁, ?_, ?_⟩
              · exact hagree.mono (Nat.le_max_left _ _)
              · simp [rewriteTokens, hlit, hrun, Outcome.bind]
          | ok obj =>
              have hthrown : (value base tok).thrown = false := by simp [hworth, Worth.thrown]
              have hnext := hholds.next hagree obj
              have hlength : (objs ++ [obj]).length = objs.length + 1 := by simp
              obtain ⟨values, hvalues, consts₂, hagree₂, hrest⟩ := ih
                (fun t ht => h t (List.mem_cons_of_mem _ ht)) (newExpr ++ tmpKey objs.length) hnext
                (by
                  rw [hlength]
                  exact hclean.2.resolve_left (by simp [hthrown]))
              have hall : AgreeFrom (literalTemps (fun tok => (value base tok).thrown) (temps base) objs.length
                  (tok :: tokens.filter isLiteral)) consts consts₂ := by
                refine ((hagree.register objs.length obj).trans hagree₂).mono ?_
                simp only [literalTemps, hthrown, hlength, Bool.false_eq_true, if_false]
                omega
              cases values with
              | error fault =>
                  refine ⟨.error fault, by simp [literalValues, hworth, Worth.bind, hvalues], consts₂, hall, ?_⟩
                  rw [hlength] at hrest
                  simp [rewriteTokens, hlit, hrun, Outcome.bind, hrest]
              | ok more =>
                  refine ⟨.ok (obj :: more), by simp [literalValues, hworth, Worth.bind, hvalues], consts₂, hall, ?_⟩
                  obtain ⟨hrest, lost', d', hholds', hfresh⟩ := hrest
                  rw [hlength] at hrest
                  rw [List.append_assoc, List.singleton_append] at hholds' hfresh
                  refine ⟨?_, lost', d', hholds', hfresh⟩
                  simp [rewriteTokens, hlit, hrun, Outcome.bind, hrest, replaced]

end Loops

/-! ### The rewritten text -/

theorem bare_word {word : Text} (h : ∀ ch ∈ word, identChar ch = true) (previousCh : Char) :
    ∃ ch, bare false previousCh word = some (false, ch) := by
  induction word generalizing previousCh with
  | nil => exact ⟨previousCh, rfl⟩
  | cons ch word ih =>
      have hch := h ch List.mem_cons_self
      have hcloses : Split.closes nul ch = false := by
        simp only [Split.closes, Bool.or_eq_false_iff, Bool.and_eq_false_iff, beq_eq_false_iff_ne]
        refine ⟨⟨.inr (by simp), ?_⟩, ?_⟩ <;> rintro rfl <;> cases hch
      have hopens : Split.opens nul ch = false := by
        simp only [Split.opens, Bool.or_eq_false_iff, Bool.and_eq_false_iff, beq_eq_false_iff_ne]
        refine ⟨⟨.inr (by simp), ?_⟩, ?_⟩ <;> rintro rfl <;> cases hch
      have hnul : ch ≠ nul := by rintro rfl; cases hch
      have hquote : (ch == quote) = false := by
        rw [beq_eq_false_iff_ne]
        rintro rfl
        cases hch
      obtain ⟨last, hlast⟩ := ih (fun c hc => h c (List.mem_cons_of_mem _ hc)) ch
      exact ⟨last, by simp [bare, hcloses, hopens, hnul, hquote, hlast]⟩

theorem bare_tmpKey (previousCh : Char) (index : Nat) :
    ∃ ch, bare false previousCh (tmpKey index) = some (false, ch) := by
  refine bare_word (fun ch hch => ?_) previousCh
  rw [tmpKey, List.mem_append] at hch
  rcases hch with hch | hch
  · exact List.all_eq_true.mp (by decide : tmpTypeId.all identChar = true) ch hch
  · have := Nat.isDigit_of_mem_toDigits (by decide) (by decide) hch
    simp [identChar, Char.isAlphanum, this]

theorem tmpKey_starts (index : Nat) : starts (tmpKey index) :=
  ⟨'_', _, rfl, rfl⟩

theorem replaced_append (index : Nat) (before last : List Text) : replaced index (before ++ last) =
    replaced index before ++ replaced (index + (before.filter isLiteral).length) last := by
  induction before generalizing index with
  | nil => rfl
  | cons tok before ih =>
      cases hlit : isLiteral tok with
      | false => simp [replaced, hlit, ih]
      | true => simp [replaced, hlit, ih, Nat.add_assoc, Nat.add_comm 1]

/-- A piece, or the temporary for it, is text without containers. -/
theorem bare_replaced_single {tok : Text} {inQuotes : Bool} (h : Piece tok inQuotes) (previousCh : Char)
    (index : Nat) : ∃ r, bare false previousCh (replaced index [tok]) = some r ∧ (inQuotes = false → r.1 = false) := by
  cases hlit : isLiteral tok with
  | true =>
      obtain ⟨ch, hch⟩ := bare_tmpKey previousCh index
      exact ⟨(false, ch), by simpa [replaced, hlit] using hch, fun _ => rfl⟩
  | false =>
      obtain ⟨ch, hch⟩ := h.content.resolve_left (by simp [hlit])
      obtain ⟨ch', hch'⟩ := bare_outside previousCh hch
      exact ⟨(inQuotes, ch'), by simpa [replaced, hlit] using hch', id⟩

theorem bare_replaced {before : List Text} (h : ∀ t ∈ before, Piece t false) (previousCh : Char) (index : Nat) :
    ∃ ch, bare false previousCh (replaced index before) = some (false, ch) := by
  induction before generalizing previousCh index with
  | nil => exact ⟨previousCh, rfl⟩
  | cons tok before ih =>
      obtain ⟨⟨q, ch⟩, hch, hq⟩ := bare_replaced_single (h tok List.mem_cons_self) previousCh index
      obtain rfl : q = false := hq rfl
      obtain ⟨last, hlast⟩ := ih (fun t ht => h t (List.mem_cons_of_mem _ ht)) ch
        (index + ([tok].filter isLiteral).length)
      refine ⟨last, ?_⟩
      rw [← List.singleton_append, replaced_append, bare_append, hch]
      exact hlast

/-- **The rewritten text has no container**, and begins with a character that is not a
space: it goes to the parser. -/
theorem replaced_bare {expr : Text} {tokens : List Text} (h : splitExpr expr nul = .ok tokens) (hne : tokens ≠ []) :
    starts (replaced 0 tokens) ∧ ∃ r, bare false nul (replaced 0 tokens) = some r := by
  obtain ⟨before, last, rfl, hlength, hbefore, hlast⟩ := splitExpr_pieces h
  constructor
  · obtain ⟨tok, tokens, htokens⟩ := List.exists_cons_of_ne_nil hne
    have hstarts : starts tok := by
      have hmem : tok ∈ before ++ last := by simp [htokens]
      rcases List.mem_append.mp hmem with hmem | hmem
      · exact (hbefore tok hmem).starts
      · exact (hlast tok hmem).choose_spec.starts
    rw [htokens, replaced]
    split
    · exact Split.starts_append (tmpKey_starts 0)
    · exact Split.starts_append hstarts
  · obtain ⟨ch, hch⟩ := bare_replaced hbefore nul 0
    rw [replaced_append, bare_append, hch]
    match last, hlength, hlast with
    | [], _, _ => exact ⟨_, rfl⟩
    | [tok], _, hlast =>
        obtain ⟨q, hpiece⟩ := hlast tok List.mem_cons_self
        obtain ⟨r, hr, -⟩ := bare_replaced_single hpiece ch (0 + (before.filter isLiteral).length)
        exact ⟨r, hr⟩

theorem not_blank [PocoString] {expr : Text} (hstarts : starts expr) : blank expr = false := by
  obtain ⟨ch, rest, rfl, hch⟩ := hstarts
  obtain ⟨w, w', hw, hw', hsplit⟩ := Lib.trim_split isspace (ch :: rest)
  rw [blank, PocoString.trim_eq, List.isEmpty_eq_false_iff]
  intro hnil
  rw [hnil, List.append_nil] at hsplit
  have hmem : ch ∈ w ++ w' := by
    rw [← hsplit]
    exact List.mem_cons_self
  have hspace : isspace ch = true := (List.mem_append.mp hmem).elim (hw ch) (hw' ch)
  rw [hch] at hspace
  cases hspace

/-- Text without containers goes to the parser. -/
theorem eval_bare [PocoString] {expr : Text} {r : Bool × Char} (hstarts : starts expr)
    (h : bare false nul expr = some r) (depth : Nat) (consts : Constants F) :
    eval P (depth + 1) consts expr = some (parse P consts expr, consts) := by
  have hlit := not_isLiteral_of_bare h
  have hbrackets : inBrackets expr = false := by
    simp only [isLiteral, Bool.or_eq_false_iff] at hlit
    simp [inBrackets, hlit.1]
  have hbraces : inBraces expr = false := by
    simp only [isLiteral, Bool.or_eq_false_iff] at hlit
    simp [inBraces, hlit.2]
  simp [eval, not_blank hstarts, splitExpr_bare hstarts h, hbrackets, hbraces]

/-! ### The evaluation follows the value -/

theorem mem_entryParts {tokens : List Text} {tok : Text} (h : tok ∈ entryParts tokens) :
    ∃ entry ∈ tokens, tok.length ≤ entry.length := by
  induction tokens with
  | nil => simp [entryParts] at h
  | cons entry tokens ih =>
      rw [entryParts] at h
      split at h
      · next key val hsplit =>
        simp only [List.mem_cons] at h
        rcases h with rfl | rfl | h
        · exact ⟨entry, List.mem_cons_self, splitExpr_length_le hsplit (by simp)⟩
        · exact ⟨entry, List.mem_cons_self, splitExpr_length_le hsplit (by simp)⟩
        · obtain ⟨e, he, hlength⟩ := ih h
          exact ⟨e, List.mem_cons_of_mem _ he, hlength⟩
      · simp at h

theorem parts_length {expr tok : Text} (hexpr : inBrackets expr = true ∨ inBraces expr = true)
    (h : tok ∈ parts expr) : tok.length < expr.length := by
  have hlength : (noBrackets expr).length < expr.length := by
    have : 2 ≤ expr.length := by
      rcases hexpr with hexpr | hexpr
      · simp [inBrackets] at hexpr
        exact hexpr.1.1
      · simp [inBraces] at hexpr
        exact hexpr.1.1
    simp [noBrackets]
    omega
  refine Nat.lt_of_le_of_lt ?_ hlength
  unfold parts at h
  split at h
  · simp at h
  · rename_i tokens hsplit
    split at h
    · exact splitExpr_length_le hsplit h
    · split at h
      · obtain ⟨entry, hentry, hle⟩ := mem_entryParts h
        exact Nat.le_trans hle (splitExpr_length_le hsplit hentry)
      · simp at h

section Eval

variable {depth : Nat}

/-- The evaluation of a text at a depth. -/
def FollowsAt [PocoString] (depth : Nat) (expr : Text) : Prop :=
  FollowsText (fun consts => eval P depth consts) (fun base => value P base depth) (fun base => temps P base depth)
    (fun base d => clean P base depth d) expr

variable {P}

/-- A literal follows its value, if its parts do. -/
theorem follows_list [PocoString] {expr : Text} (hexpr : inBrackets expr = true)
    (h : ∀ tok ∈ parts expr, FollowsAt P depth tok) :
    Follows (fun consts => evalList (eval P depth) expr consts) (fun base => listValue (value P base depth) expr)
      (fun base => partTemps (fun tok => (value P base depth tok).thrown) (temps P base depth) (parts expr))
      (fun base d => cleanParts (fun tok => (value P base depth tok).thrown) (temps P base depth)
        (clean P base depth) d (parts expr) = true) := by
  unfold evalList listValue
  cases hsplit : splitExpr (noBrackets expr) ',' with
  | error fault => exact .pure _
  | ok tokens =>
      have hparts : parts expr = tokens := by simp [parts, hsplit, hexpr]
      rw [hparts] at h ⊢
      exact Follows.elements h

theorem follows_map [PocoString] {expr : Text} (hexpr : inBraces expr = true) (hlist : inBrackets expr = false)
    (h : ∀ tok ∈ parts expr, FollowsAt P depth tok) :
    Follows (fun consts => evalMap P (eval P depth) expr consts) (fun base => mapValue P (value P base depth) expr)
      (fun base => partTemps (fun tok => (value P base depth tok).thrown) (temps P base depth) (parts expr))
      (fun base d => cleanParts (fun tok => (value P base depth tok).thrown) (temps P base depth)
        (clean P base depth) d (parts expr) = true) := by
  unfold evalMap mapValue
  cases hsplit : splitExpr (noBrackets expr) ',' with
  | error fault => exact .pure _
  | ok tokens =>
      have hparts : parts expr = entryParts tokens := by simp [parts, hsplit, hexpr, hlist]
      rw [hparts] at h ⊢
      exact Follows.entries P h

/-- Text that is not rewritten, given to the parser. -/
theorem follows_leaf [PocoString] (expr : Text) (t : Constants F → Nat) :
    Follows (fun consts => some (parse P consts expr, consts)) (fun base => some (parse P base expr)) t
      (fun _ d => fresh 0 0 d expr = true) := by
  intro consts
  refine ⟨_, consts, rfl, .refl _, fun base d hbase hfresh => ⟨?_, .refl _ _⟩⟩
  have hholds : Holds 0 d [] base consts := ⟨hbase, by simp, by simp⟩
  exact congrArg some (hholds.parse P hfresh)

/-- An expression that is rewritten. -/
theorem follows_rewritten [PocoString] {expr : Text} {tokens : List Text} (hsplit : splitExpr expr nul = .ok tokens)
    (hmany : 1 < tokens.length) (hdepth : 0 < depth)
    (h : ∀ tok ∈ tokens.filter isLiteral, FollowsAt P depth tok) :
    Follows
      (fun consts => (rewriteTokens (eval P depth) 0 [] tokens consts).bind fun newExpr consts =>
        eval P depth consts newExpr)
      (fun base => (literalValues (value P base depth) (tokens.filter isLiteral)).bind fun objs =>
        some (parse P (registerAll base 0 objs) (replaced 0 tokens)))
      (fun base => literalTemps (fun tok => (value P base depth tok).thrown) (temps P base depth) 0
        (tokens.filter isLiteral))
      (fun base d => cleanLiterals (fun tok => (value P base depth tok).thrown) (temps P base depth)
        (clean P base depth) (replaced 0 tokens) 0 0 d (tokens.filter isLiteral) = true) := by
  intro consts
  obtain ⟨depth, rfl⟩ := Nat.exists_eq_succ_of_ne_zero (Nat.ne_of_gt hdepth)
  obtain ⟨hstarts, r₀, hbare⟩ := replaced_bare hsplit (by rintro rfl; simp at hmany)
  obtain ⟨r, consts', hrun, hsame, htext⟩ := rewriteTokens_ends h 0 [] consts
  have hended : ∃ r', (rewriteTokens (eval P (depth + 1)) 0 [] tokens consts).bind
      (fun newExpr consts => eval P (depth + 1) consts newExpr) = some (r', consts') ∧
      ((∃ fault, r = .error fault ∧ r' = .error fault) ∨
        (∃ text, r = .ok text) ∧ r' = parse P consts' (replaced 0 tokens)) := by
    cases r with
    | error fault => exact ⟨.error fault, by simp [hrun, Outcome.bind], .inl ⟨fault, rfl, rfl⟩⟩
    | ok text =>
        obtain rfl : text = replaced 0 tokens := by simpa using htext text rfl
        refine ⟨_, ?_, .inr ⟨⟨_, rfl⟩, rfl⟩⟩
        simp [hrun, Outcome.bind, eval_bare P hstarts hbare]
  obtain ⟨r', hended, hr'⟩ := hended
  refine ⟨r', consts', hended, hsame, fun base d hbase hclean => ?_⟩
  have hholds : Holds 0 d [] base consts := ⟨hbase, by simp, by simp⟩
  obtain ⟨values, hvalues, consts₂, hagree, hrest⟩ := rewriteTokens_values h [] hholds hclean
  cases values with
  | error fault =>
      obtain ⟨rfl, rfl⟩ : r = .error fault ∧ consts' = consts₂ := by simpa [hrun] using hrest
      obtain ⟨fault', hfault, rfl⟩ | ⟨⟨text, htext⟩, -⟩ := hr'
      · obtain rfl : fault = fault' := by simpa using hfault
        exact ⟨by simp [hvalues, Worth.bind], hagree⟩
      · cases htext
  | ok objs =>
      obtain ⟨hrest, lost, d', hholds', hfresh⟩ := hrest
      obtain ⟨rfl, rfl⟩ : r = .ok (replaced 0 tokens) ∧ consts' = consts₂ := by simpa [hrun] using hrest
      obtain ⟨fault, hfault, -⟩ | ⟨-, rfl⟩ := hr'
      · cases hfault
      · refine ⟨?_, hagree⟩
        rw [List.nil_append] at hholds' hfresh
        simp [hvalues, Worth.bind, hholds'.parse P hfresh]

/-- An expression with one token at most. -/
theorem follows_single [PocoString] {expr : Text} {tokens : List Text} (h : ∀ tok ∈ parts expr,
    inBrackets expr = true ∨ inBraces expr = true → FollowsAt P depth tok) :
    Follows
      (fun consts => if inBrackets expr then evalList (eval P depth) expr consts
        else if inBraces expr then evalMap P (eval P depth) expr consts
        else some (parse P consts expr, consts))
      (fun base =>
        let body := stripped expr tokens
        if inBrackets body then listValue (value P base depth) body
        else if inBraces body then mapValue P (value P base depth) body
        else some (parse P base body))
      (fun base => partTemps (fun tok => (value P base depth tok).thrown) (temps P base depth) (parts expr))
      (fun base d => ((tokens.filter isLiteral).all (· == expr) &&
        cleanParts (fun tok => (value P base depth tok).thrown) (temps P base depth) (clean P base depth) d
          (parts expr) &&
        (inBrackets expr || inBraces expr || fresh 0 0 d expr)) = true) := by
  have hstripped (hclean : (tokens.filter isLiteral).all (· == expr) = true) : stripped expr tokens = expr := by
    unfold stripped
    split
    · rename_i tok
      split
      · simpa [*] using hclean
      · rfl
    · rfl
  have hbody {α : Type} {run : Constants F → Outcome F α} {worth worth' : Constants F → Worth α}
      {t : Constants F → Nat} {q : Constants F → Nat → Prop} (hfollows : Follows run worth' t q)
      (hworth : (tokens.filter isLiteral).all (· == expr) = true → ∀ base, worth base = worth' base) :
      Follows run worth t (fun base d => (tokens.filter isLiteral).all (· == expr) = true ∧ q base d) := by
    intro consts
    obtain ⟨r, consts', hrun, hsame, hclean⟩ := hfollows consts
    refine ⟨r, consts', hrun, hsame, fun base d hbase hq => ?_⟩
    rw [hworth hq.1 base]
    exact hclean base d hbase hq.2
  cases hlist : inBrackets expr with
  | true =>
      refine (hbody (follows_list hlist fun tok htok => h tok htok (.inl hlist)) fun hclean base => ?_).mono
        (fun _ => Nat.le_refl _) ?_
      · simp [hstripped hclean, hlist]
      · simp
  | false =>
      cases hmap : inBraces expr with
      | true =>
          refine (hbody (follows_map hmap hlist fun tok htok => h tok htok (.inr hmap))
            fun hclean base => ?_).mono (fun _ => Nat.le_refl _) ?_
          · simp [hstripped hclean, hlist, hmap]
          · simp
      | false =>
          refine (hbody (follows_leaf expr _) fun hclean base => ?_).mono (fun _ => Nat.le_refl _)
            fun base d hclean => ?_
          · simp [hstripped hclean, hlist, hmap]
          · simp only [Bool.or_self, Bool.false_or, Bool.and_eq_true] at hclean
            exact ⟨hclean.1.1, hclean.2⟩

variable (P)

/-- **Evaluation follows the value**, at a depth that is more than the length. -/
theorem eval_follows [PocoString] {expr : Text} (hdepth : expr.length < depth) : FollowsAt P depth expr := by
  induction depth generalizing expr with
  | zero => omega
  | succ depth ih =>
      unfold FollowsAt FollowsText
      simp only [eval, value, temps, clean]
      cases hblank : blank expr with
      | true => exact .pure _
      | false =>
          cases hsplit : splitExpr expr nul with
          | error fault => exact .pure _
          | ok tokens =>
              by_cases hmany : 1 < tokens.length
              · have hliterals (tok) (htok : tok ∈ tokens.filter isLiteral) : FollowsAt P depth tok := by
                  have := splitExpr_length_lt hsplit hmany (List.mem_of_mem_filter htok)
                  exact ih (by omega)
                have hpos : 0 < depth := by
                  obtain ⟨tok, htok⟩ := List.exists_mem_of_length_pos (Nat.lt_of_succ_lt hmany)
                  have := splitExpr_length_lt hsplit hmany htok
                  omega
                simp only [hmany, if_true]
                exact follows_rewritten hsplit hmany hpos hliterals
              · have hparts (tok) (htok : tok ∈ parts expr)
                    (hexpr : inBrackets expr = true ∨ inBraces expr = true) : FollowsAt P depth tok := by
                  have := parts_length hexpr htok
                  exact ih (by omega)
                simp only [hmany, if_false]
                exact follows_single hparts

end Eval

/-- What is to hold for a parser: evaluation ends with the value of the expression, and the
user's constants are the same after it. -/
def Compositional [PocoString] (P : Muparser F) : Prop :=
  ∀ consts depth expr, expr.length < depth → ∃ r consts', eval P depth consts expr = some (r, consts') ∧
    Same consts consts' ∧ value P consts depth expr = some r

/-- The sum of two arrays with one integer. -/
def arraySum : Option (MupValue Unit) → Option (MupValue Unit) → Except String (MupValue Unit)
  | some (.array [.int a]), some (.array [.int b]) => .ok (.array [.int (a + b)])
  | _, _ => .error "type"

/-- The length of an array. -/
def arraySize : MupValue Unit → MupValue Unit
  | .array row => .int row.length
  | val => val

def adderEval (text : Text) (consts : Constants Unit) : Except String (MupValue Unit) :=
  if text = "1".toList then .ok (.int 1)
  else if text = "2".toList then .ok (.int 2)
  else if text = "3".toList then .ok (.int 3)
  else if text = "__tmp__0+ __tmp__1".toList then arraySum (consts (tmpKey 0)) (consts (tmpKey 1))
  else if text = "sizeof(__tmp__0+ __tmp__1)".toList then
    (arraySum (consts (tmpKey 0)) (consts (tmpKey 1))).map arraySize
  else .error "token"

def adder : Muparser Unit where
  less _ _ := false
  eval := adderEval
  reads text consts consts' h := by
    unfold adderEval
    split_ifs with h₁ h₂ h₃ hsum hsize
    · rfl
    · rfl
    · rfl
    · subst hsum
      rw [h (tmpKey 0) (by decide), h (tmpKey 1) (by decide)]
    · subst hsize
      rw [h (tmpKey 0) (by decide), h (tmpKey 1) (by decide)]
    · rfl

/-- Quoted text, a temporary that nothing registers, and a literal behind one that throws. -/
example : clean adder (fun _ => none) 30 0 "\"__tmp__0\" + [sizeof([2] + [3])]".toList = true ∧
    clean adder (fun _ => none) 30 0 "__tmp__5".toList = true ∧
    clean adder (fun _ => none) 30 0 "[x] + [sizeof([2] + [3])]".toList = true := ⟨rfl, rfl, rfl⟩

end PothosCore.Util

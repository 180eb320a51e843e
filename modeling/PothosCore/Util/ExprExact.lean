import PothosCore.Util.ExprBrackets
import PothosCore.Util.ExprGrammar

/-!
# PothosCore.Util.ExprExact

When `splitExpr` splits as the grammar says. It always gives the tokens of the
marks of its own reading, the grammar those of the reading `asMeant`. Two
readings of one expression with the same tokens have the same marks
(`marks_eq_of_tokens`): where they first differ, one cuts off a field that the
other one goes on with.

So a legible expression is split as the grammar says. An expression with a literal
that ends in an escaped backslash is not legible: the loop stays in that literal,
and misses what is to be cut before the next quote (`MissesCut`).
-/

namespace PothosCore.Util

namespace Scan

/-- Nothing is open and no container has just ended. -/
def Idle (c : Scan) : Prop := c.specials = [] ∧ c.inQuotes = false ∧ c.ended = false

/-- A container ended at the top level, with no separator. -/
def Tidy (tokenizer : Char) (c : Scan) : Prop :=
  c.ended = true → c.specials = [] ∧ c.inQuotes = false ∧ tokenizer = nul

section
variable {r : Reading} {tokenizer ch : Char} {c c' : Scan} {m : Mark}

/-- What a character does to a scan. -/
inductive Moves (r : Reading) (tokenizer ch : Char) (c : Scan) : Scan → Mark → Prop
  | quoted {inQuotes escape} : c.inQuotes = true →
      Moves r tokenizer ch c ⟨c.specials, inQuotes, escape, false⟩ c.mark
  | closed {specials escape} : c.specials ≠ [] → isspace ch = false →
      Moves r tokenizer ch c ⟨specials, false, escape, specials.isEmpty && tokenizer == nul⟩ c.mark
  | opened {escape} : c.inQuotes = false → isspace ch = false →
      Moves r tokenizer ch c ⟨ch :: c.specials, false, escape, false⟩
        (if c.specials.isEmpty && tokenizer == nul then .fresh else c.mark)
  | quotes {escape} : c.inQuotes = false → isspace ch = false →
      Moves r tokenizer ch c ⟨c.specials, true, escape, false⟩ c.mark
  | cut {escape} : c.inQuotes = false → c.specials = [] → separates r tokenizer ch = true →
      Moves r tokenizer ch c ⟨c.specials, false, escape, false⟩ .separator
  | kept {escape} : c.inQuotes = false →
      Moves r tokenizer ch c ⟨c.specials, false, escape, false⟩ c.mark

theorem moves (h : c.read r tokenizer ch = some (c', m)) : Moves r tokenizer ch c c' m := by
  unfold read at h
  dsimp only at h
  split at h
  · cases h
    exact .quoted ‹_›
  · have hquotes : c.inQuotes = false := by simpa using ‹¬ c.inQuotes = true›
    split at h
    · next hcloses =>
      split at h
      · cases h
      · next opened rest hspecials =>
        cases h
        exact .closed (by simp [hspecials]) (isspace_of_closes hcloses)
    · split at h
      · next hopens =>
        cases h
        exact .opened hquotes (isspace_of_opens hopens)
      · split at h
        · next hquote =>
          cases h
          rw [beq_iff_eq] at hquote
          subst hquote
          exact .quotes hquotes rfl
        · split at h
          · next hcut =>
            cases h
            rw [Bool.and_eq_true, List.isEmpty_iff] at hcut
            exact .cut hquotes hcut.1 hcut.2
          · cases h
            exact .kept hquotes

theorem tidy_of_read (hread : c.read r tokenizer ch = some (c', m)) : Tidy tokenizer c' := by
  cases moves hread with
  | closed _ _ =>
      intro hended
      simpa using hended
  | quoted | opened | quotes | cut | kept => exact fun hended => (by cases hended)

/-- A character begins a token, or is cut away, as the separator asks. -/
theorem mark_ne_text (h : Tidy tokenizer c) (hread : c.read r tokenizer ch = some (c', m)) :
    (m = .fresh → tokenizer = nul) ∧
      (m = .separator → separates r tokenizer ch = true) := by
  have hmark : c.mark = .fresh → tokenizer = nul := by
    intro hfresh
    unfold mark at hfresh
    split at hfresh
    · exact (h ‹_›).2.2
    · cases hfresh
  have hsep : c.mark ≠ .separator := by
    unfold mark
    split <;> simp
  cases moves hread with
  | quoted | closed | quotes | kept => exact ⟨hmark, fun hs => absurd hs hsep⟩
  | opened =>
      split
      · next hboth =>
        rw [Bool.and_eq_true, beq_iff_eq] at hboth
        exact ⟨fun _ => hboth.2, fun hs => (by cases hs)⟩
      · exact ⟨hmark, fun hs => absurd hs hsep⟩
  | cut _ _ hcut => exact ⟨fun hf => (by cases hf), fun _ => hcut⟩

theorem mark_cases (c : Scan) : c.ended = true ∧ c.mark = .fresh ∨ c.ended = false ∧ c.mark = .text := by
  unfold mark
  cases hended : c.ended with
  | true => exact .inl ⟨rfl, rfl⟩
  | false => exact .inr ⟨rfl, rfl⟩

/-- A character that is not white space begins a field or goes on with one. -/
theorem put_mark_ne_nil (p : Parts) (c : Scan) (hspace : isspace ch = false) :
    (p.put (ch, c.mark)).field ≠ [] := by
  rcases mark_cases c with ⟨-, hmark⟩ | ⟨-, hmark⟩
  · exact put_ne_nil (.inr hspace) (.inr ⟨hmark, hspace⟩)
  · exact put_ne_nil (.inr hspace) (.inl hmark)

/-- With an empty field a scan is idle, and stays so until a field begins. -/
theorem idle_read {p : Parts} (htidy : Tidy tokenizer c) (h : p.field = [] → c.Idle)
    (hread : c.read r tokenizer ch = some (c', m)) (hempty : (p.put (ch, m)).field = []) : c'.Idle := by
  cases moves hread with
  | quoted hquotes =>
      rcases mark_cases c with ⟨hended, -⟩ | ⟨-, hmark⟩
      · exact absurd (htidy hended).2.1 (by simp [hquotes])
      · by_cases hfield : p.field = []
        · exact absurd (h hfield).2.1 (by simp [hquotes])
        · exact absurd hempty (put_ne_nil (.inl hfield) (.inl hmark))
  | closed _ hspace => exact absurd hempty (put_mark_ne_nil p c hspace)
  | opened _ hspace =>
      split at hempty
      · exact absurd hempty (put_ne_nil (.inr hspace) (.inr ⟨rfl, hspace⟩))
      · exact absurd hempty (put_mark_ne_nil p c hspace)
  | quotes _ hspace => exact absurd hempty (put_mark_ne_nil p c hspace)
  | cut _ hspecials _ => exact ⟨hspecials, rfl, rfl⟩
  | kept _ =>
      rcases mark_cases c with ⟨hended, -⟩ | ⟨-, hmark⟩
      · exact ⟨(htidy hended).1, rfl, rfl⟩
      · by_cases hfield : p.field = []
        · exact ⟨(h hfield).1, rfl, rfl⟩
        · exact absurd hempty (put_ne_nil (.inl hfield) (.inl hmark))

/-- Two idle scans mark a character alike, unless one of them separates there. -/
theorem idle_mark {r₂ : Reading} {c₂ c₂' : Scan} {m₂ : Mark} (h : c.Idle) (h₂ : c₂.Idle)
    (hread : c.read r tokenizer ch = some (c', m)) (hread₂ : c₂.read r₂ tokenizer ch = some (c₂', m₂))
    (hsep : separates r tokenizer ch = separates r₂ tokenizer ch) : m = m₂ := by
  obtain ⟨hspecials, hquotes, hended⟩ := h
  obtain ⟨hspecials₂, hquotes₂, hended₂⟩ := h₂
  unfold read at hread hread₂
  simp only [hspecials, hquotes, hspecials₂, hquotes₂, mark, hended, hended₂, ← hsep] at hread hread₂
  grind

/-- An idle loop cuts a null character away when there is no separator. -/
theorem idle_nul (h : c.Idle) (hread : c.read .asCode nul nul = some (c', m)) : m = .separator := by
  obtain ⟨hspecials, hquotes, -⟩ := h
  have hread' : c.read .asCode nul nul = some (⟨[], false, false, false⟩, .separator) := by
    simp [read, hspecials, hquotes, separates, escapes, Split.closes, Split.opens, nul, quote, backslash]
  rw [hread'] at hread
  cases hread
  rfl

theorem readAll_cons_iff {expr : Text} {ms : List (Char × Mark)} :
    c.readAll r tokenizer (ch :: expr) = some (c', ms) ↔
      ∃ c₁ m ms', c.read r tokenizer ch = some (c₁, m) ∧ c₁.readAll r tokenizer expr = some (c', ms') ∧
        ms = (ch, m) :: ms' := by
  rw [readAll]
  cases c.read r tokenizer ch with
  | none => simp
  | some x =>
      obtain ⟨c₁, m⟩ := x
      cases hrest : c₁.readAll r tokenizer expr with
      | none => simp [hrest]
      | some y =>
          obtain ⟨c₂, ms'⟩ := y
          simp [hrest, eq_comm]

theorem map_fst_readAll {expr : Text} {ms : List (Char × Mark)}
    (h : c.readAll r tokenizer expr = some (c', ms)) : ms.map Prod.fst = expr := by
  induction expr generalizing c ms with
  | nil =>
      cases h
      rfl
  | cons ch expr ih =>
      obtain ⟨c₁, m, ms', -, hrest, rfl⟩ := readAll_cons_iff.mp h
      rw [List.map_cons, ih hrest]

/-- Tokens begin behind a container with no separator, and end at separators. -/
theorem readAll_marks {expr : Text} {ms : List (Char × Mark)} (htidy : Tidy tokenizer c)
    (h : c.readAll r tokenizer expr = some (c', ms)) :
    ∀ x ∈ ms, (x.2 = .fresh → tokenizer = nul) ∧ (x.2 = .separator → separates r tokenizer x.1 = true) := by
  induction expr generalizing c ms with
  | nil =>
      cases h
      simp
  | cons ch expr ih =>
      obtain ⟨c₁, m, ms', hread, hrest, rfl⟩ := readAll_cons_iff.mp h
      intro x hx
      rcases List.mem_cons.mp hx with rfl | hx
      · exact mark_ne_text htidy hread
      · exact ih (tidy_of_read hread) hrest x hx

end

end Scan

/-! ### What is left of an expression -/

namespace Parts

/-- Everything collected. -/
def whole (p : Parts) : Text := p.tokens.flatten ++ p.field

theorem whole_push (p : Parts) : p.push.whole = p.whole := by
  cases hfield : p.field <;> simp [whole, push, hfield]

theorem count_add (p : Parts) (ch : Char) :
    (p.add ch).whole.count nul = p.whole.count nul + if ch = nul then 1 else 0 := by
  unfold add
  split
  · have hwhole : ({ p with field := p.field ++ [ch] } : Parts).whole = p.whole ++ [ch] := by simp [whole]
    rw [hwhole, List.count_append, List.count_singleton]
    simp
  · next hskip =>
    have hne : ch ≠ nul := by
      rintro rfl
      simp [isspace, nul] at hskip
    rw [if_neg hne]
    rfl

/-- Null characters are kept where they do not separate. -/
theorem count_putAll (p : Parts) (ms : List (Char × Mark)) :
    (p.putAll ms).whole.count nul
      = p.whole.count nul + ms.countP (fun x => x.1 = nul ∧ x.2 ≠ .separator) := by
  induction ms generalizing p with
  | nil => rfl
  | cons x ms ih =>
      obtain ⟨ch, m⟩ := x
      show ((p.put (ch, m)).putAll ms).whole.count nul = _
      rw [ih, List.countP_cons]
      have hput : (p.put (ch, m)).whole.count nul
          = p.whole.count nul + if ch = nul ∧ m ≠ .separator then 1 else 0 := by
        cases m with
        | text => simpa [put] using count_add p ch
        | fresh => simpa [put, whole_push] using count_add p.push ch
        | separator => simp [put, whole_push]
      rw [hput]
      simp only [decide_eq_true_eq]
      omega

theorem flatten_tokens (p : Parts) : p.push.tokens.flatten = p.whole := by
  rw [← whole_push, whole]
  exact (List.append_nil _).symm

theorem push_prefix (p : Parts) : p.tokens <+: p.push.tokens := by
  rw [push_tokens]
  exact List.prefix_append _ _

theorem add_tokens (p : Parts) (ch : Char) : (p.add ch).tokens = p.tokens := by
  unfold add
  split <;> rfl

/-- Tokens stay. -/
theorem putAll_prefix (p : Parts) (ms : List (Char × Mark)) : p.tokens <+: (p.putAll ms).push.tokens := by
  induction ms generalizing p with
  | nil => exact p.push_prefix
  | cons x ms ih =>
      obtain ⟨ch, m⟩ := x
      refine List.IsPrefix.trans ?_ (ih (p.put (ch, m)))
      cases m with
      | text =>
          rewrite [put, add_tokens]
          exact List.prefix_rfl
      | fresh =>
          rewrite [put, add_tokens]
          exact p.push_prefix
      | separator => exact p.push_prefix

/-- A field that has begun becomes a token, and may go on first. -/
theorem putAll_field {p : Parts} (h : p.field ≠ []) (ms : List (Char × Mark)) :
    ∃ more, p.tokens ++ [p.field ++ more] <+: (p.putAll ms).push.tokens := by
  have hpush : p.push.tokens = p.tokens ++ [p.field] := by simp [push, h]
  induction ms generalizing p with
  | nil =>
      refine ⟨[], ?_⟩
      rw [List.append_nil, ← hpush]
      exact List.prefix_rfl
  | cons x ms ih =>
      obtain ⟨ch, m⟩ := x
      cases m with
      | text =>
          have hadd : p.put (ch, .text) = ⟨p.tokens, p.field ++ [ch]⟩ := by simp [put, add, h]
          obtain ⟨more, hmore⟩ := ih (p := ⟨p.tokens, p.field ++ [ch]⟩) (by simp) (by simp [push])
          refine ⟨ch :: more, ?_⟩
          show _ <+: ((p.put (ch, .text)).putAll ms).push.tokens
          rw [hadd]
          simpa using hmore
      | fresh =>
          refine ⟨[], ?_⟩
          rw [List.append_nil, ← hpush, ← add_tokens p.push ch]
          exact putAll_prefix (p.put (ch, .fresh)) ms
      | separator =>
          refine ⟨[], ?_⟩
          rw [List.append_nil, ← hpush]
          exact putAll_prefix (p.put (ch, .separator)) ms

/-- One reading cuts the field off, the other one goes on with it: the tokens differ. -/
theorem cut_ne {p : Parts} (h : p.field ≠ []) (ch : Char) {m : Mark} (hm : m ≠ .text)
    (ms ms' : List (Char × Mark)) :
    (p.putAll ((ch, m) :: ms)).push.tokens ≠ (p.putAll ((ch, .text) :: ms')).push.tokens := by
  intro heq
  have hpush : p.push.tokens = p.tokens ++ [p.field] := by simp [push, h]
  have hcut : p.tokens ++ [p.field] <+: (p.putAll ((ch, m) :: ms)).push.tokens := by
    rw [← hpush]
    cases m with
    | text => exact absurd rfl hm
    | fresh =>
        rw [← add_tokens p.push ch]
        exact putAll_prefix (p.put (ch, .fresh)) ms
    | separator => exact putAll_prefix (p.put (ch, .separator)) ms
  have hadd : p.put (ch, .text) = ⟨p.tokens, p.field ++ [ch]⟩ := by simp [put, add, h]
  obtain ⟨more, hmore⟩ := putAll_field (p := ⟨p.tokens, p.field ++ [ch]⟩) (by simp) ms'
  have hgoes : p.tokens ++ [p.field ++ [ch] ++ more] <+: (p.putAll ((ch, m) :: ms)).push.tokens := by
    rw [heq]
    show _ <+: ((p.put (ch, .text)).putAll ms').push.tokens
    rw [hadd]
    exact hmore
  have hsame : p.tokens ++ [p.field] = p.tokens ++ [p.field ++ [ch] ++ more] :=
    (List.prefix_of_prefix_length_le hcut hgoes (by simp)).eq_of_length (by simp)
  simp at hsame

end Parts

/-! ### Readings with the same tokens -/

theorem countP_lt {β : Type*} {p q : β → Bool} (hpq : ∀ x, p x = true → q x = true) {l : List β} {x : β}
    (hx : x ∈ l) (hp : p x = false) (hq : q x = true) : l.countP p < l.countP q := by
  obtain ⟨before, rest, rfl⟩ := List.append_of_mem hx
  have hbefore : before.countP p ≤ before.countP q := List.countP_mono_left fun x _ => hpq x
  have hrest : rest.countP p ≤ rest.countP q := List.countP_mono_left fun x _ => hpq x
  rw [List.countP_append, List.countP_append, List.countP_cons_of_neg (by simp [hp]),
    List.countP_cons_of_pos hq]
  omega

section
variable {tokenizer : Char} {expr : Text} {ms ms' : List (Char × Mark)}

/-- With no separator the loop does not cut anything away if its tokens are those of
the reading that is meant. -/
theorem not_separator (hms : marks .asCode tokenizer expr = some ms)
    (hms' : marks .asMeant tokenizer expr = some ms') (h : tokens ms = tokens ms')
    (hnul : tokenizer = nul) : ∀ x ∈ ms, x.2 ≠ .separator := by
  obtain ⟨⟨c, _⟩, hread, rfl⟩ := Option.map_eq_some_iff.mp hms
  obtain ⟨⟨c', _⟩, hread', rfl⟩ := Option.map_eq_some_iff.mp hms'
  dsimp only at h ⊢
  rename_i ms ms'
  have htidy : Scan.Tidy tokenizer Scan.start := fun hended => (by cases hended)
  have hcount := congrArg (fun ts => (List.flatten ts).count nul) h
  simp only [tokens, Parts.flatten_tokens, Parts.count_putAll, Nat.add_left_cancel_iff] at hcount
  -- in the reading that is meant no null character separates
  have hmeant : ms'.countP (fun x => x.1 = nul ∧ x.2 ≠ .separator) = ms'.countP (fun x => x.1 = nul) := by
    refine List.countP_congr fun x hx => ?_
    have hsep := (Scan.readAll_marks htidy hread' x hx).2
    simp only [Scan.separates, hnul, bne_self_eq_false, Bool.and_false, Bool.false_eq_true,
      imp_false] at hsep
    simp [hsep]
  have hall : ∀ l : List (Char × Mark), l.countP (fun x => x.1 = nul) = (l.map Prod.fst).count nul := by
    intro l
    rw [List.count, List.countP_map]
    exact List.countP_congr fun x _ => by simp
  rw [hmeant, hall, Scan.map_fst_readAll hread', ← Scan.map_fst_readAll hread, ← hall] at hcount
  intro x hx hsep
  have hchar : x.1 = nul := by
    have := (Scan.readAll_marks htidy hread x hx).2 hsep
    simpa [Scan.separates, hnul] using this
  have hlt : ms.countP (fun x => x.1 = nul ∧ x.2 ≠ .separator) < ms.countP (fun x => x.1 = nul) :=
    countP_lt (fun x hx => (by simp only [decide_eq_true_eq] at hx ⊢; exact hx.1)) hx (by simp [hsep])
      (by simp [hchar])
  omega

/-- Scans of the same text with the same tokens have the same marks: where they
first differ, the field has begun, and one of them cuts it off. -/
theorem readAll_marks_eq {c₁ c₂ c₁' c₂' : Scan} {p : Parts}
    (htidy₁ : c₁.Tidy tokenizer) (htidy₂ : c₂.Tidy tokenizer)
    (hidle₁ : p.field = [] → c₁.Idle) (hidle₂ : p.field = [] → c₂.Idle)
    (hread₁ : c₁.readAll .asCode tokenizer expr = some (c₁', ms))
    (hread₂ : c₂.readAll .asMeant tokenizer expr = some (c₂', ms'))
    (hnul : tokenizer = nul → ∀ x ∈ ms, x.2 ≠ .separator)
    (h : (p.putAll ms).push.tokens = (p.putAll ms').push.tokens) : ms = ms' := by
  induction expr generalizing c₁ c₂ p ms ms' with
  | nil =>
      cases hread₁
      cases hread₂
      rfl
  | cons ch expr ih =>
      obtain ⟨d₁, m₁, ms₁, hch₁, hrest₁, rfl⟩ := Scan.readAll_cons_iff.mp hread₁
      obtain ⟨d₂, m₂, ms₂, hch₂, hrest₂, rfl⟩ := Scan.readAll_cons_iff.mp hread₂
      obtain ⟨hfresh₁, hsep₁⟩ := Scan.mark_ne_text htidy₁ hch₁
      obtain ⟨hfresh₂, hsep₂⟩ := Scan.mark_ne_text htidy₂ hch₂
      have hno : tokenizer = nul → m₁ ≠ .separator := fun hn => hnul hn _ List.mem_cons_self
      have hno₂ : tokenizer = nul → m₂ ≠ .separator := by
        intro hn hs
        have := hsep₂ hs
        simp [Scan.separates, hn] at this
      by_cases hm : m₁ = m₂
      · subst hm
        rw [ih (p := p.put (ch, m₁)) (Scan.tidy_of_read hch₁) (Scan.tidy_of_read hch₂)
          (Scan.idle_read htidy₁ hidle₁ hch₁) (Scan.idle_read htidy₂ hidle₂ hch₂) hrest₁ hrest₂
          (fun hn x hx => hnul hn x (List.mem_cons_of_mem _ hx)) h]
      · -- the marks differ: the field has begun
        have hfield : p.field ≠ [] := by
          intro hempty
          have hmark := Scan.idle_mark (hidle₁ hempty) (hidle₂ hempty) hch₁ hch₂
          by_cases hboth : ch = nul ∧ tokenizer = nul
          · obtain ⟨rfl, rfl⟩ := hboth
            exact hno rfl (Scan.idle_nul (hidle₁ hempty) hch₁)
          · refine hm (hmark ?_)
            by_cases hn : tokenizer = nul
            · have hch : ch ≠ nul := fun hch => hboth ⟨hch, hn⟩
              simp [Scan.separates, hn, hch]
            · simp [Scan.separates, hn]
        -- and one of the marks is text
        cases m₁ with
        | text => exact absurd h.symm (Parts.cut_ne hfield ch (fun he => hm he.symm) ms₂ ms₁)
        | fresh =>
            cases m₂ with
            | text => exact absurd h (Parts.cut_ne hfield ch (by simp) ms₁ ms₂)
            | fresh => exact absurd rfl hm
            | separator => exact absurd rfl (hno₂ (hfresh₁ rfl))
        | separator =>
            cases m₂ with
            | text => exact absurd h (Parts.cut_ne hfield ch (by simp) ms₁ ms₂)
            | fresh => exact absurd rfl (hno (hfresh₂ rfl))
            | separator => exact absurd rfl hm

theorem marks_eq_of_tokens (hms : marks .asCode tokenizer expr = some ms)
    (hms' : marks .asMeant tokenizer expr = some ms') (h : tokens ms = tokens ms') : ms = ms' := by
  have hnul := not_separator hms hms' h
  obtain ⟨⟨c, _⟩, hread, rfl⟩ := Option.map_eq_some_iff.mp hms
  obtain ⟨⟨c', _⟩, hread', rfl⟩ := Option.map_eq_some_iff.mp hms'
  have htidy : Scan.Tidy tokenizer Scan.start := fun hended => (by cases hended)
  exact readAll_marks_eq htidy htidy (p := ⟨[], []⟩) (fun _ => ⟨rfl, rfl, rfl⟩)
    (fun _ => ⟨rfl, rfl, rfl⟩) hread hread' hnul h

end

/-! ### When the expression is split as the grammar says -/

/-- `splitExpr` returns, and gives the tokens of the grammar if the brackets of
the expression are balanced; with no separator the pieces are the whole expression. -/
def SplitsAsMeant (expr : Text) (tokenizer : Char) : Prop :=
  (∃ ts, splitExpr expr tokenizer = .ok ts) ∧
    ∀ items : List Item, (∀ item ∈ items, item.Ok .asMeant tokenizer) → render items = expr →
      splitExpr expr tokenizer = .ok (tokensOf tokenizer items) ∧
        (tokenizer = nul → (pieces tokenizer items).flatten = expr)

/-- A balanced expression has a literal, inside a group or not, that ends in an
escaped backslash. The loop goes on inside of it. -/
def Misread (tokenizer : Char) (expr : Text) : Prop :=
  ∃ items : List Item, (∀ item ∈ items, item.Ok .asMeant tokenizer) ∧ render items = expr ∧
    ∃ item ∈ items, ¬ item.Ok .asCode tokenizer

/-- With no separator, a null character stands outside brackets and literals; in
front of it no literal ends in an escaped backslash. -/
def LosesNul (tokenizer : Char) (expr : Text) : Prop :=
  tokenizer = nul ∧ ∃ before after : List Item, (∀ item ∈ before, item.Ok .asCode tokenizer) ∧
    (∀ item ∈ after, item.Ok .asMeant tokenizer) ∧ render (before ++ .char nul :: after) = expr

/-- The expression is to be cut at the item. -/
def Item.Cuts (tokenizer : Char) : Item → Prop
  | .char ch => ch = tokenizer ∧ tokenizer ≠ nul
  | .literal _ => False
  | .group _ _ _ => tokenizer = nul

/-- Between the first literal that ends in an escaped backslash and the next quote
there is an item to cut at. -/
def MissesCut (tokenizer : Char) (expr : Text) : Prop :=
  ∃ (before : List Item) (body : Text) (middle : List Item) (cut : Item) (after : List Item),
    (∀ item ∈ before, item.Ok .asCode tokenizer) ∧ Body body ∧ body.getLast? = some backslash ∧
      (∀ item ∈ middle ++ cut :: after, item.Ok .asMeant tokenizer) ∧ quote ∉ render middle ∧
      cut.Cuts tokenizer ∧ render (before ++ .literal body :: (middle ++ cut :: after)) = expr

/-- Nothing is closed that was not opened. No literal of a balanced expression ends
in an escaped backslash, and no null character of it is taken for a separator. -/
def Legible (tokenizer : Char) (expr : Text) : Prop :=
  ¬ ClosesUnopened tokenizer expr ∧ ¬ Misread tokenizer expr ∧ ¬ LosesNul tokenizer expr

section
variable {tokenizer : Char} {expr : Text}

theorem render_append (items items' : List Item) : render (items ++ items') = render items ++ render items' :=
  List.flatMap_append

theorem render_cons (item : Item) (items : List Item) : render (item :: items) = item.text ++ render items :=
  List.flatMap_cons

theorem marksOf_append (r : Reading) (tokenizer : Char) (ended : Bool) (items items' : List Item) :
    ∃ ended', marksOf r tokenizer ended (items ++ items')
      = marksOf r tokenizer ended items ++ marksOf r tokenizer ended' items' := by
  induction items generalizing ended with
  | nil => exact ⟨ended, rfl⟩
  | cons item items ih =>
      cases item with
      | char ch =>
          obtain ⟨ended', h⟩ := ih false
          exact ⟨ended', by rw [List.cons_append, marksOf, h, marksOf, List.cons_append]⟩
      | literal body =>
          obtain ⟨ended', h⟩ := ih false
          exact ⟨ended', by simp only [List.cons_append, marksOf, h, List.append_assoc]⟩
      | group opened inner closed =>
          obtain ⟨ended', h⟩ := ih (tokenizer == nul)
          exact ⟨ended', by simp only [List.cons_append, marksOf, h, List.append_assoc]⟩

/-- The two readings of items mark them alike unless a null character is taken for a separator. -/
theorem marksOf_readings {items : List Item} (h : tokenizer = nul → .char nul ∉ items) (ended : Bool) :
    marksOf .asCode tokenizer ended items = marksOf .asMeant tokenizer ended items := by
  induction items generalizing ended with
  | nil => rfl
  | cons item items ih =>
      have hrest := ih fun hnul hmem => h hnul (List.mem_cons_of_mem _ hmem)
      cases item with
      | char ch =>
          have hsep : Scan.separates .asCode tokenizer ch = Scan.separates .asMeant tokenizer ch := by
            by_cases hnul : tokenizer = nul
            · have hch : ch ≠ nul := by
                rintro rfl
                exact h hnul List.mem_cons_self
              simp [Scan.separates, hnul, hch]
            · simp [Scan.separates, hnul]
          rw [marksOf, marksOf, hsep, hrest]
      | literal body => rw [marksOf, marksOf, hrest]
      | group opened inner closed => rw [marksOf, marksOf, hrest]

/-- The marks of the grammar, when the expression is split as it says. -/
theorem SplitsAsMeant.marks_eq (h : SplitsAsMeant expr tokenizer) {items : List Item}
    (hok : ∀ item ∈ items, item.Ok .asMeant tokenizer) (hrender : render items = expr) :
    marks .asCode tokenizer expr = some (marksOf .asMeant tokenizer false items) := by
  have heq := splitExpr_eq expr tokenizer
  obtain ⟨⟨ts, hts⟩, hsplits⟩ := h
  cases hms : marks .asCode tokenizer expr with
  | none =>
      rw [hms, hts] at heq
      cases heq
  | some ms =>
      rw [hms] at heq
      have hmeant : marks .asMeant tokenizer expr = some (marksOf .asMeant tokenizer false items) := by
        rw [← hrender]
        exact marks_render hok
      have hsame : tokens ms = tokens (marksOf .asMeant tokenizer false items) := by
        rw [tokens_marksOf hok]
        exact Except.ok.inj (heq.symm.trans (hsplits items hok hrender).1)
      rw [marks_eq_of_tokens hms hmeant hsame]

theorem Body.escaped_last {body : Text} (h : Body body) (hlast : body.getLast? = some backslash) :
    [backslash, backslash] <:+ body := by
  induction h with
  | nil => cases hlast
  | @plain ch t _ hbackslash _ ih =>
      cases t with
      | nil => exact absurd (Option.some.inj hlast) hbackslash
      | cons x t => exact (ih (by rwa [List.getLast?_cons_cons] at hlast)).trans (List.suffix_cons _ _)
  | @escaped ch t _ ih =>
      cases t with
      | nil =>
          obtain rfl : ch = backslash := Option.some.inj hlast
          exact List.suffix_rfl
      | cons x t =>
          rw [List.getLast?_cons_cons, List.getLast?_cons_cons] at hlast
          exact ((ih hlast).trans (List.suffix_cons _ _)).trans (List.suffix_cons _ _)

/-- The end of a literal is found if no two backslashes stand before a quote. -/
theorem Body.ends {r : Reading} {body t : Text} (h : Body body)
    (hfree : ¬ [backslash, backslash, quote] <:+: body ++ quote :: t) : r.Ends body := by
  rintro - hlast
  obtain ⟨front, hfront⟩ := h.escaped_last hlast
  exact hfree ⟨front, t, by simp [← hfront]⟩

theorem Balanced.asCode {t : Text} (h : Balanced .asMeant tokenizer t)
    (hfree : ¬ [backslash, backslash, quote] <:+: t) : Balanced .asCode tokenizer t := by
  induction h with
  | nil => exact .nil
  | char hord _ ih => exact .char hord (ih fun hin => hfree (hin.trans (List.suffix_cons _ _).isInfix))
  | @literal body t hbody _ _ ih =>
      refine .literal hbody (hbody.ends (t := t) fun hin => hfree (hin.trans (List.suffix_cons _ _).isInfix))
        (ih fun hin => hfree (hin.trans ?_))
      exact ⟨quote :: (body ++ [quote]), [], by simp⟩
  | @group opened closed inner t hopens hpairs _ _ ihinner ih =>
      refine .group hopens hpairs (ihinner fun hin => hfree (hin.trans ?_)) (ih fun hin => hfree (hin.trans ?_))
      · exact ⟨[opened], closed :: t, by simp⟩
      · exact ⟨opened :: (inner ++ [closed]), [], by simp⟩

/-- An expression is legible if no two backslashes stand before a quote of it and it
has no null character. -/
theorem legible_of_free (hcloses : ¬ ClosesUnopened tokenizer expr)
    (hfree : ¬ [backslash, backslash, quote] <:+: expr) (hnul : nul ∉ expr) : Legible tokenizer expr := by
  refine ⟨hcloses, ?_, ?_⟩
  · rintro ⟨items, hok, rfl, item, hitem, hnot⟩
    have hin : ¬ [backslash, backslash, quote] <:+: item.text := by
      obtain ⟨before, after, rfl⟩ := List.append_of_mem hitem
      exact fun hin => hfree (hin.trans ⟨render before, render after, by simp [render]⟩)
    refine hnot ?_
    cases hok item hitem with
    | char hord => exact .char hord
    | literal hbody _ =>
        exact .literal hbody (hbody.ends (t := []) fun hi => hin (hi.trans (List.suffix_cons _ _).isInfix))
    | @group opened closed inner hopens hpairs hinner =>
        refine .group hopens hpairs (hinner.asCode fun hi => hin (hi.trans ?_))
        exact ⟨[opened], [closed], by simp [Item.text]⟩
  · rintro ⟨-, before, after, -, -, rfl⟩
    exact hnul (by simp [render, Item.text])

theorem Legible.splitsAsMeant (h : Legible tokenizer expr) : SplitsAsMeant expr tokenizer := by
  obtain ⟨hcloses, hread, hnul⟩ := h
  refine ⟨(splitExpr_returns_iff expr tokenizer).mpr hcloses, fun items hok hrender => ?_⟩
  -- the loop reads the literals as they are meant
  have hcode : ∀ item ∈ items, item.Ok .asCode tokenizer := by
    intro item hitem
    by_contra hnot
    exact hread ⟨items, hok, hrender, item, hitem, hnot⟩
  have hkept : tokenizer = nul → .char nul ∉ items := by
    intro htokenizer hmem
    obtain ⟨before, after, rfl⟩ := List.append_of_mem hmem
    exact hnul ⟨htokenizer, before, after, fun item hitem => hcode item (by simp [hitem]),
      fun item hitem => hok item (by simp [hitem]), hrender⟩
  have hmarks : marks .asCode tokenizer expr = some (marksOf .asMeant tokenizer false items) := by
    rw [← hrender, marks_render hcode, marksOf_readings hkept]
  constructor
  · rw [splitExpr_eq, hmarks]
    exact congrArg Except.ok (tokens_marksOf hok)
  · rintro rfl
    rw [flatten_pieces, hrender]

/-- The mark of a character that a scan comes to. -/
theorem marks_behind {r : Reading} {c c' : Scan} {ch : Char} {m : Mark} {t u : Text} {ms all : List (Char × Mark)}
    (ht : Scan.start.readAll r tokenizer t = some (c, ms)) (hch : c.read r tokenizer ch = some (c', m))
    (h : marks r tokenizer (t ++ ch :: u) = some all) : ∃ rest, all = ms ++ (ch, m) :: rest := by
  rw [marks, Scan.readAll_append, ht, Option.bind_some, Scan.readAll_cons hch] at h
  cases hrest : c'.readAll r tokenizer u with
  | none =>
      rw [hrest] at h
      cases h
  | some x =>
      rw [hrest] at h
      exact ⟨x.2, (Option.some.inj h).symm⟩

theorem SplitsAsMeant.not_losesNul (h : SplitsAsMeant expr tokenizer) : ¬ LosesNul tokenizer expr := by
  rintro ⟨rfl, before, after, hbefore, hafter, hrender⟩
  have hok : ∀ item ∈ before ++ .char nul :: after, item.Ok .asMeant nul := by
    intro item hitem
    rcases List.mem_append.mp hitem with hitem | hitem
    · exact (hbefore item hitem).asMeant
    · rcases List.mem_cons.mp hitem with rfl | hitem
      · exact .char rfl
      · exact hafter item hitem
  have hmarks := h.marks_eq hok hrender
  have hnone : ∀ x ∈ marksOf .asMeant nul false (before ++ .char nul :: after), x.2 ≠ .separator := by
    refine not_separator hmarks ?_ rfl rfl
    rw [← hrender]
    exact marks_render hok
  -- but the loop is outside brackets and literals at the null character
  obtain ⟨escape, ended, hread⟩ := Scan.readAll_items hbefore false false
  have hnul : Scan.read .asCode nul ⟨[], false, escape, ended⟩ nul
      = some (⟨[], false, false, false⟩, .separator) := by
    simp [Scan.read, Scan.separates, Scan.escapes, Split.closes, Split.opens, nul, quote, backslash]
  rw [← hrender, render_append, render_cons] at hmarks
  obtain ⟨rest, hall⟩ := marks_behind hread hnul hmarks
  exact hnone (nul, .separator) (by simp [hall]) rfl

/-- The first character of an item to cut at is not text. -/
theorem Item.Cuts.marksOf {item : Item} (h : item.Cuts tokenizer) (ended : Bool) (items : List Item) :
    ∃ ch m more rest, item.text = ch :: more ∧ m ≠ .text ∧
      Util.marksOf .asMeant tokenizer ended (item :: items) = (ch, m) :: rest := by
  cases item with
  | char ch =>
      have hsep : Scan.separates .asMeant tokenizer ch = true := by simpa [Scan.separates, Item.Cuts] using h
      exact ⟨ch, .separator, _, _, rfl, by simp, by rw [Util.marksOf, if_pos hsep]⟩
  | literal body => exact h.elim
  | group opened inner closed =>
      have hnul : tokenizer = nul := h
      exact ⟨opened, .fresh, _, _, rfl, by simp, by rw [Util.marksOf, if_pos hnul]⟩

theorem SplitsAsMeant.not_missesCut (h : SplitsAsMeant expr tokenizer) : ¬ MissesCut tokenizer expr := by
  rintro ⟨before, body, middle, item, after, hbefore, hbody, hlast, hrest, hmiddle, hcuts, hrender⟩
  have hok : ∀ e ∈ before ++ .literal body :: (middle ++ item :: after), e.Ok .asMeant tokenizer := by
    intro e hmem
    rcases List.mem_append.mp hmem with he | he
    · exact (hbefore e he).asMeant
    · rcases List.mem_cons.mp he with he | he
      · rw [he]
        exact .literal hbody fun hr => by cases hr
      · exact hrest e he
  have hmarks := h.marks_eq hok hrender
  have hitems : before ++ .literal body :: (middle ++ item :: after)
      = (before ++ .literal body :: middle) ++ item :: after := by simp
  rw [hitems] at hmarks hrender
  obtain ⟨ended, hmeant⟩ :=
    marksOf_append .asMeant tokenizer false (before ++ .literal body :: middle) (item :: after)
  obtain ⟨ch, m, more, meant, htext, hm, hcut⟩ := hcuts.marksOf ended after
  -- the loop is inside the literal there
  obtain ⟨escape₁, ended₁, hread₁⟩ := Scan.readAll_items hbefore false false
  obtain ⟨escape₂, hread₂⟩ := Scan.readAll_unquoted .asCode tokenizer hmiddle [] false
  have hread : Scan.start.readAll .asCode tokenizer (render (before ++ .literal body :: middle))
      = some (⟨[], true, escape₂, false⟩, Util.marksOf .asCode tokenizer false before
          ++ ((quote, firstMark ended₁) :: texts (body ++ [quote]) ++ texts (render middle))) := by
    rw [render_append, render_cons, Scan.readAll_append, Scan.start, hread₁, Option.bind_some, Scan.readAll_append,
      Item.text, Scan.readAll_missed hbody hlast, Option.bind_some, hread₂]
    rfl
  have hinside : Scan.read .asCode tokenizer ⟨[], true, escape₂, false⟩ ch
      = some (⟨[], !(ch == quote && !escape₂), ch == backslash, false⟩, .text) := rfl
  rw [← hrender, render_append, render_cons, htext] at hmarks
  obtain ⟨rest, hall⟩ := marks_behind hread hinside hmarks
  rw [hmeant, hcut] at hall
  have hlength : (Util.marksOf .asMeant tokenizer false (before ++ .literal body :: middle)).length
      = (Util.marksOf .asCode tokenizer false before
          ++ ((quote, firstMark ended₁) :: texts (body ++ [quote]) ++ texts (render middle))).length := by
    rw [← List.length_map Prod.fst, map_fst_marksOf, ← Scan.map_fst_readAll hread, List.length_map]
  have hsame := List.append_inj_right hall hlength
  exact hm (congrArg Prod.snd (List.cons.inj hsame).1)

end

/-- **When the expression is split as the grammar says.** It is if it is legible.
It is not if something is closed that was not opened, if a null character is taken
for a separator, or if there is a cut to make where the loop is still inside a
literal that ended in an escaped backslash. -/
theorem splitsAsMeant_of_legible (expr : Text) (tokenizer : Char) :
    (Legible tokenizer expr → SplitsAsMeant expr tokenizer) ∧
      (SplitsAsMeant expr tokenizer →
        ¬ ClosesUnopened tokenizer expr ∧ ¬ LosesNul tokenizer expr ∧ ¬ MissesCut tokenizer expr) :=
  ⟨Legible.splitsAsMeant, fun h =>
    ⟨(splitExpr_returns_iff expr tokenizer).mp h.1, h.not_losesNul, h.not_missesCut⟩⟩

/-- A separator in a literal and one in a list are kept, and an escaped quote does not end a literal. -/
theorem splitsAsMeant_quoted : SplitsAsMeant "\"a\\\", b\", [c, {d: 1}]".toList ',' := by
  refine (splitsAsMeant_of_legible _ _).1 (legible_of_free ?_ ?_ (by decide))
  · exact (splitExpr_returns_iff _ _).mp ⟨_, rfl⟩
  · simp [List.infix_cons_iff, List.cons_prefix_cons, backslash, quote]

/-- A closing bracket with nothing open reads the top of an empty stack; behind a
literal that ends in an escaped backslash the separator is missed; and with no
separator a null character is lost. -/
theorem not_splitsAsMeant :
    splitExpr "]".toList ',' = .error (.undefined "specials.top()") ∧
      ¬ SplitsAsMeant "]".toList ',' ∧
      ¬ SplitsAsMeant [quote, backslash, backslash, quote, ',', 'b'] ',' ∧
      ¬ SplitsAsMeant ['a', nul, 'b'] nul := by
  refine ⟨rfl, ?_, ?_, ?_⟩
  · rintro ⟨⟨ts, hts⟩, -⟩
    cases hts
  · rintro ⟨-, hsplits⟩
    have hok : ∀ item ∈ [Item.literal [backslash, backslash], .char ',', .char 'b'], item.Ok .asMeant ',' := by
      intro item hitem
      simp only [List.mem_cons, List.not_mem_nil, or_false] at hitem
      rcases hitem with rfl | rfl | rfl
      · exact .literal (.escaped .nil) fun hr => by cases hr
      · exact .char rfl
      · exact .char rfl
    have htokens := (hsplits _ hok rfl).1
    revert htokens
    decide
  · rintro ⟨-, hsplits⟩
    have hok : ∀ item ∈ [Item.char 'a', .char nul, .char 'b'], item.Ok .asMeant nul := by
      intro item hitem
      simp only [List.mem_cons, List.not_mem_nil, or_false] at hitem
      rcases hitem with rfl | rfl | rfl <;> exact .char rfl
    have htokens := (hsplits _ hok rfl).1
    revert htokens
    decide

end PothosCore.Util

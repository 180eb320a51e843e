import PothosCore.Util.ExprSplit

/-!
# PothosCore.Util.ExprScan

Where `splitExpr` cuts, apart from what it collects. A scan reads an expression
for its open brackets and its string literals and marks every character: text, a
separator, or the first character of a new token. The tokens follow from the
marks (`Parts`).

There are two readings. `asCode` is that of the loop: a quote ends a literal
unless the character before it is a backslash, and a null character separates
where there is no separator. `asMeant` minds that a backslash may itself be
escaped, and separates at a separator only. `splitExpr_eq` says that the loop
collects the tokens of its own reading.
-/

namespace PothosCore.Util

/-- What becomes of a character. -/
inductive Mark
  | text
  /-- A token begins with it. -/
  | fresh
  | separator
  deriving Repr, DecidableEq

inductive Reading
  | asCode
  | asMeant
  deriving Repr, DecidableEq

/-- Where a scan is. -/
structure Scan where
  /-- The characters that are open; the top is the head. -/
  specials : List Char
  inQuotes : Bool
  /-- A quote does not end the literal here. -/
  escape : Bool
  /-- The last character ended a top level container. -/
  ended : Bool
  deriving Repr, DecidableEq

namespace Scan

def start : Scan := ⟨[], false, false, false⟩

/-- Does the character take its meaning from a quote behind it? -/
def escapes (r : Reading) (c : Scan) (ch : Char) : Bool :=
  match r with
  | .asCode => ch == backslash
  | .asMeant => c.inQuotes && ch == backslash && !c.escape

def separates (r : Reading) (tokenizer ch : Char) : Bool :=
  match r with
  | .asCode => ch == tokenizer
  | .asMeant => ch == tokenizer && tokenizer != nul

/-- A character behind a container begins a token. -/
def mark (c : Scan) : Mark := if c.ended then .fresh else .text

/-- One character; a closing character needs something open. -/
def read (r : Reading) (tokenizer : Char) (c : Scan) (ch : Char) : Option (Scan × Mark) :=
  let escape := escapes r c ch
  if c.inQuotes then
    some ({ c with inQuotes := !(ch == quote && !c.escape), escape := escape, ended := false }, c.mark)
  else if Split.closes tokenizer ch then
    match c.specials with
    | [] => none
    | opened :: rest =>
        let specials := if Split.pairs opened ch then rest else c.specials
        some (⟨specials, false, escape, specials.isEmpty && tokenizer == nul⟩, c.mark)
  else if Split.opens tokenizer ch then
    some (⟨ch :: c.specials, false, escape, false⟩,
      if c.specials.isEmpty && tokenizer == nul then .fresh else c.mark)
  else if ch == quote then some (⟨c.specials, true, escape, false⟩, c.mark)
  else if c.specials.isEmpty && separates r tokenizer ch then
    some (⟨c.specials, false, escape, false⟩, .separator)
  else some (⟨c.specials, false, escape, false⟩, c.mark)

/-- The marks of the characters, one by one. -/
def readAll (r : Reading) (tokenizer : Char) : Scan → Text → Option (Scan × List (Char × Mark))
  | c, [] => some (c, [])
  | c, ch :: expr => do
      let (c, mark) ← c.read r tokenizer ch
      let (c, marks) ← readAll r tokenizer c expr
      some (c, (ch, mark) :: marks)

end Scan

/-- The marks of an expression, unless something is closed that was not opened. -/
def marks (r : Reading) (tokenizer : Char) (expr : Text) : Option (List (Char × Mark)) :=
  (Scan.readAll r tokenizer .start expr).map Prod.snd

/-- Tokens and the field that is being collected. -/
structure Parts where
  tokens : List Text
  field : Text
  deriving Repr, DecidableEq

namespace Parts

def push (p : Parts) : Parts := ⟨if p.field.isEmpty then p.tokens else p.tokens ++ [p.field], []⟩

/-- White space does not begin a field. -/
def add (p : Parts) (ch : Char) : Parts :=
  if !p.field.isEmpty || !isspace ch then { p with field := p.field ++ [ch] } else p

def put (p : Parts) : Char × Mark → Parts
  | (ch, .text) => p.add ch
  | (ch, .fresh) => p.push.add ch
  | (_, .separator) => p.push

def putAll (p : Parts) (ms : List (Char × Mark)) : Parts := ms.foldl put p

end Parts

/-- The tokens of marked characters. -/
def tokens (ms : List (Char × Mark)) : List Text := (Parts.putAll ⟨[], []⟩ ms).push.tokens

/-! ### The loop collects the tokens of its reading -/

/-- The variables of the loop against a scan and what was collected. The loop
pushes a container when it ends, the parts when the next character comes. -/
structure Tracks (s : Split) (c : Scan) (p : Parts) : Prop where
  specials : s.specials = c.specials
  inQuotes : s.inQuotes = c.inQuotes
  escape : c.escape = (s.previousCh == backslash)
  ended : c.ended = true → c.inQuotes = false ∧ c.specials = [] ∧ p.field ≠ [] ∧
    s.tokens = p.tokens ++ [p.field] ∧ s.field = []
  going : c.ended = false → s.tokens = p.tokens ∧ s.field = p.field
  quoted : c.inQuotes = true → p.field ≠ []

section
variable {s s' : Split} {c c' : Scan} {p : Parts} {tokenizer ch : Char}

theorem Tracks.push (h : Tracks s c p) :
    s.push.tokens = p.push.tokens ∧ s.push.field = p.push.field := by
  cases hended : c.ended with
  | true =>
      obtain ⟨-, -, hne, htokens, hfield⟩ := h.ended hended
      simp [Split.push, Parts.push, htokens, hfield, hne]
  | false =>
      obtain ⟨htokens, hfield⟩ := h.going hended
      simp [Split.push, Parts.push, htokens, hfield]

/-- A character that the loop adds to its field. -/
theorem Tracks.add (h : Tracks s c p) (hkeep : (!s.field.isEmpty || !isspace ch) = true) :
    s.tokens = (p.put (ch, c.mark)).tokens ∧ s.field ++ [ch] = (p.put (ch, c.mark)).field := by
  cases hended : c.ended with
  | true =>
      obtain ⟨-, -, hne, htokens, hfield⟩ := h.ended hended
      have hspace : isspace ch = false := by simpa [hfield] using hkeep
      simp [Scan.mark, hended, Parts.put, Parts.push, Parts.add, hne, hspace, htokens, hfield]
  | false =>
      obtain ⟨htokens, hfield⟩ := h.going hended
      rw [hfield] at hkeep
      simp [Scan.mark, hended, Parts.put, Parts.add, hkeep, htokens, hfield]

/-- White space in front of a field. -/
theorem Tracks.skip (h : Tracks s c p) (hskip : ¬ (!s.field.isEmpty || !isspace ch) = true) :
    s.tokens = (p.put (ch, c.mark)).tokens ∧ s.field = (p.put (ch, c.mark)).field := by
  have hboth : s.field = [] ∧ isspace ch = true := by simpa using hskip
  cases hended : c.ended with
  | true =>
      obtain ⟨-, -, hne, htokens, hfield⟩ := h.ended hended
      simp [Scan.mark, hended, Parts.put, Parts.push, Parts.add, hne, hboth.2, htokens, hfield]
  | false =>
      obtain ⟨htokens, hfield⟩ := h.going hended
      have hp : p.field = [] := hfield ▸ hboth.1
      simp [Scan.mark, hended, Parts.put, Parts.add, hp, hboth.2, htokens, hfield]

theorem isspace_of_closes (h : Split.closes tokenizer ch = true) : isspace ch = false := by
  simp only [Split.closes, Bool.or_eq_true, Bool.and_eq_true, beq_iff_eq] at h
  rcases h with (⟨rfl, -⟩ | rfl) | rfl <;> rfl

theorem isspace_of_opens (h : Split.opens tokenizer ch = true) : isspace ch = false := by
  simp only [Split.opens, Bool.or_eq_true, Bool.and_eq_true, beq_iff_eq] at h
  rcases h with (⟨rfl, -⟩ | rfl) | rfl <;> rfl

theorem put_ne_nil {m : Mark} (h : p.field ≠ [] ∨ isspace ch = false)
    (hm : m = .text ∨ m = .fresh ∧ isspace ch = false) :
    (p.put (ch, m)).field ≠ [] := by
  rcases hm with rfl | ⟨rfl, hspace⟩
  · have hkeep : (!p.field.isEmpty || !isspace ch) = true := by simpa using h
    simp [Parts.put, Parts.add, hkeep]
  · simp [Parts.put, Parts.push, Parts.add, hspace]

/-- A character added to the field, with nothing ended by it. -/
theorem Tracks.added (h : Tracks s c p) (hkeep : (!s.field.isEmpty || !isspace ch) = true)
    {inQuotes : Bool} :
    Tracks ⟨s.tokens, s.specials, ch, inQuotes, s.field ++ [ch]⟩
      ⟨c.specials, inQuotes, ch == backslash, false⟩ (p.put (ch, c.mark)) := by
  obtain ⟨htokens, hfield⟩ := h.add hkeep
  refine ⟨h.specials, rfl, rfl, fun he => (by cases he), fun _ => ⟨htokens, hfield⟩, fun _ => ?_⟩
  rw [← hfield]
  simp

theorem Tracks.read_quoted (h : Tracks s c p) (tokenizer ch : Char) (hquotes : c.inQuotes = true) :
    s.read tokenizer ch = .ok { s with field := s.field ++ [ch], inQuotes := !(ch == quote && !c.escape) } ∧
      Tracks ⟨s.tokens, s.specials, ch, !(ch == quote && !c.escape), s.field ++ [ch]⟩
        ⟨c.specials, !(ch == quote && !c.escape), ch == backslash, false⟩ (p.put (ch, c.mark)) := by
  have hended : c.ended = false := by
    cases hc : c.ended with
    | true => simp [(h.ended hc).1] at hquotes
    | false => rfl
  have hne : s.field ≠ [] := by
    rw [(h.going hended).2]
    exact h.quoted hquotes
  constructor
  · rw [Split.read, if_pos (h.inQuotes.trans hquotes), h.escape]
    rfl
  · exact h.added (by simp [hne])

theorem Tracks.read_closes (h : Tracks s c p) (hquotes : c.inQuotes = false)
    (hcloses : Split.closes tokenizer ch = true) {opened : Char} {rest : List Char}
    (hspecials : c.specials = opened :: rest) :
    ∃ s', s.close tokenizer ch = .ok s' ∧
      Tracks { s' with previousCh := ch }
        ⟨if Split.pairs opened ch then rest else opened :: rest, false, ch == backslash,
          (if Split.pairs opened ch then rest else opened :: rest).isEmpty && tokenizer == nul⟩
        (p.put (ch, c.mark)) := by
  have hspace := isspace_of_closes hcloses
  have hended : c.ended = false := by
    cases hc : c.ended with
    | true => simp [(h.ended hc).2.1] at hspecials
    | false => rfl
  have hkeep : (!s.field.isEmpty || !isspace ch) = true := by simp [hspace]
  obtain ⟨htokens, hfield⟩ := h.add hkeep
  have hs : s.specials = opened :: rest := h.specials.trans hspecials
  have hne : (p.put (ch, c.mark)).field ≠ [] := by
    rw [← hfield]
    simp
  have hquoted : s.inQuotes = false := h.inQuotes.trans hquotes
  rw [Split.close, hs]
  refine ⟨_, rfl, ?_⟩
  dsimp only
  generalize (if Split.pairs opened ch = true then rest else opened :: rest) = specials
  split
  · next hboth =>
    refine ⟨?_, ?_, rfl, fun _ => ⟨rfl, ?_, hne, ?_, rfl⟩, fun hc => ?_, fun he => (by cases he)⟩
    · rfl
    · exact hquoted
    · simp only [Bool.and_eq_true, List.isEmpty_iff] at hboth
      exact hboth.1
    · simp [Split.push, htokens, hfield, hne]
    · rw [hboth] at hc
      cases hc
  · next hboth =>
    refine ⟨rfl, hquoted, rfl, fun he => absurd he hboth, fun _ => ⟨htokens, hfield⟩, fun he => (by cases he)⟩

theorem Tracks.read_opens (h : Tracks s c p) (hquotes : c.inQuotes = false)
    (hopens : Split.opens tokenizer ch = true) :
    Tracks { s.opening tokenizer ch with previousCh := ch } ⟨ch :: c.specials, false, ch == backslash, false⟩
      (p.put (ch, if c.specials.isEmpty && tokenizer == nul then .fresh else c.mark)) := by
  have hspace := isspace_of_opens hopens
  have hquoted : s.inQuotes = false := h.inQuotes.trans hquotes
  rw [Split.opening, h.specials]
  split
  · obtain ⟨htokens, hfield⟩ := h.push
    have hpush : p.push.field = [] := rfl
    refine ⟨by simp [Split.push, h.specials], hquoted, rfl, fun he => (by cases he), fun _ => ?_,
      fun he => (by cases he)⟩
    simp [Parts.put, Parts.add, hspace, hpush, htokens, hfield]
  · have hkeep : (!s.field.isEmpty || !isspace ch) = true := by simp [hspace]
    obtain ⟨htokens, hfield⟩ := h.add hkeep
    exact ⟨by simp [h.specials], hquoted, rfl, fun he => (by cases he), fun _ => ⟨htokens, hfield⟩,
      fun he => (by cases he)⟩

theorem Tracks.read_separator (h : Tracks s c p) (hquotes : c.inQuotes = false) :
    Tracks { s.push with previousCh := ch } ⟨c.specials, false, ch == backslash, false⟩
      (p.put (ch, .separator)) :=
  ⟨h.specials, h.inQuotes.trans hquotes, rfl, fun he => (by cases he), fun _ => h.push,
    fun he => (by cases he)⟩

/-- **One character**, in the loop and in its scan. -/
theorem Tracks.read (h : Tracks s c p) (tokenizer ch : Char) :
    (c.read .asCode tokenizer ch = none ∧ s.read tokenizer ch = .error (.undefined "specials.top()")) ∨
      ∃ c' m s', c.read .asCode tokenizer ch = some (c', m) ∧ s.read tokenizer ch = .ok s' ∧
        Tracks { s' with previousCh := ch } c' (p.put (ch, m)) := by
  cases hquotes : c.inQuotes with
  | true =>
      obtain ⟨hread, htracks⟩ := h.read_quoted tokenizer ch hquotes
      refine .inr ⟨_, _, _, ?_, hread, htracks⟩
      rw [Scan.read, if_pos hquotes]
      rfl
  | false =>
      have hquoted : s.inQuotes = false := h.inQuotes.trans hquotes
      rw [Scan.read, Split.read, hquotes, hquoted, if_neg Bool.false_ne_true, if_neg Bool.false_ne_true]
      by_cases hcloses : Split.closes tokenizer ch = true
      · rw [if_pos hcloses, if_pos hcloses]
        cases hspecials : c.specials with
        | nil =>
            refine .inl ⟨rfl, ?_⟩
            rw [Split.close, h.specials, hspecials]
        | cons opened rest =>
            obtain ⟨s', hclose, htracks⟩ := h.read_closes hquotes hcloses hspecials
            exact .inr ⟨_, _, s', rfl, hclose, htracks⟩
      · rw [if_neg hcloses, if_neg hcloses]
        by_cases hopens : Split.opens tokenizer ch = true
        · rw [if_pos hopens, if_pos hopens]
          exact .inr ⟨_, _, _, rfl, rfl, h.read_opens hquotes hopens⟩
        · have hempty : s.specials.isEmpty = c.specials.isEmpty := by rw [h.specials]
          rw [if_neg hopens, if_neg hopens, hempty]
          by_cases hquote : (ch == quote) = true
          · rw [if_pos hquote, if_pos hquote]
            have hspace : isspace ch = false := by
              rw [beq_iff_eq] at hquote
              subst hquote
              rfl
            exact .inr ⟨_, _, _, rfl, rfl, h.added (by simp [hspace])⟩
          · rw [if_neg hquote, if_neg hquote]
            by_cases hcut : (c.specials.isEmpty && ch == tokenizer) = true
            · rw [if_pos hcut]
              refine .inr ⟨_, _, _, if_pos hcut, rfl, h.read_separator hquotes⟩
            · rw [if_neg hcut]
              refine .inr ⟨_, _, _, if_neg hcut, rfl, ?_⟩
              split
              · next hkeep => exact h.added hkeep
              · next hskip =>
                exact ⟨h.specials, hquoted, rfl, fun he => (by cases he), fun _ => h.skip hskip,
                  fun he => (by cases he)⟩

/-- **The loop** collects what its scan marks. -/
theorem Tracks.readAll (h : Tracks s c p) (tokenizer : Char) (expr : Text) :
    (c.readAll .asCode tokenizer expr = none ∧
        s.readAll tokenizer expr = .error (.undefined "specials.top()")) ∨
      ∃ c' ms s', c.readAll .asCode tokenizer expr = some (c', ms) ∧ s.readAll tokenizer expr = .ok s' ∧
        Tracks s' c' (p.putAll ms) := by
  induction expr generalizing s c p with
  | nil => exact .inr ⟨c, [], s, rfl, rfl, h⟩
  | cons ch expr ih =>
      rcases h.read tokenizer ch with ⟨hread, hfault⟩ | ⟨c', m, s', hread, hloop, htracks⟩
      · refine .inl ⟨?_, ?_⟩
        · rw [Scan.readAll, hread]
          rfl
        · rw [Split.readAll, hfault]
      · rcases ih htracks with ⟨hrest, hfault⟩ | ⟨c₂, ms, s₂, hrest, hloop₂, htracks₂⟩
        · refine .inl ⟨?_, ?_⟩
          · rw [Scan.readAll, hread]
            simp [hrest]
          · rw [Split.readAll, hloop]
            exact hfault
        · refine .inr ⟨c₂, (ch, m) :: ms, s₂, ?_, ?_, htracks₂⟩
          · rw [Scan.readAll, hread]
            simp [hrest]
          · rw [Split.readAll, hloop]
            exact hloop₂

end

theorem start_tracks : Tracks .start .start ⟨[], []⟩ :=
  ⟨rfl, rfl, rfl, fun he => (by cases he), fun _ => ⟨rfl, rfl⟩, fun he => (by cases he)⟩

/-- **`splitExpr` gives the tokens of its marks**, and reads the top of an empty
stack when it has none. -/
theorem splitExpr_eq (expr : Text) (tokenizer : Char) :
    splitExpr expr tokenizer = match marks .asCode tokenizer expr with
      | none => .error (.undefined "specials.top()")
      | some ms => .ok (tokens ms) := by
  rcases start_tracks.readAll tokenizer expr with ⟨hscan, hfault⟩ | ⟨c, ms, s, hscan, hloop, htracks⟩
  · rw [splitExpr, hfault, marks, hscan]
    rfl
  · rw [splitExpr, hloop, marks, hscan]
    exact congrArg Except.ok htracks.push.1

end PothosCore.Util

import PothosCore.Fault
import PothosCore.Lib.Trim
import Mathlib.Data.List.Basic

/-!
# PothosCore.Util.ExprSplit

`EvalEnvironment::splitExpr`: an expression is split at a tokenizer, or, with the null
tokenizer, into its top-level containers and the text between them. Quotes, escapes and
nesting are minded; a closing character with nothing open reads the top of an empty stack.

A token is not longer than the expression, and the text between containers has no
container of its own.
-/

namespace PothosCore.Util

/-- Expressions are lists of characters. -/
abbrev Text := List Char

/-- The null tokenizer. -/
def nul : Char := Char.ofNat 0

/-- `"` -/
def quote : Char := Char.ofNat 34

/-- The escape character. -/
def backslash : Char := Char.ofNat 92

/-- `std::isspace` -/
def isspace (ch : Char) : Bool := ch == ' ' || (9 ≤ ch.toNat && ch.toNat ≤ 13)

/-- The functions of `Poco` on strings: in lower case, and without the white space at the
beginning or at both ends. -/
class PocoString where
  toLower : Text → Text
  trimLeft : Text → Text
  trim : Text → Text
  toLower_eq : ∀ text, toLower text = text.map Char.toLower
  trimLeft_eq : ∀ text, trimLeft text = text.dropWhile isspace
  trim_eq : ∀ text, trim text = Lib.trim isspace text

instance : PocoString where
  toLower text := text.map Char.toLower
  trimLeft text := text.dropWhile isspace
  trim := Lib.trim isspace
  toLower_eq _ := rfl
  trimLeft_eq _ := rfl
  trim_eq _ := rfl

/-- Is it a list or a map literal, by its first character? -/
def isLiteral (tok : Text) : Bool := tok.head? == some '[' || tok.head? == some '{'

/-- The variables of the loop. -/
structure Split where
  tokens : List Text
  /-- The characters that are open; the top is the head. -/
  specials : List Char
  previousCh : Char
  inQuotes : Bool
  field : Text

namespace Split

def start : Split := ⟨[], [], nul, false, []⟩

/-- `if (not field.empty()) tokens.push_back(field); field.clear();` -/
def push (s : Split) : Split :=
  { s with tokens := if s.field.isEmpty then s.tokens else s.tokens ++ [s.field], field := [] }

def closes (tokenizer ch : Char) : Bool := (ch == ')' && tokenizer != nul) || ch == '\x7d' || ch == ']'
def opens (tokenizer ch : Char) : Bool := (ch == '(' && tokenizer != nul) || ch == '\x7b' || ch == '['

/-- Does the character close what is open? -/
def pairs (opened ch : Char) : Bool :=
  (opened == '(' && ch == ')') || (opened == '\x7b' && ch == '\x7d') || (opened == '[' && ch == ']')

/-- A closing character. -/
def close (tokenizer ch : Char) (s : Split) : Except Fault Split :=
  match s.specials with
  | [] => .error (.undefined "specials.top()")
  | opened :: rest =>
      let s := { s with field := s.field ++ [ch], specials := if pairs opened ch then rest else s.specials }
      -- top level container ended
      .ok (if s.specials.isEmpty && tokenizer == nul then s.push else s)

/-- An opening character. -/
def opening (tokenizer ch : Char) (s : Split) : Split :=
  -- top level container began
  let s := if s.specials.isEmpty && tokenizer == nul then s.push else s
  { s with field := s.field ++ [ch], specials := ch :: s.specials }

/-- One character. -/
def read (tokenizer : Char) (s : Split) (ch : Char) : Except Fault Split :=
  if s.inQuotes then
    .ok { s with field := s.field ++ [ch], inQuotes := !(ch == quote && s.previousCh != backslash) }
  else if closes tokenizer ch then s.close tokenizer ch
  else if opens tokenizer ch then .ok (s.opening tokenizer ch)
  else if ch == quote then .ok { s with field := s.field ++ [ch], inQuotes := true }
  else if s.specials.isEmpty && ch == tokenizer then .ok s.push
  else .ok (if !s.field.isEmpty || !isspace ch then { s with field := s.field ++ [ch] } else s)

/-- The loop. -/
def readAll (tokenizer : Char) : Split → Text → Except Fault Split
  | s, [] => .ok s
  | s, ch :: expr =>
      match s.read tokenizer ch with
      | .error fault => .error fault
      | .ok s => readAll tokenizer { s with previousCh := ch } expr

end Split

/-- `splitExpr(expr, tokenizer)` -/
def splitExpr (expr : Text) (tokenizer : Char) : Except Fault (List Text) :=
  (Split.readAll tokenizer .start expr).map fun s => s.push.tokens

example : splitExpr "(2 * [1, 2]) + [3]".toList nul =
    .ok ["(2 * ".toList, "[1, 2]".toList, ") + ".toList, "[3]".toList] := by rfl

/-! ### One character -/

namespace Split

/-- What a character does. -/
inductive Reads (tokenizer ch : Char) (s : Split) : Split → Prop
  | quoted : s.inQuotes = true → Reads tokenizer ch s
      { s with field := s.field ++ [ch], inQuotes := !(ch == quote && s.previousCh != backslash) }
  | closed {opened rest} : s.inQuotes = false → s.specials = opened :: rest → pairs opened ch = false →
      Reads tokenizer ch s { s with field := s.field ++ [ch] }
  | popped {opened rest} : s.inQuotes = false → s.specials = opened :: rest → (rest ≠ [] ∨ tokenizer ≠ nul) →
      Reads tokenizer ch s { s with field := s.field ++ [ch], specials := rest }
  | ended {opened} : s.inQuotes = false → s.specials = [opened] → tokenizer = nul →
      Reads tokenizer ch s ({ s with field := s.field ++ [ch], specials := [] } : Split).push
  | nested : s.inQuotes = false → (s.specials ≠ [] ∨ tokenizer ≠ nul) →
      Reads tokenizer ch s { s with field := s.field ++ [ch], specials := ch :: s.specials }
  | began : s.inQuotes = false → s.specials = [] → tokenizer = nul → (ch = '[' ∨ ch = '\x7b') →
      Reads tokenizer ch s { s.push with field := [ch], specials := [ch] }
  | quotes : s.inQuotes = false → ch = quote →
      Reads tokenizer ch s { s with field := s.field ++ [ch], inQuotes := true }
  | cut : s.inQuotes = false → s.specials = [] → Reads tokenizer ch s s.push
  | kept : s.inQuotes = false → closes tokenizer ch = false → opens tokenizer ch = false → ch ≠ quote →
      (s.specials = [] → ch ≠ tokenizer) → (s.field ≠ [] ∨ isspace ch = false) →
      Reads tokenizer ch s { s with field := s.field ++ [ch] }
  | skipped : s.inQuotes = false → s.field = [] → Reads tokenizer ch s s

theorem reads_close {tokenizer ch : Char} {s s' : Split} (hquotes : s.inQuotes = false)
    (h : s.close tokenizer ch = .ok s') : Reads tokenizer ch s s' := by
  cases hspecials : s.specials with
  | nil => simp [close, hspecials] at h
  | cons opened rest =>
      cases hpairs : pairs opened ch with
      | false =>
          obtain rfl : _ = s' := by simpa [close, hspecials, hpairs] using h
          exact hspecials ▸ .closed hquotes hspecials hpairs
      | true =>
          by_cases hended : rest = [] ∧ tokenizer = nul
          · obtain ⟨rfl, rfl⟩ := hended
            obtain rfl : _ = s' := by simpa [close, hspecials, hpairs] using h
            exact .ended hquotes hspecials rfl
          · have hne : ¬ (rest.isEmpty && tokenizer == nul) = true := by simpa using hended
            obtain rfl : _ = s' := by simpa [close, hspecials, hpairs, hne] using h
            exact .popped hquotes hspecials (by tauto)

theorem reads_opening {tokenizer ch : Char} {s : Split} (hquotes : s.inQuotes = false)
    (hopens : opens tokenizer ch = true) : Reads tokenizer ch s (s.opening tokenizer ch) := by
  by_cases hbegan : s.specials = [] ∧ tokenizer = nul
  · obtain ⟨hspecials, rfl⟩ := hbegan
    have hch : ch = '[' ∨ ch = '\x7b' := by
      simp [opens] at hopens
      exact hopens.symm
    have hopening : s.opening nul ch = { s.push with field := [ch], specials := [ch] } := by
      simp [opening, push, hspecials]
    rw [hopening]
    exact .began hquotes hspecials rfl hch
  · have hne : ¬ (s.specials.isEmpty && tokenizer == nul) = true := by simpa using hbegan
    rw [opening, if_neg hne]
    exact .nested hquotes (by tauto)

theorem reads {tokenizer ch : Char} {s s' : Split} (h : s.read tokenizer ch = .ok s') :
    Reads tokenizer ch s s' := by
  unfold read at h
  split at h
  · obtain rfl := Except.ok.inj h
    exact .quoted ‹_›
  · have hquotes : s.inQuotes = false := by simpa using ‹¬ s.inQuotes = true›
    split at h
    · exact reads_close hquotes h
    · split at h
      · obtain rfl : _ = s' := by simpa using h
        exact reads_opening hquotes ‹_›
      · split at h
        · obtain rfl : _ = s' := by simpa using h
          exact .quotes hquotes (by simpa using ‹(ch == quote) = true›)
        · split at h
          · obtain rfl : _ = s' := by simpa using h
            exact .cut hquotes (by grind)
          · split at h
            · obtain rfl : _ = s' := by simpa using h
              refine .kept hquotes (by grind) (by grind) (by grind) (by grind) (by grind)
            · obtain rfl : _ = s' := by simpa using h
              exact .skipped hquotes (by grind)

/-! ### Lengths -/

/-- How many characters are kept. -/
def size (s : Split) : Nat := s.tokens.flatten.length + s.field.length

@[simp] theorem size_push (s : Split) : s.push.size = s.size := by
  cases hfield : s.field <;> simp [push, size, hfield]

theorem mem_push {s : Split} {t : Text} (h : t ∈ s.push.tokens) : t ∈ s.tokens ∨ t = s.field ∧ t ≠ [] := by
  cases hfield : s.field with
  | nil => exact .inl (by simpa [push, hfield] using h)
  | cons ch field =>
      have : t ∈ s.tokens ∨ t = ch :: field := by simpa [push, hfield] using h
      exact this.imp_right fun ht => ⟨ht, by simp [ht]⟩

/-- A character adds one at most, and no token is empty. -/
theorem Reads.size {tokenizer ch : Char} {s s' : Split} (h : Reads tokenizer ch s s')
    (hs : ∀ t ∈ s.tokens, t ≠ []) : s'.size ≤ s.size + 1 ∧ ∀ t ∈ s'.tokens, t ≠ [] := by
  have hpush (field specials) (t) (ht : t ∈ ({ s with field := field, specials := specials } : Split).push.tokens) :
      t ≠ [] := (mem_push ht).elim (hs t) (·.2)
  cases h with
  | quoted | closed | popped | nested | quotes | kept =>
      exact ⟨by simp [Split.size]; omega, hs⟩
  | skipped => exact ⟨by omega, hs⟩
  | cut => exact ⟨by simp, hpush _ _⟩
  | ended => exact ⟨by rw [size_push]; simp [Split.size]; omega, hpush _ _⟩
  | began =>
      refine ⟨?_, hpush s.field s.specials⟩
      have := s.size_push
      simp only [Split.size, push, List.length_nil, List.length_singleton] at this ⊢
      omega

theorem readAll_size {tokenizer : Char} {expr : Text} {s s' : Split}
    (h : s.readAll tokenizer expr = .ok s') (hs : ∀ t ∈ s.tokens, t ≠ []) :
    s'.size ≤ s.size + expr.length ∧ ∀ t ∈ s'.tokens, t ≠ [] := by
  induction expr generalizing s with
  | nil =>
      obtain rfl : s = s' := by simpa [readAll] using h
      exact ⟨by simp, hs⟩
  | cons ch expr ih =>
      cases hread : s.read tokenizer ch with
      | error fault => simp [readAll, hread] at h
      | ok s₁ =>
          obtain ⟨hsize, htokens⟩ := (reads hread).size hs
          have := ih (s := { s₁ with previousCh := ch }) (by simpa [readAll, hread] using h) htokens
          refine ⟨Nat.le_trans this.1 ?_, this.2⟩
          simp only [Split.size, List.length_cons] at hsize ⊢
          omega

end Split

/-- The tokens together are not longer than the expression, and none is empty. -/
theorem splitExpr_size {expr : Text} {tokenizer : Char} {tokens : List Text}
    (h : splitExpr expr tokenizer = .ok tokens) :
    tokens.flatten.length ≤ expr.length ∧ ∀ t ∈ tokens, t ≠ [] := by
  cases hread : Split.readAll tokenizer .start expr with
  | error fault => simp [splitExpr, hread, Except.map] at h
  | ok s =>
      obtain rfl : s.push.tokens = tokens := by simpa [splitExpr, hread, Except.map] using h
      obtain ⟨hsize, htokens⟩ := Split.readAll_size hread (by simp [Split.start])
      refine ⟨?_, fun t ht => (Split.mem_push ht).elim (htokens t) (·.2)⟩
      rw [← Split.size_push] at hsize
      simp only [Split.size, Split.start, List.flatten_nil, List.length_nil] at hsize
      omega

theorem length_le_flatten {t : Text} {tokens : List Text} (h : t ∈ tokens) :
    t.length ≤ tokens.flatten.length := by
  obtain ⟨before, after, rfl⟩ := List.append_of_mem h
  simp
  omega

theorem splitExpr_length_le {expr t : Text} {tokenizer : Char} {tokens : List Text}
    (h : splitExpr expr tokenizer = .ok tokens) (ht : t ∈ tokens) : t.length ≤ expr.length :=
  Nat.le_trans (length_le_flatten ht) (splitExpr_size h).1

/-- One of several tokens is shorter than the expression. -/
theorem splitExpr_length_lt {expr t : Text} {tokenizer : Char} {tokens : List Text}
    (h : splitExpr expr tokenizer = .ok tokens) (hmany : 1 < tokens.length) (ht : t ∈ tokens) :
    t.length < expr.length := by
  obtain ⟨hsize, hne⟩ := splitExpr_size h
  obtain ⟨before, after, rfl⟩ := List.append_of_mem ht
  have hother : ∃ u ∈ before ++ after, u ≠ [] := by
    cases before with
    | cons u before => exact ⟨u, by simp, hne u (by simp)⟩
    | nil =>
        cases after with
        | cons u after => exact ⟨u, by simp, hne u (by simp)⟩
        | nil => simp at hmany
  obtain ⟨u, hu, hune⟩ := hother
  have hle := length_le_flatten hu
  have hpos := List.length_pos_iff.mpr hune
  simp only [List.flatten_append, List.flatten_cons, List.length_append] at hsize hle
  omega

/-! ### Text without containers -/

/-- Read a text that has no container and no null character outside quotes; the result is
whether it ends in quotes, and its last character. -/
def bare : Bool → Char → Text → Option (Bool × Char)
  | inQuotes, previousCh, [] => some (inQuotes, previousCh)
  | true, previousCh, ch :: t => bare (!(ch == quote && previousCh != backslash)) ch t
  | false, _, ch :: t =>
      if Split.closes nul ch || Split.opens nul ch || ch == nul then none else bare (ch == quote) ch t

theorem bare_append {t u : Text} {inQuotes : Bool} {previousCh : Char} :
    bare inQuotes previousCh (t ++ u) = (bare inQuotes previousCh t).bind fun r => bare r.1 r.2 u := by
  induction t generalizing inQuotes previousCh with
  | nil => rfl
  | cons ch t ih =>
      cases inQuotes with
      | true => exact ih
      | false =>
          simp only [List.cons_append, bare]
          split
          · rfl
          · exact ih

/-- Outside quotes the last character does not matter. -/
theorem bare_outside {t : Text} {previousCh : Char} (previousCh' : Char) {r : Bool × Char}
    (h : bare false previousCh t = some r) : ∃ ch, bare false previousCh' t = some (r.1, ch) := by
  cases t with
  | nil =>
      obtain rfl : (false, previousCh) = r := by simpa [bare] using h
      exact ⟨previousCh', rfl⟩
  | cons ch t => exact ⟨r.2, h⟩

/-- A text begins with a character that is not a space. -/
def starts (t : Text) : Prop := ∃ ch rest, t = ch :: rest ∧ isspace ch = false

/-- A token of the null tokenizer: a literal, or text without containers that ends in
quotes or not. -/
structure Piece (t : Text) (inQuotes : Bool) : Prop where
  starts : starts t
  content : isLiteral t = true ∨ ∃ ch, bare false nul t = some (inQuotes, ch)

namespace Split

/-- What the null tokenizer has read. -/
structure Pieces (s : Split) : Prop where
  tokens : ∀ t ∈ s.tokens, Piece t false
  field : (s.specials = [] ∧ s.field = [] ∧ s.inQuotes = false) ∨
    (s.specials = [] ∧ starts s.field ∧ bare false nul s.field = some (s.inQuotes, s.previousCh)) ∨
    (s.specials ≠ [] ∧ isLiteral s.field = true)

theorem starts_append {t u : Text} (h : starts t) : starts (t ++ u) := by
  obtain ⟨ch, rest, rfl, hch⟩ := h
  exact ⟨ch, rest ++ u, rfl, hch⟩

theorem isLiteral_append {t u : Text} (h : isLiteral t = true) : isLiteral (t ++ u) = true := by
  cases t with
  | nil => simp [isLiteral] at h
  | cons ch t => simpa [isLiteral] using h

theorem starts_of_isLiteral {t : Text} (h : isLiteral t = true) : starts t := by
  cases t with
  | nil => simp [isLiteral] at h
  | cons ch t =>
      have hch : ch = '[' ∨ ch = '\x7b' := by simpa [isLiteral] using h
      refine ⟨ch, t, rfl, ?_⟩
      rcases hch with rfl | rfl <;> rfl

/-- Outside quotes the field is a piece, unless it is empty. -/
theorem Pieces.piece_field {s : Split} (hs : s.Pieces) (hne : s.field ≠ []) : Piece s.field s.inQuotes := by
  rcases hs.field with ⟨-, hempty, -⟩ | ⟨-, hstarts, hbare⟩ | ⟨-, hliteral⟩
  · exact absurd hempty hne
  · exact ⟨hstarts, .inr ⟨_, hbare⟩⟩
  · exact ⟨starts_of_isLiteral hliteral, .inl hliteral⟩

theorem Pieces.piece_push {s : Split} (hs : s.Pieces) (hquotes : s.inQuotes = false) (t : Text)
    (ht : t ∈ s.push.tokens) : Piece t false := by
  rcases mem_push ht with ht | ⟨rfl, hne⟩
  · exact hs.tokens t ht
  · exact hquotes ▸ hs.piece_field hne

/-- A character outside quotes is added to the field. -/
theorem Pieces.add {ch : Char} {s : Split} {inQuotes : Bool} (hs : s.Pieces) (hquotes : s.inQuotes = false)
    (hstarts : s.field ≠ [] ∨ isspace ch = false)
    (hbare : s.specials = [] → ∀ previousCh, bare false previousCh [ch] = some (inQuotes, ch)) :
    ({ s with field := s.field ++ [ch], inQuotes := inQuotes, previousCh := ch } : Split).Pieces := by
  refine ⟨hs.tokens, ?_⟩
  rcases hs.field with ⟨hspecials, hempty, -⟩ | ⟨hspecials, hfield, hold⟩ | ⟨hspecials, hliteral⟩
  · rw [hempty]
    exact .inr (.inl ⟨hspecials, ⟨ch, [], rfl, hstarts.resolve_left (by simp [hempty])⟩, hbare hspecials nul⟩)
  · refine .inr (.inl ⟨hspecials, starts_append hfield, ?_⟩)
    rw [bare_append, hold, hquotes]
    exact hbare hspecials s.previousCh
  · exact .inr (.inr ⟨hspecials, isLiteral_append hliteral⟩)

theorem Pieces.literal {s : Split} (hs : s.Pieces) (hspecials : s.specials ≠ []) : isLiteral s.field = true := by
  rcases hs.field with ⟨hnone, -⟩ | ⟨hnone, -⟩ | ⟨-, hliteral⟩
  · exact absurd hnone hspecials
  · exact absurd hnone hspecials
  · exact hliteral

theorem Pieces.read {ch : Char} {s s' : Split} (hs : s.Pieces) (h : s.read nul ch = .ok s') :
    ({ s' with previousCh := ch } : Split).Pieces := by
  cases reads h with
  | quoted hquotes =>
      refine ⟨hs.tokens, ?_⟩
      rcases hs.field with ⟨-, -, hnot⟩ | ⟨hspecials, hstarts, hbare⟩ | ⟨hspecials, hliteral⟩
      · simp [hquotes] at hnot
      · refine .inr (.inl ⟨hspecials, starts_append hstarts, ?_⟩)
        simp [bare_append, hbare, hquotes, bare]
      · exact .inr (.inr ⟨hspecials, isLiteral_append hliteral⟩)
  | closed hquotes hspecials =>
      have hne : s.specials ≠ [] := by simp [hspecials]
      exact ⟨hs.tokens, .inr (.inr ⟨hne, isLiteral_append (hs.literal hne)⟩)⟩
  | popped hquotes hspecials hrest =>
      have hliteral := hs.literal (by simp [hspecials])
      exact ⟨hs.tokens, .inr (.inr ⟨by simpa using hrest, isLiteral_append hliteral⟩)⟩
  | ended hquotes hspecials =>
      have hliteral := isLiteral_append (u := [ch]) (hs.literal (by simp [hspecials]))
      refine ⟨fun t ht => ?_, .inl ⟨rfl, rfl, hquotes⟩⟩
      rcases mem_push ht with ht | ⟨rfl, -⟩
      · exact hs.tokens t ht
      · exact ⟨starts_of_isLiteral hliteral, .inl hliteral⟩
  | nested hquotes hspecials =>
      have hliteral := hs.literal (by simpa using hspecials)
      exact ⟨hs.tokens, .inr (.inr ⟨by simp, isLiteral_append hliteral⟩)⟩
  | began hquotes hspecials _ hch =>
      exact ⟨hs.piece_push hquotes, .inr (.inr ⟨by simp, by simpa [isLiteral] using hch⟩)⟩
  | quotes hquotes hch =>
      subst hch
      exact hs.add hquotes (.inr rfl) fun _ _ => rfl
  | cut hquotes hspecials => exact ⟨hs.piece_push hquotes, .inl ⟨hspecials, rfl, hquotes⟩⟩
  | kept hquotes hcloses hopens hquote hnul hstarts =>
      have hbare (hspecials : s.specials = []) (previousCh : Char) :
          bare false previousCh [ch] = some (false, ch) := by
        simp [bare, hcloses, hopens, hquote, hnul hspecials]
      exact hquotes ▸ hs.add hquotes hstarts (hquotes ▸ hbare)
  | skipped hquotes hempty =>
      refine ⟨hs.tokens, .inl ⟨?_, hempty, hquotes⟩⟩
      rcases hs.field with ⟨hspecials, -⟩ | ⟨-, ⟨ch, rest, hfield, -⟩, -⟩ | ⟨-, hliteral⟩
      · exact hspecials
      · simp [hempty] at hfield
      · simp [hempty, isLiteral] at hliteral

theorem Pieces.readAll {expr : Text} {s s' : Split} (hs : s.Pieces) (h : s.readAll nul expr = .ok s') :
    s'.Pieces := by
  induction expr generalizing s with
  | nil =>
      obtain rfl : s = s' := by simpa [Split.readAll] using h
      exact hs
  | cons ch expr ih =>
      cases hread : s.read nul ch with
      | error fault => simp [Split.readAll, hread] at h
      | ok s₁ => exact ih (hs.read hread) (by simpa [Split.readAll, hread] using h)

/-- A character of text without containers goes to the field. -/
theorem read_bare {ch : Char} {expr : Text} {s : Split} {r : Bool × Char}
    (hstarts : s.field ≠ [] ∨ isspace ch = false)
    (h : bare s.inQuotes s.previousCh (ch :: expr) = some r) :
    ∃ inQuotes, s.read nul ch = .ok { s with field := s.field ++ [ch], inQuotes := inQuotes } ∧
      bare inQuotes ch expr = some r := by
  cases hquotes : s.inQuotes with
  | true =>
      rw [hquotes, bare] at h
      exact ⟨_, by rw [Split.read, if_pos hquotes], h⟩
  | false =>
      rw [hquotes, bare] at h
      split at h
      · simp at h
      · rename_i hch
        obtain ⟨⟨hcloses, hopens⟩, hnul⟩ : (closes nul ch = false ∧ opens nul ch = false) ∧ ¬ ch = nul := by
          simpa using hch
        have hkeep : (!s.field.isEmpty || !isspace ch) = true := by simpa using hstarts
        refine ⟨_, ?_, h⟩
        by_cases hquote : ch = quote
        · subst hquote
          simp [Split.read, hquotes, hcloses, hopens]
        · simp [Split.read, hquotes, hcloses, hopens, hquote, hnul, hkeep]

/-- Text without containers goes to the field as it is. -/
theorem readAll_bare {expr : Text} {s : Split} {r : Bool × Char} (hspecials : s.specials = [])
    (hstarts : s.field ≠ [] ∨ starts expr) (h : bare s.inQuotes s.previousCh expr = some r) :
    s.readAll nul expr = .ok { s with field := s.field ++ expr, inQuotes := r.1, previousCh := r.2 } := by
  induction expr generalizing s with
  | nil =>
      obtain rfl : (s.inQuotes, s.previousCh) = r := by simpa [bare] using h
      simp [Split.readAll]
  | cons ch expr ih =>
      have hch : s.field ≠ [] ∨ isspace ch = false := by
        refine hstarts.imp_right fun ⟨_, _, heq, hspace⟩ => ?_
        obtain ⟨rfl, -⟩ := List.cons.inj heq
        exact hspace
      obtain ⟨inQuotes, hread, hrest⟩ := read_bare hch h
      rw [Split.readAll, hread]
      have hih := ih (s := ⟨s.tokens, s.specials, ch, inQuotes, s.field ++ [ch]⟩) hspecials (.inl (by simp)) hrest
      simpa using hih

end Split

/-- Text without containers is a single token. -/
theorem splitExpr_bare {expr : Text} {r : Bool × Char} (hstarts : starts expr)
    (h : bare false nul expr = some r) : splitExpr expr nul = .ok [expr] := by
  obtain ⟨ch, rest, rfl, -⟩ := id hstarts
  rw [splitExpr, Split.readAll_bare rfl (.inr hstarts) h]
  simp [Except.map, Split.push, Split.start]

theorem not_isLiteral_of_bare {expr : Text} {previousCh : Char} {r : Bool × Char}
    (h : bare false previousCh expr = some r) : isLiteral expr = false := by
  cases expr with
  | nil => rfl
  | cons ch expr =>
      rw [bare] at h
      split at h
      · simp at h
      · rename_i hch
        have hopens : Split.opens nul ch = false := by simp at hch; exact hch.1.2
        simp [Split.opens] at hopens
        simp [isLiteral, hopens]

/-- The tokens of the null tokenizer are pieces; all but the last end outside quotes. -/
theorem splitExpr_pieces {expr : Text} {tokens : List Text} (h : splitExpr expr nul = .ok tokens) :
    ∃ before last, tokens = before ++ last ∧ last.length ≤ 1 ∧ (∀ t ∈ before, Piece t false) ∧
      ∀ t ∈ last, ∃ inQuotes, Piece t inQuotes := by
  cases hread : Split.readAll nul .start expr with
  | error fault => simp [splitExpr, hread, Except.map] at h
  | ok s =>
      obtain rfl : s.push.tokens = tokens := by simpa [splitExpr, hread, Except.map] using h
      have hpieces : s.Pieces := Split.Pieces.readAll ⟨by simp [Split.start], .inl ⟨rfl, rfl, rfl⟩⟩ hread
      cases hfield : s.field with
      | nil => exact ⟨s.tokens, [], by simp [Split.push, hfield], by simp, hpieces.tokens, by simp⟩
      | cons ch field =>
          refine ⟨s.tokens, [s.field], by simp [Split.push, hfield], by simp, hpieces.tokens, fun t ht => ?_⟩
          obtain rfl : t = s.field := by simpa using ht
          exact ⟨s.inQuotes, hpieces.piece_field (by simp [hfield])⟩

end PothosCore.Util

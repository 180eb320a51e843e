import PothosCore.Util.CommentBlocks

/-!
# PothosCore.Util.CommentSource

Source texts by what they are made of, and the comment lines that they have.

A line, or the rest of one behind a closing marker, is code, a `//` comment, or code and
the beginning of a comment, which ends on the line (`Rest.closed`) or goes on after it
(`Rest.opened`). A line that begins inside a comment is all of it (`Content.within`) or
closes it (`Content.closing`). No code has a comment marker in it, and every comment is
closed (`Source.chained`).

`Source.blocks` are the runs of comment lines: every comment line with text, and a new run
behind a line, or the rest of one, that has text and no comment.
-/

namespace PothosCore.Util.BlockDescription

/-- Code without a comment. -/
structure Code where
  text : Text
  noLineEnd : '\n' ∉ text
  noOpen : ¬ ['/', '*'] <:+: text
  noSlashes : ¬ ['/', '/'] <:+: text

/-- Code before an opening marker, which a slash at its end would make a `//`. -/
structure Before extends Code where
  noSlash : text.getLast? ≠ some '/'

/-- The text of a comment up to the end of the line or the closing marker. -/
structure Body where
  text : Text
  noLineEnd : '\n' ∉ text
  noClose : ¬ ['*', '/'] <:+: text

/-- White space, and what is behind a `//`. -/
structure Slashes where
  indent : Text
  blank : ∀ ch ∈ indent, isspace ch = true
  comment : Text
  noLineEnd : '\n' ∉ indent ++ comment

def Slashes.text (slashes : Slashes) : Text := slashes.indent ++ '/' :: '/' :: slashes.comment

/-- What is on a line outside comments, from its beginning or from a closing marker on. -/
inductive Rest
  | code (c : Code)
  | slashes (sl : Slashes)
  /-- A comment that goes on after the line. -/
  | opened (before : Before) (body : Body)
  /-- A comment that ends on the line. -/
  | closed (before : Before) (body : Body) (rest : Rest)

/-- What is on a line. -/
inductive Content
  | outside (rest : Rest)
  | within (body : Body)
  | closing (body : Body) (rest : Rest)

namespace Rest

def text : Rest → Text
  | .code c => c.text
  | .slashes sl => sl.text
  | .opened before body => before.text ++ '/' :: '*' :: body.text
  | .closed before body rest => before.text ++ '/' :: '*' :: (body.text ++ '*' :: '/' :: rest.text)

/-- Does the next line begin inside a comment? -/
def endsInside : Rest → Bool
  | .code _ | .slashes _ => false
  | .opened _ _ => true
  | .closed _ _ rest => rest.endsInside

/-- Does a comment open and close on it? -/
def opensAndCloses : Rest → Bool
  | .closed _ _ _ => true
  | _ => false

end Rest

namespace Content

def text : Content → Text
  | .outside rest => rest.text
  | .within body => body.text
  | .closing body rest => body.text ++ '*' :: '/' :: rest.text

def startsInside : Content → Bool
  | .outside _ => false
  | .within _ | .closing _ _ => true

def endsInside : Content → Bool
  | .outside rest => rest.endsInside
  | .within _ => true
  | .closing _ rest => rest.endsInside

def opensAndCloses : Content → Bool
  | .outside rest => rest.opensAndCloses
  | .within _ => false
  | .closing _ rest => rest.opensAndCloses

/-- Is there a `//` comment behind a closing marker? -/
def slashesBehind : Content → Bool
  | .closing _ (.slashes _) => true
  | _ => false

end Content

/-- A line with its end. -/
structure Line where
  content : Content
  windows : Bool
  noReturn : content.text.getLast? ≠ some '\r'

def Line.text (line : Line) : Text := line.content.text ++ (if line.windows then ['\r', '\n'] else ['\n'])

/-- Each line begins where the one before ended, and the last ends outside comments. -/
def Chained : Bool → List Content → Prop
  | inside, [] => inside = false
  | inside, content :: contents => content.startsInside = inside ∧ Chained content.endsInside contents

/-- A source text. The last line is not ended; it is empty where the text ends in a line end. -/
structure Source where
  lines : List Line
  last : Content
  lastNoReturn : last.text.getLast? ≠ some '\r'
  chained : Chained false (lines.map (·.content) ++ [last])

def Source.text (source : Source) : Text := source.lines.flatMap Line.text ++ source.last.text

/-! ### The comment lines -/

/-- A comment line counts if it has text. -/
def Collected.add (c : Collected) (text : Text) (lineNo : Nat) : Collected :=
  if text.isEmpty then c else c.push ⟨text, lineNo⟩

/-- The comment lines of a rest. Code with text ends a run. -/
def Rest.collect (lineNo : Nat) : Rest → Collected → Collected
  | .code co, c => if co.text.isEmpty then c else c.flush
  | .slashes sl, c => c.add sl.text lineNo
  | .opened _ body, c => c.add ('/' :: '*' :: body.text) lineNo
  | .closed _ body rest, c => rest.collect lineNo (c.add ('/' :: '*' :: body.text) lineNo)

def Content.collect (lineNo : Nat) : Content → Collected → Collected
  | .outside rest, c => rest.collect lineNo c
  | .within body, c => c.add body.text lineNo
  | .closing body rest, c => rest.collect lineNo (c.add body.text lineNo)

/-- The comment lines of lines, the first of which has the number after `lineNo`. -/
def collectLines : Nat → List Content → Collected → Collected
  | _, [], c => c
  | lineNo, content :: contents, c => collectLines (lineNo + 1) contents (content.collect (lineNo + 1) c)

/-- The runs of comment lines of a source text. -/
def Source.blocks (source : Source) : List CodeBlock :=
  (collectLines 0 (source.lines.map (·.content) ++ [source.last]) ⟨[], []⟩).flush.contiguousCommentBlocks

/-- Blocks without the comment lines that have no text. -/
def nonempty (blocks : List CodeBlock) : List CodeBlock := blocks.map (·.filter fun line => !line.text.isEmpty)

/-- **The comments and only the comments** of the source text are extracted. -/
def Source.Extracted [PocoString] (source : Source) : Prop :=
  ∃ blocks, extractContiguousBlocks source.text = .ok blocks ∧ nonempty blocks = source.blocks

/-! ### Markers in a line -/

section
variable {a b : Char} {text : Text}

/-- The marker behind a text without one. -/
theorem find_append (hab : a ≠ b) (h : ¬ [a, b] <:+: text) (tail : Text) :
    find [a, b] (text ++ a :: b :: tail) = some text.length := by
  induction text with
  | nil => exact if_pos ⟨tail, rfl⟩
  | cons ch text ih =>
      have hpre : ¬ [a, b] <+: ch :: (text ++ a :: b :: tail) := by
        intro hpre
        obtain ⟨hch, hpre⟩ := List.cons_prefix_cons.mp hpre
        cases text with
        | nil => exact hab (List.cons_prefix_cons.mp hpre).1.symm
        | cons ch' text =>
            obtain ⟨hch', _⟩ := List.cons_prefix_cons.mp hpre
            exact h ⟨[], text, by rw [hch, hch']; rfl⟩
      have htail : ¬ [a, b] <:+: text := fun hin => h (hin.trans (List.suffix_cons ch text).isInfix)
      rw [List.cons_append, find, if_neg hpre, ih htail]
      rfl

theorem find_eq_none (h : ¬ [a, b] <:+: text) : find [a, b] text = none := by
  induction text with
  | nil => rfl
  | cons ch text ih =>
      have hpre : ¬ [a, b] <+: ch :: text := fun hpre => h hpre.isInfix
      have htail : ¬ [a, b] <:+: text := fun hin => h (hin.trans (List.suffix_cons ch text).isInfix)
      rw [find, if_neg hpre, ih htail]
      rfl

end

/-- Does the line, trimmed, begin with two slashes? -/
def beginsWithSlashes (line : Text) : Bool :=
  2 ≤ (line.dropWhile isspace).length && (line.dropWhile isspace).take 2 == ['/', '/']

theorem beginsWithSlashes_iff (line : Text) :
    beginsWithSlashes line = true ↔ ['/', '/'] <+: line.dropWhile isspace := by
  unfold beginsWithSlashes
  match line.dropWhile isspace with
  | [] => decide
  | [_] => exact iff_of_false (fun h => nomatch h) (fun h => Nat.not_succ_le_self 1 h.length_le)
  | a :: b :: text =>
      have htake : (a :: b :: text).take 2 = [a, b] := rfl
      rw [List.cons_prefix_cons, List.cons_prefix_cons, Bool.and_eq_true, decide_eq_true_eq, htake, beq_iff_eq]
      constructor
      · rintro ⟨_, h⟩
        cases h
        exact ⟨rfl, rfl, List.nil_prefix⟩
      · rintro ⟨rfl, rfl, _⟩
        exact ⟨Nat.le_add_left 2 text.length, rfl⟩

theorem Slashes.begins (slashes : Slashes) : beginsWithSlashes slashes.text = true := by
  rw [beginsWithSlashes_iff, Slashes.text, List.dropWhile_append_of_pos slashes.blank]
  exact ⟨slashes.comment, rfl⟩

theorem Code.not_begins (code : Code) : beginsWithSlashes code.text = false := by
  rw [← Bool.not_eq_true, beginsWithSlashes_iff]
  intro h
  exact code.noSlashes (h.isInfix.trans (List.dropWhile_suffix isspace).isInfix)

theorem Before.not_begins (before : Before) (tail : Text) :
    beginsWithSlashes (before.text ++ '/' :: '*' :: tail) = false := by
  rw [← Bool.not_eq_true, beginsWithSlashes_iff, List.dropWhile_append]
  intro h
  have hsuffix := List.dropWhile_suffix isspace (l := before.text)
  cases htrim : before.text.dropWhile isspace with
  | nil =>
      rw [htrim] at h
      exact absurd (List.cons_prefix_cons.mp (List.cons_prefix_cons.mp h).2).1 (by decide)
  | cons ch trim =>
      rw [htrim] at h hsuffix
      obtain ⟨hch, h⟩ := List.cons_prefix_cons.mp h
      cases trim with
      | nil =>
          obtain ⟨front, hfront⟩ := hsuffix
          apply before.noSlash
          rw [← hfront, List.getLast?_append, ← hch]
          rfl
      | cons ch' trim =>
          obtain ⟨hch', _⟩ := List.cons_prefix_cons.mp h
          rw [← hch, ← hch'] at hsuffix
          exact before.noSlashes (List.IsInfix.trans ⟨[], trim, rfl⟩ hsuffix.isInfix)

end PothosCore.Util.BlockDescription

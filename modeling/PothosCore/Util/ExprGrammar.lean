import PothosCore.Util.ExprScan

/-!
# PothosCore.Util.ExprGrammar

What the tokens of a balanced expression are, by its grammar: an expression is a
sequence of plain characters, string literals and groups, and `tokensOf` cuts
that sequence. Round brackets are brackets only when there is a separator; with
none an expression is cut at its lists and maps, and round brackets are text.

The scan `asMeant` marks a balanced expression as its items say, whatever the
items are, so its tokens are those of the grammar. The scan `asCode` looks at one
character to see whether a quote ends a literal, and does the same for the items
whose literals it finds the end of (`Ends`).
-/

namespace PothosCore.Util

/-- The inside of a string literal. A backslash takes the next character along. -/
inductive Body : Text → Prop
  | nil : Body []
  | plain {ch : Char} {t : Text} : ch ≠ quote → ch ≠ backslash → Body t → Body (ch :: t)
  | escaped {ch : Char} {t : Text} : Body t → Body (backslash :: ch :: t)

/-- A quote behind the body ends the literal. The loop takes a backslash before the
quote for one that escapes it. -/
def Reading.Ends (r : Reading) (body : Text) : Prop := r = .asCode → body.getLast? ≠ some backslash

/-- Neither a bracket nor a quote. -/
def ordinary (tokenizer ch : Char) : Bool :=
  !Split.closes tokenizer ch && !Split.opens tokenizer ch && ch != quote

/-- Brackets are balanced outside string literals, and the reading finds the ends of those. -/
inductive Balanced (r : Reading) (tokenizer : Char) : Text → Prop
  | nil : Balanced r tokenizer []
  | char {ch : Char} {t : Text} : ordinary tokenizer ch = true → Balanced r tokenizer t →
      Balanced r tokenizer (ch :: t)
  | literal {body t : Text} : Body body → r.Ends body → Balanced r tokenizer t →
      Balanced r tokenizer (quote :: (body ++ quote :: t))
  | group {opened closed : Char} {inner t : Text} : Split.opens tokenizer opened = true →
      Split.pairs opened closed = true → Balanced r tokenizer inner → Balanced r tokenizer t →
      Balanced r tokenizer (opened :: (inner ++ closed :: t))

theorem Balanced.asMeant {tokenizer : Char} {t : Text} (h : Balanced .asCode tokenizer t) :
    Balanced .asMeant tokenizer t := by
  induction h with
  | nil => exact .nil
  | char hord _ ih => exact .char hord ih
  | literal hbody _ _ ih => exact .literal hbody (fun hr => by cases hr) ih
  | group hopens hpairs _ _ ihinner ih => exact .group hopens hpairs ihinner ih

/-- What an expression consists of at its top level. -/
inductive Item
  | char (ch : Char)
  | literal (body : Text)
  | group (opened : Char) (inner : Text) (closed : Char)
  deriving Repr, DecidableEq

namespace Item

def text : Item → Text
  | .char ch => [ch]
  | .literal body => quote :: (body ++ [quote])
  | .group opened inner closed => opened :: (inner ++ [closed])

inductive Ok (r : Reading) (tokenizer : Char) : Item → Prop
  | char {ch : Char} : ordinary tokenizer ch = true → Ok r tokenizer (.char ch)
  | literal {body : Text} : Body body → r.Ends body → Ok r tokenizer (.literal body)
  | group {opened closed : Char} {inner : Text} : Split.opens tokenizer opened = true →
      Split.pairs opened closed = true → Balanced r tokenizer inner →
      Ok r tokenizer (.group opened inner closed)

theorem Ok.asMeant {tokenizer : Char} {item : Item} (h : item.Ok .asCode tokenizer) :
    item.Ok .asMeant tokenizer := by
  cases h with
  | char hord => exact .char hord
  | literal hbody _ => exact .literal hbody fun hr => by cases hr
  | group hopens hpairs hinner => exact .group hopens hpairs hinner.asMeant

end Item

def render (items : List Item) : Text := items.flatMap Item.text

/-- Put a text in front of the first piece. -/
def behind (t : Text) : List Text → List Text
  | [] => [t]
  | u :: us => (t ++ u) :: us

/-- The pieces of an expression: between separators, or, with none, the groups
and what is between them. -/
def pieces (tokenizer : Char) : List Item → List Text
  | [] => [[]]
  | .char ch :: items =>
      if ch = tokenizer ∧ tokenizer ≠ nul then [] :: pieces tokenizer items
      else behind [ch] (pieces tokenizer items)
  | .literal body :: items => behind (Item.literal body).text (pieces tokenizer items)
  | .group opened inner closed :: items =>
      if tokenizer = nul then [] :: (Item.group opened inner closed).text :: pieces tokenizer items
      else behind (Item.group opened inner closed).text (pieces tokenizer items)

def strip (t : Text) : Text := t.dropWhile isspace

/-- Pieces without leading white space, the empty ones left out. -/
def trimmed (ts : List Text) : List Text := (ts.map strip).filter fun t => !t.isEmpty

/-- The tokens of an expression. -/
def tokensOf (tokenizer : Char) (items : List Item) : List Text := trimmed (pieces tokenizer items)

/-- With no separator nothing is left out but white space. -/
theorem flatten_pieces (items : List Item) : (pieces nul items).flatten = render items := by
  have hbehind : ∀ (t : Text) (us : List Text), (behind t us).flatten = t ++ us.flatten := by
    intro t us
    cases us <;> simp [behind]
  induction items with
  | nil => rfl
  | cons item items ih =>
      have hrender : render (item :: items) = item.text ++ render items := by
        rw [render, List.flatMap_cons, render]
      cases item with
      | char ch =>
          rw [pieces, if_neg (fun h => h.2 rfl), hbehind, ih, hrender]
          rfl
      | literal body => rw [pieces, hbehind, ih, hrender]
      | group opened inner closed =>
          rw [pieces, if_pos rfl, List.flatten_cons, List.flatten_cons, ih, hrender, List.nil_append]

/-! ### The marks of the items -/

def texts (t : Text) : List (Char × Mark) := t.map fun ch => (ch, .text)

/-- The mark of an item's first character, behind a container or not. -/
def firstMark (ended : Bool) : Mark := if ended then .fresh else .text

/-- The marks of items, when the reading finds the ends of their literals. -/
def marksOf (r : Reading) (tokenizer : Char) : Bool → List Item → List (Char × Mark)
  | _, [] => []
  | ended, .char ch :: items =>
      (ch, if Scan.separates r tokenizer ch then .separator else firstMark ended) ::
        marksOf r tokenizer false items
  | ended, .literal body :: items =>
      (quote, firstMark ended) :: (texts (body ++ [quote]) ++ marksOf r tokenizer false items)
  | ended, .group opened inner closed :: items =>
      (opened, if tokenizer = nul then .fresh else firstMark ended) ::
        (texts (inner ++ [closed]) ++ marksOf r tokenizer (tokenizer == nul) items)

theorem map_fst_texts (t : Text) : (texts t).map Prod.fst = t := by
  rw [texts, List.map_map]
  exact List.map_id' t

theorem map_fst_marksOf (r : Reading) (tokenizer : Char) (ended : Bool) (items : List Item) :
    (marksOf r tokenizer ended items).map Prod.fst = render items := by
  induction items generalizing ended with
  | nil => rfl
  | cons item items ih =>
      rw [render, List.flatMap_cons, ← render]
      cases item with
      | char ch =>
          rw [marksOf, List.map_cons, ih]
          rfl
      | literal body =>
          rw [marksOf, List.map_cons, List.map_append, map_fst_texts, ih]
          rfl
      | group opened inner closed =>
          rw [marksOf, List.map_cons, List.map_append, map_fst_texts, ih]
          rfl

namespace Scan

variable {r : Reading} {tokenizer : Char}

theorem readAll_append (c : Scan) (t u : Text) :
    c.readAll r tokenizer (t ++ u) = (c.readAll r tokenizer t).bind fun x =>
      (x.1.readAll r tokenizer u).map fun y => (y.1, x.2 ++ y.2) := by
  induction t generalizing c with
  | nil =>
      simp only [List.nil_append, readAll, Option.bind_some]
      cases c.readAll r tokenizer u <;> rfl
  | cons ch t ih =>
      rw [List.cons_append, readAll, readAll]
      cases hread : c.read r tokenizer ch with
      | none => rfl
      | some x =>
          simp only [Option.bind_eq_bind, Option.bind_some, ih]
          cases x.1.readAll r tokenizer t with
          | none => rfl
          | some y =>
              simp only [Option.bind_some]
              cases y.1.readAll r tokenizer u <;> rfl

theorem readAll_cons {c c' : Scan} {ch : Char} {m : Mark} (h : c.read r tokenizer ch = some (c', m))
    (t : Text) :
    c.readAll r tokenizer (ch :: t) = (c'.readAll r tokenizer t).map fun y => (y.1, (ch, m) :: y.2) := by
  rw [readAll, h]
  simp only [Option.bind_eq_bind, Option.bind_some]
  cases c'.readAll r tokenizer t <;> rfl

/-- The inside of a literal. -/
theorem readAll_body {body : Text} (h : Body body) (specials : List Char) :
    readAll .asMeant tokenizer ⟨specials, true, false, false⟩ body
      = some (⟨specials, true, false, false⟩, texts body) := by
  induction h with
  | nil => rfl
  | @plain ch t hquote hbackslash _ ih =>
      have hread : read .asMeant tokenizer ⟨specials, true, false, false⟩ ch
          = some (⟨specials, true, false, false⟩, .text) := by
        simp [read, escapes, mark, hquote, hbackslash]
      rw [readAll_cons hread, ih]
      rfl
  | @escaped ch t _ ih =>
      have hfirst : read .asMeant tokenizer ⟨specials, true, false, false⟩ backslash
          = some (⟨specials, true, true, false⟩, .text) := by
        simp [read, escapes, mark, backslash, quote]
      have hsecond : read .asMeant tokenizer ⟨specials, true, true, false⟩ ch
          = some (⟨specials, true, false, false⟩, .text) := by
        simp [read, escapes, mark]
      rw [readAll_cons hfirst, readAll_cons hsecond, ih]
      rfl

/-- Whether the last character of a text is a backslash; there may be one in front of it. -/
def lastEscape (escape : Bool) (t : Text) : Bool := (t.getLast?.map (· == backslash)).getD escape

theorem lastEscape_cons (escape : Bool) (ch : Char) (t : Text) :
    lastEscape escape (ch :: t) = lastEscape (ch == backslash) t := by
  rw [lastEscape, lastEscape, List.getLast?_cons]
  cases t.getLast? <;> rfl

/-- The loop stays inside too, and remembers whether the last character is a backslash. -/
theorem readAll_body_asCode {body : Text} (h : Body body) (specials : List Char) (escape : Bool) :
    readAll .asCode tokenizer ⟨specials, true, escape, false⟩ body
      = some (⟨specials, true, lastEscape escape body, false⟩, texts body) := by
  induction h generalizing escape with
  | nil => rfl
  | @plain ch t hquote hbackslash _ ih =>
      have hread : read .asCode tokenizer ⟨specials, true, escape, false⟩ ch
          = some (⟨specials, true, ch == backslash, false⟩, .text) := by
        simp [read, escapes, mark, hquote]
      rw [readAll_cons hread, ih, lastEscape_cons]
      rfl
  | @escaped ch t _ ih =>
      have hfirst : read .asCode tokenizer ⟨specials, true, escape, false⟩ backslash
          = some (⟨specials, true, true, false⟩, .text) := by
        simp [read, escapes, mark, backslash, quote]
      have hsecond : read .asCode tokenizer ⟨specials, true, true, false⟩ ch
          = some (⟨specials, true, ch == backslash, false⟩, .text) := by
        simp [read, escapes, mark]
      rw [readAll_cons hfirst, readAll_cons hsecond, ih, lastEscape_cons, lastEscape_cons]
      rfl

/-- The quote that begins a literal. -/
theorem read_quote (r : Reading) (specials : List Char) (escape ended : Bool) :
    read r tokenizer ⟨specials, false, escape, ended⟩ quote
      = some (⟨specials, true, false, false⟩, firstMark ended) := by
  have hcloses : Split.closes tokenizer quote = false := by simp [Split.closes, quote]
  have hopens : Split.opens tokenizer quote = false := by simp [Split.opens, quote]
  have hescape : (quote == backslash) = false := rfl
  cases r <;> simp [read, escapes, mark, firstMark, hcloses, hopens, hescape]

/-- A literal, outside of others. -/
theorem readAll_literal {body : Text} (h : Body body) (hends : r.Ends body) (specials : List Char)
    (escape ended : Bool) :
    readAll r tokenizer ⟨specials, false, escape, ended⟩ (quote :: (body ++ [quote]))
      = some (⟨specials, false, false, false⟩, (quote, firstMark ended) :: texts (body ++ [quote])) := by
  have hbody : readAll r tokenizer ⟨specials, true, false, false⟩ body
      = some (⟨specials, true, false, false⟩, texts body) := by
    cases r with
    | asMeant => exact readAll_body h specials
    | asCode =>
        rw [readAll_body_asCode h specials false]
        have hlast : lastEscape false body = false := by
          have hne := hends rfl
          unfold lastEscape
          cases hb : body.getLast? with
          | none => rfl
          | some ch => exact beq_false_of_ne fun he => hne (by rw [hb, he])
        rw [hlast]
  have hlast : read r tokenizer ⟨specials, true, false, false⟩ quote
      = some (⟨specials, false, false, false⟩, .text) := by
    cases r <;> simp [read, escapes, mark, quote, backslash]
  rw [readAll_cons (read_quote r specials escape ended), readAll_append, hbody, Option.bind_some, readAll_cons hlast]
  simp [readAll, texts]

/-- Behind an escaped backslash the loop misses the end of a literal. -/
theorem readAll_missed {body : Text} (h : Body body) (hlast : body.getLast? = some backslash)
    (specials : List Char) (escape ended : Bool) :
    readAll .asCode tokenizer ⟨specials, false, escape, ended⟩ (quote :: (body ++ [quote]))
      = some (⟨specials, true, false, false⟩, (quote, firstMark ended) :: texts (body ++ [quote])) := by
  have hread : read .asCode tokenizer ⟨specials, true, true, false⟩ quote
      = some (⟨specials, true, false, false⟩, .text) := by
    simp [read, escapes, mark, quote, backslash]
  have hescape : lastEscape false body = true := by
    rw [lastEscape, hlast]
    rfl
  rw [readAll_cons (read_quote .asCode specials escape ended), readAll_append, readAll_body_asCode h specials false,
    hescape, Option.bind_some, readAll_cons hread]
  simp [readAll, texts]

/-- Without a quote a reading stays inside a literal. -/
theorem readAll_unquoted (r : Reading) (tokenizer : Char) {t : Text} (h : quote ∉ t) (specials : List Char)
    (escape : Bool) :
    ∃ escape', readAll r tokenizer ⟨specials, true, escape, false⟩ t
      = some (⟨specials, true, escape', false⟩, texts t) := by
  induction t generalizing escape with
  | nil => exact ⟨escape, rfl⟩
  | cons ch t ih =>
      have hne : ch ≠ quote := fun he => h (by simp [he])
      obtain ⟨escape', hrest⟩ := ih (fun hmem => h (List.mem_cons_of_mem _ hmem))
        (escapes r ⟨specials, true, escape, false⟩ ch)
      have hread : read r tokenizer ⟨specials, true, escape, false⟩ ch
          = some (⟨specials, true, escapes r ⟨specials, true, escape, false⟩ ch, false⟩, .text) := by
        simp [read, mark, hne]
      refine ⟨escape', ?_⟩
      rw [readAll_cons hread, hrest]
      rfl

theorem ordinary_iff {ch : Char} (h : ordinary tokenizer ch = true) :
    Split.closes tokenizer ch = false ∧ Split.opens tokenizer ch = false ∧ ch ≠ quote := by
  simpa [ordinary, and_assoc] using h

/-- A closing character closes what it is paired with. -/
theorem closes_of_pairs {opened closed : Char} (hopens : Split.opens tokenizer opened = true)
    (hpairs : Split.pairs opened closed = true) :
    Split.closes tokenizer opened = false ∧ Split.closes tokenizer closed = true := by
  simp only [Split.opens, Split.pairs, Bool.or_eq_true, Bool.and_eq_true, beq_iff_eq] at hopens hpairs
  rcases hpairs with (⟨rfl, rfl⟩ | ⟨rfl, rfl⟩) | ⟨rfl, rfl⟩
  · have hne : tokenizer ≠ nul := by simpa using hopens
    simp [Split.closes, hne]
  · simp [Split.closes]
  · simp [Split.closes]

/-- The two ends of a group. -/
theorem read_group {opened closed : Char} (hopens : Split.opens tokenizer opened = true)
    (hpairs : Split.pairs opened closed = true) (specials : List Char) (escape escape' ended : Bool) :
    read r tokenizer ⟨specials, false, escape, ended⟩ opened
        = some (⟨opened :: specials, false, false, false⟩,
            if specials.isEmpty && tokenizer == nul then .fresh else firstMark ended) ∧
      read r tokenizer ⟨opened :: specials, false, escape', false⟩ closed
        = some (⟨specials, false, false, specials.isEmpty && tokenizer == nul⟩, .text) := by
  obtain ⟨hnot, hcloses⟩ := closes_of_pairs hopens hpairs
  have hne : opened ≠ backslash ∧ closed ≠ backslash := by
    simp only [Split.pairs, Bool.or_eq_true, Bool.and_eq_true, beq_iff_eq] at hpairs
    rcases hpairs with (⟨rfl, rfl⟩ | ⟨rfl, rfl⟩) | ⟨rfl, rfl⟩ <;> exact ⟨by decide, by decide⟩
  constructor
  · cases r <;> simp [read, escapes, mark, firstMark, hnot, hopens, hne.1]
  · cases r <;> simp [read, escapes, mark, hcloses, hpairs, hne.2]

/-- Inside a group everything is text. -/
theorem readAll_balanced {t : Text} (h : Balanced r tokenizer t) (opened : Char) (specials : List Char)
    (escape : Bool) :
    ∃ escape', readAll r tokenizer ⟨opened :: specials, false, escape, false⟩ t
      = some (⟨opened :: specials, false, escape', false⟩, texts t) := by
  induction h generalizing opened specials escape with
  | nil => exact ⟨escape, rfl⟩
  | @char ch t hord _ ih =>
      obtain ⟨hcloses, hopens, hquote⟩ := ordinary_iff hord
      have hread : read r tokenizer ⟨opened :: specials, false, escape, false⟩ ch
          = some (⟨opened :: specials, false, escapes r ⟨opened :: specials, false, escape, false⟩ ch, false⟩,
            .text) := by
        simp [read, mark, hcloses, hopens, hquote]
      obtain ⟨escape', hrest⟩ := ih opened specials (escapes r ⟨opened :: specials, false, escape, false⟩ ch)
      refine ⟨escape', ?_⟩
      rw [readAll_cons hread, hrest]
      rfl
  | @literal body t hbody hends _ ih =>
      have hsplit : quote :: (body ++ quote :: t) = (quote :: (body ++ [quote])) ++ t := by simp
      obtain ⟨escape', hrest⟩ := ih opened specials false
      refine ⟨escape', ?_⟩
      rw [hsplit, readAll_append, readAll_literal hbody hends, Option.bind_some, hrest]
      simp [texts, firstMark]
  | @group opened₁ closed inner t hopens hpairs _ _ ihinner ih =>
      obtain ⟨escape₁, hinner⟩ := ihinner opened₁ (opened :: specials) false
      obtain ⟨hfirst, hlast⟩ := read_group (r := r) hopens hpairs (opened :: specials) escape escape₁ false
      obtain ⟨escape', hrest⟩ := ih opened specials false
      refine ⟨escape', ?_⟩
      rw [readAll_cons hfirst, readAll_append, hinner, Option.bind_some, readAll_cons hlast]
      simp only [List.isEmpty_cons, Bool.false_and]
      rw [hrest]
      simp [texts, firstMark]

/-- **A balanced expression is marked as its items say.** -/
theorem readAll_items {items : List Item} (h : ∀ item ∈ items, item.Ok r tokenizer) (escape ended : Bool) :
    ∃ escape' ended', readAll r tokenizer ⟨[], false, escape, ended⟩ (render items)
      = some (⟨[], false, escape', ended'⟩, marksOf r tokenizer ended items) := by
  induction items generalizing escape ended with
  | nil => exact ⟨escape, ended, rfl⟩
  | cons item items ih =>
      have hrest := fun e he => h e (List.mem_cons_of_mem _ he)
      rw [render, List.flatMap_cons, readAll_append]
      cases h item List.mem_cons_self with
      | @char ch hord =>
          obtain ⟨hcloses, hopens, hquote⟩ := ordinary_iff hord
          have hread : read r tokenizer ⟨[], false, escape, ended⟩ ch
              = some (⟨[], false, escapes r ⟨[], false, escape, ended⟩ ch, false⟩,
                if separates r tokenizer ch then .separator else firstMark ended) := by
            cases hsep : separates r tokenizer ch <;>
              simp [read, mark, firstMark, hsep, hcloses, hopens, hquote]
          obtain ⟨escape', ended', hc⟩ := ih hrest (escapes r ⟨[], false, escape, ended⟩ ch) false
          refine ⟨escape', ended', ?_⟩
          rw [Item.text, readAll_cons hread]
          simp only [readAll, Option.map_some, Option.bind_some]
          rw [← render, hc]
          rfl
      | @literal body hbody hends =>
          obtain ⟨escape', ended', hc⟩ := ih hrest false false
          refine ⟨escape', ended', ?_⟩
          rw [Item.text, readAll_literal hbody hends, Option.bind_some, ← render, hc]
          rfl
      | @group opened closed inner hopens hpairs hinner =>
          obtain ⟨escape₁, hbalanced⟩ := readAll_balanced hinner opened [] false
          obtain ⟨hfirst, hlast⟩ := read_group (r := r) hopens hpairs [] escape escape₁ ended
          obtain ⟨escape', ended', hc⟩ := ih hrest false (tokenizer == nul)
          refine ⟨escape', ended', ?_⟩
          rw [Item.text, readAll_cons hfirst, readAll_append, hbalanced, Option.bind_some, readAll_cons hlast]
          simp only [readAll, Option.map_some, Option.bind_some, List.isEmpty_nil, Bool.true_and]
          rw [← render, hc]
          simp [marksOf, texts]

end Scan

/-- A balanced expression is marked as its items say. -/
theorem marks_render {r : Reading} {tokenizer : Char} {items : List Item}
    (h : ∀ item ∈ items, item.Ok r tokenizer) :
    marks r tokenizer (render items) = some (marksOf r tokenizer false items) := by
  obtain ⟨escape, ended, hc⟩ := Scan.readAll_items h false false
  rw [marks, Scan.start, hc]
  rfl

/-! ### The tokens of the items -/

namespace Parts

def addAll (p : Parts) (t : Text) : Parts := t.foldl add p

/-- The tokens when the pieces are still to come; the first one is behind the field. -/
def finish (p : Parts) : List Text → List Text
  | [] => p.push.tokens
  | u :: us => (p.addAll u).push.tokens ++ trimmed us

theorem putAll_append (p : Parts) (ms ms' : List (Char × Mark)) :
    p.putAll (ms ++ ms') = (p.putAll ms).putAll ms' := List.foldl_append

theorem putAll_texts (p : Parts) (t : Text) : p.putAll (texts t) = p.addAll t := by
  induction t generalizing p with
  | nil => rfl
  | cons ch t ih => exact ih (p.add ch)

theorem addAll_append (p : Parts) (t u : Text) : p.addAll (t ++ u) = (p.addAll t).addAll u :=
  List.foldl_append

/-- With a field that has begun, everything is added. -/
theorem addAll_going {p : Parts} (h : p.field ≠ []) (t : Text) : p.addAll t = ⟨p.tokens, p.field ++ t⟩ := by
  induction t generalizing p with
  | nil => simp [addAll]
  | cons ch t ih =>
      have hadd : p.add ch = ⟨p.tokens, p.field ++ [ch]⟩ := by simp [add, h]
      show (p.add ch).addAll t = _
      rw [hadd, ih (by simp)]
      simp

theorem addAll_empty {p : Parts} (h : p.field = []) (t : Text) : p.addAll t = ⟨p.tokens, strip t⟩ := by
  induction t generalizing p with
  | nil =>
      obtain ⟨ts, field⟩ := p
      cases h
      rfl
  | cons ch t ih =>
      show (p.add ch).addAll t = _
      cases hspace : isspace ch with
      | true =>
          have hadd : p.add ch = p := by simp [add, h, hspace]
          rw [hadd, ih h, strip, strip, List.dropWhile_cons_of_pos hspace]
      | false =>
          have hadd : p.add ch = ⟨p.tokens, [ch]⟩ := by simp [add, h, hspace]
          rw [hadd, addAll_going (by simp), strip, List.dropWhile_cons_of_neg (by simp [hspace])]
          rfl

theorem finish_behind (p : Parts) (t : Text) (us : List Text) :
    p.finish (behind t us) = (p.addAll t).finish us := by
  cases us with
  | nil =>
      show (p.addAll t).push.tokens ++ trimmed [] = _
      exact List.append_nil _
  | cons u us =>
      show (p.addAll (t ++ u)).push.tokens ++ trimmed us = _
      rw [addAll_append]
      rfl

theorem push_tokens (p : Parts) : p.push.tokens = p.tokens ++ [p.field].filter (fun t => !t.isEmpty) := by
  cases hfield : p.field <;> simp [push, hfield]

/-- Pieces behind an empty field. -/
theorem finish_of_empty {p : Parts} (h : p.field = []) (us : List Text) :
    p.finish us = p.tokens ++ trimmed us := by
  cases us with
  | nil => rw [finish, push_tokens, h]; rfl
  | cons u us =>
      rw [finish, push_tokens, addAll_empty h, List.append_assoc]
      simp only [trimmed, List.map_cons]
      rw [← List.filter_append, List.singleton_append]

/-- The field as it is when the next character comes. -/
def after (p : Parts) (ended : Bool) : Parts := if ended then p.push else p

theorem put_first (p : Parts) (ended : Bool) (ch : Char) :
    p.put (ch, firstMark ended) = (p.after ended).add ch := by
  cases ended <;> rfl

theorem push_after (p : Parts) (ended : Bool) : (p.after ended).push = p.push := by
  cases ended <;> rfl

theorem strip_of_opens {tokenizer ch : Char} (h : Split.opens tokenizer ch = true) (t : Text) :
    strip (ch :: t) = ch :: t := by
  rw [strip, List.dropWhile_cons_of_neg (by simp [isspace_of_opens h])]

theorem putAll_marksOf {tokenizer : Char} {items : List Item} (h : ∀ item ∈ items, item.Ok .asMeant tokenizer)
    (ended : Bool) (p : Parts) :
    (p.putAll (marksOf .asMeant tokenizer ended items)).push.tokens
      = (p.after ended).finish (pieces tokenizer items) := by
  induction items generalizing ended p with
  | nil =>
      show p.push.tokens = (p.after ended).push.tokens ++ trimmed []
      rw [push_after]
      exact (List.append_nil _).symm
  | cons item items ih =>
      have hrest := fun e he => h e (List.mem_cons_of_mem _ he)
      cases h item List.mem_cons_self with
      | @char ch hord =>
          rw [marksOf, pieces]
          have hseparates : Scan.separates .asMeant tokenizer ch = true ↔ ch = tokenizer ∧ tokenizer ≠ nul := by
            simp [Scan.separates]
          by_cases hsep : ch = tokenizer ∧ tokenizer ≠ nul
          · rw [if_pos (hseparates.mpr hsep), if_pos hsep]
            show (p.push.putAll (marksOf .asMeant tokenizer false items)).push.tokens = _
            rw [ih hrest, after, if_neg Bool.false_ne_true, finish_of_empty rfl, finish, addAll,
              List.foldl_nil, push_after]
          · rw [if_neg (mt hseparates.mp hsep), if_neg hsep, finish_behind]
            show ((p.put (ch, firstMark ended)).putAll (marksOf .asMeant tokenizer false items)).push.tokens = _
            rw [ih hrest, put_first]
            rfl
      | @literal body hbody hends =>
          rw [marksOf, pieces, finish_behind]
          show ((p.put (quote, firstMark ended)).putAll
            (texts (body ++ [quote]) ++ marksOf .asMeant tokenizer false items)).push.tokens = _
          rw [putAll_append, putAll_texts, ih hrest, put_first]
          rfl
      | @group opened closed inner hopens hpairs hinner =>
          have hstrip := strip_of_opens hopens (inner ++ [closed])
          rw [marksOf, pieces]
          by_cases hnul : tokenizer = nul
          · rw [if_pos hnul, if_pos hnul]
            show ((p.push.add opened).putAll
              (texts (inner ++ [closed]) ++ marksOf .asMeant tokenizer (tokenizer == nul) items)).push.tokens = _
            have hgroup : (p.push.add opened).addAll (inner ++ [closed])
                = ⟨p.push.tokens, opened :: (inner ++ [closed])⟩ := by
              rw [← hstrip]
              exact addAll_empty (p := p.push) rfl (opened :: (inner ++ [closed]))
            rw [putAll_append, putAll_texts, ih hrest, hgroup, hnul, after, if_pos (beq_self_eq_true nul),
              finish_of_empty rfl, finish, addAll, List.foldl_nil, push_after]
            simp [push, trimmed, Item.text, hstrip]
          · rw [if_neg hnul, if_neg hnul, finish_behind]
            show ((p.put (opened, firstMark ended)).putAll
              (texts (inner ++ [closed]) ++ marksOf .asMeant tokenizer (tokenizer == nul) items)).push.tokens = _
            rw [putAll_append, putAll_texts, ih hrest, put_first, beq_false_of_ne hnul]
            rfl

end Parts

/-- The tokens of the marks of the items are the tokens of the items. -/
theorem tokens_marksOf {tokenizer : Char} {items : List Item} (h : ∀ item ∈ items, item.Ok .asMeant tokenizer) :
    tokens (marksOf .asMeant tokenizer false items) = tokensOf tokenizer items := by
  rw [tokens, Parts.putAll_marksOf h]
  exact Parts.finish_of_empty (p := ⟨[], []⟩) rfl _

end PothosCore.Util

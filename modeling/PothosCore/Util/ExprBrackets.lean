import PothosCore.Util.ExprScan

/-!
# PothosCore.Util.ExprBrackets

When `splitExpr` looks at the top of an empty stack. A closing bracket takes the
bracket on top away if the two are a pair, and is passed over if they are not, so
what is open behind a text follows a grammar (`Resolved`). The stack is empty at
a closing bracket just when all that was opened before it was closed.
-/

namespace PothosCore.Util

/-- The characters outside literals as the loop reads these: a quote ends a literal
unless the character directly before it is a backslash. -/
def outside : Bool → Char → Text → Text
  | _, _, [] => []
  | true, previousCh, ch :: t => outside (!(ch == quote && previousCh != backslash)) ch t
  | false, _, ch :: t => if ch == quote then outside true ch t else ch :: outside false ch t

/-- All that is opened in a text is closed in it. Inside a bracket, the closing
brackets that it is no pair with are passed over. -/
inductive Resolved (tokenizer : Char) : Option Char → Text → Prop
  | nil {around : Option Char} : Resolved tokenizer around []
  | char {around : Option Char} {ch : Char} {t : Text} : Split.closes tokenizer ch = false →
      Split.opens tokenizer ch = false → Resolved tokenizer around t → Resolved tokenizer around (ch :: t)
  | stray {opened ch : Char} {t : Text} : Split.closes tokenizer ch = true → Split.pairs opened ch = false →
      Resolved tokenizer (some opened) t → Resolved tokenizer (some opened) (ch :: t)
  | group {around : Option Char} {opened closed : Char} {inner t : Text} : Split.opens tokenizer opened = true →
      Split.closes tokenizer opened = false → Split.closes tokenizer closed = true →
      Split.pairs opened closed = true → Resolved tokenizer (some opened) inner →
      Resolved tokenizer around t → Resolved tokenizer around (opened :: (inner ++ closed :: t))

/-- A closing bracket comes, outside literals, when nothing is open. -/
def ClosesUnopened (tokenizer : Char) (expr : Text) : Prop :=
  ∃ before ch after, outside false nul expr = before ++ ch :: after ∧ Split.closes tokenizer ch = true ∧
    Resolved tokenizer none before

/-! ### The stack -/

/-- The stack behind a character outside literals, unless its top is missing. -/
def stackRead (tokenizer : Char) (s : List Char) (ch : Char) : Option (List Char) :=
  if Split.closes tokenizer ch then
    match s with
    | [] => none
    | opened :: rest => some (if Split.pairs opened ch then rest else opened :: rest)
  else if Split.opens tokenizer ch then some (ch :: s)
  else some s

/-- The stack behind a text without literals. -/
def stack (tokenizer : Char) : List Char → Text → Option (List Char)
  | s, [] => some s
  | s, ch :: t => (stackRead tokenizer s ch).bind fun s => stack tokenizer s t

section
variable {tokenizer : Char}

theorem stack_cons {s s' : List Char} {ch : Char} (h : stackRead tokenizer s ch = some s') (t : Text) :
    stack tokenizer s (ch :: t) = stack tokenizer s' t := by
  rw [stack, h]
  rfl

theorem stack_append (s : List Char) (t u : Text) :
    stack tokenizer s (t ++ u) = (stack tokenizer s t).bind fun s => stack tokenizer s u := by
  induction t generalizing s with
  | nil => rfl
  | cons ch t ih =>
      rw [List.cons_append, stack, stack]
      cases stackRead tokenizer s ch with
      | none => rfl
      | some s' => exact ih s'

/-- What a character does to the stack. -/
theorem stackRead_cases (tokenizer : Char) (s : List Char) (ch : Char) :
    Split.closes tokenizer ch = true ∧ s = [] ∧ stackRead tokenizer s ch = none ∨
    (∃ opened rest, Split.closes tokenizer ch = true ∧ s = opened :: rest ∧ Split.pairs opened ch = true ∧
      stackRead tokenizer s ch = some rest) ∨
    (∃ opened rest, Split.closes tokenizer ch = true ∧ s = opened :: rest ∧ Split.pairs opened ch = false ∧
      stackRead tokenizer s ch = some s) ∨
    Split.closes tokenizer ch = false ∧ Split.opens tokenizer ch = true ∧
      stackRead tokenizer s ch = some (ch :: s) ∨
    Split.closes tokenizer ch = false ∧ Split.opens tokenizer ch = false ∧ stackRead tokenizer s ch = some s := by
  unfold stackRead
  cases hcloses : Split.closes tokenizer ch with
  | true =>
      cases s with
      | nil => exact .inl ⟨rfl, rfl, rfl⟩
      | cons opened rest =>
          cases hpairs : Split.pairs opened ch with
          | true => exact .inr (.inl ⟨opened, rest, rfl, rfl, hpairs, by simp [hpairs]⟩)
          | false => exact .inr (.inr (.inl ⟨opened, rest, rfl, rfl, hpairs, by simp [hpairs]⟩))
  | false =>
      cases hopens : Split.opens tokenizer ch with
      | true => exact .inr (.inr (.inr (.inl ⟨rfl, rfl, rfl⟩)))
      | false => exact .inr (.inr (.inr (.inr ⟨rfl, rfl, rfl⟩)))

/-- A character outside literals, in the loop. -/
theorem read_outside (tokenizer : Char) {ch : Char} (hquote : ch ≠ quote) (specials : List Char) (escape ended : Bool) :
    (Scan.read .asCode tokenizer ⟨specials, false, escape, ended⟩ ch).map
        (fun x => (x.1.specials, x.1.inQuotes, x.1.escape))
      = (stackRead tokenizer specials ch).map fun s => (s, false, ch == backslash) := by
  unfold Scan.read stackRead
  cases hcloses : Split.closes tokenizer ch with
  | true => cases specials <;> simp [Scan.escapes]
  | false =>
      cases hopens : Split.opens tokenizer ch with
      | true => simp [Scan.escapes]
      | false =>
          cases hsep : (specials.isEmpty && Scan.separates .asCode tokenizer ch) with
          | true => simp_all [Scan.escapes]
          | false => simp [Scan.escapes, hquote]

/-- The stack of the loop. -/
theorem readAll_stack (tokenizer : Char) {c : Scan} {previousCh : Char}
    (h : c.escape = (previousCh == backslash)) (expr : Text) :
    (c.readAll .asCode tokenizer expr).map (fun x => x.1.specials)
      = stack tokenizer c.specials (outside c.inQuotes previousCh expr) := by
  have hcons {c c' : Scan} {ch : Char} {m : Mark} (hread : c.read .asCode tokenizer ch = some (c', m)) (t : Text) :
      (c.readAll .asCode tokenizer (ch :: t)).map (fun x => x.1.specials)
        = (c'.readAll .asCode tokenizer t).map (fun x => x.1.specials) := by
    rw [Scan.readAll, hread]
    simp only [Option.bind_eq_bind, Option.bind_some]
    cases c'.readAll .asCode tokenizer t <;> rfl
  induction expr generalizing c previousCh with
  | nil => rfl
  | cons ch expr ih =>
      obtain ⟨specials, inQuotes, escape, ended⟩ := c
      dsimp only at h ⊢
      cases inQuotes with
      | true =>
          have hquotes : (!(ch == quote && !escape)) = !(ch == quote && previousCh != backslash) := by
            rw [h]
            rfl
          have hread : Scan.read .asCode tokenizer ⟨specials, true, escape, ended⟩ ch
              = some (⟨specials, !(ch == quote && !escape), ch == backslash, false⟩,
                Scan.mark ⟨specials, true, escape, ended⟩) := rfl
          rw [hcons hread, ih rfl, outside, hquotes]
      | false =>
          rw [outside]
          by_cases hquote : ch = quote
          · subst hquote
            have hcloses : Split.closes tokenizer quote = false := by simp [Split.closes, quote]
            have hopens : Split.opens tokenizer quote = false := by simp [Split.opens, quote]
            have hread : Scan.read .asCode tokenizer ⟨specials, false, escape, ended⟩ quote
                = some (⟨specials, true, quote == backslash, false⟩,
                  Scan.mark ⟨specials, false, escape, ended⟩) := by
              simp [Scan.read, Scan.escapes, hcloses, hopens]
            rw [hcons hread, ih rfl, if_pos (beq_self_eq_true quote)]
          · have hread := read_outside tokenizer hquote specials escape ended
            rw [if_neg (by simpa using hquote), stack]
            cases hstack : stackRead tokenizer specials ch with
            | none =>
                rw [hstack, Option.map_none] at hread
                rw [Scan.readAll, Option.map_eq_none_iff.mp hread]
                rfl
            | some s =>
                rw [hstack, Option.map_some] at hread
                obtain ⟨⟨c', m⟩, hnext, hstate⟩ := Option.map_eq_some_iff.mp hread
                simp only [Prod.mk.injEq] at hstate
                obtain ⟨rfl, hinside, hescape⟩ := hstate
                rw [hcons hnext, ih hescape, hinside]
                rfl

/-- A resolved text leaves the stack as it is. -/
theorem Resolved.stack {around : Option Char} {t : Text} (h : Resolved tokenizer around t) {s : List Char}
    (hs : ∀ opened ∈ around, s.head? = some opened) : Util.stack tokenizer s t = some s := by
  induction h generalizing s with
  | nil => rfl
  | @char around ch t hcloses hopens _ ih =>
      have hread : stackRead tokenizer s ch = some s := by simp [stackRead, hcloses, hopens]
      rw [stack_cons hread]
      exact ih hs
  | @stray opened ch t hcloses hpairs _ ih =>
      have hread : stackRead tokenizer s ch = some s := by
        have hhead := hs opened rfl
        cases s with
        | nil => cases hhead
        | cons x rest =>
            obtain rfl : x = opened := Option.some.inj hhead
            simp [stackRead, hcloses, hpairs]
      rw [stack_cons hread]
      exact ih hs
  | @group around opened closed inner t hopens hnot hcloses hpairs _ _ ihinner ih =>
      have hfirst : stackRead tokenizer s opened = some (opened :: s) := by simp [stackRead, hopens, hnot]
      have hlast : stackRead tokenizer (opened :: s) closed = some s := by simp [stackRead, hcloses, hpairs]
      rw [stack_cons hfirst, stack_append, ihinner (by simp), Option.bind_some, stack_cons hlast]
      exact ih hs

/-- If the stack gets below `opened`, then `opened` is closed by its pair. -/
theorem exists_closed {opened : Char} {s final : List Char} {t : Text}
    (h : stack tokenizer (opened :: s) t = some final) (hlen : final.length ≤ s.length) :
    ∃ inner closed rest, t = inner ++ closed :: rest ∧ Split.closes tokenizer closed = true ∧
      Split.pairs opened closed = true ∧ Resolved tokenizer (some opened) inner ∧
      stack tokenizer s rest = some final := by
  induction hn : t.length using Nat.strong_induction_on generalizing opened s t with
  | h n ih =>
      cases t with
      | nil =>
          obtain rfl : opened :: s = final := Option.some.inj h
          rw [List.length_cons] at hlen
          omega
      | cons ch t =>
          have hshorter : t.length < n := by simp [← hn]
          rcases stackRead_cases tokenizer (opened :: s) ch with ⟨-, hnil, -⟩ |
            ⟨_, _, hcloses, hs, hpairs, hread⟩ | ⟨_, _, hcloses, hs, hpairs, hread⟩ |
            ⟨hcloses, hopens, hread⟩ | ⟨hcloses, hopens, hread⟩
          · cases hnil
          · cases hs
            rw [stack_cons hread] at h
            exact ⟨[], ch, t, rfl, hcloses, hpairs, .nil, h⟩
          · cases hs
            rw [stack_cons hread] at h
            obtain ⟨inner, closed, rest, rfl, hclosed, hpair, hinner, hrest⟩ := ih t.length hshorter h hlen rfl
            exact ⟨ch :: inner, closed, rest, rfl, hclosed, hpair, .stray hcloses hpairs hinner, hrest⟩
          · -- another bracket opens, and is closed before this one
            rw [stack_cons hread] at h
            obtain ⟨inner₁, closed₁, rest₁, rfl, hclosed₁, hpair₁, hinner₁, hrest₁⟩ :=
              ih t.length hshorter h (Nat.le_succ_of_le hlen) rfl
            have hrestShorter : rest₁.length < n := by
              rw [List.length_append, List.length_cons] at hshorter
              omega
            obtain ⟨inner, closed, rest, rfl, hclosed, hpair, hinner, hrest⟩ :=
              ih rest₁.length hrestShorter hrest₁ hlen rfl
            refine ⟨ch :: (inner₁ ++ closed₁ :: inner), closed, rest, by simp, hclosed, hpair, ?_, hrest⟩
            exact .group hopens hcloses hclosed₁ hpair₁ hinner₁ hinner
          · rw [stack_cons hread] at h
            obtain ⟨inner, closed, rest, rfl, hclosed, hpair, hinner, hrest⟩ := ih t.length hshorter h hlen rfl
            exact ⟨ch :: inner, closed, rest, rfl, hclosed, hpair, .char hcloses hopens hinner, hrest⟩

/-- Nothing is open behind a text just when it is resolved. -/
theorem stack_nil_iff {t : Text} : stack tokenizer [] t = some [] ↔ Resolved tokenizer none t := by
  refine ⟨fun h => ?_, fun h => h.stack (by simp)⟩
  induction hn : t.length using Nat.strong_induction_on generalizing t with
  | h n ih =>
      cases t with
      | nil => exact .nil
      | cons ch t =>
          have hshorter : t.length < n := by simp [← hn]
          rcases stackRead_cases tokenizer [] ch with ⟨-, -, hread⟩ | ⟨_, _, -, hs, -, -⟩ |
            ⟨_, _, -, hs, -, -⟩ | ⟨hcloses, hopens, hread⟩ | ⟨hcloses, hopens, hread⟩
          · rw [stack, hread] at h
            cases h
          · cases hs
          · cases hs
          · rw [stack_cons hread] at h
            obtain ⟨inner, closed, rest, rfl, hclosed, hpair, hinner, hrest⟩ := exists_closed h le_rfl
            have hrestShorter : rest.length < n := by
              rw [List.length_append, List.length_cons] at hshorter
              omega
            exact .group hopens hcloses hclosed hpair hinner (ih rest.length hrestShorter hrest rfl)
          · rw [stack_cons hread] at h
            exact .char hcloses hopens (ih t.length hshorter h rfl)

theorem stack_eq_none_iff {s : List Char} {t : Text} : stack tokenizer s t = none ↔
    ∃ before ch after, t = before ++ ch :: after ∧ Split.closes tokenizer ch = true ∧
      stack tokenizer s before = some [] := by
  constructor
  · intro h
    induction t generalizing s with
    | nil => cases h
    | cons ch t ih =>
        cases hread : stackRead tokenizer s ch with
        | none =>
            rcases stackRead_cases tokenizer s ch with ⟨hcloses, rfl, -⟩ | ⟨_, _, -, -, -, hsome⟩ |
              ⟨_, _, -, -, -, hsome⟩ | ⟨-, -, hsome⟩ | ⟨-, -, hsome⟩
            · exact ⟨[], ch, t, rfl, hcloses, rfl⟩
            all_goals
              rw [hread] at hsome
              cases hsome
        | some s' =>
            rw [stack_cons hread] at h
            obtain ⟨before, x, after, rfl, hx, hbefore⟩ := ih h
            exact ⟨ch :: before, x, after, rfl, hx, (stack_cons hread before).trans hbefore⟩
  · intro ⟨before, ch, after, ht, hcloses, hbefore⟩
    have hread : stackRead tokenizer [] ch = none := by simp [stackRead, hcloses]
    rw [ht, stack_append, hbefore, Option.bind_some, stack, hread]
    rfl

end

/-- **`splitExpr` returns** unless a closing bracket comes when nothing is open. -/
theorem splitExpr_returns_iff (expr : Text) (tokenizer : Char) :
    (∃ ts, splitExpr expr tokenizer = .ok ts) ↔ ¬ ClosesUnopened tokenizer expr := by
  have hstack : stack tokenizer [] (outside false nul expr) = none ↔ ClosesUnopened tokenizer expr := by
    rw [stack_eq_none_iff]
    simp only [stack_nil_iff]
    rfl
  have hstart : Scan.start.escape = (nul == backslash) := rfl
  have hscan := readAll_stack tokenizer hstart expr
  rw [← hstack, ← show _ = stack tokenizer [] (outside false nul expr) from hscan, splitExpr_eq, marks]
  cases Scan.readAll .asCode tokenizer .start expr <;> simp

end PothosCore.Util

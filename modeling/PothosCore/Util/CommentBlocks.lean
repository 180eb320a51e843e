import Mathlib.Data.List.Infix
import Mathlib.Data.List.TakeWhile
import PothosCore.Util.ExprSplit

/-!
# PothosCore.Util.CommentBlocks

`extractContiguousBlocks`: the runs of comment lines of a source file.

The loop reads a line, or takes the rest of one behind a closing marker, and decides what
it is by its first markers and by one flag. Each round shortens what is left to read
(`weight_iteration`), so the loop ends on every text (`extractContiguousBlocks_ok`).
-/

namespace PothosCore.Util.BlockDescription

/-- `CodeLine` -/
structure CodeLine where
  text : Text
  lineNo : Nat
  deriving Repr, DecidableEq

/-- `CodeBlock` -/
abbrev CodeBlock := List CodeLine

/-- `std::string::find`: where the pattern occurs first. -/
def find (pattern : Text) : Text → Option Nat
  | [] => if pattern = [] then some 0 else none
  | ch :: text => if pattern <+: ch :: text then some 0 else (find pattern text).map (· + 1)

/-- What is left of a `std::istream`, and its state. -/
structure LineStream where
  rest : Text
  eof : Bool
  fail : Bool
  deriving Repr, DecidableEq

namespace LineStream

/-- `is.good() and not is.eof()` -/
def good (is : LineStream) : Bool := !is.eof && !is.fail

/-- `std::getline`: at the end of the stream `eof` is set, and `fail` if nothing was read. -/
def getline (is : LineStream) : Text × LineStream :=
  let line := is.rest.takeWhile (· ≠ '\n')
  match is.rest.dropWhile (· ≠ '\n') with
  | _ :: rest => (line, { is with rest })
  | [] => (line, { rest := [], eof := true, fail := is.fail || line.isEmpty })

end LineStream

/-- The two vectors of the loop. -/
structure Collected where
  contiguousCommentBlocks : List CodeBlock
  currentCodeBlock : CodeBlock
  deriving Repr, DecidableEq

namespace Collected

def push (c : Collected) (line : CodeLine) : Collected :=
  { c with currentCodeBlock := c.currentCodeBlock ++ [line] }

/-- The current block ends, if there is one. -/
def flush (c : Collected) : Collected :=
  if c.currentCodeBlock.isEmpty then c else ⟨c.contiguousCommentBlocks ++ [c.currentCodeBlock], []⟩

end Collected

/-- The variables of the loop. `partialLine` is the source's `partial`. -/
structure Extractor where
  stream : LineStream
  partialLine : Text
  lineNo : Nat
  inMultiLineComment : Bool
  collected : Collected
  deriving Repr, DecidableEq

namespace Extractor

def push (s : Extractor) (text : Text) : Extractor :=
  { s with collected := s.collected.push ⟨text, s.lineNo⟩ }

/-- What becomes of a line that is not empty. -/
def process [PocoString] (s : Extractor) (line : Text) : Extractor :=
  let lineTrim := PocoString.trimLeft line
  let openMulti := find ['/', '*'] line
  let closeMulti := find ['*', '/'] line
  if !s.inMultiLineComment && (2 ≤ lineTrim.length && lineTrim.take 2 == ['/', '/']) then s.push line
  else
    match s.inMultiLineComment, openMulti, closeMulti with
    | false, some i, _ => { s.push (line.drop i) with inMultiLineComment := true }
    | true, _, some i =>
        { s.push (line.take i) with inMultiLineComment := false, partialLine := line.drop (i + 2) }
    | true, _, none => s.push line
    | false, none, _ => { s with collected := s.collected.flush }

/-- A line without the carriage return that it may end in. -/
def stripReturn (line : Text) : Text := if line.getLast? = some '\r' then line.dropLast else line

/-- One round of the loop: an empty line is left out. -/
def iteration [PocoString] (s : Extractor) : Extractor :=
  if s.partialLine.isEmpty then
    let (line, stream) := s.stream.getline
    let s := { s with stream, lineNo := s.lineNo + 1 }
    let line := stripReturn line
    if line.isEmpty then s else s.process line
  else { s with partialLine := [] }.process s.partialLine

/-- The loop, for at most so many rounds. -/
def loop [PocoString] : Nat → Extractor → Extractor
  | 0, s => s
  | rounds + 1, s => if s.stream.good then loop rounds s.iteration else s

def start (text : Text) : Extractor := ⟨⟨text, false, false⟩, [], 0, false, ⟨[], []⟩⟩

end Extractor

/-- `extractContiguousBlocks(is)` -/
def extractContiguousBlocks [PocoString] (text : Text) : Except Fault (List CodeBlock) :=
  let s := Extractor.loop (text.length + 1) (.start text)
  if s.stream.good then .error .diverged else .ok s.collected.flush.contiguousCommentBlocks

/-! ### The loop ends -/

namespace LineStream

/-- A line is read to its end, or the stream is at its end. -/
theorem getline_cases (is : LineStream) :
    (∃ line rest, '\n' ∉ line ∧ is.rest = line ++ '\n' :: rest ∧ is.getline = (line, { is with rest })) ∨
      ('\n' ∉ is.rest ∧ is.getline = (is.rest, ⟨[], true, is.fail || is.rest.isEmpty⟩)) := by
  have hsplit := List.takeWhile_append_dropWhile (p := (· ≠ '\n')) (l := is.rest)
  have hline : '\n' ∉ is.rest.takeWhile (· ≠ '\n') := fun h => by simpa using List.mem_takeWhile_imp h
  unfold getline
  cases hdrop : is.rest.dropWhile (· ≠ '\n') with
  | nil =>
      rw [hdrop, List.append_nil] at hsplit
      rw [hsplit] at hline
      refine .inr ⟨hline, ?_⟩
      dsimp only
      rw [hsplit]
  | cons ch rest =>
      have hch := List.head_dropWhile_not (· ≠ '\n') (l := is.rest) (by rw [hdrop]; exact List.cons_ne_nil _ _)
      simp only [hdrop, List.head_cons] at hch
      obtain rfl : ch = '\n' := by simpa using hch
      refine .inl ⟨_, rest, hline, ?_, rfl⟩
      rw [← hdrop, hsplit]

end LineStream

namespace Extractor

variable {s : Extractor}

/-- What is left to read. -/
def weight (s : Extractor) : Nat := s.stream.rest.length + s.partialLine.length

/-- What `process` can do with a line: all of it, its end or its beginning is a comment
line, or the block ends. -/
theorem process_cases [PocoString] (s : Extractor) (line : Text) :
    s.process line = s.push line ∨
      (∃ i, s.process line = { s.push (line.drop i) with inMultiLineComment := true }) ∨
      (∃ i, s.process line =
        { s.push (line.take i) with inMultiLineComment := false, partialLine := line.drop (i + 2) }) ∨
      s.process line = { s with collected := s.collected.flush } := by
  unfold process
  dsimp only
  split
  · exact .inl rfl
  · split
    · exact .inr (.inl ⟨_, rfl⟩)
    · exact .inr (.inr (.inl ⟨_, rfl⟩))
    · exact .inl rfl
    · exact .inr (.inr (.inr rfl))

theorem process_stream [PocoString] (s : Extractor) (line : Text) : (s.process line).stream = s.stream := by
  rcases s.process_cases line with h | ⟨i, h⟩ | ⟨i, h⟩ | h <;> rw [h] <;> rfl

/-- Behind a closing marker the rest is shorter. -/
theorem process_partialLine [PocoString] {line : Text} (hs : s.partialLine = []) (hline : line ≠ []) :
    (s.process line).partialLine.length < line.length := by
  have hpos := List.length_pos_iff.mpr hline
  have hkept : s.partialLine.length < line.length := by rwa [hs]
  rcases s.process_cases line with h | ⟨i, h⟩ | ⟨i, h⟩ | h <;> rw [h]
  · exact hkept
  · exact hkept
  · show (line.drop (i + 2)).length < line.length
    rw [List.length_drop]
    omega
  · exact hkept

theorem length_stripReturn (line : Text) : (stripReturn line).length ≤ line.length := by
  unfold stripReturn
  split
  · rw [List.length_dropLast]
    omega
  · exact Nat.le_refl _

/-- **Each round** shortens what is left to read, or ends the stream. -/
theorem weight_iteration [PocoString] (s : Extractor) :
    s.iteration.stream.good = false ∨ s.iteration.weight < s.weight := by
  unfold iteration
  split
  · next hempty =>
      have hempty : s.partialLine = [] := List.isEmpty_iff.mp hempty
      have hweight : s.weight = s.stream.rest.length := by rw [weight, hempty]; rfl
      rcases s.stream.getline_cases with ⟨line, rest, _, hrest, hget⟩ | ⟨_, hget⟩
      · right
        have hstrip := length_stripReturn line
        have hlength : s.stream.rest.length = line.length + (rest.length + 1) := by
          rw [hrest, List.length_append, List.length_cons]
        rw [hget]
        dsimp only
        split
        · rw [weight, hempty, hweight]
          show rest.length + 0 < _
          omega
        · next hline =>
            have hless := process_partialLine (s := { s with
              stream := { s.stream with rest }, lineNo := s.lineNo + 1 }) hempty (by simpa using hline)
            rw [weight, process_stream, hweight]
            exact Nat.lt_of_lt_of_le (Nat.add_lt_add_left hless rest.length) (by omega)
      · left
        rw [hget]
        dsimp only
        split
        · rfl
        · rw [process_stream]
          rfl
  · next hempty =>
      right
      have hless := process_partialLine (s := { s with partialLine := [] }) rfl (by simpa using hempty)
      rw [weight, process_stream, weight]
      exact Nat.add_lt_add_left hless s.stream.rest.length

theorem loop_of_not_good [PocoString] (h : s.stream.good = false) (rounds : Nat) : loop rounds s = s := by
  cases rounds with
  | zero => rfl
  | succ rounds => rw [loop, if_neg (by rw [h]; exact Bool.false_ne_true)]

theorem loop_stops [PocoString] {rounds : Nat} (h : s.weight < rounds) : (loop rounds s).stream.good = false := by
  induction rounds generalizing s with
  | zero => cases h
  | succ rounds ih =>
      rw [loop]
      split
      · rcases weight_iteration s with hend | hless
        · rw [loop_of_not_good hend]
          exact hend
        · exact ih (by omega)
      · next hgood => exact Bool.not_eq_true _ ▸ hgood

end Extractor

/-- **The loop ends** on every text. -/
theorem extractContiguousBlocks_ok [PocoString] (text : Text) :
    extractContiguousBlocks text =
      .ok (Extractor.loop (text.length + 1) (.start text)).collected.flush.contiguousCommentBlocks := by
  have hweight : (Extractor.start text).weight = text.length := Nat.add_zero _
  rw [extractContiguousBlocks, Extractor.loop_stops (by omega)]
  exact if_neg Bool.false_ne_true

end PothosCore.Util.BlockDescription

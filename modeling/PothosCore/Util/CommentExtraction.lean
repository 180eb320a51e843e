import PothosCore.Util.CommentSource

/-!
# PothosCore.Util.CommentExtraction

The loop of `extractContiguousBlocks` on a source text.

A round on a line, or on the rest behind a closing marker, collects what the line has, up to
comment lines without text (`Agrees`), with one exception: where a comment opens and closes
on the line, the rest of the line counts as the comment, and the loop stays inside it
(`process_opened`). And what is behind the closing marker of a last line without a line end
is not looked at. `extracted_iff` says that nothing else goes wrong: from the first such
line on, the comment lines are not those of the source.
-/

namespace PothosCore.Util.BlockDescription

/-! ### What is collected -/

namespace Collected

variable {c d : Collected}

/-- The comment lines that have text. -/
def nonempty (d : Collected) : Collected :=
  ⟨BlockDescription.nonempty d.contiguousCommentBlocks, d.currentCodeBlock.filter fun line => !line.text.isEmpty⟩

/-- All comment lines, in order. -/
def pieces (c : Collected) : CodeBlock := c.contiguousCommentBlocks.flatten ++ c.currentCodeBlock

theorem pieces_push (c : Collected) (line : CodeLine) : (c.push line).pieces = c.pieces ++ [line] :=
  (List.append_assoc _ _ _).symm

theorem pieces_flush (c : Collected) : c.flush.pieces = c.pieces := by
  unfold flush
  split
  · rfl
  · simp [pieces]

theorem pieces_add (c : Collected) (text : Text) (lineNo : Nat) : c.pieces <+: (c.add text lineNo).pieces := by
  unfold add
  split
  · exact List.prefix_rfl
  · rw [pieces_push]
    exact List.prefix_append _ _

theorem add_eq {text : Text} (h : text ≠ []) (c : Collected) (lineNo : Nat) :
    c.add text lineNo = c.push ⟨text, lineNo⟩ :=
  if_neg (by simpa using h)

theorem flush_flush (c : Collected) : c.flush.flush = c.flush := by
  by_cases h : c.currentCodeBlock.isEmpty = true
  · have hflush : c.flush = c := if_pos h
    rw [hflush, hflush]
  · have hflush : c.flush = ⟨c.contiguousCommentBlocks ++ [c.currentCodeBlock], []⟩ := if_neg h
    rw [hflush]
    rfl

/-- All comment lines are in the blocks once the current one is. -/
theorem flatten_flush (c : Collected) : c.flush.contiguousCommentBlocks.flatten = c.pieces := by
  unfold flush
  split
  · next h => rw [pieces, List.isEmpty_iff.mp h, List.append_nil]
  · simp [pieces]

theorem nonempty_push (d : Collected) (text : Text) (lineNo : Nat) :
    (d.push ⟨text, lineNo⟩).nonempty = d.nonempty.add text lineNo := by
  unfold nonempty push add
  rw [List.filter_append]
  cases text with
  | nil => simp
  | cons ch text => rfl

theorem pieces_nonempty (d : Collected) : d.nonempty.pieces = d.pieces.filter fun line => !line.text.isEmpty := by
  simp [nonempty, BlockDescription.nonempty, pieces, List.filter_flatten]

end Collected

/-- What the loop has collected is `c`, up to comment lines without text; and a block that it
has begun has text. -/
structure Reads (d c : Collected) : Prop where
  nonempty : d.nonempty = c
  started : d.currentCodeBlock ≠ [] → c.currentCodeBlock ≠ []

namespace Reads

variable {c d : Collected}

theorem push (h : Reads d c) {text : Text} (ht : text ≠ [] ∨ c.currentCodeBlock ≠ []) (lineNo : Nat) :
    Reads (d.push ⟨text, lineNo⟩) (c.add text lineNo) ∧ (c.add text lineNo).currentCodeBlock ≠ [] := by
  have hcurrent : (c.add text lineNo).currentCodeBlock ≠ [] := by
    unfold Collected.add
    split
    · next hempty => exact ht.resolve_left (not_not_intro (List.isEmpty_iff.mp hempty))
    · simp [Collected.push]
  refine ⟨⟨?_, fun _ => hcurrent⟩, hcurrent⟩
  rw [Collected.nonempty_push, h.nonempty]

theorem flush (h : Reads d c) : Reads d.flush c.flush := by
  have hempty : d.currentCodeBlock.isEmpty = c.currentCodeBlock.isEmpty := by
    rw [Bool.eq_iff_iff, List.isEmpty_iff, List.isEmpty_iff]
    constructor
    · intro hd
      rw [← h.nonempty, Collected.nonempty, hd]
      rfl
    · intro hc
      by_contra hd
      exact h.started hd hc
  unfold Collected.flush
  rw [hempty]
  split
  · exact h
  · refine ⟨?_, fun hnil => absurd rfl hnil⟩
    rw [← h.nonempty]
    simp [Collected.nonempty, BlockDescription.nonempty]

/-- The blocks in the end. -/
theorem blocks (h : Reads d c) :
    BlockDescription.nonempty d.flush.contiguousCommentBlocks = c.flush.contiguousCommentBlocks :=
  congrArg (·.contiguousCommentBlocks) h.flush.nonempty

end Reads

/-! ### What a round does with a line -/

namespace Extractor

variable {s : Extractor}

theorem process_slashes [PocoString] (h : s.inMultiLineComment = false) (sl : Slashes) :
    s.process sl.text = s.push sl.text := by
  rw [process, PocoString.trimLeft_eq]
  refine if_pos ?_
  rw [h]
  exact sl.begins

theorem process_code [PocoString] (h : s.inMultiLineComment = false) (code : Code) :
    s.process code.text = { s with collected := s.collected.flush } := by
  have hbegins : ¬ (!s.inMultiLineComment && beginsWithSlashes code.text) = true := by
    rw [code.not_begins, Bool.and_false]
    exact Bool.false_ne_true
  rw [process, PocoString.trimLeft_eq]
  refine (if_neg hbegins).trans ?_
  rw [h, find_eq_none code.noOpen]

/-- A comment opens: the rest of the line is one, and the loop is inside it. The closing marker
is not looked for. -/
theorem process_opened [PocoString] (h : s.inMultiLineComment = false) (before : Before) (tail : Text) :
    s.process (before.text ++ '/' :: '*' :: tail) =
      { s.push ('/' :: '*' :: tail) with inMultiLineComment := true } := by
  have hbegins : ¬ (!s.inMultiLineComment && beginsWithSlashes (before.text ++ '/' :: '*' :: tail)) = true := by
    rw [before.not_begins, Bool.and_false]
    exact Bool.false_ne_true
  rw [process, PocoString.trimLeft_eq]
  refine (if_neg hbegins).trans ?_
  rw [h, find_append (by decide) before.noOpen]
  dsimp only
  rw [List.drop_left]

theorem process_within [PocoString] (h : s.inMultiLineComment = true) (body : Body) :
    s.process body.text = s.push body.text := by
  have hinside : ¬ (!s.inMultiLineComment && beginsWithSlashes body.text) = true := by
    rw [h]
    exact Bool.false_ne_true
  rw [process, PocoString.trimLeft_eq]
  refine (if_neg hinside).trans ?_
  rw [h, find_eq_none body.noClose]

theorem process_closing [PocoString] (h : s.inMultiLineComment = true) (body : Body) (tail : Text) :
    s.process (body.text ++ '*' :: '/' :: tail) =
      { s.push body.text with inMultiLineComment := false, partialLine := tail } := by
  have hinside : ¬ (!s.inMultiLineComment && beginsWithSlashes (body.text ++ '*' :: '/' :: tail)) = true := by
    rw [h]
    exact Bool.false_ne_true
  rw [process, PocoString.trimLeft_eq]
  refine (if_neg hinside).trans ?_
  rw [h, find_append (by decide) body.noClose]
  dsimp only
  rw [List.take_left, ← List.drop_drop, List.drop_left]
  rfl

/-- The loop is where the text is, and has collected what the text has. -/
structure Agrees (s : Extractor) (inside : Bool) (c : Collected) : Prop where
  reads : Reads s.collected c
  flag : s.inMultiLineComment = inside
  running : inside = true → c.currentCodeBlock ≠ []

/-- **A round on a rest** on which no comment opens and closes. -/
theorem Agrees.rest [PocoString] {c : Collected} (h : Agrees s false c) {rest : Rest} (htext : rest.text ≠ [])
    (hsound : rest.opensAndCloses = false) :
    Agrees (s.process rest.text) rest.endsInside (rest.collect s.lineNo c) ∧
      (s.process rest.text).partialLine = s.partialLine ∧ (s.process rest.text).lineNo = s.lineNo := by
  cases rest with
  | code code =>
      have htext : code.text ≠ [] := htext
      have hcollect : (Rest.code code).collect s.lineNo c = c.flush := if_neg (by simpa using htext)
      rw [Rest.text, process_code h.flag, hcollect]
      exact ⟨⟨h.reads.flush, h.flag, fun hin => absurd hin Bool.false_ne_true⟩, rfl, rfl⟩
  | slashes sl =>
      rw [Rest.text, process_slashes h.flag]
      exact ⟨⟨(h.reads.push (.inl htext) s.lineNo).1, h.flag, fun hin => absurd hin Bool.false_ne_true⟩, rfl, rfl⟩
  | opened before body =>
      have hpush := h.reads.push (.inl (List.cons_ne_nil '/' ('*' :: body.text))) s.lineNo
      rw [Rest.text, process_opened h.flag]
      exact ⟨⟨hpush.1, rfl, fun _ => hpush.2⟩, rfl, rfl⟩
  | closed before body rest => cases hsound

/-! ### Rounds on a line -/

theorem loop_add [PocoString] (m k : Nat) (s : Extractor) : loop (m + k) s = loop k (loop m s) := by
  induction m generalizing s with
  | zero => rw [Nat.zero_add, loop]
  | succ m ih =>
      rw [Nat.add_right_comm, loop, loop]
      split
      · exact ih s.iteration
      · next hgood => rw [loop_of_not_good (by simpa using hgood)]

theorem loop_one [PocoString] (h : s.stream.good = true) : loop 1 s = s.iteration := by
  rw [loop, if_pos h, loop]

end Extractor

theorem Rest.noLineEnd : ∀ rest : Rest, '\n' ∉ rest.text
  | .code c => c.noLineEnd
  | .slashes sl => by
      have h := sl.noLineEnd
      simp only [List.mem_append, not_or] at h
      simp [Rest.text, Slashes.text, h.1, h.2]
  | .opened before body => by
      simp [Rest.text, before.noLineEnd, body.noLineEnd]
  | .closed before body rest => by
      simp [Rest.text, before.noLineEnd, body.noLineEnd, rest.noLineEnd]

theorem Content.noLineEnd (content : Content) : '\n' ∉ content.text := by
  cases content with
  | outside rest => exact rest.noLineEnd
  | within body => exact body.noLineEnd
  | closing body rest => simp [Content.text, body.noLineEnd, rest.noLineEnd]

/-- A rest without text is code, and has no comment line. -/
theorem Rest.of_text_nil {rest : Rest} (h : rest.text = []) (lineNo : Nat) (c : Collected) :
    rest.endsInside = false ∧ rest.opensAndCloses = false ∧ rest.collect lineNo c = c := by
  cases rest with
  | code code =>
      have hcode : code.text = [] := h
      exact ⟨rfl, rfl, if_pos (by rw [hcode]; rfl)⟩
  | slashes sl => exact absurd h (by simp [Rest.text, Slashes.text])
  | opened before body => exact absurd h (by simp [Rest.text])
  | closed before body rest => exact absurd h (by simp [Rest.text])

theorem LineStream.getline_line {text more : Text} (h : '\n' ∉ text) :
    getline ⟨text ++ '\n' :: more, false, false⟩ = (text, ⟨more, false, false⟩) := by
  have hall : ∀ ch ∈ text, decide (ch ≠ '\n') = true := fun ch hch =>
    decide_eq_true (fun heq => h (heq ▸ hch))
  unfold getline
  simp only [List.takeWhile_append_of_pos hall, List.dropWhile_append_of_pos hall]
  simp

theorem LineStream.getline_last {text : Text} (h : '\n' ∉ text) :
    getline ⟨text, false, false⟩ = (text, ⟨[], true, text.isEmpty⟩) := by
  have hall : ∀ ch ∈ text, decide (ch ≠ '\n') = true := fun ch hch =>
    decide_eq_true (fun heq => h (heq ▸ hch))
  unfold getline
  simp only [List.takeWhile_eq_self_iff.mpr hall, List.dropWhile_eq_nil_iff.mpr hall, Bool.false_or]

namespace Extractor

/-- The text of a line is read, without its end. -/
theorem stripReturn_line (line : Line) :
    ∃ read, line.text = read ++ ['\n'] ∧ '\n' ∉ read ∧ stripReturn read = line.content.text := by
  have hline := line.content.noLineEnd
  unfold Line.text
  split
  · refine ⟨line.content.text ++ ['\r'], by simp, by simp [hline], ?_⟩
    simp [stripReturn]
  · exact ⟨line.content.text, rfl, hline, if_neg line.noReturn⟩

/-- The loop is at the beginning of a line. -/
structure AtLine (s : Extractor) (inside : Bool) (c : Collected) (text : Text) (lineNo : Nat) : Prop where
  stream : s.stream = ⟨text, false, false⟩
  partialLine : s.partialLine = []
  lineNo : s.lineNo = lineNo
  agrees : Agrees s inside c

variable {s : Extractor} {inside : Bool} {c : Collected} {more : Text} {lineNo : Nat}

theorem AtLine.good (h : AtLine s inside c more lineNo) : s.stream.good = true := by
  rw [h.stream]
  rfl

/-- The state in which a line is looked at. -/
def fetched (s : Extractor) (stream : LineStream) : Extractor := { s with stream, lineNo := s.lineNo + 1 }

theorem Agrees.fetched (h : Agrees s inside c) (stream : LineStream) : Agrees (s.fetched stream) inside c :=
  ⟨h.reads, h.flag, h.running⟩

theorem iteration_fetch [PocoString] (h : s.partialLine = []) {line : Text} {stream : LineStream}
    (hget : s.stream.getline = (line, stream)) :
    s.iteration =
      if (stripReturn line).isEmpty then s.fetched stream else (s.fetched stream).process (stripReturn line) := by
  rw [iteration, if_pos (List.isEmpty_iff.mpr h), hget]
  rfl

theorem AtLine.iteration_line [PocoString] {line : Line} (h : AtLine s inside c (line.text ++ more) lineNo) :
    s.iteration =
      if line.content.text.isEmpty then s.fetched ⟨more, false, false⟩
      else (s.fetched ⟨more, false, false⟩).process line.content.text := by
  obtain ⟨read, htext, hread, hstrip⟩ := stripReturn_line line
  have hget := @LineStream.getline_line _ more hread
  rw [← List.singleton_append, ← List.append_assoc, ← htext, ← h.stream] at hget
  rw [iteration_fetch h.partialLine hget, hstrip]

theorem AtLine.iteration_last [PocoString] {last : Content} (hlast : last.text.getLast? ≠ some '\r')
    (h : AtLine s inside c last.text lineNo) :
    s.iteration =
      if last.text.isEmpty then s.fetched ⟨[], true, last.text.isEmpty⟩
      else (s.fetched ⟨[], true, last.text.isEmpty⟩).process last.text := by
  have hget := LineStream.getline_last last.noLineEnd
  have hstrip : stripReturn last.text = last.text := if_neg hlast
  rw [← h.stream] at hget
  rw [iteration_fetch h.partialLine hget, hstrip]

theorem iteration_partial [PocoString] (h : s.partialLine ≠ []) :
    s.iteration = { s with partialLine := [] }.process s.partialLine :=
  if_neg (by simpa using h)

/-- A line that closes a comment: what is before the marker is collected, and what is behind
it is next. -/
theorem Agrees.closing [PocoString] (h : Agrees s true c) (body : Body) (rest : Rest) :
    ∃ s', s.process (Content.closing body rest).text = s' ∧ Agrees s' false (c.add body.text s.lineNo) ∧
      s'.partialLine = rest.text ∧ s'.lineNo = s.lineNo ∧ s'.stream = s.stream := by
  refine ⟨_, process_closing h.flag body rest.text, ⟨?_, rfl, fun hin => absurd hin Bool.false_ne_true⟩, rfl, rfl, rfl⟩
  exact (h.reads.push (.inr (h.running rfl)) s.lineNo).1

/-- A line inside a comment. -/
theorem Agrees.within [PocoString] (h : Agrees s true c) (body : Body) :
    Agrees (s.process body.text) true (c.add body.text s.lineNo) ∧
      (s.process body.text).partialLine = s.partialLine ∧ (s.process body.text).lineNo = s.lineNo := by
  have hpush := @Reads.push _ _ h.reads body.text (.inr (h.running rfl)) s.lineNo
  rw [process_within h.flag]
  exact ⟨⟨hpush.1, h.flag, fun _ => hpush.2⟩, rfl, rfl⟩

/-- **The rounds up to a rest** with text, which is a line, or what is behind the closing marker
of one. -/
theorem AtLine.rest [PocoString] {line : Line} (h : AtLine s line.content.startsInside c (line.text ++ more) lineNo)
    {rest : Rest}
    (hrest : line.content = .outside rest ∨ ∃ body, line.content = .closing body rest) (htext : rest.text ≠ []) :
    ∃ k s' c', loop k s = s'.process rest.text ∧ Agrees s' false c' ∧ s'.lineNo = lineNo + 1 ∧
      s'.stream = ⟨more, false, false⟩ ∧ s'.partialLine = [] ∧
      line.content.collect (lineNo + 1) c = rest.collect (lineNo + 1) c' := by
  have hiter := h.iteration_line
  have hagrees := h.agrees.fetched ⟨more, false, false⟩
  have hno : (s.fetched ⟨more, false, false⟩).lineNo = lineNo + 1 := congrArg (· + 1) h.lineNo
  have hone := loop_one h.good
  rcases hrest with hcontent | ⟨body, hcontent⟩
  · rw [hcontent] at hiter hagrees
    rw [Content.text, if_neg fun hempty => htext (List.isEmpty_iff.mp hempty)] at hiter
    refine ⟨1, _, c, ?_, hagrees, hno, rfl, h.partialLine, ?_⟩
    · rw [hone, hiter]
    · rw [hcontent]
      rfl
  · -- the rest behind the marker takes a second round
    rw [hcontent] at hiter hagrees
    obtain ⟨s', hs', hclosing, hline, hlineNo, hstream⟩ := hagrees.closing body rest
    rw [hno] at hclosing hlineNo
    rw [if_neg (by simp [Content.text]), hs'] at hiter
    have hgood : s'.stream.good = true := by rw [hstream]; rfl
    have hne : s'.partialLine ≠ [] := by rwa [hline]
    refine ⟨1 + 1, { s' with partialLine := [] }, c.add body.text (lineNo + 1), ?_,
      ⟨hclosing.reads, hclosing.flag, hclosing.running⟩, hlineNo, hstream, rfl, ?_⟩
    · rw [loop_add, hone, hiter, loop_one hgood, iteration_partial hne, hline]
    · rw [hcontent]
      rfl

/-- **The rounds on a line** on which no comment opens and closes. -/
theorem AtLine.line [PocoString] {line : Line} (h : AtLine s line.content.startsInside c (line.text ++ more) lineNo)
    (hsound : line.content.opensAndCloses = false) :
    ∃ k, AtLine (loop k s) line.content.endsInside (line.content.collect (lineNo + 1) c) more (lineNo + 1) := by
  have hiter := h.iteration_line
  have hagrees := h.agrees.fetched ⟨more, false, false⟩
  have hno : (s.fetched ⟨more, false, false⟩).lineNo = lineNo + 1 := congrArg (· + 1) h.lineNo
  have hone := loop_one h.good
  have hbehind {rest : Rest} (hrest : line.content = .outside rest ∨ ∃ body, line.content = .closing body rest)
      (htext : rest.text ≠ []) (hsound : rest.opensAndCloses = false) :
      ∃ k, AtLine (loop k s) rest.endsInside (line.content.collect (lineNo + 1) c) more (lineNo + 1) := by
    obtain ⟨k, s', c', hloop, hagrees', hlineNo, hstream, hline, hcollect⟩ := h.rest hrest htext
    obtain ⟨hends, hline', hlineNo'⟩ := hagrees'.rest htext hsound
    rw [hlineNo] at hends hlineNo'
    refine ⟨k, ?_⟩
    rw [hloop, hcollect]
    exact ⟨(process_stream _ _).trans hstream, hline'.trans hline, hlineNo', hends⟩
  cases hcontent : line.content with
  | outside rest =>
      rw [hcontent] at hiter hagrees hsound hbehind
      by_cases htext : rest.text = []
      · obtain ⟨hend, _, hcollect⟩ := Rest.of_text_nil htext (lineNo + 1) c
        rw [Content.text, if_pos (List.isEmpty_iff.mpr htext)] at hiter
        refine ⟨1, ?_⟩
        rw [hone, hiter, Content.endsInside, Content.collect, hend, hcollect]
        exact ⟨rfl, h.partialLine, hno, hagrees⟩
      · exact hbehind (.inl rfl) htext hsound
  | within body =>
      rw [hcontent] at hiter hagrees
      refine ⟨1, ?_⟩
      rw [hone, hiter]
      split
      · next hempty =>
          have hcollect : (Content.within body).collect (lineNo + 1) c = c := if_pos hempty
          rw [hcollect]
          exact ⟨rfl, h.partialLine, hno, hagrees⟩
      · obtain ⟨hbody, hline, hlineNo⟩ := hagrees.within body
        rw [hno] at hbody hlineNo
        exact ⟨process_stream _ _, hline.trans h.partialLine, hlineNo, hbody⟩
  | closing body rest =>
      rw [hcontent] at hiter hagrees hsound hbehind
      by_cases htext : rest.text = []
      · obtain ⟨s', hs', hclosing, hline, hlineNo, hstream⟩ := hagrees.closing body rest
        obtain ⟨hend, _, hcollect⟩ := Rest.of_text_nil htext (lineNo + 1) (c.add body.text (lineNo + 1))
        rw [hno] at hclosing hlineNo
        rw [if_neg (by simp [Content.text]), hs'] at hiter
        refine ⟨1, ?_⟩
        rw [hone, hiter, Content.endsInside, Content.collect, hend, hcollect]
        exact ⟨hstream, hline.trans htext, hlineNo, hclosing⟩
      · exact hbehind (.inr ⟨body, rfl⟩) htext hsound

/-! ### Where a round goes wrong -/

theorem pieces_process [PocoString] (s : Extractor) (line : Text) :
    s.collected.nonempty.pieces <+: (s.process line).collected.nonempty.pieces := by
  have hpush (text : Text) : s.collected.nonempty.pieces <+: (s.push text).collected.nonempty.pieces := by
    show _ <+: (s.collected.push ⟨text, s.lineNo⟩).nonempty.pieces
    rw [Collected.nonempty_push]
    exact Collected.pieces_add _ _ _
  rcases s.process_cases line with h | ⟨i, h⟩ | ⟨i, h⟩ | h <;> rw [h]
  · exact hpush _
  · exact hpush _
  · exact hpush _
  · rw [Collected.pieces_nonempty, Collected.pieces_nonempty, Collected.pieces_flush]

/-- What is collected stays collected. -/
theorem pieces_iteration [PocoString] (s : Extractor) :
    s.collected.nonempty.pieces <+: s.iteration.collected.nonempty.pieces := by
  unfold iteration
  split
  · dsimp only
    split
    · exact List.prefix_rfl
    · exact (s.fetched s.stream.getline.2).pieces_process _
  · exact pieces_process { s with partialLine := [] } _

theorem pieces_loop [PocoString] (k : Nat) (s : Extractor) :
    s.collected.nonempty.pieces <+: (loop k s).collected.nonempty.pieces := by
  induction k generalizing s with
  | zero => exact List.prefix_rfl
  | succ k ih =>
      rw [loop]
      split
      · exact s.pieces_iteration.trans (ih s.iteration)
      · exact List.prefix_rfl

theorem Agrees.pieces (h : Agrees s inside c) : s.collected.nonempty.pieces = c.pieces :=
  congrArg Collected.pieces h.reads.nonempty

end Extractor

theorem Rest.pieces_collect (lineNo : Nat) (rest : Rest) (c : Collected) :
    c.pieces <+: (rest.collect lineNo c).pieces := by
  induction rest generalizing c with
  | code code =>
      rw [Rest.collect]
      split
      · exact List.prefix_rfl
      · rw [Collected.pieces_flush]
  | slashes sl => exact Collected.pieces_add _ _ _
  | opened before body => exact Collected.pieces_add _ _ _
  | closed before body rest ih => exact (Collected.pieces_add _ _ _).trans (ih _)

theorem Content.pieces_collect (lineNo : Nat) (content : Content) (c : Collected) :
    c.pieces <+: (content.collect lineNo c).pieces := by
  cases content with
  | outside rest => exact rest.pieces_collect lineNo c
  | within body => exact Collected.pieces_add _ _ _
  | closing body rest => exact (Collected.pieces_add _ _ _).trans (rest.pieces_collect lineNo _)

theorem pieces_collectLines (lineNo : Nat) (contents : List Content) (c : Collected) :
    c.pieces <+: (collectLines lineNo contents c).pieces := by
  induction contents generalizing lineNo c with
  | nil => exact List.prefix_rfl
  | cons content contents ih => exact (content.pieces_collect (lineNo + 1) c).trans (ih _ _)

/-- The blocks differ where the comment lines do. -/
theorem blocks_ne {d e : Collected} (h : d.nonempty.pieces ≠ e.pieces) :
    nonempty d.flush.contiguousCommentBlocks ≠ e.flush.contiguousCommentBlocks := by
  intro heq
  apply h
  have hflat := congrArg List.flatten heq
  rw [Collected.flatten_flush] at hflat
  have hd : (nonempty d.flush.contiguousCommentBlocks).flatten = d.nonempty.pieces := by
    rw [Collected.pieces_nonempty, ← Collected.flatten_flush, nonempty, List.filter_flatten]
  rw [← hd, hflat]

/-- Two texts that go on differently after a common beginning. -/
theorem ne_of_pieces {pieces l l' : CodeBlock} {x y : CodeLine} (hx : pieces ++ [x] <+: l) (hy : pieces ++ [y] <+: l')
    (hxy : x ≠ y) : l ≠ l' := by
  intro heq
  subst heq
  have hpre : pieces ++ [x] <+: pieces ++ [y] := List.prefix_of_prefix_length_le hx hy (by simp)
  have heq := hpre.eq_of_length (by simp)
  exact hxy (List.cons.inj (List.append_cancel_left heq)).1

namespace Extractor

variable {s : Extractor} {inside : Bool} {c : Collected} {more : Text} {lineNo : Nat}

/-- **A comment that opens and closes on the line**: the loop collects another text than the
source has. -/
theorem Agrees.diverges [PocoString] (h : Agrees s false c) (before : Before) (body : Body) (rest : Rest) :
    ∃ x y, x ≠ y ∧
      (s.process (Rest.closed before body rest).text).collected.nonempty.pieces = c.pieces ++ [x] ∧
      c.pieces ++ [y] <+: ((Rest.closed before body rest).collect s.lineNo c).pieces := by
  refine ⟨⟨'/' :: '*' :: (body.text ++ '*' :: '/' :: rest.text), s.lineNo⟩, ⟨'/' :: '*' :: body.text, s.lineNo⟩,
    ?_, ?_, ?_⟩
  · intro heq
    have hlength := congrArg (·.text.length) heq
    simp at hlength
  · rw [Rest.text, process_opened h.flag]
    show (s.collected.push ⟨_, s.lineNo⟩).nonempty.pieces = _
    rw [Collected.nonempty_push, h.reads.nonempty, Collected.add_eq (List.cons_ne_nil _ _), Collected.pieces_push]
  · rw [Rest.collect, Collected.add_eq (List.cons_ne_nil _ _), ← Collected.pieces_push]
    exact rest.pieces_collect _ _

/-- A line on which a comment opens and closes. -/
theorem AtLine.diverges [PocoString] {line : Line} (h : AtLine s line.content.startsInside c (line.text ++ more) lineNo)
    (hbad : line.content.opensAndCloses = true) :
    ∃ k pieces x y, x ≠ y ∧ (loop k s).collected.nonempty.pieces = pieces ++ [x] ∧
      pieces ++ [y] <+: (line.content.collect (lineNo + 1) c).pieces := by
  have hrest : ∃ before body rest, line.content = .outside (.closed before body rest) ∨
      ∃ body', line.content = .closing body' (.closed before body rest) := by
    match line.content, hbad with
    | .outside (.closed before body rest), _ => exact ⟨before, body, rest, .inl rfl⟩
    | .closing body' (.closed before body rest), _ => exact ⟨before, body, rest, .inr ⟨body', rfl⟩⟩
  obtain ⟨before, body, rest, hrest⟩ := hrest
  obtain ⟨k, s', c', hloop, hagrees, hlineNo, _, _, hcollect⟩ := h.rest hrest (by simp [Rest.text])
  obtain ⟨x, y, hxy, hx, hy⟩ := hagrees.diverges before body rest
  refine ⟨k, c'.pieces, x, y, hxy, ?_, ?_⟩
  · rw [hloop, hx]
  · rw [hcollect, ← hlineNo]
    exact hy

/-! ### Whole texts -/

/-- The loop ends in `t`. -/
def Ends [PocoString] (s t : Extractor) : Prop := ∃ rounds, loop rounds s = t ∧ t.stream.good = false

theorem exists_ends [PocoString] (s : Extractor) : ∃ t, Ends s t :=
  ⟨_, s.weight + 1, rfl, loop_stops (Nat.lt_succ_self _)⟩

theorem Ends.of_loop [PocoString] {t : Extractor} {k : Nat} (h : Ends (loop k s) t) : Ends s t := by
  obtain ⟨rounds, hloop, hend⟩ := h
  exact ⟨k + rounds, by rw [loop_add, hloop], hend⟩

/-- Any number of rounds leads on to the end. -/
theorem Ends.from_loop [PocoString] {t : Extractor} (h : Ends s t) (k : Nat) :
    ∃ rounds, loop rounds (loop k s) = t := by
  obtain ⟨rounds, hloop, hend⟩ := h
  refine ⟨rounds, ?_⟩
  rw [← loop_add, Nat.add_comm, loop_add, hloop, loop_of_not_good hend]

/-- **The last line**, which has no end: what is behind a closing marker is not looked at. -/
theorem AtLine.last [PocoString] {last : Content} (hlast : last.text.getLast? ≠ some '\r')
    (h : AtLine s last.startsInside c last.text lineNo) (hend : last.endsInside = false) :
    ∃ t, Ends s t ∧
      (nonempty t.collected.flush.contiguousCommentBlocks =
          (last.collect (lineNo + 1) c).flush.contiguousCommentBlocks ↔
        last.opensAndCloses = false ∧ last.slashesBehind = false) := by
  have hiter := h.iteration_last hlast
  have hagrees := h.agrees.fetched ⟨[], true, last.text.isEmpty⟩
  have hno : (s.fetched ⟨[], true, last.text.isEmpty⟩).lineNo = lineNo + 1 := congrArg (· + 1) h.lineNo
  have hone := loop_one h.good
  cases last with
  | outside rest =>
      by_cases htext : rest.text = []
      · obtain ⟨_, hsound, hcollect⟩ := Rest.of_text_nil htext (lineNo + 1) c
        rw [Content.text, if_pos (List.isEmpty_iff.mpr htext)] at hiter
        refine ⟨s.iteration, ⟨1, hone, by rw [hiter]; rfl⟩, iff_of_true ?_ ⟨hsound, rfl⟩⟩
        rw [hiter, Content.collect, hcollect]
        exact hagrees.reads.blocks
      · rw [Content.text, if_neg fun hempty => htext (List.isEmpty_iff.mp hempty)] at hiter
        refine ⟨s.iteration, ⟨1, hone, by rw [hiter, process_stream]; rfl⟩, ?_⟩
        rw [hiter, Content.collect]
        cases hbad : rest.opensAndCloses with
        | false =>
            obtain ⟨hends, _, _⟩ := hagrees.rest htext hbad
            rw [hno] at hends
            exact iff_of_true hends.reads.blocks ⟨hbad, rfl⟩
        | true =>
            refine iff_of_false (blocks_ne ?_) fun hsound => absurd (hbad.symm.trans hsound.1) (by decide)
            cases rest with
            | code code => cases hbad
            | slashes sl => cases hbad
            | opened before body => cases hbad
            | closed before body rest =>
                obtain ⟨x, y, hxy, hx, hy⟩ := hagrees.diverges before body rest
                rw [hno] at hy
                exact ne_of_pieces (hx ▸ List.prefix_rfl) hy hxy
  | within body => cases hend
  | closing body rest =>
      obtain ⟨t, ht, hclosing, _, _, hstream⟩ := hagrees.closing body rest
      rw [hno] at hclosing
      rw [if_neg (by simp [Content.text]), ht] at hiter
      refine ⟨t, ⟨1, hone.trans hiter, by rw [hstream]; rfl⟩, ?_⟩
      -- a comment line behind the marker is missed
      have hmissed (line : CodeLine) (hline : (c.add body.text (lineNo + 1)).pieces ++ [line] <+:
          (rest.collect (lineNo + 1) (c.add body.text (lineNo + 1))).pieces) :
          nonempty t.collected.flush.contiguousCommentBlocks ≠
            ((Content.closing body rest).collect (lineNo + 1) c).flush.contiguousCommentBlocks := by
        apply blocks_ne
        rw [hclosing.pieces]
        intro heq
        have hlength := hline.length_le
        rw [Content.collect] at heq
        rw [← heq, List.length_append, List.length_singleton] at hlength
        omega
      cases rest with
      | code code =>
          refine iff_of_true ?_ ⟨rfl, rfl⟩
          rw [hclosing.reads.blocks, Content.collect, Rest.collect]
          split
          · rfl
          · rw [Collected.flush_flush]
      | slashes sl =>
          refine iff_of_false (hmissed ⟨sl.text, lineNo + 1⟩ ?_) (fun h => by cases h.2)
          rw [Rest.collect, Collected.add_eq (by simp [Slashes.text]) (c.add body.text (lineNo + 1)),
            Collected.pieces_push]
      | opened before body' => cases hend
      | closed before body' rest =>
          refine iff_of_false (hmissed ⟨'/' :: '*' :: body'.text, lineNo + 1⟩ ?_)
            (fun h => by cases h.1)
          rw [Rest.collect, Collected.add_eq (List.cons_ne_nil _ _), ← Collected.pieces_push]
          exact rest.pieces_collect _ _

/-- **From the beginning of a line to the end**: the blocks are those of the lines that are left
if no comment opens and closes on one of them, and no comment is missed on the last. -/
theorem AtLine.lines [PocoString] {lines : List Line} {last : Content} (hlast : last.text.getLast? ≠ some '\r')
    (h : AtLine s inside c (lines.flatMap Line.text ++ last.text) lineNo)
    (hchained : Chained inside (lines.map (·.content) ++ [last])) :
    ∃ t, Ends s t ∧
      (nonempty t.collected.flush.contiguousCommentBlocks =
          (collectLines lineNo (lines.map (·.content) ++ [last]) c).flush.contiguousCommentBlocks ↔
        (∀ line ∈ lines, line.content.opensAndCloses = false) ∧
          last.opensAndCloses = false ∧ last.slashesBehind = false) := by
  induction lines generalizing s inside c lineNo with
  | nil =>
      obtain ⟨rfl, hend⟩ := hchained
      obtain ⟨t, ht, hiff⟩ := AtLine.last hlast h hend
      refine ⟨t, ht, ?_⟩
      rw [and_iff_right (fun _ hline => nomatch hline)]
      exact hiff
  | cons line lines ih =>
      obtain ⟨rfl, hchained⟩ := hchained
      rw [List.flatMap_cons, List.append_assoc] at h
      rw [List.forall_mem_cons, and_assoc]
      cases hbad : line.content.opensAndCloses with
      | false =>
          obtain ⟨k, hnext⟩ := h.line hbad
          obtain ⟨t, ht, hiff⟩ := ih hnext hchained
          refine ⟨t, ht.of_loop, ?_⟩
          rw [and_iff_right rfl]
          exact hiff
      | true =>
          obtain ⟨t, ht⟩ := exists_ends s
          obtain ⟨k, pieces, x, y, hxy, hx, hy⟩ := h.diverges hbad
          obtain ⟨rounds, hrounds⟩ := ht.from_loop k
          refine ⟨t, ht, iff_of_false (blocks_ne (@ne_of_pieces pieces _ _ _ _ ?_ ?_ hxy)) ?_⟩
          · rw [← hx, ← hrounds]
            exact pieces_loop rounds _
          · exact hy.trans (pieces_collectLines _ _ _)
          · intro h
            cases h.1

end Extractor

/-- **Comment extraction.** The loop ends on every text. The comment lines of a source text are
extracted, and nothing else, exactly when no comment opens and closes on one line and no `//`
comment is behind the closing marker of a last line without a line end. -/
theorem extracted_iff [PocoString] (text : Text) (source : Source) :
    (∃ blocks, extractContiguousBlocks text = .ok blocks) ∧
      (source.Extracted ↔
        (∀ line ∈ source.lines, line.content.opensAndCloses = false) ∧
          source.last.opensAndCloses = false ∧ source.last.slashesBehind = false) := by
  refine ⟨⟨_, extractContiguousBlocks_ok text⟩, ?_⟩
  have hstart : Extractor.AtLine (.start source.text) false ⟨[], []⟩ source.text 0 :=
    ⟨rfl, rfl, rfl, ⟨⟨rfl, fun h => absurd rfl h⟩, rfl, fun h => absurd h Bool.false_ne_true⟩⟩
  obtain ⟨t, ht, hiff⟩ := hstart.lines source.lastNoReturn source.chained
  have hstops : (Extractor.loop (source.text.length + 1) (.start source.text)).stream.good = false :=
    Extractor.loop_stops (Nat.lt_succ_self _)
  have hend : Extractor.loop (source.text.length + 1) (.start source.text) = t := by
    obtain ⟨rounds, hrounds⟩ := ht.from_loop (source.text.length + 1)
    rw [← hrounds, Extractor.loop_of_not_good hstops]
  rw [← hiff, Source.Extracted, extractContiguousBlocks_ok, hend]
  constructor
  · intro h
    obtain ⟨blocks, hblocks, h⟩ := h
    rw [Except.ok.inj hblocks]
    exact h
  · intro h
    exact ⟨_, rfl, h⟩

/-- A comment on one line, and a line of code. -/
def commentAndCode : Source where
  lines :=
    [⟨.outside (.closed ⟨⟨[], by decide, by decide, by decide⟩, by decide⟩ ⟨" a ".toList, by decide, by decide⟩
        (.code ⟨[], by decide, by decide, by decide⟩)), false, by decide⟩,
      ⟨.outside (.code ⟨"int x;".toList, by decide, by decide, by decide⟩), false, by decide⟩]
  last := .outside (.code ⟨[], by decide, by decide, by decide⟩)
  lastNoReturn := by decide
  chained := ⟨rfl, rfl, rfl, rfl⟩

/-- The code counts as a comment line. -/
theorem not_extracted_commentAndCode :
    commentAndCode.text = "/* a */\nint x;\n".toList ∧
      extractContiguousBlocks commentAndCode.text = .ok [[⟨"/* a */".toList, 1⟩, ⟨"int x;".toList, 2⟩]] ∧
      ¬ commentAndCode.Extracted := by
  have hblocks : extractContiguousBlocks commentAndCode.text =
      .ok [[⟨"/* a */".toList, 1⟩, ⟨"int x;".toList, 2⟩]] := by decide
  refine ⟨by decide, hblocks, ?_⟩
  intro h
  obtain ⟨blocks, hextracted, h⟩ := h
  rw [hblocks] at hextracted
  cases hextracted
  exact absurd h (by decide)

end PothosCore.Util.BlockDescription

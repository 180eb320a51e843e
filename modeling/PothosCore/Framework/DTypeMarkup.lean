import PothosCore.Framework.ElementTypes

/-!
# PothosCore.Framework.DTypeMarkup

A `DType` made of a markup, an alias or an alias, a comma and a dimension, and the markup
of a `DType`. The markup of a type is read back as that type.

The dimension is read by `std::stoull`, and neither where it stopped nor what it returned is
looked at: a sign, a zero and anything behind the digits pass, and so does a dimension with
which the size of the type does not fit.
-/

namespace PothosCore.Framework

open Lib Util

/-! ### `std::stoull` -/

/-- The number with the digits. -/
def decimal (digits : Text) : Nat := Nat.ofDigitChars 10 digits 0

/-- A text as `strtoull` takes it apart. -/
structure Numeral where
  sign : Text
  digits : Text
  /-- What is behind the last digit. -/
  rest : Text

namespace Numeral

def value (n : Numeral) : Nat := decimal n.digits

/-- An optional sign, then as many digits as there are. -/
def ofText (text : Text) : Numeral :=
  match text.dropWhile isspace with
  | '+' :: text => ⟨['+'], text.takeWhile Char.isDigit, text.dropWhile Char.isDigit⟩
  | '-' :: text => ⟨['-'], text.takeWhile Char.isDigit, text.dropWhile Char.isDigit⟩
  | text => ⟨[], text.takeWhile Char.isDigit, text.dropWhile Char.isDigit⟩

end Numeral

/-- `std::stoull`; none where it throws. -/
def stoull (text : Text) : Option Nat :=
  let n := Numeral.ofText text
  -- no conversion, or out of range
  if n.digits.isEmpty || 2 ^ 64 ≤ n.value then none
  else some (if n.sign = ['-'] then SizeT.sub 0 n.value else n.value)

/-! ### The parser and the printer -/

open ElementTypeSuperMap

/-- `parseMarkupName`: the element type and the dimension. -/
def parseMarkupName [PocoString] (markup : Text) : Except Fault (ElementType × Nat) :=
  match markup.dropWhile (· != ',') with
  | [] => do
      let type ← lookupAlias markup
      return (type, 1)
  | _ :: text => do
      let name := PocoString.trim (markup.takeWhile (· != ','))
      let dimStr := PocoString.trim text
      match stoull dimStr with
      | none => .error (unknownError markup "can't parse markup: stoull")
      | some dimension =>
          let type ← lookupAlias name
          return (type, dimension)

namespace DType

/-- `DType(markup)` -/
def ofMarkup [PocoString] (markup : Text) : Except Fault DType := do
  let (type, dimension) ← parseMarkupName markup
  return ofElementType type dimension

def toMarkup (d : DType) : String :=
  if d.dimension ≠ 1 ∨ d.isCustom then d.name ++ ", " ++ Nat.repr d.dimension else d.name

end DType

/-- `elements()` -/
def BufferChunk.elementsOf (c : BufferChunk) : Except Fault Nat :=
  if c.dtype.sizeT = 0 then .error (.undefined "length/dtype.size()") else .ok c.elements

/-! ### How a number is read -/

def White (text : Text) : Prop := ∀ ch ∈ text, isspace ch = true

theorem white_nil : White [] := fun _ h => nomatch h

theorem White.append {w w' : Text} (hw : White w) (hw' : White w') : White (w ++ w') := fun ch hch =>
  (List.mem_append.mp hch).elim (hw ch) (hw' ch)

/-- The text is the numeral behind white space. -/
structure Reads (text : Text) (n : Numeral) : Prop where
  text_eq : ∃ w, White w ∧ text = w ++ (n.sign ++ (n.digits ++ n.rest))
  sign : n.sign = [] ∨ n.sign = ['+'] ∨ n.sign = ['-']
  digits_ne_nil : n.digits ≠ []
  digits : ∀ ch ∈ n.digits, ch.isDigit = true
  /-- The digits are all there are. -/
  rest : ∀ ch ∈ n.rest.head?, ch.isDigit = false

theorem isDigit_bounds {ch : Char} (h : ch.isDigit = true) : 48 ≤ ch.toNat ∧ ch.toNat ≤ 57 := by
  rw [Char.isDigit, Bool.and_eq_true, decide_eq_true_eq, decide_eq_true_eq] at h
  exact ⟨UInt32.le_iff_toNat_le.mp h.1, UInt32.le_iff_toNat_le.mp h.2⟩

theorem not_isspace_of_isDigit {ch : Char} (h : ch.isDigit = true) : isspace ch = false := by
  have hbounds := isDigit_bounds h
  have hne : (ch == ' ') = false := by
    rw [beq_eq_false_iff_ne]
    rintro rfl
    cases h
  rw [isspace, hne, Bool.false_or]
  grind

/-- **A text is taken apart** in one way. -/
theorem Reads.ofText_eq {text : Text} {n : Numeral} (h : Reads text n) : Numeral.ofText text = n := by
  obtain ⟨sign, digits, rest⟩ := n
  obtain ⟨⟨w, hw, htext⟩, hsign, hne, hdigits, hrest⟩ := h
  have htake : (digits ++ rest).takeWhile Char.isDigit = digits := by
    rw [List.takeWhile_append_of_pos hdigits]
    cases rest with
    | nil => rw [List.takeWhile_nil, List.append_nil]
    | cons ch rest =>
        have hch : ¬ch.isDigit = true := by
          rw [hrest ch rfl]
          exact Bool.false_ne_true
        rw [List.takeWhile_cons_of_neg hch, List.append_nil]
  have hdrop : (digits ++ rest).dropWhile Char.isDigit = rest := by
    rw [List.dropWhile_append_of_pos hdigits, dropWhile_of_head hrest]
  have hmk : ∀ sign : Text, Numeral.mk sign ((digits ++ rest).takeWhile Char.isDigit)
      ((digits ++ rest).dropWhile Char.isDigit) = ⟨sign, digits, rest⟩ := by
    intro sign
    rw [htake, hdrop]
  obtain ⟨digit, digits', rfl⟩ := List.exists_cons_of_ne_nil hne
  have hdigit : digit.isDigit = true := hdigits digit List.mem_cons_self
  have hspace : text.dropWhile isspace = sign ++ (digit :: digits' ++ rest) := by
    rw [htext, List.dropWhile_append_of_pos hw]
    apply dropWhile_of_head
    rcases hsign with rfl | rfl | rfl
    · rintro ch ⟨⟩
      exact not_isspace_of_isDigit hdigit
    · rintro ch ⟨⟩
      rfl
    · rintro ch ⟨⟩
      rfl
  rw [Numeral.ofText, hspace]
  rcases hsign with rfl | rfl | rfl
  · -- a digit is no sign
    split
    · next heq =>
        cases heq
        cases hdigit
    · next heq =>
        cases heq
        cases hdigit
    · exact hmk []
  · exact hmk ['+']
  · exact hmk ['-']

/-- Behind the sign are the digits, then the rest. -/
theorem reads_of_sign {text sign tail : Text} (hspace : text.dropWhile isspace = sign ++ tail)
    (hsign : sign = [] ∨ sign = ['+'] ∨ sign = ['-']) (hne : tail.takeWhile Char.isDigit ≠ []) :
    Reads text ⟨sign, tail.takeWhile Char.isDigit, tail.dropWhile Char.isDigit⟩ where
  text_eq := by
    refine ⟨text.takeWhile isspace, fun ch hch => List.mem_takeWhile_imp hch, ?_⟩
    rw [List.takeWhile_append_dropWhile, ← hspace, List.takeWhile_append_dropWhile]
  sign := hsign
  digits_ne_nil := hne
  digits ch hch := List.mem_takeWhile_imp hch
  rest ch hch := dropWhile_head hch

theorem reads_ofText {text : Text} (h : (Numeral.ofText text).digits ≠ []) : Reads text (Numeral.ofText text) := by
  rw [Numeral.ofText] at h ⊢
  split at h
  · next heq => exact reads_of_sign heq (.inr (.inl rfl)) h
  · next heq => exact reads_of_sign heq (.inr (.inr rfl)) h
  · exact reads_of_sign rfl (.inl rfl) h

theorem stoull_of_reads {text : Text} {n : Numeral} (h : Reads text n) (hvalue : n.value < 2 ^ 64) :
    stoull text = some (if n.sign = ['-'] then SizeT.sub 0 n.value else n.value) := by
  have hno : (n.digits.isEmpty || decide (2 ^ 64 ≤ n.value)) = false := by
    rw [Bool.or_eq_false_iff, List.isEmpty_eq_false_iff, decide_eq_false_iff_not]
    exact ⟨h.digits_ne_nil, by omega⟩
  rw [stoull, h.ofText_eq]
  simp only [hno, Bool.false_eq_true, if_false]

/-- A number is returned where there is one, and it fits. -/
theorem reads_of_stoull {text : Text} {value : Nat} (h : stoull text = some value) :
    ∃ n, Reads text n ∧ n.value < 2 ^ 64 := by
  refine ⟨Numeral.ofText text, ?_⟩
  rw [stoull] at h
  split at h
  · cases h
  · next hno =>
      rw [Bool.not_eq_true, Bool.or_eq_false_iff, List.isEmpty_eq_false_iff, decide_eq_false_iff_not] at hno
      exact ⟨reads_ofText hno.1, by omega⟩

theorem reads_digits {digits : Text} (hne : digits ≠ []) (hdigits : ∀ ch ∈ digits, ch.isDigit = true) :
    Reads digits ⟨[], digits, []⟩ where
  text_eq := by
    refine ⟨[], white_nil, ?_⟩
    rw [List.nil_append, List.nil_append, List.append_nil]
  sign := .inl rfl
  digits_ne_nil := hne
  digits := hdigits
  rest _ h := nomatch h

theorem trimmed_digits {digits : Text} (hdigits : ∀ ch ∈ digits, ch.isDigit = true) : Trimmed isspace digits :=
  trimmed_of_all fun ch hch => not_isspace_of_isDigit (hdigits ch hch)

/-! ### The parts of a markup -/

/-- A name, a comma and a text, with white space around the two. -/
def Parts (markup name text : Text) : Prop :=
  ∃ w₁ w₂ w₃ w₄, White w₁ ∧ White w₂ ∧ White w₃ ∧ White w₄ ∧
    markup = w₁ ++ name ++ w₂ ++ ',' :: (w₃ ++ text ++ w₄)

variable {markup name text : Text}

theorem Parts.comma (h : Parts markup name text) : ',' ∈ markup := by
  obtain ⟨w₁, w₂, w₃, w₄, -, -, -, -, rfl⟩ := h
  exact List.mem_append_right _ List.mem_cons_self

/-- Where the parser splits. -/
theorem span_comma {before : Text} (h : ',' ∉ before) (after : Text) :
    (before ++ ',' :: after).takeWhile (· != ',') = before ∧
      (before ++ ',' :: after).dropWhile (· != ',') = ',' :: after := by
  have hbefore : ∀ ch ∈ before, (ch != ',') = true := by
    intro ch hch
    rw [bne_iff_ne]
    rintro rfl
    exact h hch
  rw [List.takeWhile_append_of_pos hbefore, List.dropWhile_append_of_pos hbefore]
  exact ⟨List.append_nil before, rfl⟩

/-- The parts are those that the parser makes, if they have no white space of their own around them. -/
theorem Parts.split (h : Parts markup name text) (hcomma : ',' ∉ name) (hname : Trimmed isspace name)
    (htext : Trimmed isspace text) :
    trim isspace (markup.takeWhile (· != ',')) = name ∧
      ∃ tail, markup.dropWhile (· != ',') = ',' :: tail ∧ trim isspace tail = text := by
  obtain ⟨w₁, w₂, w₃, w₄, hw₁, hw₂, hw₃, hw₄, rfl⟩ := h
  have hwhite : ∀ {w : Text}, White w → ',' ∉ w := fun hw hmem => by cases hw ',' hmem
  have hbefore : ',' ∉ w₁ ++ name ++ w₂ := by
    rw [List.mem_append, List.mem_append]
    rintro ((h | h) | h)
    · exact hwhite hw₁ h
    · exact hcomma h
    · exact hwhite hw₂ h
  obtain ⟨htake, hdrop⟩ := span_comma hbefore (w₃ ++ text ++ w₄)
  refine ⟨?_, w₃ ++ text ++ w₄, hdrop, trim_eq hw₃ hw₄ htext⟩
  rw [htake]
  exact trim_eq hw₁ hw₂ hname

/-- A text with a comma has parts. -/
theorem exists_parts (h : ',' ∈ markup) :
    ∃ name text, Parts markup name text ∧ ',' ∉ name ∧ Trimmed isspace name ∧ Trimmed isspace text := by
  obtain ⟨before, after, rfl, hbefore⟩ := List.eq_append_cons_of_mem h
  obtain ⟨w₁, w₂, hw₁, hw₂, hname⟩ := trim_split isspace before
  obtain ⟨w₃, w₄, hw₃, hw₄, htext⟩ := trim_split isspace after
  refine ⟨trim isspace before, trim isspace after, ⟨w₁, w₂, w₃, w₄, hw₁, hw₂, hw₃, hw₄, ?_⟩, ?_,
    trimmed_trim isspace before, trimmed_trim isspace after⟩
  · rw [← hname, ← htext]
  · intro hmem
    rw [hname] at hbefore
    exact hbefore (List.mem_append_left _ (List.mem_append_right _ hmem))

theorem parseMarkupName_of_parts [PocoString] (h : Parts markup name text) (hcomma : ',' ∉ name)
    (hname : Trimmed isspace name) (htext : Trimmed isspace text) {type : ElementType} {dimension : Nat} :
    parseMarkupName markup = .ok (type, dimension) ↔ lookupAlias name = .ok type ∧ stoull text = some dimension := by
  obtain ⟨hsplit, tail, hdrop, htail⟩ := h.split hcomma hname htext
  rw [parseMarkupName, hdrop]
  dsimp only
  rw [PocoString.trim_eq, PocoString.trim_eq, hsplit, htail]
  cases stoull text with
  | none => exact iff_of_false (fun h => nomatch h) (fun h => nomatch h.2)
  | some value =>
      cases lookupAlias name with
      | error fault => exact iff_of_false (fun h => nomatch h) (fun h => nomatch h.1)
      | ok found =>
          constructor
          · rintro ⟨⟩
            exact ⟨rfl, rfl⟩
          · rintro ⟨⟨⟩, ⟨⟩⟩
            rfl

theorem parseMarkupName_of_no_comma [PocoString] (h : ',' ∉ markup) {type : ElementType} {dimension : Nat} :
    parseMarkupName markup = .ok (type, dimension) ↔ lookupAlias markup = .ok type ∧ dimension = 1 := by
  have hdrop : markup.dropWhile (· != ',') = [] := by
    rw [List.dropWhile_eq_nil_iff]
    intro ch hch
    rw [bne_iff_ne]
    rintro rfl
    exact h hch
  rw [parseMarkupName, hdrop]
  dsimp only
  cases lookupAlias markup with
  | error fault => exact iff_of_false (fun h => nomatch h) (fun h => nomatch h.1)
  | ok found =>
      constructor
      · rintro ⟨⟩
        exact ⟨rfl, rfl⟩
      · rintro ⟨⟨⟩, rfl⟩
        rfl

theorem ofMarkup_ok [PocoString] {d : DType} :
    DType.ofMarkup markup = .ok d ↔
      ∃ type dimension, parseMarkupName markup = .ok (type, dimension) ∧ DType.ofElementType type dimension = d := by
  rw [DType.ofMarkup]
  cases parseMarkupName markup with
  | error fault => exact iff_of_false (fun h => nomatch h) (fun ⟨_, _, h, _⟩ => nomatch h)
  | ok parsed =>
      constructor
      · rintro ⟨⟩
        exact ⟨parsed.1, parsed.2, rfl, rfl⟩
      · rintro ⟨type, dimension, ⟨⟩, rfl⟩
        rfl

/-- A known alias and a number that `stoull` reads. -/
theorem ofMarkup_of_parts [PocoString] (h : Parts markup name text) {type : ElementType} (hknown : KnownAs name type)
    (hcapital : ¬Capital name) (htext : Trimmed isspace text) {n : Numeral} (hreads : Reads text n)
    (hvalue : n.value < 2 ^ 64) :
    DType.ofMarkup markup =
      .ok (DType.ofElementType type (if n.sign = ['-'] then SizeT.sub 0 n.value else n.value)) := by
  obtain ⟨hcomma, hname⟩ := hknown.plain
  refine ofMarkup_ok.mpr ⟨type, _, ?_, rfl⟩
  rw [parseMarkupName_of_parts h hcomma hname htext]
  exact ⟨lookupAlias_ok.mpr ⟨hknown, hcapital⟩, stoull_of_reads hreads hvalue⟩

/-! ### The round trip -/

theorem sizeT_pos_of_fits {type : ElementType} {dimension : Nat} (hpos : 0 < dimension)
    (hfits : type.elemSize * dimension < 2 ^ 64) : 0 < (DType.ofElementType type dimension).sizeT := by
  have hsize : (DType.ofElementType type dimension).sizeT = type.elemSize * dimension := SizeT.mul_eq hfits
  rw [hsize]
  exact Nat.mul_pos type.elemSize_pos hpos

/-- **A type is read back from its markup.** -/
theorem ofMarkup_toMarkup [PocoString] (type : ElementType) {dimension : Nat} (hdimension : dimension < 2 ^ 64) :
    DType.ofMarkup (DType.ofElementType type dimension).toMarkup.toList = .ok (DType.ofElementType type dimension) := by
  have hfound := lookupAlias_name type dimension
  obtain ⟨hknown, hcapital⟩ := lookupAlias_ok.mp hfound
  rw [DType.toMarkup]
  split
  · have hdigits : ∀ ch ∈ Nat.toDigits 10 dimension, ch.isDigit = true := fun ch hch =>
      Nat.isDigit_of_mem_toDigits (by decide) (by decide) hch
    have hreads := reads_digits Nat.toDigits_ne_nil hdigits
    have hvalue : decimal (Nat.toDigits 10 dimension) = dimension := Nat.ofDigitChars_ten_toDigits
    have hspace : White [' '] := by
      intro ch hch
      rw [List.mem_singleton.mp hch]
      rfl
    have hparts : Parts ((DType.ofElementType type dimension).name ++ ", " ++
        Nat.repr (DType.ofElementType type dimension).dimension).toList
        (DType.ofElementType type dimension).name.toList (Nat.toDigits 10 dimension) := by
      refine ⟨[], [], [' '], [], white_nil, white_nil, hspace, white_nil, ?_⟩
      rw [String.toList_append, String.toList_append, Nat.toList_repr, List.nil_append, List.append_nil,
        List.append_nil, List.append_assoc]
      rfl
    have hlt : Numeral.value ⟨[], Nat.toDigits 10 dimension, []⟩ < 2 ^ 64 := hvalue.trans_lt hdimension
    rw [ofMarkup_of_parts hparts hknown hcapital (trimmed_digits hdigits) hreads hlt,
      if_neg (List.cons_ne_nil _ _).symm]
    exact congrArg (fun n => Except.ok (DType.ofElementType type n)) hvalue
  · next hone =>
      have hdimension : dimension = 1 := by
        by_contra hne
        exact hone (.inl hne)
      subst hdimension
      exact ofMarkup_ok.mpr ⟨type, 1, (parseMarkupName_of_no_comma hknown.plain.1).mpr ⟨hfound, rfl⟩, rfl⟩

/-! ### Strictness -/

/-- A plain positive decimal number with which the size of the type fits. -/
structure PlainNumber (type : ElementType) (digits : Text) : Prop where
  ne_nil : digits ≠ []
  isDigit : ∀ ch ∈ digits, ch.isDigit = true
  pos : 0 < decimal digits
  fits : type.elemSize * decimal digits < 2 ^ 64

/-- A known alias, or a known alias, a comma and a plain number. -/
def Strict (markup : Text) : Prop :=
  (∃ type, KnownAs markup type) ∨
    ∃ name digits type, Parts markup name digits ∧ KnownAs name type ∧ PlainNumber type digits

/-- `elements()` does not divide by zero. -/
def Divisible (d : DType) : Prop := ∀ chunk : BufferChunk, chunk.dtype = d → ∃ n, chunk.elementsOf = .ok n

/-- Types are made of the strict markups only, and of all of them, and have a size. -/
def ReadStrictly [PocoString] (markup : Text) : Prop :=
  ((∃ d, DType.ofMarkup markup = .ok d) ↔ Strict markup) ∧
    ∀ d, DType.ofMarkup markup = .ok d → 0 < d.sizeT ∧ Divisible d

/-- A number in range that has a sign, or something behind it, or is zero, or too large for the type. -/
structure Lenient (type : ElementType) (n : Numeral) : Prop where
  lt : n.value < 2 ^ 64
  lenient : n.sign ≠ [] ∨ n.rest ≠ [] ∨ n.value = 0 ∨ 2 ^ 64 ≤ type.elemSize * n.value

/-- The markups that are read otherwise: the alias has a capital letter in the table, or the
number is not plain but read as one. -/
def Misread (markup : Text) : Prop :=
  Capital markup ∨
    (∃ name digits type, Parts markup name digits ∧ KnownAs name type ∧ Capital name ∧ PlainNumber type digits) ∨
    ∃ name text type n, Parts markup name text ∧ Trimmed isspace text ∧ KnownAs name type ∧ ¬Capital name ∧
      Reads text n ∧ Lenient type n

theorem PlainNumber.lt {type : ElementType} {digits : Text} (h : PlainNumber type digits) : decimal digits < 2 ^ 64 :=
  (Nat.le_mul_of_pos_left _ type.elemSize_pos).trans_lt h.fits

/-- A strict markup with a number makes the type it names. -/
theorem ofMarkup_of_plain [PocoString] {digits : Text} {type : ElementType} (h : Parts markup name digits)
    (hknown : KnownAs name type) (hcapital : ¬Capital name) (hplain : PlainNumber type digits) :
    DType.ofMarkup markup = .ok (DType.ofElementType type (decimal digits)) := by
  have hreads := reads_digits hplain.ne_nil hplain.isDigit
  rw [ofMarkup_of_parts h hknown hcapital (trimmed_digits hplain.isDigit) hreads hplain.lt,
    if_neg (List.cons_ne_nil _ _).symm]
  rfl

/-- So does an alias alone. -/
theorem ofMarkup_of_known [PocoString] {type : ElementType} (hknown : KnownAs markup type)
    (hcapital : ¬Capital markup) :
    DType.ofMarkup markup = .ok (DType.ofElementType type 1) :=
  ofMarkup_ok.mpr ⟨type, 1, (parseMarkupName_of_no_comma hknown.plain.1).mpr
    ⟨lookupAlias_ok.mpr ⟨hknown, hcapital⟩, rfl⟩, rfl⟩

theorem known_of_ofMarkup [PocoString] {d : DType} (h : DType.ofMarkup markup = .ok d) (hcomma : ',' ∉ markup) :
    ∃ type, KnownAs markup type ∧ ¬Capital markup := by
  obtain ⟨type, dimension, hparse, -⟩ := ofMarkup_ok.mp h
  exact ⟨type, lookupAlias_ok.mp ((parseMarkupName_of_no_comma hcomma).mp hparse).1⟩

/-- What the parts of a markup are of which a type is made. -/
theorem reads_of_ofMarkup [PocoString] {d : DType} (h : DType.ofMarkup markup = .ok d) (hparts : Parts markup name text)
    (hcomma : ',' ∉ name) (hname : Trimmed isspace name) (htext : Trimmed isspace text) :
    (∃ type, KnownAs name type ∧ ¬Capital name) ∧ ∃ n, Reads text n ∧ n.value < 2 ^ 64 := by
  obtain ⟨type, dimension, hparse, -⟩ := ofMarkup_ok.mp h
  obtain ⟨hfound, hread⟩ := (parseMarkupName_of_parts hparts hcomma hname htext).mp hparse
  exact ⟨⟨type, lookupAlias_ok.mp hfound⟩, reads_of_stoull hread⟩

/-- What is neither lenient nor out of range is a plain number behind white space. -/
theorem plain_of_reads {type : ElementType} {n : Numeral} (hreads : Reads text n) (hvalue : n.value < 2 ^ 64)
    (hlenient : ¬Lenient type n) : PlainNumber type n.digits ∧ ∃ w, White w ∧ text = w ++ n.digits := by
  have hno : ¬(n.sign ≠ [] ∨ n.rest ≠ [] ∨ n.value = 0 ∨ 2 ^ 64 ≤ type.elemSize * n.value) := fun h =>
    hlenient ⟨hvalue, h⟩
  rw [not_or, not_or, not_or, not_not, not_not, not_le] at hno
  obtain ⟨hsign, hrest, hpos, hfits⟩ := hno
  refine ⟨⟨hreads.digits_ne_nil, hreads.digits, Nat.pos_of_ne_zero hpos, hfits⟩, ?_⟩
  obtain ⟨w, hw, htext⟩ := hreads.text_eq
  rw [hsign, hrest, List.nil_append, List.append_nil] at htext
  exact ⟨w, hw, htext⟩

theorem PlainNumber.not_lenient {type : ElementType} {n : Numeral} (h : PlainNumber type text)
    (hreads : Reads text n) : ¬Lenient type n := by
  have hn : n = ⟨[], text, []⟩ := hreads.ofText_eq.symm.trans (reads_digits h.ne_nil h.isDigit).ofText_eq
  subst hn
  rintro ⟨-, hsign | hrest | hzero | hlarge⟩
  · exact hsign rfl
  · exact hrest rfl
  · exact h.pos.ne' hzero
  · exact absurd h.fits (not_lt.mpr hlarge)

theorem strict_of_ofMarkup [PocoString] {d : DType} (h : DType.ofMarkup markup = .ok d) (hmisread : ¬Misread markup) :
    Strict markup := by
  by_cases hcomma : ',' ∈ markup
  · obtain ⟨name, text, hparts, hname, htrimmed, htext⟩ := exists_parts hcomma
    obtain ⟨⟨type, hknown, hcapital⟩, n, hreads, hvalue⟩ := reads_of_ofMarkup h hparts hname htrimmed htext
    have hlenient : ¬Lenient type n := fun hlenient =>
      hmisread (.inr (.inr ⟨name, text, type, n, hparts, htext, hknown, hcapital, hreads, hlenient⟩))
    obtain ⟨hplain, w, hw, rfl⟩ := plain_of_reads hreads hvalue hlenient
    obtain ⟨w₁, w₂, w₃, w₄, hw₁, hw₂, hw₃, hw₄, hmarkup⟩ := hparts
    refine .inr ⟨name, n.digits, type, ⟨w₁, w₂, w₃ ++ w, w₄, hw₁, hw₂, hw₃.append hw, hw₄, ?_⟩, hknown, hplain⟩
    rw [hmarkup, ← List.append_assoc w₃]
  · obtain ⟨type, hknown, -⟩ := known_of_ofMarkup h hcomma
    exact .inl ⟨type, hknown⟩

/-- What a strict markup makes, if it is not misread. -/
theorem ofMarkup_of_strict [PocoString] (h : Strict markup) (hmisread : ¬Misread markup) :
    ∃ type dimension, DType.ofMarkup markup = .ok (DType.ofElementType type dimension) ∧
      0 < (DType.ofElementType type dimension).sizeT := by
  rcases h with ⟨type, hknown⟩ | ⟨name, digits, type, hparts, hknown, hplain⟩
  · refine ⟨type, 1, ofMarkup_of_known hknown fun hcapital => hmisread (.inl hcapital), ?_⟩
    have hle : type.elemSize ≤ 16 := type.elemSize_le
    exact sizeT_pos_of_fits Nat.one_pos (by omega)
  · have hcapital : ¬Capital name := fun hcapital =>
      hmisread (.inr (.inl ⟨name, digits, type, hparts, hknown, hcapital, hplain⟩))
    exact ⟨type, decimal digits, ofMarkup_of_plain hparts hknown hcapital hplain,
      sizeT_pos_of_fits hplain.pos hplain.fits⟩

theorem divisible_of_sizeT {d : DType} (h : 0 < d.sizeT) : Divisible d := by
  rintro chunk rfl
  rw [BufferChunk.elementsOf, if_neg h.ne']
  exact ⟨_, rfl⟩

theorem readStrictly_of_not_misread [PocoString] (h : ¬Misread markup) : ReadStrictly markup := by
  refine ⟨⟨fun ⟨_, hd⟩ => strict_of_ofMarkup hd h, fun hstrict => ?_⟩, ?_⟩
  · obtain ⟨type, dimension, hok, -⟩ := ofMarkup_of_strict hstrict h
    exact ⟨_, hok⟩
  · intro d hd
    obtain ⟨type, dimension, hok, hpos⟩ := ofMarkup_of_strict (strict_of_ofMarkup hd h) h
    rw [hd] at hok
    cases hok
    exact ⟨hpos, divisible_of_sizeT hpos⟩

/-- A name with a capital letter makes no type, alone or with a number. -/
theorem not_ofMarkup_of_capital [PocoString] {d : DType} (h : DType.ofMarkup markup = .ok d) : ¬Capital markup := by
  intro hcapital
  obtain ⟨type, hknown⟩ := hcapital.known
  obtain ⟨_, -, hno⟩ := known_of_ofMarkup h hknown.plain.1
  exact hno hcapital

theorem not_misread_of_readStrictly [PocoString] (h : ReadStrictly markup) : ¬Misread markup := by
  rintro (hcapital | ⟨name, digits, type, hparts, hknown, hcapital, hplain⟩ |
    ⟨name, text, type, n, hparts, htext, hknown, hcapital, hreads, hlenient⟩)
  · obtain ⟨d, hd⟩ := h.1.mpr (.inl hcapital.known)
    exact not_ofMarkup_of_capital hd hcapital
  · obtain ⟨d, hd⟩ := h.1.mpr (.inr ⟨name, digits, type, hparts, hknown, hplain⟩)
    obtain ⟨hcomma, htrimmed⟩ := hknown.plain
    obtain ⟨⟨_, -, hno⟩, -⟩ := reads_of_ofMarkup hd hparts hcomma htrimmed (trimmed_digits hplain.isDigit)
    exact hno hcapital
  · have hok := ofMarkup_of_parts hparts hknown hcapital htext hreads hlenient.lt
    obtain ⟨hcomma, htrimmed⟩ := hknown.plain
    obtain ⟨hname, tail, htail, htext'⟩ := hparts.split hcomma htrimmed htext
    rcases h.1.mp ⟨_, hok⟩ with ⟨type', hknown'⟩ | ⟨name', digits, type', hparts', hknown', hplain⟩
    · exact hknown'.plain.1 hparts.comma
    · -- the parts of the strict markup are those that were read
      obtain ⟨hcomma', htrimmed'⟩ := hknown'.plain
      obtain ⟨hname', tail', htail', hdigits⟩ := hparts'.split hcomma' htrimmed' (trimmed_digits hplain.isDigit)
      rw [hname] at hname'
      rw [htail] at htail'
      cases htail'
      rw [htext'] at hdigits
      subst hname'
      subst hdigits
      rw [← hknown.unique hknown' hcapital] at hplain
      exact hplain.not_lenient hreads hlenient

/-- **Markups.** A type is read back from its markup, and a markup is read strictly exactly if
neither its alias has a capital letter nor its number is lenient. -/
theorem markup_iff [PocoString] (type : ElementType) (dimension : Nat) (hdimension : dimension < 2 ^ 64)
    (markup : Text) :
    DType.ofMarkup (DType.ofElementType type dimension).toMarkup.toList = .ok (DType.ofElementType type dimension) ∧
      (ReadStrictly markup ↔ ¬Misread markup) :=
  ⟨ofMarkup_toMarkup type hdimension, not_misread_of_readStrictly, readStrictly_of_not_misread⟩

/-- The markup of vectors of 42 integers; with a sign before the number it is not read strictly. -/
theorem markup_int32 :
    (DType.ofElementType (.scalar ⟨.int32, false⟩) 42).toMarkup = "int32, 42" ∧
      DType.ofMarkup (DType.ofElementType (.scalar ⟨.int32, false⟩) 42).toMarkup.toList =
        .ok (DType.ofElementType (.scalar ⟨.int32, false⟩) 42) ∧
      ¬ReadStrictly "int32, +42".toList := by
  have hmarkup := markup_iff (.scalar ⟨.int32, false⟩) 42 (by decide) "int32, +42".toList
  have hparts : Parts "int32, +42".toList "int32".toList "+42".toList :=
    ⟨[], [], [' '], [], white_nil, white_nil, List.all_eq_true.mp rfl, white_nil, rfl⟩
  have hfound : find (toLower "int32".toList) = some (.scalar ⟨.int32, false⟩) := by decide +kernel
  obtain ⟨hknown, hcapital⟩ := find_toLower_iff.mp hfound
  have hreads : Reads "+42".toList ⟨['+'], "42".toList, []⟩ :=
    ⟨⟨[], white_nil, rfl⟩, .inr (.inl rfl), by decide, List.all_eq_true.mp rfl, fun ch h => nomatch h⟩
  have hlenient : Lenient (.scalar ⟨.int32, false⟩) ⟨['+'], "42".toList, []⟩ := ⟨by decide, .inl (by decide)⟩
  refine ⟨by decide +kernel, hmarkup.1, fun hstrict => hmarkup.2.mp hstrict ?_⟩
  exact .inr (.inr ⟨_, _, _, _, hparts, by decide, hknown, hcapital, hreads, hlenient⟩)

/-- Vectors of no integers have no size. -/
theorem not_readStrictly_zero : ¬ReadStrictly "int32, 0".toList := by
  intro h
  have hok : DType.ofMarkup "int32, 0".toList = .ok (DType.ofElementType (.scalar ⟨.int32, false⟩) 0) := by
    decide +kernel
  exact absurd (h.2 _ hok).1 (by decide)

end PothosCore.Framework

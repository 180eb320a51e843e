import PothosCore.Framework.BufferPool
import PothosCore.Lib.Residue

/-!
# PothosCore.Framework.BufferConvert

`BufferChunk::convert` and `convertComplex`: a chunk of scalars of one type
becomes a chunk of another, in vectors of any dimension. All four functions
compute the number of vectors by the same formula, which multiplies by the
output's dimension where it should divide. The count is right for dimension
one; for larger ones only when the product wraps `size_t` to the right value.
-/

namespace PothosCore.Framework

open Lib

/-! ### Element types -/

namespace DType

def signed : Nat := 1 <<< 1
def integer : Nat := 1 <<< 2
def float : Nat := 1 <<< 3
def complex : Nat := 1 <<< 4
def bytes1 : Nat := 0 <<< 5
def bytes2 : Nat := 1 <<< 5
def bytes4 : Nat := 2 <<< 5
def bytes8 : Nat := 3 <<< 5

/-- `isInteger()`. -/
def isInteger (d : DType) : Bool := d.elemType &&& integer ≠ 0

/-- `isComplex()`. -/
def isComplex (d : DType) : Bool := d.elemType &&& complex ≠ 0

/-- `isCustom()`. -/
def isCustom (d : DType) : Bool := d.elemType &&& 1 ≠ 0

/-- `size()` as the machine computes it. -/
def sizeT (d : DType) : Nat := SizeT.mul d.elemSize d.dimension

end DType

/-- The real types for which converters are registered. -/
inductive Primitive
  | int8 | uint8 | int16 | uint16 | int32 | uint32 | int64 | uint64 | float32 | float64
  deriving Repr, DecidableEq

namespace Primitive

/-- In the order of `registerConverter`. -/
def all : List Primitive :=
  [int8, uint8, int16, uint16, int32, uint32, int64, uint64, float32, float64]

theorem mem_all (p : Primitive) : p ∈ all := by
  cases p <;> decide

def name : Primitive → String
  | int8 => "int8"
  | uint8 => "uint8"
  | int16 => "int16"
  | uint16 => "uint16"
  | int32 => "int32"
  | uint32 => "uint32"
  | int64 => "int64"
  | uint64 => "uint64"
  | float32 => "float32"
  | float64 => "float64"

open DType in
/-- `ElementTypes`. -/
def elemType : Primitive → Nat
  | int8 => signed ||| integer ||| bytes1
  | uint8 => integer ||| bytes1
  | int16 => signed ||| integer ||| bytes2
  | uint16 => integer ||| bytes2
  | int32 => signed ||| integer ||| bytes4
  | uint32 => integer ||| bytes4
  | int64 => signed ||| integer ||| bytes8
  | uint64 => integer ||| bytes8
  | float32 => float ||| bytes4
  | float64 => float ||| bytes8

/-- `sizeof`. -/
def elemSize : Primitive → Nat
  | int8 | uint8 => 1
  | int16 | uint16 => 2
  | int32 | uint32 | float32 => 4
  | int64 | uint64 | float64 => 8

end Primitive

/-- A real type or the complex type over it. -/
structure Scalar where
  primitive : Primitive
  isComplex : Bool
  deriving Repr, DecidableEq

namespace Scalar

def elemType (s : Scalar) : Nat :=
  if s.isComplex then DType.complex ||| s.primitive.elemType else s.primitive.elemType

def elemSize (s : Scalar) : Nat :=
  if s.isComplex then 2 * s.primitive.elemSize else s.primitive.elemSize

def name (s : Scalar) : String :=
  if s.isComplex then "complex_" ++ s.primitive.name else s.primitive.name

theorem elemSize_pos (s : Scalar) : 0 < s.elemSize := by
  obtain ⟨p, c⟩ := s
  cases p <;> cases c <;> decide

theorem complex_elemType (s : Scalar) : s.elemType &&& DType.complex ≠ 0 ↔ s.isComplex := by
  obtain ⟨p, c⟩ := s
  cases p <;> cases c <;> decide

end Scalar

namespace DType

/-- `DType(typeid(Type), dimension)`. -/
def ofScalar (s : Scalar) (dimension : Nat) : DType := ⟨s.elemType, s.elemSize, dimension⟩

theorem isComplex_ofScalar (s : Scalar) (dimension : Nat) :
    (ofScalar s dimension).isComplex = s.isComplex := by
  rw [Bool.eq_iff_iff, ← s.complex_elemType]
  exact decide_eq_true_iff

/-- `name()`: the table entry of the element type. -/
def name (d : DType) : String :=
  if d.elemType = 0 then "unspecified"
  else if d.elemType = 1 then "custom"
  else
    match (Primitive.all.flatMap fun p => [Scalar.mk p false, Scalar.mk p true]).find?
        (·.elemType == d.elemType) with
    | some s => s.name
    | none => ""

/-- `toString()`. -/
def toString (d : DType) : String :=
  if d.dimension ≠ 1 ∨ d.isCustom then d.name ++ "[" ++ Nat.repr d.dimension ++ "]" else d.name

end DType

/-! ### Registered converters -/

/-- `dtypeIOToHash`, on the element types. -/
def dtypeIOToHash (input output : Nat) : Nat := input ||| (output <<< 16)

/-- The keys of `convertMap`. -/
def convertMap : List Nat :=
  Primitive.all.flatMap fun input => Primitive.all.flatMap fun output =>
    [dtypeIOToHash (Scalar.mk input false).elemType (Scalar.mk output false).elemType,
      dtypeIOToHash (Scalar.mk input false).elemType (Scalar.mk output true).elemType,
      dtypeIOToHash (Scalar.mk input true).elemType (Scalar.mk output true).elemType]

/-- The keys of `convertComplexMap`. -/
def convertComplexMap : List Nat :=
  Primitive.all.flatMap fun input => Primitive.all.map fun output =>
    dtypeIOToHash (Scalar.mk input true).elemType (Scalar.mk output false).elemType

/-- The bits of a hash that tell complex numbers from real ones. -/
theorem testBit_hash (s t : Scalar) :
    (dtypeIOToHash s.elemType t.elemType).testBit 4 = s.isComplex ∧
      (dtypeIOToHash s.elemType t.elemType).testBit 20 = t.isComplex := by
  have hbit (u : Scalar) : u.elemType.testBit 4 = u.isComplex ∧ u.elemType.testBit 20 = false := by
    obtain ⟨p, c⟩ := u
    cases p <;> cases c <;> decide
  simp [dtypeIOToHash, Nat.testBit_or, Nat.testBit_shiftLeft, hbit]

/-- Everything converts in one step but complex numbers to real ones. -/
theorem mem_convertMap (s t : Scalar) :
    dtypeIOToHash s.elemType t.elemType ∈ convertMap ↔ (s.isComplex → t.isComplex) := by
  constructor
  · intro hmem
    obtain ⟨p, _, hmem⟩ := List.mem_flatMap.1 hmem
    obtain ⟨q, _, hmem⟩ := List.mem_flatMap.1 hmem
    rw [← (testBit_hash s t).1, ← (testBit_hash s t).2]
    simp only [List.mem_cons, List.not_mem_nil, or_false] at hmem
    obtain hhash | hhash | hhash := hmem <;> simp [hhash, testBit_hash]
  · intro hkind
    refine List.mem_flatMap.2 ⟨s.primitive, s.primitive.mem_all,
      List.mem_flatMap.2 ⟨t.primitive, t.primitive.mem_all, ?_⟩⟩
    obtain ⟨p, c⟩ := s
    obtain ⟨q, e⟩ := t
    cases c <;> cases e <;> simp_all

theorem mem_convertComplexMap (s t : Scalar) :
    dtypeIOToHash s.elemType t.elemType ∈ convertComplexMap ↔ s.isComplex ∧ ¬t.isComplex := by
  constructor
  · intro hmem
    obtain ⟨p, _, hmem⟩ := List.mem_flatMap.1 hmem
    obtain ⟨q, _, hhash⟩ := List.mem_map.1 hmem
    rw [← (testBit_hash s t).1, ← (testBit_hash s t).2, ← hhash]
    simp [testBit_hash]
  · intro hkind
    refine List.mem_flatMap.2 ⟨s.primitive, s.primitive.mem_all,
      List.mem_map.2 ⟨t.primitive, t.primitive.mem_all, ?_⟩⟩
    obtain ⟨p, c⟩ := s
    obtain ⟨q, e⟩ := t
    cases c <;> cases e <;> simp_all

/-- The elements of equal type, or of equal size and kind, are of equal size. -/
theorem elemSize_of_same (s t : Scalar) (h : t.elemType = s.elemType ∨ t.elemSize = s.elemSize) :
    t.elemSize = s.elemSize := by
  have hbits (u : Scalar) : u.elemSize =
      2 ^ ((u.elemType >>> 5) % 4) * (if u.elemType.testBit 4 then 2 else 1) := by
    obtain ⟨p, c⟩ := u
    cases p <;> cases c <;> decide
  refine h.elim (fun htype => ?_) id
  rw [hbits, hbits, htype]

/-- No memory is reused from complex numbers to real ones. -/
theorem not_reuses_of_mem (s t : Scalar)
    (h : dtypeIOToHash s.elemType t.elemType ∈ convertComplexMap) (d e : Nat) :
    ¬(t.elemType = s.elemType ∨ t.elemSize = s.elemSize ∧
      (DType.ofScalar t e).isInteger = (DType.ofScalar s d).isInteger ∧
      (DType.ofScalar t e).isComplex = (DType.ofScalar s d).isComplex) := by
  obtain ⟨hs, ht⟩ := (mem_convertComplexMap s t).1 h
  intro hreuses
  obtain htype | ⟨_, _, hkind⟩ := hreuses
  · rw [← Scalar.complex_elemType, htype, Scalar.complex_elemType] at ht
    exact ht hs
  · rw [DType.isComplex_ofScalar, DType.isComplex_ofScalar, hs] at hkind
    exact ht hkind

/-! ### The conversions -/

namespace BufferChunk

/-- `elements()`, for a type whose size is not zero. -/
def elements (c : BufferChunk) : Nat := c.length / c.dtype.sizeT

/-- `primElems` of the four functions. -/
def primElems (c : BufferChunk) (numElems : Nat) : Nat :=
  let numElems := if numElems = 0 then c.elements else numElems
  SizeT.mul numElems c.dtype.sizeT / c.dtype.elemSize

/-- `outElems` of the four functions. -/
def outElems (c : BufferChunk) (outDType : DType) (numElems : Nat) : Nat :=
  SizeT.mul (c.primElems numElems) outDType.sizeT / outDType.elemSize

/-- Same dtype or integers of same type (ignore signedness). -/
def Reuses (c : BufferChunk) (outDType : DType) : Prop :=
  outDType.elemType = c.dtype.elemType ∨
    (outDType.elemSize = c.dtype.elemSize ∧ outDType.isInteger = c.dtype.isInteger ∧
      outDType.isComplex = c.dtype.isComplex)

instance (c : BufferChunk) (outDType : DType) : Decidable (c.Reuses outDType) :=
  inferInstanceAs (Decidable (_ ∨ _))

/-- `BufferChunk(dtype, numElems)`; `fresh` is what the allocator returns. -/
def make (h : Heap) (fresh : Nat × Nat) (dtype : DType) (numElems : Nat) : Heap × BufferChunk :=
  let length := SizeT.mul dtype.sizeT numElems
  (BufferPool.allocate h fresh length, ⟨fresh.2, length, dtype, some fresh.1, 0⟩)

/-- No converter is registered. -/
def cantConvert (c : BufferChunk) (function : String) : Fault :=
  .thrown "BufferConvertError" ("Pothos::BufferChunk::" ++ function ++ "(" ++ c.dtype.toString ++ ")")
    ("can't convert from " ++ c.dtype.toString)

/-- `convert(outDType, numElems)`: the new chunk, and how many bytes the
converter writes at its address. -/
def convert (h : Heap) (fresh : Nat × Nat) (c : BufferChunk) (outDType : DType) (numElems : Nat) :
    Except Fault (Heap × BufferChunk × Nat) :=
  let primElems := c.primElems numElems
  let outElems := c.outElems outDType numElems
  if c.Reuses outDType then
    let out := c.copy h
    .ok (h.apply (out.acquire h),
      { out with dtype := outDType, length := SizeT.mul outDType.sizeT outElems }, 0)
  else if dtypeIOToHash c.dtype.elemType outDType.elemType ∈ convertMap then
    let (h, out) := make h fresh outDType outElems
    .ok (h, out, primElems * outDType.elemSize)
  else .error (c.cantConvert "convert")

/-- `convertComplex(outDType, numElems)`. -/
def convertComplex (h : Heap) (freshRe freshIm : Nat × Nat) (c : BufferChunk) (outDType : DType)
    (numElems : Nat) : Except Fault (Heap × BufferChunk × BufferChunk × Nat) :=
  let primElems := c.primElems numElems
  let outElems := c.outElems outDType numElems
  if dtypeIOToHash c.dtype.elemType outDType.elemType ∈ convertComplexMap then
    let (h, outRe) := make h freshRe outDType outElems
    let (h, outIm) := make h freshIm outDType outElems
    .ok (h, outRe, outIm, primElems * outDType.elemSize)
  else .error (c.cantConvert "convertComplex")

/-- `convert(out, numElems)`: the number that is returned and the bytes written
at the address of `out`. -/
def convertInto (c out : BufferChunk) (numElems : Nat) : Except Fault (Nat × Nat) :=
  let primElems := c.primElems numElems
  let outElems := c.outElems out.dtype numElems
  if out.elements < outElems then
    .error (.thrown "BufferConvertError" "Pothos::BufferChunk::convert(buffer)"
      "insufficient input buffer")
  else if dtypeIOToHash c.dtype.elemType out.dtype.elemType ∈ convertMap then
    .ok (outElems, primElems * out.dtype.elemSize)
  else .error (c.cantConvert "convert")

/-- `convertComplex(outRe, outIm, numElems)`. -/
def convertComplexInto (c outRe outIm : BufferChunk) (numElems : Nat) : Except Fault (Nat × Nat) :=
  let primElems := c.primElems numElems
  let outElems := c.outElems outRe.dtype numElems
  let what := "Pothos::BufferChunk::convertComplex(bufferRe, bufferIm)"
  if ¬outRe.dtype = outIm.dtype then
    .error (.thrown "BufferConvertError" what "buffer DType mismatch")
  else if outRe.elements < outElems then
    .error (.thrown "BufferConvertError" what "insufficient input bufferRe")
  else if outIm.elements < outElems then
    .error (.thrown "BufferConvertError" what "insufficient input bufferIm")
  else if dtypeIOToHash c.dtype.elemType outRe.dtype.elemType ∈ convertComplexMap then
    .ok (outElems, primElems * outRe.dtype.elemSize)
  else .error (c.cantConvert "convertComplex")

end BufferChunk

/-! ### When the counts are right -/

/-- A numeric type of some dimension whose size fits `size_t`. -/
structure NumericType where
  scalar : Scalar
  dimension : Nat
  dimension_pos : 0 < dimension
  size_lt : scalar.elemSize * dimension < 2 ^ 64

namespace NumericType

def dtype (t : NumericType) : DType := .ofScalar t.scalar t.dimension

@[simp] theorem dtype_elemSize (t : NumericType) : t.dtype.elemSize = t.scalar.elemSize := rfl
@[simp] theorem dtype_elemType (t : NumericType) : t.dtype.elemType = t.scalar.elemType := rfl

@[simp] theorem sizeT_dtype (t : NumericType) :
    t.dtype.sizeT = t.scalar.elemSize * t.dimension := SizeT.mul_eq t.size_lt

theorem size_pos (t : NumericType) : 0 < t.scalar.elemSize * t.dimension :=
  Nat.mul_pos t.scalar.elemSize_pos t.dimension_pos

end NumericType

/-- A chunk of numbers inside some memory, and what it is converted into: the
first `numElems` of its elements, to vectors of `target`. -/
structure Conversion where
  chunk : BufferChunk
  source : NumericType
  dtype_eq : chunk.dtype = source.dtype
  length_lt : chunk.length < 2 ^ 64
  memoryEnd : Nat
  inMemory : chunk.getEnd ≤ memoryEnd
  target : NumericType
  numElems : Nat
  numElems_pos : 0 < numElems
  numElems_le : numElems ≤ chunk.elements

namespace Conversion

variable (x : Conversion)

/-- The scalar values that go in. -/
def scalars : Nat := x.numElems * x.source.dimension

/-- The bytes they take as scalars of the target. -/
def scalarBytes : Nat := x.scalars * x.target.scalar.elemSize

/-- The vectors that come out. -/
def vectors : Nat := x.scalars / x.target.dimension

def hash : Nat := dtypeIOToHash x.chunk.dtype.elemType x.target.dtype.elemType

/-- A chunk of the right number of vectors, with `memory` bytes at its address
that contain it and what the converter has written. -/
def RightChunk (out : BufferChunk) (written memory : Nat) : Prop :=
  out.dtype = x.target.dtype ∧ out.elements = x.vectors ∧ out.length ≤ memory ∧ written ≤ memory

/-- An output buffer with room for the scalars. -/
def Room (out : BufferChunk) : Prop :=
  out.dtype = x.target.dtype ∧ out.length < 2 ^ 64 ∧ x.scalarBytes ≤ out.length

/-- Wherever a conversion exists, it gives the right number of vectors and stays
in bounds; a chunk that reuses the input's memory ends where that does. -/
structure Right (h : Heap) (fresh freshIm : Nat × Nat) : Prop where
  convert : x.chunk.Reuses x.target.dtype ∨ x.hash ∈ convertMap →
    ∃ h' out written, x.chunk.convert h fresh x.target.dtype x.numElems = .ok (h', out, written) ∧
      x.RightChunk out written
        (if x.chunk.Reuses x.target.dtype then x.memoryEnd - out.address
          else (out.getBuffer h').length)
  convertInto : x.hash ∈ convertMap → ∀ out, x.Room out →
    ∃ written, x.chunk.convertInto out x.numElems = .ok (x.vectors, written) ∧
      written ≤ out.length
  convertComplex : x.hash ∈ convertComplexMap →
    ∃ h' outRe outIm written,
      x.chunk.convertComplex h fresh freshIm x.target.dtype x.numElems =
        .ok (h', outRe, outIm, written) ∧
      x.RightChunk outRe written (outRe.getBuffer h').length ∧
      x.RightChunk outIm written (outIm.getBuffer h').length
  convertComplexInto : x.hash ∈ convertComplexMap → ∀ outRe outIm, x.Room outRe → x.Room outIm →
    ∃ written, x.chunk.convertComplexInto outRe outIm x.numElems = .ok (x.vectors, written) ∧
      written ≤ outRe.length ∧ written ≤ outIm.length

/-- The scalars fit `size_t`, and the target has dimension one, or the product
of scalars, size and dimension wraps and leaves the right count. -/
def Fits : Prop :=
  x.scalarBytes < 2 ^ 64 ∧
    (x.target.dimension = 1 ∨
      2 ^ 64 ≤ x.scalarBytes * x.target.dimension ∧
        x.scalarBytes * x.target.dimension % 2 ^ 64 / x.target.scalar.elemSize = x.vectors ∧
        (x.chunk.Reuses x.target.dtype ∨ x.target.dimension ∣ x.scalars))

variable {x}

/-- The elements that are converted are bytes of the chunk. -/
theorem bytes_le (x : Conversion) :
    x.numElems * (x.source.scalar.elemSize * x.source.dimension) ≤ x.chunk.length := by
  have hle := x.numElems_le
  rw [BufferChunk.elements, x.dtype_eq, NumericType.sizeT_dtype] at hle
  exact (Nat.mul_le_mul_right _ hle).trans (Nat.div_mul_le_self _ _)

/-- The code counts the scalars correctly. -/
theorem primElems_eq (x : Conversion) : x.chunk.primElems x.numElems = x.scalars := by
  have hbytes := x.bytes_le
  have hlength := x.length_lt
  have hpos := x.source.scalar.elemSize_pos
  simp only [BufferChunk.primElems, if_neg x.numElems_pos.ne', x.dtype_eq,
    NumericType.sizeT_dtype, NumericType.dtype_elemSize]
  rw [SizeT.mul_eq (hbytes.trans_lt hlength), Nat.mul_left_comm, Nat.mul_div_cancel_left _ hpos]
  rfl

theorem outElems_eq (x : Conversion) :
    x.chunk.outElems x.target.dtype x.numElems =
      x.scalarBytes * x.target.dimension % 2 ^ 64 / x.target.scalar.elemSize := by
  rw [BufferChunk.outElems, x.primElems_eq, NumericType.sizeT_dtype, NumericType.dtype_elemSize,
    SizeT.mul, ← Nat.mul_assoc]
  rfl

/-- As long as nothing wraps, the code multiplies by the dimension. -/
theorem outElems_of_lt (h : x.scalarBytes * x.target.dimension < 2 ^ 64) :
    x.chunk.outElems x.target.dtype x.numElems = x.scalars * x.target.dimension := by
  have hpos := x.target.scalar.elemSize_pos
  rw [outElems_eq, Nat.mod_eq_of_lt h, scalarBytes, Nat.mul_right_comm,
    Nat.mul_div_cancel _ hpos]

/-- Multiplying by the dimension is dividing by it only in dimension one. -/
theorem dimension_eq_one (x : Conversion) (h : x.scalars * x.target.dimension = x.vectors) :
    x.target.dimension = 1 := by
  have hpos := x.target.dimension_pos
  have hscalars : 0 < x.scalars := Nat.mul_pos x.numElems_pos x.source.dimension_pos
  by_contra hne
  have hdouble : x.scalars * 2 ≤ x.scalars * x.target.dimension :=
    Nat.mul_le_mul_left _ (by omega)
  have hdiv : x.vectors ≤ x.scalars := Nat.div_le_self _ _
  omega

/-- The count is the right one exactly where `Fits` says. -/
theorem outElems_eq_vectors (x : Conversion) (hfits : x.scalarBytes < 2 ^ 64) :
    x.chunk.outElems x.target.dtype x.numElems = x.vectors ↔
      x.target.dimension = 1 ∨ 2 ^ 64 ≤ x.scalarBytes * x.target.dimension ∧
        x.scalarBytes * x.target.dimension % 2 ^ 64 / x.target.scalar.elemSize = x.vectors := by
  constructor
  · intro h
    by_cases hwrap : x.scalarBytes * x.target.dimension < 2 ^ 64
    · rw [outElems_of_lt hwrap] at h
      exact .inl (x.dimension_eq_one h)
    · rw [outElems_eq] at h
      exact .inr ⟨Nat.le_of_not_lt hwrap, h⟩
  · rintro (hone | ⟨_, h⟩)
    · rw [outElems_of_lt (by rwa [hone, Nat.mul_one]), vectors, hone, Nat.mul_one, Nat.div_one]
    · rw [outElems_eq, h]

/-- A right count gives a right length, of no more bytes than the scalars take. -/
theorem length_of_right (x : Conversion) (hfits : x.scalarBytes < 2 ^ 64) :
    SizeT.mul x.target.dtype.sizeT x.vectors =
        x.target.scalar.elemSize * (x.target.dimension * x.vectors) ∧
      x.target.scalar.elemSize * (x.target.dimension * x.vectors) ≤ x.scalarBytes := by
  have hle : x.target.scalar.elemSize * (x.target.dimension * x.vectors) ≤ x.scalarBytes := by
    rw [scalarBytes, Nat.mul_comm x.scalars]
    exact Nat.mul_le_mul_left _ (Nat.mul_div_le _ _)
  refine ⟨?_, hle⟩
  rw [NumericType.sizeT_dtype, SizeT.mul_eq (by rw [Nat.mul_assoc]; omega), Nat.mul_assoc]

/-- A reused chunk has scalars of the same size. -/
theorem scalarBytes_of_reuses (x : Conversion) (hreuses : x.chunk.Reuses x.target.dtype) :
    x.scalarBytes ≤ x.chunk.length := by
  have hsame : x.target.scalar.elemSize = x.source.scalar.elemSize := by
    unfold BufferChunk.Reuses at hreuses
    rw [x.dtype_eq] at hreuses
    exact elemSize_of_same _ _ (hreuses.imp id And.left)
  have hbytes := x.bytes_le
  rw [Nat.mul_left_comm] at hbytes
  rw [scalarBytes, scalars, hsame, Nat.mul_comm]
  exact hbytes

/-- A chunk of the target type and the computed length. -/
theorem elements_of_right (x : Conversion) (hfits : x.scalarBytes < 2 ^ 64) {out : BufferChunk}
    (hdtype : out.dtype = x.target.dtype)
    (hlength : out.length = SizeT.mul x.target.dtype.sizeT x.vectors) :
    out.elements = x.vectors := by
  rw [BufferChunk.elements, hdtype, hlength, (x.length_of_right hfits).1, ← Nat.mul_assoc,
    NumericType.sizeT_dtype, Nat.mul_div_cancel_left _ x.target.size_pos]

/-- What `BufferChunk(dtype, numElems)` allocates has the length of the chunk. -/
theorem make_length (h : Heap) (fresh : Nat × Nat) (dtype : DType) (numElems : Nat) :
    ((BufferChunk.make h fresh dtype numElems).2.getBuffer
      (BufferChunk.make h fresh dtype numElems).1).length = SizeT.mul dtype.sizeT numElems := by
  simp [BufferChunk.make, BufferChunk.getBuffer, Heap.buffer, BufferPool.allocate,
    Heap.create_impl]

/-- The same holds after a second allocation of that length. -/
theorem make_make_length (h : Heap) (fresh fresh' : Nat × Nat) (dtype : DType) (numElems : Nat) :
    ((BufferChunk.make h fresh dtype numElems).2.getBuffer
      (BufferChunk.make (BufferChunk.make h fresh dtype numElems).1 fresh' dtype
        numElems).1).length = SizeT.mul dtype.sizeT numElems := by
  simp only [BufferChunk.make, BufferChunk.getBuffer, Heap.buffer, BufferPool.allocate,
    Heap.create_impl]
  split <;> simp

/-- A new chunk of the right count, when it holds the scalars. -/
theorem rightChunk_make (x : Conversion) (hfits : x.scalarBytes < 2 ^ 64)
    (hdvd : x.target.dimension ∣ x.scalars) {memory : Nat}
    (hmemory : memory = SizeT.mul x.target.dtype.sizeT x.vectors) (h : Heap) (fresh : Nat × Nat) :
    x.RightChunk (BufferChunk.make h fresh x.target.dtype x.vectors).2 x.scalarBytes memory := by
  refine ⟨rfl, x.elements_of_right hfits rfl rfl, hmemory.ge, ?_⟩
  rw [hmemory, (x.length_of_right hfits).1, vectors, Nat.mul_div_cancel' hdvd, Nat.mul_comm]
  rfl

/-- A converter that stays inside a new chunk of the right count fills it. -/
theorem dvd_of_le (x : Conversion) (hfits : x.scalarBytes < 2 ^ 64)
    (hle : x.scalarBytes ≤ SizeT.mul x.target.dtype.sizeT x.vectors) :
    x.target.dimension ∣ x.scalars := by
  rw [(x.length_of_right hfits).1, scalarBytes, Nat.mul_comm x.scalars] at hle
  have hscalars := Nat.le_of_mul_le_mul_left hle x.target.scalar.elemSize_pos
  exact ⟨x.vectors, hscalars.antisymm (Nat.mul_div_le _ _)⟩

/-- A buffer with room for the scalars has as many elements. -/
theorem Room.le {out : BufferChunk} (hroom : x.Room out) : x.vectors ≤ out.elements := by
  obtain ⟨hdtype, _, hbytes⟩ := hroom
  have hvectors : x.scalarBytes / (x.target.scalar.elemSize * x.target.dimension) = x.vectors := by
    rw [scalarBytes, Nat.mul_comm x.scalars, Nat.mul_div_mul_left _ _ x.target.scalar.elemSize_pos]
    rfl
  rw [BufferChunk.elements, hdtype, NumericType.sizeT_dtype, ← hvectors]
  exact Nat.div_le_div_right hbytes

theorem convertInto_ok {c out : BufferChunk} {numElems count written : Nat}
    (h : c.convertInto out numElems = .ok (count, written)) :
    count = c.outElems out.dtype numElems := by
  simp only [BufferChunk.convertInto] at h
  split at h
  · cases h
  · split at h
    · cases h
      rfl
    · cases h

theorem convertComplexInto_ok {c outRe outIm : BufferChunk} {numElems count written : Nat}
    (h : c.convertComplexInto outRe outIm numElems = .ok (count, written)) :
    count = c.outElems outRe.dtype numElems := by
  simp only [BufferChunk.convertComplexInto] at h
  split at h
  · cases h
  · split at h
    · cases h
    · split at h
      · cases h
      · split at h
        · cases h
          rfl
        · cases h

/-- A count that is right, and a vector for every scalar where memory is new. -/
theorem fits_iff (x : Conversion) :
    x.Fits ↔ x.scalarBytes < 2 ^ 64 ∧
      x.chunk.outElems x.target.dtype x.numElems = x.vectors ∧
      (x.chunk.Reuses x.target.dtype ∨ x.target.dimension ∣ x.scalars) := by
  constructor
  · intro hfits
    obtain ⟨hbytes, hone | ⟨hwrap, hcount, hdvd⟩⟩ := hfits
    · exact ⟨hbytes, (x.outElems_eq_vectors hbytes).2 (.inl hone), .inr (hone ▸ one_dvd _)⟩
    · exact ⟨hbytes, (x.outElems_eq_vectors hbytes).2 (.inr ⟨hwrap, hcount⟩), hdvd⟩
  · intro hright
    obtain ⟨hbytes, hcount, hdvd⟩ := hright
    refine ⟨hbytes, ((x.outElems_eq_vectors hbytes).1 hcount).imp_right fun h => ?_⟩
    exact ⟨h.1, h.2, hdvd⟩

variable {h : Heap} {fresh freshIm : Nat × Nat}

theorem Fits.convert (hfits : x.Fits)
    (hexists : x.chunk.Reuses x.target.dtype ∨ x.hash ∈ convertMap) :
    ∃ h' out written, x.chunk.convert h fresh x.target.dtype x.numElems = .ok (h', out, written) ∧
      x.RightChunk out written
        (if x.chunk.Reuses x.target.dtype then x.memoryEnd - out.address
          else (out.getBuffer h').length) := by
  obtain ⟨hbytes, hcount, hdvd⟩ := x.fits_iff.1 hfits
  simp only [BufferChunk.convert, hcount, x.primElems_eq]
  by_cases hreuses : x.chunk.Reuses x.target.dtype
  · -- The input's memory: the scalars that went in are bytes of the input.
    simp only [if_pos hreuses]
    refine ⟨_, _, _, rfl, rfl, x.elements_of_right hbytes rfl rfl, ?_, Nat.zero_le _⟩
    obtain ⟨hlength, hle⟩ := x.length_of_right hbytes
    have hchunk := x.scalarBytes_of_reuses hreuses
    have hmemory := x.inMemory
    rw [BufferChunk.getEnd] at hmemory
    dsimp only [BufferChunk.copy]
    omega
  · have hregistered : dtypeIOToHash x.chunk.dtype.elemType x.target.dtype.elemType ∈ convertMap :=
      hexists.resolve_left hreuses
    simp only [if_neg hreuses, if_pos hregistered]
    exact ⟨_, _, _, rfl, x.rightChunk_make hbytes (hdvd.resolve_left hreuses)
      (make_length h fresh x.target.dtype x.vectors) h fresh⟩

theorem Fits.convertInto (hfits : x.Fits) (hexists : x.hash ∈ convertMap) {out : BufferChunk}
    (hroom : x.Room out) :
    ∃ written, x.chunk.convertInto out x.numElems = .ok (x.vectors, written) ∧
      written ≤ out.length := by
  obtain ⟨_, hcount, _⟩ := x.fits_iff.1 hfits
  refine ⟨x.scalarBytes, ?_, hroom.2.2⟩
  simp only [BufferChunk.convertInto, hroom.1, hcount, x.primElems_eq]
  rw [hash] at hexists
  rw [if_neg hroom.le.not_gt, if_pos hexists]
  rfl

theorem Fits.convertComplex (hfits : x.Fits) (hexists : x.hash ∈ convertComplexMap)
    (hnew : ¬x.chunk.Reuses x.target.dtype) :
    ∃ h' outRe outIm written,
      x.chunk.convertComplex h fresh freshIm x.target.dtype x.numElems =
        .ok (h', outRe, outIm, written) ∧
      x.RightChunk outRe written (outRe.getBuffer h').length ∧
      x.RightChunk outIm written (outIm.getBuffer h').length := by
  obtain ⟨hbytes, hcount, hdvd⟩ := x.fits_iff.1 hfits
  simp only [BufferChunk.convertComplex, hcount, x.primElems_eq]
  rw [hash] at hexists
  rw [if_pos hexists]
  refine ⟨_, _, _, _, rfl, ?_, ?_⟩
  · exact x.rightChunk_make hbytes (hdvd.resolve_left hnew)
      (make_make_length h fresh freshIm x.target.dtype x.vectors) h fresh
  · exact x.rightChunk_make hbytes (hdvd.resolve_left hnew)
      (make_length _ freshIm x.target.dtype x.vectors) _ freshIm

theorem Fits.convertComplexInto (hfits : x.Fits) (hexists : x.hash ∈ convertComplexMap)
    {outRe outIm : BufferChunk} (hre : x.Room outRe) (him : x.Room outIm) :
    ∃ written, x.chunk.convertComplexInto outRe outIm x.numElems = .ok (x.vectors, written) ∧
      written ≤ outRe.length ∧ written ≤ outIm.length := by
  obtain ⟨_, hcount, _⟩ := x.fits_iff.1 hfits
  refine ⟨x.scalarBytes, ?_, hre.2.2, him.2.2⟩
  simp only [BufferChunk.convertComplexInto, hre.1, him.1, hcount, x.primElems_eq]
  rw [hash] at hexists
  rw [if_neg (not_not.2 trivial), if_neg hre.le.not_gt, if_neg him.le.not_gt, if_pos hexists]
  rfl

/-- A new chunk that holds what the converter writes, with the right count. -/
theorem fits_of_new (x : Conversion)
    (hwritten : x.scalars * x.target.dtype.elemSize ≤
      SizeT.mul x.target.dtype.sizeT (x.chunk.outElems x.target.dtype x.numElems))
    (hcount : x.scalarBytes < 2 ^ 64 →
      x.chunk.outElems x.target.dtype x.numElems = x.vectors) : x.Fits := by
  have hbytes : x.scalarBytes < 2 ^ 64 := hwritten.trans_lt (SizeT.mul_lt _ _)
  rw [hcount hbytes] at hwritten
  exact x.fits_iff.2 ⟨hbytes, hcount hbytes, .inr (x.dvd_of_le hbytes hwritten)⟩

/-- Whether a count is right shows in an output buffer of just the scalars. -/
theorem exists_room (x : Conversion) (hbytes : x.scalarBytes < 2 ^ 64) : ∃ out, x.Room out :=
  ⟨⟨0, x.scalarBytes, x.target.dtype, none, 0⟩, rfl, hbytes, le_rfl⟩

theorem Right.fits (hright : x.Right h fresh freshIm) : x.Fits := by
  by_cases hkind : x.source.scalar.isComplex → x.target.scalar.isComplex
  · have hexists : x.hash ∈ convertMap := by
      rw [hash, x.dtype_eq]
      exact (mem_convertMap _ _).2 hkind
    obtain ⟨h', out, written, hrun, _, _, _, hwritten⟩ := hright.convert (.inr hexists)
    by_cases hreuses : x.chunk.Reuses x.target.dtype
    · have hbytes : x.scalarBytes < 2 ^ 64 :=
        (x.scalarBytes_of_reuses hreuses).trans_lt x.length_lt
      obtain ⟨out, hroom⟩ := x.exists_room hbytes
      obtain ⟨_, hinto, _⟩ := hright.convertInto hexists out hroom
      have hcount := convertInto_ok hinto
      rw [hroom.1] at hcount
      exact x.fits_iff.2 ⟨hbytes, hcount.symm, .inl hreuses⟩
    · rw [hash] at hexists
      simp only [BufferChunk.convert, if_neg hreuses, if_pos hexists, x.primElems_eq] at hrun
      cases hrun
      rw [if_neg hreuses, make_length] at hwritten
      exact x.fits_of_new hwritten fun hbytes => by
        obtain ⟨out, hroom⟩ := x.exists_room hbytes
        obtain ⟨_, hinto, _⟩ := hright.convertInto hexists out hroom
        have hcount := convertInto_ok hinto
        rw [hroom.1] at hcount
        exact hcount.symm
  · have hexists : x.hash ∈ convertComplexMap := by
      rw [hash, x.dtype_eq]
      exact (mem_convertComplexMap _ _).2 (by simpa using hkind)
    obtain ⟨h', outRe, outIm, written, hrun, _, _, _, _, hwritten⟩ := hright.convertComplex hexists
    rw [hash] at hexists
    simp only [BufferChunk.convertComplex, if_pos hexists, x.primElems_eq] at hrun
    cases hrun
    rw [make_length] at hwritten
    exact x.fits_of_new hwritten fun hbytes => by
      obtain ⟨out, hroom⟩ := x.exists_room hbytes
      obtain ⟨_, hinto, _⟩ := hright.convertComplexInto hexists out out hroom hroom
      have hcount := convertComplexInto_ok hinto
      rw [hroom.1] at hcount
      exact hcount.symm

/-- **Conversions.** The counts are right and everything stays in bounds exactly
when the scalars fit `size_t` and the target has dimension one, or the product
of the wrong formula wraps to the right value. -/
theorem right_iff (x : Conversion) (h : Heap) (fresh freshIm : Nat × Nat) :
    x.Right h fresh freshIm ↔ x.Fits := by
  refine ⟨Right.fits, fun hfits => ?_⟩
  have hnew (hexists : x.hash ∈ convertComplexMap) : ¬x.chunk.Reuses x.target.dtype := by
    rw [hash, x.dtype_eq] at hexists
    rw [BufferChunk.Reuses, x.dtype_eq]
    exact not_reuses_of_mem _ _ hexists _ _
  exact ⟨hfits.convert, fun hexists _ => hfits.convertInto hexists,
    fun hexists => hfits.convertComplex hexists (hnew hexists),
    fun hexists _ _ => hfits.convertComplexInto hexists⟩

/-- Four pairs of `int16`, all the memory there is, to pairs of `uint16`. -/
def pairs : Conversion where
  chunk := ⟨0x1000, 16, .ofScalar ⟨.int16, false⟩ 2, none, 0⟩
  source := ⟨⟨.int16, false⟩, 2, by decide, by decide⟩
  dtype_eq := rfl
  length_lt := by decide
  memoryEnd := 0x1010
  inMemory := by decide
  target := ⟨⟨.uint16, false⟩, 2, by decide, by decide⟩
  numElems := 4
  numElems_pos := by decide
  numElems_le := by decide

/-- Four pairs are expected, and sixteen pairs in sixty-four bytes of a memory of
sixteen are returned. -/
theorem not_right_pairs :
    pairs.vectors = 4 ∧ pairs.memoryEnd - pairs.chunk.address = 16 ∧
      (pairs.chunk.convert Heap.empty (1, 0x2000) pairs.target.dtype 4).map
          (fun r => (r.2.1.elements, r.2.1.length)) = .ok (16, 64) ∧
      ¬pairs.Right Heap.empty (1, 0x2000) (2, 0x3000) := by
  refine ⟨rfl, rfl, rfl, fun hright => ?_⟩
  obtain ⟨h', out, written, hrun, _, helements, _⟩ := hright.convert (.inl (by decide))
  have hmap : (pairs.chunk.convert Heap.empty (1, 0x2000) pairs.target.dtype 4).map
      (fun r => r.2.1.elements) = .ok 16 := rfl
  have hsixteen : out.elements = 16 := by
    rw [show pairs.numElems = 4 from rfl] at hrun
    rw [hrun] at hmap
    exact Except.ok.inj hmap
  rw [hsixteen] at helements
  exact absurd helements (by decide)

end Conversion

end PothosCore.Framework

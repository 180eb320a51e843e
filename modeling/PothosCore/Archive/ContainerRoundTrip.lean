import PothosCore.Archive.Containers
import PothosCore.Archive.IntegerRoundTrip
import Mathlib.Data.List.Chain

/-!
# PothosCore.Archive.ContainerRoundTrip

A value that was saved is loaded again, and the bytes after it are left (`decodes_encoded`). It
is shown for each type from a rule for each piece of its format; containers by induction on
their elements, and values by induction on what makes them valid (`Valid`).

A null `BufferChunk` is saved as its null flag alone, so one that has a data type, which is
a public member, comes back without it (`not_decodes_nullChunk`).
-/

namespace PothosCore.Archive

open PothosCore.Lib

variable {τ : Type} {E : ObjectTypes τ} {find : BitVec 64 → Option τ} {less : Data τ → Data τ → Bool}

/-! ### Numbers and strings -/

theorem reads_bool (t : Bool) :
    Reads (ε := Fault) IStream.bytes (fun _ s => .ok (loadBool s)) (saveBool t) t := by
  refine .of_total fun rest s hs => ?_
  cases t <;> simp [loadBool, hs, saveBool, readByte]

theorem reads_char (t : UInt8) : Reads (ε := Fault) IStream.bytes (fun _ s => .ok (loadChar s)) [t] t := by
  refine .of_total fun rest s hs => ?_
  simp [loadChar, hs, readByte]

theorem reads_short (t : BitVec 16) :
    Reads (ε := Fault) IStream.bytes (fun _ s => .ok (loadShort s)) (saveShort t) t := by
  refine .of_total fun rest s hs => ?_
  have hlow : (UInt8.ofNat (t.toNat % 256)).toNat = t.toNat % 256 := by
    rw [UInt8.toNat_ofNat']
    omega
  have hhigh : (UInt8.ofNat (t.toNat / 256)).toNat = t.toNat / 256 := by
    have := t.isLt
    rw [UInt8.toNat_ofNat']
    omega
  refine ⟨?_, by simp [loadShort, readBytes, hs, saveShort]⟩
  simp only [loadShort, readBytes, hs]
  have hsum : t.toNat % 256 + t.toNat / 256 * 2 ^ 8 = t.toNat := by omega
  simp only [saveShort, List.cons_append, List.nil_append, List.length_cons, List.length_nil, List.take_succ_cons,
    List.take_zero, List.getD_cons_zero, List.getD_cons_succ, hlow, hhigh]
  rw [ofNat_or_shiftLeft (by omega), hsum, BitVec.ofNat_toNat, BitVec.setWidth_eq]

theorem reads_integer (ty : IntType) (hty : ty.signed = false) (t : BitVec ty.bits) :
    ∃ bytes, save ty t = .ok bytes ∧ Reads IStream.bytes (loadInteger ty) bytes t := by
  obtain ⟨bytes, hsave, hload⟩ := roundTrips_unsigned hty t
  refine ⟨bytes, hsave, bytes.length, fun fuel hfuel rest s hs => ?_⟩
  obtain ⟨r, hr, rfl, hrest, -⟩ := hload rest (s.byte 0) fuel hfuel
  refine ⟨{ s with bytes := r.stream, byte := fun n => s.byte (n + 1) }, ?_, hrest⟩
  rw [loadInteger, hs, hr]
  rfl

/-- A size below 2^32 is not changed by the narrowing. -/
theorem reads_size {size : Nat} (h : size < 2 ^ 32) :
    ∃ bytes, ∃ loaded : BitVec IntType.unsignedInt.bits, saveSize size = .ok bytes ∧
      Reads IStream.bytes (loadInteger .unsignedInt) bytes loaded ∧ loaded.toNat = size := by
  obtain ⟨bytes, hsave, hread⟩ := reads_integer .unsignedInt rfl (BitVec.ofNat 32 size)
  refine ⟨bytes, _, hsave, hread, ?_⟩
  change (BitVec.ofNat 32 size).toNat = size
  rw [BitVec.toNat_ofNat, Nat.mod_eq_of_lt h]

theorem reads_bytes (t : List UInt8) :
    Reads (ε := Fault) IStream.bytes (fun _ s => .ok (loadBytes t.length s)) t t := by
  refine .of_total fun rest s hs => ?_
  simp [loadBytes, hs, readBytes]

theorem reads_string {t : List UInt8} (h : t.length < 2 ^ 32) :
    ∃ bytes, saveString t = .ok bytes ∧ Reads IStream.bytes loadString bytes t := by
  obtain ⟨size, loaded, hsave, hread, hsize⟩ := reads_size h
  refine ⟨size ++ t, by rw [saveString, hsave]; rfl, ?_⟩
  have hbytes := reads_bytes t
  rw [← hsize] at hbytes
  exact hread.bind (k := fun size _ s => .ok (loadBytes size.toNat s)) hbytes

theorem reads_dtype (t : DType) :
    ∃ bytes, saveDType t = .ok bytes ∧ Reads IStream.bytes loadDType bytes t := by
  obtain ⟨dimension, hsave, hread⟩ := reads_integer .unsignedLongLong rfl t.dimension
  refine ⟨[t.elemType] ++ ([t.elemSize] ++ dimension), by rw [saveDType, hsave]; rfl, ?_⟩
  have helemSize := (reads_char t.elemSize).bind_total
    (k := fun elemSize => mapped (DType.mk t.elemType elemSize) (loadInteger .unsignedLongLong)) hread.map
  exact (reads_char t.elemType).bind_total
    (k := fun elemType fuel s =>
      mapped (DType.mk elemType (loadChar s).1) (loadInteger .unsignedLongLong) fuel (loadChar s).2) helemSize

/-- The bytes and the data type of a chunk, once its size is known. -/
theorem reads_chunkContent {size : Nat} {buffer dtypeBytes : List UInt8} {dtype : DType}
    (hsize : size = buffer.length) (hread : Reads IStream.bytes loadDType dtypeBytes dtype) :
    Reads IStream.bytes
      (fun fuel s =>
        mapped (Data.bufferChunk (τ := τ) (some (loadBytes size s).1)) loadDType fuel (loadBytes size s).2)
      (buffer ++ dtypeBytes) (.bufferChunk (some buffer) dtype) := by
  subst hsize
  exact (reads_bytes buffer).bind_total
    (k := fun buffer => mapped (Data.bufferChunk (some buffer)) loadDType) hread.map

/-- A null flag that is set: nothing follows. -/
theorem reads_nullFlag {α : Type} {read : Nat → IStream → Except Fault (α × IStream)} {t : α}
    (h : ∀ fuel s, (loadBool s).1 = true → read fuel s = .ok (t, (loadBool s).2)) :
    Reads IStream.bytes read (saveBool true) t := by
  refine ⟨0, fun fuel _ rest s hs => ⟨(loadBool s).2, h fuel s ?_, ?_⟩⟩ <;>
    simp [loadBool, hs, saveBool, readByte]

/-- A null flag that is not set, and what follows it. -/
theorem reads_notNull {α : Type} {read content : Nat → IStream → Except Fault (α × IStream)}
    {bytes : List UInt8} {t : α} (hcontent : Reads IStream.bytes content bytes t)
    (h : ∀ fuel s, (loadBool s).1 = false → read fuel s = content fuel (loadBool s).2) :
    Reads IStream.bytes read (saveBool false ++ bytes) t := by
  obtain ⟨n, hn⟩ := hcontent
  refine ⟨n, fun fuel hfuel rest s hs => ?_⟩
  have hflag : (loadBool s).1 = false := by simp [loadBool, hs, saveBool, readByte]
  have hbytes : (loadBool s).2.bytes = bytes ++ rest := by simp [loadBool, hs, saveBool, readByte]
  rw [h fuel s hflag]
  exact hn fuel hfuel rest _ hbytes

/-! ### Loops -/

theorem loop_bools (t : List Bool) (init : List Bool) :
    Reads (ε := Fault) IStream.bytes
      (fun _ => readLoop (fun s => .ok (loadBool s))
        (fun (r : Nat × List Bool) elem => (r.1 + 1, r.2.set r.1 elem)) t.length
        (init.length, init ++ List.replicate t.length false))
      (t.flatMap saveBool) (init.length + t.length, init ++ t) := by
  induction t generalizing init with
  | nil => simpa using Reads.loop_nil (init.length, init)
  | cons elem t ih =>
      have hset : (init ++ List.replicate (t.length + 1) false).set init.length elem =
          (init ++ [elem]) ++ List.replicate t.length false := by
        simp [List.replicate_succ]
      have hih := ih (init ++ [elem])
      rw [List.flatMap_cons]
      refine .loop_cons (reads_bool elem) ?_
      simp only [List.length_cons, hset]
      simpa [Nat.add_assoc, Nat.add_comm 1] using hih

section Elements

variable [DecidableEq τ]

/-- Elements that are saved one after the other are loaded in a loop. -/
theorem loop_elements {t : List (Data τ)} {elem : DataType}
    (h : ∀ x ∈ t, ∃ bytes, saveData E find x = .ok bytes ∧
      Reads IStream.bytes (fun fuel => loadData E find less fuel elem) bytes x) :
    ∃ bytes, saveElements E find t = .ok bytes ∧
      ∀ (add : List (Data τ) → Data τ → List (Data τ)) (acc : List (Data τ)),
        Reads IStream.bytes (fun fuel => readLoop (loadData E find less fuel elem) add t.length acc) bytes
          (t.foldl add acc) := by
  induction t with
  | nil => exact ⟨[], rfl, fun add acc => .loop_nil acc⟩
  | cons x t ih =>
      obtain ⟨bytes, hsave, hread⟩ := h x List.mem_cons_self
      obtain ⟨bytes', hsave', hread'⟩ := ih fun y hy => h y (List.mem_cons_of_mem _ hy)
      refine ⟨bytes ++ bytes', by rw [saveElements, hsave, hsave']; rfl, fun add acc => ?_⟩
      exact .loop_cons hread (hread' add (add acc x))

/-- A container: a size and elements. -/
theorem reads_container {t : List (Data τ)} {elem : DataType} (hsize : t.length < 2 ^ 32)
    (h : ∀ x ∈ t, ∃ bytes, saveData E find x = .ok bytes ∧
      Reads IStream.bytes (fun fuel => loadData E find less fuel elem) bytes x)
    (add : List (Data τ) → Data τ → List (Data τ)) (make : List (Data τ) → Data τ) :
    ∃ size elems, saveSize t.length = .ok size ∧ saveElements E find t = .ok elems ∧
      Reads IStream.bytes
        (fun fuel s => do
          let (size, s) ← loadInteger .unsignedInt fuel s
          let (t, s) ← readLoop (loadData E find less fuel elem) add size.toNat [] s
          .ok (make t, s))
        (size ++ elems) (make (t.foldl add [])) := by
  obtain ⟨size, loaded, hsave, hread, htoNat⟩ := reads_size hsize
  obtain ⟨elems, hsave', hread'⟩ := loop_elements h
  refine ⟨size, elems, hsave, hsave', ?_⟩
  have hloop := hread' add []
  rw [← htoNat] at hloop
  exact hread.bind
    (k := fun size => mapped make fun fuel => readLoop (loadData E find less fuel elem) add size.toNat []) hloop.map

end Elements

theorem foldl_append {α : Type} (t acc : List α) : t.foldl (fun t x => t ++ [x]) acc = acc ++ t := by
  induction t generalizing acc with
  | nil => simp
  | cons x t ih => simp [ih]

/-- Elements in ascending order are all inserted at the end. -/
theorem foldl_emplaceHint {α : Type} {less : α → α → Bool} {key : α → α} {t acc : List α}
    (h : ((acc ++ t).map key).IsChain fun x y => less x y = true) :
    t.foldl (emplaceHint less key) acc = acc ++ t := by
  induction t generalizing acc with
  | nil => simp
  | cons x t ih =>
      have hinsert : emplaceHint less key acc x = acc ++ [x] := by
        unfold emplaceHint
        cases hlast : acc.getLast? with
        | none => simp [List.getLast?_eq_none_iff.mp hlast]
        | some last =>
            rw [List.map_append, List.isChain_append] at h
            have hless := h.2.2 (key last) (by simp [hlast]) (key x) (by simp)
            simp [hless]
      rw [List.foldl_cons, hinsert, ih (by simpa using h)]
      simp

/-! ### The registry -/

theorem foldl_register {types : List τ} {map : BitVec 64 → Option τ} {key : BitVec 64} {type : τ}
    (hkey : ∀ other ∈ types, E.hashCode other = key ∨ E.getHash other = key → other = type)
    (h : map key = some type ∨ ∃ other ∈ types, E.hashCode other = key ∨ E.getHash other = key) :
    types.foldl E.register map key = some type := by
  induction types generalizing map with
  | nil => simpa using h
  | cons first types ih =>
      refine ih (fun other hmem => hkey other (List.mem_cons_of_mem _ hmem)) ?_
      by_cases hfirst : E.hashCode first = key ∨ E.getHash first = key
      · left
        have htype := hkey first List.mem_cons_self hfirst
        rcases hfirst with h | h <;> simp [ObjectTypes.register, Function.update_apply, ← h, htype]
      · push Not at hfirst
        rcases h with h | ⟨other, hmem, hother⟩
        · exact .inl (by simp [ObjectTypes.register, Ne.symm hfirst.1, Ne.symm hfirst.2, h])
        · rcases List.mem_cons.mp hmem with rfl | hmem
          · rcases hother with hother | hother
            · exact absurd hother hfirst.1
            · exact absurd hother hfirst.2
          · exact .inr ⟨other, hmem, hother⟩

/-- Types with distinct hashes are found under both of theirs. -/
theorem find_registered {types : List τ}
    (hdistinct : ∀ a ∈ types, ∀ b ∈ types, a ≠ b →
      E.hashCode a ≠ E.hashCode b ∧ E.hashCode a ≠ E.getHash b ∧ E.getHash a ≠ E.getHash b)
    {type : τ} (hmem : type ∈ types) :
    E.entries types (E.hashCode type) = some type ∧ E.entries types (E.getHash type) = some type := by
  refine ⟨foldl_register (fun other hother hkey => ?_) (.inr ⟨type, hmem, .inl rfl⟩),
    foldl_register (fun other hother hkey => ?_) (.inr ⟨type, hmem, .inr rfl⟩)⟩
  · by_contra hne
    rcases hkey with hkey | hkey
    · exact (hdistinct other hother type hmem hne).1 hkey
    · exact (hdistinct type hmem other hother (Ne.symm hne)).2.1 hkey.symm
  · by_contra hne
    rcases hkey with hkey | hkey
    · exact (hdistinct other hother type hmem hne).2.1 hkey
    · exact (hdistinct other hother type hmem hne).2.2 hkey

/-! ### Values -/

/-- The values of a type: sizes are below 2^32, the keys of a map and the elements of a set
are in ascending order, and an object holds a type that the registry has under its hash
code and its id. A null chunk has a data type that satisfies `nulls`. -/
inductive Valid (E : ObjectTypes τ) (find : BitVec 64 → Option τ) (less : Data τ → Data τ → Bool)
    (nulls : DType → Prop) : DataType → Data τ → Prop
  | bool (t) : Valid E find less nulls .bool (.bool t)
  | char (t) : Valid E find less nulls .char (.char t)
  | short (t) : Valid E find less nulls .short (.short t)
  | unsignedInt (t) : Valid E find less nulls .unsignedInt (.unsignedInt t)
  | unsignedLongLong (t) : Valid E find less nulls .unsignedLongLong (.unsignedLongLong t)
  | string {t} : t.length < 2 ^ 32 → Valid E find less nulls .string (.string t)
  | boolVector {t} : t.length < 2 ^ 32 → Valid E find less nulls .boolVector (.boolVector t)
  | vector {elem t} : t.length < 2 ^ 32 → (∀ x ∈ t, Valid E find less nulls elem x) →
      Valid E find less nulls (.vector elem) (.vector t)
  | map {key mapped t} : t.length < 2 ^ 32 → (∀ x ∈ t, Valid E find less nulls (.pair key mapped) x) →
      (t.map Data.first).IsChain (fun x y => less x y = true) →
      Valid E find less nulls (.map key mapped) (.map t)
  | set {elem t} : t.length < 2 ^ 32 → (∀ x ∈ t, Valid E find less nulls elem x) →
      t.IsChain (fun x y => less x y = true) → Valid E find less nulls (.set elem) (.set t)
  | pair {first second t u} : Valid E find less nulls first t → Valid E find less nulls second u →
      Valid E find less nulls (.pair first second) (.pair t u)
  | dtype (t) : Valid E find less nulls .dtype (.dtype t)
  | label {id data} (index width) : id.length < 2 ^ 32 → Valid E find less nulls .object data →
      Valid E find less nulls .label (.label id data index width)
  | null : Valid E find less nulls .object .null
  | object {type value} : find (E.hashCode type) = some type → find (E.getHash type) = some type →
      Valid E find less nulls (E.valueType type) value → Valid E find less nulls .object (.object type value)
  | bufferChunk {buffer} (dtype) : buffer.length < 2 ^ 32 →
      Valid E find less nulls .bufferChunk (.bufferChunk (some buffer) dtype)
  | nullChunk {dtype} : nulls dtype → Valid E find less nulls .bufferChunk (.bufferChunk none dtype)

variable [DecidableEq τ]

/-- A value is saved to bytes from which it is loaded. -/
def SavedAndLoaded (E : ObjectTypes τ) (find : BitVec 64 → Option τ) (less : Data τ → Data τ → Bool)
    (type : DataType) (t : Data τ) : Prop :=
  ∃ bytes, saveData E find t = .ok bytes ∧
    Reads IStream.bytes (fun fuel => loadData E find less fuel type) bytes t

theorem savedAndLoaded_boolVector {t : List Bool} (h : t.length < 2 ^ 32) :
    SavedAndLoaded E find less .boolVector (.boolVector t) := by
  obtain ⟨size, loaded, hsave, hread, htoNat⟩ := reads_size h
  refine ⟨size ++ t.flatMap saveBool, by rw [saveData, hsave]; rfl, .succ ?_⟩
  have hloop := loop_bools t []
  rw [← htoNat] at hloop
  exact hread.bind
    (k := fun size => mapped (fun t => Data.boolVector t.2) fun _ => readLoop (fun s => .ok (loadBool s))
      (fun (r : Nat × List Bool) elem => (r.1 + 1, r.2.set r.1 elem)) size.toNat
      (0, List.replicate size.toNat false)) hloop.map

theorem savedAndLoaded_pair {first second : DataType} {t u : Data τ} (ht : SavedAndLoaded E find less first t)
    (hu : SavedAndLoaded E find less second u) : SavedAndLoaded E find less (.pair first second) (.pair t u) := by
  obtain ⟨bytes, hsave, hread⟩ := ht
  obtain ⟨bytes', hsave', hread'⟩ := hu
  refine ⟨bytes ++ bytes', by rw [saveData, hsave, hsave']; rfl, .succ ?_⟩
  exact hread.bind
    (k := fun t => mapped (Data.pair t) fun fuel => loadData E find less fuel second) hread'.map

theorem savedAndLoaded_label {id : List UInt8} {data : Data τ} (index width : BitVec 64)
    (hid : id.length < 2 ^ 32) (hdata : SavedAndLoaded E find less .object data) :
    SavedAndLoaded E find less .label (.label id data index width) := by
  obtain ⟨idBytes, hsaveId, hreadId⟩ := reads_string hid
  obtain ⟨dataBytes, hsaveData, hreadData⟩ := hdata
  obtain ⟨indexBytes, hsaveIndex, hreadIndex⟩ := reads_integer .unsignedLongLong rfl index
  obtain ⟨widthBytes, hsaveWidth, hreadWidth⟩ := reads_integer .unsignedLongLong rfl width
  refine ⟨idBytes ++ (dataBytes ++ (indexBytes ++ widthBytes)),
    by rw [saveData, hsaveId, hsaveData, hsaveIndex, hsaveWidth]; rfl, .succ ?_⟩
  have hindex := hreadIndex.bind
    (k := fun index => mapped (Data.label id data index) (loadInteger .unsignedLongLong)) hreadWidth.map
  have hrest := hreadData.bind
    (k := fun data => andThen (loadInteger .unsignedLongLong) fun index =>
      mapped (Data.label id data index) (loadInteger .unsignedLongLong)) hindex
  exact hreadId.bind
    (k := fun id => andThen (fun fuel => loadData E find less fuel .object) fun data =>
      andThen (loadInteger .unsignedLongLong) fun index =>
        mapped (Data.label id data index) (loadInteger .unsignedLongLong)) hrest

/-- What is behind the hash of an object's type. -/
def loadEntry (E : ObjectTypes τ) (find : BitVec 64 → Option τ) (less : Data τ → Data τ → Bool)
    (idHash : BitVec 64) (fuel : Nat) (s : IStream) : Except Fault (Data τ × IStream) :=
  match find idHash with
  | none => .error (noEntry idHash)
  | some entry => mapped (Data.object entry) (fun fuel => loadData E find less fuel (E.valueType entry)) fuel s

theorem savedAndLoaded_object {type : τ} {value : Data τ} (htype : find (E.hashCode type) = some type)
    (hid : find (E.getHash type) = some type) (hvalue : SavedAndLoaded E find less (E.valueType type) value) :
    SavedAndLoaded E find less .object (.object type value) := by
  obtain ⟨hash, hsaveHash, hreadHash⟩ := reads_integer .unsignedLongLong rfl (E.getHash type)
  obtain ⟨bytes, hsave, hread⟩ := hvalue
  refine ⟨saveBool false ++ (hash ++ bytes), ?_, .succ ?_⟩
  · rw [saveData, htype]
    simp only [if_true]
    rw [hsaveHash, hsave]
    rfl
  · have hentry : Reads IStream.bytes (loadEntry E find less (E.getHash type)) bytes (Data.object type value) := by
      unfold loadEntry
      rw [hid]
      exact hread.map
    have hpointer := hreadHash.bind (k := loadEntry E find less) hentry
    refine reads_notNull hpointer fun fuel s hs => ?_
    simp only [loadData, hs]
    rfl

theorem savedAndLoaded_bufferChunk {buffer : List UInt8} (dtype : DType) (h : buffer.length < 2 ^ 32) :
    SavedAndLoaded E find less .bufferChunk (.bufferChunk (some buffer) dtype) := by
  obtain ⟨length, loaded, hsaveLength, hreadLength, htoNat⟩ := reads_size h
  obtain ⟨dtypeBytes, hsaveDType, hreadDType⟩ := reads_dtype dtype
  refine ⟨saveBool false ++ (length ++ (buffer ++ dtypeBytes)),
    by rw [saveData, hsaveLength, hsaveDType]; rfl, .succ ?_⟩
  have hcontent := reads_chunkContent (τ := τ) htoNat hreadDType
  have hchunk := hreadLength.bind
    (k := fun length fuel s => mapped (Data.bufferChunk (τ := τ) (some (loadBytes (BitVec.toNat length) s).1))
      loadDType fuel (loadBytes (BitVec.toNat length) s).2) hcontent
  refine reads_notNull hchunk fun fuel s hs => ?_
  simp only [loadData, hs]
  rfl

/-- The null flag alone. -/
theorem savedAndLoaded_null : SavedAndLoaded E find less .object .null := by
  refine ⟨saveBool true, rfl, .succ (reads_nullFlag fun fuel s hs => ?_)⟩
  simp only [loadData, hs]
  rfl

/-- A null chunk comes back with the default type, whatever type it had. -/
theorem reads_nullChunk (E : ObjectTypes τ) (find : BitVec 64 → Option τ) (less : Data τ → Data τ → Bool)
    (dtype : DType) : saveData E find (.bufferChunk none dtype) = .ok (saveBool true) ∧
    Reads IStream.bytes (fun fuel => loadData E find less fuel .bufferChunk) (saveBool true)
      (.bufferChunk none .default) := by
  refine ⟨rfl, .succ (reads_nullFlag fun fuel s hs => ?_)⟩
  simp only [loadData, hs]
  rfl

/-- **A valid value is saved and loaded again**, when null chunks have the default type. -/
theorem Valid.savedAndLoaded {type : DataType} {t : Data τ} (h : Valid E find less (· = .default) type t) :
    SavedAndLoaded E find less type t := by
  induction h with
  | bool t => exact ⟨_, rfl, .succ (reads_bool t).map⟩
  | char t => exact ⟨_, rfl, .succ (reads_char t).map⟩
  | short t => exact ⟨_, rfl, .succ (reads_short t).map⟩
  | unsignedInt t =>
      obtain ⟨bytes, hsave, hread⟩ := reads_integer .unsignedInt rfl t
      exact ⟨bytes, hsave, .succ hread.map⟩
  | unsignedLongLong t =>
      obtain ⟨bytes, hsave, hread⟩ := reads_integer .unsignedLongLong rfl t
      exact ⟨bytes, hsave, .succ hread.map⟩
  | string h =>
      obtain ⟨bytes, hsave, hread⟩ := reads_string h
      exact ⟨bytes, hsave, .succ hread.map⟩
  | boolVector h => exact savedAndLoaded_boolVector h
  | vector hsize _ ih =>
      obtain ⟨size, elems, hsave, hsave', hread⟩ := reads_container hsize ih (fun t x => t ++ [x]) .vector
      rw [foldl_append, List.nil_append] at hread
      exact ⟨size ++ elems, by rw [saveData, hsave, hsave']; rfl, .succ hread⟩
  | map hsize _ hchain ih =>
      obtain ⟨size, elems, hsave, hsave', hread⟩ := reads_container hsize ih (emplaceHint less Data.first) .map
      rw [foldl_emplaceHint (by simpa using hchain), List.nil_append] at hread
      exact ⟨size ++ elems, by rw [saveData, hsave, hsave']; rfl, .succ hread⟩
  | set hsize _ hchain ih =>
      obtain ⟨size, elems, hsave, hsave', hread⟩ := reads_container hsize ih (emplaceHint less id) .set
      rw [foldl_emplaceHint (by simpa using hchain), List.nil_append] at hread
      exact ⟨size ++ elems, by rw [saveData, hsave, hsave']; rfl, .succ hread⟩
  | pair _ _ iht ihu => exact savedAndLoaded_pair iht ihu
  | dtype t =>
      obtain ⟨bytes, hsave, hread⟩ := reads_dtype t
      exact ⟨bytes, hsave, .succ hread.map⟩
  | label index width hid _ ih => exact savedAndLoaded_label index width hid ih
  | null => exact savedAndLoaded_null
  | object htype hid _ ih => exact savedAndLoaded_object htype hid ih
  | bufferChunk dtype h => exact savedAndLoaded_bufferChunk dtype h
  | nullChunk h =>
      subst h
      exact ⟨_, reads_nullChunk E find less .default⟩

/-! ### Archives -/

/-- What is saved by an archiver is loaded by an archiver again, which leaves exactly the
bytes that follow. -/
def Decodes (E : ObjectTypes τ) (find : BitVec 64 → Option τ) (less : Data τ → Data τ → Bool)
    (type : DataType) (t : Data τ) : Prop :=
  ∃ bytes, encode E find t = .ok bytes ∧
    Reads IStream.bytes (fun fuel => decode E find less type fuel) bytes t

/-- The version goes before what is saved. -/
theorem encode_ok {type : DataType} {t u : Data τ} {bytes : List UInt8} (hsave : saveData E find t = .ok bytes)
    (hread : Reads IStream.bytes (fun fuel => loadData E find less fuel type) bytes u) :
    ∃ archive, encode E find t = .ok archive ∧
      Reads IStream.bytes (fun fuel => decode E find less type fuel) archive u := by
  obtain ⟨ver, hsaveVer, hreadVer⟩ := reads_integer .unsignedInt rfl archiveVersion
  refine ⟨ver ++ bytes, ?_, ?_⟩
  · rw [encode, hsaveVer, hsave]
    rfl
  · exact hreadVer.bind (k := fun _ fuel s => loadData E find less fuel type s) hread

/-- **A valid value is decoded from what it is encoded to**, when its null chunks have the default type. -/
theorem decodes_encoded {type : DataType} {t : Data τ} (h : Valid E find less (· = .default) type t) :
    Decodes E find less type t := by
  obtain ⟨bytes, hsave, hread⟩ := h.savedAndLoaded
  exact encode_ok hsave hread

/-- The types of an object in the runs below. -/
inductive Builtin
  | string
  | objectKwargs
  deriving DecidableEq

def builtins : ObjectTypes Builtin where
  valueType
    | .string => .string
    | .objectKwargs => .map .string .object
  hashCode
    | .string => 1
    | .objectKwargs => 2
  name
    | .string => "Pothos::Detail::ObjectContainerT<std::string>"
    | .objectKwargs => "Pothos::Detail::ObjectContainerT<Pothos::ObjectKwargs>"
  id
    | .string => "Pothos::Object<std::string>".toList.map fun ch => UInt8.ofNat ch.toNat
    | .objectKwargs => "Pothos::Object<Pothos::ObjectKwargs>".toList.map fun ch => UInt8.ofNat ch.toNat

def lessString : Data Builtin → Data Builtin → Bool
  | .string t, .string u => decide (t < u)
  | _, _ => false

/-- A label with a map, of a string and a null object, and a chunk with two bytes and a null
chunk. -/
theorem decodes_encoded_label :
    Decodes builtins (builtins.entries [.string, .objectKwargs]) lessString
      (.pair .label (.vector .bufferChunk))
      (.pair
        (.label [105] (.object .objectKwargs
          (.map [.pair (.string [97]) (.object .string (.string [120])), .pair (.string [98]) .null])) 7 1)
        (.vector [.bufferChunk (some [1, 2]) ⟨3, 2, 1⟩, .bufferChunk none .default])) := by
  have hfind : ∀ type : Builtin,
      builtins.entries [.string, .objectKwargs] (builtins.hashCode type) = some type ∧
        builtins.entries [.string, .objectKwargs] (builtins.getHash type) = some type := by
    intro type
    refine find_registered (by decide +kernel) ?_
    cases type <;> simp
  refine decodes_encoded (.pair (.label 7 1 (by decide) ?_) (.vector (by decide) ?_))
  · refine .object (hfind _).1 (hfind _).2 (.map (by decide) ?_ (by simp [Data.first, lessString]; decide))
    simp only [List.forall_mem_cons, List.not_mem_nil, false_imp_iff, implies_true, and_true]
    exact ⟨.pair (.string (by decide)) (.object (hfind _).1 (hfind _).2 (.string (by decide))),
      .pair (.string (by decide)) .null⟩
  · simp only [List.forall_mem_cons, List.not_mem_nil, false_imp_iff, implies_true, and_true]
    exact ⟨.bufferChunk _ (by decide), .nullChunk rfl⟩

/-- A null chunk of another type does not. -/
theorem not_decodes_nullChunk :
    Valid builtins (builtins.entries [.string, .objectKwargs]) lessString (fun _ => True) .bufferChunk
        (.bufferChunk none ⟨3, 4, 1⟩) ∧
      ¬ Decodes builtins (builtins.entries [.string, .objectKwargs]) lessString .bufferChunk
        (.bufferChunk none ⟨3, 4, 1⟩) := by
  refine ⟨.nullChunk trivial, fun ⟨bytes, hencode, hread⟩ => ?_⟩
  obtain ⟨hsave, hload⟩ :=
    reads_nullChunk builtins (builtins.entries [.string, .objectKwargs]) lessString ⟨3, 4, 1⟩
  obtain ⟨archive, hencode', hread'⟩ := encode_ok hsave hload
  cases Except.ok.inj (hencode.symm.trans hencode')
  have hsame := hread.unique hread' ⟨bytes, fun _ => 0, fun _ => 0⟩ rfl
  simp [DType.default] at hsame

end PothosCore.Archive

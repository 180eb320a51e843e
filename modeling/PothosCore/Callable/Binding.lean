import PothosCore.Callable.OpaqueCall
import PothosCore.Object.NumberConvert

/-!
# PothosCore.Callable.Binding

What `opaqueCall` passes to the function, and what `bind` and `unbind` change.

The loop of `opaqueCall` carries the index of the next input. It is the number of unbound
positions so far, and with that each position can be looked at on its own: `argument` is
what is there, and the loop is `passed` at each position in turn (`callArgs_eq`).
-/

namespace PothosCore.Callables.Callable

variable {τ ο : Type} {convert : Option ο → τ → Except Fault (Option ο)} {impl : CallableContainer τ ο}
variable {boundArgs boundArgs' inputArgs : List (Option ο)}

/-! ### What is passed -/

/-- What is at a position before the conversion. -/
def argument (boundArgs inputArgs : List (Option ο)) (i : Nat) : Except Fault (Option ο) :=
  match boundArg boundArgs i with
  | some val => .ok (some val)
  | none =>
      let inputArgsIndex := Nat.count (Unbound boundArgs) i
      if inputArgs.length ≤ inputArgsIndex then
        .error (argumentError "Pothos::Callable::call()" s!"expected input argument at {inputArgsIndex}")
      else .ok (inputArgs.getD inputArgsIndex none)

/-- What is passed at a position. -/
def passed (convert : Option ο → τ → Except Fault (Option ο)) (impl : CallableContainer τ ο)
    (boundArgs inputArgs : List (Option ο)) (i : Nat) : Except Fault (Option ο) := do
  let arg ← argument boundArgs inputArgs i
  convertArg convert impl i arg

/-- **The loop of `opaqueCall`** passes what is at each position, if it starts with the
input that is next there. -/
theorem callArgs_eq (remaining i : Nat) :
    callArgs convert impl boundArgs inputArgs remaining i (Nat.count (Unbound boundArgs) i) =
      (List.range' i remaining).mapM (passed convert impl boundArgs inputArgs) := by
  induction remaining generalizing i with
  | zero => rfl
  | succ remaining ih =>
      rw [callArgs, List.range'_succ, List.mapM_cons, passed, argument]
      cases hb : boundArg boundArgs i with
      | some val =>
          rw [← count_unbound_bound hb, ih]
          rfl
      | none =>
          dsimp only
          split
          · rfl
          · rw [← count_unbound_unbound hb, ih]
            rfl

theorem opaqueCall_eq (inputArgs : List (Option ο)) :
    opaqueCall convert ⟨boundArgs, some impl⟩ inputArgs =
      match (List.range impl.getNumArgs).mapM (passed convert impl boundArgs inputArgs) with
      | .error fault => ⟨[], .error fault⟩
      | .ok args => ⟨[args], impl.call args⟩ := by
  rw [List.range_eq_range', ← callArgs_eq, Nat.count_zero]
  rfl

theorem convertArg_ok {i : Nat} (hi : i < impl.getNumArgs) {arg out : Option ο} :
    convertArg convert impl i arg = .ok out ↔ convert arg (impl.type i) = .ok out := by
  rw [convertArg, toInt_eq (Nat.lt_trans hi impl.getNumArgs_lt)]
  cases convert arg (impl.type i) with
  | ok y => rfl
  | error fault =>
      constructor
      · intro h
        split at h <;> cases h
      · intro h
        cases h

/-- The arguments of a call: the bound values, and the inputs at the unbound positions, each
converted to the type that is declared there. -/
structure Passes (convert : Option ο → τ → Except Fault (Option ο)) (c : Callable τ ο)
    (impl : CallableContainer τ ο) (inputArgs args : List (Option ο)) : Prop where
  length : args.length = impl.getNumArgs
  bound : ∀ i < impl.getNumArgs, ∀ val, boundArg c.boundArgs i = some val →
    convert (some val) (impl.type i) = .ok (args.getD i none)
  unbound : ∀ k < Nat.count (Unbound c.boundArgs) impl.getNumArgs, ∃ type, c.type k = .ok type ∧
    convert (inputArgs.getD k none) type = .ok (args.getD (Nat.nth (Unbound c.boundArgs) k) none)

theorem argument_bound {i : Nat} {val : ο} (h : boundArg boundArgs i = some val) :
    argument boundArgs inputArgs i = .ok (some val) := by
  rw [argument, h]

theorem argument_unbound {i : Nat} (h : boundArg boundArgs i = none)
    (hlt : Nat.count (Unbound boundArgs) i < inputArgs.length) :
    argument boundArgs inputArgs i = .ok (inputArgs.getD (Nat.count (Unbound boundArgs) i) none) := by
  rw [argument, h]
  exact if_neg (Nat.not_le_of_lt hlt)

theorem passed_bound {i : Nat} {val : ο} {out : Option ο} (hi : i < impl.getNumArgs)
    (h : boundArg boundArgs i = some val) :
    passed convert impl boundArgs inputArgs i = .ok out ↔ convert (some val) (impl.type i) = .ok out := by
  rw [passed, argument_bound h]
  exact convertArg_ok hi

theorem passed_unbound {i : Nat} {out : Option ο} (hi : i < impl.getNumArgs) (h : boundArg boundArgs i = none)
    (hlt : Nat.count (Unbound boundArgs) i < inputArgs.length) :
    passed convert impl boundArgs inputArgs i = .ok out ↔
      convert (inputArgs.getD (Nat.count (Unbound boundArgs) i) none) (impl.type i) = .ok out := by
  rw [passed, argument_unbound h hlt]
  exact convertArg_ok hi

/-- Below `n`, an unbound position is counted before `n`. -/
theorem count_unbound_lt {i n : Nat} (h : boundArg boundArgs i = none) (hi : i < n) :
    Nat.count (Unbound boundArgs) i < Nat.count (Unbound boundArgs) n := by
  have hsucc := count_unbound_unbound h
  have hmono : Nat.count (Unbound boundArgs) (i + 1) ≤ Nat.count (Unbound boundArgs) n :=
    Nat.count_monotone (Unbound boundArgs) hi
  omega

/-- With inputs for all unbound positions, the loop passes exactly these arguments. -/
theorem mapM_passed_iff (henough : Nat.count (Unbound boundArgs) impl.getNumArgs ≤ inputArgs.length)
    {args : List (Option ο)} :
    (List.range impl.getNumArgs).mapM (passed convert impl boundArgs inputArgs) = .ok args ↔
      Passes convert ⟨boundArgs, some impl⟩ impl inputArgs args := by
  have hinput {i : Nat} (hi : i < impl.getNumArgs) (h : boundArg boundArgs i = none) :
      Nat.count (Unbound boundArgs) i < inputArgs.length :=
    Nat.lt_of_lt_of_le (count_unbound_lt h hi) henough
  rw [mapM_ok_iff, List.forall₂_iff_get]
  constructor
  · intro h
    obtain ⟨hlen, hpassed⟩ := h
    rw [List.length_range] at hlen
    have hpassed (i : Nat) (hi : i < impl.getNumArgs) :
        passed convert impl boundArgs inputArgs i = .ok (args.getD i none) := by
      have hargs : i < args.length := hlen ▸ hi
      have hget := hpassed i (List.length_range.symm ▸ hi) hargs
      rwa [List.get_eq_getElem, List.getElem_range, List.get_eq_getElem,
        ← List.getD_eq_getElem args none hargs] at hget
    refine ⟨hlen.symm, ?_, ?_⟩
    · intro i hi val hval
      exact (passed_bound hi hval).mp (hpassed i hi)
    · intro k hk
      have hnth := Nat.nth_lt_of_lt_count hk
      have hfree : boundArg boundArgs (Nat.nth (Unbound boundArgs) k) = none := boundArg_nth k
      have hcount : Nat.count (Unbound boundArgs) (Nat.nth (Unbound boundArgs) k) = k := count_nth k
      have hconv := (passed_unbound hnth hfree (hinput hnth hfree)).mp (hpassed _ hnth)
      rw [hcount] at hconv
      exact ⟨_, type_eq hk, hconv⟩
  · intro h
    refine ⟨List.length_range.trans h.length.symm, ?_⟩
    intro i hi hi'
    rw [List.length_range] at hi
    rw [List.get_eq_getElem, List.getElem_range, List.get_eq_getElem, ← List.getD_eq_getElem args none hi']
    cases hb : boundArg boundArgs i with
    | some val => exact (passed_bound hi hb).mpr (h.bound i hi val hb)
    | none =>
        have hk := count_unbound_lt hb hi
        obtain ⟨type, htype, hconv⟩ := h.unbound _ hk
        rw [type_eq hk, Except.ok.injEq] at htype
        rw [← htype, nth_unbound hb rfl] at hconv
        exact (passed_unbound hi hb (hinput hi hb)).mpr hconv

/-- **A call with enough inputs** calls the function once with the arguments, if all of them
convert, -/
theorem opaqueCall_passes (henough : Nat.count (Unbound boundArgs) impl.getNumArgs ≤ inputArgs.length)
    {args : List (Option ο)} (h : Passes convert ⟨boundArgs, some impl⟩ impl inputArgs args) :
    opaqueCall convert ⟨boundArgs, some impl⟩ inputArgs = ⟨[args], impl.call args⟩ := by
  rw [opaqueCall_eq, (mapM_passed_iff henough).mpr h]

/-- and throws before it is called if one does not. -/
theorem opaqueCall_unconverted (henough : Nat.count (Unbound boundArgs) impl.getNumArgs ≤ inputArgs.length)
    (h : ¬ ∃ args, Passes convert ⟨boundArgs, some impl⟩ impl inputArgs args) :
    ∃ fault, opaqueCall convert ⟨boundArgs, some impl⟩ inputArgs = ⟨[], .error fault⟩ := by
  rw [opaqueCall_eq]
  cases hm : (List.range impl.getNumArgs).mapM (passed convert impl boundArgs inputArgs) with
  | error fault => exact ⟨fault, rfl⟩
  | ok args => exact absurd ⟨args, (mapM_passed_iff henough).mp hm⟩ h

/-- **A call with fewer inputs** throws before the function is called. -/
theorem opaqueCall_lacking (hfew : inputArgs.length < Nat.count (Unbound boundArgs) impl.getNumArgs) :
    ∃ fault, opaqueCall convert ⟨boundArgs, some impl⟩ inputArgs = ⟨[], .error fault⟩ := by
  -- the first unbound position without an input
  have hlacks : ∃ fault,
      passed convert impl boundArgs inputArgs (Nat.nth (Unbound boundArgs) inputArgs.length) = .error fault := by
    rw [passed, argument, boundArg_nth]
    dsimp only
    rw [count_nth, if_pos (Nat.le_refl _)]
    exact ⟨_, rfl⟩
  obtain ⟨fault, hfault⟩ :=
    mapM_error_iff.mpr ⟨_, List.mem_range.mpr (Nat.nth_lt_of_lt_count hfew), hlacks⟩
  rw [opaqueCall_eq, hfault]
  exact ⟨fault, rfl⟩

/-! ### What `bind` and `unbind` change -/

theorem boundArg_takeD {size : Nat} (h : boundArgs.length ≤ size) (i : Nat) :
    boundArg (boundArgs.takeD size none) i = boundArg boundArgs i := by
  induction boundArgs generalizing size i with
  | nil => simp [boundArg]
  | cons arg boundArgs ih =>
      cases size with
      | zero => cases h
      | succ size =>
          cases i with
          | zero => rfl
          | succ i => exact ih (Nat.le_of_succ_le_succ h) i

theorem boundArg_set {argNo : Nat} (h : argNo < boundArgs.length) (val : Option ο) (i : Nat) :
    boundArg (boundArgs.set argNo val) i = if i = argNo then val else boundArg boundArgs i := by
  rw [boundArg, List.getD_eq_getElem?_getD, List.getElem?_set]
  split
  · next heq => simp [heq.symm]
  · next hne => rw [if_neg (Ne.symm hne), boundArg, List.getD_eq_getElem?_getD]

/-- **`bind` changes one position.** -/
theorem of_bind {c c' : Callable τ ο} {val : Option ο} {argNo : Nat} (h : c.bind val argNo = .ok c') :
    c'.impl = c.impl ∧ argNo < c'.boundArgs.length ∧
      ∀ i, boundArg c'.boundArgs i = if i = argNo then val else boundArg c.boundArgs i := by
  obtain ⟨boundArgs, hresize, h⟩ := bind_ok h
  split at h
  · next hlt =>
      cases h
      refine ⟨rfl, by rwa [List.length_set], ?_⟩
      intro i
      rw [boundArg_set hlt]
      unfold grown at hresize
      split at hresize
      · next hle =>
          unfold resize at hresize
          split at hresize
          · cases hresize
          · cases hresize
            rw [List.takeD_length] at hlt
            rw [boundArg_takeD (by omega)]
      · cases hresize
        rfl
  · cases h

/-- A position in the vector can be bound. -/
theorem bind_of_lt {c : Callable τ ο} {argNo : Nat} (h : argNo < c.boundArgs.length) (val : Option ο) :
    c.bind val argNo = .ok { c with boundArgs := c.boundArgs.set argNo val } := by
  rw [Callable.bind, grown, if_neg (Nat.not_le_of_lt h)]
  exact if_pos h

/-- Every position that the vector has, or can grow to, can be bound. -/
theorem bind_returns {c : Callable τ ο} {argNo : Nat} (h : argNo < max c.boundArgs.length maxSize) (val : Option ο) :
    ∃ c', c.bind val argNo = .ok c' := by
  rcases Nat.lt_or_ge argNo c.boundArgs.length with hlt | hge
  · exact ⟨_, bind_of_lt hlt val⟩
  · have hmax : argNo < maxSize := (lt_max_iff.mp h).resolve_left (Nat.not_lt_of_le hge)
    have hsize : (argNo + 1) % 2 ^ 64 = argNo + 1 :=
      Nat.mod_eq_of_lt (Nat.lt_of_le_of_lt hmax (by decide))
    rw [Callable.bind, grown, if_pos hge, resize, hsize, if_neg (Nat.not_lt_of_le hmax)]
    exact ⟨_, if_pos (by rw [List.takeD_length]; exact Nat.lt_succ_self argNo)⟩

/-- A position further on is refused, as long as the size does not wrap. -/
theorem bind_refused {c : Callable τ ο} {argNo : Nat} (h : max c.boundArgs.length maxSize ≤ argNo)
    (hwrap : argNo + 1 < 2 ^ 64) (val : Option ο) : c.bind val argNo = .error lengthError := by
  have hmax : maxSize < argNo + 1 := Nat.lt_succ_of_le (Nat.le_trans (Nat.le_max_right _ _) h)
  rw [Callable.bind, grown, if_pos (Nat.le_trans (Nat.le_max_left _ _) h), resize, Nat.mod_eq_of_lt hwrap, if_pos hmax]
  rfl

/-- The two callables cannot be told apart by their arguments. -/
structure SameCalls (convert : Option ο → τ → Except Fault (Option ο)) (c c' : Callable τ ο) : Prop where
  getNumArgs : c'.getNumArgs = c.getNumArgs
  type : ∀ argNo, c'.type argNo = c.type argNo
  opaqueCall : ∀ inputArgs, c'.opaqueCall convert inputArgs = c.opaqueCall convert inputArgs

/-- Where the vector ends makes no difference. -/
theorem unbound_congr (h : ∀ i, boundArg boundArgs' i = boundArg boundArgs i) :
    Unbound boundArgs' = Unbound boundArgs := by
  funext i
  rw [Unbound, Unbound, h]

theorem count_unbound_congr (h : ∀ i, boundArg boundArgs' i = boundArg boundArgs i) (n : Nat) :
    Nat.count (Unbound boundArgs') n = Nat.count (Unbound boundArgs) n := by
  induction n with
  | zero => rfl
  | succ n ih => simp only [Nat.count_succ, unbound_iff, h, ih]

theorem passed_congr (h : ∀ i, boundArg boundArgs' i = boundArg boundArgs i) (inputArgs : List (Option ο)) :
    passed convert impl boundArgs' inputArgs = passed convert impl boundArgs inputArgs := by
  funext i
  rw [passed, passed, argument, argument, h, count_unbound_congr h]

theorem sameCalls_of_boundArg {c c' : Callable τ ο} (himpl : c'.impl = c.impl)
    (h : ∀ i, boundArg c'.boundArgs i = boundArg c.boundArgs i) : SameCalls convert c c' := by
  obtain ⟨boundArgs, impl⟩ := c
  obtain ⟨boundArgs', impl'⟩ := c'
  subst himpl
  cases impl' with
  | none => exact ⟨rfl, fun _ => rfl, fun _ => rfl⟩
  | some impl =>
      constructor
      · rw [getNumArgs_eq, getNumArgs_eq, count_unbound_congr h]
      · intro argNo
        rw [type_spec, type_spec, count_unbound_congr h, unbound_congr h]
      · intro inputArgs
        rw [opaqueCall_eq, opaqueCall_eq, passed_congr h]

/-- **`bind` and then `unbind`** at a position that is not bound. -/
theorem unbind_bind {c c' : Callable τ ο} {val : Option ο} {argNo : Nat} (hfree : boundArg c.boundArgs argNo = none)
    (h : c.bind val argNo = .ok c') : ∃ c'', c'.unbind argNo = .ok c'' ∧ SameCalls convert c c'' := by
  obtain ⟨himpl, hlt, hbound⟩ := of_bind h
  refine ⟨_, bind_of_lt hlt none, sameCalls_of_boundArg himpl ?_⟩
  intro i
  rw [boundArg_set hlt, hbound]
  split
  · next heq => rw [heq, hfree]
  · rfl

/-! ### The three functions agree -/

/-- What the bindings of a callable mean to `getNumArgs`, `type`, `opaqueCall`, `bind` and
`unbind`. -/
structure Consistent (convert : Option ο → τ → Except Fault (Option ο)) (c : Callable τ ο)
    (impl : CallableContainer τ ο) : Prop where
  /-- The number of arguments is that of the unbound positions of the function. -/
  getNumArgs : c.getNumArgs = .ok (Nat.count (Unbound c.boundArgs) impl.getNumArgs)
  /-- An argument has the type that is declared at its unbound position. -/
  type : ∀ k < Nat.count (Unbound c.boundArgs) impl.getNumArgs,
    c.type k = .ok (impl.type (Nat.nth (Unbound c.boundArgs) k))
  /-- With enough inputs the function is called, once, with the arguments; -/
  calls : ∀ inputArgs : List (Option ο), Nat.count (Unbound c.boundArgs) impl.getNumArgs ≤ inputArgs.length →
    ∀ args, Passes convert c impl inputArgs args → c.opaqueCall convert inputArgs = ⟨[args], impl.call args⟩
  /-- or an argument does not convert. -/
  unconverted : ∀ inputArgs : List (Option ο), Nat.count (Unbound c.boundArgs) impl.getNumArgs ≤ inputArgs.length →
    (¬ ∃ args, Passes convert c impl inputArgs args) →
      ∃ fault, c.opaqueCall convert inputArgs = ⟨[], .error fault⟩
  /-- With fewer, it is not called. -/
  lacking : ∀ inputArgs : List (Option ο), inputArgs.length < Nat.count (Unbound c.boundArgs) impl.getNumArgs →
    ∃ fault, c.opaqueCall convert inputArgs = ⟨[], .error fault⟩
  /-- `bind` returns, and binds its position and no other; -/
  bound : ∀ val, ∀ argNo < max c.boundArgs.length maxSize, ∃ c', c.bind val argNo = .ok c' ∧ c'.impl = some impl ∧
    ∀ i, boundArg c'.boundArgs i = if i = argNo then val else boundArg c.boundArgs i
  /-- or the position is one that no vector of objects has. -/
  refused : ∀ val argNo, max c.boundArgs.length maxSize ≤ argNo → argNo + 1 < 2 ^ 64 →
    c.bind val argNo = .error lengthError
  /-- `bind` and `unbind` at a position that was not bound restore all of it. -/
  restored : ∀ val, ∀ argNo < max c.boundArgs.length maxSize, boundArg c.boundArgs argNo = none →
    ∃ c' c'', c.bind val argNo = .ok c' ∧ c'.unbind argNo = .ok c'' ∧ SameCalls convert c c''

/-- **Bindings are consistent**, for every vector of them. -/
theorem binding_consistent (convert : Option ο → τ → Except Fault (Option ο)) (impl : CallableContainer τ ο)
    (boundArgs : List (Option ο)) : Consistent convert ⟨boundArgs, some impl⟩ impl where
  getNumArgs := getNumArgs_eq impl
  type := fun _ hk => type_eq hk
  calls := fun _ henough _ h => opaqueCall_passes henough h
  unconverted := fun _ henough h => opaqueCall_unconverted henough h
  lacking := fun _ hfew => opaqueCall_lacking hfew
  bound := by
    intro val argNo hargNo
    obtain ⟨c', hbind⟩ := bind_returns hargNo val
    obtain ⟨himpl, -, hbound⟩ := of_bind hbind
    exact ⟨c', hbind, himpl, hbound⟩
  refused := fun val _ h hwrap => bind_refused h hwrap val
  restored := by
    intro val argNo hargNo hfree
    obtain ⟨c', hbind⟩ := bind_returns hargNo val
    obtain ⟨c'', hunbind, hsame⟩ := unbind_bind hfree hbind
    exact ⟨c', c'', hbind, hunbind, hsame⟩

/-! ### What the code does not promise -/

open Numbers (Platform IntType Value)

variable {P : Platform}

/-- An object that holds a number, with its type. -/
abbrev NumberObject (P : Platform) : Type := (type : IntType) × Value P type

/-- `Object::convert` between objects that hold numbers. -/
def convertNumber (val : Option (NumberObject P)) (type : IntType) : Except Fault (Option (NumberObject P)) :=
  match val with
  | none => .error (.thrown "ObjectConvertError" "Pothos::Object::convert()"
      s!"doesnt support Pothos::NullObject to {type.typeString}")
  | some ⟨inType, x⟩ =>
      if inType = type then .ok (some ⟨inType, x⟩)
      else do
        let out ← Numbers.convertNum type x
        .ok (some ⟨type, out⟩)

/-- A function of one parameter of the given type, which returns its argument. -/
def identity (P : Platform) (type : IntType) : CallableContainer IntType (NumberObject P) where
  getNumArgs := 1
  type := fun _ => type
  call := fun args => .ok (args.getD 0 none)
  getNumArgs_lt := by decide

/-- An object that holds the number. -/
def number (type : IntType) (n : Int) (h : type.Represents P n) : NumberObject P := ⟨type, ⟨n, h⟩⟩

/-- A function of an `unsigned char`, with an `int` bound to its parameter. -/
def boundInt (n : Int) (h : IntType.Represents ⟨true, true⟩ .sint n) : Callable IntType (NumberObject ⟨true, true⟩) :=
  ⟨[some (number .sint n h)], some (identity ⟨true, true⟩ .uchar)⟩

/-- Over a position that is bound already, `unbind` does not restore the binding. A bound value
is converted before it is passed: an `int` of 3 to another object, one of 300 to none. And a
position can be too large to be bound. -/
theorem not_binding_consistent :
    (∃ c' c'', (boundInt 3 (by decide)).bind (some (number .sint 5 (by decide))) 0 = .ok c' ∧ c'.unbind 0 = .ok c'' ∧
      (boundInt 3 (by decide)).getNumArgs = .ok 0 ∧ c''.getNumArgs = .ok 1) ∧
    (boundInt 3 (by decide)).opaqueCall convertNumber [] =
      ⟨[[some (number .uchar 3 (by decide))]], .ok (some (number .uchar 3 (by decide)))⟩ ∧
    (boundInt 300 (by decide)).opaqueCall convertNumber [] = ⟨[], .error (Numbers.rangeException .uchar 300)⟩ ∧
    (boundInt 3 (by decide)).bind none maxSize = .error lengthError ∧
    (boundInt 3 (by decide)).bind none (2 ^ 64 - 1) = .error (.undefined "_boundArgs[argNo]") := by
  refine ⟨⟨_, _, rfl, rfl, rfl, rfl⟩, rfl, rfl, rfl, rfl⟩

end PothosCore.Callables.Callable

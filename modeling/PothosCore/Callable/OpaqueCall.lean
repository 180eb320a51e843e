import Mathlib.Data.Nat.Nth
import PothosCore.Fault

/-!
# PothosCore.Callable.OpaqueCall

`Callable` with bound arguments: `bind`, `unbind`, `getNumArgs`, `type` and `opaqueCall`.

An object is an `Option`, the null object is `none`. `_boundArgs` is a vector of objects of
any length, where a null object is no binding; it is not as long as the parameters are
many, and may be longer. The three loops count along the vector in their own ways. What
they agree on is the predicate `Unbound` of the positions: the number of unbound positions
below one (`Nat.count`) is the index of the input that belongs there, and the unbound
position of an index (`Nat.nth`) is where that input goes.
-/

namespace PothosCore.Callables

variable {τ ο : Type}

/-- `Detail::CallableContainer`: a function with its signature. The parameters of a
function are numbered by an `int`, where -1 is the return type. -/
structure CallableContainer (τ ο : Type) where
  getNumArgs : Nat
  type : Int → τ
  call : List (Option ο) → Except Fault (Option ο)
  getNumArgs_lt : getNumArgs < 2 ^ 31

/-- `Callable` -/
structure Callable (τ ο : Type) where
  boundArgs : List (Option ο)
  impl : Option (CallableContainer τ ο)

/-- What `opaqueCall` does: the calls of the function, with their arguments, and how it ends. -/
structure Called (ο : Type) where
  calls : List (List (Option ο))
  result : Except Fault (Option ο)

/-- `int(n)` -/
def toInt (n : Nat) : Int := Int.bmod n (2 ^ 32)

theorem toInt_eq {n : Nat} (h : n < 2 ^ 31) : toInt n = n := by
  apply Int.bmod_eq_of_le
  · omega
  · exact_mod_cast h

namespace Callable

/-- `_boundArgs[i]`, null where the vector ends before. -/
def boundArg (boundArgs : List (Option ο)) (i : Nat) : Option ο := boundArgs.getD i none

def nullError (what : String) : Fault := .thrown "CallableNullError" what "null Callable"

def argumentError (what message : String) : Fault := .thrown "CallableArgumentError" what message

/-- `ex.displayText()` of an `ObjectConvertError`. -/
def displayText (what message : String) : String :=
  let msg := what ++ (if message.isEmpty then "" else ": " ++ message)
  "Object Convert Error" ++ (if msg.isEmpty then "" else ": " ++ msg)

/-- The conversion of one argument, with its `catch`. -/
def convertArg (convert : Option ο → τ → Except Fault (Option ο)) (impl : CallableContainer τ ο) (i : Nat)
    (arg : Option ο) : Except Fault (Option ο) :=
  match convert arg (impl.type (toInt i)) with
  | .error (.thrown "ObjectConvertError" what message) =>
      .error (argumentError "Pothos::Callable::call()"
        (s!"failed to convert arg{i}\n" ++ displayText what message))
  | result => result

/-- The loop over `callArgs`, from position `i` with `remaining` positions to fill. -/
def callArgs (convert : Option ο → τ → Except Fault (Option ο)) (impl : CallableContainer τ ο)
    (boundArgs inputArgs : List (Option ο)) : Nat → Nat → Nat → Except Fault (List (Option ο))
  | 0, _, _ => .ok []
  | remaining + 1, i, inputArgsIndex =>
      match boundArg boundArgs i with
      | some val => do
          let arg ← convertArg convert impl i (some val)
          let args ← callArgs convert impl boundArgs inputArgs remaining (i + 1) inputArgsIndex
          .ok (arg :: args)
      | none =>
          if inputArgs.length ≤ inputArgsIndex then
            .error (argumentError "Pothos::Callable::call()" s!"expected input argument at {inputArgsIndex}")
          else do
            let arg ← convertArg convert impl i (inputArgs.getD inputArgsIndex none)
            let args ← callArgs convert impl boundArgs inputArgs remaining (i + 1) (inputArgsIndex + 1)
            .ok (arg :: args)

/-- `opaqueCall(inputArgs, numArgs)`, over any `Object::convert`. -/
def opaqueCall (convert : Option ο → τ → Except Fault (Option ο)) (c : Callable τ ο) (inputArgs : List (Option ο)) :
    Called ο :=
  match c.impl with
  | none => ⟨[], .error (nullError "Pothos::Callable::call()")⟩
  | some impl =>
      match callArgs convert impl c.boundArgs inputArgs impl.getNumArgs 0 0 with
      | .error fault => ⟨[], .error fault⟩
      | .ok args => ⟨[args], impl.call args⟩

/-- The loop of `getNumArgs`, which removes the bound arguments from the count. -/
def removeBound (boundArgs : List (Option ο)) (numArgs upTo : Nat) : Nat :=
  (List.range upTo).foldl
    (fun numArgs i => if (boundArg boundArgs i).isSome then numArgs - 1 else numArgs) numArgs

def getNumArgs (c : Callable τ ο) : Except Fault Nat :=
  match c.impl with
  | none => .error (nullError "Pothos::Callable::getNumArgs()")
  | some impl => .ok (removeBound c.boundArgs impl.getNumArgs (min impl.getNumArgs c.boundArgs.length))

/-- The loop of `type` from position `i`: the bound positions to skip. -/
def skippedIndexes (argNo : Int) : List (Option ο) → Nat → Int → Int
  | [], _, skipped => skipped
  | some _ :: boundArgs, i, skipped => skippedIndexes argNo boundArgs (i + 1) (skipped + 1)
  | none :: boundArgs, i, skipped =>
      if toInt i = argNo + skipped then skipped else skippedIndexes argNo boundArgs (i + 1) skipped

def type (c : Callable τ ο) (argNo : Int) : Except Fault τ :=
  match c.impl with
  | none => .error (nullError "Pothos::Callable::type()")
  | some impl =>
      if argNo < -1 then .error (argumentError "Pothos::Callable::type()" s!"unexpected argNo {argNo}")
      else do
        let numArgs ← c.getNumArgs
        if toInt numArgs ≤ argNo then
          .error (argumentError "Pothos::Callable::type()"
            s!"unexpected argNo {argNo} but call takes {numArgs} arguments")
        else if argNo = -1 then .ok (impl.type (-1))
        else .ok (impl.type (argNo + skippedIndexes argNo c.boundArgs 0 0))

/-- `max_size()` of a vector of objects, each a pointer. -/
def maxSize : Nat := (2 ^ 63 - 1) / 8

def lengthError : Fault := .thrown "std::length_error" "vector::_M_default_append" ""

/-- `std::vector::resize` -/
def resize (boundArgs : List (Option ο)) (size : Nat) : Except Fault (List (Option ο)) :=
  if maxSize < size then .error lengthError
  else .ok (boundArgs.takeD size none)

/-- The vector that `bind` writes to; `argNo+1` is of type `size_t`. -/
def grown (boundArgs : List (Option ο)) (argNo : Nat) : Except Fault (List (Option ο)) :=
  if boundArgs.length ≤ argNo then resize boundArgs ((argNo + 1) % 2 ^ 64) else .ok boundArgs

/-- `bind(val, argNo)` -/
def bind (c : Callable τ ο) (val : Option ο) (argNo : Nat) : Except Fault (Callable τ ο) := do
  let boundArgs ← grown c.boundArgs argNo
  if argNo < boundArgs.length then .ok { c with boundArgs := boundArgs.set argNo val }
  else .error (.undefined "_boundArgs[argNo]")

def unbind (c : Callable τ ο) (argNo : Nat) : Except Fault (Callable τ ο) := c.bind none argNo

/-! ### Bound and unbound positions -/

/-- Nothing is bound to the position. -/
def Unbound (boundArgs : List (Option ο)) (i : Nat) : Prop := (boundArg boundArgs i).isNone = true

instance (boundArgs : List (Option ο)) : DecidablePred (Unbound boundArgs) :=
  fun i => inferInstanceAs (Decidable ((boundArg boundArgs i).isNone = true))

variable {boundArgs : List (Option ο)} {impl : CallableContainer τ ο}

theorem unbound_iff (i : Nat) : Unbound boundArgs i ↔ boundArg boundArgs i = none := Option.isNone_iff_eq_none

/-- Nothing is bound beyond the vector. -/
theorem unbound_of_length_le {i : Nat} (h : boundArgs.length ≤ i) : Unbound boundArgs i := by
  rw [unbound_iff, boundArg, List.getD_eq_default _ _ h]

theorem count_unbound_bound {i : Nat} {val : ο} (h : boundArg boundArgs i = some val) :
    Nat.count (Unbound boundArgs) (i + 1) = Nat.count (Unbound boundArgs) i := by
  rw [Nat.count_succ_eq_count_iff, unbound_iff, h]
  exact Option.some_ne_none val

theorem count_unbound_unbound {i : Nat} (h : boundArg boundArgs i = none) :
    Nat.count (Unbound boundArgs) (i + 1) = Nat.count (Unbound boundArgs) i + 1 :=
  Nat.count_succ_eq_succ_count_iff.mpr ((unbound_iff i).mpr h)

/-- Beyond the vector every position counts. -/
theorem count_unbound_add {i : Nat} (h : boundArgs.length ≤ i) (d : Nat) :
    Nat.count (Unbound boundArgs) (i + d) = Nat.count (Unbound boundArgs) i + d := by
  induction d with
  | zero => rfl
  | succ d ih =>
      have hnext : boundArg boundArgs (i + d) = none := (unbound_iff _).mp (unbound_of_length_le (by omega))
      rw [← Nat.add_assoc, count_unbound_unbound hnext, ih, Nat.add_assoc]

/-- The position that an index counts up to, if nothing is bound there. -/
theorem nth_unbound {i k : Nat} (h : boundArg boundArgs i = none) (hk : Nat.count (Unbound boundArgs) i = k) :
    Nat.nth (Unbound boundArgs) k = i := by
  rw [← hk, Nat.nth_count ((unbound_iff i).mpr h)]

theorem infinite_unbound (boundArgs : List (Option ο)) : (Set.ofPred (Unbound boundArgs)).Infinite := by
  apply Set.infinite_of_not_bddAbove
  intro hbdd
  obtain ⟨m, hm⟩ := hbdd
  have hfree : Unbound boundArgs (boundArgs.length + m + 1) := unbound_of_length_le (by omega)
  have hle : boundArgs.length + m + 1 ≤ m := hm hfree
  omega

/-- The unbound position of an index is one, -/
theorem boundArg_nth (k : Nat) : boundArg boundArgs (Nat.nth (Unbound boundArgs) k) = none :=
  (unbound_iff _).mp (Nat.nth_mem_of_infinite (infinite_unbound boundArgs) k)

/-- and the index counts up to it. -/
theorem count_nth (k : Nat) : Nat.count (Unbound boundArgs) (Nat.nth (Unbound boundArgs) k) = k :=
  Nat.count_nth_of_infinite (infinite_unbound boundArgs) k

/-! ### `getNumArgs` -/

theorem removeBound_eq (numArgs upTo : Nat) (h : upTo ≤ numArgs) :
    removeBound boundArgs numArgs upTo + upTo = numArgs + Nat.count (Unbound boundArgs) upTo := by
  induction upTo with
  | zero => rfl
  | succ upTo ih =>
      have ih := ih (by omega)
      have hcount := Nat.count_le (Unbound boundArgs) (n := upTo)
      rw [removeBound, List.range_succ, List.foldl_append, ← removeBound, List.foldl_cons, List.foldl_nil]
      cases hb : boundArg boundArgs upTo with
      | none =>
          rw [count_unbound_unbound hb, Option.isSome_none, if_neg Bool.false_ne_true]
          omega
      | some val =>
          rw [count_unbound_bound hb, Option.isSome_some, if_pos rfl]
          omega

/-- **The number of arguments** is that of the unbound positions. -/
theorem getNumArgs_eq (impl : CallableContainer τ ο) :
    getNumArgs ⟨boundArgs, some impl⟩ = .ok (Nat.count (Unbound boundArgs) impl.getNumArgs) := by
  have hloop : removeBound boundArgs impl.getNumArgs (min impl.getNumArgs boundArgs.length) +
        min impl.getNumArgs boundArgs.length =
      impl.getNumArgs + Nat.count (Unbound boundArgs) (min impl.getNumArgs boundArgs.length) :=
    removeBound_eq _ _ (Nat.min_le_left _ _)
  show Except.ok (removeBound boundArgs impl.getNumArgs (min impl.getNumArgs boundArgs.length)) = _
  congr 1
  rcases Nat.le_total impl.getNumArgs boundArgs.length with h | h
  · rw [Nat.min_eq_left h] at hloop ⊢
    omega
  · have hadd := count_unbound_add (Nat.le_refl boundArgs.length) (impl.getNumArgs - boundArgs.length)
    rw [Nat.add_sub_cancel' h] at hadd
    rw [Nat.min_eq_right h] at hloop ⊢
    omega

/-! ### `type` -/

/-- **The loop of `type`** ends at the unbound position of its index. It starts anywhere
before it, with the bound positions so far. -/
theorem skippedIndexes_eq {n k : Nat} (hn : n < 2 ^ 31) (hk : k < Nat.count (Unbound boundArgs) n) :
    ∀ (rest : List (Option ο)) (i : Nat), rest = boundArgs.drop i → Nat.count (Unbound boundArgs) i ≤ k →
      (k : Int) + skippedIndexes k rest i (i - Nat.count (Unbound boundArgs) i : Int) =
        (Nat.nth (Unbound boundArgs) k : Int) := by
  intro rest
  induction rest with
  | nil =>
      intro i hrest hi
      have hlen : boundArgs.length ≤ i := List.drop_eq_nil_iff.mp hrest.symm
      have hadd := count_unbound_add hlen (k - Nat.count (Unbound boundArgs) i)
      have hfree := (unbound_iff _).mp
        (unbound_of_length_le (Nat.le_trans hlen (Nat.le_add_right i (k - Nat.count (Unbound boundArgs) i))))
      have hle := Nat.count_le (Unbound boundArgs) (n := i)
      rw [skippedIndexes, nth_unbound hfree (hadd.trans (Nat.add_sub_of_le hi))]
      omega
  | cons arg rest ih =>
      intro i hrest hi
      have hi' : i < n := by
        by_contra hge
        have := Nat.count_monotone (Unbound boundArgs) (Nat.le_of_not_lt hge)
        omega
      have hlen : i < boundArgs.length := by
        by_contra hge
        rw [List.drop_eq_nil_of_le (Nat.le_of_not_lt hge)] at hrest
        cases hrest
      rw [List.drop_eq_getElem_cons hlen] at hrest
      obtain ⟨harg, htail⟩ := List.cons.inj hrest
      have hbound : boundArg boundArgs i = arg := by
        rw [boundArg, List.getD_eq_getElem _ _ hlen, harg]
      cases arg with
      | some val =>
          have hcount := count_unbound_bound hbound
          have ih := ih (i + 1) htail (by omega)
          rw [skippedIndexes, ← ih]
          congr 2
          omega
      | none =>
          have hcount := count_unbound_unbound hbound
          rw [skippedIndexes, toInt_eq (by omega)]
          split
          · next heq =>
              rw [nth_unbound hbound (by omega)]
              omega
          · next hne =>
              have ih := ih (i + 1) htail (by omega)
              rw [← ih]
              congr 2
              omega

/-- What `type` returns for every number. -/
theorem type_spec (impl : CallableContainer τ ο) (argNo : Int) :
    type ⟨boundArgs, some impl⟩ argNo =
      let numArgs := Nat.count (Unbound boundArgs) impl.getNumArgs
      if argNo < -1 then .error (argumentError "Pothos::Callable::type()" s!"unexpected argNo {argNo}")
      else if numArgs ≤ argNo then
        .error (argumentError "Pothos::Callable::type()"
          s!"unexpected argNo {argNo} but call takes {numArgs} arguments")
      else if argNo = -1 then .ok (impl.type (-1))
      else .ok (impl.type (Nat.nth (Unbound boundArgs) argNo.toNat)) := by
  have hint : toInt (Nat.count (Unbound boundArgs) impl.getNumArgs) = Nat.count (Unbound boundArgs) impl.getNumArgs :=
    toInt_eq (Nat.lt_of_le_of_lt (Nat.count_le _) impl.getNumArgs_lt)
  have hbind (n : Nat) (f : Nat → Except Fault τ) : (Except.ok n >>= f) = f n := rfl
  rw [type, getNumArgs_eq]
  dsimp only
  rw [hbind, hint]
  by_cases hlow : argNo < -1
  · rw [if_pos hlow, if_pos hlow]
  · rw [if_neg hlow, if_neg hlow]
    by_cases hhigh : (Nat.count (Unbound boundArgs) impl.getNumArgs : Int) ≤ argNo
    · rw [if_pos hhigh, if_pos hhigh]
    · rw [if_neg hhigh, if_neg hhigh]
      by_cases hreturn : argNo = -1
      · rw [if_pos hreturn, if_pos hreturn]
      · rw [if_neg hreturn, if_neg hreturn]
        obtain ⟨k, rfl⟩ := Int.eq_ofNat_of_zero_le (by omega : 0 ≤ argNo)
        have hskip := skippedIndexes_eq impl.getNumArgs_lt (by omega) boundArgs 0 rfl (Nat.zero_le k)
        rw [Int.toNat_natCast, ← hskip, Nat.count_zero]
        rfl

/-- **The type of an argument** is declared at the unbound position of its index. -/
theorem type_eq {k : Nat} (hk : k < Nat.count (Unbound boundArgs) impl.getNumArgs) :
    type ⟨boundArgs, some impl⟩ k = .ok (impl.type (Nat.nth (Unbound boundArgs) k)) := by
  rw [type_spec]
  dsimp only
  rw [if_neg (by omega), if_neg (by omega), if_neg (by omega), Int.toNat_natCast]

end Callable

end PothosCore.Callables

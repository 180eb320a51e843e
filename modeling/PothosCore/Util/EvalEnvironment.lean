import Mathlib.Logic.Function.Basic
import Mathlib.Data.Nat.Digits.Defs
import PothosCore.Util.ExprSplit

/-!
# PothosCore.Util.EvalEnvironment

`EvalEnvironment::eval`. A list or a map literal is split and its parts are evaluated; an
expression with literals in it is rewritten, each literal to a constant that is registered
for its value; all other text goes to the expression parser. The constants are in one
table, and the names for literals count from zero wherever an expression is rewritten.

The parser is a parameter (`Muparser`), a function of the text and of the constants that
the text names. What an expression should be worth is `value`: the same rewriting, with
each literal evaluated on its own and no table that is written to.
-/

namespace PothosCore.Util

/-! ### Values of the parser and objects -/

/-- A value of the parser; floats are of any type. An array has one row. -/
inductive MupValue (F : Type)
  | bool (b : Bool)
  | int (i : Int)
  | float (x : F)
  | cmplx (re im : F)
  | string (s : Text)
  | array (row : List (MupValue F))

/-- The objects that an expression can be worth. -/
inductive EvalObject (F : Type)
  | bool (b : Bool)
  | int (i : Int)
  | float (x : F)
  | cmplx (re im : F)
  | string (s : Text)
  | vector (elements : List (EvalObject F))
  | map (entries : List (EvalObject F × EvalObject F))

variable {F : Type}

/-- Marks an array that is a flattened map. -/
def mapTypeId : Text := "__map__".toList

def tmpTypeId : Text := "__tmp__".toList

section ProxyMap

variable {κ ν : Type} (less : κ → κ → Bool)

/-- `map.emplace(key, val)` on the entries in order; an entry that is there stays. -/
def emplace (key : κ) (val : ν) : List (κ × ν) → List (κ × ν)
  | [] => [(key, val)]
  | (k, v) :: rest =>
      if less k key then (k, v) :: emplace key val rest
      else if less key k then (key, val) :: (k, v) :: rest
      else (k, v) :: rest

/-- `map[key] = val` -/
def assign (key : κ) (val : ν) : List (κ × ν) → List (κ × ν)
  | [] => [(key, val)]
  | (k, v) :: rest =>
      if less k key then (k, v) :: assign key val rest
      else if less key k then (key, val) :: (k, v) :: rest
      else (k, val) :: rest

/-- Keys and values in turn. -/
def assignPairs : List (κ × κ) → List κ → List (κ × κ)
  | map, key :: val :: rest => assignPairs (assign less key val map) rest
  | map, _ => map

end ProxyMap

mutual

/-- `mupValueToObject(val)` -/
def mupValueToObject (less : EvalObject F → EvalObject F → Bool) : MupValue F → EvalObject F
  | .bool b => .bool b
  | .int i => .int i
  | .float x => .float x
  | .cmplx re im => .cmplx re im
  | .string s => .string s
  | .array row =>
      let vec := mupValuesToObjects less row
      match row with
      -- special case map mode
      | .string s :: _ =>
          if row.length % 2 = 1 ∧ s = mapTypeId then .map (assignPairs less [] vec.tail) else .vector vec
      | _ => .vector vec

def mupValuesToObjects (less : EvalObject F → EvalObject F → Bool) : List (MupValue F) → List (EvalObject F)
  | [] => []
  | val :: row => mupValueToObject less val :: mupValuesToObjects less row

end

mutual

/-- `objectToMupValue(obj)` -/
def objectToMupValue : EvalObject F → MupValue F
  | .bool b => .bool b
  | .int i => .int i
  | .float x => .float x
  | .cmplx re im => .cmplx re im
  | .string s => .string s
  | .vector elements => .array (objectsToMupValues elements)
  | .map entries => .array (.string mapTypeId :: entriesToMupValues entries)

def objectsToMupValues : List (EvalObject F) → List (MupValue F)
  | [] => []
  | obj :: vec => objectToMupValue obj :: objectsToMupValues vec

def entriesToMupValues : List (EvalObject F × EvalObject F) → List (MupValue F)
  | [] => []
  | (key, val) :: map => objectToMupValue key :: objectToMupValue val :: entriesToMupValues map

end

/-! ### The parser -/

/-- The constants that are registered. -/
abbrev Constants (F : Type) := Text → Option (MupValue F)

/-- May the character stand in a name? -/
def identChar (ch : Char) : Bool := ch.isAlphanum || ch == '_'

/-- The text outside string literals, with a quote for each of these. A backslash takes the
next character of a literal along. -/
def unquoted (inQuotes escaped : Bool) : Text → Text
  | [] => []
  | ch :: t =>
      if inQuotes then
        if escaped then unquoted true false t else unquoted (ch != quote) (ch == backslash) t
      else ch :: unquoted (ch == quote) false t

/-- The names in a text, as the longest runs of name characters outside string literals. -/
def names (text : Text) : List Text := (unquoted false false text).splitOnP fun ch => !identChar ch

/-- The expression parser, and the order of the keys of a map. A text is evaluated with
the constants that it names. -/
structure Muparser (F : Type) where
  less : EvalObject F → EvalObject F → Bool
  /-- The result, or the message of the `ParserError`. -/
  eval : Text → Constants F → Except String (MupValue F)
  reads : ∀ text consts consts', (∀ name ∈ names text, consts name = consts' name) →
    eval text consts = eval text consts'

/-! ### `eval` -/

/-- `"EvalEnvironment::eval(" + expr + ")"` -/
def evalAt (expr : Text) : String := "EvalEnvironment::eval(" ++ String.ofList expr ++ ")"

/-- An exception that is caught is thrown again for the expression around it. -/
def rethrown {α : Type} (expr : Text) : Except Fault α → Except Fault α
  | .error (.thrown _ what message) =>
      .error (.thrown "Exception" (evalAt expr) (what ++ if message.isEmpty then "" else ": " ++ message))
  | r => r

/-- `Poco::trim(expr).empty()` -/
def blank [PocoString] (expr : Text) : Bool := (PocoString.trim expr).isEmpty

def inBrackets (expr : Text) : Bool :=
  2 ≤ expr.length && expr.head? == some '[' && expr.getLast? == some ']'

def inBraces (expr : Text) : Bool :=
  2 ≤ expr.length && expr.head? == some '\x7b' && expr.getLast? == some '\x7d'

/-- `expr.substr(1, expr.size()-2)` -/
def noBrackets (expr : Text) : Text := expr.tail.dropLast

/-- `tmpTypeId + std::to_string(index)` -/
def tmpKey (index : Nat) : Text := tmpTypeId ++ Nat.toDigits 10 index

/-- What a call ends with, and the constants after it; none when the depth that is allowed
does not suffice. -/
abbrev Outcome (F α : Type) := Option (Except Fault α × Constants F)

namespace Outcome

variable {α β : Type}

def bind (x : Outcome F α) (f : α → Constants F → Outcome F β) : Outcome F β :=
  match x with
  | none => none
  | some (.error fault, consts) => some (.error fault, consts)
  | some (.ok a, consts) => f a consts

/-- Inside `try`. -/
def caught (expr : Text) (x : Outcome F α) : Outcome F α := x.map fun r => (rethrown expr r.1, r.2)

end Outcome

variable (P : Muparser F)

/-- Use the muparser. -/
def parse (consts : Constants F) (expr : Text) : Except Fault (EvalObject F) :=
  match P.eval expr consts with
  | .ok result => .ok (mupValueToObject P.less result)
  | .error message => .error (.thrown "Exception" (evalAt expr) message)

/-- `unregisterConstant(key)` -/
def unregisterConstant (consts : Constants F) (key : Text) : Constants F := Function.update consts key none

/-- `registerConstantObj(key, obj)` -/
def registerConstantObj (consts : Constants F) (key : Text) (obj : EvalObject F) : Constants F :=
  Function.update (unregisterConstant consts key) key (some (objectToMupValue obj))

section Loops

variable (eval : Constants F → Text → Outcome F (EvalObject F))

/-- Handle multiple containers in top level: the loop over the tokens. -/
def rewriteTokens : Nat → Text → List Text → Constants F → Outcome F Text
  | _, newExpr, [], consts => some (.ok newExpr, consts)
  | index, newExpr, tok :: tokens, consts =>
      if isLiteral tok then
        (eval consts tok).bind fun obj consts =>
          rewriteTokens (index + 1) (newExpr ++ tmpKey index) tokens
            (registerConstantObj consts (tmpKey index) obj)
      else rewriteTokens index (newExpr ++ tok) tokens consts

/-- The loop of `_evalList(expr)`. -/
def evalElements (expr : Text) : List (EvalObject F) → List Text → Constants F → Outcome F (EvalObject F)
  | vec, [], consts => some (.ok (.vector vec), consts)
  | vec, tok :: tokens, consts =>
      ((eval consts tok).caught expr).bind fun obj consts => evalElements expr (vec ++ [obj]) tokens consts

/-- The loop of `_evalMap(expr)`. -/
def evalEntries (expr : Text) :
    List (EvalObject F × EvalObject F) → List Text → Constants F → Outcome F (EvalObject F)
  | map, [], consts => some (.ok (.map map), consts)
  | map, tok :: tokens, consts =>
      match splitExpr tok ':' with
      | .error fault => some (.error fault, consts)
      | .ok [key, val] =>
          ((eval consts key).caught expr).bind fun key consts =>
            ((eval consts val).caught expr).bind fun val consts =>
              evalEntries expr (emplace P.less key val map) tokens consts
      | .ok _ => some (.error (.thrown "Exception" (evalAt tok) "not key:value"), consts)

/-- `_evalList(expr)` -/
def evalList (expr : Text) (consts : Constants F) : Outcome F (EvalObject F) :=
  match splitExpr (noBrackets expr) ',' with
  | .error fault => some (.error fault, consts)
  | .ok tokens => evalElements eval expr [] tokens consts

/-- `_evalMap(expr)` -/
def evalMap (expr : Text) (consts : Constants F) : Outcome F (EvalObject F) :=
  match splitExpr (noBrackets expr) ',' with
  | .error fault => some (.error fault, consts)
  | .ok tokens => evalEntries P eval expr [] tokens consts

end Loops

/-- `eval(expr)` -/
def eval [PocoString] : Nat → Constants F → Text → Outcome F (EvalObject F)
  | 0, _, _ => none
  | depth + 1, consts, expr =>
      if blank expr then
        some (.error (.thrown "Exception" "EvalEnvironment::eval()" "expression is empty"), consts)
      else
        match splitExpr expr nul with
        | .error fault => some (.error fault, consts)
        | .ok tokens =>
            if 1 < tokens.length then
              (rewriteTokens (eval depth) 0 [] tokens consts).bind fun newExpr consts => eval depth consts newExpr
            -- list syntax mode
            else if inBrackets expr then evalList (eval depth) expr consts
            -- map syntax mode
            else if inBraces expr then evalMap P (eval depth) expr consts
            else some (parse P consts expr, consts)

end PothosCore.Util

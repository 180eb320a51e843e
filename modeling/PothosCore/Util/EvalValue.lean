import PothosCore.Util.EvalEnvironment

/-!
# PothosCore.Util.EvalValue

What an expression should be worth (`value`): each literal in it is evaluated on its own,
with the constants as they were, and the rewritten text with constants for exactly these
values. And when evaluation can be trusted with that (`clean`): the text that is given to
the parser names no temporary that holds something else by then.

An expression that is rewritten registers the first temporaries, from zero on, so what
becomes of them is a number, and `temps` says which.
-/

namespace PothosCore.Util

variable {F : Type} (P : Muparser F)

/-! ### The value of an expression -/

/-- The rewritten text of tokens, from an index on. -/
def replaced : Nat → List Text → Text
  | _, [] => []
  | index, tok :: tokens =>
      if isLiteral tok then tmpKey index ++ replaced (index + 1) tokens else tok ++ replaced index tokens

/-- Constants for the values of literals, from an index on. -/
def registerAll : Constants F → Nat → List (EvalObject F) → Constants F
  | consts, _, [] => consts
  | consts, index, obj :: objs => registerAll (registerConstantObj consts (tmpKey index) obj) (index + 1) objs

/-- A value, or an exception; none when the depth that is allowed does not suffice. -/
abbrev Worth (α : Type) := Option (Except Fault α)

namespace Worth

variable {α β : Type}

def bind (x : Worth α) (f : α → Worth β) : Worth β :=
  match x with
  | none => none
  | some (.error fault) => some (.error fault)
  | some (.ok a) => f a

/-- There is no value. -/
def thrown : Worth α → Bool
  | some (.ok _) => false
  | _ => true

end Worth

section Loops

variable (value : Text → Worth (EvalObject F))

/-- The values of literals, up to the first exception. -/
def literalValues : List Text → Worth (List (EvalObject F))
  | [] => some (.ok [])
  | tok :: tokens => (value tok).bind fun obj => (literalValues tokens).bind fun objs => some (.ok (obj :: objs))

def elementValues (expr : Text) : List (EvalObject F) → List Text → Worth (EvalObject F)
  | vec, [] => some (.ok (.vector vec))
  | vec, tok :: tokens =>
      Worth.bind ((value tok).map (rethrown expr)) fun obj => elementValues expr (vec ++ [obj]) tokens

def entryValues (expr : Text) : List (EvalObject F × EvalObject F) → List Text → Worth (EvalObject F)
  | map, [] => some (.ok (.map map))
  | map, tok :: tokens =>
      match splitExpr tok ':' with
      | .error fault => some (.error fault)
      | .ok [key, val] =>
          Worth.bind ((value key).map (rethrown expr)) fun key =>
            Worth.bind ((value val).map (rethrown expr)) fun val =>
              entryValues expr (emplace P.less key val map) tokens
      | .ok _ => some (.error (.thrown "Exception" (evalAt tok) "not key:value"))

def listValue (expr : Text) : Worth (EvalObject F) :=
  match splitExpr (noBrackets expr) ',' with
  | .error fault => some (.error fault)
  | .ok tokens => elementValues value expr [] tokens

def mapValue (expr : Text) : Worth (EvalObject F) :=
  match splitExpr (noBrackets expr) ',' with
  | .error fault => some (.error fault)
  | .ok tokens => entryValues P value expr [] tokens

end Loops

/-- A single literal, without the space around it. -/
def stripped (expr : Text) : List Text → Text
  | [tok] => if isLiteral tok then tok else expr
  | _ => expr

/-- **What an expression is worth.** -/
def value [PocoString] (consts : Constants F) : Nat → Text → Worth (EvalObject F)
  | 0, _ => none
  | depth + 1, expr =>
      if blank expr then some (.error (.thrown "Exception" "EvalEnvironment::eval()" "expression is empty"))
      else
        match splitExpr expr nul with
        | .error fault => some (.error fault)
        | .ok tokens =>
            if 1 < tokens.length then
              (literalValues (value consts depth) (tokens.filter isLiteral)).bind fun objs =>
                some (parse P (registerAll consts 0 objs) (replaced 0 tokens))
            else
              let body := stripped expr tokens
              if inBrackets body then listValue (value consts depth) body
              else if inBraces body then mapValue P (value consts depth) body
              else some (parse P consts body)

/-! ### Clean expressions -/

/-- The keys and the values of entries, up to the first that is not a key and a value. -/
def entryParts : List Text → List Text
  | [] => []
  | tok :: tokens =>
      match splitExpr tok ':' with
      | .ok [key, val] => key :: val :: entryParts tokens
      | _ => []

/-- The texts that are evaluated inside a literal. -/
def parts (expr : Text) : List Text :=
  match splitExpr (noBrackets expr) ',' with
  | .error _ => []
  | .ok tokens => if inBrackets expr then tokens else if inBraces expr then entryParts tokens else []

section Loops

variable (throws : Text → Bool) (temps : Text → Nat) (clean : Nat → Text → Bool)

def partTemps : List Text → Nat
  | [] => 0
  | tok :: tokens => max (temps tok) (if throws tok then 0 else partTemps tokens)

/-- Each literal registers a temporary of its own. -/
def literalTemps : Nat → List Text → Nat
  | _, [] => 0
  | index, tok :: tokens =>
      max (temps tok) (if throws tok then 0 else max (index + 1) (literalTemps (index + 1) tokens))

def cleanParts : Nat → List Text → Bool
  | _, [] => true
  | d, tok :: tokens => clean d tok && (throws tok || cleanParts (max d (temps tok)) tokens)

/-- Of the first `d` temporaries the text names only those from `lost` to `index`. -/
def fresh (lost index d : Nat) (text : Text) : Bool :=
  (List.range d).all fun i => (decide (lost ≤ i) && decide (i < index)) || decide (tmpKey i ∉ names text)

/-- The text names the temporaries for its literals where these were, and nowhere else. -/
def placed (count : Nat) (text : Text) : Bool :=
  (names text).filter (fun name => (List.range count).any fun i => name == tmpKey i) == (List.range count).map tmpKey

/-- A literal that registers temporaries does so over those of the literals before it. -/
def cleanLiterals (text : Text) : Nat → Nat → Nat → List Text → Bool
  | lost, index, d, [] => placed index text && fresh lost index d text
  | lost, index, d, tok :: tokens =>
      clean d tok && (throws tok || cleanLiterals text (max lost (min (temps tok) index)) (index + 1)
        (max (max d (temps tok)) (index + 1)) tokens)

end Loops

/-- How many of the first temporaries an expression registers at most. What comes after an
exception is not evaluated. -/
def temps [PocoString] (consts : Constants F) : Nat → Text → Nat
  | 0, _ => 0
  | depth + 1, expr =>
      match splitExpr expr nul with
      | .error _ => 0
      | .ok tokens =>
          let throws tok := (value P consts depth tok).thrown
          if 1 < tokens.length then literalTemps throws (temps consts depth) 0 (tokens.filter isLiteral)
          else partTemps throws (temps consts depth) (parts expr)

/-- When the first `d` temporaries have been registered since the constants were `consts`:
what the parser reads names none of these, except, where an expression is rewritten, those
for its own literals that no later one registers again. A literal with space around it is
not the whole expression. -/
def clean [PocoString] (consts : Constants F) : Nat → Nat → Text → Bool
  | 0, _, _ => true
  | depth + 1, d, expr =>
      match splitExpr expr nul with
      | .error _ => true
      | .ok tokens =>
          let throws tok := (value P consts depth tok).thrown
          let literals := tokens.filter isLiteral
          if 1 < tokens.length then
            cleanLiterals throws (temps P consts depth) (clean consts depth) (replaced 0 tokens) 0 0 d literals
          else
            literals.all (· == expr) &&
              cleanParts throws (temps P consts depth) (clean consts depth) d (parts expr) &&
              (inBrackets expr || inBraces expr || fresh 0 0 d expr)

end PothosCore.Util

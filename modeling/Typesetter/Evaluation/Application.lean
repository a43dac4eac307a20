import Typesetter.Evaluation.Operand
/-!
Application of macros. Arguments are evaluated first, unless they are delayed; then the body is
evaluated with them.
-/

namespace Typesetter.Rule

open Evaluation Execution

variable (eval unguarded : Evaluator)

def formalName (op : Primitive) : Tree → Evaluation String
  | .atom s => return s
  | t => fault (.typeMismatch op .argumentName t)

def actual (t : Tree) : Execution Tree := if t.isDelayed then return t else exec eval t

def missingArgument (i : Nat) (formal : String) : String :=
  "missing argument " ++ toString i ++ " (" ++ formal ++ ")"

def defaultArgument (macroName : String) (i : Nat) (formal : String) : Execution Tree := do
  match (← read).registry.default? macroName i with
  | some t => exec unguarded t
  | none =>
    warn (missingArgument i formal) macroName
    return .uninit

def bindFormals (macroName : String) :
    Nat → List Tree → List Tree → ArgumentFrame → Evaluation ArgumentFrame
  | _, [], _, frame => return frame
  | i, formal :: formals, args, frame => do
    let x ← formalName .macroDef formal
    let value ← match args with
      | t :: _ => actual eval t
      | [] => defaultArgument unguarded macroName i x
    bindFormals macroName (i + 1) formals args.tail (frame.bindAt x value [i])

def bindVariadic (formals args : List Tree) : Evaluation ArgumentFrame := do
  match formals with
  | [] => return []
  | formal :: _ =>
    let x ← formalName .variadicDef formal
    let values ← args.mapM fun t => (actual eval t : Execution Tree)
    return ArgumentFrame.bind [] x (.tuple values)

def checkDepth (macroName : String) : Evaluation Unit := do
  let limit := (← settings).maxRecursionDepth
  if limit ≤ (← depth) then fault (.recursionLimit limit macroName)

def applyDefinition (macroName : String) (definition : Tree) (args : List Tree) :
    Evaluation Tree := do
  checkDepth macroName
  match definition.definitionParts? with
  | none => return .uninit
  | some (formals, body) =>
    let frame ←
      if definition.hasTag Primitive.variadicDef then bindVariadic eval formals args
      else bindFormals eval unguarded macroName 0 formals args []
    withFrame frame (eval body)

/-- A tag without a macro is a part of the document. -/
def apply (macroName : String) (args : List Tree) : Evaluation Tree := do
  let definition ← readVariable macroName
  if definition.isMacroDef then applyDefinition eval unguarded macroName definition args
  else if (← settings).strict then fault (.undefinedMacro macroName)
  else return .node (.user macroName) (← execAll eval args)

def compound (head : Tree) (args : List Tree) : Evaluation Tree := do
  match ← operand eval head with
  | .atom s => eval (.node (Tag.ofName s) args)
  | definition =>
    if definition.isMacroDef then
      applyDefinition eval unguarded Primitive.compound.name definition args
    else fault (.typeMismatch .compound .applicable definition)

end Typesetter.Rule

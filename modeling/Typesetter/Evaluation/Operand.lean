import Typesetter.Evaluation.Effect
/-!
Operands of rules. A rule evaluates parts of its node by the evaluator it is given; an operand that
is an error tree ends the rule, while parts of the document keep their errors to themselves.
-/

namespace Typesetter

abbrev Evaluator := Tree → Evaluation Tree

namespace Rule

open Evaluation

variable (eval : Evaluator)

def exec (t : Tree) : Execution Tree := Execution.absorbing (eval t)

def execAll (ts : List Tree) : Execution (List Tree) := ts.mapM (exec eval)

def execChildren : Tree → Execution Tree
  | .atom s => return .atom s
  | .node tag cs => return .node tag (← execAll eval cs)

def operand (t : Tree) : Evaluation Tree := do
  let v ← eval t
  if v.isError then fault (.propagated v) else return v

def operands (ts : List Tree) : Evaluation (List Tree) := ts.mapM (operand eval)

def name : Tree → Evaluation String
  | .atom s => return s
  | .node tag cs => do
    match ← operand eval (.node tag cs) with
    | .atom s => return s
    | v => fault (.notAString v)

def integer (op : Primitive) (t : Tree) : Evaluation Int := do
  let v ← operand eval t
  match v.label?.bind fun s => Text.readInteger? (Text.trim s.toList) with
  | some n => return n
  | none => fault (.typeMismatch op .integer v)

def childOf (op : Primitive) (value index : Tree) : Evaluation Tree := do
  let i ← integer eval op index
  match value.childAt? i with
  | some c => return c
  | none => fault (.indexOutOfBounds i value.arity)

def descend (op : Primitive) : Tree → List Tree → Evaluation Tree
  | value, [] => return value
  | value, index :: rest => do
    let c ← childOf eval op value index
    descend op c rest

def execString (t : Tree) : Execution (Except Fault String) := do
  let v ← exec eval t
  match v with
  | .atom s => return .ok s
  | v =>
    if v.isError then return .error ⟨.propagated v, none⟩
    else
      let fault : Fault := ⟨.notAString v, none⟩
      Execution.report ⟨.error, fault.message, some "exec_string"⟩
      return .error fault

end Rule

end Typesetter

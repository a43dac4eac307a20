import Typesetter.Evaluation.Operand
/-!
References to arguments. Delayed arguments are evaluated where they are used, with the arguments of
the place where they were written.
-/

namespace Typesetter.Rule

open Evaluation Execution

variable (eval : Evaluator)

mutual

def quasiquote : Tree → Evaluation Tree
  | .atom s => return .atom s
  | .node (.prim .unquote) (body :: _) => eval body
  | .node tag cs => return .node tag (← quasiquoteList cs)

def quasiquoteList : List Tree → Evaluation (List Tree)
  | [] => return []
  | .node (.prim .unquoteSplice) (body :: _) :: cs => do
    let spliced ← match ← operand eval body with
      | .atom s => pure [.atom s]
      | .node _ ds => pure ds
    return spliced ++ (← quasiquoteList cs)
  | c :: cs => do
    let v ← quasiquote c
    return v :: (← quasiquoteList cs)

end

/-- Evaluate a delayed argument with the frames below the one that binds it. -/
def force (level : Nat) : Tree → Evaluation Tree
  | .node (.prim .delay) (body :: _) => below level (eval body)
  | .node _ (body :: _) => below level (quasiquote eval body)
  | _ => return .uninit

theorem force_leaf (level : Nat) (tag : Tag) : force eval level (.node tag []) = pure .uninit := by
  cases tag with
  | user name => rfl
  | prim q => cases q <;> rfl

def argumentValue (x : String) : Evaluation Tree := do
  match ← lookupArgument? x with
  | some (level, bound) => if bound.isDelayed then force eval level bound else return bound
  | none => readVariable x

def arg (x : Tree) (indices : List Tree) : Evaluation Tree := do
  let x ← name eval x
  let value ← argumentValue eval x
  descend eval .arg value indices

def evalArgs (unguarded : Evaluator) (x : Tree) : Evaluation Tree := do
  let x ← name eval x
  let bound ← match ← lookupArgument? x with
    | some (_, bound) => pure bound
    | none => readVariable x
  execChildren unguarded bound

end Typesetter.Rule

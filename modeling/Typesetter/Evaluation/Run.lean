import Typesetter.Evaluation.Rule
/-!
Evaluation of trees. Fuel bounds how deep evaluations are nested in each other: not every document
comes to an end.
-/

namespace Typesetter

def eval : Nat → Evaluator
  | 0, _ => ExceptT.lift (Execution.halt .outOfFuel)
  | fuel + 1, t => Rule.step (eval fuel) (eval fuel) t

def exec (fuel : Nat) (t : Tree) : Execution Tree := Rule.exec (eval fuel) t

def execString (fuel : Nat) (t : Tree) : Execution (Except Fault String) :=
  Rule.execString (eval fuel) t

def assign (fuel : Nat) (name : String) (t : Tree) : Execution Tree := do
  let value ← exec fuel t
  Execution.assign name value
  return value

end Typesetter

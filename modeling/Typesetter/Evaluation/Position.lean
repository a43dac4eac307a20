import Typesetter.Analysis.Dependency
import Typesetter.Evaluation.Run
/-!
Evaluation up to a position in a tree. What stands before the position in documents and
concatenations is evaluated, and enclosing bindings are made. With a variable to watch, the answer
tells whether the state at the position may involve it.
-/

namespace Typesetter.Position

open Execution

structure Watch where
  name : String
  level : Nat
  deriving DecidableEq, Repr

variable (eval : Evaluator) (watch : Option Watch)

def readsWatched (s : State) (t : Tree) : Bool :=
  watch.any fun w => Dependency.depends s.store t w.name w.level

def passBy : List Tree → Execution Bool
  | [] => return false
  | t :: ts => do
    let here := readsWatched watch (← get) t
    discard (Rule.exec eval t)
    return (← passBy ts) || here

def bind : List (Tree × Tree) → Execution Bool
  | [] => return false
  | (name, value) :: rest => do
    let here := readsWatched watch (← get) value
    let isWatched ← match ← Rule.execString eval name with
      | .ok name => do
        let v ← Rule.exec eval value
        modify (·.writeLoggedUpdate name v)
        pure (watch.any (·.name = name))
      | .error _ => pure false
    return (← bind rest) || (here || isWatched)

def stage (t : Tree) (index : Nat) : Execution Bool :=
  match t with
  | .node (.prim .document) cs | .node (.prim .concat) cs => passBy eval watch (cs.take index)
  | .node (.prim .withVars) cs =>
    if index + 1 = cs.length then bind eval watch (Form.pairs cs.dropLast).1 else return false
  | .node (.user name) _ => do
    let store := (← get).store
    return watch.any fun w => Dependency.macroReads store w.name w.level name
  | _ => return false

def along : Tree → List Nat → Execution Bool
  | _, [] => return false
  | t, index :: path =>
    match t.child? index with
    | none => return false
    | some c => do
      let here ← stage eval watch t index
      return (← along c path) || here

end Position

open Position in
def execUntil (fuel : Nat) (t : Tree) (path : List Nat) : Execution Unit :=
  discard (along (eval fuel) none t path)

open Position in
/-- Whether the state at a position may involve a variable; one that is changed on the way does. -/
def execUntilVariable (fuel : Nat) (t : Tree) (path : List Nat) (watch : Watch) :
    Execution Bool := do
  let before := (← get).store.get? watch.name
  let involved ← along (eval fuel) (some watch) t path
  return involved || (← get).store.get? watch.name ≠ before

end Typesetter

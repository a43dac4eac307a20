import Typesetter.Document.Registry
import Typesetter.Document.Scope
import Typesetter.Document.Store
import Typesetter.Text.Numeral
/-!
Expansion of macros: the arguments are put into the body, and nothing is evaluated.
-/

namespace Typesetter

namespace Tree

def definitionParts? (t : Tree) : Option (List Tree × Tree) :=
  t.children.getLast?.map fun body => (t.children.dropLast, body)

def follow? : Tree → List Tree → Option Tree
  | t, [] => some t
  | t, i :: rest => do
    let n ← Text.readCount? (← i.label?).toList
    (← t.child? n).follow? rest

end Tree

namespace Expansion

mutual

/-- References to bound arguments are replaced, except in definitions and quotations. -/
def substitute (frame : ArgumentFrame) : Tree → Tree
  | .atom s => .atom s
  | .node tag cs =>
    match tag with
    | .prim .macroDef | .prim .variadicDef | .prim .quote => .node tag cs
    | .prim .arg => (reference? cs).getD (.node tag cs)
    | _ => .node tag (substituteList frame cs)
where
  reference? : List Tree → Option Tree
    | .atom name :: indices => (frame.value? name).bind (·.follow? indices)
    | _ => none

def substituteList (frame : ArgumentFrame) : List Tree → List Tree
  | [] => []
  | c :: cs => substitute frame c :: substituteList frame cs

end

def bindFormals (registry : Registry) (name : String) :
    Nat → List Tree → List Tree → ArgumentFrame → ArgumentFrame
  | _, [], _, frame => frame
  | i, formal :: formals, args, frame =>
    let frame := match formal with
      | .atom x =>
        let value := args.head?.getD ((registry.default? name i).getD .uninit)
        frame.bindAt x value [i]
      | .node .. => frame
    bindFormals registry name (i + 1) formals args.tail frame

def bindVariadic (formals args : List Tree) : ArgumentFrame :=
  match formals with
  | .atom x :: _ => ArgumentFrame.bind [] x (.tuple args)
  | _ => []

def expandMacro? (store : Store) (registry : Registry) (name : String) (args : List Tree) :
    Option Tree := do
  let definition := store.read name
  guard definition.isMacroDef
  let (formals, body) ← definition.definitionParts?
  let frame :=
    if definition.hasTag Primitive.variadicDef then bindVariadic formals args
    else bindFormals registry name 0 formals args []
  return substitute frame body

def expand (store : Store) (registry : Registry) (t : Tree) : Tree :=
  match t with
  | .node (.user name) args | .node (.prim .compound) (.atom name :: args) =>
    (expandMacro? store registry name args).getD t
  | _ => t

end Expansion

end Typesetter

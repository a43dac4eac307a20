import Typesetter.Macro.Expansion
import Typesetter.Proofs.Indexing.Basic

namespace Typesetter.Indexed

open Access

def reference? (frame : ArgumentFrame) (cs : List Tree) : Access (Option Tree) :=
  match (cs.head?.bind Tree.label?).bind frame.value? with
  | some value => return value.follow? (← onward cs 1)
  | none => return none

mutual

def substitute (frame : ArgumentFrame) : Tree → Access Tree
  | .atom s => return .atom s
  | .node tag cs =>
    match tag with
    | .prim .macroDef | .prim .variadicDef | .prim .quote => return .node tag cs
    | .prim .arg => return (← reference? frame cs).getD (.node tag cs)
    | _ => return .node tag (← substituteList frame cs)

def substituteList (frame : ArgumentFrame) : List Tree → Access (List Tree)
  | [] => return []
  | c :: cs => return (← substitute frame c) :: (← substituteList frame cs)

end

def expandMacro? (store : Store) (registry : Registry) (name : String) (args : List Tree) :
    Access (Option Tree) :=
  let definition := store.read name
  if definition.isMacroDef then
    match splitLast? definition.children with
    | none => return none
    | some (formals, body) =>
      let frame :=
        if definition.hasTag Primitive.variadicDef then Expansion.bindVariadic formals args
        else Expansion.bindFormals registry name 0 formals args []
      some <$> substitute frame body
  else return none

def expand (store : Store) (registry : Registry) (t : Tree) : Access Tree :=
  match t with
  | .node (.user name) args => return (← expandMacro? store registry name args).getD t
  | .node (.prim .compound) cs =>
    match cs.head?.bind Tree.label? with
    | some name => return (← expandMacro? store registry name (← onward cs 1)).getD t
    | none => return t
  | _ => return t

theorem reference?_eq (frame : ArgumentFrame) (cs : List Tree) :
    reference? frame cs = .ok (Expansion.substitute.reference? frame cs) := by
  match cs with
  | [] | .node .. :: _ => rfl
  | .atom x :: indices =>
    simp only [reference?, Expansion.substitute.reference?, List.head?_cons, Option.bind_some, Tree.label?,
      onward_one]
    cases frame.value? x <;> rfl

mutual

theorem substitute_eq (frame : ArgumentFrame) (t : Tree) :
    substitute frame t = .ok (Expansion.substitute frame t) := by
  match t with
  | .atom s => simp only [substitute, Expansion.substitute]; rfl
  | .node tag cs =>
    unfold substitute Expansion.substitute
    rw [reference?_eq, substituteList_eq]
    cases tag with
    | user m => rfl
    | prim p => cases p <;> rfl

theorem substituteList_eq (frame : ArgumentFrame) (ts : List Tree) :
    substituteList frame ts = .ok (Expansion.substituteList frame ts) := by
  match ts with
  | [] => simp only [substituteList, Expansion.substituteList]; rfl
  | c :: cs =>
    simp only [substituteList, Expansion.substituteList]
    rw [substitute_eq, substituteList_eq]
    rfl

end

theorem expandMacro?_eq (store : Store) (registry : Registry) (name : String) (args : List Tree) :
    expandMacro? store registry name args = .ok (Expansion.expandMacro? store registry name args) := by
  unfold expandMacro? Expansion.expandMacro? splitLast? Tree.definitionParts?
  dsimp only
  cases (store.read name).isMacroDef with
  | false => rfl
  | true =>
    cases (store.read name).children.getLast? with
    | none => rfl
    | some body => exact congrArg (some <$> ·) (substitute_eq _ body)

theorem expand_eq (store : Store) (registry : Registry) (t : Tree) :
    expand store registry t = .ok (Expansion.expand store registry t) := by
  unfold expand Expansion.expand
  split
  · rw [expandMacro?_eq]
    rfl
  · next cs =>
    match cs with
    | [] | .node .. :: _ => rfl
    | .atom x :: args =>
      simp only [List.head?_cons, Option.bind_some, Tree.label?, onward_one, expandMacro?_eq]
      rfl
  · next h h' =>
    split
    · exact absurd rfl (h _ _)
    · exact absurd rfl (h' _)
    · rfl

end Typesetter.Indexed

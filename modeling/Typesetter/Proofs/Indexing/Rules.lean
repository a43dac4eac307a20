import Typesetter.Evaluation.Rule
import Typesetter.Proofs.Evaluation.Forms
import Typesetter.Proofs.Indexing.SourceView
/-!
The rules of evaluation, with every access to children and to operands made by its number. A rule trusts the
number of the children, which was compared with the arity before. Rules that are given single operands, or
that go through all children in order, are taken as they are.
-/

namespace Typesetter.Indexed

open Access Execution Evaluation Rule

variable (crash : OutOfRange → Halt) (eval unguarded : Evaluator)

def access {α : Type} (a : Access α) : Evaluation α := ExceptT.lift (reach crash a)

def child (cs : List Tree) (i : Nat) : Evaluation Tree := access crash (item cs i)

def childrenFrom (cs : List Tree) (i : Nat) : Evaluation (List Tree) := access crash (onward cs i)

def arg (cs : List Tree) : Evaluation Tree := do
  let x ← name eval (← child crash cs 0)
  let value ← argumentValue eval x
  descend eval .arg value (← childrenFrom crash cs 1)

def compound (cs : List Tree) : Evaluation Tree := do
  match ← operand eval (← child crash cs 0) with
  | .atom s => eval (.node (Tag.ofName s) (← childrenFrom crash cs 1))
  | definition =>
    if definition.isMacroDef then
      applyDefinition eval unguarded Primitive.compound.name definition (← childrenFrom crash cs 1)
    else fault (.typeMismatch .compound .applicable definition)

def bindingsThen (body : Tree) : List (List Tree) → Evaluation (List Tree)
  | [] => return [← Rule.exec eval body]
  | pair :: rest => do
    let x ← name eval (← child crash pair 0)
    let v ← Rule.exec eval (← child crash pair 1)
    let out ← binding x v (bindingsThen body rest)
    return .atom x :: v :: out

def withVars (cs : List Tree) : Evaluation Tree := do
  if cs.length % 2 = 0 then
    fault (.wrongArity Primitive.withVars.name "an odd number of" cs.length)
  else
    match splitLast? cs with
    | none => return .empty
    | some (bindings, body) =>
      return .node Primitive.withVars (← bindingsThen crash eval body (pieces bindings))

def getBinding (cs : List Tree) : Evaluation Tree := do
  let key ← name eval (← child crash cs 0)
  match (← read).references.binding? key with
  | some value => entry eval value cs[1]?
  | none => return .atom "?"

def getAttachment (cs : List Tree) : Evaluation Tree := do
  let key ← name eval (← child crash cs 0)
  match (← read).references.attachment? key, cs[1]? with
  | some value, some index => childOf eval .getBinding value index
  | some value, none => return value
  | none, _ => return .uninit

def arithmetic (f : Units → List Tree → Access (Except Fault Quantity)) (cs : List Tree) :
    Evaluation Tree := do
  let args ← operands eval cs
  let result ← access crash (f (← units) args)
  return (← ofResult result).toTree

def folded (f : Units → Tree → List Tree → Except Fault Quantity) (u : Units) (args : List Tree) :
    Access (Except Fault Quantity) :=
  return f u (← item args 0) (← onward args 1)

def minus (u : Units) (args : List Tree) : Access (Except Fault Quantity) :=
  return Quantity.minus u (← item args 0) args[1]?

def binary (f : Units → Tree → Tree → Except Fault Quantity) (u : Units) (args : List Tree) :
    Access (Except Fault Quantity) :=
  return f u (← item args 0) (← item args 1)

def clamped (t : Tree) (start stop : Int) : Access Tree :=
  match t with
  | .atom s => return (Tree.atom s).range start stop
  | .node tag cs =>
    let i := min start.toNat cs.length
    let j := min stop.toNat cs.length
    if i < j then return .node tag (← stretch cs i j) else return .node tag []

def range (cs : List Tree) : Evaluation Tree := do
  let t ← operand eval (← child crash cs 0)
  let i ← integer eval .range (← child crash cs 1)
  let j ← integer eval .range (← child crash cs 2)
  access crash (clamped t i j)

def translate (cs : List Tree) : Evaluation Tree := do
  let text ← name eval (← child crash cs 0)
  let source ← name eval (← child crash cs 1)
  let target ← name eval (← child crash cs 2)
  return .atom (((← read).phrasebook text source target).getD "")

def ifThen (cs : List Tree) : Evaluation Tree := do
  if (← operand eval (← child crash cs 0)).isTrue then eval (← child crash cs 1)
  else
    match cs[2]? with
    | some t => eval t
    | none => return .empty

def caseOf (otherwise : List Tree) : List (List Tree) → Evaluation Tree
  | [] =>
    match otherwise.head? with
    | some t => eval t
    | none => return .uninit
  | pair :: rest => do
    if (← operand eval (← child crash pair 0)).isTrue then eval (← child crash pair 1)
    else caseOf otherwise rest

def sourceView (t target : Tree) : Evaluation Tree := do
  let w ← read
  let s ← get
  let (view, s') ← access crash (viewInactive s w s.derived.inactiveMode t target)
  set s'
  return view

def dispatch (tag : Tag) (cs : List Tree) : Evaluation Tree :=
  match tag with
  | .user macroName => apply eval unguarded macroName cs
  | .prim p =>
    match p with
    | .uninit | .error | .rawData | .symbol | .hybrid | .delay | .macroDef | .variadicDef =>
      return .node tag cs
    | .value => do value eval (← child crash cs 0)
    | .arg => arg crash eval cs
    | .evalArgs => do evalArgs eval unguarded (← child crash cs 0)
    | .quote => do child crash cs 0
    | .quasiquote => do quasiquote eval (← child crash cs 0)
    | .unquote | .unquoteSplice => do eval (← child crash cs 0)
    | .compound => compound crash eval unguarded cs
    | .assign => do Rule.assign eval (← child crash cs 0) (← child crash cs 1)
    | .withVars => withVars crash eval cs
    | .provides => do provides eval (← child crash cs 0)
    | .registryProperty => do registryProperty eval (← child crash cs 0) (← child crash cs 1)
    | .getLabel => do getLabel eval (← child crash cs 0)
    | .getArity => do getArity eval (← child crash cs 0)
    | .getBinding => getBinding crash eval cs
    | .getAttachment => getAttachment crash eval cs
    | .or => anyOf eval cs
    | .and => allOf eval cs
    | .xor => do oneOf eval (← child crash cs 0) (← child crash cs 1)
    | .not => do negation eval (← child crash cs 0)
    | .plus => arithmetic crash eval (folded Quantity.plus) cs
    | .minus => arithmetic crash eval minus cs
    | .times => arithmetic crash eval (folded Quantity.times) cs
    | .ratio => arithmetic crash eval (binary Quantity.ratio) cs
    | .divide => arithmetic crash eval (binary Quantity.divide) cs
    | .modulo => arithmetic crash eval (binary Quantity.modulo) cs
    | .merge => merge eval cs
    | .length => do length eval (← child crash cs 0)
    | .range => range crash eval cs
    | .lookup => do lookup eval (← child crash cs 0) (← child crash cs 1)
    | .isTuple => do isTuple eval (← child crash cs 0)
    | .number => do number eval (← child crash cs 0) (← child crash cs 1)
    | .date => date eval cs[0]? cs[1]?
    | .translate => translate crash eval cs
    | .findFile => findFile eval cs
    | .includeFile => do includeFile eval (← child crash cs 0)
    | .equal => do equality eval true (← child crash cs 0) (← child crash cs 1)
    | .unequal => do equality eval false (← child crash cs 0) (← child crash cs 1)
    | .less => do comparison eval .less (← child crash cs 0) (← child crash cs 1)
    | .lesseq => do comparison eval .lesseq (← child crash cs 0) (← child crash cs 1)
    | .greater => do comparison eval .greater (← child crash cs 0) (← child crash cs 1)
    | .greatereq => do comparison eval .greatereq (← child crash cs 0) (← child crash cs 1)
    | .ifThen => ifThen crash eval cs
    | .caseOf => caseOf crash eval (wholePieces cs).2 (wholePieces cs).1
    | .whileLoop => do whileLoop eval (← child crash cs 0) (← child crash cs 1)
    | .point => point eval cs
    | .viewInactive => do sourceView crash (← child crash cs 0) (← child crash cs 1)
    | .document | .concat | .tuple | .srcArg | .srcValue | .srcSymbol | .srcHybrid | .srcRaw
    | .srcHighlight | .srcExpand | .inlineTag | .openTag | .closeTag =>
      return .node tag (← execAll eval cs)

def step : Evaluator
  | .atom s => return .atom s
  | .node tag cs => inContext tag.name do
    match tag.arity? with
    | some a =>
      if a.admits cs.length then dispatch crash eval unguarded tag cs
      else fault (.wrongArity tag.name a.text cs.length)
    | none => dispatch crash eval unguarded tag cs

section

variable {crash} {eval} {unguarded}

theorem access_ok {α : Type} (a : α) : access crash (.ok a) = pure a := rfl

@[simp] theorem child_zero (x : Tree) (xs : List Tree) : child crash (x :: xs) 0 = pure x := rfl

@[simp] theorem child_one (x y : Tree) (xs : List Tree) : child crash (x :: y :: xs) 1 = pure y := rfl

@[simp] theorem child_two (x y z : Tree) (xs : List Tree) : child crash (x :: y :: z :: xs) 2 = pure z := rfl

@[simp] theorem childrenFrom_one (x : Tree) (xs : List Tree) : childrenFrom crash (x :: xs) 1 = pure xs := by
  rw [childrenFrom, onward_one, access_ok]

theorem arg_eq (x : Tree) (indices : List Tree) :
    arg crash eval (x :: indices) = Rule.arg eval x indices := by
  simp only [arg, Rule.arg, child_zero, childrenFrom_one, pure_bind]

theorem compound_eq (head : Tree) (args : List Tree) :
    compound crash eval unguarded (head :: args) = Rule.compound eval unguarded head args := by
  unfold compound Rule.compound
  rw [child_zero, pure_bind]
  refine bind_congr fun v => ?_
  cases v <;> simp only [childrenFrom_one, pure_bind]

theorem bindingsThen_eq (body : Tree) (bs : List (Tree × Tree)) :
    bindingsThen crash eval body (bs.map fun b => [b.1, b.2]) = Rule.bindingsThen eval body bs := by
  induction bs with
  | nil => rfl
  | cons b bs ih =>
    simp only [List.map_cons, bindingsThen, Rule.bindingsThen, child_zero, child_one, pure_bind, ih]

theorem withVars_eq (cs : List Tree) :
    withVars crash eval cs = Rule.withVars eval (Form.pairs cs).1 (Form.pairs cs).2 := by
  unfold withVars
  split
  · next heven =>
    rw [Form.pairs_even heven, Rule.withVars, ← Form.length_pairs heven]
  · next hodd =>
    obtain rfl | ⟨bindings, body, rfl⟩ := cs.eq_nil_or_concat
    · exact absurd rfl hodd
    · rw [List.concat_eq_append] at hodd ⊢
      have heven : bindings.length % 2 = 0 := by
        rw [List.length_append, List.length_singleton] at hodd
        omega
      rw [splitLast?_concat, Form.pairs_concat heven, Rule.withVars]
      simp only [pieces_eq heven, bindingsThen_eq]

theorem getBinding_eq (key : Tree) (index : Option Tree) :
    getBinding crash eval (key :: index.toList) = Rule.getBinding eval key index := by
  cases index <;> simp only [getBinding, Rule.getBinding, child_zero, pure_bind] <;> rfl

theorem getAttachment_eq (key : Tree) (index : Option Tree) :
    getAttachment crash eval (key :: index.toList) = Rule.getAttachment eval key index := by
  cases index <;> simp only [getAttachment, Rule.getAttachment, child_zero, pure_bind] <;> rfl

theorem operands_nil : operands eval [] = pure [] := rfl

theorem operands_cons (t : Tree) (ts : List Tree) : operands eval (t :: ts) = (do
    let v ← operand eval t
    let vs ← operands eval ts
    return v :: vs) :=
  List.mapM_cons

theorem arithmetic_two (f : Units → List Tree → Access (Except Fault Quantity)) (a b : Tree) :
    arithmetic crash eval f [a, b] = (do
      let a ← operand eval a
      let b ← operand eval b
      let result ← access crash (f (← units) [a, b])
      return (← ofResult result).toTree) := by
  simp only [arithmetic, operands_cons, operands_nil, bind_assoc, pure_bind]

theorem folded_eq (f : Units → Tree → List Tree → Except Fault Quantity) (first : Tree)
    (rest : List Tree) :
    arithmetic crash eval (folded f) (first :: rest) = (do
      let first ← operand eval first
      let rest ← operands eval rest
      quantity fun u => f u first rest) := by
  simp only [arithmetic, operands_cons, bind_assoc, pure_bind, folded, item_zero, onward_one]
  rfl

theorem binary_eq (f : Units → Tree → Tree → Except Fault Quantity) (a b : Tree) :
    arithmetic crash eval (binary f) [a, b] = Rule.binary eval f a b := by
  rw [arithmetic_two]
  rfl

theorem minus_eq (a : Tree) (b : Option Tree) :
    arithmetic crash eval minus (a :: b.toList) = Rule.minus eval a b := by
  cases b with
  | none =>
    simp only [arithmetic, Rule.minus, operands_cons, operands_nil, Option.toList, Option.mapM_none, bind_assoc,
      pure_bind]
    rfl
  | some b =>
    simp only [Rule.minus, Option.toList, arithmetic_two, Option.mapM_some, map_eq_pure_bind, bind_assoc,
      pure_bind]
    rfl

theorem clamped_eq (t : Tree) (start stop : Int) : clamped t start stop = .ok (t.range start stop) := by
  cases t with
  | atom s => rfl
  | node tag cs =>
    simp only [clamped, Tree.range, slice]
    split
    · next h =>
      rw [stretch_eq_ok (Nat.le_of_lt h) (Nat.min_le_right _ _)]
      rfl
    · next h =>
      rw [Nat.sub_eq_zero_of_le (Nat.le_of_not_lt h), List.take_zero]
      rfl

theorem range_eq (t start stop : Tree) :
    range crash eval [t, start, stop] = Rule.range eval t start stop := by
  simp only [range, Rule.range, child_zero, child_one, child_two, pure_bind, clamped_eq, access_ok]

theorem translate_eq (text source target : Tree) :
    translate crash eval [text, source, target] = Rule.translate eval text source target := by
  simp only [translate, Rule.translate, child_zero, child_one, child_two, pure_bind]

theorem ifThen_eq (condition yes : Tree) (no : Option Tree) :
    ifThen crash eval (condition :: yes :: no.toList) = Rule.ifThen eval condition yes no := by
  cases no <;> simp only [ifThen, Rule.ifThen, child_zero, child_one, pure_bind] <;> rfl

theorem caseOf_branches (otherwise : Option Tree) (branches : List (Tree × Tree)) :
    caseOf crash eval otherwise.toList (branches.map fun b => [b.1, b.2]) =
      Rule.caseOf eval otherwise branches := by
  induction branches with
  | nil => cases otherwise <;> rfl
  | cons b branches ih =>
    simp only [List.map_cons, caseOf, Rule.caseOf, child_zero, child_one, pure_bind, ih]

theorem caseOf_eq (cs : List Tree) : caseOf crash eval (wholePieces cs).2 (wholePieces cs).1 =
    Rule.caseOf eval (Form.pairs cs).2 (Form.pairs cs).1 := by
  rw [wholePieces_eq, caseOf_branches]

theorem sourceView_eq (t target : Tree) : sourceView crash t target = Rule.viewInactive t target := by
  simp only [sourceView, Rule.viewInactive, viewInactive_eq, access_ok, pure_bind]

def selective : List Primitive :=
  [.arg, .compound, .withVars, .getBinding, .getAttachment, .plus, .minus, .times, .ratio, .divide, .modulo,
    .range, .translate, .ifThen, .caseOf, .viewInactive]

variable {p : Primitive} {cs : List Tree} {f : Form}

theorem dispatch_plain (hp : p ∉ selective) (h : Form.ofPrimitive? p cs = some f) :
    dispatch crash eval unguarded p cs = Rule.form eval unguarded p cs f := by
  revert hp h
  rcases cs with _ | ⟨a, _ | ⟨b, _ | ⟨c, _ | ⟨d, rest⟩⟩⟩⟩ <;> cases p
  all_goals
    intro hp h
    first
    | exact absurd h.symm (Option.some_ne_none f)
    | exact absurd (by decide) hp
    | (cases Option.some.inj h; rfl)

theorem dispatch_selective (hp : p ∈ selective) (h : Form.ofPrimitive? p cs = some f) :
    dispatch crash eval unguarded p cs = Rule.form eval unguarded p cs f := by
  simp only [selective, List.mem_cons, List.not_mem_nil, or_false] at hp
  rcases hp with rfl | rfl | rfl | rfl | rfl | rfl | rfl | rfl | rfl | rfl | rfl | rfl | rfl | rfl | rfl | rfl
  · match cs, h with
    | x :: indices, rfl => exact arg_eq x indices
  · match cs, h with
    | head :: args, rfl => exact compound_eq head args
  · match cs, h with
    | t :: ts, h =>
      cases Option.some.inj h
      exact withVars_eq (t :: ts)
  · match cs, h with
    | [key], rfl => exact getBinding_eq key none
    | [key, index], rfl => exact getBinding_eq key (some index)
  · match cs, h with
    | [key], rfl => exact getAttachment_eq key none
    | [key, index], rfl => exact getAttachment_eq key (some index)
  · match cs, h with
    | t :: ts, rfl => exact folded_eq Quantity.plus t ts
  · match cs, h with
    | [a], rfl => exact minus_eq a none
    | [a, b], rfl => exact minus_eq a (some b)
  · match cs, h with
    | t :: ts, rfl => exact folded_eq Quantity.times t ts
  · match cs, h with
    | [a, b], rfl => exact binary_eq Quantity.ratio a b
  · match cs, h with
    | [a, b], rfl => exact binary_eq Quantity.divide a b
  · match cs, h with
    | [a, b], rfl => exact binary_eq Quantity.modulo a b
  · match cs, h with
    | [t, start, stop], rfl => exact range_eq t start stop
  · match cs, h with
    | [text, source, target], rfl => exact translate_eq text source target
  · match cs, h with
    | [condition, yes], rfl => exact ifThen_eq condition yes none
    | [condition, yes, no], rfl => exact ifThen_eq condition yes (some no)
  · match cs, h with
    | a :: b :: rest, h =>
      cases Option.some.inj h
      exact caseOf_eq (a :: b :: rest)
  · match cs, h with
    | [t, target], rfl =>
      simp only [dispatch, child_zero, child_one, pure_bind, sourceView_eq]
      rfl

theorem dispatch_eq (crash : OutOfRange → Halt) (h : Form.ofPrimitive? p cs = some f) :
    dispatch crash eval unguarded p cs = Rule.form eval unguarded p cs f := by
  by_cases hp : p ∈ selective
  · exact dispatch_selective hp h
  · exact dispatch_plain hp h

theorem step_eq (crash : OutOfRange → Halt) (t : Tree) :
    step crash eval unguarded t = Rule.step eval unguarded t := by
  match t with
  | .atom s => rfl
  | .node (.user m) cs => rfl
  | .node (.prim p) cs =>
    have hform := Form.isSome_ofPrimitive? p cs
    refine congrArg (inContext p.name) ?_
    cases hf : Form.ofPrimitive? p cs with
    | some f =>
      have hnode : Form.ofNode p cs = .ok f := by simp only [Form.ofNode, hf]
      rw [hf] at hform
      rw [hnode]
      refine Eq.trans ?_ (dispatch_eq crash hf)
      cases ha : p.arity? with
      | none => simp only [Tag.arity?, ha]
      | some a =>
        rw [ha] at hform
        have hadmits : a.admits cs.length = true := hform.symm
        simp only [Tag.arity?, ha, hadmits, if_true]
    | none =>
      have hnode : Form.ofNode p cs = .error (Form.arityFault p cs.length) := by simp only [Form.ofNode, hf]
      rw [hf] at hform
      rw [hnode]
      cases ha : p.arity? with
      | none =>
        rw [ha] at hform
        cases hform
      | some a =>
        rw [ha] at hform
        have hadmits : a.admits cs.length = false := hform.symm
        simp only [Tag.arity?, ha, hadmits, Form.arityFault]
        rfl

/-- Where the arity was not compared, a rule may ask for a child that is not there. -/
example (w : World) (s : State) : (dispatch crash eval unguarded Primitive.value []).run.run w s =
    .error (crash ⟨0, 1, 0⟩) := rfl

end

end Typesetter.Indexed

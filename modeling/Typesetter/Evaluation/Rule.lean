import Typesetter.Evaluation.Application
import Typesetter.Evaluation.Argument
import Typesetter.Evaluation.Form
import Typesetter.Operation.Arithmetic
import Typesetter.Operation.Date
import Typesetter.Operation.Numbering
import Typesetter.Operation.Sequence

namespace Typesetter.Rule

open Evaluation Execution

variable (eval unguarded : Evaluator)

/-! Variables -/

def value (x : Tree) : Evaluation Tree := do
  readVariable (← name eval x)

def assign (x v : Tree) : Evaluation Tree := do
  let x ← name eval x
  let v ← operand eval v
  Execution.assign x v
  return .node Primitive.assign [.atom x, .node Primitive.quote [v]]

def bindingsThen (body : Tree) : List (Tree × Tree) → Evaluation (List Tree)
  | [] => return [← exec eval body]
  | (x, v) :: rest => do
    let x ← name eval x
    let v ← exec eval v
    let out ← binding x v (bindingsThen body rest)
    return .atom x :: v :: out

def withVars (bindings : List (Tree × Tree)) : Option Tree → Evaluation Tree
  | some body => return .node Primitive.withVars (← bindingsThen eval body bindings)
  | none =>
    fault (.wrongArity Primitive.withVars.name "an odd number of" (2 * bindings.length))

/-! Queries -/

def provides (x : Tree) : Evaluation Tree := do
  return .truth (← providesVariable (← name eval x))

def registryProperty (tag property : Tree) : Evaluation Tree := do
  let tag ← name eval tag
  let property ← name eval property
  return ((← read).registry.property? tag property).getD .uninit

def getLabel (t : Tree) : Evaluation Tree := return .atom (← operand eval t).kindName

def getArity (t : Tree) : Evaluation Tree := return .atom (toString (← operand eval t).arity)

def entry (value : Tree) : Option Tree → Evaluation Tree
  | some index => childOf eval .getBinding value index
  | none => return if value.isTuple then (value.child? 0).getD .empty else value

def getBinding (key : Tree) (index : Option Tree) : Evaluation Tree := do
  let key ← name eval key
  match (← read).references.binding? key with
  | some value => entry eval value index
  | none => return .atom "?"

def getAttachment (key : Tree) (index : Option Tree) : Evaluation Tree := do
  let key ← name eval key
  match (← read).references.attachment? key, index with
  | some value, some index => childOf eval .getBinding value index
  | some value, none => return value
  | none, _ => return .uninit

/-! Logic -/

def anyOf : List Tree → Evaluation Tree
  | [] => return .truth false
  | t :: ts => do
    if (← operand eval t).isTrue then return .truth true else anyOf ts

def allOf : List Tree → Evaluation Tree
  | [] => return .truth true
  | t :: ts => do
    if (← operand eval t).isTrue then allOf ts else return .truth false

def oneOf (a b : Tree) : Evaluation Tree := do
  let a ← operand eval a
  let b ← operand eval b
  return .truth (a.isTrue != b.isTrue)

def negation (t : Tree) : Evaluation Tree := return .truth (!(← operand eval t).isTrue)

/-! Arithmetic and comparison, under the length units of the moment -/

def quantity (f : Units → Except Fault Quantity) : Evaluation Tree := do
  return (← ofResult (f (← units))).toTree

def plus (first : Tree) (rest : List Tree) : Evaluation Tree := do
  let first ← operand eval first
  let rest ← operands eval rest
  quantity fun u => Quantity.plus u first rest

def times (first : Tree) (rest : List Tree) : Evaluation Tree := do
  let first ← operand eval first
  let rest ← operands eval rest
  quantity fun u => Quantity.times u first rest

def minus (a : Tree) (b : Option Tree) : Evaluation Tree := do
  let a ← operand eval a
  let b ← b.mapM (operand eval)
  quantity fun u => Quantity.minus u a b

def binary (f : Units → Tree → Tree → Except Fault Quantity) (a b : Tree) : Evaluation Tree := do
  let a ← operand eval a
  let b ← operand eval b
  quantity fun u => f u a b

def equality (wanted : Bool) (a b : Tree) : Evaluation Tree := do
  let a ← operand eval a
  let b ← operand eval b
  return .truth (a.equal (← units) b == wanted)

def comparison (r : Relation) (a b : Tree) : Evaluation Tree := do
  let a ← operand eval a
  let b ← operand eval b
  return .truth (← ofResult (a.relate (← units) r b))

/-! Strings and tuples -/

def merge (ts : List Tree) : Evaluation Tree := do
  ofResult (Tree.merge (← operands eval ts))

def length (t : Tree) : Evaluation Tree := return .atom (toString (← operand eval t).length)

def range (t start stop : Tree) : Evaluation Tree := do
  let t ← operand eval t
  let i ← integer eval .range start
  let j ← integer eval .range stop
  return t.range i j

def lookup (t index : Tree) : Evaluation Tree := do
  let t ← operand eval t
  let i ← integer eval .lookup index
  ofResult (t.lookup i)

def isTuple (t : Tree) : Evaluation Tree := return .truth (← operand eval t).isTuple

def number (n style : Tree) : Evaluation Tree := do
  let n ← integer eval .number n
  let style ← name eval style
  return .atom (← ofResult (Numbering.number n style))

/-- Dates are the same in every language. -/
def date (format language : Option Tree) : Evaluation Tree := do
  let format ← match format with
    | some t => name eval t
    | none => pure Date.usualFormat
  if let some t := language then discard (name eval t)
  return .atom (← ofResult (Date.text (← read).today format))

def translate (text source target : Tree) : Evaluation Tree := do
  let text ← name eval text
  let source ← name eval source
  let target ← name eval target
  return .atom (((← read).phrasebook text source target).getD "")

/-! Files -/

def findFile : List Tree → Evaluation Tree
  | [] => return .empty
  | t :: ts => do
    let x ← name eval t
    let path := Path.resolve (← read).base x
    if ← fileExists path then return .atom path else findFile ts

/-- A file that is missing is reported and left out. Inclusions count like macros. -/
def includeFile (t : Tree) : Evaluation Tree := do
  let x ← name eval t
  match ← fileText (Path.resolve (← read).base x) with
  | .error e =>
    warn e.message Primitive.includeFile.name
    return .empty
  | .ok text =>
    match Tree.read text with
    | .error e => fault (.unreadableFile x e)
    | .ok tree =>
      checkDepth x
      deeper (eval tree)

/-! Control -/

def ifThen (condition yes : Tree) (no : Option Tree) : Evaluation Tree := do
  if (← operand eval condition).isTrue then eval yes
  else
    match no with
    | some t => eval t
    | none => return .empty

def caseOf (otherwise : Option Tree) : List (Tree × Tree) → Evaluation Tree
  | [] =>
    match otherwise with
    | some t => eval t
    | none => return .uninit
  | (condition, result) :: rest => do
    if (← operand eval condition).isTrue then eval result else caseOf otherwise rest

def rounds (limit : Nat) (condition body : Tree) : Nat → List Tree → Evaluation (List Tree)
  | 0, results => do
    if (← operand eval condition).isTrue then fault (.tooManyIterations limit)
    else return results.reverse
  | left + 1, results => do
    if (← operand eval condition).isTrue then
      let v ← exec eval body
      rounds limit condition body left (v :: results)
    else return results.reverse

def whileLoop (condition body : Tree) : Evaluation Tree := do
  let limit := (← settings).maxIterations
  return .node Primitive.concat (← rounds eval limit condition body limit [])

def point (coordinates : List Tree) : Evaluation Tree :=
  return .node Primitive.point (← operands eval coordinates)

def viewInactive (t target : Tree) : Evaluation Tree := do
  let w ← read
  let s ← get
  let (view, s') := s.viewInactive w s.derived.inactiveMode t target
  set s'
  return view

def form (tag : Tag) (cs : List Tree) : Form → Evaluation Tree
  | .itself => return .node tag cs
  | .rebuilt => return .node tag (← execAll eval cs)
  | .value x => value eval x
  | .arg x indices => arg eval x indices
  | .evalArgs x => evalArgs eval unguarded x
  | .quote body => return body
  | .quasiquote body => quasiquote eval body
  | .unquote body => eval body
  | .apply macroName args => apply eval unguarded macroName args
  | .compound head args => compound eval unguarded head args
  | .assign x v => assign eval x v
  | .withVars bindings body => withVars eval bindings body
  | .provides x => provides eval x
  | .registryProperty tag property => registryProperty eval tag property
  | .getLabel t => getLabel eval t
  | .getArity t => getArity eval t
  | .getBinding key index => getBinding eval key index
  | .getAttachment key index => getAttachment eval key index
  | .anyOf ts => anyOf eval ts
  | .allOf ts => allOf eval ts
  | .oneOf a b => oneOf eval a b
  | .negation t => negation eval t
  | .plus first rest => plus eval first rest
  | .minus a b => minus eval a b
  | .times first rest => times eval first rest
  | .ratio a b => binary eval Quantity.ratio a b
  | .divide a b => binary eval Quantity.divide a b
  | .modulo a b => binary eval Quantity.modulo a b
  | .merge ts => merge eval ts
  | .length t => length eval t
  | .range t start stop => range eval t start stop
  | .lookup t index => lookup eval t index
  | .isTuple t => isTuple eval t
  | .number n style => number eval n style
  | .date format language => date eval format language
  | .translate text source target => translate eval text source target
  | .findFile names => findFile eval names
  | .includeFile x => includeFile eval x
  | .equality wanted a b => equality eval wanted a b
  | .comparison r a b => comparison eval r a b
  | .ifThen condition yes no => ifThen eval condition yes no
  | .caseOf branches otherwise => caseOf eval otherwise branches
  | .whileLoop condition body => whileLoop eval condition body
  | .point coordinates => point eval coordinates
  | .viewInactive t target => viewInactive t target

def step : Evaluator
  | .atom s => return .atom s
  | .node tag cs => inContext tag.name do
    form eval unguarded tag cs (← ofResult (Form.ofNode tag cs))

end Typesetter.Rule

import Typesetter.Fault
import Typesetter.Operation.Comparison

namespace Typesetter

inductive Form where
  | itself
  | rebuilt
  | value (name : Tree)
  | arg (name : Tree) (indices : List Tree)
  | evalArgs (name : Tree)
  | quote (body : Tree)
  | quasiquote (body : Tree)
  | unquote (body : Tree)
  | apply (name : String) (args : List Tree)
  | compound (head : Tree) (args : List Tree)
  | assign (name value : Tree)
  | withVars (bindings : List (Tree × Tree)) (body : Option Tree)
  | provides (name : Tree)
  | registryProperty (tag property : Tree)
  | getLabel (t : Tree)
  | getArity (t : Tree)
  | getBinding (key : Tree) (index : Option Tree)
  | getAttachment (key : Tree) (index : Option Tree)
  | anyOf (ts : List Tree)
  | allOf (ts : List Tree)
  | oneOf (a b : Tree)
  | negation (t : Tree)
  | plus (first : Tree) (rest : List Tree)
  | minus (a : Tree) (b : Option Tree)
  | times (first : Tree) (rest : List Tree)
  | ratio (a b : Tree)
  | divide (a b : Tree)
  | modulo (a b : Tree)
  | merge (ts : List Tree)
  | length (t : Tree)
  | range (t start stop : Tree)
  | lookup (t index : Tree)
  | isTuple (t : Tree)
  | number (n style : Tree)
  | date (format language : Option Tree)
  | translate (text source target : Tree)
  | findFile (names : List Tree)
  | includeFile (name : Tree)
  | equality (wanted : Bool) (a b : Tree)
  | comparison (relation : Relation) (a b : Tree)
  | ifThen (condition yes : Tree) (no : Option Tree)
  | caseOf (branches : List (Tree × Tree)) (otherwise : Option Tree)
  | whileLoop (condition body : Tree)
  | point (coordinates : List Tree)
  | viewInactive (t target : Tree)

namespace Form

/-- Children two by two, and the last one if it is left over. -/
def pairs : List Tree → List (Tree × Tree) × Option Tree
  | [] => ([], none)
  | [t] => ([], some t)
  | a :: b :: rest =>
    let (ps, last) := pairs rest
    ((a, b) :: ps, last)

def ofPrimitive? : Primitive → List Tree → Option Form
  | .uninit, _ | .error, _ | .rawData, _ | .symbol, _ | .hybrid, _ => some itself
  | .delay, [_] | .macroDef, _ :: _ | .variadicDef, [_, _] => some itself
  | .document, _ | .concat, _ | .tuple, _ | .srcArg, _ | .srcValue, _ | .srcSymbol, _
  | .srcHybrid, _ | .srcRaw, _ | .srcHighlight, _ | .srcExpand, _ | .inlineTag, _ | .openTag, _
  | .closeTag, _ => some rebuilt
  | .value, [name] => some (value name)
  | .arg, name :: indices => some (arg name indices)
  | .evalArgs, [name] => some (evalArgs name)
  | .quote, [body] => some (quote body)
  | .quasiquote, [body] => some (quasiquote body)
  | .unquote, [body] | .unquoteSplice, [body] => some (unquote body)
  | .compound, head :: args => some (compound head args)
  | .assign, [name, v] => some (assign name v)
  | .withVars, t :: ts =>
    let (bindings, body) := pairs (t :: ts)
    some (withVars bindings body)
  | .provides, [name] => some (provides name)
  | .registryProperty, [tag, property] => some (registryProperty tag property)
  | .getLabel, [t] => some (getLabel t)
  | .getArity, [t] => some (getArity t)
  | .getBinding, [key] => some (getBinding key none)
  | .getBinding, [key, index] => some (getBinding key (some index))
  | .getAttachment, [key] => some (getAttachment key none)
  | .getAttachment, [key, index] => some (getAttachment key (some index))
  | .or, t :: ts => some (anyOf (t :: ts))
  | .and, t :: ts => some (allOf (t :: ts))
  | .xor, [a, b] => some (oneOf a b)
  | .not, [t] => some (negation t)
  | .plus, t :: ts => some (plus t ts)
  | .minus, [a] => some (minus a none)
  | .minus, [a, b] => some (minus a (some b))
  | .times, t :: ts => some (times t ts)
  | .ratio, [a, b] => some (ratio a b)
  | .divide, [a, b] => some (divide a b)
  | .modulo, [a, b] => some (modulo a b)
  | .merge, t :: ts => some (merge (t :: ts))
  | .length, [t] => some (length t)
  | .range, [t, start, stop] => some (range t start stop)
  | .lookup, [t, index] => some (lookup t index)
  | .isTuple, [t] => some (isTuple t)
  | .number, [n, style] => some (number n style)
  | .date, [] => some (date none none)
  | .date, [format] => some (date (some format) none)
  | .date, [format, language] => some (date (some format) (some language))
  | .translate, [text, source, target] => some (translate text source target)
  | .findFile, t :: ts => some (findFile (t :: ts))
  | .includeFile, [name] => some (includeFile name)
  | .equal, [a, b] => some (equality true a b)
  | .unequal, [a, b] => some (equality false a b)
  | .less, [a, b] => some (comparison .less a b)
  | .lesseq, [a, b] => some (comparison .lesseq a b)
  | .greater, [a, b] => some (comparison .greater a b)
  | .greatereq, [a, b] => some (comparison .greatereq a b)
  | .ifThen, [condition, yes] => some (ifThen condition yes none)
  | .ifThen, [condition, yes, no] => some (ifThen condition yes (some no))
  | .caseOf, a :: b :: rest =>
    let (branches, otherwise) := pairs (a :: b :: rest)
    some (caseOf branches otherwise)
  | .whileLoop, [condition, body] => some (whileLoop condition body)
  | .point, t :: ts => some (point (t :: ts))
  | .viewInactive, [t, target] => some (viewInactive t target)
  | _, _ => none

def arityFault (p : Primitive) (n : Nat) : Fault :=
  { cause := .wrongArity p.name ((p.arity?.map (·.text)).getD "") n }

def ofNode (tag : Tag) (cs : List Tree) : Except Fault Form :=
  match tag with
  | .user name => .ok (apply name cs)
  | .prim p =>
    match ofPrimitive? p cs with
    | some form => .ok form
    | none => .error (arityFault p cs.length)

end Form

end Typesetter

import Typesetter.Tree.Basic
import Typesetter.Tree.Reader

namespace Typesetter

inductive Demand where
  | numeric
  | sameKind
  | oneLength
  | plainDivisor
  | integer
  | ordered
  | mergeable
  | argumentName
  | applicable
  deriving DecidableEq, Repr

def Demand.text : Demand → String
  | numeric => "number or length"
  | sameKind => "operands of the same kind"
  | oneLength => "at most one length"
  | plainDivisor => "a number divisor"
  | integer => "integer"
  | ordered => "comparable values"
  | mergeable => "all strings or all tuples"
  | argumentName => "an argument name"
  | applicable => "a macro or a macro name"

inductive Cause where
  | typeMismatch (op : Primitive) (demand : Demand) (got : Tree)
  | wrongArity (name : String) (expected : String) (got : Nat)
  | undefinedMacro (name : String)
  | divisionByZero (op : Primitive)
  | overflow (op : Primitive)
  | unknownNumbering (style : String)
  | noFootnoteMark (number : Int)
  | badDateFormat (format : String)
  | unreadableFile (name : String) (error : ReadError)
  | invalid (reason : String)
  | indexOutOfBounds (index : Int) (length : Nat)
  | tooManyIterations (limit : Nat)
  | recursionLimit (limit : Nat) (name : String)
  | nestedReference (target : String)
  | notAString (got : Tree)
  | propagated (tree : Tree)
  deriving DecidableEq, Repr

/-- A tree in a message: a label in quotes, cut after 24 characters, or the tag of a node. -/
def Tree.summary : Tree → String
  | atom s =>
    if 24 < s.length then "\"" ++ String.ofList (s.toList.take 24) ++ "...\""
    else "\"" ++ s ++ "\""
  | node tag _ => "<" ++ tag.name ++ ">"

namespace Cause

def invalidMessage (reason : String) : String := "invalid operation: " ++ reason

def message : Cause → String
  | typeMismatch op demand got =>
    "type mismatch in " ++ op.name ++ ": expected " ++ demand.text ++ ", got " ++ got.summary
  | wrongArity name expected got =>
    "bad " ++ name ++ ": expected " ++ expected ++ " argument(s), got " ++ toString got
  | undefinedMacro name => "undefined macro: " ++ name
  | divisionByZero op => "division by zero in " ++ op.name
  | overflow op => invalidMessage ("integer overflow in " ++ op.name)
  | unknownNumbering style => invalidMessage ("unknown numbering style: " ++ style)
  | noFootnoteMark n => invalidMessage ("number too large for fnsymbol: " ++ toString n)
  | badDateFormat format => invalidMessage ("bad date format: " ++ format)
  | unreadableFile name error => invalidMessage ("cannot parse " ++ name ++ ": " ++ error.message)
  | invalid reason => invalidMessage reason
  | indexOutOfBounds i n =>
    "index " ++ toString i ++ " out of bounds for length " ++ toString n
  | tooManyIterations n => "loop seems infinite (more than " ++ toString n ++ " iterations)"
  | recursionLimit n name =>
    "recursion depth exceeded maximum (" ++ toString n ++ ") while expanding " ++ name
  | nestedReference target => "nested reference to " ++ target ++ " inside its own expansion"
  | notAString got => "expected a string, got " ++ got.summary
  | propagated tree => tree.errorMessage

end Cause

structure Fault where
  cause : Cause
  context : Option String := none
  deriving DecidableEq, Repr

namespace Fault

instance : Coe Cause Fault := ⟨fun cause => ⟨cause, none⟩⟩

/-- The innermost context stays. -/
def inContext (f : Fault) (name : String) : Fault :=
  { f with context := f.context <|> some name }

def isPropagated (f : Fault) : Bool :=
  match f.cause with
  | .propagated _ => true
  | _ => false

def message (f : Fault) : String :=
  match f.cause, f.context with
  | .propagated tree, _ => tree.errorMessage
  | cause, none => cause.message
  | cause, some name => cause.message ++ " (in " ++ name ++ ")"

def toTree (f : Fault) : Tree :=
  match f.cause with
  | .propagated tree => tree
  | _ => Tree.error f.message

theorem toTree_propagated {f : Fault} {t : Tree} (h : f.cause = .propagated t) : f.toTree = t := by
  simp only [toTree, h]

theorem toTree_fresh {f : Fault} (h : ∀ t, f.cause ≠ .propagated t) : f.toTree = .error f.message := by
  unfold toTree
  split
  · exact absurd ‹_› (h _)
  · rfl

theorem isPropagated_fresh {f : Fault} (h : ∀ t, f.cause ≠ .propagated t) : f.isPropagated = false := by
  unfold isPropagated
  split
  · exact absurd ‹_› (h _)
  · rfl

end Fault

end Typesetter

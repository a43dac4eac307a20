import Typesetter.Fault
import Typesetter.Measure.Units

namespace Typesetter

open Text Decimal

inductive Quantity where
  | integer (n : Int)
  | real (x : Float)
  | length (n : Int)

namespace Quantity

/-- An integer is written as it is, any other finite number makes a real one, and a length needs a
unit. -/
def read? (u : Units) (s : List Char) : Option Quantity :=
  let s := trim s
  match readInteger? s with
  | some n => some (integer n)
  | none =>
    match (readFloat? s).filter isFinite with
    | some x => some (real x)
    | none => if Length.isLength s then (u.length? s).map length else none

def ofTree? (u : Units) (t : Tree) : Option Quantity := t.label?.bind fun s => read? u s.toList

/-- Real numbers below a thousand billion that are integers are written as such. -/
def realText (x : Float) : String :=
  if (Binary.ofFloat x).isInteger && x.abs < 1e15 then toString (truncate x) else Decimal.text x

def text : Quantity → String
  | integer n => toString n
  | real x => realText x
  | length n => Length.text n

def toTree (q : Quantity) : Tree := .atom q.text

def toFloat : Quantity → Float
  | integer n => Float.ofInt n
  | real x => x
  | length n => Float.ofInt n

def operand (u : Units) (op : Primitive) (t : Tree) : Except Fault Quantity :=
  match ofTree? u t with
  | some q => .ok q
  | none => .error (Cause.typeMismatch op .numeric t)

end Quantity

end Typesetter

import Typesetter.Operation.Quantity
/-!
Arithmetic. Integers and lengths are exact within the limits; a length goes with lengths in sums and
with numbers in products.
-/

namespace Typesetter.Quantity

open Decimal

def exact (op : Primitive) (n : Int) : Except Fault Int :=
  match inRange? n with
  | some n => .ok n
  | none => .error (Cause.overflow op)

def add (op : Primitive) (a b : Quantity) (second : Tree) : Except Fault Quantity :=
  match a, b with
  | integer m, integer n => (exact op (m + n)).map integer
  | length m, length n => (exact op (m + n)).map length
  | length _, _ | _, length _ => .error (Cause.typeMismatch op .sameKind second)
  | a, b => .ok (real (a.toFloat + b.toFloat))

def negate : Quantity → Except Fault Quantity
  | integer n => (exact .minus (-n)).map integer
  | real x => .ok (real (-x))
  | length n => (exact .minus (-n)).map length

def multiply (a b : Quantity) (second : Tree) : Except Fault Quantity :=
  match a, b with
  | integer m, integer n => (exact .times (m * n)).map integer
  | length _, length _ => .error (Cause.typeMismatch .times .oneLength second)
  | length m, n | n, length m => .ok (length (roundHalfAway (Float.ofInt m * n.toFloat)))
  | a, b => .ok (real (a.toFloat * b.toFloat))

def combine (u : Units) (op : Primitive) (f : Quantity → Quantity → Tree → Except Fault Quantity) :
    Quantity → List Tree → Except Fault Quantity
  | acc, [] => .ok acc
  | acc, t :: ts => do
    let q ← operand u op t
    let acc ← f acc q t
    combine u op f acc ts

def plus (u : Units) (first : Tree) (rest : List Tree) : Except Fault Quantity := do
  combine u .plus (add .plus) (← operand u .plus first) rest

def times (u : Units) (first : Tree) (rest : List Tree) : Except Fault Quantity := do
  combine u .times multiply (← operand u .times first) rest

def minus (u : Units) (a : Tree) (b : Option Tree) : Except Fault Quantity := do
  let x ← operand u .minus a
  match b with
  | none => negate x
  | some b => add .minus x (← negate (← operand u .minus b)) b

def ratio (u : Units) (a b : Tree) : Except Fault Quantity := do
  let x ← operand u .ratio a
  let y ← operand u .ratio b
  if y.toFloat == 0.0 then throw (Cause.divisionByZero .ratio : Fault)
  match x, y with
  | length m, length n => return real (Float.ofInt m / Float.ofInt n)
  | length m, n => return length (roundHalfAway (Float.ofInt m / n.toFloat))
  | _, length _ => throw (Cause.typeMismatch .ratio .plainDivisor b : Fault)
  | p, q => return real (p.toFloat / q.toFloat)

def integerOperand (u : Units) (op : Primitive) (t : Tree) : Except Fault Int :=
  match ofTree? u t with
  | some (integer n) => .ok n
  | _ => .error (Cause.typeMismatch op .integer t)

def quotient (x y : Int) : Except Fault Int :=
  if y = 0 then .error (Cause.divisionByZero .divide) else exact .divide (x.tdiv y)

/-- The remainder has the sign of the first number. It is out of reach where the quotient is. -/
def remainder (x y : Int) : Except Fault Int :=
  if y = 0 then .error (Cause.divisionByZero .modulo)
  else do
    discard (exact .modulo (x.tdiv y))
    return x.tmod y

def divide (u : Units) (a b : Tree) : Except Fault Quantity := do
  let x ← integerOperand u .divide a
  let y ← integerOperand u .divide b
  integer <$> quotient x y

def modulo (u : Units) (a b : Tree) : Except Fault Quantity := do
  let x ← integerOperand u .modulo a
  let y ← integerOperand u .modulo b
  integer <$> remainder x y

end Typesetter.Quantity

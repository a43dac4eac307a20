import Typesetter.Operation.Quantity
/-!
Comparison of values. Numbers and lengths compare by size, a number beside a length counting in
tmpt; other labels compare character by character; nodes have no order.
-/

namespace Typesetter

def floatOrder (x y : Float) : Option Ordering :=
  if x < y then some .lt
  else if x == y then some .eq
  else if y < x then some .gt
  else none

namespace Quantity

def order : Quantity → Quantity → Option Ordering
  | integer m, integer n => some (compare m n)
  | length m, length n => some (compare m n)
  | a, b => floatOrder a.toFloat b.toFloat

end Quantity

inductive Relation where
  | less
  | lesseq
  | greater
  | greatereq
  deriving DecidableEq, Repr

namespace Relation

def primitive : Relation → Primitive
  | less => .less
  | lesseq => .lesseq
  | greater => .greater
  | greatereq => .greatereq

def holds : Relation → Ordering → Bool
  | less, o => o = .lt
  | lesseq, o => o ≠ .gt
  | greater, o => o = .gt
  | greatereq, o => o ≠ .lt

end Relation

namespace Tree

def order (u : Units) (a b : Tree) : Option Ordering :=
  match Quantity.ofTree? u a, Quantity.ofTree? u b with
  | some x, some y => x.order y
  | _, _ =>
    match a, b with
    | atom s, atom t => some (compare s t)
    | _, _ => none

/-- Numbers and lengths are equal by size, other values as trees. -/
def equal (u : Units) (a b : Tree) : Bool :=
  match Quantity.ofTree? u a, Quantity.ofTree? u b with
  | some x, some y => x.order y = some .eq
  | _, _ => a = b

def relate (u : Units) (r : Relation) (a b : Tree) : Except Fault Bool :=
  match a.order u b with
  | some o => .ok (r.holds o)
  | none => .error (Cause.typeMismatch r.primitive .ordered (if a.isAtom then b else a))

end Tree

end Typesetter

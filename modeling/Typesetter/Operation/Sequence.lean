import Typesetter.Fault

namespace Typesetter

/-- The positions from one bound up to another; bounds beyond the ends move to the ends. -/
def slice {α : Type} (xs : List α) (start stop : Int) : List α :=
  let i := min start.toNat xs.length
  let j := min stop.toNat xs.length
  (xs.drop i).take (j - i)

namespace Tree

def length : Tree → Nat
  | atom s => s.length
  | node _ cs => cs.length

def range (t : Tree) (start stop : Int) : Tree :=
  match t with
  | atom s => atom (String.ofList (slice s.toList start stop))
  | node tag cs => node tag (slice cs start stop)

def item? : Tree → Int → Option Tree
  | atom s, i => i.toNat?.bind fun i => s.toList[i]?.map fun c => atom (String.ofList [c])
  | node _ cs, i => i.toNat?.bind fun i => cs[i]?

def lookup (t : Tree) (i : Int) : Except Fault Tree :=
  match t.item? i with
  | some item => .ok item
  | none => .error (Cause.indexOutOfBounds i t.length)

def merge (ts : List Tree) : Except Fault Tree :=
  if ts.all isAtom then .ok (atom (String.join (ts.filterMap label?)))
  else
    match ts.find? (!·.isTuple) with
    | some bad => .error (Cause.typeMismatch .merge .mergeable bad)
    | none => .ok (tuple (ts.flatMap children))

end Tree

end Typesetter

import Typesetter.Tree.Tag

namespace Typesetter

inductive Tree where
  | atom (label : String)
  | node (tag : Tag) (children : List Tree)
  deriving Repr

namespace Tree

mutual

def decEq : (s t : Tree) → Decidable (s = t)
  | atom a, atom b => decidable_of_iff (a = b) (by simp)
  | atom _, node .. => isFalse (by simp)
  | node .., atom _ => isFalse (by simp)
  | node a cs, node b ds =>
    if h : a = b then
      match decEqList cs ds with
      | isTrue hs => isTrue (by simp [h, hs])
      | isFalse hs => isFalse (by simp [hs])
    else isFalse (by simp [h])

/-- Trees held in one place are equal at once, so trees with shared parts are compared fast. -/
def decEqList : (cs ds : List Tree) → Decidable (cs = ds)
  | [], [] => isTrue rfl
  | [], _ :: _ => isFalse (by simp)
  | _ :: _, [] => isFalse (by simp)
  | c :: cs, d :: ds =>
    match withPtrEqDecEq c d fun _ => decEq c d with
    | isTrue h =>
      match decEqList cs ds with
      | isTrue hs => isTrue (by simp [h, hs])
      | isFalse hs => isFalse (by simp [hs])
    | isFalse h => isFalse (by simp [h])

end

instance : DecidableEq Tree := decEq

def uninit : Tree := node Primitive.uninit []

instance : Inhabited Tree := ⟨uninit⟩

def error (message : String) : Tree := node Primitive.error [atom message]

def empty : Tree := atom ""

def truth (b : Bool) : Tree := atom (if b then "true" else "false")

def tuple (items : List Tree) : Tree := node Primitive.tuple items

def label? : Tree → Option String
  | atom s => some s
  | node .. => none

def tag? : Tree → Option Tag
  | atom _ => none
  | node tag _ => some tag

def children : Tree → List Tree
  | atom _ => []
  | node _ cs => cs

def isAtom (t : Tree) : Bool := t.label?.isSome

def hasTag (t : Tree) (tag : Tag) : Bool := t.tag? = some tag

def isUninit (t : Tree) : Bool := t.hasTag Primitive.uninit
def isError (t : Tree) : Bool := t.hasTag Primitive.error
def isTuple (t : Tree) : Bool := t.hasTag Primitive.tuple

def isMacroDef (t : Tree) : Bool := t.hasTag Primitive.macroDef || t.hasTag Primitive.variadicDef

def isDelayed (t : Tree) : Bool := t.hasTag Primitive.delay || t.hasTag Primitive.quasiquote

def arity (t : Tree) : Nat := t.children.length

def child? (t : Tree) (i : Nat) : Option Tree := t.children[i]?

def childAt? (t : Tree) (i : Int) : Option Tree := i.toNat?.bind t.child?

def kindName : Tree → String
  | atom _ => "string"
  | node tag _ => tag.name

def errorMessage : Tree → String
  | node (.prim .error) (atom message :: _) => message
  | _ => "error"

def withChildren : Tree → List Tree → Tree
  | atom s, _ => atom s
  | node tag _, cs => node tag cs

def subtree? : Tree → List Nat → Option Tree
  | t, [] => some t
  | t, i :: path => (t.child? i).bind (subtree? · path)

/-- The truth convention of every condition: the empty label, `false` and `0` are false, and so is
every node. -/
def isTrue : Tree → Bool
  | atom s => s ≠ "" && s ≠ "false" && s ≠ "0"
  | node .. => false

mutual

def size : Tree → Nat
  | atom _ => 1
  | node _ cs => 1 + sizeList cs

def sizeList : List Tree → Nat
  | [] => 0
  | c :: cs => size c + sizeList cs

end

theorem size_pos (t : Tree) : 0 < t.size := by
  cases t <;> simp only [size] <;> omega

theorem size_lt_of_mem {t : Tree} {cs : List Tree} (h : t ∈ cs) : t.size ≤ sizeList cs := by
  induction cs with
  | nil => cases h
  | cons c cs ih =>
    simp only [sizeList]
    rcases List.mem_cons.1 h with rfl | h
    · omega
    · have := ih h
      omega

@[simp] theorem isTrue_truth (b : Bool) : (truth b).isTrue = b := by
  cases b <;> decide

end Tree

end Typesetter

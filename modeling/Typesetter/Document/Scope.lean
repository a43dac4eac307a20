import Typesetter.Document.Listing
import Typesetter.Tree.Basic
/-!
Arguments of macros. Each application binds its formal arguments in a frame; a look-up takes the
innermost frame that binds the name.
-/

namespace Typesetter

structure Binding where
  value : Tree
  path : Option (List Nat) := none
  deriving DecidableEq, Repr

abbrev ArgumentFrame := Listing Binding

namespace ArgumentFrame

def value? (f : ArgumentFrame) (name : String) : Option Tree := (f.get? name).map (·.value)

def path? (f : ArgumentFrame) (name : String) : Option (List Nat) :=
  (f.get? name).bind (·.path)

/-- A path that is known stays known. -/
def bind (f : ArgumentFrame) (name : String) (value : Tree) : ArgumentFrame :=
  f.insert name ⟨value, f.path? name⟩

def bindAt (f : ArgumentFrame) (name : String) (value : Tree) (path : List Nat) : ArgumentFrame :=
  f.insert name ⟨value, some path⟩

def contains (f : ArgumentFrame) (name : String) : Bool := (f.get? name).isSome

end ArgumentFrame

/-- The innermost frame first. -/
abbrev Scope := List ArgumentFrame

namespace Scope

/-- The value of a name, and how many frames lie below the one that binds it. -/
def lookup? : Scope → String → Option (Nat × Tree)
  | [], _ => none
  | f :: below, name =>
    match f.value? name with
    | some value => some (below.length, value)
    | none => lookup? below name

def value? (s : Scope) (name : String) : Option Tree := (s.lookup? name).map (·.2)

def sourcePath? (s : Scope) (name : String) : Option (List Nat) :=
  (s.find? (·.contains name)).bind (·.path? name)

def below (s : Scope) (level : Nat) : Scope := s.drop (s.length - level)

def above (s : Scope) (level : Nat) : Scope := s.take (s.length - level)

theorem above_append_below (s : Scope) (level : Nat) : s.above level ++ s.below level = s :=
  List.take_append_drop _ _

theorem lookup?_lt {s : Scope} {name : String} {level : Nat} {value : Tree}
    (h : s.lookup? name = some (level, value)) : level < s.length := by
  induction s with
  | nil => cases h
  | cons f below ih =>
    simp only [lookup?] at h
    cases hf : f.value? name with
    | some v =>
      simp only [hf, Option.some.injEq, Prod.mk.injEq] at h
      simp only [List.length_cons]
      omega
    | none =>
      simp only [hf] at h
      exact Nat.lt_succ_of_lt (ih h)

end Scope

end Typesetter

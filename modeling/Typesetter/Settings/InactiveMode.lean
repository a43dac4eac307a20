import Typesetter.Text.Blank
import Typesetter.Text.Numeral

namespace Typesetter

/-- What the source view does with a reference to the target inside its own expansion. -/
inductive RecursionPolicy where
  | recurse
  | once
  | error
  deriving DecidableEq, Repr

structure InactiveMode where
  isBlock : Bool
  policy : RecursionPolicy
  deriving DecidableEq, Repr

namespace InactiveMode

def all : List InactiveMode :=
  [⟨false, .recurse⟩, ⟨false, .once⟩, ⟨false, .error⟩,
    ⟨true, .recurse⟩, ⟨true, .once⟩, ⟨true, .error⟩]

instance : Inhabited InactiveMode := ⟨⟨false, .recurse⟩⟩

def layoutName (isBlock : Bool) : String := if isBlock then "block" else "inline"

def policyName : RecursionPolicy → String
  | .recurse => "recurse"
  | .once => "once"
  | .error => "error"

def name (m : InactiveMode) : String := layoutName m.isBlock ++ "-" ++ policyName m.policy

def code (m : InactiveMode) : Nat := all.idxOf m

def ofCode? (n : Nat) : Option InactiveMode := all[n]?

def ofExactName? (s : String) : Option InactiveMode := all.find? (·.name = s)

/-- A mode is given by its name, or by its code with blanks allowed around it. -/
def ofName? (s : String) : Option InactiveMode :=
  match Text.readCount? (Text.trim s.toList) with
  | some n => ofCode? n
  | none => ofExactName? s

def unknownMessage (s : String) : String := "unknown inactive mode: " ++ s

end InactiveMode

end Typesetter

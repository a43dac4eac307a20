import Typesetter.Evaluation.State
import Typesetter.Session.Defaults

namespace Typesetter.State

open Text Decimal

def fresh (dpi : Int) (mode : InactiveMode) : State := { derived := .fresh dpi mode }

def setInactiveMode (s : State) (mode : InactiveMode) : State :=
  { s with derived := { s.derived with defaultInactiveMode := mode } }.update "inactive-mode"

def openFrame (s : State) : State := { s with store := s.store.openFrame }

def closeFrame? (s : State) : Option State :=
  s.store.closeFrame?.map fun (names, store) => names.foldl update { s with store }

def beginVariable (s : State) (name : String) (value : Tree) : Option Tree × State :=
  (s.store.get? name, s.writeLoggedUpdate name value)

def scriptVariable : String := "math-level"

def beginScript (s : State) : Option Tree × State :=
  s.beginVariable scriptVariable (.atom (toString (wrap (s.derived.indexLevel + 1))))

def isBalanced (s : State) : Bool := s.store.depth = 0 && s.scope.isEmpty

def writeStandard (s : State) (order : SystemVariable.Order) (mode : InactiveMode) : State :=
  ((standardVariables mode).foldl (fun s (name, value) => s.write name value) s).updateAll order

def replaceAll (s : State) (order : SystemVariable.Order) (vars : Listing Tree) : State :=
  { s with store := s.store.replace vars }.updateAll order

def patch (s : State) (vars : Listing Tree) : State :=
  vars.foldl (fun s (name, value) => s.writeUpdate name value) s

def patchLogged (s : State) (vars : Listing Tree) : State :=
  vars.foldl (fun s (name, value) => s.writeLoggedUpdate name value) s

def hasErrors (s : State) : Bool := s.diagnostics.any (·.isError)

def takeDiagnostics (s : State) : Array Diagnostic × State :=
  (s.diagnostics, { s with diagnostics := #[] })

def units (s : State) : Units := s.derived.units

def label (s : State) (name : String) : String := (s.store.read name).label?.getD ""

def getBool (s : State) (name : String) : Bool := (s.store.read name).isTrue

/-- A number with a fraction is cut; what is no number is zero. -/
def getInteger (s : State) (name : String) : Int :=
  let text := trim (s.label name).toList
  match readInteger? text with
  | some n => n
  | none => ((readFloat? text).map truncate).getD 0

def getFloat (s : State) (name : String) : Float :=
  (readFloat? (trim (s.label name).toList)).getD 0.0

def getString (s : State) (name : String) : String := s.label name

def getLength (s : State) (name : String) : Int :=
  (s.units.labelLength? (s.store.read name)).getD 0

def getSpace (s : State) (name : String) : Space :=
  ((s.store.read name).label?.bind fun text => s.units.space? text.toList).getD ⟨0, 0, 0⟩

def pageGeometry (s : State) : PageGeometry := .ofVariables s.units s.store.read

end Typesetter.State

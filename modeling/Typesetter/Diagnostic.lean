import Typesetter.Fault

namespace Typesetter

inductive Severity where
  | info
  | warning
  | error
  deriving DecidableEq, Repr

namespace Severity

def name : Severity → String
  | info => "info"
  | warning => "warning"
  | error => "error"

def colorCode : Severity → String
  | info => "\x1b[36m"
  | warning => "\x1b[33m"
  | error => "\x1b[31m"

end Severity

structure Diagnostic where
  severity : Severity
  message : String
  location : Option String := none
  deriving DecidableEq, Repr

namespace Diagnostic

def isError (d : Diagnostic) : Bool := d.severity = .error

def text (d : Diagnostic) : String :=
  let place := match d.location with
    | some name => name ++ ": "
    | none => ""
  "[" ++ d.severity.name ++ "] " ++ place ++ d.message

end Diagnostic

/-- A fault that carries an error tree was reported where it arose. -/
def Fault.diagnostic? (f : Fault) : Option Diagnostic :=
  if f.isPropagated then none else some ⟨.error, f.cause.message, f.context⟩

end Typesetter

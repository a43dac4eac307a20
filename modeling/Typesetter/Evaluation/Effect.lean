import Typesetter.Evaluation.State
/-!
The effects of evaluation. A computation may end with a fault, which keeps what was changed before;
it may also halt without an outcome.
-/

namespace Typesetter

inductive Halt where
  | outOfFuel
  /-- A file is needed about which nothing has been found out yet. -/
  | unknownFile (path : String)
  deriving DecidableEq, Repr

abbrev Execution := ReaderT World (StateT State (Except Halt))

abbrev Evaluation := ExceptT Fault Execution

namespace Execution

variable {α : Type}

def run (m : Execution α) (w : World) (s : State) : Except Halt (α × State) := m w s

def halt (h : Halt) : Execution α := throw h

def readVariable (name : String) : Execution Tree := return (← get).store.read name

def providesVariable (name : String) : Execution Bool := return (← get).store.provides name

def lookupArgument? (name : String) : Execution (Option (Nat × Tree)) :=
  return (← get).scope.lookup? name

def units : Execution Units := return (← get).derived.units

def settings : Execution Settings := return (← read).settings

def depth : Execution Nat := return (← get).depth

def report (d : Diagnostic) : Execution Unit := modify (·.report d)

def warn (message location : String) : Execution Unit := report ⟨.warning, message, some location⟩

def assign (name : String) (value : Tree) : Execution Unit := modify (·.assign name value)

def begin (name : String) (value : Tree) : Execution (Option Tree) := do
  let old := (← get).store.get? name
  modify (·.writeLoggedUpdate name value)
  return old

def putBack (name : String) (old : Option Tree) : Execution Unit := modify (·.putBack name old)

def consult (question : FileSystem → String → Option α) (path : String) : Execution α := do
  match question (← read).files path with
  | some answer => return answer
  | none => halt (.unknownFile path)

def fileExists (path : String) : Execution Bool := consult FileSystem.hasFile path

def fileText (path : String) : Execution (Except FileError String) := consult FileSystem.text path

def absorbing (m : Evaluation Tree) : Execution Tree := do
  match ← m.run with
  | .ok value => return value
  | .error fault =>
    modify (·.absorb fault)
    return fault.toTree

end Execution

namespace Evaluation

variable {α : Type}

def fault (c : Cause) : Evaluation α := throw ⟨c, none⟩

def ofResult (e : Except Fault α) : Evaluation α := MonadExcept.ofExcept e

def inContext (name : String) (m : Evaluation α) : Evaluation α :=
  ExceptT.adapt (·.inContext name) m

def withFrame (frame : ArgumentFrame) (m : Evaluation α) : Evaluation α :=
  ExceptT.mk do
    modify (·.enter frame)
    let result ← m.run
    modify (·.leave)
    return result

def below (level : Nat) (m : Evaluation α) : Evaluation α :=
  ExceptT.mk do
    let suspended := (← get).scope.above level
    modify (·.suspend level)
    let result ← m.run
    modify (·.resume suspended)
    return result

def deeper (m : Evaluation α) : Evaluation α :=
  ExceptT.mk do
    modify (·.descend)
    let result ← m.run
    modify (·.ascend)
    return result

def binding (name : String) (value : Tree) (m : Evaluation α) : Evaluation α :=
  ExceptT.mk do
    let old ← Execution.begin name value
    let result ← m.run
    Execution.putBack name old
    return result

end Evaluation

end Typesetter

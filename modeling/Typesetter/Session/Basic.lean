import Typesetter.Evaluation.Position
import Typesetter.Session.Environment

namespace Typesetter

structure Session where
  world : World
  state : State

namespace Session

variable {α : Type}

def start (dpi : Int) (world : World) : Session :=
  { world, state := .fresh dpi world.settings.inactiveMode }

/-- More than any document that comes to an end needs. -/
def fuel : Nat := 1000000000

def run (s : Session) (m : Execution α) : Except Halt (α × Session) :=
  (m.run s.world s.state).map fun (result, state) => (result, { s with state })

def withSettings (s : Session) (settings : Settings) : Session :=
  { world := { s.world with settings }, state := s.state.setInactiveMode settings.inactiveMode }

def writeStandard (s : Session) : Session :=
  { s with state := s.state.writeStandard s.world.variableOrder s.world.settings.inactiveMode }

def exec (t : Tree) : Execution Tree := Typesetter.exec fuel t

def execString (t : Tree) : Execution (Except Fault String) := Typesetter.execString fuel t

def assign (name : String) (t : Tree) : Execution Tree := Typesetter.assign fuel name t

def execUntil (t : Tree) (path : List Nat) : Execution Unit := Typesetter.execUntil fuel t path

def execUntilVariable (t : Tree) (path : List Nat) (watch : Position.Watch) : Execution Bool :=
  Typesetter.execUntilVariable fuel t path watch

def viewInactive (t target : Tree) (mode : Option InactiveMode) : Execution Tree := do
  let w ← read
  let s ← get
  let (view, s') := s.viewInactive w (mode.getD s.derived.inactiveMode) t target
  set s'
  return view

def expand (s : Session) (t : Tree) : Tree :=
  Expansion.expand s.state.store s.world.registry t

def depends (s : Session) (t : Tree) (name : String) (level : Nat) : Bool :=
  Dependency.depends s.state.store t name level

end Session

end Typesetter

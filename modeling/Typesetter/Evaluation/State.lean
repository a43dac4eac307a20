import Typesetter.Derived.Page
import Typesetter.Derived.State
import Typesetter.Diagnostic
import Typesetter.Document.References
import Typesetter.Document.Registry
import Typesetter.Document.Scope
import Typesetter.Document.Phrasebook
import Typesetter.Files.System
import Typesetter.Macro.SourceView
import Typesetter.Operation.Date
import Typesetter.Settings.Basic

namespace Typesetter

structure World where
  base : String
  settings : Settings := {}
  registry : Registry := {}
  references : References := {}
  files : FileSystem := .none
  phrasebook : Phrasebook := .none
  /-- The date in a format, unless the format is bad. -/
  today : String → Option String := Date.format? { year := 1970, month := 1, day := 1 }
  variableOrder : SystemVariable.Order := .table

structure State where
  store : Store := {}
  scope : Scope := []
  depth : Nat := 0
  derived : Derived
  diagnostics : Array Diagnostic := #[]
  updates : Array (String × Tree) := #[]

namespace State

def report (s : State) (d : Diagnostic) : State :=
  { s with diagnostics := s.diagnostics.push d }

def absorb (s : State) (f : Fault) : State :=
  match f.diagnostic? with
  | some d => s.report d
  | none => s

def update (s : State) (name : String) : State :=
  { s with
    derived := s.derived.update name s.store.read
    updates := s.updates.push (name, s.store.read name) }

def updateAll (s : State) (order : SystemVariable.Order) : State :=
  { s with derived := s.derived.updateAll order s.store.read }

def write (s : State) (name : String) (value : Tree) : State :=
  { s with store := s.store.write name value }

def writeLogged (s : State) (name : String) (value : Tree) : State :=
  { s with store := s.store.writeLogged name value }

def writeUpdate (s : State) (name : String) (value : Tree) : State :=
  (s.write name value).update name

def writeLoggedUpdate (s : State) (name : String) (value : Tree) : State :=
  (s.writeLogged name value).update name

/-- A value that is there already is not written again. -/
def assign (s : State) (name : String) (value : Tree) : State :=
  if s.store.get? name = some value then s else s.writeLoggedUpdate name value

def putBack (s : State) (name : String) (old : Option Tree) : State :=
  { s with store := s.store.put name old }.update name

def enter (s : State) (frame : ArgumentFrame) : State :=
  { s with scope := frame :: s.scope, depth := s.depth + 1 }

def leave (s : State) : State := { s with scope := s.scope.tail, depth := s.depth - 1 }

def suspend (s : State) (level : Nat) : State := { s with scope := s.scope.below level }

def resume (s : State) (frames : Scope) : State := { s with scope := frames ++ s.scope }

def descend (s : State) : State := { s with depth := s.depth + 1 }

def ascend (s : State) : State := { s with depth := s.depth - 1 }

def sourceView (s : State) (w : World) (mode : InactiveMode) (target : Tree) :
    SourceView.Setting :=
  { target := SourceView.Target.ofTree? target
    policy := mode.policy
    maxDepth := w.settings.maxViewDepth
    special := s.derived.srcSpecial
    compact := s.derived.srcCompact
    close := s.derived.srcClose
    scope := s.scope
    store := s.store
    registry := w.registry }

def viewInactive (s : State) (w : World) (mode : InactiveMode) (t target : Tree) :
    Tree × State :=
  let (view, diagnostics) :=
    (SourceView.view (s.sourceView w mode target) t ⟨mode.isBlock, true⟩).run s.diagnostics
  (view, { s with diagnostics })

theorem absorb_propagated (s : State) {f : Fault} {t : Tree} (h : f.cause = .propagated t) :
    s.absorb f = s := by
  simp only [absorb, Fault.diagnostic?, Fault.isPropagated, h, if_true]

theorem absorb_fresh (s : State) {f : Fault} (h : ∀ t, f.cause ≠ .propagated t) :
    s.absorb f = s.report ⟨.error, f.cause.message, f.context⟩ := by
  simp [absorb, Fault.diagnostic?, Fault.isPropagated_fresh h]

theorem store_absorb (s : State) (f : Fault) : (s.absorb f).store = s.store := by
  unfold absorb
  split <;> rfl

theorem diagnostics_assign (s : State) (name : String) (value : Tree) :
    (s.assign name value).diagnostics = s.diagnostics := by
  unfold assign
  split <;> rfl

theorem depth_assign (s : State) (name : String) (value : Tree) : (s.assign name value).depth = s.depth := by
  unfold assign
  split <;> rfl

@[simp] theorem frames_putBack (s : State) (name : String) (old : Option Tree) :
    (s.putBack name old).store.frames = s.store.frames := s.store.frames_put name old

@[simp] theorem derived_updateAll (s : State) (order : SystemVariable.Order) :
    (s.updateAll order).derived = s.derived.updateAll order s.store.read := by
  simp only [updateAll]

@[simp] theorem store_updateAll (s : State) (order : SystemVariable.Order) :
    (s.updateAll order).store = s.store := by
  simp only [updateAll]

@[simp] theorem updates_updateAll (s : State) (order : SystemVariable.Order) :
    (s.updateAll order).updates = s.updates := by
  simp only [updateAll]

@[simp] theorem store_foldl_update (names : List String) (s : State) :
    (names.foldl update s).store = s.store := by
  induction names generalizing s with
  | nil => rfl
  | cons n names ih => exact ih (s.update n)

theorem updates_foldl_update (names : List String) (s : State) : (names.foldl update s).updates =
    s.updates ++ (names.map fun n => (n, s.store.read n)).toArray := by
  induction names generalizing s with
  | nil => simp
  | cons n names ih =>
    rw [List.foldl_cons, ih]
    simp [update]

end State

end Typesetter

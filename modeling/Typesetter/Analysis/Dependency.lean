import Typesetter.Derived.Variable
import Typesetter.Document.Store
/-!
Which variables an evaluation could read. The answer errs on the side of reading: names that are
computed, and files that are included, may read everything.
-/

namespace Typesetter.Dependency

def sourceViewVariables : List String :=
  ["inactive-mode", "src-compact", "src-close", "src-special"]

def readsUnits : Primitive → Bool
  | .plus | .minus | .times | .ratio
  | .equal | .unequal | .less | .lesseq | .greater | .greatereq => true
  | _ => false

def isUnitVariable (name : String) : Bool :=
  match SystemVariable.ofName? name with
  | some v => v.affectsUnits || v ∈ SystemVariable.unitDependent
  | none => false

def readsItself (macroReads : String → Bool) (name : String) : Primitive → List Tree → Bool
  | .value, .atom x :: _ | .arg, .atom x :: _ => x = name
  | .value, .node .. :: _ | .arg, .node .. :: _ => true
  | .compound, .atom m :: _ => macroReads m
  | .compound, _ => true
  | .provides, .atom x :: _ | .evalArgs, .atom x :: _ => x = name
  | .provides, .node .. :: _ | .evalArgs, .node .. :: _ => true
  | .viewInactive, cs => name ∈ sourceViewVariables || cs[1]? = some (.atom name)
  | .includeFile, _ => true
  | .translate, _ | .date, _ => name = "language"
  | p, _ => readsUnits p && isUnitVariable name

def onlyNames : Primitive → Bool
  | .provides | .evalArgs => true
  | _ => false

mutual

def reads (macroReads : String → Bool) (name : String) : Tree → Bool
  | .atom _ => false
  | .node (.user m) cs => macroReads m || readsAny macroReads name cs
  | .node (.prim p) cs =>
    readsItself macroReads name p cs || (!onlyNames p && readsAny macroReads name cs)

def readsAny (macroReads : String → Bool) (name : String) : List Tree → Bool
  | [] => false
  | c :: cs => reads macroReads name c || readsAny macroReads name cs

end

/-- Whether applying a macro reads a name: that of the macro itself, or, within some levels of
application, whatever its body reads. -/
def macroReads (store : Store) (name : String) : Nat → String → Bool
  | 0, m => m = name
  | level + 1, m =>
    m = name || ((store.read m).isMacroDef &&
      (store.read m).children.getLast?.any (reads (macroReads store name level) name))

def depends (store : Store) (t : Tree) (name : String) (level : Nat) : Bool :=
  reads (macroReads store name level) name t

end Typesetter.Dependency

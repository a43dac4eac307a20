import Typesetter.Proofs.Analysis.Coverage
import Typesetter.Proofs.Indexing.Basic

namespace Typesetter.Indexed

open Access

def either (a b : Access Bool) : Access Bool := do
  if ← a then return true else b

@[simp] theorem either_ok (a b : Bool) : either (.ok a) (.ok b) = .ok (a || b) := by
  cases a <;> rfl

section Reads

variable (macroReads : String → Access Bool) (name : String)

mutual

def reads (t : Tree) : Access Bool :=
  match t with
  | .atom _ => return false
  | .node (.user m) cs => either (macroReads m) (readsAny cs)
  | .node (.prim .compound) cs =>
    match cs.head?.bind Tree.label? with
    | none => return true
    | some m =>
      match _h : onward cs 1 with
      | .error e => .error e
      | .ok args => either (macroReads m) (readsAny args)
  | .node (.prim p) cs =>
    either (return Dependency.readsItself (fun _ => false) name p cs)
      (if Dependency.onlyNames p then return false else readsAny cs)
termination_by 2 * t.size
decreasing_by
  · simp only [Tree.size]
    omega
  · have := sizeList_onward ‹_›
    simp only [Tree.size]
    omega
  · simp only [Tree.size]
    omega

def readsAny (ts : List Tree) : Access Bool :=
  match ts with
  | [] => return false
  | c :: cs => either (reads c) (readsAny cs)
termination_by 2 * Tree.sizeList ts + 1
decreasing_by
  · simp only [Tree.sizeList]
    omega
  · have := c.size_pos
    simp only [Tree.sizeList]
    omega

end

theorem reads_named (m : String) (args : List Tree) :
    reads macroReads name (.node Primitive.compound (.atom m :: args)) =
      either (macroReads m) (readsAny macroReads name args) := by
  rw [reads]
  simp only [List.head?_cons, Option.bind_some, Tree.label?]
  split
  · next h => cases h.symm.trans (onward_one _ _)
  · next h =>
    cases h.symm.trans (onward_one _ _)
    rfl

end Reads

def macroReads (store : Store) (name : String) : Nat → String → Access Bool
  | 0, m => return m = name
  | level + 1, m =>
    either (return m = name) <|
      if (store.read m).isMacroDef then
        match (store.read m).children.getLast? with
        | some body => reads (macroReads store name level) name body
        | none => return false
      else return false

def depends (store : Store) (t : Tree) (name : String) (level : Nat) : Access Bool :=
  reads (macroReads store name level) name t

section

variable {macroReads : String → Bool} {m' : String → Access Bool} {name : String}

mutual

theorem reads_eq (h : ∀ m, m' m = .ok (macroReads m)) (t : Tree) :
    reads m' name t = .ok (Dependency.reads macroReads name t) := by
  match t with
  | .atom s => simp only [reads, Dependency.reads]; rfl
  | .node (.user m) cs =>
    rw [reads, Dependency.reads, h, readsAny_eq h, either_ok]
  | .node (.prim p) cs =>
    by_cases hp : p = .compound
    · subst hp
      match cs with
      | [] => rw [reads]; rfl
      | .node .. :: _ => rw [reads]; rfl
      | .atom m :: args => rw [reads_named, h, readsAny_eq h, either_ok]; rfl
    · rw [reads, Dependency.reads, Dependency.readsItself_congr hp _ macroReads, readsAny_eq h]
      · cases Dependency.onlyNames p <;> exact either_ok _ _
      · exact hp

theorem readsAny_eq (h : ∀ m, m' m = .ok (macroReads m)) (ts : List Tree) :
    readsAny m' name ts = .ok (Dependency.readsAny macroReads name ts) := by
  match ts with
  | [] => simp only [readsAny, Dependency.readsAny]; rfl
  | c :: cs => rw [readsAny, Dependency.readsAny, reads_eq h, readsAny_eq h, either_ok]

end

end

theorem macroReads_eq (store : Store) (name : String) (level : Nat) (m : String) :
    macroReads store name level m = .ok (Dependency.macroReads store name level m) := by
  induction level generalizing m with
  | zero => rfl
  | succ level ih =>
    simp only [macroReads, Dependency.macroReads, reads_eq ih]
    cases (store.read m).isMacroDef with
    | false => exact either_ok _ _
    | true => cases (store.read m).children.getLast? <;> exact either_ok _ _

theorem depends_eq (store : Store) (t : Tree) (name : String) (level : Nat) :
    depends store t name level = .ok (Dependency.depends store t name level) :=
  reads_eq (macroReads_eq store name level) t

end Typesetter.Indexed

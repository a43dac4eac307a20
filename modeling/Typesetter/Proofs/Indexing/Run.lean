import Typesetter.Evaluation.Position
import Typesetter.Proofs.Indexing.Dependency
import Typesetter.Proofs.Indexing.Rules

namespace Typesetter.Indexed

open Access Execution

section Definitions

variable (crash : OutOfRange → Halt)

def eval : Nat → Evaluator
  | 0, _ => ExceptT.lift (halt .outOfFuel)
  | fuel + 1, t => step crash (eval fuel) (eval fuel) t

def exec (fuel : Nat) (t : Tree) : Execution Tree := Rule.exec (eval crash fuel) t

variable (eval : Evaluator) (watch : Option Position.Watch)

def readsWatched (s : State) (t : Tree) : Access Bool :=
  match watch with
  | none => return false
  | some w => depends s.store t w.name w.level

def passBy : List Tree → Execution Bool
  | [] => return false
  | t :: ts => do
    let here ← reach crash (readsWatched watch (← get) t)
    discard (Rule.exec eval t)
    return (← passBy ts) || here

def valueReads (s : State) (pair : List Tree) : Access Bool :=
  match watch with
  | none => return false
  | some w => do depends s.store (← item pair 1) w.name w.level

def bind : List (List Tree) → Execution Bool
  | [] => return false
  | pair :: rest => do
    let here ← reach crash (valueReads watch (← get) pair)
    let isWatched ← match ← Rule.execString eval (← reach crash (item pair 0)) with
      | .ok name => do
        let v ← Rule.exec eval (← reach crash (item pair 1))
        modify (·.writeLoggedUpdate name v)
        pure (watch.any (·.name = name))
      | .error _ => pure false
    return (← bind rest) || (here || isWatched)

def stage (t : Tree) (index : Nat) : Execution Bool :=
  match t with
  | .node (.prim .document) cs | .node (.prim .concat) cs => do
    passBy crash eval watch (← reach crash (upTo cs index))
  | .node (.prim .withVars) cs => do
    if index + 1 = cs.length then bind crash eval watch (wholePieces (← reach crash (upToLast cs))).1
    else return false
  | .node (.user name) _ => do
    match watch with
    | none => return false
    | some w => reach crash (macroReads (← get).store w.name w.level name)
  | _ => return false

def along : Tree → List Nat → Execution Bool
  | _, [] => return false
  | t, index :: path =>
    match t.child? index with
    | none => return false
    | some c => do
      let here ← stage crash eval watch t index
      return (← along c path) || here

end Definitions

def execUntil (crash : OutOfRange → Halt) (fuel : Nat) (t : Tree) (path : List Nat) : Execution Unit :=
  discard (along crash (eval crash fuel) none t path)

def execUntilVariable (crash : OutOfRange → Halt) (fuel : Nat) (t : Tree) (path : List Nat)
    (watch : Position.Watch) : Execution Bool := do
  let before := (← get).store.get? watch.name
  let involved ← along crash (eval crash fuel) (some watch) t path
  return involved || (← get).store.get? watch.name ≠ before

theorem eval_eq (crash : OutOfRange → Halt) (fuel : Nat) : eval crash fuel = Typesetter.eval fuel := by
  induction fuel with
  | zero => rfl
  | succ fuel ih =>
    funext t
    rw [eval, Typesetter.eval, ih, step_eq]

section

variable {crash : OutOfRange → Halt} {eval : Evaluator} {watch : Option Position.Watch}

theorem readsWatched_eq (s : State) (t : Tree) :
    readsWatched watch s t = .ok (Position.readsWatched watch s t) := by
  cases watch with
  | none => rfl
  | some w => exact depends_eq s.store t w.name w.level

theorem passBy_eq (ts : List Tree) : passBy crash eval watch ts = Position.passBy eval watch ts := by
  induction ts with
  | nil => rfl
  | cons t ts ih => simp only [passBy, Position.passBy, readsWatched_eq, reach_ok, pure_bind, ih]

theorem valueReads_eq (s : State) (x v : Tree) :
    valueReads watch s [x, v] = .ok (Position.readsWatched watch s v) := by
  cases watch with
  | none => rfl
  | some w => exact depends_eq s.store v w.name w.level

theorem bind_eq (bs : List (Tree × Tree)) :
    bind crash eval watch (bs.map fun b => [b.1, b.2]) = Position.bind eval watch bs := by
  induction bs with
  | nil => rfl
  | cons b bs ih =>
    rw [List.map_cons, bind, Position.bind]
    refine bind_congr fun s => ?_
    rw [valueReads_eq, reach_ok, pure_bind, item_zero, reach_ok, pure_bind, ih]
    refine bind_congr fun name => ?_
    cases name <;> rfl

theorem lt_of_child? {tag : Tag} {cs : List Tree} {c : Tree} {index : Nat}
    (h : (Tree.node tag cs).child? index = some c) : index < cs.length :=
  (List.getElem?_eq_some_iff.1 h).1

theorem stage_eq {t c : Tree} {index : Nat} (h : t.child? index = some c) :
    stage crash eval watch t index = Position.stage eval watch t index := by
  have hpass (cs : List Tree) (hlt : index < cs.length) :
      (do passBy crash eval watch (← reach crash (upTo cs index))) =
        Position.passBy eval watch (cs.take index) := by
    rw [upTo_eq_ok (Nat.le_of_lt hlt), reach_ok, pure_bind, passBy_eq]
  unfold stage
  split
  · next cs => exact hpass cs (lt_of_child? h)
  · next cs => exact hpass cs (lt_of_child? h)
  · next cs =>
    have hne : cs ≠ [] := List.ne_nil_of_length_pos (Nat.zero_lt_of_lt (lt_of_child? h))
    simp only [Position.stage, upToLast_eq_ok hne, reach_ok, pure_bind, wholePieces_eq, bind_eq]
  · cases watch with
    | none => rfl
    | some w =>
      simp only [Position.stage, macroReads_eq, reach_ok]
      rfl
  · simp only [Position.stage]

theorem along_eq (t : Tree) (path : List Nat) :
    along crash eval watch t path = Position.along eval watch t path := by
  induction path generalizing t with
  | nil => rfl
  | cons index path ih =>
    unfold along Position.along
    cases h : t.child? index with
    | none => rfl
    | some c => simp only [stage_eq h, ih]

end

/-- Whatever an access out of range led to would show on the left, and the right side knows of none. -/
theorem accesses_inRange (crash : OutOfRange → Halt) :
    (∀ fuel t, exec crash fuel t = Typesetter.exec fuel t) ∧
    (∀ store registry t, expand store registry t = .ok (Expansion.expand store registry t)) ∧
    (∀ store t name level, depends store t name level = .ok (Dependency.depends store t name level)) ∧
    (∀ s w mode t target, viewInactive s w mode t target = .ok (s.viewInactive w mode t target)) ∧
    (∀ fuel t path, execUntil crash fuel t path = Typesetter.execUntil fuel t path) ∧
    (∀ fuel t path watch,
      execUntilVariable crash fuel t path watch = Typesetter.execUntilVariable fuel t path watch) := by
  refine ⟨fun fuel t => ?_, expand_eq, depends_eq, viewInactive_eq, fun fuel t path => ?_,
    fun fuel t path watch => ?_⟩
  · rw [exec, eval_eq]
    rfl
  · rw [execUntil, eval_eq, along_eq]
    rfl
  · rw [execUntilVariable, eval_eq, along_eq]
    rfl

end Typesetter.Indexed

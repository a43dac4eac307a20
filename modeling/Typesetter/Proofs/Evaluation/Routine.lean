import Typesetter.Evaluation.Run
/-!
Routines: computations built from the effects of evaluation. A routine comes as a family, so that
one predicate serves the evaluation with every amount of fuel and the comparison of two evaluations.
-/

namespace Typesetter

open Execution Evaluation

structure FileSystem.IsKnown (files : FileSystem) : Prop where
  hasFile (path : String) : (files.hasFile path).isSome
  text (path : String) : (files.text path).isSome

structure Place where
  limit : Nat
  depth : Nat
  level : Nat
  deriving DecidableEq, Repr

namespace Place

def entered (p : Place) : Place := { p with depth := p.depth + 1, level := p.level + 1 }

def below (p : Place) (level : Nat) : Place := { p with level }

def descended (p : Place) : Place := { p with depth := p.depth + 1 }

structure Holds (p : Place) (w : World) (s : State) : Prop where
  limit : w.settings.maxRecursionDepth = p.limit
  depth : s.depth = p.depth
  level : s.scope.length = p.level

def ofState (w : World) (s : State) : Place := ⟨w.settings.maxRecursionDepth, s.depth, s.scope.length⟩

theorem holds_ofState (w : World) (s : State) : (ofState w s).Holds w s := ⟨rfl, rfl, rfl⟩

end Place

inductive Change (s : State) : State → Prop
  | none : Change s s
  | report (ds : Array Diagnostic) : Change s { s with diagnostics := s.diagnostics ++ ds }
  | write (name : String) (value : Tree) : Change s (s.writeLoggedUpdate name value)

inductive Bracket (p : Place) : Place → (State → State) → (State → State → State) → Prop
  | binding (name : String) (value : Tree) :
      Bracket p p (·.writeLoggedUpdate name value) fun s s' => s'.putBack name (s.store.get? name)
  | frame (f : ArgumentFrame) : p.depth < p.limit →
      Bracket p p.entered (·.enter f) fun _ s' => s'.leave
  | below {level : Nat} : level < p.level →
      Bracket p (p.below level) (·.suspend level) fun s s' => s'.resume (s.scope.above level)
  | deeper : p.depth < p.limit → Bracket p p.descended (·.descend) fun _ s' => s'.ascend

variable {ι α β : Type}

/-- Families of computations that are built from effects and from evaluations of trees. -/
inductive Routine (eval unguarded : ι → Evaluator) (Calls : Place → Tree → Prop) :
    Place → {α : Type} → (ι → Execution α) → Prop
  | pure {p : Place} {α : Type} (a : α) : Routine eval unguarded Calls p fun _ => pure a
  | bind {p : Place} {α β : Type} {m : ι → Execution α} {f : ι → α → Execution β} :
      Routine eval unguarded Calls p m → (∀ a, Routine eval unguarded Calls p fun i => f i a) →
      Routine eval unguarded Calls p fun i => m i >>= f i
  | act {p : Place} {α β : Type} {m : Execution α} {g : World → State → α × State}
      {f : ι → α → Execution β} : (∀ w s, m w s = .ok (g w s)) → (∀ w s, Change s (g w s).2) →
      (∀ w s, p.Holds w s → Routine eval unguarded Calls p fun i => f i (g w s).1) →
      Routine eval unguarded Calls p fun i => m >>= f i
  | consult {p : Place} {α : Type} {question : FileSystem → String → Option α} (path : String) :
      (∀ files : FileSystem, files.IsKnown → (question files path).isSome) →
      Routine eval unguarded Calls p fun _ => consult question path
  | bracket {p q : Place} {α : Type} {before : State → State} {after : State → State → State}
      {m n : ι → Execution α} : Bracket p q before after → Routine eval unguarded Calls q m →
      (∀ i w s, n i w s = (m i w (before s)).map fun r => (r.1, after s r.2)) →
      Routine eval unguarded Calls p n
  | call {p : Place} {t : Tree} : Calls p t → Routine eval unguarded Calls p fun i => (eval i t).run
  | unguarded {p : Place} (t : Tree) : Routine eval unguarded Calls p fun i => (unguarded i t).run

def Procedure (eval unguarded : ι → Evaluator) (Calls : Place → Tree → Prop) (p : Place)
    (m : ι → Evaluation α) : Prop :=
  Routine eval unguarded Calls p fun i => (m i).run

variable {eval unguarded : ι → Evaluator} {Calls : Place → Tree → Prop} {p : Place}

namespace Routine

theorem change {m : Execution α} {g : World → State → α × State} (hm : ∀ w s, m w s = .ok (g w s))
    (hg : ∀ w s, Change s (g w s).2) : Routine eval unguarded Calls p fun _ => m := by
  have h : Routine eval unguarded Calls p fun _ => m >>= Pure.pure :=
    .act hm hg fun w s _ => .pure (g w s).1
  simpa only [bind_pure] using h

end Routine

theorem run_lift (m : Execution α) :
    (liftM m : Evaluation α).run = m >>= fun a => pure (Except.ok a : Except Fault α) := by
  rw [ExceptT.run_liftM, map_eq_pure_bind]

theorem run_inContext (name : String) (m : Evaluation α) : (inContext name m).run =
    m.run >>= fun r => pure (r.mapError (·.inContext name)) :=
  map_eq_pure_bind (Except.mapError fun f : Fault => f.inContext name) m.run

theorem inContext_apply (name : String) (m : Evaluation α) (w : World) (s : State) :
    (inContext name m).run w s =
      (m.run w s).map fun r => (r.1.mapError (·.inContext name), r.2) := by
  change Except.bind (m.run w s) _ = _
  cases m.run w s <;> rfl

theorem below_apply (level : Nat) (m : Evaluation α) (w : World) (s : State) :
    (Evaluation.below level m).run w s =
      (m.run w (s.suspend level)).map fun r => (r.1, r.2.resume (s.scope.above level)) := by
  change Except.bind (m.run w (s.suspend level)) _ = _
  cases m.run w (s.suspend level) <;> rfl

theorem withFrame_apply (f : ArgumentFrame) (m : Evaluation α) (w : World) (s : State) :
    (withFrame f m).run w s = (m.run w (s.enter f)).map fun r => (r.1, r.2.leave) := by
  change Except.bind (m.run w (s.enter f)) _ = _
  cases m.run w (s.enter f) <;> rfl

theorem deeper_apply (m : Evaluation α) (w : World) (s : State) :
    (deeper m).run w s = (m.run w s.descend).map fun r => (r.1, r.2.ascend) := by
  change Except.bind (m.run w s.descend) _ = _
  cases m.run w s.descend <;> rfl

theorem binding_apply (x : String) (v : Tree) (m : Evaluation α) (w : World) (s : State) :
    (binding x v m).run w s =
      (m.run w (s.writeLoggedUpdate x v)).map fun r => (r.1, r.2.putBack x (s.store.get? x)) := by
  change Except.bind (m.run w (s.writeLoggedUpdate x v)) _ = _
  cases m.run w (s.writeLoggedUpdate x v) <;> rfl

namespace Procedure

theorem success (a : α) : Procedure eval unguarded Calls p fun _ => pure a :=
  Routine.pure (Except.ok a : Except Fault α)

theorem fault (c : Cause) :
    Procedure eval unguarded Calls p fun _ => (Evaluation.fault c : Evaluation α) :=
  Routine.pure (Except.error ⟨c, none⟩ : Except Fault α)

theorem ofResult (e : Except Fault α) :
    Procedure eval unguarded Calls p fun _ => Evaluation.ofResult e := by
  cases e with
  | error f => exact Routine.pure (Except.error f : Except Fault α)
  | ok a => exact Routine.pure (Except.ok a : Except Fault α)

theorem bind {m : ι → Evaluation α} {f : ι → α → Evaluation β}
    (hm : Procedure eval unguarded Calls p m)
    (hf : ∀ a, Procedure eval unguarded Calls p fun i => f i a) :
    Procedure eval unguarded Calls p fun i => m i >>= f i := by
  refine Routine.bind (f := fun i => ExceptT.bindCont (f i)) hm fun r => ?_
  cases r with
  | error e => exact Routine.pure (Except.error e : Except Fault β)
  | ok a => exact hf a

theorem lift {m : ι → Execution α} (hm : Routine eval unguarded Calls p m) :
    Procedure eval unguarded Calls p fun i => (liftM (m i) : Evaluation α) := by
  simp only [Procedure, run_lift]
  exact .bind hm fun a => .pure _

theorem observe {o : Evaluation α} {g : World → State → α} {f : ι → α → Evaluation β}
    (ho : ∀ w s, o.run w s = .ok (.ok (g w s), s))
    (hf : ∀ w s, p.Holds w s → Procedure eval unguarded Calls p fun i => f i (g w s)) :
    Procedure eval unguarded Calls p fun i => o >>= f i :=
  Routine.act (g := fun w s => (Except.ok (g w s), s)) (f := fun i => ExceptT.bindCont (f i)) ho
    (fun _ _ => .none) fun w s hs => hf w s hs

theorem call {t : Tree} (h : Calls p t) : Procedure eval unguarded Calls p fun i => eval i t :=
  Routine.call h

end Procedure

end Typesetter

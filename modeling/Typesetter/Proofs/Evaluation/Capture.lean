import Typesetter.Proofs.Evaluation.Balance
/-!
Delayed arguments. What an argument puts off is evaluated where it was written: with the frames below the
one that binds it, whatever that frame and the frames on top of it bind.
-/

namespace Typesetter

open Execution Evaluation

namespace Scope

variable {above below : Scope} {frame : ArgumentFrame} {x : String} {v : Tree}

theorem lookup?_innermost (habove : ∀ g ∈ above, g.value? x = none) (hx : frame.value? x = some v) :
    lookup? (above ++ frame :: below) x = some (below.length, v) := by
  induction above with
  | nil => simp only [List.nil_append, lookup?, hx]
  | cons g above ih =>
    obtain ⟨hg, habove⟩ := List.forall_mem_cons.1 habove
    simp only [List.cons_append, lookup?, hg]
    exact ih habove

theorem below_append (above below : Scope) : Scope.below (above ++ below) below.length = below := by
  rw [Scope.below, List.length_append, Nat.add_sub_cancel, List.drop_left]

end Scope

variable {w : World} {s s' : State} {above below : Scope} {frame : ArgumentFrame} {x : String}
  {e : Tree} {fuel : Nat}

theorem inContext_below {α : Type} (name : String) (level : Nat) (m : Evaluation α) :
    inContext name (Evaluation.below level m) = Evaluation.below level (inContext name m) := by
  funext w s
  change (inContext name (Evaluation.below level m)).run w s =
    (Evaluation.below level (inContext name m)).run w s
  rw [inContext_apply, below_apply, below_apply, inContext_apply]
  cases m.run w (s.suspend level) <;> rfl

theorem eval_below (level fuel : Nat) (t : Tree) (w : World) (s : State) :
    (Evaluation.below level (eval fuel t)).run w s = ((eval fuel t).run w (s.suspend level)).map
      fun r => (r.1, { r.2 with scope := s.scope }) := by
  rw [below_apply]
  cases hrun : (eval fuel t).run w (s.suspend level) with
  | error h => rfl
  | ok r =>
    have hscope := (eval_balanced hrun).scope
    simp only [Except.map, State.resume, hscope, State.suspend, Scope.above_append_below]

theorem argumentValue_delayed (eval : Evaluator) (w : World) (hscope : s.scope = above ++ frame :: below)
    (habove : ∀ g ∈ above, g.value? x = none)
    (hx : frame.value? x = some (.node Primitive.delay [e])) :
    (Rule.argumentValue eval x).run w s = (Evaluation.below below.length (eval e)).run w s := by
  have hlookup : s.scope.lookup? x = some (below.length, .node Primitive.delay [e]) := by
    rw [hscope, Scope.lookup?_innermost habove hx]
  rw [Rule.argumentValue_of_lookup hlookup]
  rfl

theorem arg_delayed (hscope : s.scope = above ++ frame :: below)
    (habove : ∀ g ∈ above, g.value? x = none)
    (hx : frame.value? x = some (.node Primitive.delay [e])) (fuel : Nat) (w : World) :
    (eval (fuel + 1) (.node Primitive.arg [.atom x])).run w s =
      ((eval fuel e).run w { s with scope := below }).map fun r => (r.1, { r.2 with scope := s.scope }) := by
  have hbelow : s.suspend below.length = { s with scope := below } := by
    have h := Scope.below_append (above ++ [frame]) below
    rw [List.append_assoc, List.singleton_append] at h
    rw [State.suspend, hscope, h]
  calc (eval (fuel + 1) (.node Primitive.arg [.atom x])).run w s
      = (inContext Primitive.arg.name (Rule.argumentValue (eval fuel) x >>= pure)).run w s := rfl
    _ = (inContext Primitive.arg.name (Evaluation.below below.length (eval fuel e))).run w s := by
      rw [bind_pure, inContext_apply, argumentValue_delayed _ w hscope habove hx, inContext_apply]
    _ = (Evaluation.below below.length (eval fuel e)).run w s := by
      rw [inContext_below, Rule.inContext_eval]
    _ = _ := by rw [eval_below, hbelow]

theorem eval_arg_delayed (hscope : s.scope = above ++ frame :: below)
    (habove : ∀ g ∈ above, g.value? x = none)
    (hx : frame.value? x = some (.node Primitive.delay [e])) (fuel : Nat) (w : World) :
    (eval (fuel + 1) (.node Primitive.arg [.atom x])).run w s =
        ((eval fuel e).run w { s with scope := below }).map
          (fun r => (r.1, { r.2 with scope := s.scope })) ∧
      ∀ (above' : Scope) (frame' : ArgumentFrame), (∀ g ∈ above', g.value? x = none) →
        frame'.value? x = some (.node Primitive.delay [e]) →
        (eval (fuel + 1) (.node Primitive.arg [.atom x])).run w
            { s with scope := above' ++ frame' :: below } =
          ((eval (fuel + 1) (.node Primitive.arg [.atom x])).run w s).map
            fun r => (r.1, { r.2 with scope := above' ++ frame' :: below }) := by
  refine ⟨arg_delayed hscope habove hx fuel w, fun above' frame' habove' hx' => ?_⟩
  rw [arg_delayed hscope habove hx fuel w,
    arg_delayed (s := { s with scope := above' ++ frame' :: below }) rfl habove' hx' fuel w]
  cases (eval fuel e).run w { s with scope := below } <;> rfl

theorem eval_arg_delayed_capturing :
    let above : Scope := [.bind [] "y" (.atom "innermost")]
    let frame : ArgumentFrame :=
      .bind (.bind [] "x" (.node Primitive.delay [.node Primitive.arg [.atom "y"]])) "y" (.atom "own")
    let below : Scope := [.bind [] "y" (.atom "outermost")]
    let s := { State.fresh 600 default with scope := above ++ frame :: below }
    (∀ g ∈ above, g.value? "x" = none) ∧
      frame.value? "x" = some (.node Primitive.delay [.node Primitive.arg [.atom "y"]]) ∧
      ∃ s', (eval 3 (.node Primitive.arg [.atom "x"])).run { base := "" } s =
          .ok (.ok (.atom "outermost"), s') ∧
        s'.scope = s.scope := by
  intro above frame below s
  have habove : ∀ g ∈ above, g.value? "x" = none := by decide
  obtain ⟨hrun, _⟩ := @eval_arg_delayed s above below frame "x" _ rfl habove rfl 2 { base := "" }
  exact ⟨habove, rfl, _, hrun, rfl⟩

end Typesetter

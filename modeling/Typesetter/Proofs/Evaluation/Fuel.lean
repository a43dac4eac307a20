import Typesetter.Proofs.Evaluation.Position

namespace Typesetter

open Execution

variable {ι α : Type} {eval unguarded : ι → Evaluator} {Calls : Place → Tree → Prop} {p : Place}
  {w : World} {s s' : State} {fuel more : Nat} {t : Tree}

theorem kept_true : Kept fun _ _ => True := ⟨fun _ => trivial, fun _ _ => trivial, fun _ => trivial,
  fun _ _ _ _ => trivial⟩

def Extends (eval eval' : Evaluator) : Prop :=
  ∀ t w s r s', (eval t).run w s = .ok (r, s') → (eval' t).run w s = .ok (r, s')

theorem Routine.extends {i j : ι} (hkeeps : ∀ i, Keeps (fun _ _ => True) (eval i))
    (hunguarded : ∀ i, Keeps (fun _ _ => True) (unguarded i)) (heval : Extends (eval i) (eval j))
    (hextends : Extends (unguarded i) (unguarded j)) {m : ι → Execution α}
    (h : Routine eval unguarded Calls p m) :
    ∀ w s a s', p.Holds w s → m i w s = .ok (a, s') → m j w s = .ok (a, s') := by
  induction h with
  | pure a => exact fun w s b s' _ hrun => hrun
  | @bind p α β m f hm _ ihm ihf =>
    intro w s b s'' hp hrun
    obtain ⟨a, s', hfirst, hrest⟩ := bind_eq_ok hrun
    have hp' : p.Holds w s' := (Routine.kept kept_true hkeeps hunguarded hm i w s a s' hp hfirst).2
    change (m j >>= f j) w s = _
    rw [bind_apply, ihm w s a s' hp hfirst]
    exact ihf a w s' b s'' hp' hrest
  | @act p α β m g f hm hchange _ ih =>
    intro w s b s'' hp hrun
    have hrun : (m >>= f i) w s = .ok (b, s'') := hrun
    change (m >>= f j) w s = _
    rw [bind_apply, hm] at hrun ⊢
    exact ih w s hp w _ b s'' ((hchange w s).holds hp) hrun
  | consult path _ => exact fun w s b s' _ hrun => hrun
  | bracket hb _ hn ih =>
    intro w s a s'' hp hrun
    rw [hn] at hrun
    obtain ⟨s', hm, rfl⟩ := Bracket.eq_ok hrun
    rw [hn, ih w _ a s' (hb.enters hp) hm]
    rfl
  | call _ => exact fun w s r s' _ hrun => heval _ w s r s' hrun
  | unguarded t => exact fun w s r s' _ hrun => hextends t w s r s' hrun

theorem eval_extends_succ (fuel : Nat) : Extends (Typesetter.eval fuel) (Typesetter.eval (fuel + 1)) := by
  induction fuel with
  | zero =>
    intro t w s r s' hrun
    cases hrun
  | succ fuel ih =>
    intro t w s r s' hrun
    have hstep (p : Place) : Procedure Typesetter.eval Typesetter.eval (fun _ _ => True) p
        fun i => Rule.step (Typesetter.eval i) (Typesetter.eval i) t :=
      .step (.of_forall fun _ _ => trivial)
    exact Routine.extends (eval_keeps kept_true) (eval_keeps kept_true) ih ih (hstep (.ofState w s)) w s r s'
      (Place.holds_ofState w s) hrun

theorem eval_extends (h : fuel ≤ more) : Extends (Typesetter.eval fuel) (Typesetter.eval more) := by
  induction h with
  | refl => exact fun _ _ _ _ _ hrun => hrun
  | step _ ih => exact fun t w s r s' hrun => eval_extends_succ _ t w s r s' (ih t w s r s' hrun)

theorem Extends.exec {eval eval' : Evaluator} (h : Extends eval eval') {v : Tree}
    (hrun : Rule.exec eval t w s = .ok (v, s')) : Rule.exec eval' t w s = .ok (v, s') := by
  obtain ⟨r, s₁, hm, hrest⟩ := bind_eq_ok hrun
  rw [Rule.exec, absorbing, bind_apply, h t w s r s₁ hm]
  exact hrest

end Typesetter

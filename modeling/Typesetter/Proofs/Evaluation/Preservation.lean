import Typesetter.Proofs.Evaluation.Forms
/-!
Relations between states that evaluation keeps. A relation that every change and every bracket keeps
relates the state before an evaluation to the state after it.
-/

namespace Typesetter

variable {ι α β : Type} {eval unguarded : ι → Evaluator} {Calls : Place → Tree → Prop} {p q : Place}
  {before : State → State} {after : State → State → State} {w : World} {s s' : State}

namespace Place

theorem Holds.changed (h : p.Holds w s) (hd : s'.depth = s.depth) (hl : s'.scope = s.scope) :
    p.Holds w s' :=
  ⟨h.limit, hd.trans h.depth, (congrArg List.length hl).trans h.level⟩

end Place

theorem Change.holds (h : Change s s') (hp : p.Holds w s) : p.Holds w s' := by
  cases h with
  | none => exact hp
  | report ds => exact hp.changed rfl rfl
  | write name value => exact hp.changed rfl rfl

namespace Bracket

theorem enters (h : Bracket p q before after) (hp : p.Holds w s) : q.Holds w (before s) := by
  cases h with
  | binding name value => exact hp.changed rfl rfl
  | frame f => exact ⟨hp.limit, congrArg (· + 1) hp.depth, congrArg (· + 1) hp.level⟩
  | @below level hl =>
    refine ⟨hp.limit, hp.depth, ?_⟩
    have := hp.level
    simp only [State.suspend, Scope.below, Place.below, List.length_drop]
    omega
  | deeper => exact ⟨hp.limit, congrArg (· + 1) hp.depth, hp.level⟩

theorem leaves (h : Bracket p q before after) (hp : p.Holds w s) (hq : q.Holds w s') :
    p.Holds w (after s s') := by
  cases h with
  | binding name value => exact hq.changed rfl rfl
  | frame f =>
    refine ⟨hp.limit, congrArg (· - 1) hq.depth, ?_⟩
    have := hq.level
    simp only [State.leave, Place.entered, List.length_tail] at this ⊢
    omega
  | @below level hl =>
    refine ⟨hp.limit, hq.depth, ?_⟩
    have h := hp.level
    have h' := hq.level
    simp only [State.resume, Scope.above, Place.below, List.length_append, List.length_take] at h' ⊢
    omega
  | deeper => exact ⟨hp.limit, congrArg (· - 1) hq.depth, hq.level⟩

end Bracket

/-- A relation that one change keeps, and one bracket around a computation that keeps it. -/
structure Kept (R : State → State → Prop) : Prop where
  refl (s : State) : R s s
  trans {s s' s'' : State} : R s s' → R s' s'' → R s s''
  change {s s' : State} : Change s s' → R s s'
  bracket {p q : Place} {before : State → State} {after : State → State → State} {w : World}
    {s s' : State} : Bracket p q before after → p.Holds w s → q.Holds w s' → R (before s) s' →
      R s (after s s')

def Keeps (R : State → State → Prop) (eval : Evaluator) : Prop :=
  ∀ t w s r s', (eval t).run w s = .ok (r, s') → R s s' ∧ ∀ p : Place, p.Holds w s → p.Holds w s'

theorem Execution.bind_apply (m : Execution α) (f : α → Execution β) (w : World) (s : State) :
    (m >>= f) w s = (m w s).bind fun r => f r.1 w r.2 := rfl

theorem Execution.bind_eq_ok {m : Execution α} {f : α → Execution β} {b : β}
    (h : (m >>= f) w s = .ok (b, s')) : ∃ a t, m w s = .ok (a, t) ∧ f a w t = .ok (b, s') := by
  rw [Execution.bind_apply] at h
  cases hm : m w s with
  | error e =>
    rw [hm] at h
    cases h
  | ok r =>
    rw [hm] at h
    exact ⟨r.1, r.2, rfl, h⟩

theorem Bracket.eq_ok {m : Execution α} {a : α}
    (h : ((m w (before s)).map fun r => (r.1, after s r.2)) = .ok (a, s')) :
    ∃ t, m w (before s) = .ok (a, t) ∧ s' = after s t := by
  cases hm : m w (before s) with
  | error e =>
    rw [hm] at h
    cases h
  | ok r =>
    rw [hm] at h
    cases h
    exact ⟨r.2, rfl, rfl⟩

theorem Execution.consult_apply (question : FileSystem → String → Option α) (path : String) (w : World)
    (s : State) : consult question path w s =
      (question w.files path).elim (.error (.unknownFile path)) fun answer => .ok (answer, s) := by
  have hread : (read : Execution World) w s = .ok (w, s) := rfl
  rw [consult, bind_apply, hread]
  simp only [Except.bind]
  cases question w.files path <;> rfl

theorem Execution.consult_eq_ok {question : FileSystem → String → Option α} {path : String} {w : World}
    {a : α} : consult question path w s = .ok (a, s') ↔ question w.files path = some a ∧ s' = s := by
  rw [consult_apply]
  cases question w.files path with
  | none => exact ⟨nofun, nofun⟩
  | some answer =>
    constructor
    · intro h
      cases h
      exact ⟨rfl, rfl⟩
    · rintro ⟨h, rfl⟩
      cases h
      rfl

variable {R : State → State → Prop}

theorem Routine.kept (hR : Kept R) (heval : ∀ i, Keeps R (eval i))
    (hunguarded : ∀ i, Keeps R (unguarded i)) {m : ι → Execution α}
    (h : Routine eval unguarded Calls p m) :
    ∀ i w s a s', p.Holds w s → m i w s = .ok (a, s') → R s s' ∧ p.Holds w s' := by
  induction h with
  | pure a =>
    intro i w s a s' hp hrun
    cases hrun
    exact ⟨hR.refl s, hp⟩
  | bind _ _ ihm ihf =>
    intro i w s b s'' hp hrun
    obtain ⟨a, s', hm, hf⟩ := Execution.bind_eq_ok hrun
    obtain ⟨hR', hp'⟩ := ihm i w s a s' hp hm
    obtain ⟨hR'', hp''⟩ := ihf a i w s' b s'' hp' hf
    exact ⟨hR.trans hR' hR'', hp''⟩
  | @act p α β m g f hm hchange _ ih =>
    intro i w s b s'' hp hrun
    have hrun : (m >>= f i) w s = .ok (b, s'') := hrun
    rw [Execution.bind_apply, hm] at hrun
    obtain ⟨hR'', hp''⟩ := ih w s hp i w _ b s'' ((hchange w s).holds hp) hrun
    exact ⟨hR.trans (hR.change (hchange w s)) hR'', hp''⟩
  | consult path _ =>
    intro i w s a s' hp hrun
    obtain ⟨_, rfl⟩ := Execution.consult_eq_ok.1 hrun
    exact ⟨hR.refl s', hp⟩
  | bracket hb _ hn ih =>
    intro i w s a s'' hp hrun
    rw [hn] at hrun
    obtain ⟨s', hm, rfl⟩ := Bracket.eq_ok hrun
    obtain ⟨hR', hq⟩ := ih i w _ a s' (hb.enters hp) hm
    exact ⟨hR.bracket hb hp hq hR', hb.leaves hp hq⟩
  | call _ =>
    intro i w s a s' hp hrun
    obtain ⟨hR', hholds⟩ := heval i _ w s a s' hrun
    exact ⟨hR', hholds _ hp⟩
  | unguarded t =>
    intro i w s a s' hp hrun
    obtain ⟨hR', hholds⟩ := hunguarded i t w s a s' hrun
    exact ⟨hR', hholds _ hp⟩

theorem step_keeps (hR : Kept R) {eval unguarded : Evaluator} (heval : Keeps R eval)
    (hunguarded : Keeps R unguarded) : Keeps R (Rule.step eval unguarded) := by
  intro t w s r s' hrun
  -- Nothing is asked of the evaluations that a step starts.
  have hstep (p : Place) : Procedure (fun _ : Unit => eval) (fun _ => unguarded) (fun _ _ => True) p
      fun _ => Rule.step eval unguarded t :=
    .step (.of_forall fun _ _ => trivial)
  have hkept (p : Place) (hp : p.Holds w s) : R s s' ∧ p.Holds w s' :=
    Routine.kept hR (fun _ => heval) (fun _ => hunguarded) (hstep p) () w s r s' hp hrun
  exact ⟨(hkept _ (Place.holds_ofState w s)).1, fun p hp => (hkept p hp).2⟩

theorem halt_keeps (h : Halt) : Keeps R fun _ => ExceptT.lift (Execution.halt h) := by
  intro t w s r s' hrun
  cases hrun

theorem eval_keeps (hR : Kept R) (fuel : Nat) : Keeps R (Typesetter.eval fuel) := by
  induction fuel with
  | zero => exact halt_keeps .outOfFuel
  | succ fuel ih => exact step_keeps hR ih ih

end Typesetter

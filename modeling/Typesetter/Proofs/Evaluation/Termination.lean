import Typesetter.Proofs.Evaluation.Preservation
/-!
Evaluation comes to an end. Two parts of evaluation have no guard against starting again and again:
the children of an argument that are evaluated once more, and the defaults of missing arguments.
What an evaluation starts elsewhere is less than the evaluation itself: fewer applications of macros
are left, or else there are fewer frames of arguments, or else the tree is smaller.
-/

namespace Typesetter

open Execution Evaluation

def evalGuarded (h : Halt) : Nat → Evaluator
  | 0, _ => ExceptT.lift (halt .outOfFuel)
  | fuel + 1, t => Rule.step (evalGuarded h fuel) (fun _ => ExceptT.lift (halt h)) t

/-- With some fuel, the evaluation halts for no other reason than the missing guard. -/
def LosesGuard (t : Tree) (w : World) (s : State) : Prop :=
  ∃ fuel, ∀ h, (evalGuarded h fuel t).run w s = .error h

def World.withFiles (w : World) (hasFile : String → Bool) (text : String → Except FileError String) :
    World :=
  { w with files := ⟨fun path => some (hasFile path), fun path => some (text path)⟩ }

theorem World.isKnown_withFiles (w : World) (hasFile : String → Bool)
    (text : String → Except FileError String) : (w.withFiles hasFile text).files.IsKnown :=
  ⟨fun _ => rfl, fun _ => rfl⟩

variable {α : Type} {p : Place} {Calls : Place → Tree → Prop} {w : World} {s : State}

namespace Place

def IsLower (q p : Place) : Prop :=
  q.limit - q.depth < p.limit - p.depth ∨ q.limit - q.depth = p.limit - p.depth ∧ q.level < p.level

def IsWithin (q p : Place) : Prop := q = p ∨ q.IsLower p

theorem IsWithin.refl (p : Place) : p.IsWithin p := .inl rfl

theorem isLower_entered (hp : p.depth < p.limit) : p.entered.IsLower p := by
  simp only [IsLower, entered]
  omega

theorem isLower_descended (hp : p.depth < p.limit) : p.descended.IsLower p := by
  simp only [IsLower, descended]
  omega

theorem isLower_below {level : Nat} (hl : level < p.level) : (p.below level).IsLower p := .inr ⟨rfl, hl⟩

theorem IsLower.trans {r q : Place} (h : r.IsLower q) (h' : q.IsLower p) : r.IsLower p := by
  simp only [IsLower] at *
  omega

theorem IsWithin.trans {r q : Place} (h : r.IsWithin q) (h' : q.IsWithin p) : r.IsWithin p := by
  rcases h with rfl | h
  · exact h'
  · rcases h' with rfl | h'
    · exact .inr h
    · exact .inr (h.trans h')

def measure (p : Place) (t : Tree) : Nat × Nat × Nat := (p.limit - p.depth, p.level, t.size)

def Starts (p : Place) (t : Tree) (q : Place) (u : Tree) : Prop :=
  Prod.Lex (· < ·) (Prod.Lex (· < ·) (· < ·)) (q.measure u) (p.measure t)

theorem starts_wellFounded : WellFounded fun b a : Place × Tree => a.1.Starts a.2 b.1 b.2 :=
  InvImage.wf (fun a : Place × Tree => a.1.measure a.2)
    (Prod.lex Nat.lt_wfRel (Prod.lex Nat.lt_wfRel Nat.lt_wfRel)).wf

theorem admits_starts (p : Place) (t : Tree) : p.Admits (p.Starts t) t where
  part c hc u hu := .right _ (.right _ (hu.size_lt hc))
  named head args ht s := by
    subst ht
    exact .right _ (.right _ (Tree.size_named_lt s head args))
  entered hd u := by
    refine .left _ _ ?_
    simp only [entered]
    omega
  descended hd u := by
    refine .left _ _ ?_
    simp only [descended]
    omega
  below level hl u := .right _ (.left _ _ hl)

end Place

theorem Bracket.isWithin {q : Place} {before : State → State} {after : State → State → State}
    (h : Bracket p q before after) : q.IsWithin p := by
  cases h with
  | binding name value => exact .refl p
  | frame f hp => exact .inr (Place.isLower_entered hp)
  | below hl => exact .inr (Place.isLower_below hl)
  | deeper hp => exact .inr (Place.isLower_descended hp)

def attempt : Nat × Option Halt → Evaluator
  | (fuel, none) => eval fuel
  | (fuel, some h) => evalGuarded h fuel

def attemptUnguarded : Nat × Option Halt → Evaluator
  | (fuel, none) => eval fuel
  | (_, some h) => fun _ => ExceptT.lift (halt h)

theorem attempt_succ (fuel : Nat) (o : Option Halt) (t : Tree) :
    attempt (fuel + 1, o) t = Rule.step (attempt (fuel, o)) (attemptUnguarded (fuel, o)) t := by
  cases o <;> rfl

inductive Ends (p : Place) (w : World) (s : State) (m : Nat × Option Halt → Execution α) : Prop
  | unguarded (n : Nat) : (∀ k ≥ n, ∀ h, m (k, some h) w s = .error h) → Ends p w s m
  | finished (n : Nat) (a : α) (s' : State) :
      p.Holds w s' → (∀ k ≥ n, ∀ o, m (k, o) w s = .ok (a, s')) → Ends p w s m

namespace Ends

variable {m m' : Nat × Option Halt → Execution α}

theorem of_eq (h : ∀ i, m' i w s = m i w s) (hm : Ends p w s m) : Ends p w s m' := by
  rcases hm with ⟨n, hn⟩ | ⟨n, a, s', hp, hn⟩
  · exact .unguarded n fun k hk e => (h _).trans (hn k hk e)
  · exact .finished n a s' hp fun k hk o => (h _).trans (hn k hk o)

theorem step (least : Nat) (h : ∀ k ≥ least, ∀ o, m' (k + 1, o) w s = m (k, o) w s)
    (hm : Ends p w s m) : Ends p w s m' := by
  have hstep (n k : Nat) (hk : max n least + 1 ≤ k) (o : Option Halt) :
      ∃ k' ≥ n, m' (k, o) w s = m (k', o) w s := by
    obtain ⟨k, rfl⟩ := Nat.exists_eq_add_of_le' hk
    exact ⟨k + max n least, by omega, h (k + max n least) (by omega) o⟩
  rcases hm with ⟨n, hn⟩ | ⟨n, a, s', hp, hn⟩
  · refine .unguarded (max n least + 1) fun k hk e => ?_
    obtain ⟨k', hk', heq⟩ := hstep n k hk (some e)
    exact heq.trans (hn k' hk' e)
  · refine .finished (max n least + 1) a s' hp fun k hk o => ?_
    obtain ⟨k', hk', heq⟩ := hstep n k hk o
    exact heq.trans (hn k' hk' o)

end Ends

theorem Routine.ends {eval unguarded : Nat × Option Halt → Evaluator}
    {m : Nat × Option Halt → Execution α} (hfiles : w.files.IsKnown)
    (hcalls : ∀ q u, Calls q u → ∀ s, q.Holds w s → Ends q w s fun i => (eval i u).run)
    (hunguarded : ∀ q, q.IsWithin p → ∀ u s, q.Holds w s → Ends q w s fun i => (unguarded i u).run)
    (h : Routine eval unguarded Calls p m) : ∀ s, p.Holds w s → Ends p w s m := by
  induction h with
  | pure a => exact fun s hp => .finished 0 a s hp fun _ _ _ => rfl
  | @bind p α β m f _ _ ihm ihf =>
    intro s hp
    rcases ihm hunguarded s hp with ⟨n, hm⟩ | ⟨n, a, s', hp', hm⟩
    · refine .unguarded n fun k hk h => ?_
      rw [bind_apply, hm k hk h]
      rfl
    · have hbind (k : Nat) (hk : n ≤ k) (o : Option Halt) :
          (m (k, o) >>= f (k, o)) w s = f (k, o) a w s' := by
        rw [bind_apply, hm k hk o]
        rfl
      rcases ihf a hunguarded s' hp' with ⟨n', hf⟩ | ⟨n', b, s'', hp'', hf⟩
      · refine .unguarded (max n n') fun k hk h => ?_
        obtain ⟨hn, hn'⟩ := Nat.max_le.1 hk
        rw [hbind k hn, hf k hn' h]
      · refine .finished (max n n') b s'' hp'' fun k hk o => ?_
        obtain ⟨hn, hn'⟩ := Nat.max_le.1 hk
        rw [hbind k hn, hf k hn' o]
  | @act p α β m g f hm hchange _ ih =>
    intro s hp
    have hact (i : Nat × Option Halt) :
        (m >>= f i : Execution β) w s = f i (g w s).1 w (g w s).2 := by
      rw [bind_apply, hm]
      rfl
    rcases ih w s hp hunguarded (g w s).2 ((hchange w s).holds hp) with ⟨n, hf⟩ | ⟨n, b, s', hp', hf⟩
    · exact .unguarded n fun k hk h => (hact _).trans (hf k hk h)
    · exact .finished n b s' hp' fun k hk o => (hact _).trans (hf k hk o)
  | consult path hanswered =>
    intro s hp
    obtain ⟨r, hr⟩ := Option.isSome_iff_exists.1 (hanswered w.files hfiles)
    refine .finished 0 r s hp fun _ _ _ => ?_
    rw [consult_apply, hr]
    rfl
  | bracket hb _ hn ih =>
    intro s hp
    rcases ih (fun r hr => hunguarded r (hr.trans hb.isWithin)) _ (hb.enters hp) with ⟨n, hm⟩ | ⟨n, a, s', hq, hm⟩
    · refine .unguarded n fun k hk h => ?_
      rw [hn, hm k hk h]
      rfl
    · refine .finished n a _ (hb.leaves hp hq) fun k hk o => ?_
      rw [hn, hm k hk o]
      rfl
  | call hc => exact hcalls _ _ hc
  | @unguarded p t => exact hunguarded p (.refl p) t

theorem attempt_ends (hfiles : w.files.IsKnown) (a : Place × Tree) :
    ∀ s, a.1.Holds w s → Ends a.1 w s fun i => (attempt i a.2).run := by
  -- The induction is on what an evaluation may start.
  induction a using Place.starts_wellFounded.induction with
  | _ a ih =>
    intro s hp
    have hstep : Procedure attempt attemptUnguarded (a.1.Starts a.2) a.1 fun i =>
        Rule.step (attempt i) (attemptUnguarded i) a.2 := .step (a.1.admits_starts a.2)
    have hunguarded (q : Place) (u : Tree) (s : State) : Ends q w s fun i => (attemptUnguarded i u).run :=
      .unguarded 0 fun _ _ _ => rfl
    have hends := Routine.ends hfiles (fun q u h => ih (q, u) h) (fun q _ u s _ => hunguarded q u s) hstep s hp
    exact hends.step 0 fun k _ o => by rw [attempt_succ]

theorem eval_terminates (w : World) (hasFile : String → Bool) (text : String → Except FileError String)
    (s : State) (t : Tree) : LosesGuard t (w.withFiles hasFile text) s ∨
      ∃ fuel r s', ∀ more ≥ fuel, (eval more t).run (w.withFiles hasFile text) s = .ok (r, s') := by
  have hfiles := w.isKnown_withFiles hasFile text
  let w := w.withFiles hasFile text
  rcases attempt_ends (w := w) hfiles (Place.ofState w s, t) s (Place.holds_ofState w s) with ⟨n, hn⟩ | ⟨n, r, s', _, hn⟩
  · exact .inl ⟨n, hn n (Nat.le_refl n)⟩
  · exact .inr ⟨n, r, s', fun more hm => hn more hm none⟩

example : LosesGuard (.node Primitive.evalArgs [.atom "x"]) { base := "" }
    ({ derived := .fresh 600 default : State }.write "x"
      (.node Primitive.concat [.node Primitive.evalArgs [.atom "x"]])) :=
  ⟨1, fun _ => rfl⟩

end Typesetter

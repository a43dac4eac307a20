import Mathlib.Logic.Function.Basic
import Mathlib.Order.WithBot
import Typesetter.Proofs.Evaluation.Defaults
import Typesetter.Proofs.Evaluation.Termination
/-!
Evaluations without a guard, nested in each other. No application counts between two that start in the
same place, one inside the other. Where these are nested up to some depth only, evaluation comes to an end.
-/

namespace Typesetter

open Execution Evaluation

/-- How many evaluations without a guard may still be nested, by the depth of applications and the number
of frames. -/
abbrev Allowance := Nat × Nat → Nat

def Allowance.spend (left : Allowance) (h : Halt) (eval : Allowance → Evaluator) : Evaluator := fun t => do
  let s ← get
  match left (s.depth, s.scope.length) with
  | 0 => ExceptT.lift (halt h)
  | n + 1 => eval (Function.update left (s.depth, s.scope.length) n) t

/-- Evaluation that halts where the allowance is spent. Only some nodes are asked to keep to it. -/
def evalNested (counted : Tree → Bool) (h : Halt) : Nat → Allowance → Evaluator
  | 0, _, _ => ExceptT.lift (halt .outOfFuel)
  | fuel + 1, left, t =>
    Rule.step (evalNested counted h fuel left)
      (if counted t then left.spend h (evalNested counted h fuel) else evalNested counted h fuel left) t

/-- With some fuel, the evaluation halts for no other reason than that more evaluations without a guard are
nested in one place than the bound. -/
def NestsBeyond (counted : Tree → Bool) (bound : Nat) (t : Tree) (w : World) (s : State) : Prop :=
  ∃ fuel, ∀ h, (evalNested counted h fuel (fun _ => bound) t).run w s = .error h

structure Situation where
  place : Place
  left : Allowance
  rank : WithTop Nat
  tree : Tree

namespace Situation

def measure (a : Situation) : Nat × Nat × Nat × WithTop Nat × Nat :=
  (a.place.limit - a.place.depth, a.place.level, a.left (a.place.depth, a.place.level), a.rank, a.tree.size)

def Precedes (b a : Situation) : Prop :=
  Prod.Lex (· < ·) (Prod.Lex (· < ·) (Prod.Lex (· < ·) (Prod.Lex (· < ·) (· < ·)))) b.measure a.measure

theorem precedes_wellFounded : WellFounded Precedes :=
  InvImage.wf measure (wellFounded_lt.prod_lex (wellFounded_lt.prod_lex (wellFounded_lt.prod_lex
    (wellFounded_lt.prod_lex wellFounded_lt))))

variable {p q : Place} {left left' : Allowance} {k k' : WithTop Nat} {t u : Tree} {r : Registry}
  {counted : Tree → Bool} {rank : String → Nat}

theorem precedes_of_isLower (h : q.IsLower p) : Precedes ⟨q, left', k', u⟩ ⟨p, left, k, t⟩ := by
  rcases h with h | ⟨h, hl⟩
  · exact .left _ _ h
  · simp only [Precedes, measure, h]
    exact .right _ (.left _ _ hl)

theorem precedes_of_spent (h : left' (p.depth, p.level) < left (p.depth, p.level)) :
    Precedes ⟨p, left', k', u⟩ ⟨p, left, k, t⟩ :=
  .right _ (.right _ (.left _ _ h))

theorem precedes_of_rank (h : k' < k) : Precedes ⟨p, left, k', u⟩ ⟨p, left, k, t⟩ :=
  .right _ (.right _ (.right _ (.left _ _ h)))

theorem precedes_of_size (h : u.size < t.size) : Precedes ⟨p, left, k, u⟩ ⟨p, left, k, t⟩ :=
  .right _ (.right _ (.right _ (.right _ h)))

def Fits (r : Registry) (counted : Tree → Bool) (rank : String → Nat) (k : WithTop Nat) (t : Tree) : Prop :=
  r.FillsOnly counted (fun m => WithTop.some (rank m) < k) t

theorem fits_top (t : Tree) : Fits r counted rank ⊤ t :=
  .of_forall (fun _ _ _ _ _ _ _ _ => WithTop.coe_lt_top _) t

theorem fits_default (hr : r.Grounded counted rank) {m : String} {i : Nat} (h : r.default? m i = some t) :
    Fits r counted rank (WithTop.some (rank m)) t :=
  (hr m i t h).mono fun _ _ hlower u hu hc m' d hd => WithTop.coe_lt_coe.2 (hlower u hu hc m' d hd)

theorem fits_named {head : Tree} {args : List Tree} {x : String}
    (h : Fits r counted rank k (.node Primitive.compound (head :: args))) (hx : head.MayName x) :
    Fits r counted rank k (.node (Tag.ofName x) args) :=
  .node (fun u hu => h.here u (.named hx hu)) fun _ hc => h.child (List.mem_cons_of_mem _ hc)

def Calls (r : Registry) (counted : Tree → Bool) (rank : String → Nat) (a : Situation) (q : Place)
    (u : Tree) : Prop :=
  ∃ k, Fits r counted rank k u ∧ Precedes ⟨q, a.left, k, u⟩ a

theorem admits (h : Fits r counted rank k t) (hnamed : ¬ t.IsNamed) :
    p.Admits (Calls r counted rank ⟨p, left, k, t⟩) t where
  part c hc u hu := ⟨k, (h.of_mem_children hc).part hu, precedes_of_size (hu.size_lt hc)⟩
  named head args ht s := by
    subst ht
    cases head with
    | atom x => exact absurd ⟨x, args, rfl⟩ hnamed
    | node tag cs =>
      exact ⟨k, fits_named h trivial, precedes_of_size (Tree.size_named_lt s (.node tag cs) args)⟩
  entered hd u := ⟨⊤, fits_top u, precedes_of_isLower (Place.isLower_entered hd)⟩
  descended hd u := ⟨⊤, fits_top u, precedes_of_isLower (Place.isLower_descended hd)⟩
  below level hl u := ⟨⊤, fits_top u, precedes_of_isLower (Place.isLower_below hl)⟩

end Situation

variable {counted : Tree → Bool} {left : Allowance} {w : World} {s : State} {rank : String → Nat}

def attemptNested (counted : Tree → Bool) (left : Allowance) : Nat × Option Halt → Evaluator
  | (fuel, none) => eval fuel
  | (fuel, some h) => evalNested counted h fuel left

def attemptSpending (counted : Tree → Bool) (left : Allowance) : Nat × Option Halt → Evaluator
  | (fuel, none) => eval fuel
  | (fuel, some h) => left.spend h (evalNested counted h fuel)

theorem attemptNested_counted {t : Tree} (ht : counted t = true) (fuel : Nat) (o : Option Halt) :
    attemptNested counted left (fuel + 1, o) t =
      Rule.step (attemptNested counted left (fuel, o)) (attemptSpending counted left (fuel, o)) t := by
  cases o with
  | none => rfl
  | some h => simp only [attemptNested, attemptSpending, evalNested, ht, if_true]

theorem attemptNested_free {t : Tree} (ht : counted t = false) (fuel : Nat) (o : Option Halt) :
    attemptNested counted left (fuel + 1, o) t =
      Rule.step (attemptNested counted left (fuel, o)) (attemptNested counted left (fuel, o)) t := by
  cases o with
  | none => rfl
  | some h => simp [attemptNested, evalNested, ht]

theorem attemptNested_named (fuel : Nat) (o : Option Halt) (x : String) (args : List Tree) :
    attemptNested counted left (fuel + 2, o) (.node Primitive.compound (.atom x :: args)) =
      inContext Primitive.compound.name
        (attemptNested counted left (fuel + 1, o) (.node (Tag.ofName x) args)) := by
  cases o with
  | none => exact Rule.step_compound_atom rfl
  | some h => exact Rule.step_compound_atom rfl

theorem spending_ends {p : Place} {t : Tree} (hp : p.Holds w s)
    (h : ∀ n, left (p.depth, p.level) = n + 1 → Ends p w s fun i =>
      (attemptNested counted (Function.update left (p.depth, p.level) n) i t).run) :
    Ends p w s fun i => (attemptSpending counted left i t).run := by
  have hspend (k : Nat) (e : Halt) : (left.spend e (evalNested counted e k) t).run w s =
      (match left (p.depth, p.level) with
      | 0 => ExceptT.lift (halt e)
      | n + 1 => evalNested counted e k (Function.update left (p.depth, p.level) n) t : Evaluation Tree).run w s := by
    rw [← hp.depth, ← hp.level]
    rfl
  cases hn : left (p.depth, p.level) with
  | zero =>
    refine .unguarded 0 fun k _ e => ?_
    simp only [attemptSpending, hspend, hn]
    rfl
  | succ n =>
    refine (h n hn).of_eq fun i => ?_
    obtain ⟨k, _ | e⟩ := i
    · rfl
    · simp only [attemptSpending, attemptNested, hspend, hn]

theorem same_ends {p : Place} (hp : p.Holds w s) (t : Tree) :
    Ends p w s fun _ => (pure t : Evaluation Tree).run :=
  .finished 0 (Except.ok t) s hp fun _ _ _ => rfl

section Step

variable {Calls : Place → Tree → Prop} {p : Place} {t : Tree}

theorem named_ends (hfiles : w.files.IsKnown)
    (hcalls : ∀ q u, Calls q u → ∀ s, q.Holds w s →
      Ends q w s fun i => (attemptNested counted left i u).run)
    {x : String} {args : List Tree} (h : Calls p (.node (Tag.ofName x) args)) (hp : p.Holds w s) :
    Ends p w s fun i =>
      (attemptNested counted left i (.node Primitive.compound (.atom x :: args))).run := by
  have hnode : Procedure (attemptNested counted left) (fun _ t => pure t) Calls p fun i =>
      inContext Primitive.compound.name (attemptNested counted left i (.node (Tag.ofName x) args)) :=
    .inContext _ (.call h)
  have hends := Routine.ends hfiles hcalls (fun _ _ u _ hq => same_ends hq u) hnode s hp
  refine hends.step 1 fun k hk o => ?_
  obtain ⟨k, rfl⟩ := Nat.exists_eq_add_of_le' hk
  simp only [attemptNested_named]

theorem counted_ends (hfiles : w.files.IsKnown)
    (hcalls : ∀ q u, Calls q u → ∀ s, q.Holds w s →
      Ends q w s fun i => (attemptNested counted left i u).run)
    (hspending : ∀ q, q.IsWithin p → ∀ u s, q.Holds w s →
      Ends q w s fun i => (attemptSpending counted left i u).run)
    (h : p.Admits Calls t) (ht : counted t = true) (hp : p.Holds w s) :
    Ends p w s fun i => (attemptNested counted left i t).run := by
  have hstep : Procedure (attemptNested counted left) (attemptSpending counted left) Calls p fun i =>
      Rule.step (attemptNested counted left i) (attemptSpending counted left i) t := .step h
  have hends := Routine.ends hfiles hcalls hspending hstep s hp
  exact hends.step 0 fun k _ o => by rw [attemptNested_counted ht]

open Classical in
theorem free_ends (hfiles : w.files.IsKnown)
    (hcalls : ∀ q u, Calls q u → ∀ s, q.Holds w s →
      Ends q w s fun i => (attemptNested counted left i u).run)
    (hargs : ¬ t.hasTag Primitive.evalArgs) (hnamed : ¬ t.IsNamed)
    (hdefaults : ∀ q, q.IsWithin p → ∀ m d, w.registry.Fills t m d → ∀ s, q.Holds w s →
      Ends q w s fun i => (attemptNested counted left i d).run)
    (h : p.Admits Calls t) (ht : counted t = false) (hp : p.Holds w s) :
    Ends p w s fun i => (attemptNested counted left i t).run := by
  -- Nothing but defaults is evaluated without a guard.
  let P (d : Tree) : Prop := ∃ m, w.registry.Fills t m d
  have hstep : Procedure (attemptNested counted left) (fun i => .only P (attemptNested counted left i))
      Calls p fun i =>
        Rule.step (attemptNested counted left i) (.only P (attemptNested counted left i)) t := .step h
  have honly (q : Place) (hq : q.IsWithin p) (u : Tree) (s : State) (hs : q.Holds w s) :
      Ends q w s fun i => (Evaluator.only P (attemptNested counted left i) u).run := by
    by_cases hu : P u
    · obtain ⟨m, hfills⟩ := id hu
      simpa only [Evaluator.only, if_pos hu] using hdefaults q hq m u hfills s hs
    · simpa only [Evaluator.only, if_neg hu] using same_ends hs u
  have hends := Routine.ends hfiles hcalls honly hstep s hp
  refine hends.step 0 fun k _ o => ?_
  rw [attemptNested_free ht]
  exact Agrees.step hargs hnamed (fun m d hd => (if_pos ⟨m, hd⟩).symm) s

end Step

theorem nested_ends (hfiles : w.files.IsKnown)
    (hargs : ∀ t, t.hasTag Primitive.evalArgs → counted t) (hgrounded : w.registry.Grounded counted rank) (a : Situation) :
    Situation.Fits w.registry counted rank a.rank a.tree → ∀ s, a.place.Holds w s →
      Ends a.place w s fun i => (attemptNested counted a.left i a.tree).run := by
  -- The induction is on what an evaluation may start, with a guard or without one.
  induction a using Situation.precedes_wellFounded.induction with
  | _ a ih =>
    obtain ⟨p, left, k, t⟩ := a
    intro hfits s hp
    have hcalls (q : Place) (u : Tree) (h : Situation.Calls w.registry counted rank ⟨p, left, k, t⟩ q u)
        (s : State) (hq : q.Holds w s) : Ends q w s fun i => (attemptNested counted left i u).run := by
      obtain ⟨k', hfits, hprecedes⟩ := h
      exact ih _ hprecedes hfits s hq
    by_cases hnamed : t.IsNamed
    · obtain ⟨x, args, rfl⟩ := hnamed
      exact named_ends hfiles hcalls ⟨k, Situation.fits_named hfits rfl,
        Situation.precedes_of_size (Tree.size_named_lt x (.atom x) args)⟩ hp
    · have hadmits : p.Admits (Situation.Calls w.registry counted rank ⟨p, left, k, t⟩) t :=
        Situation.admits hfits hnamed
      cases ht : counted t with
      | true =>
        refine counted_ends hfiles hcalls (fun q hq u s hs => ?_) hadmits ht hp
        refine spending_ends hs fun n hn => ?_
        refine ih ⟨q, Function.update left (q.depth, q.level) n, ⊤, u⟩ ?_ (Situation.fits_top u) s hs
        rcases hq with rfl | hq
        · refine Situation.precedes_of_spent ?_
          have hn : left (q.depth, q.level) = n + 1 := hn
          simp only [Function.update_self]
          omega
        · exact Situation.precedes_of_isLower hq
      | false =>
        refine free_ends hfiles hcalls (fun he => Bool.noConfusion ((hargs t he).symm.trans ht)) hnamed (fun q hq m d hd s hs => ?_) hadmits ht hp
        obtain ⟨n, happlies, i, hi, hdefault⟩ := id hd
        have hrank : WithTop.some (rank m) < k := by
          cases t with
          | atom x => cases happlies
          | node tag cs => exact hfits.here _ (.refl _) ht m d hd
        refine ih ⟨q, left, WithTop.some (rank m), d⟩ ?_ (Situation.fits_default hgrounded hdefault) s hs
        rcases hq with rfl | hq
        · exact Situation.precedes_of_rank hrank
        · exact Situation.precedes_of_isLower hq

theorem terminates_unless_nested (hargs : ∀ t, t.hasTag Primitive.evalArgs → counted t)
    (hgrounded : w.registry.Grounded counted rank)
    (hasFile : String → Bool) (text : String → Except FileError String) (s : State) (bound : Nat)
    {t : Tree}
    (h : ¬ NestsBeyond counted bound t (w.withFiles hasFile text) s) :
    ∃ fuel r s', ∀ more ≥ fuel, (eval more t).run (w.withFiles hasFile text) s = .ok (r, s') := by
  have hfiles := w.isKnown_withFiles hasFile text
  let w := w.withFiles hasFile text
  let a : Situation := ⟨.ofState w s, fun _ => bound, ⊤, t⟩
  rcases nested_ends (w := w) hfiles hargs hgrounded a (Situation.fits_top t) s
    (Place.holds_ofState w s) with ⟨n, hn⟩ | ⟨n, r, s', _, hn⟩
  · exact absurd ⟨n, hn n (Nat.le_refl n)⟩ h
  · exact ⟨n, r, s', fun more hm => hn more hm none⟩

/-! Circles that no application interrupts -/

section Halts

variable {α β : Type} {w : World} {s : State} {e : Halt} {eval : Evaluator} {t : Tree}

theorem bind_halts {m : Evaluation α} {f : α → Evaluation β} (h : m.run w s = .error e) :
    (m >>= f).run w s = .error e := by
  change (m.run >>= _) w s = _
  rw [bind_apply, h]
  rfl

theorem lift_halts {m : Execution α} (h : m w s = .error e) :
    (liftM m : Evaluation α).run w s = .error e := by
  rw [run_lift, bind_apply, h]
  rfl

theorem inContext_halts {m : Evaluation α} (h : m.run w s = .error e) (name : String) :
    (inContext name m).run w s = .error e := by
  rw [inContext_apply, h]
  rfl

theorem exec_halts (h : (eval t).run w s = .error e) : Rule.exec eval t w s = .error e := by
  rw [Rule.exec, absorbing, bind_apply, h]
  rfl

theorem execChildren_halts (h : (eval t).run w s = .error e) (tag : Tag) (ts : List Tree) :
    Rule.execChildren eval (.node tag (t :: ts)) w s = .error e := by
  rw [Rule.execChildren, bind_apply, Rule.execAll, List.mapM_cons, bind_apply, exec_halts h]
  rfl

theorem no_outcome (h : ∀ eval : Evaluator, (eval t).run w s = .error .outOfFuel →
    (Rule.step eval eval t).run w s = .error .outOfFuel) :
    ¬ ∃ fuel r s', (Typesetter.eval fuel t).run w s = .ok (r, s') := by
  rintro ⟨fuel, r, s', hrun⟩
  have hfuel : (Typesetter.eval fuel t).run w s = .error .outOfFuel := by
    clear hrun
    induction fuel with
    | zero => rfl
    | succ fuel ih => exact h _ ih
  rw [hfuel] at hrun
  cases hrun

end Halts

namespace Nesting

def holding (contents : List (String × Tree)) : State :=
  contents.foldl (fun s c => s.write c.1 c.2) { derived := .fresh 600 default }

def evalArgsOf (x : String) : Tree := .node Primitive.evalArgs [.atom x]

def call (m : String) : Tree := .node (.user m) []

def crossed : State := holding
  [("x", .node Primitive.concat [evalArgsOf "y"]), ("y", .node Primitive.concat [call "m"]),
    ("m", .node Primitive.macroDef [evalArgsOf "x"])]

def shallow : World := { base := "", settings := { maxRecursionDepth := 1 } }

def circular : State := holding [("x", .node Primitive.concat [evalArgsOf "x"])]

def returning : State := holding
  [("m", .node Primitive.macroDef [.atom "a", .node Primitive.arg [.atom "a"]]),
    ("k", .node Primitive.macroDef [.atom "a", .atom "b", .node Primitive.arg [.atom "b"]])]

def computed : Tree := .node Primitive.compound [.node Primitive.concat [.atom "k"], .atom "x"]

def defaulting : World :=
  { base := "", registry := (Registry.setDefault {} "m" 0 computed).setDefault "k" 1 (.atom "done") }

def selfDefaulting : World := { base := "", registry := Registry.setDefault {} "m" 0 (call "m") }

end Nesting

open Nesting

theorem evalArgs_terminates (w : World) (hasFile : String → Bool) (text : String → Except FileError String)
    (s : State) (x : Tree) (bound : Nat)
    (h : ¬ NestsBeyond (fun _ => true) bound (.node Primitive.evalArgs [x]) (w.withFiles hasFile text) s) :
    ∃ fuel r s', ∀ more ≥ fuel,
      (eval more (.node Primitive.evalArgs [x])).run (w.withFiles hasFile text) s = .ok (r, s') :=
  have hgrounded : w.registry.Grounded (fun _ => true) fun _ => 0 := fun _ _ d _ =>
    .of_forall (fun _ _ _ _ hfree => Bool.noConfusion hfree) d
  terminates_unless_nested (fun _ _ => rfl) hgrounded hasFile text s bound h

set_option maxRecDepth 4000 in
theorem not_nestsBeyond_crossed (hasFile : String → Bool) (text : String → Except FileError String) :
    ¬ NestsBeyond (fun _ => true) 2 (evalArgsOf "x") (shallow.withFiles hasFile text) crossed := by
  rintro ⟨fuel, h⟩
  have h := h (.unknownFile "")
  -- Nine units of fuel are enough for an outcome.
  rcases fuel with _ | _ | _ | _ | _ | _ | _ | _ | _ | fuel <;> cases h

theorem evalArgs_terminates_crossed :
    let w := shallow.withFiles (fun _ => false) fun path => .error (.notFound path)
    ¬ NestsBeyond (fun _ => true) 2 (evalArgsOf "x") w crossed ∧
      ∃ fuel r s', ∀ more ≥ fuel, (eval more (evalArgsOf "x")).run w crossed = .ok (r, s') :=
  have h := not_nestsBeyond_crossed (fun _ => false) fun path => .error (.notFound path)
  ⟨h, evalArgs_terminates shallow _ _ crossed (.atom "x") 2 h⟩

theorem not_evalArgs_terminates_circular :
    ¬ ∃ fuel r s', (eval fuel (evalArgsOf "x")).run shallow circular = .ok (r, s') := by
  refine no_outcome fun eval h => ?_
  refine inContext_halts ?_ Primitive.evalArgs.name
  -- The value of the variable is found, and its child is evaluated in the same state.
  change (liftM (Rule.execChildren eval (.node Primitive.concat [evalArgsOf "x"])) :
    Evaluation Tree).run shallow circular = _
  exact lift_halts (execChildren_halts h _ [])

/-- An application comes to an end where defaults do not lead back to themselves, unless arguments are
evaluated once more over and over. Applications may be counted with these instead of being ranked. -/
theorem apply_terminates {w : World} {counted : Tree → Bool} {rank : String → Nat}
    (hargs : ∀ t, t.hasTag Primitive.evalArgs → counted t) (hgrounded : w.registry.Grounded counted rank)
    (hasFile : String → Bool) (text : String → Except FileError String) (s : State) (m : String)
    (args : List Tree) (bound : Nat)
    (h : ¬ NestsBeyond counted bound (.node (.user m) args) (w.withFiles hasFile text) s) :
    ∃ fuel r s', ∀ more ≥ fuel,
      (eval more (.node (.user m) args)).run (w.withFiles hasFile text) s = .ok (r, s') :=
  terminates_unless_nested hargs hgrounded hasFile text s bound h

theorem default?_defaulting {m : String} {i : Nat} {d : Tree}
    (h : defaulting.registry.default? m i = some d) :
    m = "k" ∧ i = 1 ∧ d = .atom "done" ∨ m = "m" ∧ i = 0 ∧ d = computed := by
  simp only [defaulting, Registry.default?_setDefault] at h
  split at h
  · next hk => exact .inl ⟨hk.1, hk.2, (Option.some.inj h).symm⟩
  · split at h
    · next hm => exact .inr ⟨hm.1, hm.2, (Option.some.inj h).symm⟩
    · simp [Registry.default?, Registry.entry] at h

theorem not_becomes_computed : ¬ computed.Becomes (call "m") := by
  intro h
  obtain h | ⟨_, _, x, _, hargs, _, h⟩ := Tree.becomes_node.1 h
  · cases h
  cases hargs
  obtain h | ⟨_, _, y, _, hargs, hy, h⟩ := Tree.becomes_node.1 h
  · cases congrArg Tree.children h
  cases hargs
  obtain rfl : y = "x" := hy
  obtain h | ⟨_, _, _, _, hargs, _⟩ := Tree.becomes_node.1 h
  · exact absurd h (by decide)
  · cases hargs

theorem grounded_defaulting :
    defaulting.registry.Grounded (·.hasTag Primitive.evalArgs) fun m => if m = "m" then 1 else 0 := by
  intro m i d hd
  obtain ⟨rfl, -, rfl⟩ | ⟨rfl, -, rfl⟩ := default?_defaulting hd
  · exact .atom "done"
  · refine .node (fun u hu _ m d hfills => ?_) (List.forall_mem_cons.2 ⟨?_, ?_⟩)
    · obtain ⟨n, happlies, i, hi, hd⟩ := hfills
      obtain ⟨rfl, -⟩ | ⟨rfl, rfl, -⟩ := default?_defaulting hd
      · decide
      · obtain rfl := Nat.le_zero.1 hi
        rw [Tree.application?_eq_zero happlies (by decide)] at hu
        exact absurd hu not_becomes_computed
    · exact Registry.fillsOnly_plain rfl (by decide) (List.forall_mem_singleton.2 (.atom "k"))
    · exact List.forall_mem_singleton.2 (.atom "x")

theorem apply_terminates_defaulting :
    let w := defaulting.withFiles (fun _ => false) fun path => .error (.notFound path)
    (defaulting.registry.Grounded (·.hasTag Primitive.evalArgs) fun m => if m = "m" then 1 else 0) ∧
    ¬ NestsBeyond (·.hasTag Primitive.evalArgs) 0 (call "m") w returning ∧
      ∃ fuel r s', ∀ more ≥ fuel, (eval more (call "m")).run w returning = .ok (r, s') := by
  intro w
  have h : ¬ NestsBeyond (·.hasTag Primitive.evalArgs) 0 (call "m") w returning := by
    rintro ⟨fuel, h⟩
    have h := h (.unknownFile "")
    -- Six units of fuel are enough for an outcome.
    rcases fuel with _ | _ | _ | _ | _ | _ | fuel <;> cases h
  exact ⟨grounded_defaulting, h,
    apply_terminates (fun _ => id) grounded_defaulting _ _ returning "m" [] 0 h⟩

theorem not_apply_terminates_selfDefaulting :
    ¬ ∃ fuel r s', (eval fuel (call "m")).run selfDefaulting returning = .ok (r, s') := by
  refine no_outcome fun eval h => ?_
  have hdefault : Rule.defaultArgument eval "m" 0 "a" selfDefaulting returning = .error .outOfFuel :=
    exec_halts h
  have hbind : (Rule.bindFormals eval eval "m" 0 [.atom "a"] [] []).run selfDefaulting returning =
      .error .outOfFuel := by
    change (liftM (Rule.defaultArgument eval "m" 0 "a") >>= fun v =>
      pure (ArgumentFrame.bindAt [] "a" v [0]) : Evaluation ArgumentFrame).run selfDefaulting returning = _
    exact bind_halts (lift_halts hdefault)
  refine inContext_halts ?_ "m"
  -- The frame is bound before the application counts.
  change (Rule.bindFormals eval eval "m" 0 [.atom "a"] [] [] >>= fun frame =>
    withFrame frame (eval (.node Primitive.arg [.atom "a"]))).run selfDefaulting returning = _
  exact bind_halts hbind

end Typesetter

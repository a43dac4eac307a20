import Typesetter.Proofs.Evaluation.Routine
import Typesetter.Proofs.Tree.Every

namespace Typesetter

open Execution Evaluation

variable {ι α β : Type} {eval unguarded : ι → Evaluator} {Calls : Place → Tree → Prop} {p : Place}

namespace Rule

variable {args : List Tree} {eval unguarded : Evaluator}

theorem inContext_inContext (outer inner : String) (m : Evaluation α) :
    inContext outer (inContext inner m) = inContext inner m := by
  funext w s
  change (inContext outer (inContext inner m)).run w s = (inContext inner m).run w s
  rw [inContext_apply, inContext_apply]
  cases m.run w s with
  | error e => rfl
  | ok r =>
    rcases r with ⟨⟨cause, _ | context⟩ | value, s'⟩
    · rfl
    · rfl
    · rfl

theorem inContext_eval (name : String) (fuel : Nat) (t : Tree) :
    inContext name (Typesetter.eval fuel t) = Typesetter.eval fuel t := by
  cases fuel with
  | zero => rfl
  | succ fuel =>
    cases t with
    | atom s => rfl
    | node tag cs => exact inContext_inContext name tag.name _

theorem argumentValue_of_lookup {x : String} {level : Nat} {v : Tree} {w : World} {s : State}
    (h : s.scope.lookup? x = some (level, v)) : (argumentValue eval x).run w s =
      (if v.isDelayed then force eval level v else pure v).run w s := by
  have hbind (k : Option (Nat × Tree) → Evaluation Tree) :
      (liftM (lookupArgument? x) >>= k).run w s = (k (s.scope.lookup? x)).run w s := rfl
  rw [argumentValue, hbind, h]

theorem compound_atom {s : String} (hs : eval (.atom s) = pure (.atom s)) :
    compound eval unguarded (.atom s) args = eval (.node (Tag.ofName s) args) := by
  simp only [compound, operand, hs, pure_bind, Tree.isError, Tree.hasTag, Tree.tag?]
  rfl

theorem step_compound_atom {s : String} (hs : eval (.atom s) = pure (.atom s)) :
    step eval unguarded (.node Primitive.compound (.atom s :: args)) =
      inContext Primitive.compound.name (eval (.node (Tag.ofName s) args)) := by
  rw [← compound_atom hs]
  rfl

end Rule

namespace Routine

theorem report (d : Diagnostic) : Routine eval unguarded Calls p fun _ => Execution.report d :=
  .change (g := fun _ s => ((), s.report d)) (fun _ _ => rfl)
    fun _ s => by simpa using! Change.report (s := s) #[d]

theorem absorb (f : Fault) :
    Routine eval unguarded Calls p fun _ => (modify (·.absorb f) : Execution Unit) := by
  refine .change (g := fun _ s => ((), s.absorb f)) (fun _ _ => rfl) fun _ s => ?_
  simp only [State.absorb]
  cases f.diagnostic? with
  | none => exact .none
  | some d => simpa using! Change.report (s := s) #[d]

theorem write (x : String) (v : Tree) :
    Routine eval unguarded Calls p fun _ => (modify (·.writeLoggedUpdate x v) : Execution Unit) :=
  .change (g := fun _ s => ((), s.writeLoggedUpdate x v)) (fun _ _ => rfl) fun _ _ => .write x v

theorem assign (x : String) (v : Tree) :
    Routine eval unguarded Calls p fun _ => Execution.assign x v := by
  refine .change (g := fun _ s => ((), s.assign x v)) (fun _ _ => rfl) fun _ s => ?_
  by_cases h : s.store.get? x = some v
  · simpa only [State.assign, if_pos h] using .none
  · simpa only [State.assign, if_neg h] using .write x v

theorem absorbing {m : ι → Evaluation Tree} (hm : Procedure eval unguarded Calls p m) :
    Routine eval unguarded Calls p fun i => Execution.absorbing (m i) := by
  refine .bind hm fun r => ?_
  cases r with
  | ok v => exact .pure v
  | error f => exact .bind (.absorb f) fun _ => .pure f.toTree

theorem exec {t : Tree} (h : Calls p t) :
    Routine eval unguarded Calls p fun i => Rule.exec (eval i) t :=
  .absorbing (.call h)

theorem mapM {γ : Type} {m : ι → γ → Execution α} (l : List γ)
    (h : ∀ c ∈ l, Routine eval unguarded Calls p fun i => m i c) :
    Routine eval unguarded Calls p fun i => l.mapM (m i) := by
  induction l with
  | nil => simpa only [List.mapM_nil] using .pure []
  | cons c cs ih =>
    simp only [List.mapM_cons]
    refine .bind (h c List.mem_cons_self) fun a => ?_
    exact .bind (ih fun d hd => h d (List.mem_cons_of_mem c hd)) fun as => .pure (a :: as)

theorem execAll {ts : List Tree} (h : ∀ t ∈ ts, Calls p t) :
    Routine eval unguarded Calls p fun i => Rule.execAll (eval i) ts :=
  .mapM ts fun t ht => .exec (h t ht)

theorem execUnguarded (t : Tree) :
    Routine eval unguarded Calls p fun i => Rule.exec (unguarded i) t :=
  .absorbing (.unguarded t)

theorem execChildrenUnguarded (t : Tree) :
    Routine eval unguarded Calls p fun i => Rule.execChildren (unguarded i) t := by
  cases t with
  | atom s => exact .pure (Tree.atom s)
  | node tag cs =>
    exact .bind (.mapM cs fun t _ => .execUnguarded t) fun vs => .pure (Tree.node tag vs)

end Routine

namespace Procedure

theorem operand {t : Tree} (h : Calls p t) :
    Procedure eval unguarded Calls p fun i => Rule.operand (eval i) t := by
  refine .bind (.call h) fun v => ?_
  by_cases hv : v.isError
  · simpa only [if_pos hv] using .fault _
  · simpa only [if_neg hv] using .success v

theorem mapM {γ : Type} {m : ι → γ → Evaluation α} (l : List γ)
    (h : ∀ c ∈ l, Procedure eval unguarded Calls p fun i => m i c) :
    Procedure eval unguarded Calls p fun i => l.mapM (m i) := by
  induction l with
  | nil => simpa only [List.mapM_nil] using .success []
  | cons c cs ih =>
    simp only [List.mapM_cons]
    refine .bind (h c List.mem_cons_self) fun a => ?_
    exact .bind (ih fun d hd => h d (List.mem_cons_of_mem c hd)) fun as => .success (a :: as)

theorem operands {ts : List Tree} (h : ∀ t ∈ ts, Calls p t) :
    Procedure eval unguarded Calls p fun i => Rule.operands (eval i) ts :=
  .mapM ts fun t ht => .operand (h t ht)

theorem name {t : Tree} (h : Calls p t) :
    Procedure eval unguarded Calls p fun i => Rule.name (eval i) t := by
  cases t with
  | atom s => exact .success s
  | node tag cs =>
    refine .bind (.operand h) fun v => ?_
    cases v with
    | atom s => exact .success s
    | node tag' ds => exact .fault _

theorem integer (op : Primitive) {t : Tree} (h : Calls p t) :
    Procedure eval unguarded Calls p fun i => Rule.integer (eval i) op t := by
  refine .bind (.operand h) fun v => ?_
  cases v.label?.bind fun s => Text.readInteger? (Text.trim s.toList) with
  | some n => exact .success n
  | none => exact .fault _

theorem childOf (op : Primitive) (value : Tree) {index : Tree} (h : Calls p index) :
    Procedure eval unguarded Calls p fun i => Rule.childOf (eval i) op value index := by
  refine .bind (.integer op h) fun n => ?_
  cases value.childAt? n with
  | some c => exact .success c
  | none => exact .fault _

theorem descend (op : Primitive) {indices : List Tree} (h : ∀ t ∈ indices, Calls p t)
    (value : Tree) : Procedure eval unguarded Calls p fun i => Rule.descend (eval i) op value indices := by
  induction indices generalizing value with
  | nil => exact .success value
  | cons index rest ih =>
    refine .bind (.childOf op value (h index List.mem_cons_self)) fun c => ?_
    exact ih (fun t ht => h t (List.mem_cons_of_mem index ht)) c

theorem readVariable (x : String) {f : ι → Tree → Evaluation β}
    (hf : ∀ v, Procedure eval unguarded Calls p fun i => f i v) :
    Procedure eval unguarded Calls p fun i => liftM (Execution.readVariable x) >>= f i :=
  .observe (g := fun _ s => s.store.read x) (fun _ _ => rfl) fun _ _ _ => hf _

theorem lookupArgument (x : String) {f : ι → Option (Nat × Tree) → Evaluation β}
    (hf : ∀ r, (∀ level v, r = some (level, v) → level < p.level) →
      Procedure eval unguarded Calls p fun i => f i r) :
    Procedure eval unguarded Calls p fun i => liftM (Execution.lookupArgument? x) >>= f i := by
  refine .observe (g := fun _ s => s.scope.lookup? x) (fun _ _ => rfl) fun w s hs => ?_
  refine hf _ fun level v h => ?_
  rw [← hs.level]
  exact Scope.lookup?_lt h

theorem quasiquote_both :
    (∀ t : Tree, (∀ u : Tree, u.IsPart t → Calls p u) →
      Procedure eval unguarded Calls p fun i => Rule.quasiquote (eval i) t) ∧
    ∀ ts : List Tree, (∀ t ∈ ts, ∀ u : Tree, u.IsPart t → Calls p u) →
      Procedure eval unguarded Calls p fun i => Rule.quasiquoteList (eval i) ts := by
  refine Rule.quasiquote.mutual_induct _ _ ?atom ?unquoted ?node ?nil ?spliced ?cons
  case atom =>
    intro s _
    exact .success (Tree.atom s)
  case unquoted =>
    intro body rest h
    exact .call (h body (.child List.mem_cons_self .refl))
  case node =>
    intro tag cs hne ih h
    simp only [Rule.quasiquote.eq_3 _ tag cs hne]
    exact .bind (ih fun t ht u hu => h u (.child ht hu)) fun vs => .success (Tree.node tag vs)
  case nil =>
    intro _
    exact .success []
  case spliced =>
    intro body rest cs ih h
    have hcs : Procedure eval unguarded Calls p fun i => Rule.quasiquoteList (eval i) cs :=
      ih fun t ht => h t (List.mem_cons_of_mem _ ht)
    have hbody : Calls p body := h _ List.mem_cons_self body (.child List.mem_cons_self .refl)
    refine .bind (.operand hbody) fun v => ?_
    cases v with
    | atom s => exact .bind (.success [Tree.atom s]) fun spliced => .bind hcs fun vs => .success (spliced ++ vs)
    | node tag ds => exact .bind (.success ds) fun spliced => .bind hcs fun vs => .success (spliced ++ vs)
  case cons =>
    intro c cs hne ihc ih h
    simp only [Rule.quasiquoteList.eq_3 _ c cs hne]
    have hcs := ih fun t ht => h t (List.mem_cons_of_mem c ht)
    exact .bind (ihc (h c List.mem_cons_self)) fun v => .bind hcs fun vs => .success (v :: vs)

theorem quasiquote (t : Tree) (h : ∀ u : Tree, u.IsPart t → Calls p u) :
    Procedure eval unguarded Calls p fun i => Rule.quasiquote (eval i) t :=
  quasiquote_both.1 t h

theorem below {level : Nat} (hl : level < p.level) {m : ι → Evaluation α}
    (hm : Procedure eval unguarded Calls (p.below level) m) :
    Procedure eval unguarded Calls p fun i => Evaluation.below level (m i) :=
  Routine.bracket (.below hl) hm fun i w s => below_apply level (m i) w s

theorem force {level : Nat} (hl : level < p.level) (h : ∀ u, Calls (p.below level) u) (bound : Tree) :
    Procedure eval unguarded Calls p fun i => Rule.force (eval i) level bound := by
  have hquasi (body : Tree) : Procedure eval unguarded Calls p fun i =>
      Evaluation.below level (Rule.quasiquote (eval i) body) :=
    .below hl (.quasiquote body fun u _ => h u)
  cases bound with
  | atom s => exact .success Tree.uninit
  | node tag cs =>
    cases cs with
    | nil =>
      simp only [Rule.force_leaf]
      exact .success Tree.uninit
    | cons body rest =>
      cases tag with
      | user name => exact hquasi body
      | prim q =>
        by_cases hq : q = .delay
        · subst hq
          exact .below hl (.call (h body))
        · simpa only [Rule.force.eq_2 _ _ _ _ _ fun e => hq (Tag.prim.inj e)] using hquasi body

theorem argumentValue (x : String) (h : ∀ level < p.level, ∀ u, Calls (p.below level) u) :
    Procedure eval unguarded Calls p fun i => Rule.argumentValue (eval i) x := by
  refine .lookupArgument x fun r hr => ?_
  match r, hr with
  | none, _ =>
    simpa only [bind_pure] using Procedure.readVariable x (f := fun _ v => pure v) fun v => .success v
  | some (level, bound), hr =>
    by_cases hb : bound.isDelayed
    · simpa only [if_pos hb] using .force (hr level bound rfl) (h level (hr level bound rfl)) bound
    · simpa only [if_neg hb] using .success bound

theorem arg {x : Tree} {indices : List Tree} (hx : Calls p x) (hi : ∀ t ∈ indices, Calls p t)
    (h : ∀ level < p.level, ∀ u, Calls (p.below level) u) :
    Procedure eval unguarded Calls p fun i => Rule.arg (eval i) x indices :=
  .bind (.name hx) fun x => .bind (.argumentValue x h) fun value => .descend .arg hi value

theorem evalArgs {x : Tree} (hx : Calls p x) :
    Procedure eval unguarded Calls p fun i => Rule.evalArgs (eval i) (unguarded i) x := by
  have hchildren (bound : Tree) : Procedure eval unguarded Calls p fun i =>
      liftM (Rule.execChildren (unguarded i) bound) :=
    .lift (.execChildrenUnguarded bound)
  refine .bind (.name hx) fun x => .lookupArgument x fun r _ => ?_
  match r with
  | none => exact .readVariable x hchildren
  | some (level, bound) => exact .bind (.success bound) hchildren

theorem formalName (op : Primitive) (t : Tree) :
    Procedure eval unguarded Calls p fun _ => Rule.formalName op t := by
  cases t with
  | atom s => exact .success s
  | node tag cs => exact .fault _

theorem actual {t : Tree} (h : Calls p t) :
    Procedure eval unguarded Calls p fun i => liftM (Rule.actual (eval i) t) := by
  refine .lift ?_
  by_cases ht : t.isDelayed
  · simpa only [Rule.actual, if_pos ht] using .pure t
  · simpa only [Rule.actual, if_neg ht] using .exec h

theorem defaultArgument (macroName : String) (n : Nat) (formal : String) :
    Procedure eval unguarded Calls p fun i =>
      liftM (Rule.defaultArgument (unguarded i) macroName n formal) := by
  refine .lift (.act (g := fun w s => (w, s)) (fun _ _ => rfl) (fun _ _ => .none) fun w _ _ => ?_)
  dsimp only
  cases w.registry.default? macroName n with
  | some t => exact .execUnguarded t
  | none => exact .bind (.report _) fun _ => .pure Tree.uninit

theorem bindFormals (macroName : String) (formals : List Tree) (n : Nat) (args : List Tree)
    (frame : ArgumentFrame) (h : ∀ t ∈ args, Calls p t) :
    Procedure eval unguarded Calls p fun i =>
      Rule.bindFormals (eval i) (unguarded i) macroName n formals args frame := by
  induction formals generalizing n args frame with
  | nil => exact .success frame
  | cons formal formals ih =>
    refine .bind (.formalName .macroDef formal) fun x => ?_
    cases args with
    | nil => exact .bind (.defaultArgument macroName n x) fun value => ih _ _ _ (List.forall_mem_nil _)
    | cons t args =>
      refine .bind (.actual (h t List.mem_cons_self)) fun value => ?_
      exact ih _ _ _ fun u hu => h u (List.mem_cons_of_mem t hu)

theorem bindVariadic (formals : List Tree) {args : List Tree} (h : ∀ t ∈ args, Calls p t) :
    Procedure eval unguarded Calls p fun i => Rule.bindVariadic (eval i) formals args := by
  cases formals with
  | nil => exact .success []
  | cons formal rest =>
    refine .bind (.formalName .variadicDef formal) fun x => ?_
    exact .bind (.mapM args fun t ht => .actual (h t ht)) fun values => .success _

theorem checkDepth (macroName : String) {f : ι → Unit → Evaluation β}
    (h : p.depth < p.limit → Procedure eval unguarded Calls p fun i => f i ()) :
    Procedure eval unguarded Calls p fun i => Rule.checkDepth macroName >>= f i := by
  let outcome (w : World) (s : State) : Except Fault Unit :=
    if w.settings.maxRecursionDepth ≤ s.depth then
      .error ⟨.recursionLimit w.settings.maxRecursionDepth macroName, none⟩
    else .ok ()
  have hrun (w : World) (s : State) :
      (Rule.checkDepth macroName).run w s = .ok (outcome w s, s) := by
    change (if w.settings.maxRecursionDepth ≤ s.depth then
      Evaluation.fault (.recursionLimit w.settings.maxRecursionDepth macroName)
      else pure () : Evaluation Unit).run w s = _
    by_cases hd : w.settings.maxRecursionDepth ≤ s.depth
    · simp only [outcome, if_pos hd]
      rfl
    · simp only [outcome, if_neg hd]
      rfl
  refine Routine.act (g := fun w s => (outcome w s, s)) (f := fun i => ExceptT.bindCont (f i)) hrun
    (fun _ _ => .none) fun w s hs => ?_
  simp only [outcome, hs.limit, hs.depth]
  by_cases hp : p.limit ≤ p.depth
  · simp only [if_pos hp]
    exact Routine.pure (Except.error _ : Except Fault β)
  · simp only [if_neg hp]
    exact h (Nat.lt_of_not_le hp)

theorem withFrame (hp : p.depth < p.limit) (frame : ArgumentFrame) {m : ι → Evaluation α}
    (hm : Procedure eval unguarded Calls p.entered m) :
    Procedure eval unguarded Calls p fun i => Evaluation.withFrame frame (m i) :=
  Routine.bracket (.frame frame hp) hm fun i w s => withFrame_apply frame (m i) w s

theorem applyDefinition (macroName : String) (definition : Tree) {args : List Tree}
    (h : ∀ t ∈ args, Calls p t) (hbody : p.depth < p.limit → ∀ u, Calls p.entered u) :
    Procedure eval unguarded Calls p fun i =>
      Rule.applyDefinition (eval i) (unguarded i) macroName definition args := by
  refine .checkDepth macroName fun hp => ?_
  match hd : definition.definitionParts? with
  | none => exact .success Tree.uninit
  | some (formals, body) =>
    have hframe (frame : ArgumentFrame) : Procedure eval unguarded Calls p fun i =>
        Evaluation.withFrame frame (eval i body) :=
      .withFrame hp frame (.call (hbody hp body))
    by_cases hv : definition.hasTag Primitive.variadicDef
    · simpa only [if_pos hv] using .bind (.bindVariadic formals h) hframe
    · simpa only [if_neg hv] using .bind (.bindFormals macroName formals 0 args [] h) hframe

end Procedure

end Typesetter

import Typesetter.Proofs.Evaluation.Operands
import Typesetter.Proofs.SourceView.Tags
/-!
The rule of every form is a routine, and so is a step of evaluation. What is evaluated in the same
place is smaller than the node.
-/

namespace Typesetter

namespace Form

def parts : Form → List Tree
  | itself | rebuilt | quote _ | viewInactive .. => []
  | value t | evalArgs t | quasiquote t | unquote t | provides t | getLabel t | getArity t
  | negation t | length t | isTuple t | includeFile t => [t]
  | apply _ ts | anyOf ts | allOf ts | merge ts | findFile ts | point ts => ts
  | arg t ts | compound t ts | plus t ts | times t ts => t :: ts
  | assign a b | registryProperty a b | oneOf a b | ratio a b | divide a b | modulo a b
  | lookup a b | number a b | equality _ a b | comparison _ a b | whileLoop a b => [a, b]
  | range a b c | translate a b c => [a, b, c]
  | getBinding t u | getAttachment t u | minus t u => t :: u.toList
  | date t u => t.toList ++ u.toList
  | ifThen t u v => t :: u :: v.toList
  | withVars bs t | caseOf bs t => bs.flatMap (fun b => [b.1, b.2]) ++ t.toList

theorem pairs_parts (ts : List Tree) :
    (pairs ts).1.flatMap (fun b => [b.1, b.2]) ++ (pairs ts).2.toList = ts := by
  induction ts using pairs.induct with
  | case1 => rfl
  | case2 t => rfl
  | case3 a b rest ps last h ih => simpa [pairs, h] using ih

theorem pairs_concat {pre : List Tree} (h : pre.length % 2 = 0) (c : Tree) :
    pairs (pre ++ [c]) = ((pairs pre).1, some c) := by
  induction pre using pairs.induct with
  | case1 => rfl
  | case2 t => cases h
  | case3 a b rest ps last hrest ih =>
    have hlength : rest.length % 2 = 0 := by
      simp only [List.length_cons] at h
      omega
    simp only [List.cons_append, pairs, ih hlength]

theorem length_pairs {pre : List Tree} (h : pre.length % 2 = 0) :
    pre.length = 2 * (pairs pre).1.length := by
  induction pre using pairs.induct with
  | case1 => rfl
  | case2 t => cases h
  | case3 a b rest ps last hrest ih =>
    simp only [List.length_cons, pairs] at h ⊢
    have hlength := ih (by omega)
    omega

theorem pairs_even {ts : List Tree} (h : ts.length % 2 = 0) : (pairs ts).2 = none := by
  induction ts using pairs.induct with
  | case1 => rfl
  | case2 t => cases h
  | case3 a b rest ps last hrest ih =>
    have hlength : rest.length % 2 = 0 := by
      simp only [List.length_cons] at h
      omega
    simpa only [pairs, hrest] using ih hlength

theorem isSome_ofPrimitive? (q : Primitive) (cs : List Tree) :
    (ofPrimitive? q cs).isSome = q.arity?.all (·.admits cs.length) := by
  rcases cs with _ | ⟨a, _ | ⟨b, _ | ⟨c, _ | ⟨d, rest⟩⟩⟩⟩ <;> cases q <;> rfl

theorem parts_ofPrimitive? {q : Primitive} {cs : List Tree} {f : Form}
    (h : ofPrimitive? q cs = some f) : f.parts = [] ∨ f.parts = cs := by
  by_cases hw : q = .withVars
  · subst hw
    match cs, h with
    | t :: ts, h =>
      cases Option.some.inj h
      exact .inr (pairs_parts (t :: ts))
  by_cases hc : q = .caseOf
  · subst hc
    match cs, h with
    | a :: b :: rest, h =>
      cases Option.some.inj h
      exact .inr (pairs_parts (a :: b :: rest))
  -- No form but these two looks at more than three children one by one.
  revert h
  rcases cs with _ | ⟨a, _ | ⟨b, _ | ⟨c, _ | ⟨d, rest⟩⟩⟩⟩ <;> cases q
  all_goals
    intro h
    first
    | (cases Option.some.inj h; first | exact .inl rfl | exact .inr rfl)
    | exact absurd h.symm (Option.some_ne_none f)
    | exact absurd rfl hw
    | exact absurd rfl hc

theorem ofPrimitive?_of_ofNode {q : Primitive} {cs : List Tree} {f : Form}
    (h : ofNode (.prim q) cs = .ok f) : ofPrimitive? q cs = some f := by
  simp only [ofNode] at h
  cases hq : ofPrimitive? q cs with
  | none => simp [hq] at h
  | some g =>
    simp only [hq, Except.ok.injEq] at h
    rw [h]

theorem mem_of_parts {q : Primitive} {cs : List Tree} {f : Form} (h : ofPrimitive? q cs = some f) :
    ∀ u ∈ f.parts, u ∈ cs := by
  intro u hu
  rcases parts_ofPrimitive? h with hp | hp
  · rw [hp] at hu
    cases hu
  · exact hp ▸ hu

theorem mem_of_parts_node {tag : Tag} {cs : List Tree} {f : Form} (h : ofNode tag cs = .ok f) :
    ∀ u ∈ f.parts, u ∈ cs := by
  cases tag with
  | user name =>
    cases h
    exact fun u hu => hu
  | prim q => exact mem_of_parts (ofPrimitive?_of_ofNode h)

def IsOf : Form → Tag → List Tree → Prop
  | apply m args, tag, cs => tag = .user m ∧ cs = args
  | compound head args, tag, cs => tag = Primitive.compound ∧ cs = head :: args
  | evalArgs x, tag, cs => tag = Primitive.evalArgs ∧ cs = [x]
  | _, _, _ => True

theorem isOf_ofNode {tag : Tag} {cs : List Tree} {f : Form} (h : ofNode tag cs = .ok f) :
    f.IsOf tag cs := by
  cases tag with
  | user name =>
    cases h
    exact ⟨rfl, rfl⟩
  | prim q =>
    have hq := ofPrimitive?_of_ofNode h
    rcases cs with _ | ⟨a, _ | ⟨b, _ | ⟨c, _ | ⟨d, rest⟩⟩⟩⟩ <;> cases q
    all_goals
      first
      | exact absurd hq.symm (Option.some_ne_none _)
      | (cases Option.some.inj hq; first | exact trivial | exact ⟨rfl, rfl⟩)

end Form

open Execution Evaluation

variable {ι α β : Type} {eval unguarded : ι → Evaluator} {Calls : Place → Tree → Prop} {p : Place}

theorem State.viewInactive_change (s : State) (w : World) (mode : InactiveMode) (t target : Tree) :
    Change s (s.viewInactive w mode t target).2 := by
  obtain ⟨new, h⟩ := SourceView.view_reports (s.sourceView w mode target) t ⟨mode.isBlock, true⟩
    s.diagnostics
  rw [show (s.viewInactive w mode t target).2 = { s with diagnostics := s.diagnostics ++ new } from
    congrArg (fun ds => { s with diagnostics := ds }) h]
  exact .report new

namespace Procedure

/-! Variables -/

theorem value {x : Tree} (hx : Calls p x) :
    Procedure eval unguarded Calls p fun i => Rule.value (eval i) x := by
  refine .bind (.name hx) fun x => ?_
  simpa only [bind_pure] using Procedure.readVariable x (f := fun _ v => pure v) fun v => .success v

theorem assign {x v : Tree} (hx : Calls p x) (hv : Calls p v) :
    Procedure eval unguarded Calls p fun i => Rule.assign (eval i) x v := by
  refine .bind (.name hx) fun x => .bind (.operand hv) fun v => ?_
  exact .bind (.lift (.assign x v)) fun _ => .success _

theorem binding (x : String) (v : Tree) {m : ι → Evaluation α}
    (hm : Procedure eval unguarded Calls p m) :
    Procedure eval unguarded Calls p fun i => Evaluation.binding x v (m i) :=
  Routine.bracket (.binding x v) hm fun i w s => binding_apply x v (m i) w s

theorem bindingsThen {body : Tree} (hbody : Calls p body) {bindings : List (Tree × Tree)}
    (h : ∀ b ∈ bindings, Calls p b.1 ∧ Calls p b.2) :
    Procedure eval unguarded Calls p fun i => Rule.bindingsThen (eval i) body bindings := by
  induction bindings with
  | nil => exact .bind (.lift (.exec hbody)) fun v => .success [v]
  | cons b rest ih =>
    obtain ⟨hx, hv⟩ := h b List.mem_cons_self
    have hrest := ih fun c hc => h c (List.mem_cons_of_mem b hc)
    refine .bind (.name hx) fun x => .bind (.lift (.exec hv)) fun v => ?_
    exact .bind (.binding x v hrest) fun out => .success _

theorem withVars {bindings : List (Tree × Tree)} {body : Option Tree}
    (hbody : ∀ t ∈ body, Calls p t) (h : ∀ b ∈ bindings, Calls p b.1 ∧ Calls p b.2) :
    Procedure eval unguarded Calls p fun i => Rule.withVars (eval i) bindings body := by
  cases body with
  | none => exact .fault _
  | some body => exact .bind (.bindingsThen (hbody body rfl) h) fun out => .success _

/-! Queries -/

theorem provides {x : Tree} (hx : Calls p x) :
    Procedure eval unguarded Calls p fun i => Rule.provides (eval i) x :=
  .bind (.name hx) fun x =>
    .observe (g := fun _ s => s.store.provides x) (fun _ _ => rfl) fun _ _ _ => .success _

theorem readWorld {f : ι → World → Evaluation β}
    (hf : ∀ w, Procedure eval unguarded Calls p fun i => f i w) :
    Procedure eval unguarded Calls p fun i => read >>= f i :=
  .observe (g := fun w _ => w) (fun _ _ => rfl) fun w _ _ => hf w

theorem registryProperty {tag property : Tree} (ht : Calls p tag) (hq : Calls p property) :
    Procedure eval unguarded Calls p fun i => Rule.registryProperty (eval i) tag property :=
  .bind (.name ht) fun _ => .bind (.name hq) fun _ => .readWorld fun _ => .success _

theorem entry (value : Tree) {index : Option Tree} (h : ∀ t ∈ index, Calls p t) :
    Procedure eval unguarded Calls p fun i => Rule.entry (eval i) value index := by
  cases index with
  | none => exact .success _
  | some t => exact .childOf .getBinding value (h t rfl)

theorem getBinding {key : Tree} {index : Option Tree} (hk : Calls p key)
    (h : ∀ t ∈ index, Calls p t) :
    Procedure eval unguarded Calls p fun i => Rule.getBinding (eval i) key index := by
  refine .bind (.name hk) fun key => .readWorld fun w => ?_
  cases w.references.binding? key with
  | none => exact .success _
  | some value => exact .entry value h

theorem getAttachment {key : Tree} {index : Option Tree} (hk : Calls p key)
    (h : ∀ t ∈ index, Calls p t) :
    Procedure eval unguarded Calls p fun i => Rule.getAttachment (eval i) key index := by
  refine .bind (.name hk) fun key => .readWorld fun w => ?_
  cases w.references.attachment? key with
  | none => exact .success Tree.uninit
  | some value =>
    cases index with
    | none => exact .success value
    | some t => exact .childOf .getBinding value (h t rfl)

/-! Logic -/

theorem anyOf {ts : List Tree} (h : ∀ t ∈ ts, Calls p t) :
    Procedure eval unguarded Calls p fun i => Rule.anyOf (eval i) ts := by
  induction ts with
  | nil => exact .success _
  | cons t ts ih =>
    refine .bind (.operand (h t List.mem_cons_self)) fun v => ?_
    by_cases hv : v.isTrue
    · simpa only [if_pos hv] using .success (Tree.truth true)
    · simpa only [if_neg hv] using ih fun u hu => h u (List.mem_cons_of_mem t hu)

theorem allOf {ts : List Tree} (h : ∀ t ∈ ts, Calls p t) :
    Procedure eval unguarded Calls p fun i => Rule.allOf (eval i) ts := by
  induction ts with
  | nil => exact .success _
  | cons t ts ih =>
    refine .bind (.operand (h t List.mem_cons_self)) fun v => ?_
    by_cases hv : v.isTrue
    · simpa only [if_pos hv] using ih fun u hu => h u (List.mem_cons_of_mem t hu)
    · simpa only [if_neg hv] using .success (Tree.truth false)

theorem oneOf {a b : Tree} (ha : Calls p a) (hb : Calls p b) :
    Procedure eval unguarded Calls p fun i => Rule.oneOf (eval i) a b :=
  .bind (.operand ha) fun _ => .bind (.operand hb) fun _ => .success _

/-! Arithmetic and comparison -/

theorem readUnits {f : ι → Units → Evaluation β}
    (hf : ∀ u, Procedure eval unguarded Calls p fun i => f i u) :
    Procedure eval unguarded Calls p fun i => liftM Execution.units >>= f i :=
  .observe (g := fun _ s => s.derived.units) (fun _ _ => rfl) fun _ _ _ => hf _

theorem quantity (f : Units → Except Fault Quantity) :
    Procedure eval unguarded Calls p fun _ => Rule.quantity f :=
  .readUnits fun u => .bind (.ofResult (f u)) fun _ => .success _

theorem plus {first : Tree} {rest : List Tree} (hf : Calls p first) (h : ∀ t ∈ rest, Calls p t) :
    Procedure eval unguarded Calls p fun i => Rule.plus (eval i) first rest :=
  .bind (.operand hf) fun _ => .bind (.operands h) fun _ => .quantity _

theorem times {first : Tree} {rest : List Tree} (hf : Calls p first) (h : ∀ t ∈ rest, Calls p t) :
    Procedure eval unguarded Calls p fun i => Rule.times (eval i) first rest :=
  .bind (.operand hf) fun _ => .bind (.operands h) fun _ => .quantity _

theorem minus {a : Tree} {b : Option Tree} (ha : Calls p a) (h : ∀ t ∈ b, Calls p t) :
    Procedure eval unguarded Calls p fun i => Rule.minus (eval i) a b := by
  have hb : Procedure eval unguarded Calls p fun i => b.mapM (Rule.operand (eval i)) := by
    cases b with
    | none => exact .success none
    | some t =>
      simp only [Option.mapM_some, map_eq_pure_bind]
      exact .bind (.operand (h t rfl)) fun v => .success (some v)
  exact .bind (.operand ha) fun _ => .bind hb fun _ => .quantity _

theorem binary (f : Units → Tree → Tree → Except Fault Quantity) {a b : Tree} (ha : Calls p a)
    (hb : Calls p b) : Procedure eval unguarded Calls p fun i => Rule.binary (eval i) f a b :=
  .bind (.operand ha) fun _ => .bind (.operand hb) fun _ => .quantity _

theorem equality (wanted : Bool) {a b : Tree} (ha : Calls p a) (hb : Calls p b) :
    Procedure eval unguarded Calls p fun i => Rule.equality (eval i) wanted a b :=
  .bind (.operand ha) fun _ => .bind (.operand hb) fun _ => .readUnits fun _ => .success _

theorem comparison (r : Relation) {a b : Tree} (ha : Calls p a) (hb : Calls p b) :
    Procedure eval unguarded Calls p fun i => Rule.comparison (eval i) r a b :=
  .bind (.operand ha) fun _ => .bind (.operand hb) fun _ => .readUnits fun _ =>
    .bind (.ofResult _) fun _ => .success _

/-! Strings and tuples -/

theorem merge {ts : List Tree} (h : ∀ t ∈ ts, Calls p t) :
    Procedure eval unguarded Calls p fun i => Rule.merge (eval i) ts :=
  .bind (.operands h) fun _ => .ofResult _

theorem range {t start stop : Tree} (ht : Calls p t) (hi : Calls p start) (hj : Calls p stop) :
    Procedure eval unguarded Calls p fun i => Rule.range (eval i) t start stop :=
  .bind (.operand ht) fun _ => .bind (.integer .range hi) fun _ => .bind (.integer .range hj) fun _ =>
    .success _

theorem lookup {t index : Tree} (ht : Calls p t) (hi : Calls p index) :
    Procedure eval unguarded Calls p fun i => Rule.lookup (eval i) t index :=
  .bind (.operand ht) fun _ => .bind (.integer .lookup hi) fun _ => .ofResult _

theorem number {n style : Tree} (hn : Calls p n) (hs : Calls p style) :
    Procedure eval unguarded Calls p fun i => Rule.number (eval i) n style :=
  .bind (.integer .number hn) fun _ => .bind (.name hs) fun _ =>
    .bind (.ofResult _) fun _ => .success _

theorem discard {m : ι → Evaluation α} (hm : Procedure eval unguarded Calls p m) :
    Procedure eval unguarded Calls p fun i => Functor.discard (m i) := by
  have h : Procedure eval unguarded Calls p fun i => m i >>= fun _ => pure PUnit.unit :=
    .bind hm fun _ => .success _
  simpa only [Functor.discard, LawfulFunctor.map_const, Function.comp_apply, map_eq_pure_bind,
    Function.const_apply] using h

theorem date {format language : Option Tree} (hf : ∀ t ∈ format, Calls p t)
    (hl : ∀ t ∈ language, Calls p t) :
    Procedure eval unguarded Calls p fun i => Rule.date (eval i) format language := by
  have hnow (format : String) : Procedure eval unguarded Calls p fun _ => do
      return Tree.atom (← Evaluation.ofResult (Date.text (← read).today format)) :=
    .readWorld fun _ => .bind (.ofResult _) fun _ => .success _
  cases language with
  | none =>
    cases format with
    | none => exact .bind (.success _) hnow
    | some t => exact .bind (.name (hf t rfl)) hnow
  | some u =>
    cases format with
    | none => exact .bind (.success _) fun format => .bind (.discard (.name (hl u rfl))) fun _ => hnow format
    | some t =>
      refine .bind (.name (hf t rfl)) fun format => ?_
      exact .bind (.discard (.name (hl u rfl))) fun _ => hnow format

theorem translate {text source target : Tree} (ht : Calls p text) (hs : Calls p source)
    (hu : Calls p target) :
    Procedure eval unguarded Calls p fun i => Rule.translate (eval i) text source target :=
  .bind (.name ht) fun _ => .bind (.name hs) fun _ => .bind (.name hu) fun _ =>
    .readWorld fun _ => .success _

/-! Files -/

theorem fileExists (path : String) {f : ι → Bool → Evaluation β}
    (hf : ∀ r, Procedure eval unguarded Calls p fun i => f i r) :
    Procedure eval unguarded Calls p fun i => liftM (Execution.fileExists path) >>= f i :=
  .bind (.lift (.consult path fun _ h => h.hasFile path)) hf

theorem fileText (path : String) {f : ι → Except FileError String → Evaluation β}
    (hf : ∀ r, Procedure eval unguarded Calls p fun i => f i r) :
    Procedure eval unguarded Calls p fun i => liftM (Execution.fileText path) >>= f i :=
  .bind (.lift (.consult path fun _ h => h.text path)) hf

theorem findFile {names : List Tree} (h : ∀ t ∈ names, Calls p t) :
    Procedure eval unguarded Calls p fun i => Rule.findFile (eval i) names := by
  induction names with
  | nil => exact .success Tree.empty
  | cons t ts ih =>
    refine .bind (.name (h t List.mem_cons_self)) fun x => .readWorld fun w => .fileExists _ fun r => ?_
    cases r with
    | true => exact .success _
    | false => exact ih fun u hu => h u (List.mem_cons_of_mem t hu)

theorem deeper (hp : p.depth < p.limit) {m : ι → Evaluation α}
    (hm : Procedure eval unguarded Calls p.descended m) :
    Procedure eval unguarded Calls p fun i => Evaluation.deeper (m i) :=
  Routine.bracket (.deeper hp) hm fun i w s => deeper_apply (m i) w s

theorem includeFile {x : Tree} (hx : Calls p x)
    (h : p.depth < p.limit → ∀ u, Calls p.descended u) :
    Procedure eval unguarded Calls p fun i => Rule.includeFile (eval i) x := by
  refine .bind (.name hx) fun x => .readWorld fun w => .fileText _ fun r => ?_
  cases r with
  | error e => exact .bind (.lift (.report _)) fun _ => .success Tree.empty
  | ok text =>
    dsimp only
    cases Tree.read text with
    | error e => exact .fault _
    | ok tree => exact .checkDepth x fun hp => .deeper hp (.call (h hp tree))

/-! Control -/

theorem ifThen {condition yes : Tree} {no : Option Tree} (hc : Calls p condition)
    (hy : Calls p yes) (hn : ∀ t ∈ no, Calls p t) :
    Procedure eval unguarded Calls p fun i => Rule.ifThen (eval i) condition yes no := by
  refine .bind (.operand hc) fun v => ?_
  by_cases hv : v.isTrue
  · simpa only [if_pos hv] using .call hy
  · simp only [if_neg hv]
    cases no with
    | none => exact .success Tree.empty
    | some t => exact .call (hn t rfl)

theorem caseOf {branches : List (Tree × Tree)} {otherwise : Option Tree}
    (h : ∀ b ∈ branches, Calls p b.1 ∧ Calls p b.2) (ho : ∀ t ∈ otherwise, Calls p t) :
    Procedure eval unguarded Calls p fun i => Rule.caseOf (eval i) otherwise branches := by
  induction branches with
  | nil =>
    cases otherwise with
    | none => exact .success Tree.uninit
    | some t => exact .call (ho t rfl)
  | cons b rest ih =>
    obtain ⟨hc, hr⟩ := h b List.mem_cons_self
    refine .bind (.operand hc) fun v => ?_
    by_cases hv : v.isTrue
    · simpa only [if_pos hv] using .call hr
    · simpa only [if_neg hv] using ih fun c hc => h c (List.mem_cons_of_mem b hc)

theorem rounds (limit : Nat) {condition body : Tree} (hc : Calls p condition) (hb : Calls p body)
    (left : Nat) (results : List Tree) :
    Procedure eval unguarded Calls p fun i => Rule.rounds (eval i) limit condition body left results := by
  induction left generalizing results with
  | zero =>
    refine .bind (.operand hc) fun v => ?_
    by_cases hv : v.isTrue
    · simpa only [if_pos hv] using .fault _
    · simpa only [if_neg hv] using .success results.reverse
  | succ left ih =>
    refine .bind (.operand hc) fun v => ?_
    by_cases hv : v.isTrue
    · simpa only [if_pos hv] using .bind (.lift (.exec hb)) fun r => ih (r :: results)
    · simpa only [if_neg hv] using .success results.reverse

theorem whileLoop {condition body : Tree} (hc : Calls p condition) (hb : Calls p body) :
    Procedure eval unguarded Calls p fun i => Rule.whileLoop (eval i) condition body :=
  .observe (g := fun w _ => w.settings) (fun _ _ => rfl) fun _ _ _ =>
    .bind (.rounds _ hc hb _ []) fun _ => .success _

theorem point {coordinates : List Tree} (h : ∀ t ∈ coordinates, Calls p t) :
    Procedure eval unguarded Calls p fun i => Rule.point (eval i) coordinates :=
  .bind (.operands h) fun _ => .success _

theorem viewInactive (t target : Tree) :
    Procedure eval unguarded Calls p fun _ => Rule.viewInactive t target := by
  refine Routine.change (g := fun w s =>
    (Except.ok (s.viewInactive w s.derived.inactiveMode t target).1,
      (s.viewInactive w s.derived.inactiveMode t target).2)) (fun _ _ => rfl) fun w s => ?_
  exact State.viewInactive_change s w s.derived.inactiveMode t target

/-! Application, and the rules together -/

theorem apply (macroName : String) {args : List Tree} (h : ∀ t ∈ args, Calls p t)
    (hbody : p.depth < p.limit → ∀ u, Calls p.entered u) :
    Procedure eval unguarded Calls p fun i => Rule.apply (eval i) (unguarded i) macroName args := by
  refine .readVariable macroName fun definition => ?_
  by_cases hd : definition.isMacroDef
  · simpa only [if_pos hd] using .applyDefinition macroName definition h hbody
  · simp only [if_neg hd]
    refine .observe (g := fun w _ => w.settings) (fun _ _ => rfl) fun w _ _ => ?_
    by_cases hs : w.settings.strict
    · simpa only [if_pos hs] using .fault _
    · simpa only [if_neg hs] using .bind (.lift (.execAll h)) fun vs => .success _

end Procedure

/-- What a step of evaluation may evaluate: in the same place parts of the tree, or the node that a
compound stands for; elsewhere any tree. -/
structure Place.Admits (p : Place) (Calls : Place → Tree → Prop) (t : Tree) : Prop where
  part : ∀ c ∈ t.children, ∀ u : Tree, u.IsPart c → Calls p u
  named : ∀ head args, t = .node Primitive.compound (head :: args) →
    ∀ s, Calls p (.node (Tag.ofName s) args)
  entered : p.depth < p.limit → ∀ t, Calls p.entered t
  descended : p.depth < p.limit → ∀ t, Calls p.descended t
  below : ∀ level < p.level, ∀ t, Calls (p.below level) t

theorem Place.Admits.of_forall {t : Tree} (h : ∀ q u, Calls q u) : p.Admits Calls t :=
  ⟨fun _ _ u _ => h p u, fun _ _ _ _ => h p _, fun _ => h _, fun _ => h _, fun _ _ => h _⟩

namespace Procedure

theorem compound {head : Tree} {args : List Tree}
    (h : p.Admits Calls (.node Primitive.compound (head :: args))) :
    Procedure eval unguarded Calls p fun i => Rule.compound (eval i) (unguarded i) head args := by
  refine .bind (.operand (h.part head List.mem_cons_self head .refl)) fun definition => ?_
  cases definition with
  | atom s => exact .call (h.named head args rfl s)
  | node tag cs =>
    dsimp only
    by_cases hd : (Tree.node tag cs).isMacroDef
    · have hargs : ∀ t ∈ args, Calls p t := fun t ht => h.part t (List.mem_cons_of_mem head ht) t .refl
      simpa only [if_pos hd] using .applyDefinition _ _ hargs h.entered
    · simpa only [if_neg hd] using .fault _

theorem form {tag : Tag} {cs : List Tree} {f : Form} (h : p.Admits Calls (.node tag cs))
    (hf : Form.ofNode tag cs = .ok f) :
    Procedure eval unguarded Calls p fun i => Rule.form (eval i) (unguarded i) tag cs f := by
  have hcs : ∀ t ∈ cs, Calls p t := fun t ht => h.part t ht t .refl
  have hmem := Form.mem_of_parts_node hf
  have hparts : ∀ t ∈ f.parts, Calls p t := fun t ht => hcs t (hmem t ht)
  -- Where a node has children two by two, they are parts one by one.
  have hpairs (bs : List (Tree × Tree)) (last : Option Tree)
      (h : ∀ t ∈ bs.flatMap (fun b => [b.1, b.2]) ++ last.toList, Calls p t) :
      (∀ b ∈ bs, Calls p b.1 ∧ Calls p b.2) ∧ ∀ t ∈ last, Calls p t := by
    refine ⟨fun b hb => ⟨h b.1 ?_, h b.2 ?_⟩, fun t ht => h t ?_⟩
    · exact List.mem_append_left _ (List.mem_flatMap.2 ⟨b, hb, .head _⟩)
    · exact List.mem_append_left _ (List.mem_flatMap.2 ⟨b, hb, .tail _ (.head _)⟩)
    · exact List.mem_append_right _ (Option.mem_toList.2 ht)
  cases f with
  | itself => exact .success _
  | rebuilt => exact .bind (.lift (.execAll hcs)) fun vs => .success _
  | value x => exact .value (hparts x (.head _))
  | arg x indices => exact .arg (hparts x (.head _)) (fun t ht => hparts t (.tail _ ht)) h.below
  | evalArgs x => exact .evalArgs (hparts x (.head _))
  | quote body => exact .success body
  | quasiquote body =>
    exact .quasiquote body fun u hu => h.part body (hmem body (.head _)) u hu
  | unquote body => exact .call (hparts body (.head _))
  | apply name args => exact .apply name hparts h.entered
  | compound head args =>
    obtain ⟨rfl, rfl⟩ := Form.isOf_ofNode hf
    exact .compound h
  | assign x v => exact .assign (hparts x (.head _)) (hparts v (.tail _ (.head _)))
  | withVars bindings body => exact .withVars (hpairs bindings body hparts).2 (hpairs bindings body hparts).1
  | provides x => exact .provides (hparts x (.head _))
  | registryProperty t q => exact .registryProperty (hparts t (.head _)) (hparts q (.tail _ (.head _)))
  | getLabel t => exact .bind (.operand (hparts t (.head _))) fun _ => .success _
  | getArity t => exact .bind (.operand (hparts t (.head _))) fun _ => .success _
  | getBinding key index =>
    exact .getBinding (hparts key (.head _)) fun t ht => hparts t (.tail _ (Option.mem_toList.2 ht))
  | getAttachment key index =>
    exact .getAttachment (hparts key (.head _)) fun t ht => hparts t (.tail _ (Option.mem_toList.2 ht))
  | anyOf ts => exact .anyOf hparts
  | allOf ts => exact .allOf hparts
  | oneOf a b => exact .oneOf (hparts a (.head _)) (hparts b (.tail _ (.head _)))
  | negation t => exact .bind (.operand (hparts t (.head _))) fun _ => .success _
  | plus first rest => exact .plus (hparts first (.head _)) fun t ht => hparts t (.tail _ ht)
  | minus a b => exact .minus (hparts a (.head _)) fun t ht => hparts t (.tail _ (Option.mem_toList.2 ht))
  | times first rest => exact .times (hparts first (.head _)) fun t ht => hparts t (.tail _ ht)
  | ratio a b => exact .binary Quantity.ratio (hparts a (.head _)) (hparts b (.tail _ (.head _)))
  | divide a b => exact .binary Quantity.divide (hparts a (.head _)) (hparts b (.tail _ (.head _)))
  | modulo a b => exact .binary Quantity.modulo (hparts a (.head _)) (hparts b (.tail _ (.head _)))
  | merge ts => exact .merge hparts
  | length t => exact .bind (.operand (hparts t (.head _))) fun _ => .success _
  | range t start stop =>
    exact .range (hparts t (.head _)) (hparts start (.tail _ (.head _)))
      (hparts stop (.tail _ (.tail _ (.head _))))
  | lookup t index => exact .lookup (hparts t (.head _)) (hparts index (.tail _ (.head _)))
  | isTuple t => exact .bind (.operand (hparts t (.head _))) fun _ => .success _
  | number n style => exact .number (hparts n (.head _)) (hparts style (.tail _ (.head _)))
  | date format language =>
    exact .date (fun t ht => hparts t (List.mem_append_left _ (Option.mem_toList.2 ht)))
      fun t ht => hparts t (List.mem_append_right _ (Option.mem_toList.2 ht))
  | translate text source target =>
    exact .translate (hparts text (.head _)) (hparts source (.tail _ (.head _)))
      (hparts target (.tail _ (.tail _ (.head _))))
  | findFile names => exact .findFile hparts
  | includeFile x => exact .includeFile (hparts x (.head _)) h.descended
  | equality wanted a b => exact .equality wanted (hparts a (.head _)) (hparts b (.tail _ (.head _)))
  | comparison r a b => exact .comparison r (hparts a (.head _)) (hparts b (.tail _ (.head _)))
  | ifThen condition yes no =>
    exact .ifThen (hparts condition (.head _)) (hparts yes (.tail _ (.head _)))
      fun t ht => hparts t (.tail _ (.tail _ (Option.mem_toList.2 ht)))
  | caseOf branches otherwise =>
    exact .caseOf (hpairs branches otherwise hparts).1 (hpairs branches otherwise hparts).2
  | whileLoop condition body =>
    exact .whileLoop (hparts condition (.head _)) (hparts body (.tail _ (.head _)))
  | point coordinates => exact .point hparts
  | viewInactive t target => exact .viewInactive t target

theorem inContext (name : String) {m : ι → Evaluation α}
    (hm : Procedure eval unguarded Calls p m) :
    Procedure eval unguarded Calls p fun i => Evaluation.inContext name (m i) := by
  simp only [Procedure, run_inContext]
  exact .bind hm fun r => .pure _

theorem step {t : Tree} (h : p.Admits Calls t) :
    Procedure eval unguarded Calls p fun i => Rule.step (eval i) (unguarded i) t := by
  cases t with
  | atom s => exact .success (Tree.atom s)
  | node tag cs =>
    refine .inContext tag.name ?_
    cases hf : Form.ofNode tag cs with
    | error e => exact Routine.pure (Except.error e : Except Fault Tree)
    | ok f => exact .form h hf

end Procedure

end Typesetter

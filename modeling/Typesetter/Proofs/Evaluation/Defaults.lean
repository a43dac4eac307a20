import Typesetter.Proofs.Evaluation.Preservation
/-!
Defaults of missing arguments. They are evaluated where the macro is applied, before the application
counts. Which defaults a node may fill in can be told from the node and the registry.
-/

namespace Typesetter

open Execution Evaluation

theorem Registry.default?_setDefault (r : Registry) (tag m : String) (i j : Nat) (v : Tree) :
    (r.setDefault tag i v).default? m j = if m = tag ∧ j = i then some v else r.default? m j := by
  simp only [setDefault, default?, entry, Std.TreeMap.getElem?_insert, Std.LawfulEqCmp.compare_eq_iff_eq]
  by_cases hm : tag = m
  · subst hm
    by_cases hi : j = i
    · simp [hi]
    · have hne : (j == i) = false := by simp [hi]
      simp [hi, List.lookup_cons, hne]
  · simp [hm, Ne.symm hm]

/-- A compound stands for the node that its head names. Any name may come out of a head that is computed. -/
inductive Tree.Becomes : Tree → Tree → Prop
  | refl (t : Tree) : Becomes t t
  | named {head u : Tree} {args : List Tree} {x : String} : head.MayName x →
      Becomes (.node (Tag.ofName x) args) u → Becomes (.node Primitive.compound (head :: args)) u

theorem Tree.becomes_node {tag : Tag} {cs : List Tree} {u : Tree} :
    Becomes (.node tag cs) u ↔ u = .node tag cs ∨ ∃ head args x, tag = Primitive.compound ∧
      cs = head :: args ∧ head.MayName x ∧ Becomes (.node (Tag.ofName x) args) u := by
  constructor
  · intro h
    cases h with
    | refl => exact .inl rfl
    | named hx h => exact .inr ⟨_, _, _, rfl, rfl, hx, h⟩
  · rintro (rfl | ⟨head, args, x, rfl, rfl, hx, h⟩)
    · exact .refl _
    · exact .named hx h

/-- The macro that a node applies itself, and the number of arguments. A definition that comes out of a
head is applied under the name of the compound. -/
def Tree.application? : Tree → Option (String × Nat)
  | .node (.user m) args => some (m, args.length)
  | .node (.prim .compound) (.node .. :: args) => some (Primitive.compound.name, args.length)
  | _ => none

theorem Tree.application?_eq_zero {t : Tree} {m : String} (h : t.application? = some (m, 0))
    (hm : m ≠ Primitive.compound.name) : t = .node (.user m) [] := by
  unfold application? at h
  split at h
  · simp only [Option.some.injEq, Prod.mk.injEq, List.length_eq_zero_iff] at h
    rw [h.1, h.2]
  · simp only [Option.some.injEq, Prod.mk.injEq] at h
    exact absurd h.1.symm hm
  · cases h

def Registry.Fills (r : Registry) (t : Tree) (m : String) (d : Tree) : Prop :=
  ∃ n, t.application? = some (m, n) ∧ ∃ i ≥ n, r.default? m i = some d

/-- The evaluation of the tree may fill in defaults of such macros only, apart from the applications that are
counted. -/
def Registry.FillsOnly (r : Registry) (counted : Tree → Bool) (P : String → Prop) (t : Tree) : Prop :=
  t.Every fun tag cs =>
    ∀ u, Tree.Becomes (.node tag cs) u → counted u = false → ∀ m d, r.Fills u m d → P m

theorem Registry.fillsOnly_plain {r : Registry} {counted : Tree → Bool} {P : String → Prop} {tag : Tag}
    {cs : List Tree} (huser : tag.isUser = false) (hcompound : tag ≠ Primitive.compound)
    (hcs : ∀ c ∈ cs, r.FillsOnly counted P c) : r.FillsOnly counted P (.node tag cs) := by
  refine .node (fun u hu _ m d hfills => ?_) hcs
  obtain ⟨n, happlies, -⟩ := hfills
  obtain rfl | ⟨_, _, _, htag, -⟩ := Tree.becomes_node.1 hu
  · unfold Tree.application? at happlies
    split at happlies
    · next htree =>
      cases htree
      cases huser
    · next htree =>
      cases htree
      exact absurd rfl hcompound
    · cases happlies
  · exact absurd htag hcompound

def Registry.Grounded (r : Registry) (counted : Tree → Bool) (rank : String → Nat) : Prop :=
  ∀ m i d, r.default? m i = some d → r.FillsOnly counted (rank · < rank m) d

def Tree.IsNamed (t : Tree) : Prop := ∃ x args, t = .node Primitive.compound (.atom x :: args)

def Evaluator.only (P : Tree → Prop) [DecidablePred P] (eval : Evaluator) : Evaluator := fun t =>
  if P t then eval t else pure t

variable {α β : Type} {w : World} {eval eval' unguarded unguarded' : Evaluator}

def SameIn (w : World) (m m' : Execution α) : Prop := ∀ s, m w s = m' w s

namespace SameIn

theorem refl (m : Execution α) : SameIn w m m := fun _ => rfl

theorem bind {m m' : Execution α} {f g : α → Execution β} (hm : SameIn w m m')
    (hf : ∀ a, SameIn w (f a) (g a)) : SameIn w (m >>= f) (m' >>= g) := by
  intro s
  rw [bind_apply, bind_apply, hm s]
  cases m' w s with
  | error e => rfl
  | ok r => exact hf r.1 r.2

theorem exec {t : Tree} (h : eval t = eval' t) : SameIn w (Rule.exec eval t) (Rule.exec eval' t) := by
  simp only [Rule.exec, h]
  exact refl _

end SameIn

def Agrees (w : World) (m m' : Evaluation α) : Prop := SameIn w m.run m'.run

namespace Agrees

theorem refl (m : Evaluation α) : Agrees w m m := SameIn.refl _

theorem bind {m m' : Evaluation α} {f g : α → Evaluation β} (hm : Agrees w m m')
    (hf : ∀ a, Agrees w (f a) (g a)) : Agrees w (m >>= f) (m' >>= g) := by
  refine SameIn.bind (f := ExceptT.bindCont f) (g := ExceptT.bindCont g) hm fun r => ?_
  cases r with
  | error e => exact SameIn.refl _
  | ok a => exact hf a

theorem after {m : Evaluation α} {f g : α → Evaluation β} (hf : ∀ a, Agrees w (f a) (g a)) :
    Agrees w (m >>= f) (m >>= g) :=
  (refl m).bind hf

theorem lift {m m' : Execution α} (hm : SameIn w m m') :
    Agrees w (liftM m : Evaluation α) (liftM m') := by
  simp only [Agrees, run_lift]
  exact hm.bind fun _ => SameIn.refl _

theorem inContext (name : String) {m m' : Evaluation α} (hm : Agrees w m m') :
    Agrees w (Evaluation.inContext name m) (Evaluation.inContext name m') := by
  intro s
  rw [inContext_apply, inContext_apply, hm s]

theorem defaultArgument {m : String} {i : Nat}
    (h : ∀ d, w.registry.default? m i = some d → unguarded d = unguarded' d) (x : String) :
    SameIn w (Rule.defaultArgument unguarded m i x) (Rule.defaultArgument unguarded' m i x) := by
  intro s
  have hread : (read : Execution World) w s = .ok (w, s) := rfl
  simp only [Rule.defaultArgument, bind_apply, hread, Except.bind]
  cases hd : w.registry.default? m i with
  | none => rfl
  | some d => exact SameIn.exec (h d hd) s

theorem bindFormals {m : String} (formals : List Tree) {n : Nat} {args : List Tree}
    (h : ∀ i ≥ n + args.length, ∀ d, w.registry.default? m i = some d → unguarded d = unguarded' d)
    (frame : ArgumentFrame) : Agrees w (Rule.bindFormals eval unguarded m n formals args frame)
      (Rule.bindFormals eval unguarded' m n formals args frame) := by
  induction formals generalizing n args frame with
  | nil => exact refl _
  | cons formal formals ih =>
    refine after fun x => ?_
    cases args with
    | nil =>
      have hrest : ∀ i ≥ n + 1, ∀ d, w.registry.default? m i = some d → unguarded d = unguarded' d :=
        fun i hi => h i (Nat.le_of_succ_le hi)
      exact bind (lift (defaultArgument (h n (Nat.le_refl n)) x)) fun value => ih hrest _
    | cons t args =>
      refine after fun value => ih (fun i hi => h i ?_) _
      simp only [List.tail_cons, List.length_cons] at hi ⊢
      omega

theorem applyDefinition {m : String} (definition : Tree) {args : List Tree}
    (h : ∀ i ≥ args.length, ∀ d, w.registry.default? m i = some d → unguarded d = unguarded' d) :
    Agrees w (Rule.applyDefinition eval unguarded m definition args)
      (Rule.applyDefinition eval unguarded' m definition args) := by
  refine after fun _ => ?_
  cases definition.definitionParts? with
  | none => exact refl _
  | some parts =>
    dsimp only
    by_cases hv : definition.hasTag Primitive.variadicDef
    · simp only [if_pos hv]
      exact refl _
    · simp only [if_neg hv]
      exact bind (bindFormals parts.1 (by simpa using h) []) fun frame => refl _

theorem apply {m : String} {args : List Tree}
    (h : ∀ d, w.registry.Fills (.node (.user m) args) m d → unguarded d = unguarded' d) :
    Agrees w (Rule.apply eval unguarded m args) (Rule.apply eval unguarded' m args) := by
  refine after fun definition => ?_
  by_cases hd : definition.isMacroDef
  · simp only [if_pos hd]
    exact applyDefinition definition fun i hi d hdefault =>
      h d ⟨args.length, rfl, i, hi, hdefault⟩
  · simp only [if_neg hd]
    exact refl _

theorem compound {tag : Tag} {cs args : List Tree}
    (h : ∀ m d, w.registry.Fills (.node Primitive.compound (.node tag cs :: args)) m d →
      unguarded d = unguarded' d) : Agrees w (Rule.compound eval unguarded (.node tag cs) args)
      (Rule.compound eval unguarded' (.node tag cs) args) := by
  refine after fun definition => ?_
  cases definition with
  | atom s => exact refl _
  | node tag' ds =>
    dsimp only
    by_cases hd : (Tree.node tag' ds).isMacroDef
    · simp only [if_pos hd]
      exact applyDefinition _ fun i hi d hdefault => h _ d ⟨args.length, rfl, i, hi, hdefault⟩
    · simp only [if_neg hd]
      exact refl _

theorem step {t : Tree} (hargs : ¬ t.hasTag Primitive.evalArgs) (hnamed : ¬ t.IsNamed)
    (h : ∀ m d, w.registry.Fills t m d → unguarded d = unguarded' d) :
    Agrees w (Rule.step eval unguarded t) (Rule.step eval unguarded' t) := by
  cases t with
  | atom s => exact refl _
  | node tag cs =>
    refine inContext tag.name ?_
    cases hf : Form.ofNode tag cs with
    | error e => exact SameIn.refl (Pure.pure (Except.error e : Except Fault Tree))
    | ok f =>
      have hok : (ofResult (.ok f) : Evaluation Form) = Pure.pure f := rfl
      simp only [hok, pure_bind]
      cases f with
      | apply m args =>
        obtain ⟨rfl, rfl⟩ := Form.isOf_ofNode hf
        exact apply (h m)
      | compound head args =>
        obtain ⟨rfl, rfl⟩ := Form.isOf_ofNode hf
        cases head with
        | atom s => exact absurd ⟨s, args, rfl⟩ hnamed
        | node tag cs => exact compound h
      | evalArgs x =>
        obtain ⟨rfl, rfl⟩ := Form.isOf_ofNode hf
        exact absurd rfl hargs
      | _ => exact refl _

end Agrees

end Typesetter

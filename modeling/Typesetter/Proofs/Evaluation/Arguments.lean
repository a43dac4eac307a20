import Typesetter.Proofs.Evaluation.Partial
import Typesetter.Proofs.Text.Numeral
/-!
Arguments one by one and all at once. A macro with a name for each argument and one that takes all arguments
as a tuple are given the same values. They pass on the same value, unless that is a form put off: it is
forced where it has a name of its own and stays as it is in the tuple.
-/

namespace Typesetter

open Execution Evaluation

namespace ArgumentFrame

theorem value?_bind {x : String} {v : Tree} : (bind [] x v).value? x = some v := by
  rw [value?, bind, Listing.get?_insert, if_pos rfl]
  rfl

theorem value?_bindAt (f : ArgumentFrame) (x y : String) (v : Tree) (path : List Nat) :
    (f.bindAt x v path).value? y = if y = x then some v else f.value? y := by
  rw [value?, bindAt, Listing.get?_insert]
  by_cases h : y = x
  · rw [if_pos h, if_pos h]
    rfl
  · rw [if_neg h, if_neg h]
    rfl

def bindAll : Nat → List String → List Tree → ArgumentFrame → ArgumentFrame
  | i, x :: xs, v :: vs, f => bindAll (i + 1) xs vs (f.bindAt x v [i])
  | _, _, _, f => f

theorem value?_bindAll_of_notMem {xs : List String} {x : String} (hx : x ∉ xs) (j : Nat) (vs : List Tree)
    (f : ArgumentFrame) : (bindAll j xs vs f).value? x = f.value? x := by
  induction xs generalizing j vs f with
  | nil => rfl
  | cons y xs ih =>
    cases vs with
    | nil => rfl
    | cons v vs =>
      have hy : x ≠ y := fun h => hx (h ▸ List.mem_cons_self)
      rw [bindAll, ih (fun h => hx (List.mem_cons_of_mem y h)), value?_bindAt, if_neg hy]

theorem value?_bindAll {xs : List String} (hxs : xs.Nodup) {vs : List Tree} {i : Nat} {x : String}
    {v : Tree} (hx : xs[i]? = some x) (hv : vs[i]? = some v) (j : Nat) (f : ArgumentFrame) :
    (bindAll j xs vs f).value? x = some v := by
  induction xs generalizing i j vs f with
  | nil => cases hx
  | cons y xs ih =>
    obtain ⟨hy, hxs⟩ := List.nodup_cons.1 hxs
    cases vs with
    | nil => cases hv
    | cons u vs =>
      cases i with
      | zero =>
        cases hx
        cases hv
        rw [bindAll, value?_bindAll_of_notMem hy, value?_bindAt, if_pos rfl]
      | succ i => exact ih hxs hx hv (j + 1) _

end ArgumentFrame

variable {eval unguarded : Evaluator} {w : World} {s s' : State} {args vs : List Tree}
  {xs : List String} {i level : Nat} {x all : String} {v c : Tree} {fuel : Nat}

theorem mapM_liftM {α β : Type} (f : α → Execution β) (l : List α) :
    (l.mapM fun a => (liftM (f a) : Evaluation β)) = liftM (l.mapM f) := by
  induction l with
  | nil => rfl
  | cons a l ih =>
    simp only [List.mapM_cons, ih, liftM_bind, liftM_pure]

theorem bindFormals_eq (macroName : String) (j : Nat) (h : args.length = xs.length) (f : ArgumentFrame) :
    Rule.bindFormals eval unguarded macroName j (xs.map .atom) args f =
      liftM (args.mapM (Rule.actual eval)) >>= fun vs => pure (ArgumentFrame.bindAll j xs vs f) := by
  induction xs generalizing j args f with
  | nil =>
    obtain rfl := List.eq_nil_of_length_eq_zero h
    rfl
  | cons x xs ih =>
    cases args with
    | nil => cases h
    | cons t args =>
      simp only [List.map_cons, Rule.bindFormals, Rule.formalName, pure_bind, List.mapM_cons, liftM_bind,
        liftM_pure, bind_assoc, List.tail_cons]
      exact bind_congr fun v => ih (j + 1) (Nat.succ.inj h) (f.bindAt x v [j])

theorem bindVariadic_eq (all : String) (rest : List Tree) :
    Rule.bindVariadic eval (.atom all :: rest) args =
      liftM (args.mapM (Rule.actual eval)) >>= fun vs => pure (ArgumentFrame.bind [] all (.tuple vs)) := by
  rw [← mapM_liftM]
  rfl

theorem argumentValue_bound (hlookup : s.scope.lookup? x = some (level, v)) (hv : v.isDelayed = false) :
    (Rule.argumentValue eval x).run w s = .ok (.ok v, s) := by
  rw [Rule.argumentValue_of_lookup hlookup, hv]
  rfl

theorem eval_arg_bound (hlookup : s.scope.lookup? x = some (level, v)) (hv : v.isDelayed = false) :
    (Typesetter.eval (fuel + 1) (.node Primitive.arg [.atom x])).run w s = .ok (.ok v, s) := by
  have harg : (Typesetter.eval (fuel + 1) (.node Primitive.arg [.atom x])).run w s =
      (inContext Primitive.arg.name (Rule.argumentValue (Typesetter.eval fuel) x >>= pure)).run w s := rfl
  rw [harg, bind_pure, inContext_apply, argumentValue_bound hlookup hv]
  rfl

theorem integer_toString (op : Primitive) (hi : (i : Int) ≤ maxInteger) :
    Rule.integer (Typesetter.eval (fuel + 1)) op (.atom (toString i)) = pure (i : Int) := by
  have heval : Rule.operand (Typesetter.eval (fuel + 1)) (.atom (toString i)) =
      pure (.atom (toString i)) := rfl
  rw [Rule.integer, heval, pure_bind]
  simp only [Tree.label?, Option.bind_some, Text.readInteger?_toString hi]

theorem childOf_toString (op : Primitive) (hi : (i : Int) ≤ maxInteger) (hc : v.child? i = some c) :
    Rule.childOf (Typesetter.eval (fuel + 1)) op v (.atom (toString i)) = pure c := by
  have hchild : v.childAt? i = some c := hc
  rw [Rule.childOf, integer_toString op hi, pure_bind]
  simp only [hchild]

theorem eval_arg_child (hlookup : s.scope.lookup? x = some (level, v)) (hv : v.isDelayed = false)
    (hi : (i : Int) ≤ maxInteger) (hc : v.child? i = some c) :
    (Typesetter.eval (fuel + 2) (.node Primitive.arg [.atom x, .atom (toString i)])).run w s =
      .ok (.ok c, s) := by
  have harg : (Typesetter.eval (fuel + 2) (.node Primitive.arg [.atom x, .atom (toString i)])).run w s =
      (inContext Primitive.arg.name (Rule.argumentValue (Typesetter.eval (fuel + 1)) x >>= fun v =>
        Rule.childOf (Typesetter.eval (fuel + 1)) .arg v (.atom (toString i)) >>= pure)).run w s := rfl
  rw [harg, inContext_apply, bind_run_ok (argumentValue_bound hlookup hv), childOf_toString .arg hi hc]
  rfl

namespace Tree

def pickByNumber (all : String) (i : Nat) : Tree :=
  node Primitive.variadicDef [atom all, node Primitive.arg [atom all, atom (toString i)]]

def pickByName (xs : List String) (x : String) : Tree :=
  node Primitive.macroDef (xs.map atom ++ [node Primitive.arg [atom x]])

end Tree

theorem withFrame_eval_arg {frame : ArgumentFrame} (hx : frame.value? x = some v) (hv : v.isDelayed = false) :
    (withFrame frame (Typesetter.eval (fuel + 1) (.node Primitive.arg [.atom x]))).run w s =
      .ok (.ok v, s) := by
  have hlookup : (s.enter frame).scope.lookup? x = some (s.scope.length, v) := by
    simp only [State.enter, Scope.lookup?, hx]
  rw [withFrame_apply, eval_arg_bound hlookup hv]
  rfl

theorem withFrame_eval_arg_child {frame : ArgumentFrame} (hx : frame.value? x = some v)
    (hv : v.isDelayed = false) (hi : (i : Int) ≤ maxInteger) (hc : v.child? i = some c) :
    (withFrame frame (Typesetter.eval (fuel + 2)
      (.node Primitive.arg [.atom x, .atom (toString i)]))).run w s = .ok (.ok c, s) := by
  have hlookup : (s.enter frame).scope.lookup? x = some (s.scope.length, v) := by
    simp only [State.enter, Scope.lookup?, hx]
  rw [withFrame_apply, eval_arg_child hlookup hv hi hc]
  rfl

theorem length_mapM {α β : Type} {f : α → Execution β} {l : List α} {vs : List β}
    (h : (l.mapM f).run w s = .ok (vs, s')) : vs.length = l.length := by
  induction l generalizing s vs with
  | nil =>
    cases h
    rfl
  | cons a l ih =>
    rw [List.mapM_cons] at h
    obtain ⟨b, s₁, _, h⟩ := bind_eq_ok h
    obtain ⟨bs, s₂, hbs, h⟩ := bind_eq_ok h
    cases h
    rw [List.length_cons, List.length_cons, ih hbs]

theorem eval_compound_definition {q : Primitive} {cs : List Tree} (hq : q = .macroDef ∨ q = .variadicDef)
    (hself : Typesetter.eval (fuel + 1) (.node q cs) = pure (.node q cs)) :
    Typesetter.eval (fuel + 2) (.node Primitive.compound (.node q cs :: args)) =
      inContext Primitive.compound.name (Rule.applyDefinition (Typesetter.eval (fuel + 1))
        (Typesetter.eval (fuel + 1)) Primitive.compound.name (.node q cs) args) := by
  have hcompound : Typesetter.eval (fuel + 2) (.node Primitive.compound (.node q cs :: args)) =
      inContext Primitive.compound.name (Rule.compound (Typesetter.eval (fuel + 1))
        (Typesetter.eval (fuel + 1)) (.node q cs) args) := rfl
  rw [hcompound, Rule.compound, Rule.operand, hself]
  rcases hq with rfl | rfl
  · rfl
  · rfl

def Rule.applied (eval : Evaluator) (args : List Tree) (frame : List Tree → ArgumentFrame) (body : Tree) :
    Evaluation Tree := do
  checkDepth Primitive.compound.name
  let vs ← (args.mapM (actual eval) : Execution (List Tree))
  withFrame (frame vs) (eval body)

theorem eval_compound_pickByNumber (all : String) (i : Nat) (args : List Tree) :
    Typesetter.eval (fuel + 2) (.node Primitive.compound (Tree.pickByNumber all i :: args)) =
      inContext Primitive.compound.name (Rule.applied (Typesetter.eval (fuel + 1)) args
        (fun vs => .bind [] all (.tuple vs)) (.node Primitive.arg [.atom all, .atom (toString i)])) := by
  have happly := @eval_compound_definition args fuel .variadicDef
    [.atom all, .node Primitive.arg [.atom all, .atom (toString i)]] (.inr rfl) rfl
  have hbody : Rule.applyDefinition (Typesetter.eval (fuel + 1)) (Typesetter.eval (fuel + 1))
      Primitive.compound.name (Tree.pickByNumber all i) args =
      Rule.checkDepth Primitive.compound.name >>= fun _ =>
        Rule.bindVariadic (Typesetter.eval (fuel + 1)) [.atom all] args >>= fun frame =>
          withFrame frame
            (Typesetter.eval (fuel + 1) (.node Primitive.arg [.atom all, .atom (toString i)])) := rfl
  rw [Tree.pickByNumber, happly, ← Tree.pickByNumber, hbody]
  simp only [bindVariadic_eq, bind_assoc, pure_bind]
  rfl

theorem eval_compound_pickByName (x : String) (h : args.length = xs.length) :
    Typesetter.eval (fuel + 2) (.node Primitive.compound (Tree.pickByName xs x :: args)) =
      inContext Primitive.compound.name (Rule.applied (Typesetter.eval (fuel + 1)) args
        (fun vs => .bindAll 0 xs vs []) (.node Primitive.arg [.atom x])) := by
  have hself : Typesetter.eval (fuel + 1) (Tree.pickByName xs x) = pure (Tree.pickByName xs x) := by
    cases xs <;> rfl
  have hparts : (Tree.pickByName xs x).definitionParts? =
      some (xs.map .atom, .node Primitive.arg [.atom x]) := by
    simp only [Tree.definitionParts?, Tree.pickByName, Tree.children, List.getLast?_concat, Option.map_some,
      List.dropLast_concat]
  have hnamed : (Tree.pickByName xs x).hasTag Primitive.variadicDef = false := rfl
  have happly := @eval_compound_definition args fuel .macroDef _ (.inl rfl) hself
  rw [← Tree.pickByName] at happly
  rw [happly, Rule.applyDefinition]
  simp only [hparts, hnamed, Bool.false_eq_true, if_false, bindFormals_eq _ 0 h, bind_assoc, pure_bind]
  rfl

theorem Execution.bind_congr_of_ok {α β : Type} {m : Execution α} {f g : α → Execution β}
    (h : ∀ a s', m.run w s = .ok (a, s') → (f a).run w s' = (g a).run w s') :
    (m >>= f).run w s = (m >>= g).run w s := by
  rw [Execution.run, Execution.run, Execution.bind_apply, Execution.bind_apply]
  cases hm : m w s with
  | error e => rfl
  | ok r => exact h r.1 r.2 hm

theorem Evaluation.bind_congr_of_ok {α β : Type} {m : Evaluation α} {f g : α → Evaluation β}
    (h : ∀ a s', m.run w s = .ok (.ok a, s') → (f a).run w s' = (g a).run w s') :
    (m >>= f).run w s = (m >>= g).run w s := by
  rw [ExceptT.run_bind, ExceptT.run_bind]
  refine Execution.bind_congr_of_ok fun r s' hr => ?_
  cases r with
  | error e => rfl
  | ok a => exact h a s' hr

theorem checkDepth_eq_ok {macroName : String} (h : (Rule.checkDepth macroName).run w s = .ok (.ok (), s')) :
    s' = s := by
  have hrun : (Rule.checkDepth macroName).run w s =
      (if w.settings.maxRecursionDepth ≤ s.depth then
        Evaluation.fault (.recursionLimit w.settings.maxRecursionDepth macroName)
        else pure () : Evaluation Unit).run w s := rfl
  rw [hrun] at h
  split at h <;> cases h
  rfl

theorem applied_congr {frame frame' : List Tree → ArgumentFrame} {body body' : Tree}
    (h : ∀ vs s₁, (args.mapM (Rule.actual eval)).run w s = .ok (vs, s₁) →
      (withFrame (frame vs) (eval body)).run w s₁ = (withFrame (frame' vs) (eval body')).run w s₁) :
    (Rule.applied eval args frame body).run w s = (Rule.applied eval args frame' body').run w s := by
  refine Evaluation.bind_congr_of_ok fun _ s₀ hs₀ => ?_
  obtain rfl := checkDepth_eq_ok hs₀
  -- The arguments are the same, so only what is done with their values is left to compare.
  rw [run_lift_bind, run_lift_bind]
  exact Execution.bind_congr_of_ok h

theorem exec_congr {t u : Tree}
    (h : (Typesetter.eval fuel t).run w s = (Typesetter.eval fuel u).run w s) :
    (exec fuel t).run w s = (exec fuel u).run w s := by
  change (Typesetter.eval fuel t).run w s >>= _ = (Typesetter.eval fuel u).run w s >>= _
  rw [h]

theorem exec_pick_alike (hxs : xs.Nodup) (hlength : args.length = xs.length) (hx : xs[i]? = some x)
    (hi : (i : Int) ≤ maxInteger)
    (hplain : ∀ vs s₁, (args.mapM (Rule.actual (Typesetter.eval (fuel + 2)))).run w s = .ok (vs, s₁) →
      ∀ v, vs[i]? = some v → v.isDelayed = false) (all : String) :
    (exec (fuel + 3) (.node Primitive.compound (Tree.pickByNumber all i :: args))).run w s =
      (exec (fuel + 3) (.node Primitive.compound (Tree.pickByName xs x :: args))).run w s := by
  refine exec_congr ?_
  rw [eval_compound_pickByNumber, eval_compound_pickByName x hlength, inContext_apply, inContext_apply,
    applied_congr fun vs s₁ hvs => ?_]
  have hlt : i < vs.length := by
    rw [length_mapM hvs, hlength]
    exact (List.getElem?_eq_some_iff.1 hx).1
  have hbound : vs[i]? = some vs[i] := List.getElem?_eq_getElem hlt
  have hname : (ArgumentFrame.bindAll 0 xs vs []).value? x = some vs[i] :=
    ArgumentFrame.value?_bindAll hxs hx hbound 0 []
  have hv : vs[i].isDelayed = false := hplain vs s₁ hvs vs[i] hbound
  have hchild : (Tree.tuple vs).child? i = some vs[i] := hbound
  exact (withFrame_eval_arg_child ArgumentFrame.value?_bind rfl hi hchild).trans
    (withFrame_eval_arg hname hv).symm

theorem exec_pick_alike_assigning :
    let xs := ["x", "y", "z"]
    let args : List Tree :=
      [.node Primitive.minus [], .node Primitive.delay [.node Primitive.value [.atom "n"]],
        .node Primitive.assign [.atom "n", .atom "1"]]
    let s := State.fresh 600 default
    xs.Nodup ∧ args.length = xs.length ∧ xs[2]? = some "z" ∧ ((2 : Nat) : Int) ≤ maxInteger ∧
      (∀ vs s₁, (args.mapM (Rule.actual (Typesetter.eval 3))).run { base := "" } s = .ok (vs, s₁) →
        ∀ v, vs[2]? = some v → v.isDelayed = false) ∧
      ∃ v s', (exec 4 (.node Primitive.compound (Tree.pickByNumber "all" 2 :: args))).run { base := "" } s =
          .ok (v, s') ∧
        (exec 4 (.node Primitive.compound (Tree.pickByName xs "z" :: args))).run { base := "" } s =
          .ok (v, s') ∧ s'.store.get? "n" = some (.atom "1") := by
  intro xs args s
  have hxs : xs.Nodup := by decide
  have hi : ((2 : Nat) : Int) ≤ maxInteger := by decide
  have hplain (vs : List Tree) (s₁ : State)
      (hvs : (args.mapM (Rule.actual (Typesetter.eval 3))).run { base := "" } s = .ok (vs, s₁)) (v : Tree)
      (hv : vs[2]? = some v) : v.isDelayed = false := by
    cases hvs
    cases hv
    rfl
  have halike := @exec_pick_alike { base := "" } s args xs 2 "z" 1 hxs rfl rfl hi hplain "all"
  exact ⟨hxs, rfl, rfl, hi, hplain, _, _, halike.trans rfl, rfl, rfl⟩

theorem not_exec_pick_alike_delayed :
    let args : List Tree := [.node Primitive.delay [.node Primitive.value [.atom "n"]]]
    let s := (State.fresh 600 default).write "n" (.atom "1")
    ∃ v v' s',
      (exec 4 (.node Primitive.compound (Tree.pickByNumber "all" 0 :: args))).run { base := "" } s =
        .ok (v, s') ∧
      (exec 4 (.node Primitive.compound (Tree.pickByName ["x"] "x" :: args))).run { base := "" } s =
        .ok (v', s') ∧
      v = .node Primitive.delay [.node Primitive.value [.atom "n"]] ∧ v' = .atom "1" ∧ v ≠ v' := by
  intro args s
  exact ⟨_, _, _, rfl, rfl, rfl, rfl, by decide⟩

end Typesetter

import Typesetter.Proofs.Document.WriteBack
import Typesetter.Proofs.Evaluation.Partial

namespace Typesetter

open Execution

variable {eval : Evaluator} {w : World} {body : Tree} {bs : List (Tree × Tree)} {cs : List Tree}
  {made : Listing State} {s t s' : State}

/-- How bindings are made and a body is evaluated under them. Every binding that comes about is recorded
with the state just before it; the last state is the one in which the bindings are still in force. -/
inductive Binds (eval : Evaluator) (w : World) (body : Tree) :
    List (Tree × Tree) → State → Listing State → State → Except Fault (List Tree) → Prop
  | body {s t : State} {v : Tree} :
      (Rule.exec eval body).run w s = .ok (v, t) → Binds eval w body [] s [] t (.ok [v])
  | unnamed {x u : Tree} {bs : List (Tree × Tree)} {s t : State} {f : Fault} :
      (Rule.name eval x).run w s = .ok (.error f, t) → Binds eval w body ((x, u) :: bs) s [] t (.error f)
  | binding {x u v : Tree} {bs : List (Tree × Tree)} {s s₁ s₂ t : State} {y : String}
      {made : Listing State} {r : Except Fault (List Tree)} :
      (Rule.name eval x).run w s = .ok (.ok y, s₁) → (Rule.exec eval u).run w s₁ = .ok (v, s₂) →
      Binds eval w body bs (s₂.writeLoggedUpdate y v) made t r →
      Binds eval w body ((x, u) :: bs) s ((y, s₂) :: made) t (r.map (.atom y :: v :: ·))

namespace State

def takeBack (t : State) (made : Listing State) : State :=
  made.foldr (fun e t => t.putBack e.1 (e.2.store.get? e.1)) t

theorem get?_takeBack (t : State) (made : Listing State) (x : String) :
    (t.takeBack made).store.get? x = (made.get? x).elim (t.store.get? x) (·.store.get? x) := by
  induction made with
  | nil => rfl
  | cons e made ih =>
    obtain ⟨y, before⟩ := e
    change ((t.takeBack made).store.put y (before.store.get? y)).get? x = _
    rw [Store.get?_put, Listing.get?_cons]
    by_cases hy : y = x
    · rw [if_pos hy, if_pos hy.symm, hy]
      rfl
    · rw [if_neg hy, if_neg (Ne.symm hy), ih]

end State

theorem Binds.of_bindingsThen {r : Except Fault (List Tree)}
    (h : (Rule.bindingsThen eval body bs).run w s = .ok (r, s')) :
    ∃ made t, Binds eval w body bs s made t r ∧ s' = t.takeBack made := by
  induction bs generalizing s s' r with
  | nil =>
    rw [bindingsThen_nil] at h
    obtain ⟨v, t, hv, h⟩ := bind_eq_ok h
    cases h
    exact ⟨[], _, .body hv, rfl⟩
  | cons b bs ih =>
    obtain ⟨x, u⟩ := b
    rw [Rule.bindingsThen] at h
    obtain ⟨f, hname, rfl⟩ | ⟨y, s₁, hname, h⟩ := Evaluation.bind_eq_ok h
    · exact ⟨[], s', .unnamed hname, rfl⟩
    rw [Evaluation.run_lift_bind] at h
    obtain ⟨v, s₂, hv, h⟩ := bind_eq_ok h
    obtain ⟨f, hbound, rfl⟩ | ⟨out, s₃, hbound, h⟩ := Evaluation.bind_eq_ok h
    · obtain ⟨t₁, hrest, rfl⟩ := Evaluation.binding_eq_ok hbound
      obtain ⟨made, t, hbinds, rfl⟩ := ih hrest
      exact ⟨(y, s₂) :: made, t, .binding hname hv hbinds, rfl⟩
    · cases h
      obtain ⟨t₁, hrest, rfl⟩ := Evaluation.binding_eq_ok hbound
      obtain ⟨made, t, hbinds, rfl⟩ := ih hrest
      exact ⟨(y, s₂) :: made, t, .binding hname hv hbinds, rfl⟩

/-- The evaluation of a node with these children up to the point where bindings are taken back. Without a
body there is no evaluation. -/
def BindsIn (eval : Evaluator) (w : World) (cs : List Tree) (s : State) (made : Listing State) (t : State)
    (r : Except Fault (List Tree)) : Prop :=
  match Form.pairs cs with
  | (bs, some body) => Binds eval w body bs s made t r
  | (_, none) => made = [] ∧ t = s ∧ ∃ f, r = .error f

theorem BindsIn.of_form {r : Except Fault Tree}
    (h : (Evaluation.ofResult (Form.ofNode Primitive.withVars cs) >>=
      Rule.form eval eval Primitive.withVars cs).run w s = .ok (r, s')) :
    ∃ made t out, BindsIn eval w cs s made t out ∧ r = out.map (.node Primitive.withVars) ∧
      s' = t.takeBack made := by
  cases cs with
  | nil =>
    cases h
    exact ⟨[], s, .error _, ⟨rfl, rfl, _, rfl⟩, rfl, rfl⟩
  | cons a cs =>
    change (Rule.withVars eval (Form.pairs (a :: cs)).1 (Form.pairs (a :: cs)).2).run w s = _ at h
    unfold BindsIn
    generalize Form.pairs (a :: cs) = split at h ⊢
    obtain ⟨bs, body?⟩ := split
    cases body? with
    | none =>
      cases h
      exact ⟨[], s, .error _, ⟨rfl, rfl, _, rfl⟩, rfl, rfl⟩
    | some body =>
      obtain ⟨f, hrun, rfl⟩ | ⟨out, t₁, hrun, h⟩ := Evaluation.bind_eq_ok h
      · obtain ⟨made, t, hbinds, rfl⟩ := Binds.of_bindingsThen hrun
        exact ⟨made, t, .error f, hbinds, rfl, rfl⟩
      · cases h
        obtain ⟨made, t, hbinds, rfl⟩ := Binds.of_bindingsThen hrun
        exact ⟨made, t, .ok out, hbinds, rfl, rfl⟩

theorem eval_withVars_restores {fuel : Nat} {r : Except Fault Tree}
    (h : (Typesetter.eval (fuel + 1) (.node Primitive.withVars cs)).run w s = .ok (r, s')) :
    ∃ made t out, BindsIn (Typesetter.eval fuel) w cs s made t out ∧
      r = (out.map (.node Primitive.withVars)).mapError (·.inContext Primitive.withVars.name) ∧
      ∀ x, s'.store.get? x = (made.get? x).elim (t.store.get? x) (·.store.get? x) := by
  change (Evaluation.inContext _ (Evaluation.ofResult (Form.ofNode _ cs) >>= _)).run w s = _ at h
  rw [run_inContext] at h
  obtain ⟨q, s₁, hrun, h⟩ := bind_eq_ok h
  cases h
  obtain ⟨made, t, out, hbinds, rfl, rfl⟩ := BindsIn.of_form hrun
  exact ⟨made, t, out, hbinds, rfl, t.get?_takeBack made⟩

def rebinding : List Tree :=
  [.atom "x", .atom "1", .atom "x", .node Primitive.assign [.atom "y", .node Primitive.value [.atom "x"]],
    .node Primitive.tuple [.atom "bad"], .atom "2", .atom "body"]

theorem eval_withVars_restores_rebinding : ∃ f s',
    (Typesetter.eval 5 (.node Primitive.withVars rebinding)).run { base := "" }
      ((State.fresh 600 default).write "x" (.atom "0")) = .ok (.error f, s') ∧
    s'.store.get? "x" = some (.atom "0") ∧ s'.store.get? "y" = some (.atom "1") ∧
    ∃ made t out, BindsIn (Typesetter.eval 4) { base := "" } rebinding
        ((State.fresh 600 default).write "x" (.atom "0")) made t out ∧
      ∀ x, s'.store.get? x = (made.get? x).elim (t.store.get? x) (·.store.get? x) := by
  obtain ⟨made, t, out, hbinds, _, hget⟩ := @eval_withVars_restores { base := "" } rebinding
    ((State.fresh 600 default).write "x" (.atom "0")) _ 4 _ rfl
  exact ⟨_, _, rfl, rfl, rfl, made, t, out, hbinds, hget⟩

end Typesetter

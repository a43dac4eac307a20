import Typesetter.Proofs.Evaluation.Fuel
import Typesetter.Session.Environment

namespace Typesetter

open Execution

namespace Tree

def replaceAt : Tree → Tree → List Nat → Tree
  | _, u, [] => u
  | t, u, i :: path => t.withChildren (t.children.modify i fun c => c.replaceAt u path)

/-- Ways through documents and concatenations, and into the bodies of bindings whose names are written
out. -/
inductive Straight : Tree → List Nat → Prop
  | here (t : Tree) : Straight t []
  | part {tag : Tag} {cs : List Tree} {i : Nat} {c : Tree} {path : List Nat} :
      tag = Primitive.document ∨ tag = Primitive.concat → cs[i]? = some c → Straight c path →
      Straight (.node tag cs) (i :: path)
  | body {cs : List Tree} {i : Nat} {c : Tree} {path : List Nat} :
      cs.length % 2 = 1 → (∀ b ∈ (Form.pairs cs).1, b.1.isAtom) → i + 1 = cs.length →
      cs[i]? = some c → Straight c path → Straight (.node Primitive.withVars cs) (i :: path)

end Tree

variable {eval : Evaluator} {w : World} {s s₁ s' : State} {fuel more : Nat} {tag : Tag}
  {cs pre post : List Tree} {bs : List (Tree × Tree)} {t c v : Tree} {α β : Type}

theorem exists_split {i : Nat} (h : cs[i]? = some c) :
    ∃ pre post, cs = pre ++ c :: post ∧ pre.length = i := by
  obtain ⟨hi, rfl⟩ := List.getElem?_eq_some_iff.1 h
  refine ⟨cs.take i, cs.drop (i + 1), ?_, List.length_take_of_le (Nat.le_of_lt hi)⟩
  rw [← List.drop_eq_getElem_cons hi, List.take_append_drop]

theorem modify_split (f : Tree → Tree) :
    (pre ++ c :: post).modify pre.length f = pre ++ f c :: post := by
  induction pre with
  | nil => rfl
  | cons d pre ih => exact congrArg (d :: ·) ih

theorem Tree.replaceAt_nil (t u : Tree) : t.replaceAt u [] = u := by rw [replaceAt]

theorem Tree.replaceAt_split (u : Tree) (path : List Nat) :
    (node tag (pre ++ c :: post)).replaceAt u (pre.length :: path) =
      node tag (pre ++ c.replaceAt u path :: post) := by
  simp only [replaceAt, children, modify_split, withChildren]

theorem Tree.subtree?_cons {i : Nat} (h : cs[i]? = some c) (path : List Nat) :
    (node tag cs).subtree? (i :: path) = c.subtree? path := by
  simp only [subtree?, child?, children, h, Option.bind_some]

namespace Form

theorem ofNode_rebuilt (htag : tag = Primitive.document ∨ tag = Primitive.concat) (cs : List Tree) :
    ofNode tag cs = .ok rebuilt := by
  rcases htag with rfl | rfl <;> rfl

theorem ofNode_withVars (h : pre.length % 2 = 0) (c : Tree) :
    ofNode Primitive.withVars (pre ++ [c]) = .ok (withVars (pairs pre).1 (some c)) := by
  cases pre with
  | nil => rfl
  | cons a pre =>
    change Except.ok (withVars (pairs (a :: pre ++ [c])).1 (pairs (a :: pre ++ [c])).2) = _
    rw [pairs_concat h]

end Form

/-! What the evaluation of the whole tree does -/

namespace Evaluation

theorem run_lift_bind (m : Execution α) (f : α → Evaluation β) :
    ((liftM m : Evaluation α) >>= f).run = m >>= fun a => (f a).run := by
  simp only [ExceptT.run_bind, ExceptT.run_liftM, bind_map_left]

theorem bind_run_error {f : Fault} {m : Evaluation α} {g : α → Evaluation β}
    (h : m.run w s = .ok (.error f, s₁)) : (m >>= g).run w s = .ok (.error f, s₁) := by
  rw [ExceptT.run_bind]
  change Except.bind (m.run w s) _ = _
  rw [h]
  rfl

theorem bind_run_ok {m : Evaluation α} {g : α → Evaluation β} {a : α}
    (h : m.run w s = .ok (.ok a, s₁)) : (m >>= g).run w s = (g a).run w s₁ := by
  rw [ExceptT.run_bind]
  change Except.bind (m.run w s) _ = _
  rw [h]
  rfl

theorem lift_bind_run_ok {m : Execution α} {g : α → Evaluation β} {a : α}
    (h : m.run w s = .ok (a, s₁)) : ((liftM m : Evaluation α) >>= g).run w s = (g a).run w s₁ := by
  rw [run_lift_bind]
  change Except.bind (m.run w s) _ = _
  rw [h]
  rfl

theorem bind_eq_ok {m : Evaluation α} {f : α → Evaluation β} {r : Except Fault β}
    (h : (m >>= f).run w s = .ok (r, s')) :
    (∃ g, m.run w s = .ok (.error g, s') ∧ r = .error g) ∨
      ∃ a t, m.run w s = .ok (.ok a, t) ∧ (f a).run w t = .ok (r, s') := by
  rw [ExceptT.run_bind] at h
  obtain ⟨q, t, hm, hf⟩ := Execution.bind_eq_ok h
  cases q with
  | error g =>
    cases hf
    exact .inl ⟨g, hm, rfl⟩
  | ok a => exact .inr ⟨a, t, hm, hf⟩

theorem binding_eq_ok {x : String} {m : Evaluation α} {r : Except Fault α}
    (h : (binding x v m).run w s = .ok (r, s')) :
    ∃ s₁, m.run w (s.writeLoggedUpdate x v) = .ok (r, s₁) ∧ s' = s₁.putBack x (s.store.get? x) := by
  rw [binding_apply] at h
  exact @Bracket.eq_ok _ (·.writeLoggedUpdate x v) (fun s t => t.putBack x (s.store.get? x)) _ _ _ _ _ h

end Evaluation

theorem eval_form {f : Form} (hf : Form.ofNode tag cs = .ok f) :
    Typesetter.eval (fuel + 1) (.node tag cs) = Evaluation.inContext tag.name
      (Rule.form (Typesetter.eval fuel) (Typesetter.eval fuel) tag cs f) := by
  have heval : Typesetter.eval (fuel + 1) (.node tag cs) = Evaluation.inContext tag.name
      (Evaluation.ofResult (Form.ofNode tag cs) >>=
        Rule.form (Typesetter.eval fuel) (Typesetter.eval fuel) tag cs) := rfl
  have hresult : (Evaluation.ofResult (.ok f) : Evaluation Form) = pure f := rfl
  rw [heval, hf, hresult, pure_bind]

theorem exec_form {f : Form} (hf : Form.ofNode tag cs = .ok f)
    (h : (exec (fuel + 1) (.node tag cs)).run w s = .ok (v, s')) :
    ∃ r s₁, (Rule.form (Typesetter.eval fuel) (Typesetter.eval fuel) tag cs f).run w s = .ok (r, s₁) ∧
      ∀ u, r = .ok u → v = u := by
  change Except.bind (Except.map _ ((Evaluation.ofResult (Form.ofNode tag cs) >>=
    Rule.form (Typesetter.eval fuel) (Typesetter.eval fuel) tag cs).run w s)) _ = _ at h
  rw [hf] at h
  change Except.bind (Except.map _
    ((Rule.form (Typesetter.eval fuel) (Typesetter.eval fuel) tag cs f).run w s)) _ = _ at h
  cases hrun : (Rule.form (Typesetter.eval fuel) (Typesetter.eval fuel) tag cs f).run w s with
  | error e =>
    rw [hrun] at h
    cases h
  | ok q =>
    rw [hrun] at h
    refine ⟨q.1, q.2, rfl, fun u hu => ?_⟩
    obtain ⟨r, s₁⟩ := q
    cases hu
    cases h
    rfl

theorem exec_rebuilt (htag : tag = Primitive.document ∨ tag = Primitive.concat)
    (h : (exec (fuel + 1) (.node tag cs)).run w s = .ok (v, s')) :
    ∃ vs s₁, Rule.execAll (Typesetter.eval fuel) cs w s = .ok (vs, s₁) ∧ v = .node tag vs := by
  obtain ⟨r, s₁, hrun, hv⟩ := exec_form (Form.ofNode_rebuilt htag cs) h
  rw [Rule.form, Evaluation.run_lift_bind] at hrun
  obtain ⟨vs, s₂, hvs, hr⟩ := bind_eq_ok hrun
  cases hr
  exact ⟨vs, s₁, hvs, hv _ rfl⟩

theorem exec_withVars (heven : pre.length % 2 = 0)
    (h : (exec (fuel + 1) (.node Primitive.withVars (pre ++ [c]))).run w s = .ok (v, s')) :
    ∃ r s₁, (Rule.bindingsThen (Typesetter.eval fuel) c (Form.pairs pre).1).run w s = .ok (r, s₁) ∧
      ∀ out, r = .ok out → v = .node Primitive.withVars out := by
  obtain ⟨r, s₁, hrun, hv⟩ := exec_form (Form.ofNode_withVars heven c) h
  rw [Rule.form, Rule.withVars, ExceptT.run_bind] at hrun
  obtain ⟨q, s₂, hq, hr⟩ := bind_eq_ok hrun
  refine ⟨q, s₂, hq, fun out hout => ?_⟩
  subst hout
  cases hr
  exact hv _ rfl

theorem execAll_append {vs : List Tree} (h : Rule.execAll eval (pre ++ c :: post) w s = .ok (vs, s')) :
    ∃ us s₁ u s₂ rest, Rule.execAll eval pre w s = .ok (us, s₁) ∧
      Rule.exec eval c w s₁ = .ok (u, s₂) ∧ vs = us ++ u :: rest ∧ us.length = pre.length := by
  induction pre generalizing s vs with
  | nil =>
    simp only [List.nil_append, Rule.execAll, List.mapM_cons] at h
    obtain ⟨u, s₂, hu, h⟩ := bind_eq_ok h
    obtain ⟨rest, _, _, h⟩ := bind_eq_ok h
    cases h
    exact ⟨[], s, u, s₂, rest, rfl, hu, rfl, rfl⟩
  | cons d pre ih =>
    simp only [List.cons_append, Rule.execAll, List.mapM_cons] at h
    obtain ⟨x, s₀, hx, h⟩ := bind_eq_ok h
    obtain ⟨xs, _, hxs, h⟩ := bind_eq_ok h
    cases h
    obtain ⟨us, s₁, u, s₂, rest, hus, hu, rfl, hlength⟩ := ih hxs
    refine ⟨x :: us, s₁, u, s₂, rest, ?_, hu, rfl, congrArg (· + 1) hlength⟩
    rw [Rule.execAll, List.mapM_cons, bind_apply, hx]
    change Except.bind (Rule.execAll eval pre w s₀) _ = _
    rw [hus]
    rfl

theorem bindingsThen_nil (body : Tree) :
    (Rule.bindingsThen eval body []).run = Rule.exec eval body >>= fun v => pure (.ok [v]) := by
  rw [Rule.bindingsThen, Evaluation.run_lift_bind]
  rfl

theorem bindingsThen_cons (x : String) (v body : Tree) (bs : List (Tree × Tree)) :
    (Rule.bindingsThen eval body ((.atom x, v) :: bs)).run =
      Rule.exec eval v >>= fun v => (Evaluation.binding x v (Rule.bindingsThen eval body bs)).run >>=
        fun r => pure (r.map (.atom x :: v :: ·)) := by
  rw [Rule.bindingsThen, Rule.name, pure_bind, Evaluation.run_lift_bind]
  refine bind_congr fun v => ?_
  rw [ExceptT.run_bind]
  refine bind_congr fun r => ?_
  cases r <;> rfl

/-! What evaluation up to the position does -/

def Leads (m : Execution α) (w : World) (s s' : State) : Prop := ∃ a, m w s = .ok (a, s')

namespace Leads

theorem pure (a : α) (w : World) (s : State) : Leads (Pure.pure a) w s s := ⟨a, rfl⟩

theorem step {m : Execution α} {f : α → Execution β} {a : α} (hm : m w s = .ok (a, s₁))
    (hf : Leads (f a) w s₁ s') : Leads (m >>= f) w s s' := by
  obtain ⟨b, hb⟩ := hf
  refine ⟨b, ?_⟩
  rw [bind_apply, hm]
  exact hb

theorem discard {m : Execution α} {a : α} (hm : m w s = .ok (a, s')) :
    Functor.discard m w s = .ok (PUnit.unit, s') := by
  change Except.map _ (m w s) = _
  rw [hm]
  rfl

theorem passBy {eval' : Evaluator} (he : Extends eval eval') {vs : List Tree}
    (h : Rule.execAll eval pre w s = .ok (vs, s')) : Leads (Position.passBy eval' none pre) w s s' := by
  induction pre generalizing s vs with
  | nil =>
    cases h
    exact .pure false w _
  | cons d pre ih =>
    simp only [Rule.execAll, List.mapM_cons] at h
    obtain ⟨x, s₀, hx, h⟩ := bind_eq_ok h
    obtain ⟨xs, _, hxs, h⟩ := bind_eq_ok h
    cases h
    obtain ⟨b, hb⟩ := ih hxs
    exact .step (a := s) rfl (.step (discard (he.exec hx)) (.step hb (.pure _ w _)))

theorem bindings {body : Tree} (hbs : ∀ b ∈ bs, b.1.isAtom) {r : Except Fault (List Tree)}
    (h : (Rule.bindingsThen (Typesetter.eval fuel) body bs).run w s = .ok (r, s')) :
    ∃ out s₁ v s₂, r = .ok out ∧
      (∀ more, fuel < more → Leads (Position.bind (Typesetter.eval more) none bs) w s s₁) ∧
      (exec fuel body).run w s₁ = .ok (v, s₂) ∧ out[2 * bs.length]? = some v := by
  induction bs generalizing s s' r with
  | nil =>
    rw [bindingsThen_nil] at h
    obtain ⟨v, s₂, hv, h⟩ := bind_eq_ok h
    cases h
    exact ⟨[v], s, v, s', rfl, fun _ _ => .pure false w s, hv, rfl⟩
  | cons b bs ih =>
    obtain ⟨x, u⟩ := b
    obtain ⟨hx, hrest⟩ := List.forall_mem_cons.1 hbs
    cases x with
    | node tag cs => cases hx
    | atom x =>
      rw [bindingsThen_cons] at h
      obtain ⟨a, s₀, ha, h⟩ := bind_eq_ok h
      obtain ⟨q, s₃, hq, h⟩ := bind_eq_ok h
      obtain ⟨s₄, hr, _⟩ := Evaluation.binding_eq_ok hq
      cases h
      obtain ⟨out, s₁, v, s₂, rfl, hleads, hv, hout⟩ := ih hrest hr
      refine ⟨.atom x :: a :: out, s₁, v, s₂, rfl, fun more hmore => ?_, hv, ?_⟩
      · obtain ⟨b, hb⟩ := hleads more hmore
        have ha := (eval_extends (Nat.le_of_lt hmore)).exec ha
        -- The name is a label, which takes some fuel to be evaluated to itself.
        obtain ⟨more, rfl⟩ : ∃ k, more = k + 1 := ⟨more - 1, by omega⟩
        refine .step (a := s) rfl (.step (a := .ok x) rfl ?_)
        exact .step ha (.step rfl (.step rfl (.step hb (.pure _ w _))))
      · have hlength : 2 * (bs.length + 1) = 2 * bs.length + 1 + 1 := by omega
        rw [List.length_cons, hlength, List.getElem?_cons_succ, List.getElem?_cons_succ]
        exact hout

theorem along {i : Nat} {path : List Nat} (hc : t.child? i = some c)
    (hstage : Leads (Position.stage eval none t i) w s s₁)
    (h : Leads (Position.along eval none c path) w s₁ s') :
    Leads (Position.along eval none t (i :: path)) w s s' := by
  obtain ⟨b, hb⟩ := hstage
  obtain ⟨b', hb'⟩ := h
  simp only [Position.along, hc]
  exact .step hb (.step hb' (.pure _ w s'))

theorem execUntil {path : List Nat} (h : Leads (Position.along (Typesetter.eval fuel) none t path) w s s') :
    (Typesetter.execUntil fuel t path).run w s = .ok ((), s') := by
  obtain ⟨b, hb⟩ := h
  exact discard hb

end Leads

/-! Both come to the position in the same state -/

variable {path : List Nat} {i : Nat} {u : Tree}

def Enters (u t : Tree) (i : Nat) (c : Tree) : Prop :=
  ∀ fuel path w s v s', (exec (fuel + 1) (t.replaceAt u (i :: path))).run w s = .ok (v, s') →
    ∃ s₁ x s₂, (∀ more, fuel < more → Leads (Position.stage (Typesetter.eval more) none t i) w s s₁) ∧
      (exec fuel (c.replaceAt u path)).run w s₁ = .ok (x, s₂) ∧ v.subtree? (i :: path) = x.subtree? path

theorem enters_part (htag : tag = Primitive.document ∨ tag = Primitive.concat) (hc : cs[i]? = some c) :
    Enters u (.node tag cs) i c := by
  intro fuel path w s v s' h
  obtain ⟨pre, post, rfl, rfl⟩ := exists_split hc
  rw [Tree.replaceAt_split] at h
  obtain ⟨vs, _, hvs, rfl⟩ := exec_rebuilt htag h
  obtain ⟨us, s₁, x, s₂, rest, hus, hx, rfl, hlength⟩ := execAll_append hvs
  refine ⟨s₁, x, s₂, fun more hmore => ?_, hx, ?_⟩
  · have htake : (pre ++ c :: post).take pre.length = pre := List.take_left
    have hpass := Leads.passBy (eval_extends (Nat.le_of_lt hmore)) hus
    rcases htag with rfl | rfl
    · simpa only [Position.stage, htake] using hpass
    · simpa only [Position.stage, htake] using hpass
  · have hchild : (us ++ x :: rest)[us.length]? = some x := by simp
    rw [← hlength, Tree.subtree?_cons hchild]

theorem enters_body (hodd : cs.length % 2 = 1) (hatoms : ∀ b ∈ (Form.pairs cs).1, b.1.isAtom)
    (hi : i + 1 = cs.length) (hc : cs[i]? = some c) : Enters u (.node Primitive.withVars cs) i c := by
  intro fuel path w s v s' h
  obtain ⟨pre, post, rfl, rfl⟩ := exists_split hc
  simp only [List.length_append, List.length_cons] at hi hodd
  obtain rfl : post = [] := List.eq_nil_of_length_eq_zero (by omega)
  have heven : pre.length % 2 = 0 := by omega
  rw [Tree.replaceAt_split] at h
  obtain ⟨r, _, hrun, hv⟩ := exec_withVars heven h
  rw [Form.pairs_concat heven] at hatoms
  obtain ⟨out, s₁, x, s₂, rfl, hbound, hx, hout⟩ := Leads.bindings hatoms hrun
  refine ⟨s₁, x, s₂, fun more hmore => ?_, hx, ?_⟩
  · have hlast : pre.length + 1 = (pre ++ [c]).length := by simp
    simpa only [Position.stage, if_pos hlast, List.dropLast_concat] using hbound more hmore
  · rw [← Form.length_pairs heven] at hout
    rw [hv out rfl, Tree.subtree?_cons hout]

/-- Evaluation with another tree at the position comes there in the state that evaluation up to it
makes, and its value has the value of that tree there. -/
def Meets (u t : Tree) (path : List Nat) : Prop :=
  ∀ fuel w s v s', (exec fuel (t.replaceAt u path)).run w s = .ok (v, s') →
    ∃ s₁ k x s₂, (∀ more, fuel ≤ more → Leads (Position.along (Typesetter.eval more) none t path) w s s₁) ∧
      (exec k u).run w s₁ = .ok (x, s₂) ∧ v.subtree? path = some x

theorem Enters.meets (h : Enters u t i c) (hc : t.child? i = some c) (hpath : Meets u c path) :
    Meets u t (i :: path) := by
  intro fuel w s v s' hrun
  cases fuel with
  | zero => cases hrun
  | succ fuel =>
    obtain ⟨s₀, x, _, hstage, hx, hsubtree⟩ := h fuel path w s v s' hrun
    obtain ⟨s₁, k, y, s₂, hleads, hy, hvalue⟩ := hpath fuel w s₀ x _ hx
    refine ⟨s₁, k, y, s₂, fun more hmore => ?_, hy, hsubtree.trans hvalue⟩
    exact .along hc (hstage more hmore) (hleads more (Nat.le_of_succ_le hmore))

theorem Tree.Straight.meets (hpath : t.Straight path) (u : Tree) : Meets u t path := by
  induction hpath with
  | here t =>
    intro fuel w s v s' h
    rw [Tree.replaceAt_nil] at h
    exact ⟨s, fuel, v, s', fun _ _ => .pure false w s, h, rfl⟩
  | part htag hc _ ih => exact (enters_part htag hc).meets hc ih
  | body hodd hatoms hi hc _ ih => exact (enters_body hodd hatoms hi hc).meets hc ih

theorem exec_value {n : String} (h : (exec fuel (.node Primitive.value [.atom n])).run w s = .ok (v, s')) :
    v = s.store.read n := by
  cases fuel with
  | zero => cases h
  | succ fuel =>
    obtain ⟨r, s₁, hrun, hv⟩ := exec_form (f := .value (.atom n)) rfl h
    cases hrun
    exact hv _ rfl

theorem exec_replaceAt (hpath : t.Straight path) (n : String)
    (h : (exec fuel (t.replaceAt (.node Primitive.value [.atom n]) path)).run w s = .ok (v, s')) :
    ∃ s₁, (∀ more, fuel ≤ more → (execUntil more t path).run w s = .ok ((), s₁)) ∧
      v.subtree? path = some (s₁.store.read n) := by
  obtain ⟨s₁, k, x, s₂, hleads, hx, hvalue⟩ := hpath.meets _ fuel w s v s' h
  obtain rfl := exec_value hx
  exact ⟨s₁, fun more hmore => (hleads more hmore).execUntil, hvalue⟩

def Position.afterAssignment : Tree :=
  .node Primitive.document [.node Primitive.assign [.atom "a", .atom "1"],
    .node Primitive.withVars [.atom "b", .node Primitive.value [.atom "a"], .atom "body"]]

theorem exec_replaceAt_bound : ∃ v s', (exec 9 (Position.afterAssignment.replaceAt
      (.node Primitive.value [.atom "b"]) [1, 2])).run { base := "" } (State.fresh 600 default) =
        .ok (v, s') ∧
    ∃ s₁, (∀ more, 9 ≤ more → (execUntil more Position.afterAssignment [1, 2]).run { base := "" }
      (State.fresh 600 default) = .ok ((), s₁)) ∧
      v.subtree? [1, 2] = some (s₁.store.read "b") := by
  have hpath : Position.afterAssignment.Straight [1, 2] :=
    .part (.inl rfl) rfl (.body rfl (by decide) rfl rfl (.here _))
  exact ⟨_, _, rfl, exec_replaceAt hpath "b" rfl⟩

end Typesetter

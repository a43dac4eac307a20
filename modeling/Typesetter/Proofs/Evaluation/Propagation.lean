import Typesetter.Proofs.Evaluation.Strict
/-!
Errors on their way out. What fails in a strict position fails the node around it, and so on for any nesting:
the error is shown as it is or as it was raised, and reported once if it is fresh.
-/

namespace Typesetter

open Execution Evaluation

variable {w : World} {e t : Tree} {r r' : Except Fault Tree} {f g : Fault} {s s₀ s₁ s₂ s' : State}
  {made made' : Listing State} {fuel more : Nat}

inductive Layer where
  | child (tag : Tag) (before after : List Tree)
  | again (rounds : Nat) (body : Tree)

abbrev Nest := List Layer

def Layer.plug (t : Tree) : Layer → Tree
  | child tag before after => .node tag (before ++ t :: after)
  | again _ body => .node Primitive.whileLoop [t, body]

def Nest.plug (C : Nest) (t : Tree) : Tree := C.foldr (fun l u => l.plug u) t

inductive Rounds (fuel : Nat) (w : World) (condition body : Tree) : Nat → State → State → Prop
  | none (s : State) : Rounds fuel w condition body 0 s s
  | round {n : Nat} {v u : Tree} {s s₁ s₂ s₃ : State} :
      (Rule.operand (eval fuel) condition).run w s = .ok (.ok v, s₁) → v.isTrue →
      (Rule.exec (eval fuel) body).run w s₁ = .ok (u, s₂) → Rounds fuel w condition body n s₂ s₃ →
      Rounds fuel w condition body (n + 1) s s₃

/-- Evaluation of a layer comes to the tree in it: what is evaluated before is accepted and asks for more.
Recorded are the bindings in force there and the state. -/
inductive Layer.Entered (fuel : Nat) (w : World) (t : Tree) : Layer → State → Listing State → State → Prop
  | operand {tag : Tag} {before after : List Tree} {earlier : List (Ask × Tree)} {s s₀ : State} :
      Form.Strict tag before after.length earlier → Passes fuel w earlier s s₀ →
      Entered fuel w t (.child tag before after) s [] s₀
  | argumentIndex {x v : Tree} {passed after : List Tree} {s s₀ : State} :
      (Rule.arg (eval fuel) x passed).run w s = .ok (.ok v, s₀) →
      Entered fuel w t (.child Primitive.arg (x :: passed) after) s [] s₀
  | bindingIndex {key v : Tree} {k : String} {s s₀ : State} :
      (Rule.name (eval fuel) key).run w s = .ok (.ok k, s₀) → w.references.binding? k = some v →
      Entered fuel w t (.child Primitive.getBinding [key] []) s [] s₀
  | attachmentIndex {key v : Tree} {k : String} {s s₀ : State} :
      (Rule.name (eval fuel) key).run w s = .ok (.ok k, s₀) → w.references.attachment? k = some v →
      Entered fuel w t (.child Primitive.getAttachment [key] []) s [] s₀
  | bindingName {bs : List (Tree × Tree)} {after : List Tree} {made : Listing State} {s s₀ : State} :
      Made (eval fuel) w bs s made s₀ → after ≠ [] → after.length % 2 = 0 →
      Entered fuel w t (.child Primitive.withVars (Form.unpaired bs) after) s made s₀
  | condition {n : Nat} {body : Tree} {s s₀ : State} :
      Rounds fuel w t body n s s₀ → n ≤ w.settings.maxIterations →
      Entered fuel w t (.again n body) s [] s₀

inductive Reaches (w : World) (e : Tree) : Nest → Nat → State → Listing State → Nat → State → Prop
  | hole (fuel : Nat) (s : State) : Reaches w e [] fuel s [] fuel s
  | layer {l : Layer} {C : Nest} {fuel more : Nat} {made made' : Listing State} {s s₀ s₁ : State} :
      l.Entered fuel w (C.plug e) s made s₀ → Reaches w e C fuel s₀ made' more s₁ →
      Reaches w e (l :: C) (fuel + 1) s (made ++ made') more s₁

theorem eval_form_fails {tag : Tag} {cs : List Tree} {form : Form} (hform : Form.ofNode tag cs = .ok form)
    (h : (Rule.form (eval fuel) (eval fuel) tag cs form).run w s = .ok (.error f, s')) :
    (eval (fuel + 1) (.node tag cs)).run w s = .ok (.error (f.inContext tag.name), s') := by
  rw [eval_form hform, inContext_apply, h]
  rfl

theorem descend_append (op : Primitive) (v : Tree) (passed rest : List Tree) :
    Rule.descend (eval fuel) op v (passed ++ rest) =
      Rule.descend (eval fuel) op v passed >>= fun v => Rule.descend (eval fuel) op v rest := by
  induction passed generalizing v with
  | nil => rfl
  | cons index passed ih => simp only [List.cons_append, Rule.descend, ih, bind_assoc]

theorem arg_fails {x v : Tree} {passed after : List Tree}
    (harg : (Rule.arg (eval fuel) x passed).run w s = .ok (.ok v, s₀))
    (h : (Rule.operand (eval fuel) t).run w s₀ = .ok (.error f, s')) :
    (Rule.arg (eval fuel) x (passed ++ t :: after)).run w s = .ok (.error f, s') := by
  have hsplit : Rule.arg (eval fuel) x (passed ++ t :: after) =
      Rule.arg (eval fuel) x passed >>= fun v => Rule.descend (eval fuel) .arg v (t :: after) := by
    simp only [Rule.arg, descend_append, bind_assoc]
  rw [hsplit, bind_run_ok harg]
  exact bind_run_error (childOf_fails .arg v h)

theorem getBinding_fails {key v : Tree} {k : String}
    (hkey : (Rule.name (eval fuel) key).run w s = .ok (.ok k, s₀)) (hv : w.references.binding? k = some v)
    (h : (Rule.operand (eval fuel) t).run w s₀ = .ok (.error f, s')) :
    (Rule.getBinding (eval fuel) key (some t)).run w s = .ok (.error f, s') := by
  have hread (k : World → Evaluation Tree) : (read >>= k).run w s₀ = (k w).run w s₀ := rfl
  rw [Rule.getBinding, bind_run_ok hkey, hread, hv]
  exact childOf_fails .getBinding v h

theorem getAttachment_fails {key v : Tree} {k : String}
    (hkey : (Rule.name (eval fuel) key).run w s = .ok (.ok k, s₀)) (hv : w.references.attachment? k = some v)
    (h : (Rule.operand (eval fuel) t).run w s₀ = .ok (.error f, s')) :
    (Rule.getAttachment (eval fuel) key (some t)).run w s = .ok (.error f, s') := by
  have hread (k : World → Evaluation Tree) : (read >>= k).run w s₀ = (k w).run w s₀ := rfl
  rw [Rule.getAttachment, bind_run_ok hkey, hread, hv]
  exact childOf_fails .getBinding v h

theorem Form.ofNode_withVars_name (bs : List (Tree × Tree)) (t : Tree) {after : List Tree} (hne : after ≠ [])
    (heven : after.length % 2 = 0) : ∃ u rest body, ofNode Primitive.withVars (unpaired bs ++ t :: after) =
      .ok (withVars (bs ++ (t, u) :: rest) (some body)) := by
  obtain ⟨u, rest, rfl⟩ := List.exists_cons_of_ne_nil hne
  have hodd : rest.length % 2 = 1 := by
    rw [List.length_cons] at heven
    omega
  obtain ⟨body, hrest⟩ := exists_unpaired hodd
  have hchildren : unpaired bs ++ t :: u :: rest = unpaired (bs ++ (t, u) :: (pairs rest).1) ++ [body] := by
    rw [unpaired_append, unpaired_cons, List.append_assoc, List.cons_append, List.cons_append, ← hrest]
  have hpairs : (unpaired (bs ++ (t, u) :: (pairs rest).1)).length % 2 = 0 := by
    rw [length_unpaired, Nat.mul_mod_right]
  refine ⟨u, (pairs rest).1, body, ?_⟩
  rw [hchildren, ofNode_withVars hpairs, pairs_unpaired]

namespace State

theorem takeBack_append (t : State) (made made' : Listing State) :
    t.takeBack (made ++ made') = (t.takeBack made').takeBack made := List.foldr_append

theorem diagnostics_takeBack (t : State) (made : Listing State) :
    (t.takeBack made).diagnostics = t.diagnostics := by
  induction made with
  | nil => rfl
  | cons entry made ih => exact ih

end State

theorem Made.fails {bs after : List (Tree × Tree)} {u' body : Tree} (hmade : Made (eval fuel) w bs s made s₀)
    (h : (Rule.operand (eval fuel) t).run w s₀ = .ok (.error f, s')) :
    (Rule.bindingsThen (eval fuel) body (bs ++ (t, u') :: after)).run w s =
      .ok (.error f, s'.takeBack made) := by
  induction hmade with
  | nil s => exact bind_run_error (name_fails h)
  | @binding x u v bs s s₁ s₂ s₃ y made hname hv _ ih =>
    have hrest : (Evaluation.binding y v
        (Rule.bindingsThen (eval fuel) body (bs ++ (t, u') :: after))).run w s₂ =
          .ok (.error f, s'.takeBack ((y, s₂) :: made)) := by
      rw [binding_apply, ih h]
      rfl
    rw [List.cons_append, Rule.bindingsThen, bind_run_ok hname, lift_bind_run_ok hv]
    exact bind_run_error hrest

theorem Rounds.fails {n left : Nat} {body : Tree} (hrounds : Rounds fuel w t body n s s₀) (limit : Nat)
    (hleft : n ≤ left) (results : List Tree)
    (h : (Rule.operand (eval fuel) t).run w s₀ = .ok (.error f, s')) :
    (Rule.rounds (eval fuel) limit t body left results).run w s = .ok (.error f, s') := by
  induction hrounds generalizing left results with
  | none s => cases left <;> exact bind_run_error h
  | @round n v u s s₁ s₂ s₃ hv htrue hbody _ ih =>
    obtain ⟨left, rfl⟩ : ∃ k, left = k + 1 := ⟨left - 1, by omega⟩
    rw [Rule.rounds, bind_run_ok hv, if_pos htrue, lift_bind_run_ok hbody]
    exact ih (Nat.le_of_succ_le_succ hleft) (u :: results) h

theorem Layer.Entered.fails {l : Layer} (hl : l.Entered fuel w t s made s₀)
    (h : (Rule.operand (eval fuel) t).run w s₀ = .ok (.error f, s')) :
    ∃ name, (eval (fuel + 1) (l.plug t)).run w s = .ok (.error (f.inContext name), s'.takeBack made) := by
  cases hl with
  | @operand tag before after earlier s s₀ hstrict hearlier =>
    obtain ⟨form, a, later, hform, hasks⟩ := hstrict t after rfl
    have hfetches : Fetches fuel w form.asks
        (Rule.form (eval fuel) (eval fuel) tag (before ++ t :: after) form) := form.fetches (eval fuel) tag _
    rw [hasks] at hfetches
    exact ⟨_, eval_form_fails hform (hfetches.fails hearlier h)⟩
  | argumentIndex harg => exact ⟨_, eval_form_fails rfl (arg_fails harg h)⟩
  | bindingIndex hkey hv => exact ⟨_, eval_form_fails rfl (getBinding_fails hkey hv h)⟩
  | attachmentIndex hkey hv => exact ⟨_, eval_form_fails rfl (getAttachment_fails hkey hv h)⟩
  | @bindingName bs after made s s₀ hmade hafter heven =>
    obtain ⟨u, rest, body, hnode⟩ := Form.ofNode_withVars_name bs t hafter heven
    exact ⟨_, eval_form_fails hnode (bind_run_error (hmade.fails h))⟩
  | @condition n body s s₀ hrounds hn =>
    have hloop := (whileLoop_run t body w s).trans (bind_run_error (hrounds.fails _ hn [] h))
    exact ⟨_, eval_form_fails rfl hloop⟩

/-- What is on its way out, as it will be shown and reported: an error tree that was there before, or a fault
with the context in which it was raised. -/
inductive Raised : Except Fault Tree → Fault → Prop
  | tree {v : Tree} : v.isError → Raised (.ok v) ⟨.propagated v, none⟩
  | passed (v : Tree) (c : Option String) : Raised (.error ⟨.propagated v, c⟩) ⟨.propagated v, none⟩
  | fresh {k : Cause} {c : String} : (∀ v, k ≠ .propagated v) → Raised (.error ⟨k, some c⟩) ⟨k, some c⟩

theorem exists_context (h : (eval fuel t).run w s = .ok (.error g, s')) : ∃ name, g.context = some name := by
  have hcontext : (inContext "" (eval fuel t)).run w s = .ok (.error g, s') := by
    rw [Rule.inContext_eval, h]
  obtain ⟨k, c⟩ := g
  rw [inContext_apply, h] at hcontext
  cases c with
  | none => cases hcontext
  | some name => exact ⟨name, rfl⟩

namespace Raised

theorem of_eval (h : (eval fuel t).run w s = .ok (r, s')) (hfails : ∀ v, r = .ok v → v.isError) :
    ∃ f, Raised r f := by
  cases r with
  | ok v => exact ⟨_, .tree (hfails v rfl)⟩
  | error g =>
    obtain ⟨name, hname⟩ := exists_context h
    obtain ⟨k, c⟩ := g
    obtain rfl : c = some name := hname
    by_cases hk : ∃ v, k = .propagated v
    · obtain ⟨v, rfl⟩ := hk
      exact ⟨_, .passed v _⟩
    · exact ⟨_, .fresh fun v hv => hk ⟨v, hv⟩⟩

theorem inContext (h : Raised (.error g) f) (name : String) : Raised (.error (g.inContext name)) f := by
  cases h with
  | passed v c => exact .passed v _
  | fresh hk => exact .fresh hk

theorem operand (h : Raised r f) (ht : (eval fuel t).run w s = .ok (r, s')) :
    ∃ g, (Rule.operand (eval fuel) t).run w s = .ok (.error g, s') ∧ Raised (.error g) f := by
  cases h with
  | @tree v hv =>
    refine ⟨⟨.propagated v, none⟩, ?_, .passed v none⟩
    rw [Rule.operand, bind_run_ok ht, if_pos hv]
    rfl
  | passed v c => exact ⟨_, bind_run_error ht, .passed v c⟩
  | fresh hk => exact ⟨_, bind_run_error ht, .fresh hk⟩

theorem exec (h : Raised r f) (ht : (eval fuel t).run w s = .ok (r, s')) :
    (exec fuel t).run w s = .ok (f.toTree, s'.absorb f) := by
  change Except.bind ((eval fuel t).run w s) _ = _
  rw [ht]
  cases h with
  | tree hv => rfl
  | passed v c => rfl
  | fresh hk => rfl

end Raised

theorem Reaches.raised {C : Nest} (h : Reaches w e C fuel s made more s₁)
    (he : (eval more e).run w s₁ = .ok (r, s₂)) (hr : Raised r f) :
    ∃ r', (eval fuel (C.plug e)).run w s = .ok (r', s₂.takeBack made) ∧ Raised r' f := by
  induction h with
  | hole fuel s => exact ⟨r, he, hr⟩
  -- The bindings of the layers further in have been taken back before those of this one.
  | @layer l C fuel more made made' s s₀ s₁ hl _ ih =>
    obtain ⟨r', hrun, hr'⟩ := ih he
    obtain ⟨g, hg, hgr⟩ := hr'.operand hrun
    obtain ⟨name, hlayer⟩ := hl.fails hg
    rw [← State.takeBack_append] at hlayer
    exact ⟨_, hlayer, hgr.inContext name⟩

/-! Operands behind the position -/

inductive Nest.Alike : Nest → Nest → Prop
  | refl (C : Nest) : Alike C C
  | child {tag : Tag} {before after after' : List Tree} {C C' : Nest} : after'.length = after.length →
      Alike C C' → Alike (.child tag before after :: C) (.child tag before after' :: C')

theorem Layer.Entered.alike {tag : Tag} {before after after' : List Tree} {t t' : Tree}
    (hafter : after'.length = after.length) (h : Entered fuel w t (.child tag before after) s made s₀) :
    Entered fuel w t' (.child tag before after') s made s₀ := by
  cases h with
  | operand hstrict hearlier => exact .operand (hafter ▸ hstrict) hearlier
  | argumentIndex harg => exact .argumentIndex harg
  | bindingIndex hkey hv =>
    obtain rfl := List.eq_nil_of_length_eq_zero hafter
    exact .bindingIndex hkey hv
  | attachmentIndex hkey hv =>
    obtain rfl := List.eq_nil_of_length_eq_zero hafter
    exact .attachmentIndex hkey hv
  | bindingName hmade hne heven =>
    refine .bindingName hmade (fun h => hne ?_) (hafter ▸ heven)
    rw [h] at hafter
    exact List.eq_nil_of_length_eq_zero hafter.symm

theorem Reaches.alike {C C' : Nest} (h : Reaches w e C fuel s made more s₁) (hC : C.Alike C') :
    Reaches w e C' fuel s made more s₁ := by
  induction hC generalizing fuel s made with
  | refl C => exact h
  | child hafter _ ih =>
    cases h with
    | layer hl hrest => exact .layer (hl.alike hafter) (ih hrest)

theorem Fault.message_fresh {k : Cause} (hk : ∀ v, k ≠ .propagated v) (name : String) :
    Fault.message ⟨k, some name⟩ = k.message ++ " (in " ++ name ++ ")" := by
  cases k with
  | propagated v => exact absurd rfl (hk v)
  | _ => rfl

/-- An error tree comes out of a nest as it is, and nothing is reported for it; a fresh fault comes out with its
innermost context, and is reported once. Nothing behind the position plays a part. -/
theorem exec_plug {C : Nest} (h : Reaches w e C fuel s made more s₁)
    (he : (eval more e).run w s₁ = .ok (r, s₂)) :
    (∀ v, (r = .ok v ∧ v.isError) ∨ (∃ c, r = .error ⟨.propagated v, c⟩) →
      (exec fuel (C.plug e)).run w s = .ok (v, s₂.takeBack made)) ∧
    (∀ k c, r = .error ⟨k, c⟩ → (∀ v, k ≠ .propagated v) → ∃ name, c = some name ∧
      (exec fuel (C.plug e)).run w s = .ok (.error (k.message ++ " (in " ++ name ++ ")"),
        (s₂.takeBack made).report ⟨.error, k.message, some name⟩)) ∧
    (s₂.takeBack made).diagnostics = s₂.diagnostics ∧
    ((∀ v, r = .ok v → v.isError) → ∀ C', C.Alike C' →
      (exec fuel (C'.plug e)).run w s = (exec fuel (C.plug e)).run w s) := by
  have hshown {f : Fault} (hr : Raised r f) {C' : Nest} (hC : C.Alike C') :
      (exec fuel (C'.plug e)).run w s = .ok (f.toTree, (s₂.takeBack made).absorb f) := by
    obtain ⟨r', hrun, hr'⟩ := (h.alike hC).raised he hr
    exact hr'.exec hrun
  refine ⟨?_, ?_, s₂.diagnostics_takeBack made, ?_⟩
  · rintro v (⟨rfl, hv⟩ | ⟨c, rfl⟩)
    · exact hshown (.tree hv) (.refl C)
    · exact hshown (.passed v c) (.refl C)
  · rintro k c rfl hk
    obtain ⟨name, rfl⟩ := exists_context he
    refine ⟨name, rfl, ?_⟩
    rw [hshown (.fresh hk) (.refl C), Fault.toTree_fresh hk, Fault.message_fresh hk, State.absorb_fresh _ hk]
  · intro hfails C' hC
    obtain ⟨f, hr⟩ := Raised.of_eval he hfails
    rw [hshown hr hC, hshown hr (.refl C)]

def Nest.looping : Nest :=
  [.child Primitive.ifThen [] [.atom "yes"],
    .child Primitive.caseOf (Form.unpaired [(.atom "false", .atom "no")]) [.atom "result"],
    .child Primitive.plus [.atom "1"] [.node Primitive.assign [.atom "n", .atom "2"]],
    .child Primitive.withVars (Form.unpaired [(.atom "a", .atom "1")]) [.atom "2", .atom "body"],
    .again 1 (.node Primitive.assign [.atom "n", .atom "1"])]

def Tree.failingLater : Tree :=
  .node Primitive.ifThen [.node Primitive.provides [.atom "n"],
    .node Primitive.divide [.atom "1", .atom "0"], .atom "true"]

theorem exec_plug_looping : ∃ made s₁ s₂ k c,
    Reaches { base := "" } Tree.failingLater Nest.looping 8 (State.fresh 600 default) made 3 s₁ ∧
      (eval 3 Tree.failingLater).run { base := "" } s₁ = .ok (.error ⟨k, c⟩, s₂) ∧
      ∃ s', (exec 8 (Nest.looping.plug Tree.failingLater)).run { base := "" } (State.fresh 600 default) =
          .ok (.error "division by zero in divide (in divide)", s') ∧
        s'.diagnostics = #[⟨.error, "division by zero in divide", some "divide"⟩] ∧
        s'.store.get? "n" = some (.atom "1") := by
  have hreaches : Reaches { base := "" } Tree.failingLater Nest.looping 8 (State.fresh 600 default) _ 3 _ :=
    .layer (.operand (Form.strict_first rfl rfl) (.nil _))
      (.layer (.operand (Form.strict_condition _ 0) (.cons ⟨_, rfl, rfl⟩ (.nil _)))
        (.layer (.operand (Form.strict_of_isStrict rfl rfl) (.cons ⟨_, rfl⟩ (.nil _)))
          (.layer (.bindingName (.binding rfl rfl (.nil _)) (List.cons_ne_nil _ _) rfl)
            (.layer (.condition (.round rfl rfl rfl (.none _)) (by decide)) (.hole _ _)))))
  obtain ⟨-, hfresh, -, -⟩ := exec_plug hreaches rfl
  obtain ⟨name, hname, hrun⟩ := hfresh _ _ rfl nofun
  cases hname
  exact ⟨_, _, _, _, _, hreaches, rfl, _, hrun, rfl, rfl⟩

end Typesetter

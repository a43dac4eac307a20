import Typesetter.Proofs.Evaluation.Bindings
/-!
Bindings see the ones before them. The value of a binding is evaluated where the earlier bindings have been
made. Evaluation up to a position makes bindings for the body only: a position in a value is reached with none
of them.
-/

namespace Typesetter

open Execution

namespace Form

def unpaired (bs : List (Tree × Tree)) : List Tree := bs.flatMap fun b => [b.1, b.2]

theorem unpaired_cons (b : Tree × Tree) (bs : List (Tree × Tree)) :
    unpaired (b :: bs) = b.1 :: b.2 :: unpaired bs := rfl

theorem unpaired_append (bs bs' : List (Tree × Tree)) :
    unpaired (bs ++ bs') = unpaired bs ++ unpaired bs' := List.flatMap_append

theorem length_unpaired (bs : List (Tree × Tree)) : (unpaired bs).length = 2 * bs.length := by
  induction bs with
  | nil => rfl
  | cons b bs ih =>
    rw [unpaired_cons, List.length_cons, List.length_cons, List.length_cons, ih]
    omega

theorem pairs_unpaired_append (bs : List (Tree × Tree)) (ts : List Tree) :
    pairs (unpaired bs ++ ts) = (bs ++ (pairs ts).1, (pairs ts).2) := by
  induction bs with
  | nil => rfl
  | cons b bs ih => simp only [unpaired_cons, List.cons_append, pairs, ih]

theorem pairs_unpaired (bs : List (Tree × Tree)) : (pairs (unpaired bs)).1 = bs := by
  have h := pairs_unpaired_append bs []
  rw [List.append_nil] at h
  rw [h]
  exact List.append_nil bs

theorem exists_unpaired {cs : List Tree} (h : cs.length % 2 = 1) :
    ∃ body, cs = unpaired (pairs cs).1 ++ [body] := by
  have hparts : unpaired (pairs cs).1 ++ (pairs cs).2.toList = cs := pairs_parts cs
  cases hlast : (pairs cs).2 with
  | some body =>
    rw [hlast] at hparts
    exact ⟨body, hparts.symm⟩
  | none =>
    rw [hlast, Option.toList_none, List.append_nil] at hparts
    rw [← hparts, length_unpaired] at h
    omega

theorem replaceAt_value (before after : List (Tree × Tree)) (y u body t : Tree) :
    (Tree.node Primitive.withVars (unpaired (before ++ (y, u) :: after) ++ [body])).replaceAt t
        [2 * before.length + 1] =
      .node Primitive.withVars (unpaired (before ++ (y, t) :: after) ++ [body]) := by
  have hlength : 2 * before.length + 1 = (unpaired before ++ [y]).length := by
    rw [List.length_append, length_unpaired, List.length_singleton]
  have hsplit (u : Tree) : unpaired (before ++ (y, u) :: after) ++ [body] =
      unpaired before ++ [y] ++ u :: (unpaired after ++ [body]) := by
    simp [unpaired_append, unpaired_cons]
  rw [hsplit, hlength, Tree.replaceAt_split, Tree.replaceAt_nil, hsplit]

end Form

variable {w : World} {body u : Tree} {bs before after : List (Tree × Tree)}
  {cs : List Tree} {made : Listing State} {s s₁ t s' : State} {x : String} {y : Tree} {fuel k : Nat}

inductive Made (eval : Evaluator) (w : World) :
    List (Tree × Tree) → State → Listing State → State → Prop
  | nil (s : State) : Made eval w [] s [] s
  | binding {x u v : Tree} {bs : List (Tree × Tree)} {s s₁ s₂ t : State} {y : String}
      {made : Listing State} :
      (Rule.name eval x).run w s = .ok (.ok y, s₁) → (Rule.exec eval u).run w s₁ = .ok (v, s₂) →
      Made eval w bs (s₂.writeLoggedUpdate y v) made t → Made eval w ((x, u) :: bs) s ((y, s₂) :: made) t

namespace Made

theorem leads (h : Made (eval fuel) w bs s made s₁) (hatoms : ∀ b ∈ bs, b.1.isAtom) {more : Nat}
    (hmore : fuel < more) : Leads (Position.bind (eval more) none bs) w s s₁ := by
  induction h with
  | nil s => exact .pure false w s
  | @binding x u v bs s s₁ s₂ t y made hname hv _ ih =>
    obtain ⟨hx, hrest⟩ := List.forall_mem_cons.1 hatoms
    cases x with
    | node tag cs => cases hx
    | atom x =>
      cases hname
      obtain ⟨b, hb⟩ := ih hrest
      have hv := (eval_extends (Nat.le_of_lt hmore)).exec hv
      -- The name is a label, which takes some fuel to be evaluated to itself.
      obtain ⟨more, rfl⟩ : ∃ k, more = k + 1 := ⟨more - 1, by omega⟩
      refine .step (a := s) rfl (.step (a := .ok y) rfl ?_)
      exact .step hv (.step rfl (.step rfl (.step hb (.pure _ w _))))

theorem of_bindingsThen (hatoms : ∀ b ∈ before ++ (.atom x, u) :: after, b.1.isAtom)
    {r : Except Fault (List Tree)}
    (h : (Rule.bindingsThen (eval fuel) body (before ++ (.atom x, u) :: after)).run w s = .ok (r, s')) :
    ∃ made s₁ v s₂ out, Made (eval fuel) w before s made s₁ ∧
      (exec fuel u).run w s₁ = .ok (v, s₂) ∧ r = .ok out ∧ out[2 * before.length + 1]? = some v := by
  induction before generalizing s s' r with
  | nil =>
    rw [List.nil_append, bindingsThen_cons] at h
    obtain ⟨v, s₂, hv, h⟩ := bind_eq_ok h
    obtain ⟨q, s₃, hq, h⟩ := bind_eq_ok h
    obtain ⟨s₄, hrest, _⟩ := Evaluation.binding_eq_ok hq
    obtain ⟨out, _, _, _, rfl, _⟩ := Leads.bindings (List.forall_mem_cons.1 hatoms).2 hrest
    cases h
    exact ⟨[], s, v, s₂, _, .nil s, hv, rfl, rfl⟩
  | cons b before ih =>
    obtain ⟨y, u'⟩ := b
    obtain ⟨hy, hrest⟩ := List.forall_mem_cons.1 hatoms
    cases y with
    | node tag cs => cases hy
    | atom y =>
      rw [List.cons_append, bindingsThen_cons] at h
      obtain ⟨v', s₀, hv', h⟩ := bind_eq_ok h
      obtain ⟨q, s₃, hq, h⟩ := bind_eq_ok h
      obtain ⟨s₄, hinner, _⟩ := Evaluation.binding_eq_ok hq
      obtain ⟨made, s₁, v, s₂, out, hmade, hv, rfl, hout⟩ := ih hrest hinner
      cases h
      refine ⟨_, s₁, v, s₂, _, .binding rfl hv' hmade, hv, rfl, ?_⟩
      have hlength : 2 * (before.length + 1) + 1 = 2 * before.length + 1 + 1 + 1 := by omega
      rw [List.length_cons, hlength, List.getElem?_cons_succ, List.getElem?_cons_succ]
      exact hout

end Made

theorem execUntil_value (hodd : cs.length % 2 = 1) (k more : Nat) (w : World) (s : State) :
    (execUntil more (.node Primitive.withVars cs) [2 * k + 1]).run w s = .ok ((), s) := by
  refine Leads.execUntil ?_
  have hnot : ¬2 * k + 1 + 1 = cs.length := by omega
  unfold Position.along
  cases hc : (Tree.node Primitive.withVars cs).child? (2 * k + 1) with
  | none => exact .pure false w s
  | some c =>
    simp only [Position.stage, if_neg hnot]
    exact .step rfl (.step rfl (.pure _ w s))

theorem Made.execUntil (h : Made (eval fuel) w bs s made s₁) (hatoms : ∀ b ∈ bs, b.1.isAtom)
    {more : Nat} (hmore : fuel < more) (body : Tree) :
    (Typesetter.execUntil more (.node Primitive.withVars (Form.unpaired bs ++ [body])) [2 * bs.length]).run
      w s = .ok ((), s₁) := by
  have hlength := Form.length_unpaired bs
  have hchild : (Tree.node Primitive.withVars (Form.unpaired bs ++ [body])).child? (2 * bs.length) =
      some body := by
    rw [← hlength]
    exact List.getElem?_concat_length
  refine Leads.execUntil (Leads.along hchild ?_ (.pure false w s₁))
  have hlast : 2 * bs.length + 1 = (Form.unpaired bs ++ [body]).length := by
    rw [List.length_append, hlength, List.length_singleton]
  simp only [Position.stage, if_pos hlast, List.dropLast_concat, Form.pairs_unpaired]
  exact h.leads hatoms hmore

theorem Made.of_exec {v : Tree} (hatoms : ∀ b ∈ before ++ (.atom x, u) :: after, b.1.isAtom)
    (h : (exec (fuel + 1) (.node Primitive.withVars
      (Form.unpaired (before ++ (.atom x, u) :: after) ++ [body]))).run w s = .ok (v, s')) :
    ∃ made s₁ v₁ s₂, Made (eval fuel) w before s made s₁ ∧ (exec fuel u).run w s₁ = .ok (v₁, s₂) ∧
      v.subtree? [2 * before.length + 1] = some v₁ := by
  have heven : (Form.unpaired (before ++ (.atom x, u) :: after)).length % 2 = 0 := by
    rw [Form.length_unpaired, Nat.mul_mod_right]
  obtain ⟨r, _, hrun, hv⟩ := exec_withVars heven h
  rw [Form.pairs_unpaired] at hrun
  obtain ⟨made, s₁, v₁, s₂, out, hmade, hv₁, hr, hout⟩ := of_bindingsThen hatoms hrun
  exact ⟨made, s₁, v₁, s₂, hmade, hv₁, by rw [hv out hr, Tree.subtree?_cons hout]; rfl⟩

theorem exec_withVars_value (hodd : cs.length % 2 = 1) (hatoms : ∀ b ∈ (Form.pairs cs).1, b.1.isAtom)
    (hk : k < (Form.pairs cs).1.length) (n : String) {v : Tree}
    (h : (exec fuel ((Tree.node Primitive.withVars cs).replaceAt (.node Primitive.value [.atom n])
      [2 * k + 1])).run w s = .ok (v, s')) :
    ∃ s₁, (∀ more, fuel ≤ more → ∀ body, (execUntil more
        (.node Primitive.withVars (cs.take (2 * k) ++ [body])) [2 * k]).run w s = .ok ((), s₁)) ∧
      v.subtree? [2 * k + 1] = some (s₁.store.read n) ∧ (k = 0 → s₁ = s) ∧
      ∀ more, (execUntil more (.node Primitive.withVars cs) [2 * k + 1]).run w s = .ok ((), s) := by
  cases fuel with
  | zero => cases h
  | succ fuel =>
    obtain ⟨body, hcs⟩ := Form.exists_unpaired hodd
    have hvalue (more : Nat) := execUntil_value hodd k more w s
    generalize Form.pairs cs = split at hcs hatoms hk
    obtain ⟨bs, last⟩ := split
    obtain ⟨before, ⟨y, u⟩, after, rfl, rfl⟩ :
        ∃ before b after, bs = before ++ b :: after ∧ before.length = k :=
      ⟨bs.take k, bs[k], bs.drop (k + 1), by rw [← List.drop_eq_getElem_cons hk, List.take_append_drop],
        List.length_take_of_le (Nat.le_of_lt hk)⟩
    subst hcs
    cases y with
    | node tag cs => cases hatoms _ (List.mem_append_right _ List.mem_cons_self)
    | atom x =>
      rw [Form.replaceAt_value] at h
      obtain ⟨hbefore, hafter⟩ := List.forall_mem_append.1 hatoms
      have hatoms (t : Tree) : ∀ b ∈ before ++ (.atom x, t) :: after, b.1.isAtom :=
        List.forall_mem_append.2 ⟨hbefore, List.forall_mem_cons.2 ⟨rfl, (List.forall_mem_cons.1 hafter).2⟩⟩
      obtain ⟨made, s₁, v₁, s₂, hmade, hv₁, hshown⟩ := Made.of_exec (hatoms _) h
      obtain rfl := exec_value hv₁
      have htake : (Form.unpaired (before ++ (.atom x, u) :: after) ++ [body]).take (2 * before.length) =
          Form.unpaired before := by
        rw [Form.unpaired_append, List.append_assoc, ← Form.length_unpaired, List.take_left]
      refine ⟨s₁, fun more hmore body => ?_, hshown, fun hk => ?_, hvalue⟩
      · rw [htake]
        exact hmade.execUntil hbefore hmore body
      · obtain rfl := List.eq_nil_of_length_eq_zero hk
        cases hmade
        rfl

def Position.rebound : Tree :=
  .node Primitive.withVars [.atom "a", .atom "1", .atom "b", .node Primitive.value [.atom "a"],
    .atom "body"]

theorem exec_withVars_value_rebound :
    let t := Position.rebound
    t.children.length % 2 = 1 ∧ (∀ b ∈ (Form.pairs t.children).1, b.1.isAtom) ∧
    1 < (Form.pairs t.children).1.length ∧
    ∃ v s' s₁, (exec 4 (t.replaceAt (.node Primitive.value [.atom "a"]) [3])).run { base := "" }
        (State.fresh 600 default) = .ok (v, s') ∧
      (execUntil 4 (.node Primitive.withVars (t.children.take 2 ++ [.atom "body"])) [2]).run { base := "" }
        (State.fresh 600 default) = .ok ((), s₁) ∧
      v.subtree? [3] = some (s₁.store.read "a") ∧ s₁.store.read "a" = .atom "1" := by
  intro t
  have hodd : t.children.length % 2 = 1 := by decide
  have hatoms : ∀ b ∈ (Form.pairs t.children).1, b.1.isAtom := by decide
  have hk : 1 < (Form.pairs t.children).1.length := by decide
  obtain ⟨s₁, huntil, hshown, _, _⟩ := @exec_withVars_value { base := "" } t.children
    (State.fresh 600 default) _ 4 1 hodd hatoms hk "a" _ rfl
  exact ⟨hodd, hatoms, hk, _, _, s₁, rfl, huntil 4 (Nat.le_refl 4) (.atom "body"), hshown,
    Option.some.inj (hshown.symm.trans rfl)⟩

theorem not_exec_withVars_value_unmade :
    let t := Position.rebound
    t.children.length % 2 = 1 ∧ (∀ b ∈ (Form.pairs t.children).1, b.1.isAtom) ∧
    ∃ v s' s₁, (exec 4 (t.replaceAt (.node Primitive.value [.atom "a"]) [3])).run { base := "" }
        (State.fresh 600 default) = .ok (v, s') ∧
      (execUntil 4 t [3]).run { base := "" } (State.fresh 600 default) = .ok ((), s₁) ∧
      v.subtree? [3] = some (.atom "1") ∧ s₁.store.read "a" = .uninit ∧
      v.subtree? [3] ≠ some (s₁.store.read "a") := by
  intro t
  refine ⟨by decide, by decide, _, _, _, rfl, rfl, rfl, rfl, fun h => ?_⟩
  have hne : (some (.atom "1") : Option Tree) ≠ some .uninit := by decide
  exact hne h

end Typesetter

import Typesetter.Proofs.Analysis.Unread
import Typesetter.Proofs.Evaluation.Partial
/-!
Evaluation up to a position with a variable to watch. An answer that the variable is not involved means
that all that is evaluated on the way is found not to read it, apart from the names of bindings.
-/

namespace Typesetter

open Dependency Execution

namespace Position

/-- What is evaluated at a node on the way to one of its children, the names of bindings apart. -/
def evaluated (t : Tree) (index : Nat) : List Tree :=
  match t with
  | .node (.prim .document) cs | .node (.prim .concat) cs => cs.take index
  | .node (.prim .withVars) cs =>
    if index + 1 = cs.length then (Form.pairs cs.dropLast).1.map (·.2) else []
  | _ => []

def bound (t : Tree) (index : Nat) : List Tree :=
  match t with
  | .node (.prim .withVars) cs =>
    if index + 1 = cs.length then (Form.pairs cs.dropLast).1.map (·.1) else []
  | _ => []

def onTheWay (f : Tree → Nat → List Tree) : Tree → List Nat → List Tree
  | _, [] => []
  | t, index :: path => (t.child? index).elim [] fun c => f t index ++ onTheWay f c path

/-- A watched execution does what the other one does, and the answer that nothing is involved has a
reason. -/
def Trusts (Q : Prop) (m m' : Execution Bool) : Prop :=
  ∀ w s b s', m w s = .ok (b, s') → (∃ b', m' w s = .ok (b', s')) ∧ (b = false → Q)

namespace Trusts

variable {P Q : Prop} {m m' k k' : Execution Bool} {α : Type}

theorem pure (hQ : Q) (b b' : Bool) : Trusts Q (pure b) (pure b') := by
  intro w s a s' h
  cases h
  exact ⟨⟨b', rfl⟩, fun _ => hQ⟩

theorem after (o : Execution α) {f f' : α → Execution Bool} (h : ∀ a, Trusts Q (f a) (f' a)) :
    Trusts Q (o >>= f) (o >>= f') := by
  intro w s b s' hrun
  obtain ⟨a, t, ho, hf⟩ := bind_eq_ok hrun
  obtain ⟨⟨b', hf'⟩, hQ⟩ := h a w t b s' hf
  refine ⟨⟨b', ?_⟩, hQ⟩
  rw [bind_apply, ho]
  exact hf'

theorem orElse (h : Trusts P m m') (here here' : Bool) (hQ : P → here = false → Q) :
    Trusts Q (m >>= fun b => Pure.pure (b || here)) (m' >>= fun b => Pure.pure (b || here')) := by
  intro w s b s' hrun
  obtain ⟨rest, t, hm, hb⟩ := bind_eq_ok hrun
  cases hb
  obtain ⟨⟨rest', hm'⟩, hP⟩ := h w s rest s' hm
  refine ⟨⟨rest' || here', ?_⟩, fun hfalse => ?_⟩
  · rw [bind_apply, hm']
    rfl
  · obtain ⟨hrest, hhere⟩ := Bool.or_eq_false_iff.1 hfalse
    exact hQ (hP hrest) hhere

theorem both (h : Trusts P m m') (h' : Trusts Q k k') :
    Trusts (P ∧ Q) (m >>= fun here => k >>= fun b => Pure.pure (b || here))
      (m' >>= fun here => k' >>= fun b => Pure.pure (b || here)) := by
  intro w s b s' hrun
  obtain ⟨here, t, hm, hrun⟩ := bind_eq_ok hrun
  obtain ⟨⟨here', hm'⟩, hP⟩ := h w s here t hm
  obtain ⟨⟨b', hk'⟩, hPQ⟩ := h'.orElse here here' (fun hQ hhere => And.intro (hP hhere) hQ) w t b s' hrun
  refine ⟨⟨b', ?_⟩, hPQ⟩
  rw [bind_apply, hm']
  exact hk'

end Trusts

variable {eval : Evaluator} {watch : Watch} {ts : List Tree} {bs : List (Tree × Tree)} {t : Tree}

abbrev IsDirect (t : Tree) : Prop := t.Every fun tag _ => Direct tag

def Untouched (watch : Watch) (t : Tree) : Prop := reads (fun _ => false) watch.name t = false

theorem untouched_of_depends {store : Store} (ht : IsDirect t)
    (h : depends store t watch.name watch.level = false) : Untouched watch t :=
  (reads_direct ht _ _).trans h

theorem passBy_trusts (hts : ∀ t ∈ ts, IsDirect t) :
    Trusts (∀ t ∈ ts, Untouched watch t) (passBy eval (some watch) ts) (passBy eval none ts) := by
  induction ts with
  | nil => exact .pure (List.forall_mem_nil _) false false
  | cons t ts ih =>
    obtain ⟨ht, hts⟩ := List.forall_mem_cons.1 hts
    refine .after get fun s => .after _ fun _ => ?_
    refine (ih hts).orElse _ _ fun hrest hhere => ?_
    exact List.forall_mem_cons.2 ⟨untouched_of_depends ht hhere, hrest⟩

theorem bind_trusts (hbs : ∀ b ∈ bs, IsDirect b.2) :
    Trusts (∀ b ∈ bs, Untouched watch b.2) (bind eval (some watch) bs) (bind eval none bs) := by
  induction bs with
  | nil => exact .pure (List.forall_mem_nil _) false false
  | cons b rest ih =>
    obtain ⟨hb, hrest⟩ := List.forall_mem_cons.1 hbs
    refine .after get fun s => .after (Rule.execString eval b.1) fun r => ?_
    have hdone (isWatched isWatched' here' : Bool) :
        Trusts (∀ c ∈ b :: rest, Untouched watch c.2)
          (bind eval (some watch) rest >>= fun r =>
            Pure.pure (r || (readsWatched (some watch) s b.2 || isWatched)))
          (bind eval none rest >>= fun r => Pure.pure (r || (here' || isWatched'))) := by
      refine (ih hrest).orElse _ _ fun h hhere => List.forall_mem_cons.2 ⟨?_, h⟩
      exact untouched_of_depends hb (Bool.or_eq_false_iff.1 hhere).1
    cases r with
    | error e => exact hdone false false _
    | ok name => exact .after (Rule.exec eval b.2) fun v => .after _ fun _ => hdone _ _ _

theorem mem_pairs {b : Tree × Tree} (h : b ∈ (Form.pairs ts).1) : b.1 ∈ ts ∧ b.2 ∈ ts := by
  have hpart (u : Tree) (hu : u ∈ [b.1, b.2]) : u ∈ ts := by
    rw [← Form.pairs_parts ts]
    exact List.mem_append_left _ (List.mem_flatMap.2 ⟨b, h, hu⟩)
  exact ⟨hpart b.1 (.head _), hpart b.2 (.tail _ (.head _))⟩

theorem stage_trusts (ht : IsDirect t) (index : Nat) :
    Trusts (∀ u ∈ evaluated t index, Untouched watch u) (stage eval (some watch) t index)
      (stage eval none t index) := by
  cases t with
  | atom s => exact .pure (List.forall_mem_nil _) false false
  | node tag cs =>
    cases tag with
    | user name => exact ht.here.elim
    | prim p =>
      have hpass : Trusts (∀ u ∈ cs.take index, Untouched watch u)
          (passBy eval (some watch) (cs.take index)) (passBy eval none (cs.take index)) :=
        passBy_trusts fun u hu => ht.child (List.mem_of_mem_take hu)
      cases p with
      | document => exact hpass
      | concat => exact hpass
      | withVars =>
        unfold stage evaluated
        dsimp only
        by_cases hindex : index + 1 = cs.length
        · simp only [if_pos hindex, List.forall_mem_map]
          exact bind_trusts fun b hb => ht.child (List.dropLast_subset _ (mem_pairs hb).2)
        · simp only [if_neg hindex]
          exact .pure (List.forall_mem_nil _) false false
      | _ => exact .pure (List.forall_mem_nil _) false false

theorem along_trusts (path : List Nat) (ht : IsDirect t) :
    Trusts (∀ u ∈ onTheWay evaluated t path, Untouched watch u) (along eval (some watch) t path)
      (along eval none t path) := by
  induction path generalizing t with
  | nil =>
    simp only [along]
    exact .pure (List.forall_mem_nil _) false false
  | cons index path ih =>
    simp only [along, onTheWay]
    cases hc : t.child? index with
    | none => exact .pure (List.forall_mem_nil _) false false
    | some c =>
      simp only [Option.elim_some, List.forall_mem_append]
      exact (stage_trusts ht index).both (ih (ht.of_child? hc))

end Position

namespace Comparison.Matches

open Position

variable {C : Comparison} {d : Nat} {eval : Evaluator} {ts : List Tree} {bs : List (Tree × Tree)}
  {t : Tree}

theorem execString (h : C.Evaluates d eval t) : C.Matches d (fun _ => True) (Rule.execString eval t) := by
  refine bind (Accords.exec h) fun v _ => ?_
  cases v with
  | atom s => exact pure trivial
  | node tag cs =>
    dsimp only
    split
    · exact pure trivial
    · exact bind (report _) fun _ _ => pure trivial

theorem observing {f : State → Execution Bool} (hf : ∀ s s', f s = f s')
    (h : ∀ s, C.Matches d (fun _ => True) (f s)) : C.Matches d (fun _ => True) (get >>= f) := by
  intro s s' hs
  change Agree _ _ (f s C.world s) (f s' C.world s')
  rw [hf s' s]
  exact h s s s' hs

theorem passBy (h : ∀ t ∈ ts, C.Evaluates d eval t) :
    C.Matches d (fun _ => True) (Position.passBy eval none ts) := by
  induction ts with
  | nil => exact pure trivial
  | cons t ts ih =>
    obtain ⟨ht, hts⟩ := List.forall_mem_cons.1 h
    refine observing (fun _ _ => rfl) fun s => ?_
    exact bind (discard (Accords.exec ht)) fun _ _ => bind (ih hts) fun _ _ => pure trivial

variable (hmacros : ∀ m, ¬ C.macros m)

include hmacros

theorem bindings (h : ∀ b ∈ bs, C.Evaluates d eval b.1 ∧ C.Evaluates d eval b.2) :
    C.Matches d (fun _ => True) (Position.bind eval none bs) := by
  induction bs with
  | nil => exact pure trivial
  | cons b rest ih =>
    obtain ⟨⟨hx, hv⟩, hrest⟩ := List.forall_mem_cons.1 h
    have hdone (here : Bool) : C.Matches d (fun _ => True)
        (Position.bind eval none rest >>= fun r => Pure.pure (r || here)) :=
      bind (ih hrest) fun _ _ => pure trivial
    refine observing (fun _ _ => rfl) fun s => bind (execString hx) fun r _ => ?_
    cases r with
    | error e => exact hdone _
    | ok x => exact bind (Accords.exec hv) fun v hv => bind (write (hmacros x) hv) fun _ _ => hdone _

theorem stage (t : Tree) (index : Nat) (h : ∀ u ∈ evaluated t index, C.Evaluates d eval u)
    (hbound : ∀ u ∈ bound t index, C.Evaluates d eval u) :
    C.Matches d (fun _ => True) (Position.stage eval none t index) := by
  cases t with
  | atom s => exact pure trivial
  | node tag cs =>
    cases tag with
    | user name => exact observing (fun _ _ => rfl) fun s => pure trivial
    | prim p =>
      cases p with
      | document => exact passBy h
      | concat => exact passBy h
      | withVars =>
        unfold evaluated at h
        unfold bound at hbound
        unfold Position.stage
        dsimp only at h hbound ⊢
        by_cases hindex : index + 1 = cs.length
        · simp only [if_pos hindex, List.forall_mem_map] at h hbound ⊢
          exact bindings hmacros fun b hb => ⟨hbound b hb, h b hb⟩
        · simp only [if_neg hindex]
          exact pure trivial
      | _ => exact pure trivial

theorem along (path : List Nat) (t : Tree)
    (h : ∀ u ∈ onTheWay evaluated t path, C.Evaluates d eval u)
    (hbound : ∀ u ∈ onTheWay bound t path, C.Evaluates d eval u) :
    C.Matches d (fun _ => True) (Position.along eval none t path) := by
  induction path generalizing t with
  | nil =>
    simp only [Position.along]
    exact pure trivial
  | cons index path ih =>
    simp only [Position.along, onTheWay] at h hbound ⊢
    cases hc : t.child? index with
    | none => exact pure trivial
    | some c =>
      simp only [hc, Option.elim_some, List.forall_mem_append] at h hbound
      exact bind (stage hmacros t index h.1 hbound.1) fun _ _ =>
        bind (ih c h.2 hbound.2) fun _ _ => pure trivial

end Comparison.Matches

namespace Position

variable {p : Tag → List Tree → Prop} {t u : Tree} {index : Nat}

theorem mem_children_of_evaluated (h : u ∈ evaluated t index) : u ∈ t.children := by
  unfold evaluated at h
  split at h
  · exact List.mem_of_mem_take h
  · exact List.mem_of_mem_take h
  · split at h
    · obtain ⟨b, hb, rfl⟩ := List.mem_map.1 h
      exact List.dropLast_subset _ (mem_pairs hb).2
    · cases h
  · cases h

theorem mem_children_of_bound (h : u ∈ bound t index) : u ∈ t.children := by
  unfold bound at h
  split at h
  · split at h
    · obtain ⟨b, hb, rfl⟩ := List.mem_map.1 h
      exact List.dropLast_subset _ (mem_pairs hb).1
    · cases h
  · cases h

theorem every_onTheWay {f : Tree → Nat → List Tree}
    (hf : ∀ t index, ∀ u ∈ f t index, u ∈ t.children) (path : List Nat) (ht : t.Every p) :
    ∀ u ∈ onTheWay f t path, u.Every p := by
  induction path generalizing t with
  | nil => exact List.forall_mem_nil _
  | cons index path ih =>
    simp only [onTheWay]
    cases hc : t.child? index with
    | none => exact List.forall_mem_nil _
    | some c =>
      simp only [Option.elim_some, List.forall_mem_append]
      exact ⟨fun u hu => ht.of_mem_children (hf t index u hu), ih (ht.of_child? hc)⟩

end Position

open Position

variable {fuel level : Nat} {t : Tree} {w : World} {s s' : State} {n : String} {path : List Nat}

theorem along_of_execUntilVariable {watch : Watch}
    (h : (execUntilVariable fuel t path watch).run w s = .ok (false, s')) :
    ∃ s₁, along (eval fuel) (some watch) t path w s = .ok (false, s₁) := by
  obtain ⟨_, _, hget, h⟩ := bind_eq_ok h
  cases hget
  obtain ⟨involved, s₁, halong, h⟩ := bind_eq_ok h
  cases involved with
  | false => exact ⟨s₁, halong⟩
  | true => cases h

theorem evaluates_onTheWay {f : Tree → Nat → List Tree} (w : World) (s : State) (fuel : Nat)
    (hf : ∀ t index, ∀ u ∈ f t index, u ∈ t.children) (hdirect : IsDirect t) (hnames : t.Every NamesOnly)
    (h : ∀ u ∈ onTheWay f t path, Untouched ⟨n, level⟩ u) :
    ∀ u ∈ onTheWay f t path, (Comparison.unapplied w s n).Evaluates s.depth (eval fuel) u := by
  intro u hu
  have hudirect : IsDirect u := every_onTheWay hf path hdirect u hu
  have hreads : depends s.store u n level = false := (reads_direct hudirect _ _).trans (h u hu)
  have hcode : (Comparison.unapplied w s n).Code s.depth u :=
    Comparison.unapplied_code w hudirect (every_onTheWay hf path hnames u hu) hreads
  exact Comparison.eval_accords (Comparison.unapplied_rooted w s n) fuel s.depth u hcode

theorem execUntil_untouched (hscope : s.scope = []) (hdirect : t.Every fun tag _ => Direct tag)
    (hnames : t.Every NamesOnly) (hbound : ∀ x ∈ onTheWay bound t path, depends s.store x n level = false)
    (h : (execUntilVariable fuel t path ⟨n, level⟩).run w s = .ok (false, s')) (v : Tree) :
    ∃ a b, (execUntil fuel t path).run w s = .ok ((), a) ∧
      (execUntil fuel t path).run w (s.writeUpdate n v) = .ok ((), b) ∧
      ∀ x, x ≠ n → b.store.get? x = a.store.get? x := by
  let C := Comparison.unapplied w s n
  obtain ⟨s₁, halong⟩ := along_of_execUntilVariable h
  obtain ⟨⟨b, hrun⟩, huntouched⟩ := along_trusts path hdirect w s false s₁ halong
  have hevaluated : ∀ u ∈ onTheWay evaluated t path, C.Evaluates s.depth (eval fuel) u :=
    evaluates_onTheWay w s fuel (fun _ _ _ => mem_children_of_evaluated) hdirect hnames (huntouched rfl)
  have hnamed (x : Tree) (hx : x ∈ onTheWay bound t path) : Untouched ⟨n, level⟩ x :=
    untouched_of_depends (every_onTheWay (fun _ _ _ => mem_children_of_bound) path hdirect x hx) (hbound x hx)
  have hmatch : C.Matches s.depth (fun _ => True) (along (eval fuel) none t path) :=
    .along (fun _ => id) path t hevaluated
      (evaluates_onTheWay w s fuel (fun _ _ _ => mem_children_of_bound) hdirect hnames hnamed)
  have hagree := hmatch s _ (Comparison.unapplied_twins w hscope v)
  generalize hrun' : along (eval fuel) none t path C.world (s.writeUpdate n v) = r at hagree
  rw [show along (eval fuel) none t path C.world s = _ from hrun] at hagree
  cases hagree with
  | ended _ htwins =>
    exact ⟨_, _, Leads.execUntil ⟨_, hrun⟩, Leads.execUntil ⟨_, hrun'⟩, htwins.alike.stored⟩

namespace Position

def bindingTree (name : Tree) : Tree := .node Primitive.withVars [name, .atom "1", .atom "body"]

def named : State := (State.fresh 600 default).write "n" (.atom "x")

end Position

theorem execUntil_untouched_bound : ∃ s',
    (execUntilVariable 9 (bindingTree (.atom "x")) [2] ⟨"n", 64⟩).run { base := "" } named =
      .ok (false, s') ∧
    ∃ a b, (execUntil 9 (bindingTree (.atom "x")) [2]).run { base := "" } named = .ok ((), a) ∧
      (execUntil 9 (bindingTree (.atom "x")) [2]).run { base := "" }
        (named.writeUpdate "n" (.atom "y")) = .ok ((), b) ∧
      ∀ x, x ≠ "n" → b.store.get? x = a.store.get? x := by
  have hbound : ∀ x ∈ onTheWay bound (bindingTree (.atom "x")) [2],
      depends named.store x "n" 64 = false := by decide
  exact ⟨_, rfl, execUntil_untouched rfl (by decide) (by decide) hbound rfl _⟩

theorem touched_by_name : named.scope = [] ∧
    ((bindingTree (.node Primitive.value [.atom "n"])).Every fun tag _ => Direct tag) ∧
    (∃ s', (execUntilVariable 9 (bindingTree (.node Primitive.value [.atom "n"])) [2] ⟨"n", 64⟩).run
      { base := "" } named = .ok (false, s')) ∧
    ∃ a b, (execUntil 9 (bindingTree (.node Primitive.value [.atom "n"])) [2]).run
        { base := "" } named = .ok ((), a) ∧
      (execUntil 9 (bindingTree (.node Primitive.value [.atom "n"])) [2]).run { base := "" }
        (named.writeUpdate "n" (.atom "y")) = .ok ((), b) ∧
      b.store.get? "x" ≠ a.store.get? "x" :=
  ⟨rfl, by decide, ⟨_, rfl⟩, _, _, rfl, rfl, by decide⟩

end Typesetter

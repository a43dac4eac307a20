import Typesetter.Proofs.Vocabulary.Errors

namespace Typesetter

open Execution Evaluation

namespace Vocabulary

variable {V : Vocabulary} {d e : Nat} {c c' : Prop} {s s' : State} {α β : Type} {P P' : α → Prop}
  {Q : β → Prop}

def Rests (V : Vocabulary) (d : Nat) (c : Prop) (P : α → Prop) (m : Execution α) : Prop :=
  ∀ s a s', m V.world s = .ok (a, s') → c → V.Sound d s →
    P a ∧ V.Sound d s' ∧ s'.store.get? = s.store.get?

namespace Rests

variable {m : Execution α} {f : α → Execution β}

theorem pure {a : α} (ha : c → P a) : V.Rests d c P (pure a) := by
  intro s b s' hrun hc hs
  cases hrun
  exact ⟨ha hc, hs, rfl⟩

theorem halt (h : Halt) : V.Rests d c P (Execution.halt h) := by
  intro s a s' hrun
  cases hrun

theorem bind (hm : V.Rests d c P m) (hf : ∀ a, V.Rests d (c ∧ P a) Q (f a)) :
    V.Rests d c Q (m >>= f) := by
  intro s b s'' hrun hc hs
  obtain ⟨a, s', hrun, hrun'⟩ := bind_eq_ok hrun
  obtain ⟨ha, hs', hfirst⟩ := hm s a s' hrun hc hs
  obtain ⟨hb, hs'', hsecond⟩ := hf a s' b s'' hrun' ⟨hc, ha⟩ hs'
  exact ⟨hb, hs'', hsecond.trans hfirst⟩

theorem mono (hm : V.Rests d c P m) (hc : c' → c) (hP : ∀ a, c' → P a → P' a) :
    V.Rests d c' P' m := by
  intro s a s' hrun hc' hs
  obtain ⟨ha, hrest⟩ := hm s a s' hrun (hc hc') hs
  exact ⟨hP a hc' ha, hrest⟩

theorem of_yields (herror : V.tags Primitive.error) (hm : V.Yields d c P m)
    (hstore : ∀ s a s', m V.world s = .ok (a, s') → s'.store = s.store) : V.Rests d c P m := by
  intro s a s' hrun hc hs
  obtain ⟨new, _, h⟩ := hm s a s' hrun
  obtain ⟨ha, hs'⟩ := (h hc hs).resolve_left fun hexcused => hexcused.1 herror
  exact ⟨ha, hs', congrArg Store.get? (hstore s a s' hrun)⟩

theorem of_step (herror : V.tags Primitive.error) {g : State → α × State} (hm : V.Yields d c P m)
    (hrun : ∀ s, m V.world s = .ok (g s)) (hstore : ∀ s, (g s).2.store = s.store) :
    V.Rests d c P m := by
  refine of_yields herror hm fun s a s' h => ?_
  have hg : g s = (a, s') := Except.ok.inj ((hrun s).symm.trans h)
  exact (congrArg (·.2.store) hg).symm.trans (hstore s)

theorem bracket {n : Execution α} (before : State → State) (after : State → State → State)
    (hn : ∀ s, n V.world s = (m V.world (before s)).map fun r => (r.1, after s r.2))
    (hb : c → ∀ s, V.Sound d s → V.Sound e (before s))
    (ha : ∀ s t, V.Sound d s → V.Sound e t → V.Sound d (after s t))
    (hstore : ∀ s t : State, t.store.get? = (before s).store.get? →
      (after s t).store.get? = s.store.get?)
    (hm : V.Rests e c P m) : V.Rests d c P n := by
  intro s a s' hrun hc hs
  rw [hn s] at hrun
  obtain ⟨t, hinner, rfl⟩ := Bracket.eq_ok hrun
  obtain ⟨hP, ht, hsame⟩ := hm (before s) a t hinner hc (hb hc s hs)
  exact ⟨hP, ha s t hs ht, hstore s t hsame⟩

end Rests

theorem get?_putBack_writeLoggedUpdate {x : String} {v : Tree}
    (h : s'.store.get? = (s.writeLoggedUpdate x v).store.get?) :
    (s'.putBack x (s.store.get? x)).store.get? = s.store.get? := by
  funext y
  have hy : s'.store.get? y = if x = y then some v else s.store.get? y := by
    rw [h]
    exact s.store.get?_writeLogged x y v
  have hback : (s'.putBack x (s.store.get? x)).store.get? y =
      if x = y then s.store.get? x else s'.store.get? y :=
    s'.store.get?_put x y _
  rw [hback, hy]
  by_cases hx : x = y
  · rw [if_pos hx, hx]
  · rw [if_neg hx, if_neg hx]

def resting (V : Vocabulary) : Logic :=
  { V.logic with
    Assigns := fun _ => False
    Triple := V.Rests
    Accords := fun d c P m => V.Rests d c (Logic.Ended V.Value P) m.run }

theorem applies_resting {x : String} {definition : Tree} (h : V.logic.Applies d x definition) :
    V.resting.Applies d x definition :=
  ⟨h.argument, h.default, h.body⟩

theorem permits_resting (hassign : ¬ V.tags Primitive.assign) {f : Form}
    (h : V.resting.Formed d f) : V.resting.Permits f := by
  cases f with
  | assign x v =>
    obtain ⟨p, cs, hcode, hf⟩ := h
    obtain rfl := Form.root?_ofPrimitive? hf rfl
    exact absurd (tag_of_code hcode Bool.noConfusion) hassign
  | _ => simp [Logic.Permits, resting, logic]

theorem plain_resting (herror : V.tags Primitive.error) : V.resting.Plain where
  returns := .pure
  chain := .bind
  mono := .mono
  halt := .halt
  accords := Iff.rfl
  looks := .of_step herror (plain V).looks (fun _ => rfl) fun _ => rfl
  absorb {_ _ f} h := .of_step herror (yields_absorb h) (fun _ => rfl) (State.store_absorb · f)

theorem lawful_resting (hV : V.Grounded) (herror : V.tags Primitive.error)
    (hassign : ¬ V.tags Primitive.assign) : V.resting.Lawful where
  toComposes := (plain_resting herror).toComposes
  toCarries := (plain_resting herror).carries
  settings _ h := (plain_resting herror).settings h
  world _ h := (plain_resting herror).chain (plain_resting herror).looks h
  reading _ h := (plain_resting herror).reading h
  depth := .of_step herror (lawful hV).depth (fun _ => rfl) fun _ => rfl
  units h := .of_step herror ((lawful hV).units h) (fun _ => rfl) fun _ => rfl
  readVariable h := .of_step herror ((lawful hV).readVariable h) (fun _ => rfl) fun _ => rfl
  providesVariable h := .of_step herror ((lawful hV).providesVariable h) (fun _ => rfl) fun _ => rfl
  lookupArgument x := .of_step herror ((lawful hV).lookupArgument x) (fun _ => rfl) fun _ => rfl
  consult question path := .of_yields herror ((lawful hV).consult question path) fun _ _ _ hrun =>
    congrArg State.store (consult_eq_ok.1 hrun).2
  report r := .of_step herror ((lawful hV).report r) (fun _ => rfl) fun _ => rfl
  assigning h _ _ _ _ _ hc _ := (h hc).elim
  binding {_ _ _ _ x v m} _ hv hm :=
    .bracket (·.writeLoggedUpdate x v) (fun s t => t.putBack x (s.store.get? x))
      (binding_apply x v m V.world) (fun hc _ h => h.write (hv hc)) (fun _ _ h h' => h.putBack h')
      (fun _ _ => get?_putBack_writeLoggedUpdate) hm
  withFrame {_ _ _ _ f m} hf hm :=
    .bracket (·.enter f) (fun _ t => t.leave) (withFrame_apply f m V.world)
      (fun hc _ h => h.enter (hf hc)) (fun _ _ _ h' => h'.leave) (fun _ _ => id) hm
  below {_ _ level _ _ m} _ hm :=
    .bracket (·.suspend level) (fun s t => t.resume (s.scope.above level)) (below_apply level m V.world)
      (fun _ _ h => h.suspend level) (fun _ _ h h' => h.resume h' level) (fun _ _ => id) hm
  deeper {_ _ _ _ m} hm :=
    .bracket (·.descend) (fun _ t => t.ascend) (deeper_apply m V.world) (fun _ _ h => h.descend)
      (fun _ _ _ h' => h'.ascend) (fun _ _ => id) hm
  viewInactive h := .of_step herror ((lawful hV).viewInactive h) (fun _ => rfl) fun _ => rfl
  own := (lawful hV).own
  fewer := (lawful hV).fewer
  tag {d _ _} := (lawful hV).tag (d := d)
  itself {d _ _} := (lawful hV).itself (d := d)
  part {d _ _ _} := (lawful hV).part (d := d)
  permits := permits_resting hassign
  application h := .of_step herror
    (((lawful hV).application h).mono id fun _ _ => applies_resting) (fun _ => rfl) fun _ => rfl
  computed {d _ _} h :=
    have hcomputed := (lawful hV).computed (d := d) h
    ⟨hcomputed.1, fun v hv => applies_resting (hcomputed.2 v hv)⟩
  rerun h hy := .of_step herror ((lawful hV).rerun h hy) (fun _ => rfl) fun _ => rfl
  included {d _ _ _ _} := (lawful hV).included (d := d)
  argument := (lawful hV).argument
  delayed {d _ _} := (lawful hV).delayed (d := d)
  template := (lawful hV).template
  reference := (lawful hV).reference
  attachment := (lawful hV).attachment
  property := (lawful hV).property

theorem exec_rests (hV : V.Grounded) (herror : V.tags Primitive.error)
    (hassign : ¬ V.tags Primitive.assign) {fuel : Nat} {t r : Tree} (hs : s.Holds V.Value)
    (ht : V.Value t) (hrun : (Typesetter.exec fuel t).run V.world s = .ok (r, s')) :
    s'.store.get? = s.store.get? := by
  have hL := lawful_resting hV herror hassign
  have hexec : V.Rests s.depth True V.Value (Typesetter.exec fuel t) :=
    hL.exec (hL.runs_eval fuel s.depth True t fun _ => code ht)
  exact (hexec s r s' hrun trivial ⟨hs, rfl⟩).2.2

end Vocabulary

open Vocabulary

theorem exec_leaves_variables {fuel : Nat} {w : World} {s s' : State} {t r : Tree}
    (hw : w.Holds (Tree.Uses (Tag.Spares .assign))) (hs : s.Holds (Tree.Uses (Tag.Spares .assign)))
    (ht : t.Uses (Tag.Spares .assign)) (hrun : (exec fuel t).run w s = .ok (r, s')) (x : String) :
    s'.store.get? x = s.store.get? x :=
  have hV : (sparing w .assign).Grounded := grounded_sparing hw (by decide)
  have herror : Tag.Spares .assign Primitive.error := by decide
  have hassign : ¬ Tag.Spares .assign Primitive.assign := by decide
  congrFun (exec_rests hV herror hassign hs ht hrun) x

def shadowing : Tree :=
  .node Primitive.withVars [.atom "x", .atom "1", .atom "y", .node Primitive.arg [.atom "a"],
    .atom "y", .atom "2", .node Primitive.tuple [], .atom "3", .node Primitive.value [.atom "y"]]

def shadower : State :=
  ((State.fresh 600 default).write "shadow" (.node Primitive.macroDef [.atom "a", shadowing])).write
    "x" (.atom "0")

def shadow : Tree := .node (.user "shadow") [.atom "7"]

theorem exec_leaves_variables_shadowing : shadower.Holds (Tree.Uses (Tag.Spares .assign)) ∧
    shadow.Uses (Tag.Spares .assign) ∧ ∃ r s', (exec 9 shadow).run { base := "" } shadower = .ok (r, s') ∧
      r.isError ∧ s'.store.get? "x" = some (.atom "0") ∧ s'.store.get? "y" = none := by
  have hshadower : shadower.Holds (Tree.Uses (Tag.Spares .assign)) :=
    ((State.holds_fresh 600 default).write "shadow" (by decide)).write "x" (by decide)
  have hshadow : shadow.Uses (Tag.Spares .assign) := by decide
  have hleaves := @exec_leaves_variables 9 _ _ _ shadow _ (World.holds_bare "" {}) hshadower hshadow rfl
  exact ⟨hshadower, hshadow, _, _, rfl, rfl, hleaves "x", hleaves "y"⟩

end Typesetter

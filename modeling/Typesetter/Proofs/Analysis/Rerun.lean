import Typesetter.Proofs.Analysis.Unread
/-!
The children of what a variable holds, evaluated once more. The analysis looks at the name of the variable
only. If it is asked about these children as well, and about those that come up when they are evaluated,
it is right.
-/

namespace Typesetter

open Dependency Execution Evaluation

namespace Dependency

def Reruns (again : String → Prop) (tag : Tag) (cs : List Tree) : Prop :=
  tag = Primitive.evalArgs ∧ ∃ z, cs = [.atom z] ∧ again z

def Leaves (again : String → Prop) : Tag → List Tree → Prop
  | .prim .assign, x :: _ => ∀ z, x.MayName z → ¬ again z
  | .prim .withVars, cs => ∀ b ∈ (Form.pairs cs).1, ∀ z, b.1.MayName z → ¬ again z
  | _, _ => True

/-- Nodes that the analysis deals with, if it is asked about the children of these variables. Where an
argument could stand for the variable, no such node is evaluated. -/
structure Repeats (macros again : String → Prop) (late : Tree → Prop) (outside : Prop) (tag : Tag)
    (cs : List Tree) : Prop where
  plain : Plain macros late tag cs ∨ outside ∧ Reruns again tag cs
  leaves : Leaves again tag cs

namespace Repeats

variable {macros again : String → Prop} {late : Tree → Prop} {outside outside' : Prop} {tag : Tag}
  {cs : List Tree}

theorem mono (h : Repeats macros again late outside tag cs) (ho : outside → outside') :
    Repeats macros again late outside' tag cs :=
  ⟨h.plain.imp_right (And.imp_left ho), h.leaves⟩

theorem plain_inside (h : Repeats macros again late False tag cs) : Plain macros late tag cs :=
  h.plain.resolve_right fun hreruns => hreruns.1

theorem defers (h : Repeats macros again late outside tag cs) (hm : ∃ m, macros m) :
    Tree.Defers late tag cs := by
  rcases h.plain with hplain | ⟨_, rfl, _⟩
  · exact hplain.defers hm
  · trivial

end Repeats

end Dependency

namespace Form

def Leaves (again : String → Prop) : Form → Prop
  | assign x _ => ∀ z, x.MayName z → ¬ again z
  | withVars bindings _ => ∀ b ∈ bindings, ∀ z, b.1.MayName z → ¬ again z
  | _ => True

theorem leaves_ofPrimitive? {again : String → Prop} {q : Primitive} {cs : List Tree} {f : Form}
    (hcs : Dependency.Leaves again (.prim q) cs) (h : ofPrimitive? q cs = some f) : f.Leaves again := by
  cases f with
  | assign x v =>
    obtain rfl := root?_ofPrimitive? h rfl
    revert h
    rcases cs with _ | ⟨a, _ | ⟨b, _ | ⟨c, rest⟩⟩⟩ <;> intro h <;> cases h
    exact hcs
  | withVars bindings body =>
    obtain rfl := root?_ofPrimitive? h rfl
    cases cs with
    | nil => cases h
    | cons a cs =>
      cases h
      exact hcs
  | _ => trivial

end Form

structure Repetition extends Comparison where
  again : String → Prop
  outer : Nat

namespace Repetition

variable {R : Repetition} {d : Nat} {frames : Scope} {s s' : State} {α : Type} {P : α → Prop}
  {tag : Tag} {cs : List Tree} {t v : Tree} {m x z : String} {f : Form}

structure Pair (R : Repetition) (frames : Scope) (d : Nat) (s s' : State) : Prop where
  twins : R.Twins d s s'
  scope : s.scope = frames
  stays (z : String) : R.again z → s.store.read z = R.store.read z
  outer : R.outer ≤ d
  bare : d = R.outer → frames = []

theorem parallel_of_matches {m : Execution α} (hm : R.Matches d P m)
    (hm' : ∀ s a t, m R.world s = .ok (a, t) →
      t.scope = s.scope ∧ ∀ z, R.again z → t.store.read z = s.store.read z) :
    Comparison.Parallel R.world (R.Pair frames d) P m := by
  intro s s' h
  have hrun := hm s s' h.twins
  generalize hr : m R.world s = r at hrun
  generalize m R.world s' = r' at hrun
  cases hrun with
  | halted e => exact .halted e
  | ended ha ht =>
    obtain ⟨hscope, hstays⟩ := hm' _ _ _ hr
    exact .ended ha ⟨ht, hscope.trans h.scope, fun z hz => (hstays z hz).trans (h.stays z hz), h.outer,
      h.bare⟩

theorem parallel_of_observed {m : Execution α} {g : State → α} (hm : R.Matches d P m)
    (hg : ∀ s, m R.world s = .ok (g s, s)) : Comparison.Parallel R.world (R.Pair frames d) P m := by
  refine parallel_of_matches hm fun s a t h => ?_
  rw [hg s] at h
  cases h
  exact ⟨rfl, fun _ _ => rfl⟩

namespace Pair

variable {t t' : State}

theorem write (h : R.Pair frames d s s') (hx : ¬ R.macros x ∧ ¬ R.again x) (hv : R.Value v) :
    R.Pair frames d (s.writeLoggedUpdate x v) (s'.writeLoggedUpdate x v) := by
  refine ⟨h.twins.write hx.1 hv, h.scope, fun z hz => ?_, h.outer, h.bare⟩
  have hzx : ¬ x = z := fun hxz => hx.2 (hxz ▸ hz)
  have hread : (s.store.writeLogged x v).read z = s.store.read z := by
    simp only [Store.read, Store.get?_writeLogged, if_neg hzx]
  exact hread.trans (h.stays z hz)

theorem assign (h : R.Pair frames d s s') (hx : ¬ R.macros x ∧ ¬ R.again x) (hv : R.Value v) :
    R.Pair frames d (s.assign x v) (s'.assign x v) := by
  have hassign : (s.assign x v).scope = s.scope ∧
      ∀ z, R.again z → (s.assign x v).store.read z = R.store.read z := by
    unfold State.assign
    split
    · exact ⟨rfl, h.stays⟩
    · exact ⟨rfl, (h.write hx hv).stays⟩
  exact ⟨h.twins.assign hx.1 hv, hassign.1.trans h.scope, hassign.2, h.outer, h.bare⟩

theorem putBack (h : R.Pair frames d s s') (h' : R.Pair frames d t t') (hx : ¬ R.macros x ∧ ¬ R.again x) :
    R.Pair frames d (t.putBack x (s.store.get? x)) (t'.putBack x (s'.store.get? x)) := by
  refine ⟨h.twins.putBack h'.twins hx.1, h'.scope, fun z hz => ?_, h.outer, h.bare⟩
  have hzx : ¬ x = z := fun hxz => hx.2 (hxz ▸ hz)
  have hread : (t.store.put x (s.store.get? x)).read z = t.store.read z := by
    simp only [Store.read, Store.get?_put, if_neg hzx]
  exact hread.trans (h'.stays z hz)

theorem enter (h : R.Pair frames d s s') {f : ArgumentFrame} (hf : f.Holds R.Argument) :
    R.Pair (f :: frames) (d + 1) (s.enter f) (s'.enter f) := by
  have houter := h.outer
  exact ⟨h.twins.enter hf, congrArg (f :: ·) h.scope, h.stays, by omega, fun hd => by omega⟩

theorem leave {f : ArgumentFrame} (h : R.Pair frames d s s') (h' : R.Pair (f :: frames) (d + 1) t t') :
    R.Pair frames d t.leave t'.leave :=
  ⟨h'.twins.leave, congrArg List.tail h'.scope, h'.stays, h.outer, h.bare⟩

theorem suspend (h : R.Pair frames d s s') (level : Nat) :
    R.Pair (frames.below level) d (s.suspend level) (s'.suspend level) := by
  refine ⟨h.twins.suspend level, congrArg (·.below level) h.scope, h.stays, h.outer, fun hd => ?_⟩
  rw [h.bare hd]
  exact List.drop_nil

theorem resume (h : R.Pair frames d s s') {level : Nat} (h' : R.Pair (frames.below level) d t t') :
    R.Pair frames d (t.resume (s.scope.above level)) (t'.resume (s'.scope.above level)) := by
  refine ⟨h.twins.resume h'.twins level, ?_, h'.stays, h.outer, h.bare⟩
  rw [State.resume, h.scope, h'.scope, Scope.above_append_below]

theorem descend (h : R.Pair frames d s s') : R.Pair frames (d + 1) s.descend s'.descend := by
  have houter := h.outer
  exact ⟨h.twins.descend, h.scope, h.stays, by omega, fun hd => by omega⟩

theorem ascend (h : R.Pair frames d s s') (h' : R.Pair frames (d + 1) t t') :
    R.Pair frames d t.ascend t'.ascend :=
  ⟨h'.twins.ascend, h'.scope, h'.stays, h.outer, h.bare⟩

theorem bound (h : R.Pair frames R.outer s s') (hz : R.again z) (hn : z ≠ R.name) :
    s.bound z = R.store.read z ∧ s'.bound z = R.store.read z := by
  have hscope : s.scope = [] := h.scope.trans (h.bare rfl)
  have hscope' : s'.scope = [] := h.twins.alike.scope.trans hscope
  rw [State.bound, State.bound, hscope, hscope']
  exact ⟨h.stays z hz, (h.twins.alike.read hn).trans (h.stays z hz)⟩

end Pair

def Code (R : Repetition) (d : Nat) (t : Tree) : Prop :=
  t.Every (Repeats R.macros R.again R.late (d = R.outer)) ∧ ∃ level,
    ((∃ m, R.macros m) → R.world.settings.maxRecursionDepth ≤ d + level) ∧
      reads (macroReads R.store R.name level) R.name t = false

def Settled (R : Repetition) (t : Tree) : Prop :=
  t.Every (Repeats R.macros R.again R.late False) ∧
    depends R.store t R.name R.world.settings.maxRecursionDepth = false

structure Rooted (R : Repetition) : Prop extends R.Grounds where
  body (m : String) : R.macros m → m ≠ R.name →
    (R.store.read m).Every (Repeats R.macros R.again R.late False)
  supplied (m : String) (i : Nat) (t : Tree) : R.macros m → R.world.registry.default? m i = some t →
    R.Settled t
  deferred (t : Tree) : (∃ m, R.macros m) → R.late t → R.Settled t
  held (z : String) : R.again z → (∃ m, R.macros m) → (R.store.read z).isDelayed = false
  rerun (z : String) (t : Tree) : R.again z → t ∈ (R.store.read z).children → R.Code R.outer t

namespace Settled

theorem code (h : R.Settled t) (d : Nat) : R.Code d t :=
  ⟨h.1.mono fun _ _ h => h.mono False.elim, _, fun _ => Nat.le_add_left _ d, h.2⟩

theorem comparison (h : R.Settled t) : R.toComparison.Code 0 t :=
  ⟨h.1.mono fun _ _ h => h.plain_inside, _, fun _ => Nat.le_add_left _ 0, h.2⟩

end Settled

theorem Rooted.comparison (hR : R.Rooted) : R.toComparison.Rooted where
  toGrounds := hR.toGrounds
  body m hm hn := (hR.body m hm hn).mono fun _ _ h => h.plain_inside
  code m i t hm ht := (hR.supplied m i t hm ht).comparison
  deferred t hm ht := (hR.deferred t hm ht).comparison

namespace Code

theorem atom (d : Nat) (x : String) : R.Code d (.atom x) :=
  ⟨.atom x, R.world.settings.maxRecursionDepth, fun _ => Nat.le_add_left _ d, rfl⟩

theorem child (h : R.Code d (.node tag cs)) {c : Tree} (hc : c ∈ cs) : R.Code d c := by
  obtain ⟨hrepeats, level, hlevel, hreads⟩ := h
  rcases hrepeats.here.plain with hplain | ⟨_, _, z, rfl, _⟩
  · exact ⟨hrepeats.child hc, level, hlevel, reads_child hplain hreads hc⟩
  · rw [List.mem_singleton.1 hc]
    exact atom d z

theorem value (h : R.Code d t) : R.Value t := h.1.mono fun _ _ => Repeats.defers

theorem applied (h : R.Code d (.node (.user m) cs)) : R.macros m ∧ m ≠ R.name := by
  obtain ⟨hrepeats, level, _, hreads⟩ := h
  rw [reads, Bool.or_eq_false_iff] at hreads
  rcases hrepeats.here.plain with hplain | ⟨_, htag, _⟩
  · exact ⟨hplain, ne_of_macroReads hreads.1⟩
  · cases htag

theorem body (hR : R.Rooted) (h : R.Code d (.node (.user m) cs)) (hm : (R.store.read m).isMacroDef)
    (hd : d < R.world.settings.maxRecursionDepth)
    (hbody : (R.store.read m).children.getLast? = some t) : R.Code (d + 1) t := by
  obtain ⟨happlied, hn⟩ := h.applied
  obtain ⟨_, level, hlevel, hreads⟩ := h
  rw [reads, Bool.or_eq_false_iff] at hreads
  obtain ⟨below, hbelow, hreads⟩ := reads_body_within hreads.1 (hlevel ⟨m, happlied⟩) hd hm hbody
  have hrepeats := (hR.body m happlied hn).of_mem_children (List.mem_of_getLast? hbody)
  exact ⟨hrepeats.mono fun _ _ h => h.mono False.elim, below, fun _ => hbelow, hreads⟩

theorem spares {q : Primitive} (h : R.Code d (.node (.prim q) cs))
    (hf : Form.ofPrimitive? q cs = some f) : f.Leaves R.again ∧ (f.Spares R.macros R.late R.name ∨
      d = R.outer ∧ ∃ z, f = .evalArgs (.atom z) ∧ R.again z ∧ z ≠ R.name) := by
  obtain ⟨hrepeats, level, _, hreads⟩ := h
  rw [reads, Bool.or_eq_false_iff] at hreads
  refine ⟨Form.leaves_ofPrimitive? hrepeats.here.leaves hf, ?_⟩
  rcases hrepeats.here.plain with hplain | ⟨hd, htag, z, rfl, hz⟩
  · exact .inl (Form.spares_ofPrimitive? hplain hreads.1 hf)
  · cases htag
    cases hf
    exact .inr ⟨hd, z, rfl, hz, of_decide_eq_false hreads.1⟩

end Code

def logic (R : Repetition) : Logic :=
  { R.toComparison.logic with
    Code := R.Code
    Assigns := fun x => ¬ R.macros x ∧ ¬ R.again x
    Binds := fun x => ¬ R.macros x ∧ ¬ R.again x
    Triple := fun d c P m => c → ∀ frames, Comparison.Parallel R.world (R.Pair frames d) P m
    Accords := fun d c P m => c → ∀ frames, Comparison.Parallel R.world (R.Pair frames d)
      (Logic.Ended R.Value P) m.run }

theorem spares_of_formed (h : R.logic.Formed d f) : f.Leaves R.again ∧ (f.Spares R.macros R.late R.name ∨
    d = R.outer ∧ ∃ z, f = .evalArgs (.atom z) ∧ R.again z ∧ z ≠ R.name) := by
  obtain ⟨p, cs, hcode, hf⟩ := h
  exact Code.spares hcode hf

theorem spares_unless (h : R.logic.Formed d f) (hf : ∀ x, f ≠ .evalArgs x) : f.Spares R.macros R.late R.name :=
  (spares_of_formed h).2.resolve_right fun ⟨_, z, hz, _⟩ => hf (.atom z) hz

theorem permits_of_formed (h : R.logic.Formed d f) : R.logic.Permits f := by
  obtain ⟨hleaves, hspares | ⟨_, z, rfl, _, hz⟩⟩ := spares_of_formed h
  · cases f with
    | assign x v => exact fun y hy => ⟨hspares y hy, hleaves y hy⟩
    | withVars bindings body => exact fun b hb y hy => ⟨hspares b hb y hy, hleaves b hb y hy⟩
    | _ => first
      | exact hspares
      | exact hspares.elim
      | trivial
  · rintro y rfl
    exact hz

theorem plain (R : Repetition) : R.logic.Plain where
  returns ha hc _ := .pure (ha hc)
  chain hm hf hc frames := (hm hc frames).bind fun a ha => hf a ⟨hc, ha⟩ frames
  mono hm hc hP hc' frames := (hm (hc hc') frames).mono fun a => hP a hc'
  halt h _ _ := .halt h
  accords := Iff.rfl
  looks _ _ := parallel_of_observed (g := fun _ => R.world) .world fun _ => rfl
  absorb {_ _ f} h hc _ := by
    refine parallel_of_matches ((Comparison.plain R.toComparison).absorb h hc) fun s a t hrun => ?_
    cases hrun
    have hscope : (s.absorb f).scope = s.scope := by
      unfold State.absorb
      split <;> rfl
    exact ⟨hscope, fun z _ => congrArg (·.read z) (s.store_absorb f)⟩

theorem parallel_application (hR : R.Rooted) (h : R.Code d (.node (.user m) cs)) :
    Comparison.Parallel R.world (R.Pair frames d) (R.logic.Applies d m) (Execution.readVariable m) := by
  obtain ⟨hm, hn⟩ := h.applied
  refine .observe (g := fun s => s.store.read m) (fun _ => rfl) fun s s' hs =>
    ⟨?_, hs.twins.alike.read hn⟩
  rw [hs.twins.fits.defined m hm hn]
  exact
    { argument := fun v hv => ⟨⟨m, hm⟩, hv⟩
      default := fun i t ht => (hR.supplied m i t hm ht).code d
      body := fun b hdefined hd hb => h.body hR hdefined hd hb }

theorem parallel_boundTo (hR : R.Rooted) (h : R.logic.Formed d (.evalArgs t)) (hx : t.MayName x) :
    Comparison.Parallel R.world (R.Pair frames d)
      (fun v => (∀ tag cs, v = .node tag cs → R.logic.Tags tag) ∧ ∀ b ∈ v.children, R.Code d b)
      (Logic.boundTo x) := by
  obtain ⟨_, hspares | ⟨rfl, z, hform, hz, hn⟩⟩ := spares_of_formed h
  · exact hspares.elim
  cases hform
  obtain rfl : x = z := hx
  refine .observe (g := fun s => s.bound x) (fun _ => rfl) fun s s' hs => ?_
  obtain ⟨hbound, hbound'⟩ := hs.bound hz hn
  rw [hbound, hbound']
  refine ⟨⟨fun tag cs hread ds hm => ?_, fun b hb => hR.rerun x b hz hb⟩, rfl⟩
  exact .of_isPrompt (Tree.isPrompt_of_isDelayed (hread ▸ hR.held x hz hm)) ds

theorem parallel_viewInactive (hR : R.Rooted) {target : Tree}
    (h : R.logic.Formed d (.viewInactive t target)) :
    Comparison.Parallel R.world (R.Pair frames d)
      (Logic.Ended R.Value R.Value) (Rule.viewInactive t target).run := by
  have hspares := spares_unless h nofun
  obtain ⟨p, cs, hcode, hf⟩ := h
  have hshown : ∀ u ∈ (Form.viewInactive t target).shown, R.Code d u := fun u hu =>
    Code.child hcode (Form.shown_ofPrimitive? hf u hu)
  obtain ⟨_, _, _, hreads⟩ := hshown target (.tail _ (.head _))
  have hview : R.Accords d R.Value (Rule.viewInactive t target) :=
    Comparison.accords_viewInactive hR.toGrounds (hshown t (.head _)).value hreads hspares
  refine parallel_of_matches hview fun s a t hrun => ?_
  cases hrun
  exact ⟨rfl, fun _ _ => rfl⟩

theorem lawful (hR : R.Rooted) : R.logic.Lawful where
  toComposes := (plain R).toComposes
  toCarries := (plain R).carries
  settings _ h := (plain R).settings h
  world _ h := (plain R).chain (plain R).looks h
  reading _ h := (plain R).reading h
  depth hc _ := parallel_of_observed ((Comparison.lawful hR.comparison).depth hc) fun _ => rfl
  units hm hc _ := parallel_of_observed ((Comparison.lawful hR.comparison).units hm hc) fun _ => rfl
  readVariable hx hc _ :=
    parallel_of_observed ((Comparison.lawful hR.comparison).readVariable hx hc) fun _ => rfl
  providesVariable hx hc _ :=
    parallel_of_observed ((Comparison.lawful hR.comparison).providesVariable hx hc) fun _ => rfl
  lookupArgument x hc _ :=
    parallel_of_observed ((Comparison.lawful hR.comparison).lookupArgument x hc) fun _ => rfl
  consult question path hc _ := by
    refine parallel_of_matches ((Comparison.lawful hR.comparison).consult question path hc) fun s a t hrun => ?_
    obtain ⟨_, rfl⟩ := consult_eq_ok.1 hrun
    exact ⟨rfl, fun _ _ => rfl⟩
  report r hc _ := by
    refine parallel_of_matches ((Comparison.lawful hR.comparison).report r hc) fun s a t hrun => ?_
    cases hrun
    exact ⟨rfl, fun _ _ => rfl⟩
  assigning {_ _ x v} hx hv hc _ :=
    .change (g := fun s => s.assign x v) (fun _ => rfl) fun _ _ h =>
      h.assign (hx hc) (hv hc)
  binding {_ _ _ _ x v m} hx hv hm hc frames :=
    .bracket (·.writeLoggedUpdate x v) (fun s t => t.putBack x (s.store.get? x))
      (binding_apply x v m R.world) (fun _ _ h => h.write (hx hc) (hv hc))
      (fun _ _ _ _ h h' => h.putBack h' (hx hc)) (hm hc frames)
  withFrame {_ _ _ _ f m} hf hm hc frames :=
    .bracket (·.enter f) (fun _ t => t.leave) (withFrame_apply f m R.world)
      (fun _ _ h => h.enter (hf hc)) (fun _ _ _ _ h h' => h.leave h') (hm hc (f :: frames))
  below {_ _ level _ _ m} _ hm hc frames :=
    .bracket (·.suspend level) (fun s t => t.resume (s.scope.above level)) (below_apply level m R.world)
      (fun _ _ h => h.suspend level) (fun _ _ _ _ h h' => h.resume h') (hm hc (frames.below level))
  deeper {_ _ _ _ m} hm hc frames :=
    .bracket (·.descend) (fun _ t => t.ascend) (deeper_apply m R.world) (fun _ _ h => h.descend)
      (fun _ _ _ _ h h' => h.ascend h') (hm hc frames)
  viewInactive h hc _ := parallel_viewInactive hR (h hc)
  own := (Comparison.lawful hR.comparison).own
  fewer := (Comparison.lawful hR.comparison).fewer
  tag _ hprompt _ := Comparison.always_node hprompt
  itself h := h.value
  part h ht := ⟨h.child ht, (h.child ht).value⟩
  permits := permits_of_formed
  application h hc _ := parallel_application hR (h hc)
  computed h := (spares_unless h nofun).elim
  rerun h hx hc _ := parallel_boundTo hR (h hc) (hx hc)
  included h := (spares_unless h nofun).elim
  argument h := h.2
  delayed h hdelayed hb :=
    (hR.deferred _ h.1 (Tree.Defers.delayed (Comparison.every_defers h.2 h.1) hdelayed hb)).code _
  template := (Comparison.lawful hR.comparison).template
  reference := (Comparison.lawful hR.comparison).reference
  attachment := (Comparison.lawful hR.comparison).attachment
  property := (Comparison.lawful hR.comparison).property

theorem unread {fuel : Nat} (hR : R.Rooted) (ht : R.Code d t)
    (h : R.Pair frames d s (s.writeUpdate R.name v)) : Unread fuel t R.world s R.name v := by
  have hL := lawful hR
  have hexec : R.logic.Triple d True R.logic.Value (Typesetter.exec fuel t) :=
    hL.exec (hL.runs_eval fuel d True t fun _ => ht)
  exact Comparison.unread_of_agree (fun _ _ h => h.twins.alike.diagnostics) (hexec trivial frames _ _ h)

end Repetition

/-- Evaluation comes across such nodes only as the analysis deals with, and asked about defaults, about
what is put off and about the children of these variables, the analysis says that they do not read the
variable. -/
structure Recurrent (macros again : String → Prop) (late : Tree → Prop) (w : World) (s : State)
    (n : String) : Prop extends Withholds macros late w s where
  default (m : String) (i : Nat) (u : Tree) :
    w.registry.default? m i = some u → (∃ m, macros m) → u.Every (Repeats macros again late False) ∧
      depends s.store u n w.settings.maxRecursionDepth = false
  body (m : String) : macros m → (s.store.read m).Every (Repeats macros again late False)
  deferred (u : Tree) : late u → (∃ m, macros m) → u.Every (Repeats macros again late False) ∧
    depends s.store u n w.settings.maxRecursionDepth = false
  held (z : String) : again z → (∃ m, macros m) → (s.store.read z).isDelayed = false
  rerun (z : String) (u : Tree) : again z → u ∈ (s.store.read z).children →
    u.Every (Repeats macros again late True) ∧ depends s.store u n w.settings.maxRecursionDepth = false

section

variable {macros again : String → Prop} {late : Tree → Prop} {w : World} {s : State} {n : String}
  {fuel level : Nat} {t : Tree}

theorem exec_unread_recurrent (hscope : s.scope = []) (hrecurrent : Recurrent macros again late w s n)
    (ht : t.Every (Repeats macros again late True))
    (h : depends s.store t n w.settings.maxRecursionDepth = false) (v : Tree) : Unread fuel t w s n v := by
  let R : Repetition := { name := n, macros, late, store := s.store, world := w, again, outer := s.depth }
  have hcode (u : Tree) (hu : u.Every (Repeats macros again late True))
      (hreads : depends s.store u n w.settings.maxRecursionDepth = false) : R.Code s.depth u :=
    ⟨hu.mono fun _ _ h => h.mono fun _ => rfl, _, fun _ => Nat.le_add_left _ _, hreads⟩
  have hgrounds : R.Grounds := hrecurrent.grounds fun m i u hu hm =>
    (hrecurrent.default m i u hu hm).1.mono fun _ _ h => h.defers hm
  have hR : R.Rooted :=
    { hgrounds with
      body := fun m hm _ => hrecurrent.body m hm
      supplied := fun m i u hm hu => hrecurrent.default m i u hu ⟨m, hm⟩
      deferred := fun u hm hu => hrecurrent.deferred u hu hm
      held := hrecurrent.held
      rerun := fun z u hz hu => hcode u (hrecurrent.rerun z u hz hu).1 (hrecurrent.rerun z u hz hu).2 }
  have htwins : R.Twins s.depth s (s.writeUpdate n v) := hrecurrent.twins hscope v
  have hpair : R.Pair s.scope s.depth s (s.writeUpdate n v) :=
    ⟨htwins, rfl, fun _ _ => rfl, Nat.le_refl _, fun _ => hscope⟩
  exact R.unread hR (hcode t ht h) hpair

theorem evalArgs_unread {y : String} (hscope : s.scope = []) (hrecurrent : Recurrent macros again late w s n)
    (hy : again y) (h : depends s.store (.node Primitive.evalArgs [.atom y]) n level = false) (v : Tree) :
    Unread fuel (.node Primitive.evalArgs [.atom y]) w s n v := by
  have hnode : (Tree.node Primitive.evalArgs [.atom y]).Every (Repeats macros again late True) :=
    .node ⟨.inr ⟨trivial, rfl, y, rfl, hy⟩, trivial⟩ (List.forall_mem_singleton.2 (.atom y))
  exact exec_unread_recurrent hscope hrecurrent hnode h v

end

namespace Unread

def relayed : State :=
  ((defining.write "y" (.node Primitive.tuple [.node Primitive.evalArgs [.atom "z"]])).write "z"
    (.node Primitive.tuple [.node (.user "m") [.node Primitive.delay [.node Primitive.value [.atom "x"]]]]))

theorem holds_relayed :
    relayed.Holds (Tree.Every (Tree.Defers (· = .node Primitive.value [.atom "x"]))) := by
  let late : Tree → Prop := (· = .node Primitive.value [.atom "x"])
  have hprompt {t : Tree} (ht : t.Prompt) : t.Every (Tree.Defers late) :=
    ht.mono fun _ cs htag => .of_isPrompt htag cs
  have hdelayed : (Tree.node Primitive.delay [.node Primitive.value [.atom "x"]]).Every
      (Tree.Defers late) :=
    .node (List.forall_mem_singleton.2 rfl) (List.forall_mem_singleton.2 (hprompt (by decide)))
  have hz : (Tree.node Primitive.tuple [.node (.user "m") [.node Primitive.delay
      [.node Primitive.value [.atom "x"]]]]).Every (Tree.Defers late) :=
    .node trivial (List.forall_mem_singleton.2 (.node trivial (List.forall_mem_singleton.2 hdelayed)))
  exact (((State.holds_fresh 600 default).write "m" (hprompt (by decide))).write "y"
    (hprompt (by decide))).write "z" hz

theorem recurrent_relayed : Recurrent (· = "m") (fun u => u = "y" ∨ u = "z")
    (· = .node Primitive.value [.atom "x"]) { base := "" } relayed "n" where
  toWithholds := .bare holds_relayed ""
  default m i u hu := ((World.holds_bare (P := fun _ => False) "" default).default m i u hu).elim
  body m hm := by
    subst hm
    exact .node ⟨.inl fun _ => trivial, trivial⟩ (List.forall_mem_cons.2 ⟨.atom _,
      List.forall_mem_singleton.2
        (.node ⟨.inl fun _ => trivial, trivial⟩ (List.forall_mem_singleton.2 (.atom _)))⟩)
  deferred u hu _ := by
    rw [hu]
    exact ⟨.node ⟨.inl fun _ => trivial, trivial⟩ (List.forall_mem_singleton.2 (.atom _)), rfl⟩
  held z hz _ := by
    rcases hz with rfl | rfl
    · rfl
    · rfl
  rerun z u hz hu := by
    rcases hz with rfl | rfl
    · obtain rfl := List.mem_singleton.1 hu
      have hreruns : Reruns (fun u => u = "y" ∨ u = "z") Primitive.evalArgs [.atom "z"] :=
        ⟨rfl, "z", rfl, .inr rfl⟩
      exact ⟨.node ⟨.inr ⟨trivial, hreruns⟩, trivial⟩ (List.forall_mem_singleton.2 (.atom _)), rfl⟩
    · obtain rfl := List.mem_singleton.1 hu
      exact ⟨.node ⟨.inl rfl, trivial⟩ (List.forall_mem_singleton.2
        (.node ⟨.inl fun _ => List.forall_mem_singleton.2 rfl, trivial⟩ (List.forall_mem_singleton.2
          (.node ⟨.inl fun _ => trivial, trivial⟩ (List.forall_mem_singleton.2 (.atom _)))))), rfl⟩

def concealed : State :=
  (State.fresh 600 default).write "y" (.node Primitive.tuple [.node Primitive.value [.atom "n"]])

end Unread

theorem evalArgs_unread_relayed :
    depends Unread.relayed.store (.node Primitive.evalArgs [.atom "y"]) "n" 0 = false ∧
    Unread 9 (.node Primitive.evalArgs [.atom "y"]) { base := "" } Unread.relayed "n" (.atom "1") :=
  have h : depends Unread.relayed.store (.node Primitive.evalArgs [.atom "y"]) "n" 0 = false := by decide
  ⟨h, evalArgs_unread rfl Unread.recurrent_relayed (.inl rfl) h _⟩

theorem not_evalArgs_unread_concealed : Unread.concealed.scope = [] ∧
    depends Unread.concealed.store (.node Primitive.evalArgs [.atom "y"]) "n" 64 = false ∧
    ¬ Unread 9 (.node Primitive.evalArgs [.atom "y"]) { base := "" } Unread.concealed "n" (.atom "1") := by
  refine ⟨rfl, by decide, fun h => ?_⟩
  have heq : Tree.node Primitive.tuple [.uninit] = .node Primitive.tuple [.atom "1"] := h.value_eq rfl rfl
  cases heq

end Typesetter

import Typesetter.Evaluation.Run
import Typesetter.Proofs.Evaluation.Contents
import Typesetter.Proofs.Evaluation.Preservation
import Typesetter.Proofs.Logic.Rules
/-!
Vocabularies: the tags that may come up anywhere in evaluation. If all that evaluation finds keeps to a
vocabulary, then so do its result and what it leaves behind, unless the error trees are left out and an
error was reported.
-/

namespace Typesetter

open Execution Evaluation

structure Vocabulary where
  world : World
  tags : Tag → Prop

namespace Vocabulary

variable {V : Vocabulary} {d e : Nat} {c c' : Prop} {s s' : State} {α β : Type} {P P' : α → Prop}
  {Q : β → Prop}

abbrev Value (V : Vocabulary) : Tree → Prop := Tree.Uses V.tags

/-- Nodes that may be evaluated: where macros must be defined, no node of an unknown name remains. -/
def Allows (V : Vocabulary) (tag : Tag) : Prop :=
  V.tags tag ∨ V.world.settings.strict ∧ tag.isUser

def Code (V : Vocabulary) : Tree → Prop
  | .atom _ => True
  | .node tag cs => V.Allows tag ∧ ∀ c ∈ cs, V.Value c

structure Sound (V : Vocabulary) (d : Nat) (s : State) : Prop extends s.Holds V.Value where
  depth : s.depth = d

/-- The result is as said and the state stays sound, or a reported error excuses both. -/
def Yields (V : Vocabulary) (d : Nat) (c : Prop) (P : α → Prop) (m : Execution α) : Prop :=
  ∀ s a s', m V.world s = .ok (a, s') → ∃ new, s'.diagnostics = s.diagnostics ++ new ∧
    (c → V.Sound d s → Excused V.tags new ∨ P a ∧ V.Sound d s')

def logic (V : Vocabulary) : Logic where
  world := V.world
  Node tag _ := V.tags tag
  Code _ := V.Code
  Argument := V.Value
  Reads _ := True
  Assigns _ := True
  Binds _ := True
  Measures := True
  Triple := V.Yields
  Accords d c P m := V.Yields d c (Logic.Ended V.Value P) m.run

structure Grounded (V : Vocabulary) : Prop extends V.world.Holds V.Value where
  own : ∀ p ∈ Logic.ownPrimitives ++ SourceView.ownPrimitives, V.tags p
  computed : V.tags Primitive.compound → ∀ x, V.Allows (Tag.ofName x)

theorem code (h : V.Value t) : V.Code t := by
  cases t with
  | atom s => trivial
  | node tag cs => exact ⟨.inl h.here, fun c hc => h.child hc⟩

namespace Yields

variable {m : Execution α} {f : α → Execution β}

theorem pure {a : α} (ha : c → P a) : V.Yields d c P (pure a) := by
  intro s b s' hrun
  cases hrun
  exact ⟨#[], Array.append_empty.symm, fun hc hs => .inr ⟨ha hc, hs⟩⟩

theorem halt (h : Halt) : V.Yields d c P (Execution.halt h) := by
  intro s a s' hrun
  cases hrun

theorem bind (hm : V.Yields d c P m) (hf : ∀ a, V.Yields d (c ∧ P a) Q (f a)) :
    V.Yields d c Q (m >>= f) := by
  intro s b s'' hrun
  obtain ⟨a, s', hrun, hrun'⟩ := bind_eq_ok hrun
  obtain ⟨first, hfirst, hP⟩ := hm s a s' hrun
  obtain ⟨second, hsecond, hQ⟩ := hf a s' b s'' hrun'
  refine ⟨first ++ second, ?_, fun hc hs => ?_⟩
  · rw [hsecond, hfirst, Array.append_assoc]
  · rcases hP hc hs with hexcused | ⟨ha, hs'⟩
    · exact .inl hexcused.left
    · exact (hQ ⟨hc, ha⟩ hs').imp_left Excused.right

theorem mono (hm : V.Yields d c P m) (hc : c' → c) (hP : ∀ a, c' → P a → P' a) :
    V.Yields d c' P' m := by
  intro s a s' hrun
  obtain ⟨new, hnew, h⟩ := hm s a s' hrun
  exact ⟨new, hnew, fun hc' hs => (h (hc hc') hs).imp_right fun h => ⟨hP a hc' h.1, h.2⟩⟩

theorem observe {g : State → α} (hm : ∀ s, m V.world s = .ok (g s, s))
    (hg : c → ∀ s, V.Sound d s → P (g s)) : V.Yields d c P m := by
  intro s a s' hrun
  rw [hm s] at hrun
  cases hrun
  exact ⟨#[], Array.append_empty.symm, fun hc hs => .inr ⟨hg hc s hs, hs⟩⟩

theorem change {m : Execution Unit} {g : State → State} (hm : ∀ s, m V.world s = .ok ((), g s))
    (hd : ∀ s, (g s).diagnostics = s.diagnostics) (hg : c → ∀ s, V.Sound d s → V.Sound d (g s)) :
    V.Yields d c (fun _ => True) m := by
  intro s a s' hrun
  rw [hm s] at hrun
  cases hrun
  exact ⟨#[], (hd s).trans Array.append_empty.symm, fun hc hs => .inr ⟨trivial, hg hc s hs⟩⟩

theorem bracket {n : Execution α} (before : State → State) (after : State → State → State)
    (hn : ∀ s, n V.world s = (m V.world (before s)).map fun r => (r.1, after s r.2))
    (hd : ∀ s t, (before s).diagnostics = s.diagnostics ∧ (after s t).diagnostics = t.diagnostics)
    (hb : c → ∀ s, V.Sound d s → V.Sound e (before s))
    (ha : ∀ s t, V.Sound d s → V.Sound e t → V.Sound d (after s t)) (hm : V.Yields e c P m) :
    V.Yields d c P n := by
  intro s a s' hrun
  rw [hn s] at hrun
  obtain ⟨t, hinner, rfl⟩ := Bracket.eq_ok hrun
  obtain ⟨new, hnew, h⟩ := hm (before s) a t hinner
  refine ⟨new, ?_, fun hc hs => ?_⟩
  · rw [(hd s t).2, hnew, (hd s t).1]
  · exact (h hc (hb hc s hs)).imp_right fun h => ⟨h.1, ha s t hs h.2⟩

end Yields

namespace Sound

variable {x : String} {v : Tree}

theorem write (h : V.Sound d s) (hv : V.Value v) : V.Sound d (s.writeLoggedUpdate x v) :=
  ⟨(h.toHolds.writeLogged x hv).update x, h.depth⟩

theorem assign (h : V.Sound d s) (hv : V.Value v) : V.Sound d (s.assign x v) :=
  ⟨h.toHolds.assign x hv, (s.depth_assign x v).trans h.depth⟩

theorem putBack (h : V.Sound d s) (h' : V.Sound d s') : V.Sound d (s'.putBack x (s.store.get? x)) :=
  ⟨h.toHolds.putBack h'.toHolds x, h'.depth⟩

theorem rescope (h : V.Sound d s) {scope : Scope} (hscope : ∀ f ∈ scope, f.Holds V.Value) :
    V.Sound d { s with scope } :=
  ⟨h.toHolds.rescope hscope, h.depth⟩

theorem enter (h : V.Sound d s) {f : ArgumentFrame} (hf : f.Holds V.Value) :
    V.Sound (d + 1) (s.enter f) :=
  ⟨⟨h.stored, List.forall_mem_cons.2 ⟨hf, h.scope⟩⟩, congrArg (· + 1) h.depth⟩

theorem leave (h : V.Sound (d + 1) s) : V.Sound d s.leave :=
  ⟨⟨h.stored, fun f hf => h.scope f (List.mem_of_mem_tail hf)⟩, congrArg (· - 1) h.depth⟩

theorem suspend (h : V.Sound d s) (level : Nat) : V.Sound d (s.suspend level) :=
  h.rescope fun f hf => h.scope f (List.mem_of_mem_drop hf)

theorem resume (h : V.Sound d s) (h' : V.Sound d s') (level : Nat) :
    V.Sound d (s'.resume (s.scope.above level)) :=
  h'.rescope (List.forall_mem_append.2 ⟨fun f hf => h.scope f (List.mem_of_mem_take hf), h'.scope⟩)

theorem descend (h : V.Sound d s) : V.Sound (d + 1) s.descend :=
  ⟨⟨h.stored, h.scope⟩, congrArg (· + 1) h.depth⟩

theorem ascend (h : V.Sound (d + 1) s) : V.Sound d s.ascend :=
  ⟨⟨h.stored, h.scope⟩, congrArg (· - 1) h.depth⟩

theorem read (h : V.Sound d s) (hV : V.Grounded) (x : String) : V.Value (s.store.read x) :=
  h.toHolds.read (.leaf (hV.own _ (by decide))) x

theorem bound (h : V.Sound d s) (hV : V.Grounded) (x : String) : V.Value (s.bound x) := by
  unfold State.bound
  cases hx : s.scope.lookup? x with
  | none => exact h.read hV x
  | some found => exact h.toHolds.lookup hx

end Sound

variable {t target : Tree} {tag : Tag} {cs : List Tree} {f : Form}

theorem yields_absorb {f : Fault} (h : c → ∀ t, f.cause = .propagated t → V.Value t) :
    V.Yields d c (fun _ => V.Value f.toTree) (modify (·.absorb f)) := by
  intro s a s' hrun
  cases hrun
  change ∃ new, (s.absorb f).diagnostics = s.diagnostics ++ new ∧ (c → V.Sound d s →
    Excused V.tags new ∨ V.Value f.toTree ∧ V.Sound d (s.absorb f))
  -- A fault that passes on an error tree adds no diagnostic, so nothing excuses that tree.
  by_cases hp : ∃ t, f.cause = .propagated t
  · obtain ⟨t, ht⟩ := hp
    rw [s.absorb_propagated ht, Fault.toTree_propagated ht]
    exact ⟨#[], Array.append_empty.symm, fun hc hs => .inr ⟨h hc t ht, hs⟩⟩
  · have hfresh : ∀ t, f.cause ≠ .propagated t := fun t ht => hp ⟨t, ht⟩
    rw [s.absorb_fresh hfresh, Fault.toTree_fresh hfresh]
    refine ⟨#[⟨.error, f.cause.message, f.context⟩], by simp [State.report], fun _ hs => ?_⟩
    by_cases herror : V.tags Primitive.error
    · have hvalue : V.Value (.error f.message) :=
        .node herror (List.forall_mem_singleton.2 (.atom _))
      exact .inr ⟨hvalue, ⟨hs.stored, hs.scope⟩, hs.depth⟩
    · exact .inl ⟨herror, _, Array.mem_singleton.2 rfl, rfl⟩

theorem formed_shown (h : V.logic.Formed d f) (ht : t ∈ f.shown) : V.Value t := by
  obtain ⟨p, cs, hcode, hf⟩ := h
  exact hcode.2 t (Form.shown_ofPrimitive? hf t ht)

theorem applies (hV : V.Grounded) {m : String} {definition : Tree} (h : V.Value definition) :
    V.logic.Applies d m definition where
  argument _ hv := hv
  default i t ht := code (hV.default m i t ht)
  body _ _ _ hb := code (h.of_mem_children (List.mem_of_getLast? hb))

theorem tag_of_code (h : V.Code (.node tag cs)) (huser : tag.isUser → V.world.settings.strict = false) :
    V.tags tag := by
  rcases h.1 with htag | ⟨hstrict, hu⟩
  · exact htag
  · rw [huser hu] at hstrict
    cases hstrict

theorem allows_of_compound (hV : V.Grounded) {head : Tree} {args : List Tree}
    (h : V.logic.Formed d (.compound head args)) (x : String) :
    V.Code (.node (Tag.ofName x) args) := by
  obtain ⟨p, cs, hcode, hf⟩ := h
  obtain rfl := Form.root?_ofPrimitive? hf rfl
  refine ⟨hV.computed (tag_of_code hcode Bool.noConfusion) x, fun t ht => hcode.2 t ?_⟩
  exact Form.mem_of_parts hf t (List.mem_cons_of_mem head ht)

theorem yields_viewInactive (hV : V.Grounded) (ht : c → V.Value t) :
    V.Yields d c (Logic.Ended V.Value V.Value) (Rule.viewInactive t target).run := by
  intro s a s' hrun
  cases hrun
  let mode := s.derived.inactiveMode
  have hown : ∀ p ∈ SourceView.ownPrimitives, Tree.Always (fun tag _ => V.tags tag) p :=
    fun p hp _ => hV.own p (List.mem_append_right _ hp)
  have hexpands (h : c ∧ V.Sound d s) : (s.sourceView V.world mode target).Expands V.Value :=
    h.2.toHolds.expands (.uses (hV.own _ (by decide)) (hV.own _ (by decide))) hV.default
  obtain ⟨new, hnew, hview⟩ :=
    SourceView.view_shows hown hexpands (fun h => ht h.1) ⟨mode.isBlock, true⟩ s.diagnostics
  refine ⟨new, hnew, fun hc hs => ?_⟩
  refine (hview ⟨hc, hs⟩).imp (fun h => ⟨fun herror => h.1 fun _ => herror, h.2⟩) fun h => ⟨h, ?_⟩
  exact ⟨⟨hs.stored, hs.scope⟩, hs.depth⟩

theorem plain (V : Vocabulary) : V.logic.Plain where
  returns := .pure
  chain := .bind
  mono := .mono
  halt := .halt
  accords := Iff.rfl
  looks := .observe (g := fun _ => V.world) (fun _ => rfl) fun _ _ _ => rfl
  absorb := yields_absorb

theorem lawful (hV : V.Grounded) : V.logic.Lawful where
  toComposes := (plain V).toComposes
  toCarries := (plain V).carries
  settings _ h := (plain V).settings h
  world _ h := (plain V).chain (plain V).looks h
  reading _ h := (plain V).reading h
  depth := .observe (g := State.depth) (fun _ => rfl) fun _ _ h => h.depth
  units _ := .observe (g := fun s => s.derived.units) (fun _ => rfl) fun _ _ _ => trivial
  readVariable {_ _ x} _ := .observe (g := fun s => s.store.read x) (fun _ => rfl) fun _ _ h => h.read hV x
  providesVariable {_ _ x} _ :=
    .observe (g := fun s => s.store.provides x) (fun _ => rfl) fun _ _ _ => trivial
  lookupArgument x := .observe (g := fun s => s.scope.lookup? x) (fun _ => rfl) fun _ _ h _ _ hv =>
    h.toHolds.lookup hv
  consult question path := by
    intro s a s' hrun
    obtain ⟨hfile, rfl⟩ := consult_eq_ok.1 hrun
    exact ⟨#[], Array.append_empty.symm, fun _ hs => .inr ⟨hfile, hs⟩⟩
  report r := by
    intro s a s' hrun
    cases hrun
    exact ⟨#[r], by simp [State.report], fun _ h => .inr ⟨trivial, ⟨h.stored, h.scope⟩, h.depth⟩⟩
  assigning {_ _ x v} _ hv :=
    .change (g := fun s => s.assign x v) (fun _ => rfl) (fun s => s.diagnostics_assign x v)
      fun hc _ h => h.assign (hv hc)
  binding {_ _ _ _ x v m} _ hv hm :=
    .bracket (·.writeLoggedUpdate x v) (fun s t => t.putBack x (s.store.get? x))
      (binding_apply x v m V.world) (fun _ _ => ⟨rfl, rfl⟩) (fun hc _ h => h.write (hv hc))
      (fun _ _ h h' => h.putBack h') hm
  withFrame {_ _ _ _ f m} hf hm :=
    .bracket (·.enter f) (fun _ t => t.leave) (withFrame_apply f m V.world) (fun _ _ => ⟨rfl, rfl⟩)
      (fun hc _ h => h.enter (hf hc)) (fun _ _ _ h' => h'.leave) hm
  below {_ _ level _ _ m} _ hm :=
    .bracket (·.suspend level) (fun s t => t.resume (s.scope.above level)) (below_apply level m V.world)
      (fun _ _ => ⟨rfl, rfl⟩) (fun _ _ h => h.suspend level) (fun _ _ h h' => h.resume h' level) hm
  deeper {_ _ _ _ m} hm :=
    .bracket (·.descend) (fun _ t => t.ascend) (deeper_apply m V.world) (fun _ _ => ⟨rfl, rfl⟩)
      (fun _ _ h => h.descend) (fun _ _ _ h' => h'.ascend) hm
  viewInactive h := yields_viewInactive hV fun hc => formed_shown (h hc) (.head _)
  own p hp _ := hV.own p (List.mem_append_left _ hp)
  fewer _ _ _ h _ := h
  tag h _ huser _ := tag_of_code h huser
  itself h := .node (tag_of_code h Bool.noConfusion) h.2
  part h ht := ⟨code (h.2 _ ht), h.2 _ ht⟩
  permits {d f} _ := by cases f <;> simp [Logic.Permits, logic]
  application _ := .observe (g := fun s => s.store.read _) (fun _ => rfl) fun _ _ h =>
    applies hV (h.read hV _)
  computed h := ⟨allows_of_compound hV h, fun _ hv => applies hV hv⟩
  rerun {_ _ _ y} _ _ :=
    .observe (g := fun s => s.bound y) (fun _ => rfl) fun _ _ h =>
      ⟨fun _ _ hv _ => (hv ▸ h.bound hV y).here, fun _ hb => code ((h.bound hV y).of_mem_children hb)⟩
  included _ hfile hread := code (hV.file _ _ _ hfile hread)
  argument hv := hv
  delayed hv _ hb := code (hv.of_mem_children hb)
  template hv hb := .of_uses ((hv.child hb).mono fun _ _ htag _ => htag)
  reference := hV.binding _ _
  attachment := hV.attachment _ _
  property := hV.property _ _ _

theorem exec_keeps (hV : V.Grounded) {fuel : Nat} {t r : Tree} (hs : s.Holds V.Value) (ht : V.Value t)
    (hrun : (Typesetter.exec fuel t).run V.world s = .ok (r, s')) :
    ∃ new, s'.diagnostics = s.diagnostics ++ new ∧
      (Excused V.tags new ∨ V.Value r ∧ s'.Holds V.Value) := by
  have hL := lawful hV
  have hexec : V.Yields s.depth True V.Value (Typesetter.exec fuel t) :=
    hL.exec (hL.runs_eval fuel s.depth True t fun _ => code ht)
  obtain ⟨new, hnew, h⟩ := hexec s r s' hrun
  exact ⟨new, hnew, (h trivial ⟨hs, rfl⟩).imp_right fun h => ⟨h.1, h.2.toHolds⟩⟩

end Vocabulary

end Typesetter

import Typesetter.Proofs.Logic.Rules
import Typesetter.Proofs.SourceView.Depth
import Typesetter.Session.Environment

namespace Typesetter

open Execution Evaluation

def LimitMet (new : Array Diagnostic) : Prop := ∃ d ∈ new, d.TellsLimit

theorem LimitMet.left {first second : Array Diagnostic} (h : LimitMet first) : LimitMet (first ++ second) := by
  obtain ⟨d, hd, htells⟩ := h
  exact ⟨d, Array.mem_append_left second hd, htells⟩

theorem LimitMet.right {first second : Array Diagnostic} (h : LimitMet second) :
    LimitMet (first ++ second) := by
  obtain ⟨d, hd, htells⟩ := h
  exact ⟨d, Array.mem_append_right first hd, htells⟩

theorem diagnostics_absorb (s : State) (f : Fault) :
    ∃ last, (s.absorb f).diagnostics = s.diagnostics ++ last ∧ (f.cause.isLimit → LimitMet last) := by
  by_cases hp : ∃ t, f.cause = .propagated t
  · obtain ⟨t, ht⟩ := hp
    rw [s.absorb_propagated ht, ht]
    exact ⟨#[], Array.append_empty.symm, nofun⟩
  · rw [s.absorb_fresh fun t ht => hp ⟨t, ht⟩]
    refine ⟨#[⟨.error, f.cause.message, f.context⟩], by simp [State.report], fun h => ?_⟩
    exact ⟨_, Array.mem_singleton.2 rfl, .inl ⟨rfl, f.cause, h, rfl⟩⟩

/-- Unless a limit was met or the result is given up, the computation is the same under other settings. -/
def Persists (w : World) (settings : Settings) {α : Type} (givenUp : α → Prop) (m : Execution α) :
    Prop :=
  ∀ s a s', m w s = .ok (a, s') → ∃ new, s'.diagnostics = s.diagnostics ++ new ∧
    (LimitMet new ∨ givenUp a ∨ m { w with settings } s = .ok (a, s'))

namespace Persists

variable {w : World} {settings : Settings} {α β : Type} {E : α → Prop} {F : β → Prop}

theorem pure (a : α) : Persists w settings E (pure a) := by
  intro s b s' hrun
  exact ⟨#[], by cases hrun; exact Array.append_empty.symm, .inr (.inr hrun)⟩

theorem bind {m : Execution α} {f : α → Execution β} (hm : Persists w settings E m)
    (hf : ∀ a, Persists w settings F (f a))
    (hgiven : ∀ a, E a → ∀ s b s', f a w s = .ok (b, s') → F b) :
    Persists w settings F (m >>= f) := by
  intro s b s'' hrun
  obtain ⟨a, s', hfirst, hrest⟩ := bind_eq_ok hrun
  obtain ⟨first, hnew, h⟩ := hm s a s' hfirst
  obtain ⟨second, hnew', h'⟩ := hf a s' b s'' hrest
  refine ⟨first ++ second, ?_, ?_⟩
  · rw [hnew', hnew, Array.append_assoc]
  · rcases h with hmet | hE | hsame
    · exact .inl hmet.left
    · exact .inr (.inl (hgiven a hE s' b s'' hrest))
    · rcases h' with hmet | hF | hsame'
      · exact .inl hmet.right
      · exact .inr (.inl hF)
      · rw [bind_apply, hsame]
        exact .inr (.inr hsame')

theorem observe {m : Execution α} {g : State → α} (hm : ∀ w s, m w s = .ok (g s, s)) :
    Persists w settings E m := by
  intro s a s' hrun
  rw [hm] at hrun ⊢
  exact ⟨#[], by cases hrun; exact Array.append_empty.symm, .inr (.inr hrun)⟩

theorem change {m : Execution Unit} {g : State → State} (hm : ∀ w s, m w s = .ok ((), g s))
    (hd : ∀ s, ∃ new, (g s).diagnostics = s.diagnostics ++ new) : Persists w settings (fun _ => False) m := by
  intro s a s' hrun
  rw [hm] at hrun ⊢
  cases hrun
  obtain ⟨new, hnew⟩ := hd s
  exact ⟨new, hnew, .inr (.inr rfl)⟩

theorem bracket {m n : Execution α} (before : State → State) (after : State → State → State)
    (hn : ∀ w s, n w s = (m w (before s)).map fun r => (r.1, after s r.2))
    (hd : ∀ s t, (before s).diagnostics = s.diagnostics ∧ (after s t).diagnostics = t.diagnostics)
    (hm : Persists w settings E m) : Persists w settings E n := by
  intro s a s' hrun
  rw [hn] at hrun
  obtain ⟨t, hinner, rfl⟩ := Bracket.eq_ok hrun
  obtain ⟨new, hnew, h⟩ := hm (before s) a t hinner
  refine ⟨new, ?_, h.imp_right (Or.imp_right fun hsame => ?_)⟩
  · rw [(hd s t).2, hnew, (hd s t).1]
  · rw [hn, hsame]
    rfl

theorem bindAtLimit {m : Evaluation α} {f : α → Evaluation β} (hm : Persists w settings AtLimit m.run)
    (hf : ∀ a, Persists w settings AtLimit (f a).run) : Persists w settings AtLimit (m >>= f).run := by
  refine Persists.bind (f := ExceptT.bindCont f) hm (fun r => ?_) fun r hr s b s' hrun => ?_
  · cases r with
    | ok a => exact hf a
    | error e => exact .pure _
  · obtain ⟨e, rfl, he⟩ := hr
    cases hrun
    exact ⟨e, rfl, he⟩

theorem lift {m : Execution α} (hm : Persists w settings (fun _ => False) m) :
    Persists w settings AtLimit (liftM m : Evaluation α).run := by
  rw [run_lift]
  exact hm.bind (fun _ => .pure _) fun _ hno => hno.elim

theorem inContext (name : String) {m : Evaluation α} (hm : Persists w settings AtLimit m.run) :
    Persists w settings AtLimit (Evaluation.inContext name m).run := by
  rw [run_inContext]
  refine hm.bind (fun _ => .pure _) fun r hr s b s' hrun => ?_
  obtain ⟨e, rfl, he⟩ := hr
  cases hrun
  exact ⟨e.inContext name, rfl, he⟩

theorem absorbing {m : Evaluation Tree} (hm : Persists w settings AtLimit m.run) :
    Persists w settings (fun _ => False) (Execution.absorbing m) := by
  intro s v s'' hrun
  obtain ⟨r, s', hfirst, hrest⟩ := bind_eq_ok hrun
  obtain ⟨new, hnew, h⟩ := hm s r s' hfirst
  cases r with
  | ok a =>
    cases hrest
    refine ⟨new, hnew, h.imp_right fun h => .inr ?_⟩
    rcases h with ⟨_, he, _⟩ | hsame
    · cases he
    · rw [Execution.absorbing, bind_apply, hsame]
      rfl
  | error f =>
    cases hrest
    obtain ⟨last, hlast, hlimit⟩ := diagnostics_absorb s' f
    refine ⟨new ++ last, ?_, ?_⟩
    · rw [← Array.append_assoc, ← hnew]
      exact hlast
    · rcases h with hmet | ⟨_, he, hcause⟩ | hsame
      · exact .inl hmet.left
      · cases he
        exact .inl (hlimit hcause).right
      · rw [Execution.absorbing, bind_apply, hsame]
        exact .inr (.inr rfl)

end Persists

theorem persists_viewInactive {w : World} {settings : Settings} (h : w.settings.IsWithin settings)
    (t target : Tree) : Persists w settings AtLimit (Rule.viewInactive t target).run := by
  intro s r s' hrun
  let mode := s.derived.inactiveMode
  have happly (w : World) : (Rule.viewInactive t target).run w s =
      .ok (.ok (s.viewInactive w mode t target).1, (s.viewInactive w mode t target).2) := rfl
  have hdeepens : SourceView.Deepens
      (SourceView.view (s.sourceView w mode target) t ⟨mode.isBlock, true⟩)
      (SourceView.view (s.sourceView { w with settings } mode target) t ⟨mode.isBlock, true⟩) :=
    SourceView.view_deepens h.viewDepth t _
  obtain ⟨new, hnew, h⟩ := hdeepens s.diagnostics
  rw [happly] at hrun ⊢
  cases hrun
  refine ⟨new, hnew, ?_⟩
  rcases h with ⟨limit, hstopped⟩ | hsame
  · exact .inl ⟨_, hstopped, .inr ⟨limit, rfl⟩⟩
  · have hview : s.viewInactive { w with settings } mode t target = s.viewInactive w mode t target :=
      congrArg (fun view : Tree × Array Diagnostic => (view.1, { s with diagnostics := view.2 })) hsame
    rw [hview]
    exact .inr (.inr rfl)

/-- Whatever evaluation does persists, so there is nothing to ask of trees. -/
def relaxing (w : World) (settings : Settings) : Logic where
  world := w
  Node _ _ := True
  Code _ _ := True
  Argument _ := True
  Reads _ := True
  Assigns _ := True
  Binds _ := True
  Measures := True
  Triple _ _ _ m := Persists w settings (fun _ => False) m
  Accords _ _ _ m := Persists w settings AtLimit m.run

theorem relaxing_lawful {w : World} {settings : Settings} (h : w.settings.IsWithin settings) :
    (relaxing w settings).Lawful where
  returns _ := .pure _
  chain hm hf := hm.bind hf fun _ hno => hno.elim
  mono hm _ _ := hm
  halt _ := by
    intro s a s' hrun
    cases hrun
  ended _ := .pure _
  bind hm hf := hm.bindAtLimit hf
  weaken hm _ := hm
  lift hm := hm.lift
  inContext name hm := hm.inContext name
  absorbing hm := hm.absorbing
  settings {_ _ _ _ k} hk hsame := by
    intro s r s' hrun
    have hfirst : (k w.settings).run w s = .ok (r, s') := hrun
    rcases hk w.settings settings h w s r s' hfirst with hlimit | hmore
    · obtain ⟨new, hnew, _⟩ := hsame w.settings s r s' hfirst
      exact ⟨new, hnew, .inr (.inl hlimit)⟩
    · exact hsame settings s r s' hmore
  world {_ _ _ _ k} hk hsame := by
    intro s a s' hrun
    obtain ⟨new, hnew, h⟩ := hsame w s a s' hrun
    rw [← hk w settings] at h
    exact ⟨new, hnew, h⟩
  reading {_ _ _ _ k} hk hsame := by
    intro s a s' hrun
    obtain ⟨new, hnew, h⟩ := hsame w s a s' hrun
    rw [← hk w settings] at h
    exact ⟨new, hnew, h⟩
  depth := .observe (g := State.depth) fun _ _ => rfl
  units _ := .observe (g := fun s => s.derived.units) fun _ _ => rfl
  readVariable {_ _ x} _ := .observe (g := fun s => s.store.read x) fun _ _ => rfl
  providesVariable {_ _ x} _ := .observe (g := fun s => s.store.provides x) fun _ _ => rfl
  lookupArgument x := .observe (g := fun s => s.scope.lookup? x) fun _ _ => rfl
  consult question path := by
    intro s a s' hrun
    obtain ⟨hfile, rfl⟩ := consult_eq_ok.1 hrun
    exact ⟨#[], Array.append_empty.symm, .inr (.inr (consult_eq_ok.2 ⟨hfile, rfl⟩))⟩
  report r := .change (g := fun s => s.report r) (fun _ _ => rfl) fun s => ⟨#[r], by simp [State.report]⟩
  assigning {_ _ x v} _ _ := .change (g := fun s => s.assign x v) (fun _ _ => rfl) fun s =>
    ⟨#[], (s.diagnostics_assign x v).trans Array.append_empty.symm⟩
  binding {_ _ _ _ x v m} _ _ hm :=
    .bracket (·.writeLoggedUpdate x v) (fun s t => t.putBack x (s.store.get? x)) (binding_apply x v m)
      (fun _ _ => ⟨rfl, rfl⟩) hm
  withFrame {_ _ _ _ f m} _ hm :=
    .bracket (·.enter f) (fun _ t => t.leave) (withFrame_apply f m) (fun _ _ => ⟨rfl, rfl⟩) hm
  below {_ _ level _ _ m} _ hm :=
    .bracket (·.suspend level) (fun s t => t.resume (s.scope.above level)) (below_apply level m)
      (fun _ _ => ⟨rfl, rfl⟩) hm
  deeper {_ _ _ _ m} hm :=
    .bracket (·.descend) (fun _ t => t.ascend) (deeper_apply m) (fun _ _ => ⟨rfl, rfl⟩) hm
  own _ _ _ := trivial
  fewer _ _ _ _ _ := trivial
  tag _ _ _ _ := trivial
  itself _ := .of_forall (fun _ _ => trivial) _
  part _ _ := ⟨trivial, .of_forall (fun _ _ => trivial) _⟩
  permits {d f} _ := by cases f <;> simp [Logic.Permits, relaxing]
  computed _ := ⟨fun _ => trivial, fun _ _ => ⟨fun _ _ => trivial, fun _ _ _ => trivial, fun _ _ _ _ => trivial⟩⟩
  rerun {_ _ _ y} _ _ := .observe (g := fun s => s.bound y) fun _ _ => rfl
  included _ _ _ := trivial
  argument _ := .of_forall (fun _ _ => trivial) _
  delayed _ _ _ := trivial
  template _ _ := .of_uses (.of_forall (fun _ _ _ => trivial) _)
  reference _ := .of_forall (fun _ _ => trivial) _
  attachment _ := .of_forall (fun _ _ => trivial) _
  property _ := .of_forall (fun _ _ => trivial) _
  viewInactive {_ _ t target} _ := persists_viewInactive h t target
  application {_ _ m _} _ := .observe (g := fun s => s.store.read m) fun _ _ => rfl

theorem exec_relaxed {fuel : Nat} {w : World} {s s' : State} {t r : Tree} {settings : Settings}
    (h : w.settings.IsWithin settings) (hrun : (exec fuel t).run w s = .ok (r, s')) :
    ∃ new, s'.diagnostics = s.diagnostics ++ new ∧ ((∀ d ∈ new, ¬ d.TellsLimit) →
      (exec fuel t).run { w with settings } s = .ok (r, s')) := by
  have hL := relaxing_lawful h
  have hexec : Persists w settings (fun _ => False) (exec fuel t) :=
    hL.exec (hL.runs_eval fuel s.depth True t fun _ => trivial)
  obtain ⟨new, hnew, hlimit | hno | hsame⟩ := hexec s r s' hrun
  · obtain ⟨d, hd, htells⟩ := hlimit
    exact ⟨new, hnew, fun h => absurd htells (h d hd)⟩
  · exact hno.elim
  · exact ⟨new, hnew, fun _ => hsame⟩

def dividing : Tree :=
  .node (.user "m") [.node Primitive.divide [.atom "1", .atom "0"]]

theorem exec_relaxed_dividing :
    let strict : Settings := { strict := true, maxRecursionDepth := 1, maxViewDepth := 0 }
    let s := (State.fresh 600 default).write "m"
      (.node Primitive.macroDef [.atom "x", .node Primitive.arg [.atom "x"]])
    strict.IsWithin {} ∧ ∃ r s', (exec 9 dividing).run { base := "", settings := strict } s = .ok (r, s') ∧
      (exec 9 dividing).run { base := "" } s = .ok (r, s') ∧ r.isError := by
  intro strict s
  have h : strict.IsWithin {} := ⟨by decide, by decide, by decide, by decide⟩
  refine ⟨h, _, _, rfl, ?_, rfl⟩
  obtain ⟨new, hnew, hsame⟩ := @exec_relaxed 9 { base := "", settings := strict } s _ dividing _ {} h rfl
  have hreported : new = #[⟨.error, (Cause.divisionByZero .divide).message, some "divide"⟩] :=
    Array.empty_append.symm.trans hnew.symm
  refine hsame fun d hd => ?_
  rw [hreported] at hd
  rw [Array.mem_singleton.1 hd, Fault.tellsLimit_iff (f := ⟨.divisionByZero .divide, some "divide"⟩) rfl]
  decide

end Typesetter

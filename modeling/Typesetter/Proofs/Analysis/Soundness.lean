import Typesetter.Proofs.Analysis.Coverage
import Typesetter.Proofs.Logic.Rules
/-!
Comparisons are a logic whose code is the covered trees: the rules start no others. So evaluation of
covered trees accords, whatever the depth.
-/

namespace Typesetter

open Dependency

variable {C : Comparison} {d level : Nat} {eval : Evaluator} {tag : Tag} {cs : List Tree} {t c : Tree}
  {m : String}

namespace Comparison

/-- Trees that the analysis finds not to read the variable, with all levels of application looked into
that evaluation can still reach. -/
def Code (C : Comparison) (d : Nat) (t : Tree) : Prop :=
  t.Every (Plain C.macros C.late) ∧ ∃ level,
    ((∃ m, C.macros m) → C.world.settings.maxRecursionDepth ≤ d + level) ∧
      reads (macroReads C.store C.name level) C.name t = false

structure Rooted (C : Comparison) : Prop extends C.Grounds where
  body (m : String) : C.macros m → m ≠ C.name → (C.store.read m).Every (Plain C.macros C.late)
  code (m : String) (i : Nat) (t : Tree) :
    C.macros m → C.world.registry.default? m i = some t → C.Code 0 t
  deferred (t : Tree) : (∃ m, C.macros m) → C.late t → C.Code 0 t

namespace Code

theorem child (h : C.Code d (.node tag cs)) (hc : c ∈ cs) : C.Code d c := by
  obtain ⟨hplain, level, hlevel, hreads⟩ := h
  exact ⟨hplain.child hc, level, hlevel, reads_child hplain.here hreads hc⟩

theorem value (h : C.Code d t) : C.Value t := h.1.mono fun _ _ => Plain.defers

theorem anywhere (h : C.Code 0 t) : C.Code d t := by
  obtain ⟨hplain, level, hlevel, hreads⟩ := h
  refine ⟨hplain, level, fun hmacros => ?_, hreads⟩
  have := hlevel hmacros
  omega

theorem of_delayed (hC : C.Rooted) {v : Tree} (h : C.Argument v) (hv : v.isDelayed) (hc : c ∈ v.children) :
    C.Code d c :=
  (hC.deferred c h.1 (Tree.Defers.delayed (every_defers h.2 h.1) hv hc)).anywhere

theorem applied (h : C.Code d (.node (.user m) cs)) : C.macros m ∧ m ≠ C.name := by
  obtain ⟨hplain, level, _, hreads⟩ := h
  rw [reads, Bool.or_eq_false_iff] at hreads
  exact ⟨hplain.here, ne_of_macroReads hreads.1⟩

theorem body (hC : C.Rooted) (h : C.Code d (.node (.user m) cs)) (hm : (C.store.read m).isMacroDef)
    (hd : d < C.world.settings.maxRecursionDepth)
    (hbody : (C.store.read m).children.getLast? = some t) : C.Code (d + 1) t := by
  obtain ⟨happlied, hn⟩ := h.applied
  obtain ⟨_, level, hlevel, hreads⟩ := h
  rw [reads, Bool.or_eq_false_iff] at hreads
  obtain ⟨below, hbelow, hreads⟩ := reads_body_within hreads.1 (hlevel ⟨m, happlied⟩) hd hm hbody
  have hplain := (hC.body m happlied hn).of_mem_children (List.mem_of_getLast? hbody)
  exact ⟨hplain, below, fun _ => hbelow, hreads⟩

theorem spares {q : Primitive} (h : C.Code d (.node (.prim q) cs)) {f : Form}
    (hf : Form.ofPrimitive? q cs = some f) : f.Spares C.macros C.late C.name := by
  obtain ⟨hplain, level, _, hreads⟩ := h
  rw [reads, Bool.or_eq_false_iff] at hreads
  exact Form.spares_ofPrimitive? hplain.here hreads.1 hf

end Code

def logic (C : Comparison) : Logic where
  world := C.world
  Node := C.Node
  Code := C.Code
  Argument := C.Argument
  Reads x := x ≠ C.name
  Assigns x := ¬ C.macros x
  Binds x := ¬ C.macros x
  Measures := ¬ isUnitVariable C.name
  Triple d c P m := c → C.Matches d P m
  Accords d c P m := c → C.Accords d P m

variable {f : Form}

theorem spares_of_formed (h : C.logic.Formed d f) : f.Spares C.macros C.late C.name := by
  obtain ⟨p, cs, hcode, hf⟩ := h
  exact Code.spares hcode hf

theorem matches_application (hC : C.Rooted) (h : C.Code d (.node (.user m) cs)) :
    C.Matches d (C.logic.Applies d m) (Execution.readVariable m) := by
  obtain ⟨hm, hn⟩ := h.applied
  refine .observe (g := fun s => s.store.read m) (fun _ => rfl) fun s s' hs => ⟨?_, hs.alike.read hn⟩
  rw [hs.fits.defined m hm hn]
  exact
    { argument := fun v hv => ⟨⟨m, hm⟩, hv⟩
      default := fun i t ht => (hC.code m i t hm ht).anywhere
      body := fun b hdefined hd hb => h.body hC hdefined hd hb }

theorem accords_viewInactive (hC : C.Grounds) {target : Tree} {f : String → Bool} (ht : C.Value t)
    (hreads : reads f C.name target = false)
    (h : (Form.viewInactive t target).Spares C.macros C.late C.name) :
    C.Accords d C.Value (Rule.viewInactive t target) :=
  .viewInactive hC ht h.1 (fun _ hg => target_ne hreads h.2.1 hg) fun _ hm => h.2.2 (isAtom_of_application hm)

theorem matches_viewInactive (hC : C.Rooted) {target : Tree} (h : C.logic.Formed d (.viewInactive t target)) :
    C.Accords d C.Value (Rule.viewInactive t target) := by
  obtain ⟨p, cs, hcode, hf⟩ := h
  have hshown : ∀ u ∈ (Form.viewInactive t target).shown, C.Code d u := fun u hu =>
    Code.child hcode (Form.shown_ofPrimitive? hf u hu)
  obtain ⟨_, _, _, hreads⟩ := hshown target (.tail _ (.head _))
  exact accords_viewInactive hC.toGrounds (hshown t (.head _)).value hreads (Code.spares hcode hf)

theorem prompt_own : ∀ p ∈ Logic.ownPrimitives, Tag.IsPrompt p := by decide

theorem template_of_quasiquote (h : C.Value (.node Primitive.quasiquote cs)) (hc : c ∈ cs) :
    c.Template (Tree.Always C.Node) := by
  by_cases hm : ∃ m, C.macros m
  · exact (h.here hm c hc).2.mono fun _ => always_node
  · exact .of_uses (.of_forall (fun _ _ _ hm' => absurd hm' hm) c)

theorem plain (C : Comparison) : C.logic.Plain where
  returns ha hc := .pure (ha hc)
  chain hm hf hc := (hm hc).bind fun a ha => hf a ⟨hc, ha⟩
  mono hm hc hP hc' := (hm (hc hc')).mono fun a => hP a hc'
  halt h _ := .halt h
  accords := Iff.rfl
  looks _ := .world
  absorb h hc := .absorb (h hc)

theorem lawful (hC : C.Rooted) : C.logic.Lawful where
  toComposes := (plain C).toComposes
  toCarries := (plain C).carries
  settings _ h := (plain C).settings h
  world _ h := (plain C).chain (plain C).looks h
  reading _ h := (plain C).reading h
  depth _ := .observe (g := State.depth) (fun _ => rfl) fun _ _ h => ⟨h.fits.depth, h.alike.depth⟩
  units hm hc := .units (hm hc)
  readVariable hx hc := .readVariable (hx hc)
  providesVariable hx hc := .providesVariable (hx hc)
  lookupArgument x _ := .lookupArgument x
  consult question path _ := .consult question path
  report r _ := .report r
  assigning hx hv hc := .assign (hx hc) (hv hc)
  binding {_ _ _ _ x v m} hx hv hm hc :=
    .bracket (·.writeLoggedUpdate x v) (fun s t => t.putBack x (s.store.get? x))
      (binding_apply x v m C.world) (fun _ _ h => h.write (hx hc) (hv hc))
      (fun _ _ _ _ h h' => h.putBack h' (hx hc)) (hm hc)
  withFrame {_ _ _ _ f m} hf hm hc :=
    .bracket (·.enter f) (fun _ t => t.leave) (withFrame_apply f m C.world)
      (fun _ _ h => h.enter (hf hc)) (fun _ _ _ _ _ h' => h'.leave) (hm hc)
  below {_ _ level _ _ m} _ hm hc :=
    .bracket (·.suspend level) (fun s t => t.resume (s.scope.above level)) (below_apply level m C.world)
      (fun _ _ h => h.suspend level) (fun _ _ _ _ h h' => h.resume h' level) (hm hc)
  deeper {_ _ _ _ m} hm hc :=
    .bracket (·.descend) (fun _ t => t.ascend) (deeper_apply m C.world) (fun _ _ h => h.descend)
      (fun _ _ _ _ _ h' => h'.ascend) (hm hc)
  viewInactive h hc := matches_viewInactive hC (h hc)
  own p hp := always_node (prompt_own p hp)
  fewer _ _ _ h hds hm := (h hm).fewer hds
  tag _ hprompt _ := always_node hprompt
  itself h := h.value
  part h ht := ⟨h.child ht, (h.child ht).value⟩
  permits {d f} h := by
    have hspares := spares_of_formed h
    cases f <;> first
      | exact hspares
      | exact hspares.elim
      | trivial
  application h hc := matches_application hC (h hc)
  computed h := (spares_of_formed h).elim
  rerun h _ hc := (spares_of_formed (h hc)).elim
  included h := (spares_of_formed h).elim
  argument h := h.2
  delayed := .of_delayed hC
  template := template_of_quasiquote
  reference := hC.binding _ _
  attachment := hC.attachment _ _
  property := hC.property _ _ _

theorem eval_accords (hC : C.Rooted) (fuel : Nat) :
    ∀ d t, C.Code d t → C.Evaluates d (Typesetter.eval fuel) t := by
  exact fun d t h => (lawful hC).runs_eval fuel d True t (fun _ => h) trivial

end Comparison

end Typesetter

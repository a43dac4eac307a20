import Typesetter.Macro.SourceView
/-!
Making a source view does nothing to the diagnostics but add to them. A contract says what is asked of
trees and what their views are together with the diagnostics added; it holds of every view if all the
ways to show a node keep it.
-/

namespace Typesetter

def Primitive.copiedAs? : Primitive → Option Primitive
  | arg => some srcArg
  | value => some srcValue
  | symbol => some srcSymbol
  | hybrid => some srcHybrid
  | uninit => some uninit
  | error => some error
  | srcArg => some srcArg
  | srcValue => some srcValue
  | srcSymbol => some srcSymbol
  | srcHybrid => some srcHybrid
  | srcRaw => some srcRaw
  | srcHighlight => some srcHighlight
  | srcExpand => some srcExpand
  | inlineTag => some inlineTag
  | openTag => some openTag
  | closeTag => some closeTag
  | _ => none

namespace SourceView

variable {α β : Type} {P P' : α → Array Diagnostic → Prop} {Q : β → Array Diagnostic → Prop}
  {s : Setting} {mark : Marking} {layout : Layout} {name : String} {tag : Tag} {t : Tree}
  {cs : List Tree} {new : Array Diagnostic}

inductive Planned (s : Setting) (cs : List Tree) : Tag → Plan → Prop
  | copied {p q : Primitive} : p.copiedAs? = some q → Planned s cs p (.leaf (.node q cs))
  | raw : Planned s cs Primitive.rawData (.leaf (.node Primitive.srcRaw [.atom (rawText cs)]))
  | kept {p : Primitive} (l : Tree → Layout) : p = .document ∨ p = .concat →
      Planned s cs p (.children l (.node p))
  | tagged {tag : Tag} (l : Tree → Layout) (name : String) (layout : Layout) (block : Bool) :
      Planned s cs tag (.children l (s.tagView name layout block))
  | headed (l : Tree → Layout) (name : String) (layout : Layout) (block : Bool) :
      Planned s cs Primitive.compound (.tail l (s.tagView name layout block))

theorem copiedAs?_eq_some {p q : Primitive} (h : p.copiedAs? = some q) :
    q = p ∨ q ∈ [Primitive.srcArg, .srcValue, .srcSymbol, .srcHybrid] := by
  cases p <;> cases h <;> decide

theorem plan_planned (s : Setting) (tag : Tag) (cs : List Tree) (layout : Layout) :
    Planned s cs tag (s.plan tag cs layout) := by
  cases tag with
  | user name => exact .tagged _ name layout _
  | prim p =>
    have hspecial {p : Primitive} (l : Tree → Layout) (hp : p = .document ∨ p = .concat) :
        Planned s cs p (if s.special = .raw then s.tagChildren p.name layout cs
          else .children l (.node p)) := by
      by_cases h : s.special = .raw
      · rw [if_pos h]
        exact .tagged _ _ _ _
      · rw [if_neg h]
        exact .kept l hp
    cases p
    case document => exact hspecial _ (.inl rfl)
    case concat => exact hspecial _ (.inr rfl)
    case rawData => exact .raw
    case compound =>
      rcases cs with _ | ⟨_ | _, args⟩
      · exact .tagged _ _ _ _
      · exact .headed _ _ _ _
      · exact .tagged _ _ _ _
    all_goals
      first
      | exact .copied rfl
      | exact .tagged _ _ _ _

def framePrimitives : List Primitive := [.document, .concat, .inlineTag, .openTag, .closeTag]

section Frame

variable {R : Tree → Prop} (hatom : ∀ label, R (.atom label))
  (hnode : ∀ p ∈ framePrimitives, ∀ vs : List Tree, (∀ v ∈ vs, R v) → R (.node p vs))
  {vs : List Tree}

include hnode

include hatom in
theorem closeTag_of (hvs : ∀ v ∈ vs, R v) : R (s.closeTag name vs) := by
  refine hnode _ (by decide) _ ?_
  cases s.close with
  | compact => exact List.forall_mem_nil _
  | long => exact List.forall_mem_singleton.2 (hatom name)
  | «repeat» =>
    exact List.forall_mem_cons.2 ⟨hatom name, fun v hv => hvs v (List.mem_of_mem_take hv)⟩

theorem blockLines_of (flush : Bool) {opening closing : Tree} (ho : R opening) (hvs : ∀ v ∈ vs, R v)
    (hc : R closing) : ∀ v ∈ Setting.blockLines flush opening vs closing, R v := by
  have hlines : ∀ v ∈ opening :: vs, R v := List.forall_mem_cons.2 ⟨ho, hvs⟩
  cases flush with
  | true => exact List.forall_mem_append.2 ⟨hlines, List.forall_mem_singleton.2 hc⟩
  | false =>
    have hlast : R ((opening :: vs).getLastD opening) := by
      rcases List.mem_cons.1 (List.getLastD_mem_cons (l := opening :: vs)) with he | hmem
      · rw [he]
        exact ho
      · exact hlines _ hmem
    refine List.forall_mem_append.2 ⟨fun v hv => hlines v (List.dropLast_subset _ hv), ?_⟩
    refine List.forall_mem_singleton.2 (hnode _ (by decide) _ ?_)
    exact List.forall_mem_cons.2 ⟨hlast, List.forall_mem_singleton.2 hc⟩

include hatom in
theorem tagView_of (block : Bool) (hvs : ∀ v ∈ vs, R v) : R (s.tagView name layout block vs) := by
  unfold Setting.tagView
  cases block with
  | true =>
    have hopening : R (.node Primitive.openTag [.atom name]) :=
      hnode _ (by decide) _ (List.forall_mem_singleton.2 (hatom name))
    exact hnode _ (by decide) _
      (blockLines_of hnode layout.flush hopening hvs (closeTag_of hatom hnode hvs))
  | false => exact hnode _ (by decide) _ (List.forall_mem_cons.2 ⟨hatom name, hvs⟩)

end Frame

/-- Diagnostics are only added, and the result together with them is as said. -/
def Gives (P : α → Array Diagnostic → Prop) (m : Rendering α) : Prop :=
  ∀ ds, ∃ new, (m.run ds).2 = ds ++ new ∧ P (m.run ds).1 new

namespace Gives

theorem pure {a : α} (ha : P a #[]) : Gives P (pure a) :=
  fun _ => ⟨#[], Array.append_empty.symm, ha⟩

theorem bind {m : Rendering α} {f : α → Rendering β} (hm : Gives P m)
    (hf : ∀ a first, P a first → Gives (fun b second => Q b (first ++ second)) (f a)) :
    Gives Q (m >>= f) := by
  intro ds
  obtain ⟨first, hfirst, ha⟩ := hm ds
  obtain ⟨second, hsecond, hb⟩ := hf (m.run ds).1 first ha (m.run ds).2
  refine ⟨first ++ second, ?_, hb⟩
  rw [← Array.append_assoc, ← hfirst]
  exact hsecond

theorem mono {m : Rendering α} (hm : Gives P m) (h : ∀ a new, P a new → P' a new) : Gives P' m := by
  intro ds
  obtain ⟨new, hnew, ha⟩ := hm ds
  exact ⟨new, hnew, h _ new ha⟩

theorem map {m : Rendering α} {f : α → β} (hm : Gives P m) (hf : ∀ a new, P a new → Q (f a) new) :
    Gives Q (f <$> m) := by
  intro ds
  obtain ⟨new, hnew, ha⟩ := hm ds
  exact ⟨new, hnew, hf _ new ha⟩

theorem record (d : Diagnostic) : Gives (fun _ new => new = #[d]) (record d) :=
  fun ds => ⟨#[d], by simp; rfl, rfl⟩

end Gives

/-- What is asked of trees, and what their views are. -/
structure Contract where
  Source : Tree → Prop
  Outcome : Tree → Array Diagnostic → Prop

namespace Contract

variable {C D : Contract}

inductive Outcomes (C : Contract) : List Tree → Array Diagnostic → Prop
  | nil : Outcomes C [] #[]
  | cons {v : Tree} {vs : List Tree} {first rest : Array Diagnostic} :
      C.Outcome v first → Outcomes C vs rest → Outcomes C (v :: vs) (first ++ rest)

structure Covers (C : Contract) (s : Setting) : Prop where
  atom (label : String) : C.Outcome (.atom label) #[]
  child {tag : Tag} {cs : List Tree} {c : Tree} : C.Source (.node tag cs) → c ∈ cs → C.Source c
  copied {p q : Primitive} {cs : List Tree} : C.Source (.node p cs) → p.copiedAs? = some q →
    C.Outcome (.node q cs) #[]
  raw (text : String) : C.Outcome (.node Primitive.srcRaw [.atom text]) #[]
  kept {p : Primitive} {vs : List Tree} {new : Array Diagnostic} : p = .document ∨ p = .concat →
    C.Outcomes vs new → C.Outcome (.node p vs) new
  tagged (name : String) (layout : Layout) (block : Bool) {vs : List Tree} {new : Array Diagnostic} :
    C.Outcomes vs new → C.Outcome (s.tagView name layout block vs) new

def ofTree (Source R : Tree → Prop) : Contract where
  Source := Source
  Outcome v _ := R v

theorem Outcomes.forall_outcome {Source R : Tree → Prop} {vs : List Tree}
    (h : (ofTree Source R).Outcomes vs new) : ∀ v ∈ vs, R v := by
  induction h with
  | nil => exact List.forall_mem_nil _
  | cons hv _ ih => exact List.forall_mem_cons.2 ⟨hv, ih⟩

theorem covers_ofTree {Source R : Tree → Prop} (hatom : ∀ label, R (.atom label))
    (hnode : ∀ p ∈ Primitive.srcRaw :: framePrimitives, ∀ vs : List Tree, (∀ v ∈ vs, R v) → R (.node p vs))
    (hchild : ∀ tag cs c, Source (.node tag cs) → c ∈ cs → Source c)
    (hcopied : ∀ (p q : Primitive) cs, Source (.node p cs) → p.copiedAs? = some q → R (.node q cs)) :
    (ofTree Source R).Covers s where
  atom := hatom
  child := hchild _ _ _
  copied := hcopied _ _ _
  raw text := hnode _ (by decide) _ (List.forall_mem_singleton.2 (hatom text))
  kept {p vs new} hp h := by
    have hframe : p ∈ Primitive.srcRaw :: framePrimitives := by
      rcases hp with rfl | rfl <;> decide
    exact hnode p hframe vs h.forall_outcome
  tagged name layout block {vs new} h :=
    tagView_of hatom (fun p hp => hnode p (List.mem_cons_of_mem _ hp)) block h.forall_outcome

def Marks (C : Contract) (s : Setting) (mark : Marking) : Prop :=
  ∀ tag cs layout plain, s.isTarget tag cs → C.Source (.node tag cs) → Gives C.Outcome plain →
    Gives C.Outcome (mark (.node tag cs) layout plain)

mutual

theorem render_gives (hC : C.Covers s) (hm : C.Marks s mark) (t : Tree) (layout : Layout)
    (ht : C.Source t) : Gives C.Outcome (render s mark t layout) := by
  cases t with
  | atom label => exact .pure (hC.atom label)
  | node tag cs =>
    have hcs : ∀ c ∈ cs, C.Source c := fun c hc => hC.child ht hc
    have hplain : Gives C.Outcome (match s.plan tag cs layout with
        | .leaf view => pure view
        | .children childLayout build => build <$> renderList s mark childLayout cs
        | .tail childLayout build => build <$> renderTail s mark childLayout cs) := by
      have hplan := plan_planned s tag cs layout
      generalize s.plan tag cs layout = plan at hplan ⊢
      cases hplan with
      | copied hq => exact .pure (hC.copied ht hq)
      | raw => exact .pure (hC.raw _)
      | kept l hp => exact .map (renderList_gives hC hm l cs hcs) fun _ _ => hC.kept hp
      | tagged l name layout block =>
        exact .map (renderList_gives hC hm l cs hcs) fun _ _ => hC.tagged name layout block
      | headed l name layout block =>
        exact .map (renderTail_gives hC hm l cs hcs) fun _ _ => hC.tagged name layout block
    rw [render]
    by_cases htarget : s.isTarget tag cs
    · simp only [if_pos htarget]
      exact hm tag cs layout _ htarget ht hplain
    · simp only [if_neg htarget]
      exact hplain

theorem renderList_gives (hC : C.Covers s) (hm : C.Marks s mark) (layout : Tree → Layout)
    (cs : List Tree) (hcs : ∀ c ∈ cs, C.Source c) :
    Gives C.Outcomes (renderList s mark layout cs) := by
  cases cs with
  | nil => exact .pure .nil
  | cons c cs =>
    obtain ⟨hc, hrest⟩ := List.forall_mem_cons.1 hcs
    refine .bind (render_gives hC hm c (layout c) hc) fun v first hv => ?_
    refine .bind (renderList_gives hC hm layout cs hrest) fun vs rest hvs => .pure ?_
    rw [Array.append_empty]
    exact .cons hv hvs

theorem renderTail_gives (hC : C.Covers s) (hm : C.Marks s mark) (layout : Tree → Layout)
    (cs : List Tree) (hcs : ∀ c ∈ cs, C.Source c) :
    Gives C.Outcomes (renderTail s mark layout cs) := by
  cases cs with
  | nil => exact .pure .nil
  | cons c cs => exact renderList_gives hC hm layout cs (List.forall_mem_cons.1 hcs).2

end

structure Highlights (C D : Contract) (s : Setting) : Prop where
  expands {tag : Tag} {cs : List Tree} {e : Tree} : s.isTarget tag cs → C.Source (.node tag cs) →
    s.expansion? (.node tag cs) = some e → D.Source e
  highlighted {v : Tree} {new : Array Diagnostic} : C.Outcome v new →
    C.Outcome (.node Primitive.srcHighlight [v]) new
  stopped {v : Tree} {new : Array Diagnostic} : C.Outcome v new →
    C.Outcome v (new ++ #[stopped s.maxDepth])
  expanded {v e : Tree} {first second : Array Diagnostic} : C.Outcome v first → D.Outcome e second →
    C.Outcome (.node Primitive.srcExpand [v, e]) (first ++ second)

theorem highlight_marks {deeper : Option (Tree → Layout → Rendering Tree)}
    (hd : ∀ expand ∈ deeper, ∀ t layout, D.Source t → Gives D.Outcome (expand t layout))
    (h : C.Highlights D s) : C.Marks s (highlight s deeper) := by
  intro tag cs layout plain htarget ht hplain
  refine .bind hplain fun v first hv => ?_
  have hlight : C.Outcome (.node Primitive.srcHighlight [v]) first := h.highlighted hv
  have hunknown : Gives (fun b second => C.Outcome b (first ++ second))
      (pure (.node Primitive.srcHighlight [v])) :=
    .pure (by rwa [Array.append_empty])
  cases deeper with
  | none =>
    refine .bind (.record _) fun _ new hnew => .pure ?_
    rw [Array.append_empty, hnew]
    exact h.stopped hlight
  | some expand =>
    dsimp only
    cases hexp : s.expansion? (.node tag cs) with
    | none => exact hunknown
    | some e =>
      have hview := hd expand rfl e layout (h.expands htarget ht hexp)
      refine .bind hview fun view second he => .pure ?_
      rw [Array.append_empty]
      exact h.expanded hlight he

theorem markNested_marks {deeper : Option (Tree → Layout → Rendering Tree)}
    (h : s.policy = .recurse → C.Marks s (highlight s deeper))
    (hrefused : s.policy = .error → ∀ d, (nestedFault s).diagnostic? = some d →
      C.Outcome (nestedFault s).toTree #[d]) : C.Marks s (markNested s deeper) := by
  intro tag cs layout plain htarget ht hplain
  unfold markNested
  cases hp : s.policy with
  | recurse => exact h hp tag cs layout plain htarget ht hplain
  | once => exact hplain
  | error =>
    refine .bind (.record _) fun _ new hnew => .pure ?_
    rw [Array.append_empty, hnew]
    exact hrefused hp _ rfl

structure Steady (C : Contract) (s : Setting) : Prop extends C.Covers s, C.Highlights C s where
  refused (d : Diagnostic) : s.policy = .error → (nestedFault s).diagnostic? = some d →
    C.Outcome (nestedFault s).toTree #[d]

theorem renderNested_gives {C : Nat → Contract} (hC : ∀ n, (C n).Covers s)
    (hlast : (C 0).Marks s (markNested s none))
    (hlevel : ∀ n expand, (∀ t layout, (C n).Source t → Gives (C n).Outcome (expand t layout)) →
      (C (n + 1)).Marks s (markNested s (some expand)))
    (levels : Nat) (t : Tree) (layout : Layout) (ht : (C levels).Source t) :
    Gives (C levels).Outcome (renderNested s levels t layout) := by
  induction levels generalizing t layout with
  | zero => exact render_gives (hC 0) hlast t layout ht
  | succ levels ih => exact render_gives (hC (levels + 1)) (hlevel levels _ ih) t layout ht

theorem view_gives (h : C.Steady s) (t : Tree) (layout : Layout) (ht : C.Source t) :
    Gives C.Outcome (view s t layout) := by
  have hnested (deeper : Option (Tree → Layout → Rendering Tree))
      (hd : ∀ expand ∈ deeper, ∀ t layout, C.Source t → Gives C.Outcome (expand t layout)) :
      C.Marks s (markNested s deeper) :=
    markNested_marks (fun _ => highlight_marks hd h.toHighlights) fun hp d => h.refused d hp
  unfold view
  cases s.maxDepth with
  | zero => exact render_gives h.toCovers (highlight_marks (by simp) h.toHighlights) t layout ht
  | succ levels =>
    refine render_gives h.toCovers (highlight_marks (fun expand hx => ?_) h.toHighlights) t layout ht
    cases Option.some.inj hx
    refine renderNested_gives (C := fun _ => C) (fun _ => h.toCovers) (hnested none (by simp))
      (fun _ expand he => hnested (some expand) fun _ hx => ?_) levels
    exact Option.some.inj hx ▸ he

end Contract

end SourceView

end Typesetter

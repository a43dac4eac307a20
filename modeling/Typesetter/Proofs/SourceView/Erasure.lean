import Typesetter.Evaluation.State
import Typesetter.Proofs.SourceView.Outcome

namespace Typesetter

namespace Tree

def unmark : Tag → List Tree → Tree
  | .prim .srcExpand, [shown, _] => shown
  | .prim .srcHighlight, [shown] => shown
  | tag, vs => .node tag vs

mutual

def erase : Tree → Tree
  | .atom label => .atom label
  | .node tag cs => unmark tag (eraseList cs)

def eraseList : List Tree → List Tree
  | [] => []
  | c :: cs => c.erase :: eraseList cs

end

theorem eraseList_eq_map (ts : List Tree) : eraseList ts = ts.map erase := by
  induction ts with
  | nil => rfl
  | cons c cs ih => rw [eraseList, ih, List.map_cons]

theorem erase_atom (label : String) : (atom label).erase = .atom label := rfl

theorem erase_node {p : Primitive} (hp : p ≠ .srcExpand ∧ p ≠ .srcHighlight) (cs : List Tree) :
    (node p cs).erase = .node p (cs.map erase) := by
  rw [erase, eraseList_eq_map]
  cases p
  case srcExpand => exact absurd rfl hp.1
  case srcHighlight => exact absurd rfl hp.2
  all_goals rfl

end Tree

namespace SourceView

open Typesetter.Tree

variable {s : Setting} {mark mark' : Marking} {α : Type}

theorem erase_closeTag (name : String) (vs : List Tree) :
    (s.closeTag name vs).erase = s.closeTag name (vs.map erase) := by
  rw [Setting.closeTag, erase_node (by decide), Setting.closeTag]
  cases s.close with
  | compact => rfl
  | long => rfl
  | «repeat» => simp [List.map_take, erase_atom]

theorem erase_getLastD (vs : List Tree) (v : Tree) :
    (vs.getLastD v).erase = (vs.map erase).getLastD v.erase := by
  induction vs generalizing v with
  | nil => rfl
  | cons u us ih => simp only [List.getLastD_cons, List.map_cons, ih]

theorem map_erase_blockLines (flush : Bool) (opening closing : Tree) (vs : List Tree) :
    (Setting.blockLines flush opening vs closing).map erase =
      Setting.blockLines flush opening.erase (vs.map erase) closing.erase := by
  cases flush with
  | true => simp [Setting.blockLines]
  | false =>
    have hconcat (a b : Tree) : (node Primitive.concat [a, b]).erase =
        .node Primitive.concat [a.erase, b.erase] := erase_node (by decide) [a, b]
    simp only [Setting.blockLines, Bool.false_eq_true, if_false, List.map_append, List.map_dropLast,
      hconcat, erase_getLastD, List.map_cons, List.map_nil]

theorem erase_tagView (name : String) (layout : Layout) (block : Bool) (vs : List Tree) :
    (s.tagView name layout block vs).erase = s.tagView name layout block (vs.map erase) := by
  unfold Setting.tagView
  cases block with
  | true =>
    have hopening : (node Primitive.openTag [.atom name]).erase =
        .node Primitive.openTag [.atom name] := erase_node (by decide) [.atom name]
    simp only [if_true, erase_node (p := .document) (by decide), map_erase_blockLines, hopening, erase_closeTag]
  | false => exact erase_node (by decide) (.atom name :: vs)

mutual

def bare (plan : Tag → List Tree → Layout → Plan) : Tree → Layout → Tree
  | .atom label, _ => .atom label
  | .node tag cs, layout =>
    match plan tag cs layout with
    | .leaf view => view
    | .children childLayout build => build (bareList plan childLayout cs)
    | .tail childLayout build => build (bareTail plan childLayout cs)

def bareList (plan : Tag → List Tree → Layout → Plan) (layout : Tree → Layout) : List Tree → List Tree
  | [] => []
  | c :: cs => bare plan c (layout c) :: bareList plan layout cs

def bareTail (plan : Tag → List Tree → Layout → Plan) (layout : Tree → Layout) : List Tree → List Tree
  | [] => []
  | _ :: cs => bareList plan layout cs

end

def Amounts (m : Rendering Tree) (v : Tree) : Prop := ∀ ds, (m.run ds).1.erase = v.erase

def AllAmount (m : Rendering (List Tree)) (vs : List Tree) : Prop :=
  ∀ ds, (m.run ds).1.map erase = vs.map erase

def Annotates (mark : Marking) : Prop :=
  ∀ t layout plain v, Amounts plain v → Amounts (mark t layout plain) v

theorem highlight_annotates (deeper : Option (Tree → Layout → Rendering Tree)) :
    Annotates (highlight s deeper) := by
  intro t layout plain v h ds
  have hplain : (plain.run ds).1.erase = v.erase := h ds
  cases deeper with
  | none => exact hplain
  | some expand =>
    unfold highlight
    cases s.expansion? t with
    | none => exact hplain
    | some e => exact hplain

mutual

theorem render_amounts (hm : Annotates mark) (t : Tree) (layout : Layout) :
    Amounts (render s mark t layout) (bare s.plan t layout) := by
  cases t with
  | atom label => exact fun _ => rfl
  | node tag cs =>
    have hplain : Amounts (match s.plan tag cs layout with
        | .leaf view => pure view
        | .children childLayout build => build <$> renderList s mark childLayout cs
        | .tail childLayout build => build <$> renderTail s mark childLayout cs)
        (bare s.plan (.node tag cs) layout) := by
      have hplan := plan_planned s tag cs layout
      rw [bare]
      generalize s.plan tag cs layout = plan at hplan ⊢
      intro ds
      cases hplan with
      | copied hq => rfl
      | raw => rfl
      | @kept p l hp =>
        have hown : p ≠ .srcExpand ∧ p ≠ .srcHighlight := by
          rcases hp with rfl | rfl <;> decide
        have hcs : (((renderList s mark l cs).run ds).1).map erase = _ := renderList_amounts hm l cs ds
        change (node p ((renderList s mark l cs).run ds).1).erase = (node p (bareList s.plan l cs)).erase
        rw [erase_node hown, erase_node hown, hcs]
      | tagged l name layout block =>
        have hcs : (((renderList s mark l cs).run ds).1).map erase = _ := renderList_amounts hm l cs ds
        change (s.tagView name layout block ((renderList s mark l cs).run ds).1).erase = _
        rw [erase_tagView, hcs, ← erase_tagView]
      | headed l name layout block =>
        have hcs : (((renderTail s mark l cs).run ds).1).map erase = _ := renderTail_amounts hm l cs ds
        change (s.tagView name layout block ((renderTail s mark l cs).run ds).1).erase = _
        rw [erase_tagView, hcs, ← erase_tagView]
    rw [render]
    by_cases htarget : s.isTarget tag cs
    · simp only [if_pos htarget]
      exact hm _ _ _ _ hplain
    · simp only [if_neg htarget]
      exact hplain

theorem renderList_amounts (hm : Annotates mark) (layout : Tree → Layout) (cs : List Tree) :
    AllAmount (renderList s mark layout cs) (bareList s.plan layout cs) := by
  cases cs with
  | nil => exact fun _ => rfl
  | cons c cs =>
    intro ds
    exact List.cons_eq_cons.2 ⟨render_amounts hm c (layout c) ds, renderList_amounts hm layout cs _⟩

theorem renderTail_amounts (hm : Annotates mark) (layout : Tree → Layout) (cs : List Tree) :
    AllAmount (renderTail s mark layout cs) (bareTail s.plan layout cs) := by
  cases cs with
  | nil => exact fun _ => rfl
  | cons c cs => exact renderList_amounts hm layout cs

end

theorem view_amounts (s : Setting) (t : Tree) (layout : Layout) :
    Amounts (view s t layout) (bare s.plan t layout) := by
  unfold view
  cases s.maxDepth with
  | zero => exact render_amounts (highlight_annotates none) t layout
  | succ levels => exact render_amounts (highlight_annotates _) t layout

end SourceView

theorem State.viewInactive_erase (s : State) (w : World) (mode : InactiveMode) (t target : Tree)
    (x : String) : (s.viewInactive w mode t target).1.erase =
      (s.viewInactive w mode t (.tuple [.atom x])).1.erase := by
  have hbare (target : Tree) : (s.viewInactive w mode t target).1.erase =
      (SourceView.bare (s.sourceView w mode target).plan t ⟨mode.isBlock, true⟩).erase :=
    SourceView.view_amounts (s.sourceView w mode target) t ⟨mode.isBlock, true⟩ s.diagnostics
  -- How a node is shown does not depend on the target.
  have hplan : (s.sourceView w mode target).plan = (s.sourceView w mode (.tuple [.atom x])).plan := rfl
  rw [hbare, hbare, hplan]

end Typesetter

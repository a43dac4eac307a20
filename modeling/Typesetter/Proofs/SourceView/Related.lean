import Typesetter.Macro.SourceView

namespace Typesetter.SourceView

structure Relates (R : {α : Type} → Rendering α → Rendering α → Prop) : Prop where
  pure {α : Type} (a : α) : R (pure a) (pure a)
  bind {α β : Type} {m m' : Rendering α} {f f' : α → Rendering β} : R m m' → (∀ a, R (f a) (f' a)) →
    R (m >>= f) (m' >>= f')

structure Setting.ShowsAlike (s s' : Setting) : Prop where
  plan : s'.plan = s.plan
  isTarget : s'.isTarget = s.isTarget

variable {R : {α : Type} → Rendering α → Rendering α → Prop} {s s' : Setting} {mark mark' : Marking}

def MarksRelated (R : {α : Type} → Rendering α → Rendering α → Prop) (s : Setting)
    (mark mark' : Marking) : Prop :=
  ∀ tag cs layout plain plain', s.isTarget tag cs → R plain plain' →
    R (mark (.node tag cs) layout plain) (mark' (.node tag cs) layout plain')

theorem Relates.map (hR : Relates R) {α β : Type} {m m' : Rendering α} (f : α → β) (h : R m m') :
    R (f <$> m) (f <$> m') := by
  simp only [map_eq_pure_bind]
  exact hR.bind h fun a => hR.pure (f a)

mutual

theorem render_related (hR : Relates R) (hs : s.ShowsAlike s') (hm : MarksRelated R s mark mark')
    (t : Tree) (layout : Layout) : R (render s mark t layout) (render s' mark' t layout) := by
  cases t with
  | atom label => exact hR.pure (Tree.atom label)
  | node tag cs =>
    have hplain : R (match s.plan tag cs layout with
        | .leaf view => pure view
        | .children childLayout build => build <$> renderList s mark childLayout cs
        | .tail childLayout build => build <$> renderTail s mark childLayout cs)
      (match s.plan tag cs layout with
        | .leaf view => pure view
        | .children childLayout build => build <$> renderList s' mark' childLayout cs
        | .tail childLayout build => build <$> renderTail s' mark' childLayout cs) := by
      cases s.plan tag cs layout with
      | leaf view => exact hR.pure view
      | children l build => exact hR.map build (renderList_related hR hs hm l cs)
      | tail l build => exact hR.map build (renderTail_related hR hs hm l cs)
    rw [render, render, hs.plan, hs.isTarget]
    by_cases htarget : s.isTarget tag cs
    · simp only [if_pos htarget]
      exact hm tag cs layout _ _ htarget hplain
    · simp only [if_neg htarget]
      exact hplain

theorem renderList_related (hR : Relates R) (hs : s.ShowsAlike s') (hm : MarksRelated R s mark mark')
    (layout : Tree → Layout) (cs : List Tree) :
    R (renderList s mark layout cs) (renderList s' mark' layout cs) := by
  cases cs with
  | nil => exact hR.pure []
  | cons c cs =>
    refine hR.bind (render_related hR hs hm c (layout c)) fun v => ?_
    exact hR.bind (renderList_related hR hs hm layout cs) fun vs => hR.pure (v :: vs)

theorem renderTail_related (hR : Relates R) (hs : s.ShowsAlike s') (hm : MarksRelated R s mark mark')
    (layout : Tree → Layout) (cs : List Tree) :
    R (renderTail s mark layout cs) (renderTail s' mark' layout cs) := by
  cases cs with
  | nil => exact hR.pure []
  | cons c cs => exact renderList_related hR hs hm layout cs

end

end Typesetter.SourceView

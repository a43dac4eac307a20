import Typesetter.Proofs.SourceView.Related
import Typesetter.Proofs.SourceView.Tags
/-!
Of the store a source view takes nothing but what its targets stand for. So it is the same with another
store in which they stand for the same.
-/

namespace Typesetter.SourceView

variable {s : Setting} {store : Store} {mark mark' : Marking}

def Setting.ExpandsAlike (s : Setting) (store : Store) : Prop :=
  ∀ tag cs, s.isTarget tag cs →
    Setting.expansion? { s with store } (.node tag cs) = s.expansion? (.node tag cs)

theorem Setting.expandsAlike
    (hvalue : ∀ x, s.target = some (.value x) → store.read x = s.store.read x)
    (happlication : ∀ m tag cs, s.target = some (.application m) →
      (Target.application m).occursAs tag cs → Expansion.expand store s.registry (.node tag cs) =
        Expansion.expand s.store s.registry (.node tag cs)) : s.ExpandsAlike store := by
  intro tag cs hocc
  rcases Option.eq_none_or_eq_some s.target with hs | ⟨g, hs⟩
  · rw [expansion?_none (s := { s with store }) hs, expansion?_none hs]
  · cases g with
    | argument x => rw [expansion?_argument (s := { s with store }) hs, expansion?_argument hs]
    | value x =>
      rw [expansion?_value (s := { s with store }) hs, expansion?_value hs]
      change (if (store.read x).isUninit then none else some (store.read x)) = _
      rw [hvalue x hs]
    | application m =>
      rw [isTarget, hs] at hocc
      rw [expansion?_application (s := { s with store }) hs, expansion?_application hs]
      change (if Expansion.expand store s.registry (.node tag cs) = .node tag cs then none
        else some (Expansion.expand store s.registry (.node tag cs))) = _
      rw [happlication m tag cs hs hocc]

def MarksAlike (s : Setting) (mark mark' : Marking) : Prop :=
  ∀ tag cs, s.isTarget tag cs → mark' (.node tag cs) = mark (.node tag cs)

theorem relates_eq : Relates fun m m' => m' = m where
  pure _ := rfl
  bind h hf := by rw [h, funext hf]

theorem render_alike (hm : MarksAlike s mark mark') (t : Tree) (layout : Layout) :
    render { s with store } mark' t layout = render s mark t layout := by
  have hs : s.ShowsAlike { s with store } := ⟨rfl, rfl⟩
  refine render_related relates_eq hs (fun tag cs l plain plain' htarget h => ?_) t layout
  rw [h, hm tag cs htarget]

theorem highlight_alike (he : s.ExpandsAlike store)
    (deeper : Option (Tree → Layout → Rendering Tree)) :
    MarksAlike s (highlight s deeper) (highlight { s with store } deeper) := by
  intro tag cs htarget
  funext layout plain
  simp only [highlight, he tag cs htarget]

theorem markNested_alike (he : s.ExpandsAlike store)
    (deeper : Option (Tree → Layout → Rendering Tree)) :
    MarksAlike s (markNested s deeper) (markNested { s with store } deeper) := by
  intro tag cs htarget
  funext layout plain
  simp only [markNested, highlight_alike he deeper tag cs htarget]
  rfl

theorem renderNested_alike (he : s.ExpandsAlike store) (levels : Nat) :
    renderNested { s with store } levels = renderNested s levels := by
  induction levels with
  | zero =>
    funext t layout
    exact render_alike (markNested_alike he none) t layout
  | succ levels ih =>
    funext t layout
    rw [renderNested, renderNested, ih]
    exact render_alike (markNested_alike he _) t layout

theorem view_alike (he : s.ExpandsAlike store) (t : Tree) (layout : Layout) :
    view { s with store } t layout = view s t layout := by
  obtain ⟨target, policy, maxDepth, special, compact, close, scope, own, registry⟩ := s
  cases maxDepth with
  | zero => exact render_alike (highlight_alike he none) t layout
  | succ levels =>
    simp only [view, renderNested_alike he]
    exact render_alike (highlight_alike he _) t layout

end Typesetter.SourceView

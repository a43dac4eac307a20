import Typesetter.Proofs.SourceView.Outcome
import Typesetter.Proofs.SourceView.Related
/-!
A source view with more levels is the same, unless an expansion was left out for want of levels, which
is reported.
-/

namespace Typesetter.SourceView

variable {s : Setting} {α β : Type} {maxDepth : Nat}

def Stopped (new : Array Diagnostic) : Prop := ∃ limit, stopped limit ∈ new

def Deepens (m m' : Rendering α) : Prop :=
  ∀ ds, ∃ new, (m.run ds).2 = ds ++ new ∧ (Stopped new ∨ m'.run ds = m.run ds)

namespace Deepens

theorem refl {P : α → Array Diagnostic → Prop} {m : Rendering α} (h : Gives P m) : Deepens m m := by
  intro ds
  obtain ⟨new, hnew, _⟩ := h ds
  exact ⟨new, hnew, .inr rfl⟩

theorem bind {m m' : Rendering α} {f f' : α → Rendering β} (hm : Deepens m m')
    (hf : ∀ a, Deepens (f a) (f' a)) : Deepens (m >>= f) (m' >>= f') := by
  intro ds
  obtain ⟨first, hfirst, h⟩ := hm ds
  obtain ⟨second, hsecond, h'⟩ := hf (m.run ds).1 (m.run ds).2
  refine ⟨first ++ second, ?_, ?_⟩
  · rw [← Array.append_assoc, ← hfirst]
    exact hsecond
  · rcases h with ⟨limit, hstopped⟩ | hsame
    · exact .inl ⟨limit, Array.mem_append_left second hstopped⟩
    · rcases h' with ⟨limit, hstopped⟩ | hsame'
      · exact .inl ⟨limit, Array.mem_append_right first hstopped⟩
      · refine .inr ?_
        change (f' (m'.run ds).1).run (m'.run ds).2 = _
        rw [hsame]
        exact hsame'

theorem stopped {m m' : Rendering α} (h : Gives (fun _ new => Stopped new) m) : Deepens m m' := by
  intro ds
  obtain ⟨new, hnew, hstopped⟩ := h ds
  exact ⟨new, hnew, .inl hstopped⟩

end Deepens

theorem relates_deepens : Relates Deepens where
  pure _ := .refl (.pure (P := fun _ _ => True) trivial)
  bind := .bind

def Reaches (deeper deeper' : Option (Tree → Layout → Rendering Tree)) : Prop :=
  ∀ expand ∈ deeper, ∃ expand' ∈ deeper', ∀ t layout, Deepens (expand t layout) (expand' t layout)

theorem Reaches.none {deeper' : Option (Tree → Layout → Rendering Tree)} : Reaches .none deeper' := by
  intro expand hx
  cases hx

theorem Reaches.some {expand expand' : Tree → Layout → Rendering Tree}
    (h : ∀ t layout, Deepens (expand t layout) (expand' t layout)) :
    Reaches (.some expand) (.some expand') := by
  intro f hf
  cases hf
  exact ⟨expand', rfl, h⟩

variable {deeper deeper' : Option (Tree → Layout → Rendering Tree)}

theorem highlight_deepens (hd : Reaches deeper deeper') :
    MarksRelated Deepens s (highlight s deeper) (highlight { s with maxDepth } deeper') := by
  intro tag cs layout plain plain' _ hplain
  refine hplain.bind fun v => ?_
  cases deeper with
  | none =>
    refine .stopped (.bind (.record _) fun _ new hnew => .pure ⟨s.maxDepth, ?_⟩)
    rw [Array.append_empty, hnew]
    exact Array.mem_singleton.2 rfl
  | some expand =>
    obtain ⟨expand', hx, hexpand⟩ := hd expand rfl
    cases hx
    have hexpansion : Setting.expansion? { s with maxDepth } (.node tag cs) =
        s.expansion? (.node tag cs) := rfl
    dsimp only
    rw [hexpansion]
    cases s.expansion? (.node tag cs) with
    | none => exact relates_deepens.pure _
    | some e => exact (hexpand e layout).bind fun view => relates_deepens.pure _

theorem markNested_deepens (hd : Reaches deeper deeper') :
    MarksRelated Deepens s (markNested s deeper) (markNested { s with maxDepth } deeper') := by
  intro tag cs layout plain plain' htarget hplain
  unfold markNested
  cases s.policy with
  | recurse => exact highlight_deepens hd tag cs layout plain plain' htarget hplain
  | once => exact hplain
  | error => exact .bind (.refl (.record _)) fun _ => relates_deepens.pure _

theorem render_deepens {mark mark' : Marking} (hm : MarksRelated Deepens s mark mark') (t : Tree)
    (layout : Layout) : Deepens (render s mark t layout) (render { s with maxDepth } mark' t layout) := by
  have hs : s.ShowsAlike { s with maxDepth } := ⟨rfl, rfl⟩
  exact render_related relates_deepens hs hm t layout

theorem renderNested_deepens {levels levels' : Nat} (h : levels ≤ levels') (t : Tree) (layout : Layout) :
    Deepens (renderNested s levels t layout) (renderNested { s with maxDepth } levels' t layout) := by
  induction levels generalizing levels' t layout with
  | zero =>
    cases levels' with
    | zero => exact render_deepens (markNested_deepens .none) t layout
    | succ levels' => exact render_deepens (markNested_deepens .none) t layout
  | succ levels ih =>
    cases levels' with
    | zero => omega
    | succ levels' =>
      have hlevels : levels ≤ levels' := Nat.le_of_succ_le_succ h
      exact render_deepens (markNested_deepens (.some (ih hlevels))) t layout

theorem view_deepens (h : s.maxDepth ≤ maxDepth) (t : Tree) (layout : Layout) :
    Deepens (view s t layout) (view { s with maxDepth } t layout) := by
  unfold view
  cases hdepth : s.maxDepth with
  | zero =>
    cases maxDepth with
    | zero => exact render_deepens (highlight_deepens .none) t layout
    | succ levels' => exact render_deepens (highlight_deepens .none) t layout
  | succ levels =>
    cases maxDepth with
    | zero => omega
    | succ levels' =>
      have hlevels : levels ≤ levels' := by omega
      exact render_deepens (highlight_deepens (.some (renderNested_deepens hlevels))) t layout

end Typesetter.SourceView

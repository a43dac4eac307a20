import Typesetter.Evaluation.State
import Typesetter.Proofs.Indexing.Expansion
import Typesetter.Proofs.SourceView.Tags

namespace Typesetter.Indexed

open Access SourceView

abbrev Rendering := StateT (Array Diagnostic) Access

variable {α β : Type}

def inRange (m : SourceView.Rendering α) : Rendering α := fun d => .ok (m d)

theorem inRange_pure (a : α) : inRange (pure a) = pure a := rfl

theorem inRange_map (f : α → β) (m : SourceView.Rendering α) : inRange (f <$> m) = f <$> inRange m := rfl

theorem liftM_ok (a : α) : (liftM (.ok a : Access α) : Rendering α) = pure a := rfl

abbrev Marking := Tree → Layout → Rendering Tree → Rendering Tree

def expansion? (s : Setting) (t : Tree) : Access (Option Tree) :=
  match s.target with
  | none => return none
  | some (.argument name) =>
    match s.scope.value? name with
    | none => return none
    | some value => return value.follow? (← onward t.children 1)
  | some (.value name) =>
    let value := s.store.read name
    return if value.isUninit then none else some value
  | some (.application _) => do
    let expanded ← expand s.store s.registry t
    return if expanded = t then none else some expanded

mutual

def render (s : Setting) (mark : Marking) (t : Tree) (layout : Layout) : Rendering Tree :=
  match t with
  | .atom label => pure (.atom label)
  | .node tag cs =>
    let plain : Rendering Tree :=
      match s.plan tag cs layout with
      | .leaf view => pure view
      | .children childLayout build => build <$> renderList s mark childLayout cs
      | .tail childLayout build =>
        match _h : onward cs 1 with
        | .error e => throw e
        | .ok args => build <$> renderList s mark childLayout args
    if s.isTarget tag cs then mark (.node tag cs) layout plain else plain
termination_by 2 * t.size
decreasing_by
  · simp only [Tree.size]
    omega
  · have := sizeList_onward ‹_›
    simp only [Tree.size]
    omega

def renderList (s : Setting) (mark : Marking) (layout : Tree → Layout) (ts : List Tree) :
    Rendering (List Tree) :=
  match ts with
  | [] => pure []
  | c :: cs => do
    let view ← render s mark c (layout c)
    let views ← renderList s mark layout cs
    return view :: views
termination_by 2 * Tree.sizeList ts + 1
decreasing_by
  · simp only [Tree.sizeList]
    omega
  · have := c.size_pos
    simp only [Tree.sizeList]
    omega

end

def highlight (s : Setting) (deeper : Option (Tree → Layout → Rendering Tree)) : Marking :=
  fun t layout plain => do
    let highlighted := Tree.node Primitive.srcHighlight [← plain]
    match deeper with
    | none =>
      modify (·.push (stopped s.maxDepth))
      return highlighted
    | some expand =>
      match ← expansion? s t with
      | none => return highlighted
      | some expansion =>
        let view ← expand expansion layout
        return .node Primitive.srcExpand [highlighted, view]

def markNested (s : Setting) (deeper : Option (Tree → Layout → Rendering Tree)) : Marking :=
  fun t layout plain =>
    match s.policy with
    | .recurse => highlight s deeper t layout plain
    | .once => plain
    | .error => do
      let fault := nestedFault s
      if let some d := fault.diagnostic? then modify (·.push d)
      return fault.toTree

def renderNested (s : Setting) : Nat → Tree → Layout → Rendering Tree
  | 0 => render s (markNested s none)
  | levels + 1 => render s (markNested s (some (renderNested s levels)))

def view (s : Setting) (t : Tree) (layout : Layout) : Rendering Tree :=
  match s.maxDepth with
  | 0 => render s (highlight s none) t layout
  | levels + 1 => render s (highlight s (some (renderNested s levels))) t layout

def viewInactive (s : State) (w : World) (mode : InactiveMode) (t target : Tree) :
    Access (Tree × State) := do
  let (view, diagnostics) ← (view (s.sourceView w mode target) t ⟨mode.isBlock, true⟩).run s.diagnostics
  return (view, { s with diagnostics })

theorem exists_cons_of_argument {s : Setting} {name : String} (hname : s.target = some (.argument name))
    {tag : Tag} {cs : List Tree} (h : s.isTarget tag cs = true) : ∃ x indices, cs = x :: indices := by
  simp only [Setting.isTarget, hname, Option.any_some] at h
  cases cs with
  | cons x indices => exact ⟨x, indices, rfl⟩
  | nil =>
    cases tag with
    | user m => cases h
    | prim p => cases p <;> cases h

theorem expansion?_eq {s : Setting} {tag : Tag} {cs : List Tree} (h : s.isTarget tag cs = true) :
    expansion? s (.node tag cs) = .ok (s.expansion? (.node tag cs)) := by
  unfold expansion?
  split
  · next hnone =>
    rw [Setting.expansion?_none hnone]
    rfl
  · next name hname =>
    obtain ⟨x, indices, rfl⟩ := exists_cons_of_argument hname h
    rw [Setting.expansion?_argument hname]
    simp only [Tree.children, List.tail_cons, onward_one]
    cases s.scope.value? name <;> rfl
  · next name hname =>
    rw [Setting.expansion?_value hname]
    rfl
  · next name hname =>
    rw [Setting.expansion?_application hname, expand_eq]
    rfl

theorem exists_cons_of_tail {s : Setting} {tag : Tag} {cs : List Tree} {layout : Layout}
    {childLayout : Tree → Layout} {build : List Tree → Tree}
    (h : s.plan tag cs layout = .tail childLayout build) : ∃ x args, cs = x :: args := by
  cases cs with
  | cons x args => exact ⟨x, args, rfl⟩
  | nil =>
    cases tag with
    | user m => cases h
    | prim p =>
      cases p <;> simp only [Setting.plan] at h <;> first
        | cases h
        | (split at h <;> cases h)

section Render

variable {s : Setting} {mark : SourceView.Marking} {mark' : Marking}

def Marks (s : Setting) (mark : SourceView.Marking) (mark' : Marking) : Prop :=
  ∀ tag cs layout plain, s.isTarget tag cs = true →
    mark' (.node tag cs) layout (inRange plain) = inRange (mark (.node tag cs) layout plain)

theorem marked_eq (h : Marks s mark mark') (tag : Tag) (cs : List Tree) (layout : Layout)
    {plain : SourceView.Rendering Tree} {plain' : Rendering Tree} (hplain : plain' = inRange plain) :
    (if s.isTarget tag cs then mark' (.node tag cs) layout plain' else plain') =
      inRange (if s.isTarget tag cs then mark (.node tag cs) layout plain else plain) := by
  subst hplain
  split
  · next ht => exact h tag cs layout plain ht
  · rfl

mutual

theorem render_eq (h : Marks s mark mark') (t : Tree) (layout : Layout) :
    render s mark' t layout = inRange (SourceView.render s mark t layout) := by
  match t with
  | .atom label => rw [render, SourceView.render, inRange_pure]
  | .node tag cs =>
    rw [render, SourceView.render]
    cases hplan : s.plan tag cs layout with
    | leaf view => exact marked_eq h tag cs layout (inRange_pure view).symm
    | children childLayout build =>
      refine marked_eq h tag cs layout ?_
      simp only
      rw [renderList_eq h, inRange_map]
    | tail childLayout build =>
      refine marked_eq h tag cs layout ?_
      match cs, exists_cons_of_tail hplan with
      | x :: args, _ =>
        simp only
        split
        · next he => cases he.symm.trans (onward_one x args)
        · next he =>
          cases he.symm.trans (onward_one x args)
          rw [renderList_eq h, SourceView.renderTail, inRange_map]

theorem renderList_eq (h : Marks s mark mark') (layout : Tree → Layout) (ts : List Tree) :
    renderList s mark' layout ts = inRange (SourceView.renderList s mark layout ts) := by
  match ts with
  | [] => rw [renderList, SourceView.renderList, inRange_pure]
  | c :: cs =>
    rw [renderList, SourceView.renderList, render_eq h, renderList_eq h]
    rfl

end

theorem highlight_marks {deeper : Option (Tree → Layout → SourceView.Rendering Tree)}
    {deeper' : Option (Tree → Layout → Rendering Tree)}
    (h : deeper' = deeper.map fun f t layout => inRange (f t layout)) :
    Marks s (SourceView.highlight s deeper) (highlight s deeper') := by
  subst h
  intro tag cs layout plain ht
  cases deeper with
  | none => rfl
  | some f =>
    simp only [highlight, SourceView.highlight, Option.map_some, expansion?_eq ht, liftM_ok, pure_bind]
    cases s.expansion? (.node tag cs) <;> rfl

theorem markNested_marks {deeper : Option (Tree → Layout → SourceView.Rendering Tree)}
    {deeper' : Option (Tree → Layout → Rendering Tree)}
    (h : deeper' = deeper.map fun f t layout => inRange (f t layout)) :
    Marks s (SourceView.markNested s deeper) (markNested s deeper') := by
  intro tag cs layout plain ht
  unfold markNested SourceView.markNested
  cases s.policy with
  | recurse => exact highlight_marks h tag cs layout plain ht
  | once => rfl
  | error => cases (nestedFault s).diagnostic? <;> rfl

end Render

theorem renderNested_eq (s : Setting) (levels : Nat) (t : Tree) (layout : Layout) :
    renderNested s levels t layout = inRange (SourceView.renderNested s levels t layout) := by
  induction levels generalizing t layout with
  | zero =>
    have hmarks : Marks s (SourceView.markNested s none) (markNested s none) := markNested_marks rfl
    exact render_eq hmarks t layout
  | succ levels ih =>
    refine render_eq (markNested_marks ?_) t layout
    rw [Option.map_some, Option.some.injEq]
    funext t layout
    exact ih t layout

theorem view_eq (s : Setting) (t : Tree) (layout : Layout) :
    view s t layout = inRange (SourceView.view s t layout) := by
  unfold view SourceView.view
  cases s.maxDepth with
  | zero =>
    have hmarks : Marks s (SourceView.highlight s none) (highlight s none) := highlight_marks rfl
    exact render_eq hmarks t layout
  | succ levels =>
    refine render_eq (highlight_marks ?_) t layout
    rw [Option.map_some, Option.some.injEq]
    funext t layout
    exact renderNested_eq s levels t layout

theorem viewInactive_eq (s : State) (w : World) (mode : InactiveMode) (t target : Tree) :
    viewInactive s w mode t target = .ok (s.viewInactive w mode t target) := by
  rw [viewInactive, view_eq]
  rfl

end Typesetter.Indexed

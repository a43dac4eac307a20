import Typesetter.Proofs.SourceView.Tags
import Typesetter.Proofs.Vocabulary.Errors

namespace Typesetter

def Tag.IsSource (tag : Tag) : Prop := tag ≠ Primitive.srcExpand ∧ tag ≠ Primitive.error

instance (tag : Tag) : Decidable tag.IsSource := inferInstanceAs (Decidable (_ ∧ _))

namespace Tree

variable {t c v e : Tree} {tag : Tag} {cs : List Tree} {n : Nat}

/-- How many expansions a path enters. The expansion is the second child of its node. -/
def expansions : Tree → List Nat → Nat
  | _, [] => 0
  | t, i :: path =>
    match t.child? i with
    | none => 0
    | some c => (if t.hasTag Primitive.srcExpand ∧ i = 1 then 1 else 0) + c.expansions path

def NestsAtMost (n : Nat) (t : Tree) : Prop := ∀ path, t.expansions path ≤ n

theorem expansions_cons {i : Nat} (h : t.child? i = some c) (path : List Nat) :
    t.expansions (i :: path) =
      (if t.hasTag Primitive.srcExpand ∧ i = 1 then 1 else 0) + c.expansions path := by
  rw [expansions, h]

theorem expansions_cons_none {i : Nat} (h : t.child? i = none) (path : List Nat) :
    t.expansions (i :: path) = 0 := by
  rw [expansions, h]

namespace NestsAtMost

theorem atom (n : Nat) (label : String) : NestsAtMost n (.atom label) := by
  intro path
  cases path with
  | nil => exact Nat.zero_le n
  | cons i path =>
    rw [expansions_cons_none rfl]
    exact Nat.zero_le n

theorem node (htag : tag ≠ Primitive.srcExpand) (h : ∀ c ∈ cs, NestsAtMost n c) :
    NestsAtMost n (.node tag cs) := by
  intro path
  cases path with
  | nil => exact Nat.zero_le n
  | cons i path =>
    cases hc : (Tree.node tag cs).child? i with
    | none =>
      rw [expansions_cons_none hc]
      exact Nat.zero_le n
    | some c =>
      have hno : ¬ ((Tree.node tag cs).hasTag Primitive.srcExpand ∧ i = 1) := by
        simp [hasTag, tag?, htag]
      rw [expansions_cons hc, if_neg hno, Nat.zero_add]
      exact h c (List.mem_of_getElem? hc) path

theorem expand (hv : NestsAtMost n v) (he : ∀ path, e.expansions path < n) :
    NestsAtMost n (.node Primitive.srcExpand [v, e]) := by
  intro path
  match path with
  | [] => exact Nat.zero_le n
  | 0 :: path =>
    rw [expansions_cons (c := v) rfl, if_neg (by simp), Nat.zero_add]
    exact hv path
  | 1 :: path =>
    rw [expansions_cons (c := e) rfl, if_pos ⟨rfl, rfl⟩]
    have hdeeper := he path
    omega
  | (i + 2) :: path =>
    rw [expansions_cons_none rfl]
    exact Nat.zero_le n

theorem of_uses (h : t.Uses Tag.IsSource) (n : Nat) : NestsAtMost n t := by
  induction h with
  | atom label => exact atom n label
  | node htag _ ih => exact node htag.1 ih

end NestsAtMost

end Tree

namespace RecursionPolicy

def allowance (policy : RecursionPolicy) (maxDepth : Nat) : Nat :=
  match policy with
  | recurse => maxDepth
  | once | error => min 1 maxDepth

def nested : RecursionPolicy → Nat → Nat
  | recurse, levels => levels
  | once, _ | error, _ => 0

theorem allowance_zero (policy : RecursionPolicy) : policy.allowance 0 = 0 := by
  cases policy <;> rfl

theorem allowance_succ (policy : RecursionPolicy) (levels : Nat) :
    policy.allowance (levels + 1) = policy.nested levels + 1 := by
  cases policy <;> simp [allowance, nested]

end RecursionPolicy

namespace SourceView

open Typesetter.Tree

variable {s : Setting} {name : String} {layout : Layout} {tags : Tag → Prop} {t : Tree}
  {vs : List Tree} {new : Array Diagnostic}

def nests (n : Nat) : Contract := .ofTree (Uses Tag.IsSource) (NestsAtMost n)

def nestsBelow (n : Nat) : Contract := .ofTree (Uses Tag.IsSource) fun e => ∀ path, e.expansions path < n

theorem isSource_of_copiedAs? {p q : Primitive} (hp : Tag.IsSource p) (h : p.copiedAs? = some q) :
    Tag.IsSource q := by
  rcases copiedAs?_eq_some h with rfl | hq
  · exact hp
  · have hsource : ∀ q ∈ [Primitive.srcArg, .srcValue, .srcSymbol, .srcHybrid], Tag.IsSource q := by
      decide
    exact hsource q hq

theorem copied_uses {p q : Primitive} {cs : List Tree} (ht : (node p cs).Uses Tag.IsSource)
    (h : p.copiedAs? = some q) : (node q cs).Uses Tag.IsSource :=
  .node (isSource_of_copiedAs? ht.here h) fun _ => ht.child

theorem nests_covers (n : Nat) (s : Setting) : (nests n).Covers s := by
  have hframe : ∀ p ∈ Primitive.srcRaw :: framePrimitives, (p : Tag) ≠ Primitive.srcExpand := by decide
  exact Contract.covers_ofTree (.atom n) (fun p hp _ => .node (hframe p hp)) (fun _ _ _ => Every.child)
    fun _ _ _ ht hq => .of_uses (copied_uses ht hq) n

theorem nests_highlights (n : Nat) (he : s.Expands (Uses Tag.IsSource)) :
    (nests n).Highlights (nestsBelow n) s where
  expands := he _ _ _
  highlighted h := .node (by decide) (List.forall_mem_singleton.2 h)
  stopped := id
  expanded := .expand

theorem renderNested_nests (he : s.Expands (Uses Tag.IsSource)) (levels : Nat)
    (ht : t.Uses Tag.IsSource) :
    Gives (nests (s.policy.nested levels)).Outcome (renderNested s levels t layout) := by
  have hmarks (n : Nat) (deeper : Option (Tree → Layout → Rendering Tree))
      (hd : s.policy = .recurse → ∀ expand ∈ deeper, ∀ t layout, t.Uses Tag.IsSource →
        Gives (nestsBelow n).Outcome (expand t layout)) : (nests n).Marks s (markNested s deeper) :=
    Contract.markNested_marks
      (fun hp => Contract.highlight_marks (hd hp) (nests_highlights n he))
      fun _ _ _ => .node (by decide) (List.forall_mem_singleton.2 (.atom n _))
  refine Contract.renderNested_gives (C := fun levels => nests (s.policy.nested levels))
    (fun _ => nests_covers _ s) (hmarks _ none (by simp)) (fun n expand hx => ?_) levels t layout ht
  refine hmarks _ (some expand) fun hp f hf u l hu => ?_
  cases hf
  rw [hp] at hx ⊢
  exact (hx u l hu).mono fun e _ h path => Nat.lt_succ_of_le (h path)

theorem view_nests (he : s.Expands (Uses Tag.IsSource)) (ht : t.Uses Tag.IsSource) (layout : Layout) :
    Gives (nests (s.policy.allowance s.maxDepth)).Outcome (view s t layout) := by
  unfold view
  cases s.maxDepth with
  | zero =>
    rw [RecursionPolicy.allowance_zero]
    have hmarks : (nests 0).Marks s (highlight s none) :=
      Contract.highlight_marks (D := nestsBelow 0) (by simp) (nests_highlights 0 he)
    exact Contract.render_gives (nests_covers 0 s) hmarks t layout ht
  | succ levels =>
    rw [RecursionPolicy.allowance_succ]
    refine Contract.render_gives (nests_covers _ s) ?_ t layout ht
    refine Contract.highlight_marks (D := nestsBelow (s.policy.nested levels + 1))
      (fun f hf u l hu => ?_) (nests_highlights _ he)
    cases hf
    exact (renderNested_nests he levels hu).mono fun e _ h path => Nat.lt_succ_of_le (h path)

def ErrorFree (new : Array Diagnostic) : Prop := ∀ d ∈ new, d.isError = false

theorem errorFree_empty : ErrorFree #[] := by
  intro d hd
  simp at hd

theorem errorFree_append {first second : Array Diagnostic} :
    ErrorFree (first ++ second) ↔ ErrorFree first ∧ ErrorFree second := by
  simp only [ErrorFree, Array.mem_append, or_imp, forall_and]

theorem errorFree_stopped (limit : Nat) : ErrorFree #[stopped limit] := by
  intro d hd
  rw [Array.mem_singleton.1 hd]
  rfl

theorem uses_node {p : Primitive} (hp : tags p) : (node p vs).Uses tags ↔ AllUse tags vs :=
  ⟨fun h _ => h.child, .node hp⟩

theorem uses_of_tagView (block : Bool) (h : (s.tagView name layout block vs).Uses tags) :
    AllUse tags vs := by
  intro v hv
  unfold Setting.tagView at h
  cases block with
  | false => exact h.child (List.mem_cons_of_mem _ hv)
  | true =>
    generalize Tree.node Primitive.openTag [atom name] = opening at h
    have hlines : v ∈ opening :: vs := List.mem_cons_of_mem opening hv
    cases hflush : layout.flush with
    | true =>
      rw [hflush] at h
      exact h.child (List.mem_append_left _ hlines)
    | false =>
      rw [hflush] at h
      rw [← List.dropLast_concat_getLast (List.cons_ne_nil opening vs)] at hlines
      rcases List.mem_append.1 hlines with hinit | hlast
      · exact h.child (List.mem_append_left _ hinit)
      · have hline := h.child (List.mem_append_right _ (List.mem_singleton_self _))
        refine hline.child (List.mem_cons.2 (.inl ?_))
        rw [List.mem_singleton.1 hlast, List.getLastD_eq_getLast?, List.getLast?_eq_some_getLast]
        rfl

def reports (s : Setting) : Contract where
  Source := Uses Tag.IsSource
  Outcome v new := (v.Uses (· ≠ Primitive.error) ↔ ErrorFree new) ∧ (s.policy ≠ .error → ErrorFree new)

theorem Contract.Outcomes.reports (h : (reports s).Outcomes vs new) :
    (AllUse (· ≠ Primitive.error) vs ↔ ErrorFree new) ∧ (s.policy ≠ .error → ErrorFree new) := by
  induction h with
  | nil => exact ⟨iff_of_true .nil errorFree_empty, fun _ => errorFree_empty⟩
  | cons hv _ ih =>
    refine ⟨?_, fun hp => errorFree_append.2 ⟨hv.2 hp, ih.2 hp⟩⟩
    rw [errorFree_append, ← hv.1, ← ih.1]
    exact List.forall_mem_cons

theorem reports_steady (he : s.Expands (Uses Tag.IsSource)) : (reports s).Steady s where
  atom label := ⟨iff_of_true (.atom label) errorFree_empty, fun _ => errorFree_empty⟩
  child := Every.child
  copied ht hq :=
    ⟨iff_of_true ((copied_uses ht hq).mono fun _ _ htag => htag.2) errorFree_empty,
      fun _ => errorFree_empty⟩
  raw text :=
    ⟨iff_of_true (.node (by decide) (AllEvery.cons (.atom text) .nil)) errorFree_empty,
      fun _ => errorFree_empty⟩
  kept {p vs new} hp h := by
    refine ⟨?_, h.reports.2⟩
    have htag : (p : Tag) ≠ Primitive.error := by
      rcases hp with rfl | rfl <;> decide
    exact Iff.trans (uses_node htag) h.reports.1
  tagged name layout block {vs new} h :=
    have hown : ∀ p ∈ ownPrimitives, (p : Tag) ≠ Primitive.error := by decide
    ⟨⟨fun hv => h.reports.1.1 (uses_of_tagView block hv),
      fun hnew => tagView_every (fun p hp _ => hown p hp) block (h.reports.1.2 hnew)⟩, h.reports.2⟩
  expands := he _ _ _
  highlighted {v new} h := by
    refine ⟨?_, h.2⟩
    rw [uses_node (by decide), AllUse, AllEvery, List.forall_mem_singleton]
    exact h.1
  stopped {v new} h := by
    have hnew : ErrorFree (new ++ #[stopped s.maxDepth]) ↔ ErrorFree new := by
      simp only [errorFree_append, errorFree_stopped, and_true]
    exact ⟨h.1.trans hnew.symm, fun hp => hnew.2 (h.2 hp)⟩
  expanded {v e first second} h h' := by
    refine ⟨?_, fun hp => errorFree_append.2 ⟨h.2 hp, h'.2 hp⟩⟩
    rw [uses_node (by decide), AllUse, AllEvery, List.forall_mem_cons, List.forall_mem_singleton, errorFree_append]
    exact and_congr h.1 h'.1
  refused d hp hd := by
    cases hd
    refine ⟨iff_of_false (fun h => h.here rfl) fun h => ?_, fun hne => absurd hp hne⟩
    exact Bool.noConfusion (h _ (Array.mem_singleton.2 rfl))

end SourceView

/-- The view of a tree comes to an end, and expansions are nested in it as the policy allows. There is an
error tree in it if and only if an error was reported, which no policy but one does. -/
theorem State.viewInactive_bounded {s : State} {w : World} {t : Tree} (mode : InactiveMode)
    (target : Tree) (ht : t.Uses Tag.IsSource) (hs : s.Holds (Tree.Uses Tag.IsSource))
    (hdefault : ∀ m i v, w.registry.default? m i = some v → v.Uses Tag.IsSource) :
    ∃ r new, s.viewInactive w mode t target = (r, { s with diagnostics := s.diagnostics ++ new }) ∧
      (∀ path, r.expansions path ≤ mode.policy.allowance w.settings.maxViewDepth) ∧
      (r.Contains .error ↔ ∃ d ∈ new, d.isError) ∧
      (mode.policy ≠ .error → ∀ d ∈ new, d.isError = false) := by
  let setting := s.sourceView w mode target
  have hexpands : setting.Expands (Tree.Uses Tag.IsSource) :=
    hs.expands (.uses (by decide) (by decide)) hdefault
  obtain ⟨new, hnew, hreports⟩ := SourceView.Contract.view_gives (SourceView.reports_steady hexpands) t
    ⟨mode.isBlock, true⟩ ht s.diagnostics
  obtain ⟨_, _, hnests⟩ := SourceView.view_nests hexpands ht ⟨mode.isBlock, true⟩ s.diagnostics
  refine ⟨_, new, ?_, hnests, ?_, hreports.2⟩
  · rw [← hnew]
    rfl
  · rw [Tree.Contains, hreports.1]
    simp [SourceView.ErrorFree]

def selfReferring : Tree :=
  .node Primitive.macroDef [.atom "x", .node Primitive.concat [.node Primitive.arg [.atom "x"],
    .node (.user "m") [.node Primitive.arg [.atom "x"]]]]

theorem State.viewInactive_bounded_selfReferring :
    let s := (State.fresh 600 default).write "m" selfReferring
    let w : World := { base := "", settings := { maxViewDepth := 2 } }
    let t := Tree.node (.user "m") [.atom "a"]
    ∃ r new, s.viewInactive w ⟨false, .recurse⟩ t (.atom "m") =
        (r, { s with diagnostics := s.diagnostics ++ new }) ∧
      (∀ path, r.expansions path ≤ 2) ∧ r.expansions [1, 1, 1] = 2 ∧ ¬ r.Contains .error := by
  intro s w t
  have hs : s.Holds (Tree.Uses Tag.IsSource) := (State.holds_fresh 600 default).write "m" (by decide)
  have hdefault : ∀ m i v, w.registry.default? m i = some v → v.Uses Tag.IsSource :=
    (World.holds_bare "" w.settings).default
  have ht : t.Uses Tag.IsSource := by decide
  obtain ⟨r, new, hview, hnests, herror, hrecurse⟩ :=
    State.viewInactive_bounded ⟨false, .recurse⟩ (.atom "m") ht hs hdefault
  have hr : r = (s.viewInactive w ⟨false, .recurse⟩ t (.atom "m")).1 := (congrArg Prod.fst hview).symm
  refine ⟨r, new, hview, hnests, ?_, fun h => ?_⟩
  · rw [hr]
    decide
  · obtain ⟨d, hd, hisError⟩ := herror.1 h
    rw [hrecurse (by decide) d hd] at hisError
    cases hisError

end Typesetter

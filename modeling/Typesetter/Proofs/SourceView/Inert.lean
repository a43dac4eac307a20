import Typesetter.Proofs.SourceView.Tags
/-!
Source views are not executed: evaluation has nothing to compute for any node of a view. This takes that
it has nothing to compute inside of the nodes that are shown with their children as they are.
-/

namespace Typesetter

def Tag.computes : Tag → Bool
  | .prim .value | .prim .arg | .prim .compound | .user _ => true
  | .prim p => p.isActive

abbrev Tag.IsInert (tag : Tag) : Prop := tag.computes = false

def Tag.isCopied : Tag → Bool
  | .prim p => p.copiedAs?.isSome
  | .user _ => false

/-- If the children of a node are shown as they are, nothing in them is to be computed. -/
def Tag.IsLegible (tag : Tag) (cs : List Tree) : Prop :=
  tag.isCopied → ∀ c ∈ cs, c.Uses Tag.IsInert

instance (tag : Tag) (cs : List Tree) : Decidable (tag.IsLegible cs) :=
  inferInstanceAs (Decidable (_ → _))

abbrev Tree.Legible : Tree → Prop := Tree.Every Tag.IsLegible

namespace Expansion

open Typesetter.Tree

mutual

theorem substitute_inert (frame : ArgumentFrame) (t : Tree) (ht : t.Uses Tag.IsInert) :
    substitute frame t = t := by
  cases t with
  | atom label => rfl
  | node tag cs =>
    have hcs : substituteList frame cs = cs := substituteList_inert frame cs fun c => ht.child
    unfold substitute
    split
    · rfl
    · rfl
    · rfl
    · exact Bool.noConfusion ht.here
    · rw [hcs]

theorem substituteList_inert (frame : ArgumentFrame) (ts : List Tree)
    (hts : ∀ t ∈ ts, t.Uses Tag.IsInert) : substituteList frame ts = ts := by
  cases ts with
  | nil => rfl
  | cons c cs =>
    obtain ⟨hc, hcs⟩ := List.forall_mem_cons.1 hts
    rw [substituteList, substitute_inert frame c hc, substituteList_inert frame cs hcs]

end

theorem stable_legible : Stable Tag.IsLegible where
  uninit _ := List.forall_mem_nil _
  tuple _ := Bool.noConfusion
  substituted frame {tag cs} h hcopied := by
    rw [substituteList_inert frame cs (h hcopied)]
    exact h hcopied

end Expansion

namespace SourceView

open Typesetter.Tree

variable {s : Setting}

def inert : Contract := .ofTree Legible (Uses Tag.IsInert)

theorem isInert_of_copiedAs? {p q : Primitive} (h : p.copiedAs? = some q) : Tag.IsInert q := by
  cases p <;> cases h <;> rfl

theorem inert_covers (s : Setting) : inert.Covers s := by
  have hframe : ∀ p ∈ Primitive.srcRaw :: framePrimitives, Tag.IsInert p := by decide
  refine Contract.covers_ofTree .atom (fun p hp _ => .node (hframe p hp)) (fun _ _ _ => Every.child)
    fun p q cs ht hq => ?_
  have hcopied : Tag.isCopied p := Option.isSome_iff_exists.2 ⟨q, hq⟩
  exact .node (isInert_of_copiedAs? hq) (ht.here hcopied)

theorem inert_steady (he : s.Expands Legible) : inert.Steady s where
  toCovers := inert_covers s
  expands := he _ _ _
  highlighted h := .node rfl (AllEvery.cons h .nil)
  stopped := id
  expanded h h' := .node rfl (AllEvery.cons h (AllEvery.cons h' .nil))
  refused _ _ _ := .node rfl (AllEvery.cons (.atom _) .nil)

end SourceView

theorem State.viewInactive_inert {s : State} {w : World} {t : Tree} (mode : InactiveMode)
    (target : Tree) (ht : t.Legible) (hs : s.Holds Tree.Legible)
    (hdefault : ∀ m i v, w.registry.default? m i = some v → v.Legible) :
    (s.viewInactive w mode t target).1.Uses Tag.IsInert := by
  have hexpands : (s.sourceView w mode target).Expands Tree.Legible :=
    hs.expands Expansion.stable_legible hdefault
  obtain ⟨_, _, hview⟩ := SourceView.Contract.view_gives (SourceView.inert_steady hexpands) t
    ⟨mode.isBlock, true⟩ ht s.diagnostics
  exact hview

theorem State.viewInactive_inert_sum :
    let definition : Tree := .node Primitive.macroDef [.atom "x",
      .node Primitive.plus [.node Primitive.arg [.atom "x"], .node Primitive.value [.atom "n"]]]
    let s := (State.fresh 600 default).write "m" definition
    let t := Tree.node (.user "m") [.node Primitive.quote [.atom "1"]]
    t.Legible ∧ s.Holds Tree.Legible ∧
      (s.viewInactive { base := "" } default t (.atom "m")).1.Uses Tag.IsInert := by
  intro definition s t
  have ht : t.Legible := by decide
  have hs : s.Holds Tree.Legible := (State.holds_fresh 600 default).write "m" (by decide)
  exact ⟨ht, hs, State.viewInactive_inert default (.atom "m") ht hs (World.holds_bare "" {}).default⟩

def viewVocabulary : List Primitive :=
  [.srcArg, .srcValue, .srcSymbol, .srcHybrid, .srcRaw, .srcHighlight, .srcExpand, .inlineTag, .openTag,
    .closeTag]

theorem State.not_viewInactive_inert_computed :
    let t := Tree.node Primitive.value [.node Primitive.merge [.atom "a", .atom "b"]]
    let s := State.fresh 600 default
    let unseen (t : Tree) : Prop := t.Uses fun tag => ∀ p ∈ Primitive.error :: viewVocabulary, tag ≠ p
    unseen t ∧ s.Holds unseen ∧
      ¬ (s.viewInactive { base := "" } default t (.tuple [.atom "x"])).1.Uses Tag.IsInert := by
  intro t s unseen
  have ht : unseen t := by decide
  have hview : (s.viewInactive { base := "" } default t (.tuple [.atom "x"])).1 =
      .node Primitive.srcValue [.node Primitive.merge [.atom "a", .atom "b"]] := rfl
  refine ⟨ht, State.holds_fresh 600 default, ?_⟩
  rw [hview]
  decide

end Typesetter

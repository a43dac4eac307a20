import Typesetter.Proofs.Vocabulary.Basic

namespace Typesetter

/-- Tags but this one, and but that of applications by a computed name. -/
def Tag.Spares (p : Primitive) (tag : Tag) : Prop := tag ≠ p ∧ tag ≠ Primitive.compound

instance (p : Primitive) (tag : Tag) : Decidable (tag.Spares p) := inferInstanceAs (Decidable (_ ∧ _))

def Tree.Contains (p : Primitive) (t : Tree) : Prop := ¬ t.Uses (· ≠ p)

instance (p : Primitive) (t : Tree) : Decidable (t.Contains p) := inferInstanceAs (Decidable (¬ _))

namespace Vocabulary

def sparing (w : World) (p : Primitive) : Vocabulary := ⟨w, Tag.Spares p⟩

theorem grounded_sparing {w : World} {p : Primitive} (hw : w.Holds (Tree.Uses (Tag.Spares p)))
    (hown : ∀ q ∈ Logic.ownPrimitives ++ SourceView.ownPrimitives, Tag.Spares p q) :
    (sparing w p).Grounded :=
  { hw with
    own := hown
    computed := fun h => absurd rfl h.2 }

theorem not_contains {p : Primitive} {t : Tree} (h : t.Uses (Tag.Spares p)) : ¬ t.Contains p :=
  fun hc => hc (h.mono fun _ _ htag => htag.1)

end Vocabulary

open Vocabulary

theorem exec_reports_error {fuel : Nat} {w : World} {s s' : State} {t r : Tree}
    (hw : w.Holds (Tree.Uses (Tag.Spares .error))) (hs : s.Holds (Tree.Uses (Tag.Spares .error)))
    (ht : t.Uses (Tag.Spares .error)) (hrun : (exec fuel t).run w s = .ok (r, s'))
    (herror : r.Contains .error ∨ ∃ x v, s'.store.get? x = some v ∧ v.Contains .error) :
    ∃ new, s'.diagnostics = s.diagnostics ++ new ∧ ∃ d ∈ new, d.isError := by
  have hV : (sparing w .error).Grounded := grounded_sparing hw (by decide)
  obtain ⟨new, hnew, hexcused | ⟨hr, hs'⟩⟩ := exec_keeps hV hs ht hrun
  · exact ⟨new, hnew, hexcused.2⟩
  · rcases herror with hcontains | ⟨x, v, hv, hcontains⟩
    · exact absurd hcontains (not_contains hr)
    · exact absurd hcontains (not_contains (hs'.stored x v hv))

def storing : Tree :=
  .node Primitive.assign [.atom "x",
    .node Primitive.tuple [.atom "1", .node Primitive.divide [.atom "1", .atom "0"]]]

def stored : Tree := .node Primitive.tuple [.atom "1", .error "division by zero in divide (in divide)"]

theorem exec_reports_error_stored : storing.Uses (Tag.Spares .error) ∧ ∃ r s',
    (exec 9 storing).run { base := "" } (State.fresh 600 default) = .ok (r, s') ∧
      s'.store.get? "x" = some stored ∧ stored.Contains .error ∧
      ∃ new, s'.diagnostics = (State.fresh 600 default).diagnostics ++ new ∧ ∃ d ∈ new, d.isError :=
  have hstoring : storing.Uses (Tag.Spares .error) := by decide
  have hstored : stored.Contains .error := by decide
  ⟨hstoring, _, _, rfl, rfl, hstored,
    @exec_reports_error 9 _ _ _ storing _ (World.holds_bare "" {}) (State.holds_fresh 600 default) hstoring
      rfl (.inr ⟨"x", stored, rfl, hstored⟩)⟩

end Typesetter

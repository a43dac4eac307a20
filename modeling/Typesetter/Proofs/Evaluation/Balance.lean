import Typesetter.Proofs.Document.WriteBack
import Typesetter.Proofs.Evaluation.Preservation
import Typesetter.Session.Environment

namespace Typesetter

structure Balanced (s s' : State) : Prop where
  scope : s'.scope = s.scope
  depth : s'.depth = s.depth
  frames : s.store.Extends s'.store
  diagnostics : ∃ new, s'.diagnostics = s.diagnostics ++ new

namespace Balanced

variable {s s' s'' : State}

theorem refl (s : State) : Balanced s s := ⟨rfl, rfl, .refl s.store, #[], by simp⟩

theorem trans (h : Balanced s s') (h' : Balanced s' s'') : Balanced s s'' := by
  obtain ⟨first, hd⟩ := h.diagnostics
  obtain ⟨second, hd'⟩ := h'.diagnostics
  exact ⟨h'.scope.trans h.scope, h'.depth.trans h.depth, h.frames.trans h'.frames,
    first ++ second, by rw [hd', hd, Array.append_assoc]⟩

theorem write (s : State) (name : String) (value : Tree) :
    Balanced s (s.writeLoggedUpdate name value) :=
  ⟨rfl, rfl, s.store.extends_writeLogged name value, #[], Array.append_empty.symm⟩

theorem change (h : Change s s') : Balanced s s' := by
  cases h with
  | none => exact refl s
  | report ds => exact ⟨rfl, rfl, .refl s.store, ds, rfl⟩
  | write name value => exact write s name value

theorem bracket {p q : Place} {before : State → State} {after : State → State → State}
    (hb : Bracket p q before after) (h : Balanced (before s) s') : Balanced s (after s s') := by
  cases hb with
  | binding name value =>
    have h := (write s name value).trans h
    exact ⟨h.scope, h.depth, h.frames.trans (.of_frames (s'.frames_putBack name _)), h.diagnostics⟩
  | frame f =>
    refine ⟨?_, ?_, h.frames, h.diagnostics⟩
    · simp only [State.leave, h.scope, State.enter, List.tail_cons]
    · simp only [State.leave, h.depth, State.enter, Nat.add_sub_cancel]
  | @below level hl =>
    refine ⟨?_, h.depth, h.frames, h.diagnostics⟩
    simp only [State.resume, h.scope, State.suspend, Scope.above_append_below]
  | deeper =>
    refine ⟨h.scope, ?_, h.frames, h.diagnostics⟩
    simp only [State.ascend, h.depth, State.descend, Nat.add_sub_cancel]

end Balanced

theorem balanced_kept : Kept Balanced where
  refl := .refl
  trans := .trans
  change := .change
  bracket hb _ _ h := .bracket hb h

theorem eval_balanced {fuel : Nat} {t : Tree} {w : World} {s s' : State} {r : Except Fault Tree}
    (h : (eval fuel t).run w s = .ok (r, s')) : Balanced s s' :=
  (eval_keeps balanced_kept fuel t w s r s' h).1

namespace Balanced

def doubling : State :=
  ((State.fresh 600 default).openFrame.write "twice" (.node Primitive.macroDef [.atom "x",
    .node Primitive.concat [.node Primitive.arg [.atom "x"], .node Primitive.arg [.atom "x"]]]))

def doubled : Tree :=
  .node (.user "twice") [.node Primitive.delay [.node Primitive.assign [.atom "y", .atom "1"]]]

end Balanced

theorem eval_balanced_doubled : ∃ r s',
    (eval 9 Balanced.doubled).run { base := "" } Balanced.doubling = .ok (r, s') ∧
      Balanced Balanced.doubling s' :=
  ⟨_, _, rfl, @eval_balanced 9 Balanced.doubled { base := "" } Balanced.doubling _ _ rfl⟩

end Typesetter

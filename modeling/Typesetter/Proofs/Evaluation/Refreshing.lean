import Typesetter.Proofs.Document.WriteBack
import Typesetter.Proofs.Evaluation.Position
import Typesetter.Session.Environment

namespace Typesetter

structure KeptByUpdates (R : State → State → Prop) : Prop where
  trans {s s' s'' : State} : R s s' → R s' s'' → R s s''
  same {s s' : State} : s'.updates = s.updates → s'.derived = s.derived →
    s'.store.read = s.store.read → R s s'
  written {s : State} {store : Store} (names : List String) :
    (∀ m, m ∉ names → store.read m = s.store.read m) → R s (names.foldl State.update { s with store })

namespace KeptByUpdates

variable {R : State → State → Prop} {s s' : State} (hR : KeptByUpdates R)

include hR

theorem refl (s : State) : R s s := hR.same rfl rfl rfl

theorem written_one {store : Store} (name : String)
    (h : ∀ m, m ≠ name → store.get? m = s.store.get? m) : R s (State.update { s with store } name) := by
  refine hR.written [name] fun m hm => ?_
  have hne : m ≠ name := fun e => hm (List.mem_singleton.2 e)
  simp only [Store.read, h m hne]

theorem write (s : State) (name : String) (value : Tree) : R s (s.writeLoggedUpdate name value) :=
  hR.written_one name fun m hm => by simp [Ne.symm hm]

theorem writeUpdate (s : State) (name : String) (value : Tree) : R s (s.writeUpdate name value) :=
  hR.written_one name fun m hm => by simp [Ne.symm hm]

theorem putBack (s : State) (name : String) (old : Option Tree) : R s (s.putBack name old) :=
  hR.written_one name fun m hm => by simp [Ne.symm hm]

theorem patch (vars : Listing Tree) (s : State) : R s (s.patch vars) := by
  induction vars generalizing s with
  | nil => exact hR.refl s
  | cons e vars ih => exact hR.trans (hR.writeUpdate s e.1 e.2) (ih _)

theorem patchLogged (vars : Listing Tree) (s : State) : R s (s.patchLogged vars) := by
  induction vars generalizing s with
  | nil => exact hR.refl s
  | cons e vars ih => exact hR.trans (hR.write s e.1 e.2) (ih _)

theorem closeFrame? (h : s.closeFrame? = some s') : R s s' := by
  simp only [State.closeFrame?, Store.closeFrame?] at h
  cases hf : s.store.frames with
  | nil =>
    rw [hf] at h
    cases h
  | cons frame rest =>
    rw [hf] at h
    cases h
    refine hR.written frame.names fun m hm => ?_
    simp only [Store.read, Store.get?_restore_of_not_mem _ hm]
    rfl

theorem change (h : Change s s') : R s s' := by
  cases h with
  | none => exact hR.refl s
  | report ds => exact hR.same rfl rfl rfl
  | write name value => exact hR.write s name value

theorem bracket {p q : Place} {before : State → State} {after : State → State → State}
    (hb : Bracket p q before after) (h : R (before s) s') : R s (after s s') := by
  cases hb with
  | binding name value => exact hR.trans (hR.trans (hR.write s name value) h) (hR.putBack s' name _)
  | frame f =>
    have hbefore : R s (s.enter f) := hR.same rfl rfl rfl
    exact hR.trans (hR.trans hbefore h) (hR.same rfl rfl rfl)
  | @below level _ =>
    have hbefore : R s (s.suspend level) := hR.same rfl rfl rfl
    exact hR.trans (hR.trans hbefore h) (hR.same rfl rfl rfl)
  | deeper =>
    have hbefore : R s s.descend := hR.same rfl rfl rfl
    exact hR.trans (hR.trans hbefore h) (hR.same rfl rfl rfl)

theorem kept : Kept R where
  refl := hR.refl
  trans := hR.trans
  change := hR.change
  bracket hb _ _ h := hR.bracket hb h

end KeptByUpdates

end Typesetter

import Typesetter.Proofs.Session.Scopes
import Typesetter.Proofs.Session.Writing
/-!
Frames and the derived state. Closing a frame gives back the derived state of the moment when it was
opened, whatever was assigned meanwhile, if the widths were orderly at that moment.
-/

namespace Typesetter

variable {w : World} {order : SystemVariable.Order} {s s' : State} {fuel : Nat}
  {vars assignments : Listing Tree}

def assignAll (fuel : Nat) : Listing Tree → Execution Unit
  | [] => return ()
  | (name, t) :: rest => do
    let _ ← assign fuel name t
    assignAll fuel rest

theorem Kept.assignAll {R : State → State → Prop} (hR : Kept R) {u : Unit}
    (h : (assignAll fuel assignments).run w s = .ok (u, s')) : R s s' := by
  induction assignments generalizing s with
  | nil =>
    cases h
    exact hR.refl _
  | cons e rest ih =>
    obtain ⟨v, t, hfirst, hrest⟩ := Execution.bind_eq_ok h
    exact hR.trans (hR.assign hfirst) (ih hrest)

namespace State

theorem derived_eq (hs : s.UpToDate) (hr : ∀ v : SystemVariable, v.Orderly (s.store.read v.name))
    (h : Tracks s s') (hget : ∀ n, s'.store.get? n = s.store.get? n) : s'.derived = s.derived := by
  have hread : s'.store.read = s.store.read :=
    funext fun n => congrArg (fun v => Option.getD v Tree.uninit) (hget n)
  -- The orderly values determine the settled derived state, up to what assignments never change.
  have hs' : s'.Consistent := (h.upToDate hs).consistent (hread ▸ hr)
  exact Derived.eq_of_settled hr h.dpi h.defaultMode (hs.consistent hr).settled.settled
    (hread ▸ hs'.settled.settled)

theorem openFrame_tracks (s : State) : Tracks s s.openFrame := .of_same rfl rfl rfl

theorem closeFrame?_restores
    (hr : ∀ v : SystemVariable, v.Orderly (((s.updateAll order).patch vars).store.read v.name)) {u : Unit}
    (hrun : (assignAll fuel assignments).run w ((s.updateAll order).patch vars).openFrame = .ok (u, s')) :
    ∃ s'', s'.closeFrame? = some s'' ∧ s''.derived = ((s.updateAll order).patch vars).derived := by
  have hopen : ((s.updateAll order).patch vars).UpToDate :=
    (tracks_patch vars (s.updateAll order)).upToDate (upToDate_updateAll s order)
  obtain ⟨s'', hclose, hget, _⟩ := closeFrame?_resumes (resumes_kept.assignAll hrun)
  have hassigned := (openFrame_tracks _).trans (tracks_kept.assignAll hrun)
  exact ⟨s'', hclose, derived_eq hopen hr (hassigned.trans (tracks_closeFrame? hclose)) hget⟩

def stacked : Listing Tree :=
  [("line-width", .atom "0.1pag"), ("page-height", .atom "2par"), ("par-width", .atom "10em")]

def enlarged : Listing Tree := [("font-base-size", .atom "20"), ("par-width", .atom "3ln")]

theorem closeFrame?_restores_stacked : ∃ s' s'',
    (assignAll 5 enlarged).run { base := "" }
      (((State.fresh 600 default).updateAll .table).patch stacked).openFrame = .ok ((), s') ∧
    s'.closeFrame? = some s'' ∧
    s''.derived = (((State.fresh 600 default).updateAll .table).patch stacked).derived := by
  have hr (v : SystemVariable) :
      v.Orderly ((((State.fresh 600 default).updateAll .table).patch stacked).store.read v.name) := by
    cases v with
    | lineWidth => exact orderly_of_unit (s := "0.1pag") rfl rfl (by decide)
    | pageHeight => exact orderly_of_unit (s := "2par") rfl rfl (by decide)
    | parWidth => exact orderly_of_unit (s := "10em") rfl rfl (by decide)
    | _ => exact nofun
  obtain ⟨s'', hclose, hderived⟩ :=
    @closeFrame?_restores { base := "" } .table _ _ 5 stacked enlarged hr () rfl
  exact ⟨_, s'', rfl, hclose, hderived⟩

def crossed : Listing Tree := [("line-width", .atom "2em"), ("par-width", .atom "10ln")]

theorem not_restored_crossed : ∃ s',
    (assignAll 5 [("font-base-size", .atom "20")]).run { base := "" }
      (((State.fresh 600 default).updateAll .table).patch crossed).openFrame = .ok ((), s') ∧
    ∀ s'', s'.closeFrame? = some s'' →
      s''.derived.parWidth ≠
        (((State.fresh 600 default).updateAll .table).patch crossed).derived.parWidth := by
  refine ⟨_, rfl, fun s'' hclose => ?_⟩
  cases hclose
  decide +kernel

end State

end Typesetter

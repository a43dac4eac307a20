import Typesetter.Proofs.Document.WriteBack
import Typesetter.Proofs.Evaluation.Position
import Typesetter.Session.Basic

namespace Typesetter

open Store

namespace State

variable {s s' : State}

theorem closeFrame?_resumes (h : Resumes s.openFrame.store s'.store) :
    ∃ s'', s'.closeFrame? = some s'' ∧ (∀ n, s''.store.get? n = s.store.get? n) ∧
      s''.store.frames = s.store.frames := by
  obtain ⟨names, store, hclose, hget, hframes⟩ := Resumes.closes h
  refine ⟨names.foldl update { s' with store }, ?_, ?_, ?_⟩
  · simp only [closeFrame?, hclose, Option.map_some]
  · intro n
    rw [store_foldl_update]
    exact hget n
  · rw [store_foldl_update]
    exact hframes

theorem patchLogged_resumes (vars : Listing Tree) (s : State) :
    Resumes s.store (s.patchLogged vars).store := by
  induction vars generalizing s with
  | nil => exact .refl s.store
  | cons e vars ih =>
    have h := ih (s.writeLoggedUpdate e.1 e.2)
    exact (Resumes.writeLogged s.store e.1 e.2).trans h

end State

theorem resumes_kept : Kept fun s s' => Resumes s.store s'.store where
  refl s := .refl s.store
  trans := .trans
  change h := by
    cases h with
    | none => exact .refl _
    | report ds => exact .refl _
    | write name value => exact .writeLogged _ name value
  bracket hb _ _ h := by
    cases hb with
    | binding name value => exact .binding h _
    | frame f => exact h
    | below hl => exact h
    | deeper => exact h

/-- Operations between the opening of a frame and its closing. Bindings are ended in the order in
which they were begun, and every frame that is opened is closed. -/
inductive ScopedRun (w : World) : State → State → Prop
  | nil (s : State) : ScopedRun w s s
  | append {s s' s'' : State} : ScopedRun w s s' → ScopedRun w s' s'' → ScopedRun w s s''
  | exec {s s' : State} {fuel : Nat} {t v : Tree} :
      (Typesetter.exec fuel t).run w s = .ok (v, s') → ScopedRun w s s'
  | expand {s : State} {t v : Tree} : Session.expand ⟨w, s⟩ t = v → ScopedRun w s s
  | assign {s s' : State} {fuel : Nat} {x : String} {t v : Tree} :
      (Typesetter.assign fuel x t).run w s = .ok (v, s') → ScopedRun w s s'
  | writeLogged (s : State) (x : String) (v : Tree) : ScopedRun w s (s.writeLogged x v)
  | writeLoggedUpdate (s : State) (x : String) (v : Tree) : ScopedRun w s (s.writeLoggedUpdate x v)
  | patchLogged (s : State) (vars : Listing Tree) : ScopedRun w s (s.patchLogged vars)
  | execUntil {s s' : State} {fuel : Nat} {t : Tree} {path : List Nat} {u : Unit} :
      (Typesetter.execUntil fuel t path).run w s = .ok (u, s') → ScopedRun w s s'
  | execUntilVariable {s s' : State} {fuel : Nat} {t : Tree} {path : List Nat}
      {watch : Position.Watch} {b : Bool} :
      (Typesetter.execUntilVariable fuel t path watch).run w s = .ok (b, s') → ScopedRun w s s'
  | viewInactive {s s' : State} {t target v : Tree} {mode : Option InactiveMode} :
      (Session.viewInactive t target mode).run w s = .ok (v, s') → ScopedRun w s s'
  | binding {s s' : State} {x : String} {v : Tree} : ScopedRun w (s.beginVariable x v).2 s' →
      ScopedRun w s (s'.putBack x (s.beginVariable x v).1)
  | block {s s' s'' : State} : ScopedRun w s.openFrame s' → s'.closeFrame? = some s'' →
      ScopedRun w s s''

namespace ScopedRun

variable {w : World} {s s' s'' : State}

theorem resumes (h : ScopedRun w s s') : Resumes s.store s'.store := by
  induction h with
  | nil s => exact .refl s.store
  | append _ _ ih ih' => exact ih.trans ih'
  | exec h => exact resumes_kept.exec h
  | expand _ => exact .refl _
  | assign h => exact resumes_kept.assign h
  | writeLogged s x v => exact .writeLogged s.store x v
  | writeLoggedUpdate s x v => exact .writeLogged s.store x v
  | patchLogged s vars => exact s.patchLogged_resumes vars
  | execUntil h => exact resumes_kept.execUntil h
  | execUntilVariable h => exact resumes_kept.execUntilVariable h
  | viewInactive h =>
    cases h
    exact .refl _
  | binding _ ih => exact .binding ih _
  | @block s s' s'' _ hclose ih =>
    -- An inner block has given back the variables already, so the outer frame has nothing to note.
    obtain ⟨t, ht, hget, hframes⟩ := State.closeFrame?_resumes ih
    obtain rfl := Option.some.inj (hclose.symm.trans ht)
    have hin : s''.store.innermost = s.store.innermost := congrArg (List.headD · []) hframes
    refine ⟨.of_frames hframes, fun h => by rwa [hin], fun _ m => ?_⟩
    simp only [Store.restored, hin, hget]

theorem restores (h : ScopedRun w s.openFrame s') : ∃ s'', s'.closeFrame? = some s'' ∧
    (∀ n, s''.store.get? n = s.store.get? n) ∧ s''.store.frames = s.store.frames :=
  State.closeFrame?_resumes h.resumes

def unset : State := (State.fresh 600 default).write "x" .uninit

theorem restores_unset : ∃ s' s'', ScopedRun { base := "" } unset.openFrame s' ∧
    s'.closeFrame? = some s'' ∧ s''.store.get? "x" = some .uninit ∧ s''.store.get? "y" = none := by
  have hassign : ScopedRun { base := "" }
      ((unset.openFrame.writeLogged "x" (.atom "1")).beginVariable "x" (.atom "2")).2.openFrame _ :=
    @ScopedRun.assign _ _ _ 5 "y"
      (.node Primitive.plus [.node Primitive.value [.atom "x"], .atom "1"]) _ rfl
  have h := (ScopedRun.writeLogged unset.openFrame "x" (.atom "1")).append
    (.binding (.block hassign rfl))
  obtain ⟨s'', hclose, hget, _⟩ := ScopedRun.restores h
  exact ⟨_, s'', h, hclose, (hget "x").trans (by simp [unset, State.write]), (hget "y").trans rfl⟩

end ScopedRun

end Typesetter

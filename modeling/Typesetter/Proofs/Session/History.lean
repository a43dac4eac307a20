import Typesetter.Proofs.Session.Writing
import Typesetter.Session.Basic

namespace Typesetter

open SystemVariable

inductive Operation where
  | withSettings (settings : Settings)
  | writeStandard
  | replaceAll (vars : Listing Tree)
  | patch (vars : Listing Tree)
  | patchLogged (vars : Listing Tree)
  | writeUpdate (name : String) (value : Tree)
  | writeLoggedUpdate (name : String) (value : Tree)
  | assign (fuel : Nat) (name : String) (t : Tree)
  | exec (fuel : Nat) (t : Tree)
  | execUntil (fuel : Nat) (t : Tree) (path : List Nat)
  | beginVariable (name : String) (value : Tree)
  | endVariable (name : String) (old : Option Tree)
  | beginScript
  | endScript (old : Option Tree)
  | openFrame
  | closeFrame

namespace Operation

def outcome {α : Type} (s : Session) (m : Execution α) : Option Session :=
  (s.run m).toOption.map (·.2)

def perform (s : Session) : Operation → Option Session
  | withSettings settings => some (s.withSettings settings)
  | writeStandard => some s.writeStandard
  | replaceAll vars => some { s with state := s.state.replaceAll s.world.variableOrder vars }
  | patch vars => some { s with state := s.state.patch vars }
  | patchLogged vars => some { s with state := s.state.patchLogged vars }
  | writeUpdate name value => some { s with state := s.state.writeUpdate name value }
  | writeLoggedUpdate name value => some { s with state := s.state.writeLoggedUpdate name value }
  | assign fuel name t => outcome s (Typesetter.assign fuel name t)
  | exec fuel t => outcome s (Typesetter.exec fuel t)
  | execUntil fuel t path => outcome s (Typesetter.execUntil fuel t path)
  | beginVariable name value => some { s with state := (s.state.beginVariable name value).2 }
  | endVariable name old => some { s with state := s.state.putBack name old }
  | beginScript => some { s with state := s.state.beginScript.2 }
  | endScript old => some { s with state := s.state.putBack State.scriptVariable old }
  | openFrame => some { s with state := s.state.openFrame }
  | closeFrame => s.state.closeFrame?.map fun state => { s with state }

def performAll (s : Session) : List Operation → Option Session
  | [] => some s
  | o :: os => (perform s o).bind fun s' => performAll s' os

def replaced : Operation → Listing Tree
  | replaceAll vars => vars
  | _ => []

end Operation

/-- Every update tells the value that was stored, so the updates show what a history has written. -/
structure OrderlyHistory (os : List Operation) (s : Session) : Prop where
  replaced : ∀ o ∈ os, ∀ e ∈ o.replaced, OrderlyEntry e
  updates : ∀ e ∈ s.state.updates, OrderlyEntry e

structure Follows (s s' : Session) : Prop where
  updates : ∃ new, s'.state.updates = s.state.updates ++ new
  dpi : s'.state.derived.dpi = s.state.derived.dpi
  defaultMode : s.state.derived.defaultInactiveMode = s.world.settings.inactiveMode →
    s'.state.derived.defaultInactiveMode = s'.world.settings.inactiveMode
  consistent : (∀ e ∈ s'.state.updates, OrderlyEntry e) → s.state.Consistent → s'.state.Consistent

namespace Follows

variable {s s' s'' : Session} {state : State} {α : Type} {o : Operation} {os : List Operation}

theorem of_tracks (h : Tracks s.state state) : Follows s { s with state } :=
  ⟨h.updates, h.dpi, fun hmode => h.defaultMode.trans hmode, h.consistent⟩

theorem refl (s : Session) : Follows s s := of_tracks (tracks_updates.refl s.state)

theorem trans (h : Follows s s') (h' : Follows s' s'') : Follows s s'' := by
  obtain ⟨first, hf⟩ := h.updates
  obtain ⟨second, hs⟩ := h'.updates
  refine ⟨⟨first ++ second, by rw [hs, hf, Array.append_assoc]⟩, h'.dpi.trans h.dpi,
    h'.defaultMode ∘ h.defaultMode, fun hall hc => h'.consistent hall (h.consistent ?_ hc)⟩
  intro e he
  exact hall e (hs ▸ Array.mem_append_left second he)

theorem withSettings (s : Session) (settings : Settings) : Follows s (s.withSettings settings) := by
  let d : Derived := { s.state.derived with defaultInactiveMode := settings.inactiveMode }
  obtain ⟨hdpi, hmode⟩ := d.constants_update "inactive-mode" s.state.store.read
  refine ⟨⟨_, Array.push_eq_append⟩, hdpi, fun _ => hmode, fun _ hc => ⟨hc.orderly, ?_⟩⟩
  exact (hc.settled.withMode settings.inactiveMode).update hc.orderly

theorem outcome {m : Execution α} (hm : ∀ a state, m.run s.world s.state = .ok (a, state) →
    Tracks s.state state) (h : Operation.outcome s m = some s') : Follows s s' := by
  simp only [Operation.outcome, Session.run] at h
  cases hrun : m.run s.world s.state with
  | error e =>
    rw [hrun] at h
    cases h
  | ok r =>
    rw [hrun] at h
    cases h
    exact .of_tracks (hm r.1 r.2 hrun)

theorem perform (ho : ∀ e ∈ o.replaced, OrderlyEntry e) (h : o.perform s = some s') :
    Follows s s' := by
  cases o with
  | withSettings settings =>
    cases h
    exact .withSettings s settings
  | writeStandard =>
    cases h
    refine .of_tracks ?_
    rw [State.writeStandard, State.foldl_write]
    refine State.tracks_updateAll fun hc => Store.orderly_writeAll ?_ hc.orderly
    exact orderly_standardVariables _
  | replaceAll vars =>
    cases h
    refine .of_tracks (State.tracks_updateAll fun _ v => ?_)
    rw [Store.replace_eq]
    exact Store.orderly_writeAll (s := { s.state.store with vars := {} }) ho orderly_uninit v
  | patch vars =>
    cases h
    exact .of_tracks (State.tracks_patch vars s.state)
  | patchLogged vars =>
    cases h
    exact .of_tracks (tracks_updates.patchLogged vars s.state)
  | writeUpdate name value =>
    cases h
    exact .of_tracks (tracks_updates.writeUpdate s.state name value)
  | writeLoggedUpdate name value =>
    cases h
    exact .of_tracks (tracks_updates.write s.state name value)
  | assign fuel name t => exact .outcome (fun _ _ hrun => tracks_kept.assign hrun) h
  | exec fuel t => exact .outcome (fun _ _ hrun => tracks_kept.exec hrun) h
  | execUntil fuel t path => exact .outcome (fun _ _ hrun => tracks_kept.execUntil hrun) h
  | beginVariable name value =>
    cases h
    exact .of_tracks (tracks_updates.write s.state name value)
  | endVariable name old =>
    cases h
    exact .of_tracks (tracks_updates.putBack s.state name old)
  | beginScript =>
    cases h
    exact .of_tracks (tracks_updates.write s.state _ _)
  | endScript old =>
    cases h
    exact .of_tracks (tracks_updates.putBack s.state _ old)
  | openFrame =>
    cases h
    exact .of_tracks (.of_same rfl rfl rfl)
  | closeFrame =>
    obtain ⟨state, hclose, rfl⟩ := Option.map_eq_some_iff.1 h
    exact .of_tracks (State.tracks_closeFrame? hclose)

theorem performAll (hos : ∀ o ∈ os, ∀ e ∈ o.replaced, OrderlyEntry e)
    (h : Operation.performAll s os = some s') : Follows s s' := by
  induction os generalizing s with
  | nil =>
    cases h
    exact .refl _
  | cons o os ih =>
    obtain ⟨t, ho, hos'⟩ := Option.bind_eq_some_iff.1 h
    exact (perform (hos o List.mem_cons_self) ho).trans
      (ih (fun o' h' => hos o' (List.mem_cons_of_mem o h')) hos')

end Follows

theorem Session.start_consistent (dpi : Int) (world : World) :
    (Session.start dpi world).state.Consistent :=
  ⟨orderly_uninit, Derived.settledBut_nil (Derived.fresh_settled dpi _)⟩

/-- The fields are what the variables mean, and no other history that ends with these variables ends
with other fields. -/
theorem history_settled {dpi : Int} {world : World} {os : List Operation} {s : Session}
    (hrun : Operation.performAll (.start dpi world) os = some s) (ho : OrderlyHistory os s) :
    (∀ v, s.state.derived.field v = s.state.derived.decode v (s.state.store.read v.name)) ∧
      ∀ world' os' s', Operation.performAll (.start dpi world') os' = some s' →
        OrderlyHistory os' s' → s'.world.settings.inactiveMode = s.world.settings.inactiveMode →
        (∀ name, s'.state.store.get? name = s.state.store.get? name) →
        s'.state.derived = s.state.derived := by
  have hfollows := Follows.performAll ho.replaced hrun
  have hc := hfollows.consistent ho.updates (Session.start_consistent dpi world)
  refine ⟨hc.settled.settled, fun world' os' s' hrun' ho' hmode hstore => ?_⟩
  have hfollows' := Follows.performAll ho'.replaced hrun'
  have hc' := hfollows'.consistent ho'.updates (Session.start_consistent dpi world')
  have hread : s'.state.store.read = s.state.store.read :=
    funext fun name => congrArg (fun value => Option.getD value Tree.uninit) (hstore name)
  refine Derived.eq_of_settled hc.orderly (hfollows'.dpi.trans hfollows.dpi.symm) ?_
    hc.settled.settled (hread ▸ hc'.settled.settled)
  rw [hfollows'.defaultMode rfl, hfollows.defaultMode rfl, hmode]

def Operation.widened : List Operation :=
  [.openFrame, .writeLoggedUpdate "par-width" (.atom "10em"),
    .writeLoggedUpdate "font-base-size" (.atom "12"), .closeFrame]

theorem history_settled_widened : ∃ s,
    Operation.performAll (.start 600 { base := "" }) Operation.widened = some s ∧
      OrderlyHistory Operation.widened s ∧
      s.state.derived = (Session.start 600 { base := "" }).state.derived := by
  let start : Session := .start 600 { base := "" }
  have hrun : ∃ s, Operation.performAll start Operation.widened = some s ∧
      s.state.updates = #[("par-width", .atom "10em"), ("font-base-size", .atom "12"),
        ("par-width", .uninit), ("font-base-size", .uninit)] ∧
      s.world = start.world ∧ s.state.store.vars = {} := ⟨_, rfl, rfl, rfl, rfl⟩
  obtain ⟨s, hrun, hupdates, hworld, hvars⟩ := hrun
  have ho : OrderlyHistory Operation.widened s := by
    refine ⟨by simp [Operation.widened, Operation.replaced], ?_⟩
    rw [hupdates]
    intro e he v hv
    simp only [List.mem_toArray, List.mem_cons, List.not_mem_nil, or_false] at he
    rcases he with rfl | rfl | rfl | rfl
    · obtain rfl : v = .parWidth := name_injective hv
      exact orderly_of_unit rfl rfl (by decide)
    · obtain rfl : v = .fontBaseSize := name_injective hv
      exact nofun
    · exact v.orderly_uninit
    · exact v.orderly_uninit
  have hstart : OrderlyHistory [] start := ⟨nofun, nofun⟩
  refine ⟨s, hrun, ho, ?_⟩
  refine ((history_settled hrun ho).2 start.world [] start rfl hstart ?_ fun name => ?_).symm
  · rw [hworld]
  · simp only [Store.get?, hvars]
    rfl

end Typesetter

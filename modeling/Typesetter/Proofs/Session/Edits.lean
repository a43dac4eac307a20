import Typesetter.Proofs.Document.Layers
import Typesetter.Session.Environment

namespace Typesetter

inductive Edit where
  | writeLogged (name : String) (value : Tree)
  | assign (name : String) (value : Tree)
  | openFrame
  | closeFrame

namespace Edit

variable {s s' : State} {n : String} {v : Tree}

def perform (s : State) : Edit → Option State
  | writeLogged name value => some (s.writeLogged name value)
  | assign name value => some (s.assign name value)
  | openFrame => some s.openFrame
  | closeFrame => s.closeFrame?

def views (s : State) : List Edit → List (String → Option Tree)
  | [] => [s.store.get?]
  | e :: es => s.store.get? :: (e.perform s).elim [] fun s' => views s' es

def onLayers : Edit → List (String → Option Tree) → Option (List (String → Option Tree))
  | writeLogged name value, top :: below | assign name value, top :: below =>
    some (Function.update top name (some value) :: below)
  | openFrame, top :: below => some (top :: top :: below)
  | closeFrame, _ :: top :: below => some (top :: below)
  | _, _ => none

theorem layers_assign (s : State) (n : String) (v : Tree) {below : List (String → Option Tree)}
    (h : s.store.layers = s.store.get? :: below) :
    (s.assign n v).store.layers = Function.update s.store.get? n (some v) :: below := by
  unfold State.assign
  by_cases hv : s.store.get? n = some v
  · rw [if_pos hv, h, Function.update_eq_self_iff.2 hv.symm]
  · rw [if_neg hv]
    exact s.store.layers_writeLogged n v h

theorem layers_perform (s : State) (e : Edit) :
    (e.perform s).map (·.store.layers) = e.onLayers s.store.layers := by
  obtain ⟨below, hbelow⟩ := s.store.exists_layers
  cases e with
  | writeLogged name value =>
    rw [hbelow]
    exact congrArg some (s.store.layers_writeLogged name value hbelow)
  | assign name value =>
    rw [hbelow]
    exact congrArg some (layers_assign s name value hbelow)
  | openFrame =>
    have hopen : s.openFrame.store.layers = s.store.get? :: s.store.layers := s.store.layers_openFrame
    rw [perform, Option.map_some, hopen, hbelow, onLayers]
  | closeFrame =>
    cases hclose : s.store.closeFrame? with
    | none =>
      rw [s.store.layers_of_closeFrame?_eq_none hclose, perform, State.closeFrame?, hclose]
      rfl
    | some r =>
      obtain ⟨names, store⟩ := r
      obtain ⟨others, hothers⟩ := store.exists_layers
      rw [Store.layers_closeFrame? hclose, hothers, perform, State.closeFrame?, hclose, onLayers]
      simp only [Option.map_some, State.store_foldl_update, hothers]

theorem views_congr (h : s.store.layers = s'.store.layers) (edits : List Edit) :
    views s edits = views s' edits := by
  induction edits generalizing s s' with
  | nil =>
    obtain ⟨_, hs⟩ := s.store.exists_layers
    obtain ⟨_, hs'⟩ := s'.store.exists_layers
    rw [views, views, (List.cons.inj (hs.symm.trans (h.trans hs'))).1]
  | cons e es ih =>
    obtain ⟨_, hs⟩ := s.store.exists_layers
    obtain ⟨_, hs'⟩ := s'.store.exists_layers
    rw [views, views, (List.cons.inj (hs.symm.trans (h.trans hs'))).1]
    have hnext : (e.perform s).map (·.store.layers) = (e.perform s').map (·.store.layers) := by
      rw [layers_perform, layers_perform, h]
    cases hr : e.perform s with
    | none =>
      rw [hr, Option.map_none, eq_comm, Option.map_eq_none_iff] at hnext
      rw [hnext]
    | some t =>
      rw [hr, Option.map_some, eq_comm, Option.map_eq_some_iff] at hnext
      obtain ⟨t', ht', hlayers⟩ := hnext
      rw [ht', Option.elim_some, Option.elim_some, ih hlayers.symm]

end Edit

namespace State

theorem views_assign_unchanged {s : State} {n : String} {v : Tree} (h : s.store.get? n = some v)
    (edits : List Edit) :
    s.assign n v = s ∧ Edit.views (s.assign n v) edits = Edit.views (s.writeLogged n v) edits := by
  refine ⟨if_pos h, Edit.views_congr ?_ edits⟩
  obtain ⟨below, hbelow⟩ := s.store.exists_layers
  exact (Edit.layers_assign s n v hbelow).trans (s.store.layers_writeLogged n v hbelow).symm

def framed : State := ((State.fresh 600 default).write "x" (.atom "1")).openFrame

def reassigning : List Edit :=
  [.writeLogged "x" (.atom "2"), .openFrame, .assign "x" (.atom "1"), .closeFrame, .closeFrame]

theorem views_assign_unchanged_framed :
    (framed.assign "x" (.atom "1")).store.frames ≠ (framed.writeLogged "x" (.atom "1")).store.frames ∧
    Edit.views (framed.assign "x" (.atom "1")) reassigning =
      Edit.views (framed.writeLogged "x" (.atom "1")) reassigning ∧
    (Edit.views (framed.writeLogged "x" (.atom "1")) reassigning).map (· "x") =
      [some (.atom "1"), some (.atom "2"), some (.atom "2"), some (.atom "1"), some (.atom "2"),
        some (.atom "1")] := by
  obtain ⟨hsame, hviews⟩ :=
    views_assign_unchanged (s := framed) (n := "x") (v := .atom "1") rfl reassigning
  have hframes : framed.store.frames ≠ (framed.writeLogged "x" (.atom "1")).store.frames := by
    change [[]] ≠ [[("x", some (Tree.atom "1"))]]
    exact nofun
  exact ⟨hsame.symm ▸ hframes, hviews, rfl⟩

end State

end Typesetter

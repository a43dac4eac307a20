import Typesetter.Proofs.Derived.Settled
import Typesetter.Proofs.Evaluation.Refreshing

namespace Typesetter

open SystemVariable

structure State.Consistent (s : State) : Prop where
  orderly : ∀ v : SystemVariable, v.Orderly (s.store.read v.name)
  settled : s.derived.SettledBut [] s.store.read

def State.UpToDate (s : State) : Prop := s.derived.AnchoredSettledBut [] s.store.read

theorem State.Consistent.upToDate {s : State} (h : s.Consistent) : s.UpToDate :=
  fun v _ hv => h.settled v hv

theorem State.UpToDate.consistent {s : State} (h : s.UpToDate)
    (hr : ∀ v : SystemVariable, v.Orderly (s.store.read v.name)) : s.Consistent :=
  ⟨hr, fun v hv => h v (fun u _ => hr u) hv⟩

structure Tracks (s s' : State) : Prop where
  updates : ∃ new, s'.updates = s.updates ++ new
  dpi : s'.derived.dpi = s.derived.dpi
  defaultMode : s'.derived.defaultInactiveMode = s.derived.defaultInactiveMode
  upToDate : s.UpToDate → s'.UpToDate
  consistent : (∀ e ∈ s'.updates, OrderlyEntry e) → s.Consistent → s'.Consistent

namespace Tracks

variable {s s' s'' : State}

theorem of_same (hu : s'.updates = s.updates) (hd : s'.derived = s.derived)
    (hs : s'.store.read = s.store.read) : Tracks s s' := by
  have hcurrent : s.UpToDate → s'.UpToDate := by
    unfold State.UpToDate
    rw [hd, hs]
    exact id
  refine ⟨⟨#[], hu.trans Array.append_empty.symm⟩, by rw [hd], by rw [hd], hcurrent, fun _ h => ?_⟩
  exact (hcurrent h.upToDate).consistent (hs ▸ h.orderly)

theorem trans (h : Tracks s s') (h' : Tracks s' s'') : Tracks s s'' := by
  obtain ⟨first, hf⟩ := h.updates
  obtain ⟨second, hs⟩ := h'.updates
  refine ⟨⟨first ++ second, by rw [hs, hf, Array.append_assoc]⟩, h'.dpi.trans h.dpi,
    h'.defaultMode.trans h.defaultMode, h'.upToDate ∘ h.upToDate,
    fun hall hc => h'.consistent hall (h.consistent ?_ hc)⟩
  intro e he
  exact hall e (hs ▸ Array.mem_append_left second he)

theorem upToDate_foldl {names : List String} (s : State)
    (h : s.derived.AnchoredSettledBut names s.store.read) : (names.foldl State.update s).UpToDate := by
  induction names generalizing s with
  | nil => exact h
  | cons n names ih => exact ih (s.update n) h.update

theorem constants_foldl (names : List String) (s : State) :
    (names.foldl State.update s).derived.dpi = s.derived.dpi ∧
      (names.foldl State.update s).derived.defaultInactiveMode = s.derived.defaultInactiveMode := by
  induction names generalizing s with
  | nil => exact ⟨rfl, rfl⟩
  | cons n names ih =>
    obtain ⟨hdpi, hmode⟩ := ih (s.update n)
    obtain ⟨hdpi', hmode'⟩ := s.derived.constants_update n s.store.read
    exact ⟨hdpi.trans hdpi', hmode.trans hmode'⟩

theorem written {store : Store} (names : List String)
    (h : ∀ m, m ∉ names → store.read m = s.store.read m) :
    Tracks s (names.foldl State.update { s with store }) := by
  let t : State := { s with store }
  obtain ⟨hdpi, hmode⟩ := constants_foldl names t
  have hupdates := State.updates_foldl_update names t
  have hcurrent (hs : s.UpToDate) : (names.foldl State.update t).UpToDate :=
    upToDate_foldl t (hs.write h)
  refine ⟨⟨_, hupdates⟩, hdpi, hmode, hcurrent, fun hall hc => (hcurrent hc.upToDate).consistent ?_⟩
  intro v
  rw [State.store_foldl_update]
  by_cases hv : v.name ∈ names
  · refine hall (v.name, store.read v.name) ?_ v rfl
    rw [hupdates]
    refine Array.mem_append_right _ (List.mem_toArray.2 ?_)
    exact List.mem_map.2 ⟨v.name, hv, rfl⟩
  · change v.Orderly (store.read v.name)
    rw [h v.name hv]
    exact hc.orderly v

end Tracks

theorem tracks_updates : KeptByUpdates Tracks where
  trans := .trans
  same := .of_same
  written := .written

theorem tracks_kept : Kept Tracks := tracks_updates.kept

end Typesetter

import Typesetter.Proofs.Evaluation.Tracking

namespace Typesetter

open SystemVariable

namespace Store

variable {s : Store} {vars : Listing Tree}

def writeAll (s : Store) (vars : Listing Tree) : Store :=
  vars.foldl (fun s e => s.write e.1 e.2) s

theorem replace_eq (s : Store) (vars : Listing Tree) :
    s.replace vars = writeAll { s with vars := {} } vars := by
  have h (t : Table) : { s with vars := vars.foldl (fun t e => t.insert e.1 e.2) t } =
      writeAll { s with vars := t } vars := by
    induction vars generalizing t with
    | nil => rfl
    | cons e vars ih => exact ih (t.insert e.1 e.2)
  exact h {}

theorem orderly_writeAll (hvars : ∀ e ∈ vars, OrderlyEntry e)
    (hs : ∀ v : SystemVariable, v.Orderly (s.read v.name)) (v : SystemVariable) :
    v.Orderly ((s.writeAll vars).read v.name) := by
  induction vars generalizing s with
  | nil => exact hs v
  | cons e vars ih =>
    refine ih (fun e' he => hvars e' (List.mem_cons_of_mem e he)) fun u => ?_
    rw [read, get?_write]
    by_cases hu : e.1 = u.name
    · rw [if_pos hu]
      exact hvars e List.mem_cons_self u hu.symm
    · rw [if_neg hu]
      exact hs u

end Store

namespace State

variable {s s' : State} {vars : Listing Tree} {order : Order}

theorem upToDate_updateAll (s : State) (order : Order) : (s.updateAll order).UpToDate := by
  rw [UpToDate, derived_updateAll, store_updateAll]
  exact Derived.updateAll_anchored s.derived order

theorem constants_updateAll (s : State) (order : Order) :
    (s.updateAll order).derived.dpi = s.derived.dpi ∧
      (s.updateAll order).derived.defaultInactiveMode = s.derived.defaultInactiveMode := by
  obtain ⟨hdpi, hmode⟩ := s.derived.constants_applyAll order.list s.store.read
  obtain ⟨hdpi', hmode'⟩ := (s.derived.applyAll order.list s.store.read).constants_applyAll unitDependent
    s.store.read
  rw [derived_updateAll]
  exact ⟨hdpi'.trans hdpi, hmode'.trans hmode⟩

theorem foldl_write (vars : Listing Tree) (s : State) :
    vars.foldl (fun s e => s.write e.1 e.2) s = { s with store := s.store.writeAll vars } := by
  induction vars generalizing s with
  | nil => rfl
  | cons e vars ih => exact ih (s.write e.1 e.2)

theorem tracks_updateAll {store : Store}
    (h : s.Consistent → ∀ v : SystemVariable, v.Orderly (store.read v.name)) :
    Tracks s (updateAll { s with store } order) := by
  obtain ⟨hdpi, hmode⟩ := constants_updateAll { s with store } order
  have hcurrent := upToDate_updateAll { s with store } order
  refine ⟨⟨#[], ?_⟩, hdpi, hmode, fun _ => hcurrent, fun _ hc => hcurrent.consistent ?_⟩
  · rw [updates_updateAll, Array.append_empty]
  · rw [store_updateAll]
    exact h hc

theorem tracks_patch (vars : Listing Tree) (s : State) : Tracks s (s.patch vars) :=
  tracks_updates.patch vars s

theorem tracks_closeFrame? (h : s.closeFrame? = some s') : Tracks s s' := tracks_updates.closeFrame? h

end State

theorem orderly_of_unit {v : SystemVariable} {s name : String} {unit : LengthUnit}
    (hs : (Length.split? s.toList).map (·.2) = some name) (hn : LengthUnit.ofName? name = some unit)
    (hr : unit.rank < v.rank) : v.Orderly (.atom s) := by
  intro _ s' amount name' unit' hlabel hsplit hname
  obtain rfl := Option.some.inj hlabel
  rw [hsplit] at hs
  obtain rfl := Option.some.inj hs
  rw [hname] at hn
  obtain rfl := Option.some.inj hn
  exact hr

theorem orderly_standardVariables (mode : InactiveMode) :
    ∀ e ∈ standardVariables mode, OrderlyEntry e := by
  have hwidths : ∀ e ∈ standardVariables mode, ("line-width" = e.1 → e.2 = .atom "1px") ∧
      ("par-width" = e.1 → e.2 = .atom "15cm") ∧ ("page-height" = e.1 → e.2 = .atom "29.7cm") := by
    obtain ⟨isBlock, policy⟩ := mode
    cases isBlock <;> cases policy <;> decide
  intro e he v hv
  cases v with
  | lineWidth =>
    rw [(hwidths e he).1 hv]
    exact orderly_of_unit rfl rfl (by decide)
  | parWidth =>
    rw [(hwidths e he).2.1 hv]
    exact orderly_of_unit rfl rfl (by decide)
  | pageHeight =>
    rw [(hwidths e he).2.2 hv]
    exact orderly_of_unit rfl rfl (by decide)
  | _ => exact nofun

end Typesetter

import Typesetter.Proofs.Session.Consumers
import Typesetter.Proofs.Session.Writing
/-!
Writing many variables at once, and consumers. The derived state follows at once, but no consumer is told;
one that was registered before knows the variables again as soon as all that read differently have been
updated.
-/

namespace Typesetter

inductive BulkWrite where
  | all (vars : Listing Tree)
  | standard (mode : InactiveMode)

namespace BulkWrite

variable {w : World} {order : SystemVariable.Order} {b : BulkWrite} {s s' : State} {x : String}

def perform (order : SystemVariable.Order) (s : State) : BulkWrite → State
  | all vars => s.replaceAll order vars
  | standard mode => s.writeStandard order mode

def Changes (order : SystemVariable.Order) (b : BulkWrite) (s : State) (x : String) : Prop :=
  (b.perform order s).store.read x ≠ s.store.read x

theorem perform_eq (order : SystemVariable.Order) (b : BulkWrite) (s : State) :
    ∃ store, b.perform order s = State.updateAll { s with store } order := by
  cases b with
  | all vars => exact ⟨s.store.replace vars, rfl⟩
  | standard mode =>
    exact ⟨s.store.writeAll (standardVariables mode), by
      rw [← State.foldl_write]
      rfl⟩

theorem upToDate_perform (b : BulkWrite) (s : State) : (b.perform order s).UpToDate := by
  obtain ⟨store, h⟩ := b.perform_eq order s
  exact h ▸ State.upToDate_updateAll _ order

theorem updates_perform (b : BulkWrite) (s : State) : (b.perform order s).updates = s.updates := by
  obtain ⟨store, h⟩ := b.perform_eq order s
  rw [h, State.updates_updateAll]

theorem told_perform (b : BulkWrite) (s : State) : s.told (b.perform order s) = [] := by
  rw [State.told, updates_perform, ← Array.length_toList, List.drop_length]

theorem informs_iff (h : RefreshingRun w (b.perform order s) s') :
    (b.perform order s).UpToDate ∧ s.told (b.perform order s) = [] ∧
      (Informs s s' ↔ ∀ x, b.Changes order s x → x ∈ (s.told s').names) := by
  refine ⟨b.upToDate_perform s, b.told_perform s, ?_⟩
  obtain ⟨told, hupdates, hread⟩ := informs_updates.run h
  rw [updates_perform] at hupdates
  have htold := State.told_of_updates hupdates
  rw [htold]
  constructor
  · intro hinforms x hx
    refine Decidable.byContradiction fun hnot => ?_
    have hnone := lastTold?_eq_none.2 hnot
    have hnow := hinforms.told x
    rw [htold, hread, hnone] at hnow
    exact hx hnow
  · intro hcovered
    refine ⟨told, hupdates, fun x => ?_⟩
    rw [hread]
    cases hlast : lastTold? told x with
    | some v => rfl
    | none =>
      exact Decidable.byContradiction fun hx => lastTold?_eq_none.1 hlast (hcovered x hx)

def renewal : BulkWrite := .all [("x", .atom "1")]

theorem changes_renewal (h : renewal.Changes order RefreshingRun.registered x) : x = "x" := by
  refine Decidable.byContradiction fun hx => h ?_
  have hread (v : Tree) : (Store.write {} "x" v).read x = .uninit := by
    rw [Store.read, Store.get?_write, if_neg (Ne.symm hx)]
    rfl
  rw [renewal, perform, State.replaceAll, State.store_updateAll]
  exact (hread (.atom "1")).trans (hread (.atom "0")).symm

theorem informs_iff_renewed : ∃ s',
    RefreshingRun { base := "" } (renewal.perform .table RefreshingRun.registered) s' ∧
    RefreshingRun.registered.told s' = [("x", .atom "1")] ∧ Informs RefreshingRun.registered s' := by
  have hrun := (RefreshingRun.nil (w := { base := "" })
    (renewal.perform .table RefreshingRun.registered)).step (.writeUpdate _ "x" (.atom "1"))
  refine ⟨_, hrun, rfl, (informs_iff hrun).2.2.2 fun x hx => ?_⟩
  rw [changes_renewal hx]
  exact List.mem_singleton_self "x"

theorem not_told_renewed : ¬ ∀ x, renewal.Changes .table RefreshingRun.registered x →
    (x, (renewal.perform .table RefreshingRun.registered).store.read x) ∈
      RefreshingRun.registered.told (renewal.perform .table RefreshingRun.registered) := by
  intro htold
  have hx : renewal.Changes .table RefreshingRun.registered "x" := by
    change Tree.atom "1" ≠ Tree.atom "0"
    decide
  have hmem := htold "x" hx
  rw [told_perform] at hmem
  cases hmem

end BulkWrite

end Typesetter

import Typesetter.Proofs.Evaluation.Refreshing
/-!
Consumers of updates. One that remembers what it was told last of each variable knows the variables at
any time, as long as only operations are used that update what they change.
-/

namespace Typesetter

def lastTold? (told : Listing Tree) (x : String) : Option Tree := Listing.get? told.reverse x

/-- What a consumer has been told by the second state if it was registered in the first one. -/
def State.told (s s' : State) : Listing Tree := s'.updates.toList.drop s.updates.size

theorem State.told_of_updates {s s' : State} {told : Listing Tree}
    (h : s'.updates = s.updates ++ told.toArray) : s.told s' = told := by
  rw [State.told, h, Array.toList_append, ← Array.length_toList, List.drop_left]

section

variable {told told' : Listing Tree} {names : List String} {x : String}

theorem lastTold?_append :
    lastTold? (told ++ told') x = (lastTold? told' x).or (lastTold? told x) := by
  rw [lastTold?, List.reverse_append, Listing.get?_append]
  rfl

theorem lastTold?_eq_none : lastTold? told x = none ↔ x ∉ told.names := by
  rw [lastTold?, Listing.get?_eq_none, Listing.names, List.map_reverse, List.mem_reverse]
  rfl

theorem lastTold?_of_mem {f : String → Tree} (h : x ∈ names) :
    lastTold? (names.map fun n => (n, f n)) x = some (f x) := by
  have hget (l : List String) (hl : x ∈ l) : Listing.get? (l.map fun n => (n, f n)) x = some (f x) := by
    induction l with
    | nil => cases hl
    | cons n l ih =>
      rw [List.map_cons, Listing.get?_cons]
      by_cases hx : x = n
      · rw [if_pos hx, hx]
      · rw [if_neg hx]
        exact ih (List.mem_of_ne_of_mem hx hl)
  rw [lastTold?, ← List.map_reverse]
  exact hget names.reverse (List.mem_reverse.2 h)

end

/-- The second state tells of whatever changes, and each variable last has the value told last. -/
def Informs (s s' : State) : Prop :=
  ∃ told : Listing Tree, s'.updates = s.updates ++ told.toArray ∧
    ∀ x, s'.store.read x = (lastTold? told x).getD (s.store.read x)

theorem informs_updates : KeptByUpdates Informs where
  trans := by
    intro s s' s'' h h'
    obtain ⟨first, hfirst, hread⟩ := h
    obtain ⟨second, hsecond, hread'⟩ := h'
    refine ⟨first ++ second, ?_, fun x => ?_⟩
    · rw [hsecond, hfirst, Array.append_assoc, List.append_toArray first second]
    · rw [hread', hread, lastTold?_append]
      cases lastTold? second x <;> rfl
  same hu _ hs := ⟨[], hu.trans Array.append_empty.symm, fun x => congrFun hs x⟩
  written {s store} names h := by
    refine ⟨names.map fun n => (n, store.read n), State.updates_foldl_update names _, fun x => ?_⟩
    rw [State.store_foldl_update]
    by_cases hx : x ∈ names
    · rw [lastTold?_of_mem hx]
      rfl
    · have hnone : lastTold? (names.map fun n => (n, store.read n)) x = none := by
        rw [lastTold?_eq_none]
        simpa [Listing.names] using hx
      rw [hnone]
      exact h x hx

theorem Informs.told {s s' : State} (h : Informs s s') (x : String) :
    s'.store.read x = (lastTold? (s.told s') x).getD (s.store.read x) := by
  obtain ⟨told, hupdates, hread⟩ := h
  rw [State.told_of_updates hupdates]
  exact hread x

inductive Refreshes (w : World) : State → State → Prop
  | writeUpdate (s : State) (x : String) (v : Tree) : Refreshes w s (s.writeUpdate x v)
  | writeLoggedUpdate (s : State) (x : String) (v : Tree) : Refreshes w s (s.writeLoggedUpdate x v)
  | assign {s s' : State} {fuel : Nat} {x : String} {t v : Tree} :
      (Typesetter.assign fuel x t).run w s = .ok (v, s') → Refreshes w s s'
  | exec {s s' : State} {fuel : Nat} {t v : Tree} :
      (Typesetter.exec fuel t).run w s = .ok (v, s') → Refreshes w s s'
  | execUntil {s s' : State} {fuel : Nat} {t : Tree} {path : List Nat} {u : Unit} :
      (Typesetter.execUntil fuel t path).run w s = .ok (u, s') → Refreshes w s s'
  | execUntilVariable {s s' : State} {fuel : Nat} {t : Tree} {path : List Nat}
      {watch : Position.Watch} {b : Bool} :
      (Typesetter.execUntilVariable fuel t path watch).run w s = .ok (b, s') → Refreshes w s s'
  | beginVariable (s : State) (x : String) (v : Tree) : Refreshes w s (s.beginVariable x v).2
  | endVariable (s : State) (x : String) (old : Option Tree) : Refreshes w s (s.putBack x old)
  | beginScript (s : State) : Refreshes w s s.beginScript.2
  | endScript (s : State) (old : Option Tree) : Refreshes w s (s.putBack State.scriptVariable old)
  | patch (s : State) (vars : Listing Tree) : Refreshes w s (s.patch vars)
  | patchLogged (s : State) (vars : Listing Tree) : Refreshes w s (s.patchLogged vars)
  | openFrame (s : State) : Refreshes w s s.openFrame
  | closeFrame {s s' : State} : s.closeFrame? = some s' → Refreshes w s s'

inductive RefreshingRun (w : World) : State → State → Prop
  | nil (s : State) : RefreshingRun w s s
  | step {s s' s'' : State} : RefreshingRun w s s' → Refreshes w s' s'' → RefreshingRun w s s''

namespace KeptByUpdates

variable {R : State → State → Prop} {w : World} {s s' : State}

theorem refreshes (hR : KeptByUpdates R) (h : Refreshes w s s') : R s s' := by
  cases h with
  | writeUpdate x v => exact hR.writeUpdate s x v
  | writeLoggedUpdate x v => exact hR.write s x v
  | assign hrun => exact hR.kept.assign hrun
  | exec hrun => exact hR.kept.exec hrun
  | execUntil hrun => exact hR.kept.execUntil hrun
  | execUntilVariable hrun => exact hR.kept.execUntilVariable hrun
  | beginVariable x v => exact hR.write s x v
  | endVariable x old => exact hR.putBack s x old
  | beginScript => exact hR.write s _ _
  | endScript old => exact hR.putBack s _ old
  | patch vars => exact hR.patch vars s
  | patchLogged vars => exact hR.patchLogged vars s
  | openFrame => exact hR.same rfl rfl rfl
  | closeFrame hclose => exact hR.closeFrame? hclose

theorem run (hR : KeptByUpdates R) (h : RefreshingRun w s s') : R s s' := by
  induction h with
  | nil => exact hR.refl s
  | step _ hstep ih => exact hR.trans ih (hR.refreshes hstep)

end KeptByUpdates

namespace RefreshingRun

variable {w : World} {s s' : State}

theorem informs (h : RefreshingRun w s s') (x : String) :
    (x ∈ (s.told s').names → lastTold? (s.told s') x = some (s'.store.read x)) ∧
      (x ∉ (s.told s').names → s'.store.read x = s.store.read x) := by
  have hread := (informs_updates.run h).told x
  refine ⟨fun hx => ?_, fun hx => ?_⟩
  · cases hlast : lastTold? (s.told s') x with
    | none => exact absurd hx (lastTold?_eq_none.1 hlast)
    | some v =>
      rw [hlast] at hread
      exact congrArg some hread.symm
  · rwa [lastTold?_eq_none.2 hx] at hread

def registered : State := (State.fresh 600 default).write "x" (.atom "0")

def assigning : Tree :=
  .node Primitive.withVars [.atom "x", .atom "1", .node Primitive.assign [.atom "y", .atom "2"]]

theorem informs_registered : ∃ s', RefreshingRun { base := "" } registered s' ∧
    registered.told s' =
      [("x", .atom "1"), ("y", .atom "2"), ("x", .atom "0"), ("x", .atom "0"), ("y", .uninit)] ∧
    lastTold? (registered.told s') "y" = some (s'.store.read "y") ∧
    s'.store.read "z" = registered.store.read "z" := by
  have hopen := (RefreshingRun.nil registered).step (.openFrame (w := { base := "" }) registered)
  have hexec := hopen.step (@Refreshes.exec _ _ _ 5 assigning _ rfl)
  have hclose := hexec.step (.closeFrame rfl)
  refine ⟨_, hclose, rfl, (informs hclose "y").1 ?_, (informs hclose "z").2 ?_⟩
  · change "y" ∈ ["x", "y", "x", "x", "y"]
    decide
  · change "z" ∉ ["x", "y", "x", "x", "y"]
    decide

end RefreshingRun

end Typesetter

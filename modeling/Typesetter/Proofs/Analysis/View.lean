import Typesetter.Proofs.Analysis.Comparison
import Typesetter.Proofs.SourceView.Alike

namespace Typesetter

open Dependency SourceView

variable {C : Comparison} {d : Nat} {n : String} {s s' : State} {w : World} {mode : InactiveMode}
  {t target : Tree}

theorem SystemVariable.not_shifts {v : SystemVariable} (hv : v.name ∈ sourceViewVariables)
    (hn : n ∉ sourceViewVariables) : ¬ v.Shifts n := by
  rintro (rfl | ⟨_, hunit⟩)
  · exact hn hv
  · have hstyle : ∀ x ∈ sourceViewVariables, ¬ isUnitVariable x := by decide
    exact hstyle _ hv hunit

namespace State.AlikeBut

theorem inactiveMode (h : s.AlikeBut n s') (hn : n ∉ sourceViewVariables) :
    s'.derived.inactiveMode = s.derived.inactiveMode :=
  h.derived.field .inactiveMode (SystemVariable.not_shifts (by decide) hn)

theorem sourceView (h : s.AlikeBut n s') (hn : n ∉ sourceViewVariables) :
    s'.sourceView w mode target = { s.sourceView w mode target with store := s'.store } := by
  have hspecial : s'.derived.srcSpecial = s.derived.srcSpecial :=
    h.derived.field .srcSpecial (SystemVariable.not_shifts (by decide) hn)
  have hcompact : s'.derived.srcCompact = s.derived.srcCompact :=
    h.derived.field .srcCompact (SystemVariable.not_shifts (by decide) hn)
  have hclose : s'.derived.srcClose = s.derived.srcClose :=
    h.derived.field .srcClose (SystemVariable.not_shifts (by decide) hn)
  simp only [State.sourceView, hspecial, hcompact, hclose, h.scope]

theorem expandsAlike (h : s.AlikeBut n s')
    (htarget : ∀ g, Target.ofTree? target = some g → g.name ≠ n) :
    (s.sourceView w mode target).ExpandsAlike s'.store := by
  refine Setting.expandsAlike (fun x hg => h.read (htarget _ hg)) fun m tag cs hg hocc => ?_
  have hexpanded (args : List Tree) : Expansion.expandMacro? s'.store w.registry m args =
      Expansion.expandMacro? s.store w.registry m args := by
    have hread : s'.store.read m = s.store.read m := h.read (htarget _ hg)
    unfold Expansion.expandMacro?
    rw [hread]
  rcases Target.occursAs_application hocc with rfl | ⟨args, rfl, rfl⟩
  · exact congrArg (Option.getD · (.node (.user m) cs)) (hexpanded cs)
  · exact congrArg (Option.getD · (.node (.prim .compound) (.atom m :: args))) (hexpanded args)

end State.AlikeBut

namespace Comparison

structure Grounds (C : Comparison) : Prop where
  binding (key : String) (v : Tree) : C.world.references.binding? key = some v → C.Value v
  attachment (key : String) (v : Tree) : C.world.references.attachment? key = some v → C.Value v
  property (tag name : String) (v : Tree) : C.world.registry.property? tag name = some v → C.Value v
  default (m : String) (i : Nat) (v : Tree) : C.world.registry.default? m i = some v → C.Value v

theorem stable_node (h : (∃ m, C.macros m) → ∀ u, ¬ C.late u) : Expansion.Stable C.Node where
  uninit := always_node (by decide) _
  tuple := always_node (by decide)
  substituted frame {_ _} hnode hm := (Tree.Defers.stable (h hm)).substituted frame (hnode hm)

theorem Twins.expands (h : C.Twins d s s') (hC : C.Grounds)
    (htarget : ∀ g, Target.ofTree? target = some g → g.name ≠ C.name)
    (happlied : ∀ m, Target.ofTree? target = some (.application m) → (∃ m, C.macros m) → ∀ u, ¬ C.late u) :
    (s.sourceView C.world mode target).Expands C.Value :=
  State.expands (fun m hm => stable_node (happlied m hm)) (fun _ _ _ hv => (h.lookup hv).2)
    (fun g hg => h.value_read (htarget g hg)) hC.default

theorem Accords.viewInactive (hC : C.Grounds) (ht : C.Value t) (hn : C.name ∉ sourceViewVariables)
    (htarget : ∀ g, Target.ofTree? target = some g → g.name ≠ C.name)
    (happlied : ∀ m, Target.ofTree? target = some (.application m) → (∃ m, C.macros m) → ∀ u, ¬ C.late u) :
    C.Accords d C.Value (Rule.viewInactive t target) := by
  intro s s' h
  let mode := s.derived.inactiveMode
  let layout : Layout := ⟨mode.isBlock, true⟩
  let setting := s.sourceView C.world mode target
  have hmode : s'.derived.inactiveMode = mode := h.alike.inactiveMode hn
  have hsetting : s'.sourceView C.world mode target = { setting with store := s'.store } :=
    h.alike.sourceView hn
  have hview : view (s'.sourceView C.world mode target) t layout = view setting t layout := by
    rw [hsetting]
    exact view_alike (h.alike.expandsAlike htarget) t layout
  have hrun (s : State) : (Rule.viewInactive t target).run C.world s =
      .ok (.ok (s.viewInactive C.world s.derived.inactiveMode t target).1,
        (s.viewInactive C.world s.derived.inactiveMode t target).2) := rfl
  let shown : Tree × Array Diagnostic := (view setting t layout).run s.diagnostics
  have hfirst : s.viewInactive C.world mode t target = (shown.1, { s with diagnostics := shown.2 }) := rfl
  have hsecond : s'.viewInactive C.world mode t target =
      (shown.1, { s' with diagnostics := shown.2 }) := by
    have hshown : (view (s'.sourceView C.world mode target) t layout).run s'.diagnostics = shown := by
      rw [hview, h.alike.diagnostics]
    exact congrArg (fun r : Tree × Array Diagnostic => (r.1, { s' with diagnostics := r.2 })) hshown
  rw [hrun s, hrun s', hmode, hsecond, hfirst]
  have ha := h.alike
  refine .ended ?_ ⟨⟨ha.stored, ha.derived, ha.scope, ha.depth, rfl⟩, h.fits.depth, h.fits.scope,
    h.fits.stored, h.fits.defined⟩
  have hown : ∀ p ∈ ownPrimitives, Tag.IsPrompt p := by decide
  have hexpands : setting.Expands C.Value := h.expands hC htarget happlied
  have hshows : Shows (Tree.Always C.Node) True C.Value (view setting t layout) :=
    view_shows (fun p hp => always_node (hown p hp)) (fun _ => hexpands) (fun _ => ht) layout
  obtain ⟨_, _, hshown⟩ := hshows s.diagnostics
  exact (hshown trivial).resolve_left fun hexcused => hexcused.1 (always_node (by decide))

end Comparison

end Typesetter

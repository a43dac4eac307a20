import Typesetter.Analysis.Dependency
import Typesetter.Proofs.Derived.Field
/-!
Derived states that are alike but for one variable. Where that variable measures something, the other
variables that hold lengths may differ as well.
-/

namespace Typesetter

open Dependency SystemVariable

def SystemVariable.Shifts (n : String) (v : SystemVariable) : Prop :=
  v.name = n ∨ isUnitVariable n ∧ isUnitVariable v.name

namespace SystemVariable

variable {n : String} {v : SystemVariable}

theorem isUnitVariable_name (v : SystemVariable) :
    isUnitVariable v.name = (v.affectsUnits || v ∈ unitDependent) := by
  simp only [isUnitVariable, ofName?_name]

theorem rank_eq_zero (h : ¬ isUnitVariable v.name) : v.rank = 0 := by
  refine Nat.eq_zero_of_not_pos fun hpos => h ?_
  rw [isUnitVariable_name]
  simp [mem_unitDependent hpos]

end SystemVariable

namespace Derived

variable {n x : String} {d d' d'' : Derived} {v : SystemVariable} {read read' : String → Tree}
  {value value' : Tree} {vs : List SystemVariable}

structure AlikeBut (n : String) (d d' : Derived) : Prop where
  dpi : d'.dpi = d.dpi
  defaultMode : d'.defaultInactiveMode = d.defaultInactiveMode
  field (v : SystemVariable) : ¬ v.Shifts n → d'.field v = d.field v

namespace AlikeBut

theorem refl (n : String) (d : Derived) : AlikeBut n d d := ⟨rfl, rfl, fun _ _ => rfl⟩

theorem symm (h : AlikeBut n d d') : AlikeBut n d' d :=
  ⟨h.dpi.symm, h.defaultMode.symm, fun v hv => (h.field v hv).symm⟩

theorem trans (h : AlikeBut n d d') (h' : AlikeBut n d' d'') : AlikeBut n d d'' :=
  ⟨h'.dpi.trans h.dpi, h'.defaultMode.trans h.defaultMode,
    fun v hv => (h'.field v hv).trans (h.field v hv)⟩

theorem units (h : AlikeBut n d d') (hn : ¬ isUnitVariable n) : d'.units = d.units := by
  have hsize (unit : LengthUnit) : d'.units.size unit = d.units.size unit := by
    refine size_eq_of_field h.dpi unit fun u hu _ => h.field u ?_
    rintro (rfl | hu')
    · exact hn (by simp [isUnitVariable_name, hu])
    · exact hn hu'.1
  exact Units.ext (hsize .inch) (hsize .font) (hsize .line) (hsize .par) (hsize .page)

theorem decode (h : AlikeBut n d d') (hv : ¬ v.Shifts n) (value : Tree) :
    d'.decode v value = d.decode v value := by
  by_cases hn : isUnitVariable n
  · -- A variable that the name does not shift holds no length.
    have hrank : v.rank = 0 := rank_eq_zero fun hu => hv (.inr ⟨hn, hu⟩)
    refine decode_congr h.dpi h.defaultMode (fun hwidth => ?_) fun unit hlt => ?_
    · cases v <;> cases hwidth <;> cases hrank
    · rw [hrank] at hlt
      exact absurd hlt (Nat.not_lt_zero _)
  · unfold Derived.decode
    rw [h.units hn, h.dpi, h.defaultMode]

theorem apply (h : AlikeBut n d d') (hvalue : v.name ≠ n → value' = value) :
    AlikeBut n (d.apply v value) (d'.apply v value') := by
  refine ⟨?_, ?_, fun u hu => ?_⟩
  · simp only [Derived.apply, dpi_setField, h.dpi]
  · simp only [Derived.apply, defaultInactiveMode_setField, h.defaultMode]
  · by_cases huv : u = v
    · subst huv
      have hname : u.name ≠ n := fun e => hu (.inl e)
      simp only [Derived.apply, field_setField, hvalue hname, h.decode hu]
    · simp only [Derived.apply, field_setField_ne _ huv, h.field u hu]

theorem applyAll (h : AlikeBut n d d') (hread : ∀ m, m ≠ n → read' m = read m)
    (vs : List SystemVariable) : AlikeBut n (d.applyAll vs read) (d'.applyAll vs read') := by
  induction vs generalizing d d' with
  | nil => exact h
  | cons v vs ih => exact ih (h.apply (hread v.name))

theorem update (h : AlikeBut n d d') (hread : ∀ m, m ≠ n → read' m = read m) (x : String) :
    AlikeBut n (d.update x read) (d'.update x read') := by
  unfold Derived.update
  cases hx : ofName? x with
  | none => exact h
  | some v =>
    obtain rfl := name_of_ofName? hx
    have happly := h.apply (hread v.name)
    by_cases hv : v.affectsUnits
    · simp only [if_pos hv]
      exact happly.applyAll hread _
    · simp only [if_neg hv]
      exact happly

theorem shifted (hv : v.Shifts n) (d : Derived) (value : Tree) : AlikeBut n d (d.apply v value) := by
  refine ⟨dpi_setField d v _, defaultInactiveMode_setField d v _, fun u hu => ?_⟩
  have hne : u ≠ v := by
    rintro rfl
    exact hu hv
  exact field_setField_ne d hne _

theorem shiftedAll (hvs : ∀ v ∈ vs, v.Shifts n) (d : Derived) : AlikeBut n d (d.applyAll vs read) := by
  induction vs generalizing d with
  | nil => exact .refl n d
  | cons v vs ih =>
    have hv : AlikeBut n d (d.apply v (read v.name)) := .shifted (hvs v List.mem_cons_self) d _
    exact hv.trans (ih (fun u hu => hvs u (List.mem_cons_of_mem v hu)) _)

theorem touch (n : String) (d : Derived) (read : String → Tree) : AlikeBut n d (d.update n read) := by
  unfold Derived.update
  cases hn : ofName? n with
  | none => exact .refl n d
  | some v =>
    obtain rfl := name_of_ofName? hn
    have hself : AlikeBut v.name d (d.apply v (read v.name)) := .shifted (.inl rfl) d _
    by_cases hv : v.affectsUnits
    · simp only [if_pos hv]
      refine hself.trans (.shiftedAll (fun u hu => .inr ⟨?_, ?_⟩) _)
      · simp [isUnitVariable_name, hv]
      · simp [isUnitVariable_name, (List.mem_filter.1 hu).1]
    · simp only [if_neg hv]
      exact hself

end AlikeBut

end Derived

end Typesetter

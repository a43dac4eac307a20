import Typesetter.Derived.State
/-!
The fields of the derived state, and the units under which a variable is decoded. Units and variables
are ranked: a width that feeds a unit is decoded under units of lower rank only, if it is orderly.
-/

namespace Typesetter

def LengthUnit.rank : LengthUnit → Nat
  | par => 1
  | page => 2
  | line => 3
  | tmpt | px | inch | pt | bp | mm | cm | font | ex | spc => 0

namespace SystemVariable

def rank : SystemVariable → Nat
  | parWidth => 1
  | pageHeight => 2
  | lineWidth => 3
  | frame | clipLim1 | clipLim2 => 4
  | magnification | mode | language | font | fontFamily | fontSeries | fontShape | fontSize
  | fontBaseSize | mathLevel | mathDisplay | mathCondensed | mathVpos | color | preamble
  | srcStyle | srcSpecial | srcCompact | srcClose | inactiveMode => 0

def Supports (u v : SystemVariable) : Prop := u = v ∨ u.affectsUnits ∧ u.rank < v.rank

def isWidth : SystemVariable → Bool
  | parWidth | pageHeight | lineWidth => true
  | _ => false

/-- A width is malformed or a length in a unit of lower rank. -/
def Orderly (v : SystemVariable) (value : Tree) : Prop :=
  v.isWidth → ∀ s amount name unit, value.label? = some s →
    Length.split? s.toList = some (amount, name) → LengthUnit.ofName? name = some unit →
      unit.rank < v.rank

def OrderlyEntry (e : String × Tree) : Prop := ∀ v : SystemVariable, v.name = e.1 → v.Orderly e.2

variable {u v w : SystemVariable}

theorem Supports.refl (v : SystemVariable) : v.Supports v := .inl rfl

theorem Supports.rank_le (h : u.Supports v) : u.rank ≤ v.rank := by
  rcases h with rfl | h
  · exact Nat.le_refl _
  · exact Nat.le_of_lt h.2

theorem Supports.trans (h : u.Supports v) (h' : v.Supports w) : u.Supports w := by
  rcases h with rfl | h
  · exact h'
  · exact .inr ⟨h.1, Nat.lt_of_lt_of_le h.2 h'.rank_le⟩

theorem Supports.antisymm (h : u.Supports v) (h' : v.Supports u) : u = v := by
  rcases h with rfl | h
  · rfl
  · exact absurd h'.rank_le (Nat.not_le_of_lt h.2)

theorem name_injective (h : u.name = v.name) : u = v :=
  Option.some.inj ((ofName?_name u).symm.trans (h ▸ ofName?_name v))

theorem orderly_uninit (v : SystemVariable) : v.Orderly .uninit := by
  intro _ s amount name unit hlabel
  cases hlabel

theorem mem_unitDependent (h : 0 < v.rank) : v ∈ unitDependent := by
  cases v <;> first | decide | cases h

theorem unitDependent_ordered : unitDependent.Pairwise (·.rank ≤ ·.rank) := by
  decide

end SystemVariable

namespace Derived

variable {d d' : Derived} {u v : SystemVariable} {value : Tree}

@[simp] theorem field_setField (d : Derived) (v : SystemVariable) (x : v.Field) :
    (d.setField v x).field v = x := by
  cases v <;> rfl

theorem field_setField_ne (d : Derived) (h : u ≠ v) (x : v.Field) :
    (d.setField v x).field u = d.field u := by
  cases v <;> cases u <;> first | rfl | exact absurd rfl h

@[simp] theorem setField_field (d : Derived) (v : SystemVariable) : d.setField v (d.field v) = d := by
  cases v <;> rfl

@[simp] theorem dpi_setField (d : Derived) (v : SystemVariable) (x : v.Field) :
    (d.setField v x).dpi = d.dpi := by
  cases v <;> rfl

@[simp] theorem defaultInactiveMode_setField (d : Derived) (v : SystemVariable) (x : v.Field) :
    (d.setField v x).defaultInactiveMode = d.defaultInactiveMode := by
  cases v <;> rfl

theorem constants_applyAll (d : Derived) (vs : List SystemVariable) (read : String → Tree) :
    (d.applyAll vs read).dpi = d.dpi ∧
      (d.applyAll vs read).defaultInactiveMode = d.defaultInactiveMode := by
  induction vs generalizing d with
  | nil => exact ⟨rfl, rfl⟩
  | cons v vs ih =>
    obtain ⟨hdpi, hmode⟩ := ih (d.apply v (read v.name))
    exact ⟨hdpi.trans (dpi_setField d v _), hmode.trans (defaultInactiveMode_setField d v _)⟩

theorem constants_update (d : Derived) (name : String) (read : String → Tree) :
    (d.update name read).dpi = d.dpi ∧
      (d.update name read).defaultInactiveMode = d.defaultInactiveMode := by
  unfold update
  cases SystemVariable.ofName? name with
  | none => exact ⟨rfl, rfl⟩
  | some v =>
    have happly := constants_applyAll d [v] fun _ => read name
    by_cases hv : v.affectsUnits
    · obtain ⟨hdpi, hmode⟩ := constants_applyAll (d.apply v (read name))
        (SystemVariable.unitDependent.filter (· ≠ v)) read
      simp only [if_pos hv]
      exact ⟨hdpi.trans happly.1, hmode.trans happly.2⟩
    · simp only [if_neg hv]
      exact happly

theorem ext_field (hdpi : d'.dpi = d.dpi) (hmode : d'.defaultInactiveMode = d.defaultInactiveMode)
    (h : ∀ v, d'.field v = d.field v) : d' = d := by
  have hfont : d'.font = d.font :=
    Font.ext (h .font) (h .fontFamily) (h .fontSeries) (h .fontShape) (h .fontSize) (h .fontBaseSize)
  exact Derived.ext hdpi (h .magnification) (h .mode) (h .language) hfont (h .mathLevel)
    (h .mathDisplay) (h .mathCondensed) (h .mathVpos) (h .color) (h .lineWidth) (h .parWidth)
    (h .pageHeight) (h .preamble) (h .frame) (h .clipLim1) (h .clipLim2) (h .srcStyle)
    (h .srcSpecial) (h .srcCompact) (h .srcClose) (h .inactiveMode) hmode

theorem size_setField (d : Derived) (v : SystemVariable) (x : v.Field) (unit : LengthUnit)
    (h : v.affectsUnits → unit.rank < v.rank) : (d.setField v x).units.size unit = d.units.size unit := by
  cases v with
  | magnification => exact absurd (h rfl) (Nat.not_lt_zero _)
  | fontSize => exact absurd (h rfl) (Nat.not_lt_zero _)
  | fontBaseSize => exact absurd (h rfl) (Nat.not_lt_zero _)
  | lineWidth => cases unit <;> first | rfl | exact absurd (h rfl) (by decide)
  | parWidth => cases unit <;> first | rfl | exact absurd (h rfl) (by decide)
  | pageHeight => cases unit <;> first | rfl | exact absurd (h rfl) (by decide)
  | _ => rfl

theorem size_eq_of_field (hdpi : d'.dpi = d.dpi) (unit : LengthUnit)
    (h : ∀ u : SystemVariable, u.affectsUnits → u.rank ≤ unit.rank → d'.field u = d.field u) :
    d'.units.size unit = d.units.size unit := by
  have hfont : d'.units.font = d.units.font := by
    have hsize : d'.font.size = d.font.size := h .fontSize rfl (Nat.zero_le _)
    have hbase : d'.font.baseSize = d.font.baseSize := h .fontBaseSize rfl (Nat.zero_le _)
    have hmagn : d'.magnification = d.magnification := h .magnification rfl (Nat.zero_le _)
    simp only [units, Font.effectiveSize, hsize, hbase, hmagn, hdpi]
  have hinch : d'.units.inch = d.units.inch := by simp only [units, hdpi]
  cases unit with
  | line => exact congrArg Float.ofInt (h .lineWidth rfl (Nat.le_refl _))
  | par => exact congrArg Float.ofInt (h .parWidth rfl (Nat.le_refl _))
  | page => exact congrArg Float.ofInt (h .pageHeight rfl (Nat.le_refl _))
  | _ => simp only [Units.size, hfont, hinch]

theorem length?_congr (hv : v.isWidth) (ho : v.Orderly value)
    (h : ∀ unit, LengthUnit.rank unit < v.rank → d'.units.size unit = d.units.size unit) :
    d'.units.length? (value.label?.getD "").toList = d.units.length? (value.label?.getD "").toList := by
  cases hs : value.label? with
  | none => rfl
  | some s =>
    simp only [Option.getD_some, Units.length?]
    cases hsplit : Length.split? s.toList with
    | none => rfl
    | some part =>
      obtain ⟨amount, name⟩ := part
      cases hname : LengthUnit.ofName? name with
      | none => simp [Units.unit?, hname]
      | some unit =>
        have hsize := h unit (ho hv s amount name unit hs hsplit hname)
        simp [Units.unit?, hname, hsize]

theorem units_congr (hv : v.rank = 4)
    (h : ∀ unit, LengthUnit.rank unit < v.rank → d'.units.size unit = d.units.size unit) :
    d'.units = d.units := by
  rw [hv] at h
  exact Units.ext (h .inch (by decide)) (h .font (by decide)) (h .line (by decide))
    (h .par (by decide)) (h .page (by decide))

theorem decode_congr (hdpi : d'.dpi = d.dpi) (hmode : d'.defaultInactiveMode = d.defaultInactiveMode)
    (ho : v.Orderly value)
    (h : ∀ unit, LengthUnit.rank unit < v.rank → d'.units.size unit = d.units.size unit) :
    d'.decode v value = d.decode v value := by
  have hwidth (hv : v.isWidth) : d'.units.length? (value.label?.getD "").toList =
      d.units.length? (value.label?.getD "").toList := length?_congr hv ho h
  have hunits (hv : v.rank = 4) : d'.units = d.units := units_congr hv h
  cases v with
  | lineWidth =>
    simp only [decode, hwidth rfl, hdpi, hmode]
    rfl
  | parWidth =>
    simp only [decode, hwidth rfl, hdpi, hmode]
    rfl
  | pageHeight =>
    simp only [decode, hwidth rfl, hdpi, hmode]
    rfl
  | frame =>
    simp only [decode, hunits rfl, hdpi, hmode]
    rfl
  | clipLim1 =>
    simp only [decode, hunits rfl]
    rfl
  | clipLim2 =>
    simp only [decode, hunits rfl]
    rfl
  | _ =>
    simp only [decode, hdpi, hmode]
    rfl

end Derived

end Typesetter

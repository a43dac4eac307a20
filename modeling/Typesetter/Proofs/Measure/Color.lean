import Typesetter.Measure.Color

namespace Typesetter.Color

variable {s : String} {cs ds : List Char} {a b d : Char} {v : UInt8} {c : Color} {n : Nat}
  {Component Component' : Char → Char → UInt8 → Prop}

def digits : List Char := "0123456789abcdef".toList

def IsDigit (d : Char) : Prop := d.toLower ∈ digits

instance : DecidablePred IsDigit := fun d => inferInstanceAs (Decidable (d.toLower ∈ digits))

def digitValue (d : Char) : Nat := digits.idxOf d.toLower

def TwoDigits (a b : Char) (v : UInt8) : Prop :=
  IsDigit a ∧ IsDigit b ∧ v.toNat = 16 * digitValue a + digitValue b

instance : Decidable (TwoDigits a b v) := inferInstanceAs (Decidable (_ ∧ _ ∧ _))

def Pair (a b : Char) (v : UInt8) : Prop :=
  TwoDigits a b v ∨ a = '+' ∧ IsDigit b ∧ v.toNat = digitValue b

/-- The components of a colour one after another, in two characters each or in one that counts twice. The
opacity is full if it is not given. -/
def Spells (Component : Char → Char → UInt8 → Prop) : List Char → Color → Prop
  | [r, g, b], c => Component r r c.red ∧ Component g g c.green ∧ Component b b c.blue ∧ c.alpha = 255
  | [r, r', g, g', b, b'], c =>
    Component r r' c.red ∧ Component g g' c.green ∧ Component b b' c.blue ∧ c.alpha = 255
  | [r, r', g, g', b, b', a, a'], c =>
    Component r r' c.red ∧ Component g g' c.green ∧ Component b b' c.blue ∧ Component a a' c.alpha
  | _, _ => False

section Digits

theorem toNat_of_mem_digits (h : d ∈ digits) : d.toNat < 128 := by
  have hall : digits.all (·.toNat < 128) := by decide
  exact of_decide_eq_true (List.all_eq_true.1 hall d h)

theorem toNat_of_val_le (h : a.val ≤ b.val) (hb : b.toNat < 128) : a.toNat < 128 :=
  Nat.lt_of_le_of_lt (UInt32.le_iff_toNat_le.1 h) hb

theorem toLower_eq_self (h : 'Z'.val < d.val) : d.toLower = d :=
  dif_neg fun hcapital => UInt32.not_le.2 h hcapital.2

theorem IsDigit.toNat_lt (h : IsDigit d) : d.toNat < 128 := by
  by_cases hd : 'Z'.val < d.val
  · rw [IsDigit, toLower_eq_self hd] at h
    exact toNat_of_mem_digits h
  · exact toNat_of_val_le (UInt32.not_lt.1 hd) (by decide)

theorem toNat_of_hexValue? (h : hexValue? d = some n) : d.toNat < 128 := by
  rw [hexValue?] at h
  split at h
  · rename_i hd
    rw [Char.isDigit, Bool.and_eq_true, decide_eq_true_eq, decide_eq_true_eq] at hd
    exact toNat_of_val_le hd.2 (by decide)
  · split at h
    · rename_i hd
      exact toNat_of_val_le hd.2 (by decide)
    · split at h
      · rename_i hd
        exact toNat_of_val_le hd.2 (by decide)
      · cases h

theorem hexValue?_ofNat : ∀ n < 128, hexValue? (Char.ofNat n) =
    if IsDigit (Char.ofNat n) then some (digitValue (Char.ofNat n)) else none := by
  decide

theorem hexValue?_eq (d : Char) : hexValue? d = if IsDigit d then some (digitValue d) else none := by
  by_cases hd : d.toNat < 128
  · have htable := hexValue?_ofNat d.toNat hd
    rwa [Char.ofNat_toNat] at htable
  · rw [if_neg (mt IsDigit.toNat_lt hd)]
    exact Option.eq_none_iff_forall_ne_some.2 fun n h => hd (toNat_of_hexValue? h)

theorem digitValue_lt (h : IsDigit d) : digitValue d < 16 := List.idxOf_lt_length_of_mem h

theorem isDigit_hexDigit : ∀ n < 16, IsDigit (hexDigit n) ∧ digitValue (hexDigit n) = n := by decide

theorem not_isDigit_plus : ¬ IsDigit '+' := by decide

theorem not_isDigit_hash : ¬ IsDigit '#' := by decide

end Digits

section Components

theorem ofNat_eq_iff {m : Nat} (hm : m < 256) : UInt8.ofNat m = v ↔ v.toNat = m := by
  rw [← UInt8.toNat_inj, UInt8.toNat_ofNat', Nat.mod_eq_of_lt hm, eq_comm]

theorem component?_eq_some : component? a b = some v ↔ Pair a b v := by
  rw [component?, Pair, TwoDigits, hexValue?_eq, hexValue?_eq]
  by_cases hb : IsDigit b
  · have hlow : digitValue b < 16 := digitValue_lt hb
    by_cases hplus : a = '+'
    · subst hplus
      have hread : UInt8.ofNat (16 * 0 + digitValue b) = v ↔ v.toNat = digitValue b := by
        rw [Nat.mul_zero, Nat.zero_add, ofNat_eq_iff (by omega)]
      simp only [hb, if_true, not_isDigit_plus, false_and, false_or, true_and]
      exact Option.some_inj.trans hread
    · by_cases ha : IsDigit a
      · have hhigh : digitValue a < 16 := digitValue_lt ha
        simp only [hb, hplus, ha, if_true, if_false, true_and, false_and, or_false]
        exact Option.some_inj.trans (ofNat_eq_iff (by omega))
      · simp [hb, hplus, ha]
  · simp [hb]

theorem pair_iff (ha : a ≠ '+') : Pair a b v ↔ TwoDigits a b v :=
  ⟨fun h => h.resolve_right fun hplus => ha hplus.1, .inl⟩

theorem spells_congr (h : ∀ a ∈ cs, ∀ b v, Component a b v ↔ Component' a b v) :
    Spells Component cs c ↔ Spells Component' cs c := by
  unfold Spells
  split <;> simp [h]

theorem solid_eq_some {r g b : Option UInt8} :
    (do return { red := ← r, green := ← g, blue := ← b } : Option Color) = some c ↔
      r = some c.red ∧ g = some c.green ∧ b = some c.blue ∧ c.alpha = 255 := by
  obtain ⟨red, green, blue, alpha⟩ := c
  cases r <;> cases g <;> cases b <;> simp [eq_comm]

theorem full_eq_some {r g b a : Option UInt8} :
    (do return { red := ← r, green := ← g, blue := ← b, alpha := ← a } : Option Color) = some c ↔
      r = some c.red ∧ g = some c.green ∧ b = some c.blue ∧ a = some c.alpha := by
  obtain ⟨red, green, blue, alpha⟩ := c
  cases r <;> cases g <;> cases b <;> cases a <;> simp

theorem ofHex?_eq_some : ofHex? cs = some c ↔ Spells Pair (cs.dropWhile (· = '#')) c := by
  unfold ofHex? Spells
  generalize cs.dropWhile (· = '#') = ds
  simp only [← component?_eq_some]
  split
  · exact solid_eq_some
  · exact solid_eq_some
  · exact full_eq_some
  · rename_i hshort hsolid hfull
    split
    · exact absurd rfl (hshort _ _ _)
    · exact absurd rfl (hsolid _ _ _ _ _ _)
    · exact absurd rfl (hfull _ _ _ _ _ _ _ _)
    · exact ⟨nofun, False.elim⟩

end Components

section Texts

theorem read?_hash (hs : s.toList = '#' :: ds) : read? s = ofHex? ds := by
  rw [read?, hs]
  rfl

theorem Spells.length (h : Spells Component ds c) : ds.length = 3 ∨ ds.length = 6 ∨ ds.length = 8 := by
  unfold Spells at h
  split at h
  · exact .inl rfl
  · exact .inr (.inl rfl)
  · exact .inr (.inr rfl)
  · exact h.elim

theorem Spells.isDigit (h : Spells TwoDigits ds c) : ∀ d ∈ ds, IsDigit d := by
  unfold Spells at h
  split at h
  · obtain ⟨hr, hg, hb, _⟩ := h
    simp [hr.1, hg.1, hb.1]
  · obtain ⟨hr, hg, hb, _⟩ := h
    simp [hr.1, hr.2.1, hg.1, hg.2.1, hb.1, hb.2.1]
  · obtain ⟨hr, hg, hb, ha⟩ := h
    simp [hr.1, hr.2.1, hg.1, hg.2.1, hb.1, hb.2.1, ha.1, ha.2.1]
  · exact h.elim

def component (a b : Char) : UInt8 := UInt8.ofNat (16 * digitValue a + digitValue b)

theorem twoDigits_component (ha : IsDigit a) (hb : IsDigit b) : TwoDigits a b (component a b) := by
  have hhigh : digitValue a < 16 := digitValue_lt ha
  have hlow : digitValue b < 16 := digitValue_lt hb
  exact ⟨ha, hb, (ofNat_eq_iff (by omega)).1 rfl⟩

theorem exists_spells (hdigits : ∀ d ∈ ds, IsDigit d)
    (hlength : ds.length = 3 ∨ ds.length = 6 ∨ ds.length = 8) : ∃ c, Spells TwoDigits ds c := by
  rcases hlength with hlength | hlength | hlength
  · match ds, hlength with
    | [r, g, b], _ =>
      simp only [List.forall_mem_cons] at hdigits
      obtain ⟨hr, hg, hb, _⟩ := hdigits
      exact ⟨⟨component r r, component g g, component b b, 255⟩, twoDigits_component hr hr,
        twoDigits_component hg hg, twoDigits_component hb hb, rfl⟩
  · match ds, hlength with
    | [r, r', g, g', b, b'], _ =>
      simp only [List.forall_mem_cons] at hdigits
      obtain ⟨hr, hr', hg, hg', hb, hb', _⟩ := hdigits
      exact ⟨⟨component r r', component g g', component b b', 255⟩, twoDigits_component hr hr',
        twoDigits_component hg hg', twoDigits_component hb hb', rfl⟩
  · match ds, hlength with
    | [r, r', g, g', b, b', a, a'], _ =>
      simp only [List.forall_mem_cons] at hdigits
      obtain ⟨hr, hr', hg, hg', hb, hb', ha, ha', _⟩ := hdigits
      exact ⟨⟨component r r', component g g', component b b', component a a'⟩, twoDigits_component hr hr',
        twoDigits_component hg hg', twoDigits_component hb hb', twoDigits_component ha ha'⟩

theorem dropWhile_hash (hhash : ds.head? ≠ some '#') : ds.dropWhile (· = '#') = ds := by
  cases ds with
  | nil => rfl
  | cons d ds => exact List.dropWhile_cons_of_neg fun hd => hhash (congrArg some (of_decide_eq_true hd))

theorem spells_pair (hplus : '+' ∉ ds) : Spells Pair ds c ↔ Spells TwoDigits ds c :=
  spells_congr fun _ ha _ _ => pair_iff fun h => hplus (h ▸ ha)

theorem read?_of_spells (hs : s.toList = '#' :: ds) (h : Spells TwoDigits ds c) : read? s = some c := by
  have hhash : ds.head? ≠ some '#' := fun hhead => not_isDigit_hash (h.isDigit _ (List.mem_of_head? hhead))
  have hplus : '+' ∉ ds := fun hmem => not_isDigit_plus (h.isDigit _ hmem)
  rw [read?_hash hs, ofHex?_eq_some, dropWhile_hash hhash, spells_pair hplus]
  exact h

theorem twoDigits_hexByte (v : UInt8) :
    TwoDigits (hexDigit (v.toNat / 16)) (hexDigit (v.toNat % 16)) v := by
  have hv : v.toNat < 256 := v.toNat_lt
  obtain ⟨hhigh, hhighValue⟩ := isDigit_hexDigit (v.toNat / 16) (by omega)
  obtain ⟨hlow, hlowValue⟩ := isDigit_hexDigit (v.toNat % 16) (by omega)
  refine ⟨hhigh, hlow, ?_⟩
  rw [hhighValue, hlowValue]
  omega

theorem read?_hex (c : Color) : read? c.hex = some c := by
  refine read?_of_spells String.toList_ofList ?_
  have hred := twoDigits_hexByte c.red
  have hgreen := twoDigits_hexByte c.green
  have hblue := twoDigits_hexByte c.blue
  by_cases halpha : c.alpha = 255
  · rw [if_pos halpha]
    exact ⟨hred, hgreen, hblue, halpha⟩
  · rw [if_neg halpha]
    exact ⟨hred, hgreen, hblue, twoDigits_hexByte c.alpha⟩

theorem read?_eq_some_iff_spells (hs : s.toList = '#' :: ds) (hhash : ds.head? ≠ some '#')
    (hplus : '+' ∉ ds) :
    ((read? s).isSome ↔
      (∀ d ∈ ds, IsDigit d) ∧ (ds.length = 3 ∨ ds.length = 6 ∨ ds.length = 8)) ∧
    (∀ c, read? s = some c ↔ Spells TwoDigits ds c) ∧
    ∀ c : Color, read? c.hex = some c := by
  have hread : ∀ c, read? s = some c ↔ Spells TwoDigits ds c := by
    intro c
    rw [read?_hash hs, ofHex?_eq_some, dropWhile_hash hhash, spells_pair hplus]
  refine ⟨?_, hread, read?_hex⟩
  rw [Option.isSome_iff_exists]
  constructor
  · rintro ⟨c, hc⟩
    have hspells : Spells TwoDigits ds c := (hread c).1 hc
    exact ⟨hspells.isDigit, hspells.length⟩
  · rintro ⟨hdigits, hlength⟩
    obtain ⟨c, hc⟩ := exists_spells hdigits hlength
    exact ⟨c, (hread c).2 hc⟩

theorem read?_eq_some_iff_spells_full :
    "#aB10fF80".toList = '#' :: "aB10fF80".toList ∧ "aB10fF80".toList.head? ≠ some '#' ∧
    '+' ∉ "aB10fF80".toList ∧ Spells TwoDigits "aB10fF80".toList ⟨0xab, 0x10, 0xff, 0x80⟩ ∧
    read? "#aB10fF80" = some ⟨0xab, 0x10, 0xff, 0x80⟩ := by
  have hs : "#aB10fF80".toList = '#' :: "aB10fF80".toList := by decide
  have hhash : "aB10fF80".toList.head? ≠ some '#' := by decide
  have hplus : '+' ∉ "aB10fF80".toList := by decide
  have hspells : Spells TwoDigits "aB10fF80".toList ⟨0xab, 0x10, 0xff, 0x80⟩ :=
    ⟨by decide, by decide, by decide, by decide⟩
  exact ⟨hs, hhash, hplus, hspells, ((read?_eq_some_iff_spells hs hhash hplus).2.1 _).2 hspells⟩

theorem not_read?_eq_some_iff_spells_lenient :
    read? "###112233" = some ⟨0x11, 0x22, 0x33, 0xff⟩ ∧ (¬ ∀ d ∈ "##112233".toList, IsDigit d) ∧
    read? "#+f+f+f" = some ⟨0x0f, 0x0f, 0x0f, 0xff⟩ ∧ ¬ ∀ d ∈ "+f+f+f".toList, IsDigit d :=
  ⟨by decide, fun h => not_isDigit_hash (h '#' (by decide)), by decide,
    fun h => not_isDigit_plus (h '+' (by decide))⟩

end Texts

end Typesetter.Color

import Mathlib
import Typesetter.Proofs.Decimal.Conversion
/-!
Comparison as an order. Among numbers and lengths, and among other labels, less is a strict order. A
number beside another label is compared as text, so less may run in a circle where the two meet, unless
the numbers stand in the order of their texts.
-/

namespace Typesetter

open Decimal

namespace Quantity

def Proper : Quantity → Prop
  | integer n | length n => InRange n
  | real x => isFinite x

variable {u : Units} {a b c : Quantity}

theorem proper_of_read? {s : List Char} (h : read? u s = some a) : a.Proper := by
  rw [read?] at h
  split at h
  · rename_i n hn
    obtain rfl := Option.some.inj h
    exact Text.readInteger?_inRange hn
  · split at h
    · rename_i x hx
      obtain rfl := Option.some.inj h
      exact (Option.filter_eq_some_iff.1 hx).2
    · split at h
      · simp only [Units.length?, Option.map_eq_some_iff] at h
        obtain ⟨n, hn, rfl⟩ := h
        obtain ⟨_, _, hn⟩ := Option.bind_eq_some_iff.1 hn
        obtain ⟨_, _, hn⟩ := Option.bind_eq_some_iff.1 hn
        obtain rfl := Option.some.inj hn
        exact roundHalfAway_inRange _
      · cases h

theorem Proper.isNumber (h : a.Proper) : IsNumber a.toFloat := by
  cases a with
  | integer n => exact isNumber_ofInt h
  | real x => exact isNumber_of_isFinite h
  | length n => exact isNumber_ofInt h

inductive Below : Quantity → Quantity → Prop
  | integer {m n : Int} : m < n → Below (integer m) (integer n)
  | length {m n : Int} : m < n → Below (length m) (length n)

theorem Below.trans (h : a.Below b) (h' : b.Below c) : a.Below c := by
  cases h with
  | integer h =>
    cases h' with
    | integer h' => exact .integer (h.trans h')
  | length h =>
    cases h' with
    | length h' => exact .length (h.trans h')

theorem Below.rank_le (h : a.Below b) (ha : a.Proper) (hb : b.Proper) :
    rank a.toFloat ≤ rank b.toFloat := by
  cases h with
  | integer h => exact rank_ofInt_mono h.le ha hb
  | length h => exact rank_ofInt_mono h.le ha hb

def Smaller (a b : Quantity) : Prop := rank a.toFloat < rank b.toFloat ∨ a.Below b

theorem Smaller.trans (h : a.Smaller b) (h' : b.Smaller c) (ha : a.Proper) (hb : b.Proper) (hc : c.Proper) :
    a.Smaller c := by
  rcases h with h | h
  · rcases h' with h' | h'
    · exact .inl (h.trans h')
    · exact .inl (h.trans_le (h'.rank_le hb hc))
  · rcases h' with h' | h'
    · exact .inl ((h.rank_le ha hb).trans_lt h')
    · exact .inr (h.trans h')

structure Ordered (a b : Quantity) (o : Ordering) : Prop where
  order : a.order b = some o
  swap : b.order a = some o.swap
  less : o = .lt ↔ a.Smaller b

theorem ordered_exactly {m n : Int} (hm : InRange m) (hn : InRange n) {f : Int → Quantity}
    (hf : f = integer ∨ f = length) : Ordered (f m) (f n) (compare m n) := by
  have hfloat : ∀ i, (f i).toFloat = Float.ofInt i := by rcases hf with rfl | rfl <;> exact fun _ => rfl
  have horder : ∀ i j, (f i).order (f j) = some (compare i j) := by
    rcases hf with rfl | rfl <;> exact fun _ _ => rfl
  refine ⟨horder m n, (horder n m).trans (congrArg some Std.OrientedCmp.eq_swap), ?_⟩
  rw [Int.compare_eq_lt, Smaller, hfloat, hfloat]
  constructor
  · intro h
    rcases hf with rfl | rfl
    · exact .inr (.integer h)
    · exact .inr (.length h)
  · rintro (h | h)
    · by_contra hle
      exact not_lt.2 (rank_ofInt_mono (not_lt.1 hle) hn hm) h
    · rcases hf with rfl | rfl
      · cases h with
        | integer h => exact h
      · cases h with
        | length h => exact h

theorem ordered_as_floats (ha : a.Proper) (hb : b.Proper)
    (hab : a.order b = floatOrder a.toFloat b.toFloat) (hba : b.order a = floatOrder b.toFloat a.toFloat)
    (hbelow : ¬ a.Below b) : Ordered a b (compare (rank a.toFloat) (rank b.toFloat)) := by
  refine ⟨hab.trans (floatOrder_eq ha.isNumber hb.isNumber), ?_, ?_⟩
  · rw [hba, floatOrder_eq hb.isNumber ha.isNumber, ← Std.OrientedCmp.eq_swap]
  · rw [compare_lt_iff_lt, Smaller, or_iff_left hbelow]

theorem exists_ordered (ha : a.Proper) (hb : b.Proper) : ∃ o, Ordered a b o := by
  cases a with
  | integer m =>
    cases b with
    | integer n => exact ⟨_, ordered_exactly ha hb (.inl rfl)⟩
    | real y => exact ⟨_, ordered_as_floats ha hb rfl rfl nofun⟩
    | length n => exact ⟨_, ordered_as_floats ha hb rfl rfl nofun⟩
  | real x => cases b <;> exact ⟨_, ordered_as_floats ha hb rfl rfl nofun⟩
  | length m =>
    cases b with
    | integer n => exact ⟨_, ordered_as_floats ha hb rfl rfl nofun⟩
    | real y => exact ⟨_, ordered_as_floats ha hb rfl rfl nofun⟩
    | length n => exact ⟨_, ordered_exactly ha hb (.inr rfl)⟩

theorem order_trans (ha : a.Proper) (hb : b.Proper) (hc : c.Proper) (h : a.order b = some .lt)
    (h' : b.order c = some .lt) : a.order c = some .lt := by
  obtain ⟨_, hab⟩ := exists_ordered ha hb
  obtain ⟨_, hbc⟩ := exists_ordered hb hc
  obtain ⟨o, hac⟩ := exists_ordered ha hc
  have hsmaller := hab.less.1 (Option.some.inj (hab.order.symm.trans h))
  have hsmaller' := hbc.less.1 (Option.some.inj (hbc.order.symm.trans h'))
  rw [hac.order, hac.less.2 (hsmaller.trans hsmaller' ha hb hc)]

end Quantity

namespace Tree

variable {u : Units} {r s t : String} {ss : List String}

def IsQuantity (u : Units) (s : String) : Prop := (Quantity.read? u s.toList).isSome

instance : Decidable (IsQuantity u s) := inferInstanceAs (Decidable (_ = true))

theorem IsQuantity.exists_proper (h : IsQuantity u s) :
    ∃ q, Quantity.read? u s.toList = some q ∧ q.Proper := by
  obtain ⟨q, hq⟩ := Option.isSome_iff_exists.1 h
  exact ⟨q, hq, Quantity.proper_of_read? hq⟩

theorem order_quantities {p q : Quantity} (hs : Quantity.read? u s.toList = some p)
    (ht : Quantity.read? u t.toList = some q) : (atom s).order u (atom t) = p.order q := by
  simp only [Tree.order, Quantity.ofTree?, label?, Option.bind_some, hs, ht]

theorem order_texts (h : ¬ (IsQuantity u s ∧ IsQuantity u t)) :
    (atom s).order u (atom t) = some (compare s t) := by
  simp only [Tree.order, Quantity.ofTree?, label?, Option.bind_some]
  split
  · rename_i hs ht
    exact absurd ⟨by simp [IsQuantity, hs], by simp [IsQuantity, ht]⟩ h
  · rfl

theorem exists_order (u : Units) (s t : String) :
    ∃ o, (atom s).order u (atom t) = some o ∧ (atom t).order u (atom s) = some o.swap := by
  by_cases h : IsQuantity u s ∧ IsQuantity u t
  · obtain ⟨p, hp, hproper⟩ := h.1.exists_proper
    obtain ⟨q, hq, hproper'⟩ := h.2.exists_proper
    obtain ⟨o, ho⟩ := Quantity.exists_ordered hproper hproper'
    exact ⟨o, (order_quantities hp hq).trans ho.order, (order_quantities hq hp).trans ho.swap⟩
  · refine ⟨_, order_texts h, (order_texts fun h' => h h'.symm).trans ?_⟩
    exact congrArg some Std.OrientedCmp.eq_swap

theorem order_self (u : Units) (s : String) : (atom s).order u (atom s) = some .eq := by
  obtain ⟨o, horder, hswap⟩ := exists_order u s s
  have : o = o.swap := Option.some.inj (horder.symm.trans hswap)
  rw [horder]
  cases o <;> first | rfl | cases this

theorem equal_iff : equal u (atom s) (atom t) ↔ (atom s).order u (atom t) = some .eq := by
  have htexts : atom s = atom t ↔ some (compare s t) = some .eq := by
    rw [Option.some_inj, Std.LawfulEqCmp.compare_eq_iff_eq]
    exact ⟨atom.inj, congrArg atom⟩
  simp only [equal, Tree.order]
  cases Quantity.ofTree? u (atom s) with
  | none => exact decide_eq_true_iff.trans htexts
  | some p =>
    cases Quantity.ofTree? u (atom t) with
    | none => exact decide_eq_true_iff.trans htexts
    | some q => exact decide_eq_true_iff

/-- Labels that stand in one order: all are numbers or lengths, or those that are stand in the order of
their texts. -/
def InOneOrder (u : Units) (ss : List String) : Prop :=
  (∀ s ∈ ss, IsQuantity u s) ∨
    ∀ s ∈ ss, ∀ t ∈ ss, IsQuantity u s → IsQuantity u t →
      (atom s).order u (atom t) = some (compare s t)

theorem order_trans (h : InOneOrder u ss) (hr : r ∈ ss) (hs : s ∈ ss) (ht : t ∈ ss)
    (hrs : (atom r).order u (atom s) = some .lt) (hst : (atom s).order u (atom t) = some .lt) :
    (atom r).order u (atom t) = some .lt := by
  rcases h with h | h
  · obtain ⟨a, ha, hproper⟩ := (h r hr).exists_proper
    obtain ⟨b, hb, hproper'⟩ := (h s hs).exists_proper
    obtain ⟨c, hc, hproper''⟩ := (h t ht).exists_proper
    rw [order_quantities ha hb] at hrs
    rw [order_quantities hb hc] at hst
    rw [order_quantities ha hc]
    exact Quantity.order_trans hproper hproper' hproper'' hrs hst
  · have htext : ∀ s ∈ ss, ∀ t ∈ ss, (atom s).order u (atom t) = some (compare s t) := by
      intro s hs t ht
      by_cases hst : IsQuantity u s ∧ IsQuantity u t
      · exact h s hs t ht hst.1 hst.2
      · exact order_texts hst
    rw [htext r hr s hs, Option.some_inj] at hrs
    rw [htext s hs t ht, Option.some_inj] at hst
    rw [htext r hr t ht, Std.TransCmp.lt_trans hrs hst]

theorem relate_eq {a b : Tree} {o : Ordering} (h : a.order u b = some o) (r : Relation) :
    a.relate u r b = .ok (r.holds o) := by
  rw [relate, h]

def IsLess (u : Units) (s t : String) : Prop := (atom s).relate u .less (atom t) = .ok true

theorem isLess_iff : IsLess u s t ↔ (atom s).order u (atom t) = some .lt := by
  obtain ⟨o, horder, _⟩ := exists_order u s t
  rw [IsLess, relate_eq horder, horder]
  cases o <;> decide

instance : Decidable (IsLess u s t) := decidable_of_iff _ isLess_iff.symm

theorem IsLess.trans (h : InOneOrder u ss) (hr : r ∈ ss) (hs : s ∈ ss) (ht : t ∈ ss)
    (hrs : IsLess u r s) (hst : IsLess u s t) : IsLess u r t :=
  isLess_iff.2 (order_trans h hr hs ht (isLess_iff.1 hrs) (isLess_iff.1 hst))

theorem InOneOrder.of_cons (h : InOneOrder u (s :: ss)) : InOneOrder u ss :=
  h.imp (fun h s hs => h s (.tail _ hs)) fun h s hs t ht => h s (.tail _ hs) t (.tail _ ht)

theorem pairwise_isLess (h : InOneOrder u ss) (hchain : ss.IsChain (IsLess u)) :
    ss.Pairwise (IsLess u) := by
  induction ss with
  | nil => exact .nil
  | cons s ss ih =>
    cases ss with
    | nil => exact .cons nofun .nil
    | cons t ss =>
      obtain ⟨hst, hchain⟩ := List.isChain_cons_cons.1 hchain
      have hlater := ih h.of_cons hchain
      refine .cons ?_ hlater
      intro r hr
      rcases List.mem_cons.1 hr with rfl | hr'
      · exact hst
      · have htr := List.rel_of_pairwise_cons hlater hr'
        exact hst.trans h List.mem_cons_self (.tail _ List.mem_cons_self) (.tail _ hr) htr

/-- The comparisons exclude each other and leave nothing out. Among labels in one order they are an
order. -/
theorem relate_labels (u : Units) :
    (∀ s, (atom s).relate u .less (atom s) = .ok false) ∧
    (∀ s t, ∃ less greater,
      (atom s).relate u .less (atom t) = .ok less ∧
      (atom s).relate u .greater (atom t) = .ok greater ∧
      (atom s).relate u .lesseq (atom t) = .ok !greater ∧
      (atom s).relate u .greatereq (atom t) = .ok !less ∧
      [less, equal u (atom s) (atom t), greater].count true = 1) ∧
    ∀ ss, InOneOrder u ss →
      (∀ r ∈ ss, ∀ s ∈ ss, ∀ t ∈ ss, IsLess u r s → IsLess u s t → IsLess u r t) ∧
      (ss.IsChain (IsLess u) → ss.Pairwise (IsLess u)) := by
  refine ⟨?irreflexive, ?trichotomous, ?transitive⟩
  case irreflexive => exact fun s => relate_eq (order_self u s) .less
  case trichotomous =>
    intro s t
    obtain ⟨o, horder, _⟩ := exists_order u s t
    refine ⟨Relation.less.holds o, Relation.greater.holds o, relate_eq horder _, relate_eq horder _, ?_⟩
    have hequal : equal u (atom s) (atom t) = decide (o = .eq) := by
      rw [Bool.eq_iff_iff, equal_iff, horder, Option.some_inj, decide_eq_true_iff]
    rw [relate_eq horder, relate_eq horder, hequal]
    cases o <;> decide
  case transitive =>
    exact fun ss h => ⟨fun r hr s hs t ht => IsLess.trans h hr hs ht, pairwise_isLess h⟩

theorem relate_labels_mixed :
    let u := Units.ofDpi 600
    InOneOrder u ["9", "9.5", "1in"] ∧ ["9", "9.5", "1in"].IsChain (IsLess u) ∧ IsLess u "9" "1in" := by
  intro u
  have horder : InOneOrder u ["9", "9.5", "1in"] := .inl (by decide +kernel)
  have hfirst : IsLess u "9" "9.5" := by decide +kernel
  have hsecond : IsLess u "9.5" "1in" := by decide +kernel
  have hchain : ["9", "9.5", "1in"].IsChain (IsLess u) :=
    .cons_cons hfirst (.cons_cons hsecond (.singleton _))
  refine ⟨horder, hchain, ?_⟩
  obtain ⟨_, _, htrans⟩ := relate_labels u
  exact (htrans _ horder).1 "9" (by decide) "9.5" (by decide) "1in" (by decide) hfirst hsecond

theorem not_isLess_trans :
    let u := Units.ofDpi 600
    IsLess u "10" "5x" ∧ IsLess u "5x" "6" ∧ IsLess u "6" "10" ∧ ¬ IsLess u "10" "6" := by
  intro u
  decide +kernel

end Tree

end Typesetter

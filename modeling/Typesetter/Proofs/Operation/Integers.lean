import Typesetter.Proofs.Evaluation.Partial
import Typesetter.Proofs.Text.Numeral
/-!
Arithmetic on integers within the limits. A difference goes by way of the negated second operand, and a
remainder by way of the quotient; where only these are beyond the limits, a result within them is refused.
-/

namespace Typesetter

open Evaluation Execution

inductive IntegerOperation where
  | difference
  | quotient
  | remainder
  deriving DecidableEq, Repr

namespace IntegerOperation

def primitive : IntegerOperation → Primitive
  | difference => .minus
  | quotient => .divide
  | remainder => .modulo

def result? : IntegerOperation → Int → Int → Option Int
  | difference, a, b => some (a - b)
  | quotient, a, b => if b = 0 then none else some (a.tdiv b)
  | remainder, a, b => if b = 0 then none else some (a.tmod b)

/-- The way to the result goes beyond the limits, but the result does not. -/
def Detours : IntegerOperation → Int → Int → Prop
  | difference, a, b => a < 0 ∧ b = minInteger
  | quotient, _, _ => False
  | remainder, a, b => a = minInteger ∧ b = -1

def apply (u : Units) : IntegerOperation → Tree → Tree → Except Fault Quantity
  | difference, x, y => Quantity.minus u x (some y)
  | quotient, x, y => Quantity.divide u x y
  | remainder, x, y => Quantity.modulo u x y

instance (op : IntegerOperation) (a b : Int) : Decidable (op.Detours a b) :=
  match op with
  | difference => inferInstanceAs (Decidable (_ ∧ _))
  | quotient => inferInstanceAs (Decidable False)
  | remainder => inferInstanceAs (Decidable (_ ∧ _))

def outcome (op : IntegerOperation) (a b : Int) : Except Fault Quantity :=
  match op.result? a b with
  | some n =>
    if InRange n ∧ ¬ op.Detours a b then .ok (.integer n)
    else .error (Cause.overflow op.primitive)
  | none => .error (Cause.divisionByZero op.primitive)

variable {op : IntegerOperation} {a b n : Int} {u : Units} {x y : Tree}

theorem outcome_exact (hresult : op.result? a b = some n) (hn : InRange n) (hway : ¬ op.Detours a b) :
    op.outcome a b = .ok (.integer n) := by
  rw [outcome, hresult]
  exact if_pos ⟨hn, hway⟩

theorem outcome_overflow (hresult : op.result? a b = some n) (h : ¬ InRange n ∨ op.Detours a b) :
    op.outcome a b = .error (Cause.overflow op.primitive) := by
  rw [outcome, hresult]
  exact if_neg fun ⟨hn, hway⟩ => h.elim (absurd hn) hway

theorem outcome_undefined (hresult : op.result? a b = none) :
    op.outcome a b = .error (Cause.divisionByZero op.primitive) := by
  rw [outcome, hresult]

theorem exact_of_inRange {op : Primitive} (h : InRange n) : Quantity.exact op n = .ok n := by
  rw [Quantity.exact, inRange?_eq_some.2 ⟨h, rfl⟩]

theorem exact_of_not_inRange {op : Primitive} (h : ¬ InRange n) :
    Quantity.exact op n = .error (Cause.overflow op) := by
  rw [Quantity.exact, inRange?_eq_none.2 h]

theorem inRange_neg_iff (hb : InRange b) : InRange (-b) ↔ b ≠ minInteger := by
  simp only [InRange, minInteger, maxInteger] at *
  omega

theorem inRange_tdiv_iff (ha : InRange a) : InRange (a.tdiv b) ↔ ¬ (a = minInteger ∧ b = -1) := by
  have hsize : (a.tdiv b).natAbs = a.natAbs / b.natAbs := Int.natAbs_tdiv a b
  have hcases : b = 1 ∨ b = -1 ∨ b.natAbs = 0 ∨ 2 ≤ b.natAbs := by omega
  simp only [InRange, minInteger, maxInteger] at *
  rcases hcases with rfl | rfl | hb | hb
  · rw [Int.tdiv_one]
    omega
  · rw [Int.tdiv_neg, Int.tdiv_one]
    omega
  · rw [hb, Nat.div_zero] at hsize
    omega
  · have hhalf : a.natAbs / b.natAbs ≤ a.natAbs / 2 := Nat.div_le_div_left hb (by decide)
    omega

theorem inRange_tmod (ha : InRange a) : InRange (a.tmod b) := by
  have hsize : (a.tmod b).natAbs = a.natAbs % b.natAbs := Int.natAbs_tmod a b
  have hle : a.natAbs % b.natAbs ≤ a.natAbs := Nat.mod_le _ _
  have hsign : a ≤ 0 → a.tmod b ≤ 0 := fun h => by
    have hneg : 0 ≤ (-a).tmod b := Int.tmod_nonneg b (by omega)
    rw [Int.neg_tmod] at hneg
    omega
  simp only [InRange, minInteger, maxInteger] at *
  omega

theorem difference_eq (ha : InRange a) (hb : InRange b) :
    (do Quantity.add .minus (.integer a) (← Quantity.negate (.integer b)) y) =
      difference.outcome a b := by
  by_cases hneg : InRange (-b)
  · have hway : ¬ difference.Detours a b := fun h => (inRange_neg_iff hb).1 hneg h.2
    rw [Quantity.negate, exact_of_inRange hneg]
    change (Quantity.exact .minus (a - b)).map Quantity.integer = _
    by_cases hn : InRange (a - b)
    · rw [exact_of_inRange hn, outcome_exact rfl hn hway]
      rfl
    · rw [exact_of_not_inRange hn, outcome_overflow rfl (.inl hn)]
      rfl
  · have hb : b = minInteger := Decidable.byContradiction fun h => hneg ((inRange_neg_iff hb).2 h)
    have hover : ¬ InRange (a - b) ∨ difference.Detours a b := by
      simp only [Detours, InRange, minInteger, maxInteger] at *
      omega
    rw [Quantity.negate, exact_of_not_inRange hneg, outcome_overflow rfl hover]
    rfl

theorem quotient_eq : Quantity.integer <$> Quantity.quotient a b = quotient.outcome a b := by
  by_cases hb : b = 0
  · have hresult : quotient.result? a b = none := if_pos hb
    rw [Quantity.quotient, if_pos hb, outcome_undefined hresult]
    rfl
  · have hresult : quotient.result? a b = some (a.tdiv b) := if_neg hb
    rw [Quantity.quotient, if_neg hb]
    by_cases hn : InRange (a.tdiv b)
    · rw [exact_of_inRange hn, outcome_exact hresult hn id]
      rfl
    · rw [exact_of_not_inRange hn, outcome_overflow hresult (.inl hn)]
      rfl

theorem remainder_eq (ha : InRange a) :
    Quantity.integer <$> Quantity.remainder a b = remainder.outcome a b := by
  by_cases hb : b = 0
  · have hresult : remainder.result? a b = none := if_pos hb
    rw [Quantity.remainder, if_pos hb, outcome_undefined hresult]
    rfl
  · have hresult : remainder.result? a b = some (a.tmod b) := if_neg hb
    rw [Quantity.remainder, if_neg hb]
    by_cases hway : remainder.Detours a b
    · have hn : ¬ InRange (a.tdiv b) := fun h => (inRange_tdiv_iff ha).1 h hway
      rw [exact_of_not_inRange hn, outcome_overflow hresult (.inr hway)]
      rfl
    · have hn : InRange (a.tdiv b) := (inRange_tdiv_iff ha).2 hway
      rw [exact_of_inRange hn, outcome_exact hresult (inRange_tmod ha) hway]
      rfl

theorem apply_eq (ha : InRange a) (hb : InRange b) (hx : Quantity.ofTree? u x = some (.integer a))
    (hy : Quantity.ofTree? u y = some (.integer b)) : op.apply u x y = op.outcome a b := by
  cases op with
  | difference =>
    rw [apply, Quantity.minus, Quantity.operand, hx]
    change (do Quantity.add .minus (.integer a) (← Quantity.negate (← Quantity.operand u .minus y)) y) = _
    rw [Quantity.operand, hy]
    exact difference_eq ha hb
  | quotient =>
    rw [apply, Quantity.divide, Quantity.integerOperand, Quantity.integerOperand, hx, hy]
    exact quotient_eq
  | remainder =>
    rw [apply, Quantity.modulo, Quantity.integerOperand, Quantity.integerOperand, hx, hy]
    exact remainder_eq ha

def node (op : IntegerOperation) (a b : Int) : Tree :=
  .node op.primitive [.atom (toString a), .atom (toString b)]

variable {fuel : Nat} {w : World} {s : State}

theorem quantity_run (f : Units → Except Fault Quantity) :
    (Rule.quantity f).run w s = .ok ((f s.derived.units).map Quantity.toTree, s) := by
  have hunits : (units : Execution Units).run w s = .ok (s.derived.units, s) := rfl
  rw [Rule.quantity, lift_bind_run_ok hunits]
  cases f s.derived.units <;> rfl

theorem ofTree?_toString (hn : InRange n) :
    Quantity.ofTree? u (.atom (toString n)) = some (.integer n) := by
  simp only [Quantity.ofTree?, Tree.label?, Option.bind_some, Quantity.read?,
    Text.readInteger?_toString_int hn]

def form : IntegerOperation → Tree → Tree → Form
  | difference, x, y => .minus x (some y)
  | quotient, x, y => .divide x y
  | remainder, x, y => .modulo x y

theorem ofNode_eq (x y : Tree) : Form.ofNode op.primitive [x, y] = .ok (op.form x y) := by
  cases op <;> rfl

theorem operand_label (x : String) : Rule.operand (eval (fuel + 1)) (.atom x) = pure (.atom x) := rfl

theorem minus_labels (x y : String) : Rule.minus (eval (fuel + 1)) (.atom x) (some (.atom y)) =
    Rule.quantity fun u => Quantity.minus u (.atom x) (some (.atom y)) := by
  simp only [Rule.minus, operand_label, pure_bind, Option.mapM_some, map_pure]

theorem binary_labels (f : Units → Tree → Tree → Except Fault Quantity) (x y : String) :
    Rule.binary (eval (fuel + 1)) f (.atom x) (.atom y) =
      Rule.quantity fun u => f u (.atom x) (.atom y) := by
  simp only [Rule.binary, operand_label, pure_bind]

theorem eval_labels (x y : String) : eval (fuel + 2) (.node op.primitive [.atom x, .atom y]) =
    inContext op.primitive.name (Rule.quantity fun u => op.apply u (.atom x) (.atom y)) := by
  rw [eval_form (ofNode_eq (.atom x) (.atom y))]
  cases op with
  | difference => exact congrArg _ (minus_labels x y)
  | quotient => exact congrArg _ (binary_labels Quantity.divide x y)
  | remainder => exact congrArg _ (binary_labels Quantity.modulo x y)

theorem eval_node (ha : InRange a) (hb : InRange b) :
    (eval (fuel + 2) (op.node a b)).run w s =
      .ok (((op.outcome a b).map Quantity.toTree).mapError (·.inContext op.primitive.name), s) := by
  rw [node, eval_labels, inContext_apply, quantity_run, apply_eq ha hb (ofTree?_toString ha) (ofTree?_toString hb)]
  rfl

theorem result?_eq_none_iff : op.result? a b = none ↔ op ≠ difference ∧ b = 0 := by
  cases op <;> simp [result?]

theorem Detours.result?_ne_none (h : op.Detours a b) : op.result? a b ≠ none := by
  intro hnone
  obtain ⟨hop, rfl⟩ := result?_eq_none_iff.1 hnone
  cases op with
  | difference => exact hop rfl
  | quotient => exact h
  | remainder => exact absurd h.2 (by decide)

/-- Arithmetic is exact up to the limits, but for the detours, and leaves the state as it is. -/
theorem eval_exact (op : IntegerOperation) (ha : InRange a) (hb : InRange b) (fuel : Nat) (w : World)
    (s : State) : ∃ r, (eval (fuel + 2) (op.node a b)).run w s = .ok (r, s) ∧
      (∀ n, op.result? a b = some n → InRange n → ¬ op.Detours a b → r = .ok (.atom (toString n))) ∧
      (r = .error ⟨.overflow op.primitive, op.primitive.name⟩ ↔
        (∃ n, op.result? a b = some n ∧ ¬ InRange n) ∨ op.Detours a b) ∧
      (r = .error ⟨.divisionByZero op.primitive, op.primitive.name⟩ ↔ op ≠ difference ∧ b = 0) := by
  refine ⟨_, eval_node ha hb, fun n hresult hn hway => by rw [outcome_exact hresult hn hway]; rfl, ?_⟩
  rw [← result?_eq_none_iff]
  cases hresult : op.result? a b with
  | none =>
    have hway : ¬ op.Detours a b := fun h => h.result?_ne_none hresult
    rw [outcome_undefined hresult]
    exact ⟨⟨nofun, fun h => h.elim nofun fun h => absurd h hway⟩, fun _ => rfl, fun _ => rfl⟩
  | some n =>
    by_cases hover : ¬ InRange n ∨ op.Detours a b
    · rw [outcome_overflow hresult hover]
      exact ⟨⟨fun _ => hover.imp_left fun hn => ⟨n, rfl, hn⟩, fun _ => rfl⟩, nofun, nofun⟩
    · obtain ⟨hn, hway⟩ := not_or.1 hover
      have hn : InRange n := Decidable.of_not_not hn
      rw [outcome_exact hresult hn hway]
      refine ⟨⟨nofun, ?_⟩, nofun, nofun⟩
      rintro (⟨_, ⟨⟩, hover⟩ | hover)
      · exact absurd hn hover
      · exact absurd hover hway

theorem eval_exact_least : InRange (-1) ∧ InRange maxInteger ∧ ¬ difference.Detours (-1) maxInteger ∧
    (eval 2 (difference.node (-1) maxInteger)).run { base := "" } (State.fresh 600 default) =
      .ok (.ok (.atom (toString minInteger)), State.fresh 600 default) := by
  have hone : InRange (-1) := by decide
  have hmost : InRange maxInteger := by decide
  have hway : ¬ difference.Detours (-1) maxInteger := by decide
  obtain ⟨r, hrun, hexact, _⟩ :=
    eval_exact difference hone hmost 0 { base := "" } (State.fresh 600 default)
  rw [hexact minInteger (by decide) (by decide) hway] at hrun
  exact ⟨hone, hmost, hway, hrun⟩

theorem not_eval_exact_detour :
    difference.result? (-1) minInteger = some maxInteger ∧
    (eval 2 (difference.node (-1) minInteger)).run { base := "" } (State.fresh 600 default) =
      .ok (.error ⟨.overflow .minus, "minus"⟩, State.fresh 600 default) ∧
    remainder.result? minInteger (-1) = some 0 ∧
    (eval 2 (remainder.node minInteger (-1))).run { base := "" } (State.fresh 600 default) =
      .ok (.error ⟨.overflow .modulo, "modulo"⟩, State.fresh 600 default) := by
  refine ⟨by decide, ?_, by decide, ?_⟩
  · have hresult : difference.result? (-1) minInteger = some maxInteger := by decide
    rw [eval_node (by decide) (by decide), outcome_overflow hresult (.inr (by decide))]
    rfl
  · have hresult : remainder.result? minInteger (-1) = some 0 := by decide
    rw [eval_node (by decide) (by decide), outcome_overflow hresult (.inr (by decide))]
    rfl

end IntegerOperation

end Typesetter

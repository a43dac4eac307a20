import Mathlib
import Typesetter.Operation.Comparison
/-!
The order of doubles. Sign, exponent and significand, compared in turn, place every double that is a number;
the infinities stand at the ends, and the two zeros in one place.
-/

namespace Typesetter.Decimal

open Float.Model

/-- A zero has no exponent, so the sign comes first and tells it from the other doubles. -/
def place : UnpackedFloat → ℤ ×ₗ ℤ ×ₗ ℤ
  | .notANumber | .zero _ => 0
  | .infinity .negative => toLex (-2, 0)
  | .infinity .positive => toLex (2, 0)
  | .finite .negative m e _ => toLex (-1, toLex (-e, -(m : ℤ)))
  | .finite .positive m e _ => toLex (1, toLex (e, (m : ℤ)))

theorem place_neg (a : UnpackedFloat) : place a.neg = -place a := by
  cases a with
  | notANumber => rfl
  | infinity s => cases s <;> rfl
  | zero s => rfl
  | finite s m e h =>
    cases s with
    | negative => simp only [UnpackedFloat.neg, place, ← toLex_neg, Prod.neg_mk, neg_neg]
    | positive => rfl

theorem compare_toLex {α β : Type} [Ord α] [Ord β] (a b : α) (x y : β) :
    compare (toLex (a, x)) (toLex (b, y)) = (compare a b).then (compare x y) := by
  simp only [Prod.Lex.compare_def, compareLex, compareOn, ofLex_toLex]

theorem compare_natCast (m n : ℕ) : compare (m : ℤ) (n : ℤ) = compare m n := by
  simp only [compare, compareOfLessAndEq, Int.ofNat_lt, Int.ofNat_inj]

theorem compare_neg (m n : ℤ) : compare (-m) (-n) = (compare m n).swap := by
  have hswap : (compare m n).swap = compare n m := Std.OrientedCmp.eq_swap.symm
  rw [hswap]
  simp only [compare, compareOfLessAndEq, Int.neg_lt_neg_iff, Int.neg_inj, eq_comm]

theorem compare_place {a b : UnpackedFloat} (ha : a ≠ .notANumber) (hb : b ≠ .notANumber) :
    a.compare b = some (compare (place a) (place b)) := by
  cases a with
  | notANumber => exact absurd rfl ha
  | infinity s =>
    cases b with
    | notANumber => exact absurd rfl hb
    | infinity s' => cases s <;> cases s' <;> rfl
    | zero s' => cases s <;> rfl
    | finite s' => cases s <;> cases s' <;> rfl
  | zero s =>
    cases b with
    | notANumber => exact absurd rfl hb
    | infinity s' => cases s' <;> rfl
    | zero s' => rfl
    | finite s' => cases s' <;> rfl
  | finite s m e _ =>
    cases b with
    | notANumber => exact absurd rfl hb
    | infinity s' => cases s <;> cases s' <;> rfl
    | zero s' => cases s <;> rfl
    | finite s' m' e' _ =>
      cases s with
      | negative =>
        cases s' with
        | negative =>
          simp only [UnpackedFloat.compare, place, compare_toLex, compare_neg, compare_natCast,
            Ordering.swap_then]
          rfl
        | positive => rfl
      | positive =>
        cases s' with
        | negative => rfl
        | positive =>
          simp only [UnpackedFloat.compare, place, compare_toLex, compare_natCast]
          rfl

def IsNumber (x : Float) : Prop := x.toModel.unpack ≠ .notANumber

def rank (x : Float) : ℤ ×ₗ ℤ ×ₗ ℤ := place x.toModel.unpack

theorem isNumber_of_isFinite {x : Float} (h : isFinite x) : IsNumber x := by
  intro hunpack
  unfold Float.Model.unpack UnpackedFloat.unpack at hunpack
  simp only at hunpack
  split at hunpack
  · rename_i hexponent
    have hexponent : x.toBits.toNat / Binary.leadingBit % 2048 = 2047 := by
      have hbits : x.toModel.toBits.toNat / 4503599627370496 % 2048 = 2047 := by
        simpa [UnpackedFloat.unpackExponent, Nat.shiftRight_eq_div_pow] using
          congrArg BitVec.toNat hexponent
      exact hbits
    simp only [isFinite, Binary.ofFloat, Binary.ofBits, hexponent, if_true] at h
    split at h <;> cases h
  · split at hunpack
    · split at hunpack <;> cases hunpack
    · cases hunpack

variable {x y : Float}

theorem lt_iff_rank (hx : IsNumber x) (hy : IsNumber y) : x < y ↔ compare (rank x) (rank y) = .lt := by
  change decide (x.toModel.unpack.compare y.toModel.unpack == some .lt) = true ↔ _
  rw [compare_place hx hy]
  simp [rank]

theorem beq_iff_rank (hx : IsNumber x) (hy : IsNumber y) :
    (x == y) = true ↔ compare (rank x) (rank y) = .eq := by
  change (x.toModel.unpack.compare y.toModel.unpack == some .eq) = true ↔ _
  rw [compare_place hx hy]
  simp [rank]

theorem floatOrder_eq (hx : IsNumber x) (hy : IsNumber y) :
    floatOrder x y = some (compare (rank x) (rank y)) := by
  unfold floatOrder
  simp only [lt_iff_rank hx hy, lt_iff_rank hy hx, beq_iff_rank hx hy]
  have hswap : compare (rank y) (rank x) = (compare (rank x) (rank y)).swap := Std.OrientedCmp.eq_swap
  rw [hswap]
  cases compare (rank x) (rank y) <;> rfl

end Typesetter.Decimal

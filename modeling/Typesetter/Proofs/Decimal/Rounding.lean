import Mathlib
import Typesetter.Decimal.Binary
/-!
Rounding to the significand of a double. A significand with too many bits is cut off to the nearest one with
53 bits; when that is a power of two, one bit more, the exponent is raised.
-/

namespace Typesetter.Decimal

open Float.Model Float.Model.UnpackedFloat

variable {m m' k k' q q' : ℕ} {e e' f f' : ℤ} {em : ExtendedMantissa}

/-- A significand without its last bits. The round bit and the sticky bit tell how far the rest is from
nothing, from one half and from one. -/
structure Cut (m k : ℕ) (em : ExtendedMantissa) : Prop where
  mantissa : em.mantissa = m / 2 ^ k
  roundBit : em.roundBit = true ↔ 2 ^ k ≤ 2 * (m % 2 ^ k)
  stickyBit : em.stickyBit = true ↔ 2 * (m % 2 ^ k) ≠ 0 ∧ 2 * (m % 2 ^ k) ≠ 2 ^ k

/-- The nearest multiple of a power of two, or one of two that are equally near. -/
structure Nearest (m k q : ℕ) : Prop where
  low : 2 * m ≤ 2 * (q * 2 ^ k) + 2 ^ k
  high : 2 * (q * 2 ^ k) ≤ 2 * m + 2 ^ k

namespace Nearest

theorem of_eq (h : q * 2 ^ k = m) : Nearest m k q := by
  have hpos := Nat.two_pow_pos k
  exact ⟨by omega, by omega⟩

theorem exact (h : Nearest (q' * 2 ^ k) k q) : q = q' := by
  have hpos : 0 < 2 ^ k := Nat.two_pow_pos k
  obtain ⟨hlow, hhigh⟩ := h
  apply Nat.le_antisymm
  · by_contra hlt
    have : (q' + 1) * 2 ^ k ≤ q * 2 ^ k := Nat.mul_le_mul_right _ (by omega)
    rw [Nat.succ_mul] at this
    omega
  · by_contra hlt
    have : (q + 1) * 2 ^ k ≤ q' * 2 ^ k := Nat.mul_le_mul_right _ (by omega)
    rw [Nat.succ_mul] at this
    omega

theorem mono (h : Nearest m k q) (h' : Nearest m' k q') (hlt : m < m') : q ≤ q' := by
  by_contra hq
  have : (q' + 1) * 2 ^ k ≤ q * 2 ^ k := Nat.mul_le_mul_right _ (by omega)
  rw [Nat.succ_mul] at this
  have := h.high
  have := h'.low
  omega

end Nearest

namespace Cut

theorem shiftRightOne (h : Cut m k em) : Cut m (k + 1) em.shiftRightOne := by
  have hdiv : m / 2 ^ (k + 1) = m / 2 ^ k / 2 := by rw [Nat.pow_succ, Nat.div_div_eq_div_mul]
  have hmod : m % 2 ^ (k + 1) = m % 2 ^ k + 2 ^ k * (m / 2 ^ k % 2) := by
    rw [Nat.pow_succ, Nat.mod_mul]
  have hpow : 2 ^ (k + 1) = 2 * 2 ^ k := Nat.pow_succ'
  have hlt : m % 2 ^ k < 2 ^ k := Nat.mod_lt _ (Nat.two_pow_pos k)
  obtain ⟨hm, hr, hs⟩ := h
  refine ⟨?mantissa, ?roundBit, ?stickyBit⟩
  case mantissa => rw [ExtendedMantissa.shiftRightOne, hm, hdiv]
  case roundBit =>
    simp only [ExtendedMantissa.shiftRightOne, hm, bne_iff_ne, ne_eq]
    rw [hmod, hpow]
    rcases Nat.mod_two_eq_zero_or_one (m / 2 ^ k) with h | h <;> rw [h] <;> omega
  case stickyBit =>
    simp only [ExtendedMantissa.shiftRightOne, Bool.or_eq_true, hr, hs]
    rw [hmod, hpow]
    rcases Nat.mod_two_eq_zero_or_one (m / 2 ^ k) with h | h <;> rw [h] <;> omega

theorem shift (m k : ℕ) : Cut m k (ExtendedMantissa.ofMantissaAndAccuracy m .exact >>> k) := by
  induction k with
  | zero => exact ⟨(Nat.div_one m).symm, by simp [Nat.mod_one]; rfl, by simp [Nat.mod_one]; rfl⟩
  | succ k ih => exact ih.shiftRightOne

theorem rounded_cases (em : ExtendedMantissa) :
    em.roundedMantissa = em.mantissa ∨ em.roundedMantissa = em.mantissa + 1 := by
  obtain ⟨q, r, s⟩ := em
  cases r <;> cases s
  · exact .inl rfl
  · exact .inl rfl
  · exact (Nat.mod_two_eq_zero_or_one q).imp (congrArg (q + ·)) (congrArg (q + ·))
  · exact .inr rfl

theorem nearest (h : Cut m k em) : Nearest m k em.roundedMantissa := by
  obtain ⟨q, r, s⟩ := em
  obtain ⟨hq, hr, hs⟩ := h
  have hsplit : q * 2 ^ k + m % 2 ^ k = m := by
    rw [show q = m / 2 ^ k from hq]
    exact Nat.div_add_mod' m (2 ^ k)
  have hlt : m % 2 ^ k < 2 ^ k := Nat.mod_lt _ (Nat.two_pow_pos k)
  have hsucc : (q + 1) * 2 ^ k = q * 2 ^ k + 2 ^ k := Nat.succ_mul q (2 ^ k)
  cases r with
  | false =>
    have hround : ExtendedMantissa.roundedMantissa ⟨q, false, s⟩ = q := by cases s <;> rfl
    have hless : ¬ 2 ^ k ≤ 2 * (m % 2 ^ k) := fun h => Bool.false_ne_true (hr.2 h)
    rw [hround]
    exact ⟨by omega, by omega⟩
  | true =>
    have hmore : 2 ^ k ≤ 2 * (m % 2 ^ k) := hr.1 rfl
    cases s with
    | true =>
      change Nearest m k (q + 1)
      exact ⟨by omega, by omega⟩
    | false =>
      -- One half: both neighbours are near, and the even one is taken.
      have hhalf : 2 * (m % 2 ^ k) = 2 ^ k := by
        by_contra hne
        exact Bool.false_ne_true (hs.2 ⟨by omega, hne⟩)
      rcases rounded_cases ⟨q, true, false⟩ with hround | hround
      · rw [show ExtendedMantissa.roundedMantissa ⟨q, true, false⟩ = q from hround]
        exact ⟨by omega, by omega⟩
      · rw [show ExtendedMantissa.roundedMantissa ⟨q, true, false⟩ = q + 1 from hround]
        exact ⟨by omega, by omega⟩

end Cut

inductive Rounds (m k : ℕ) (e : ℤ) : ℕ → ℤ → Prop
  | kept {q : ℕ} : 2 ^ 52 ≤ q → q < 2 ^ 53 → Nearest m k q → Rounds m k e q (e + k)
  | raised : Nearest m k (2 ^ 53) → Rounds m k e (2 ^ 52) (e + k + 1)

namespace Rounds

theorem least (h : Rounds m k e q f) : 2 ^ 52 ≤ q := by
  cases h with
  | kept h _ _ => exact h
  | raised _ => exact Nat.le_refl _

theorem most (h : Rounds m k e q f) : q < 2 ^ 53 := by
  cases h with
  | kept _ h _ => exact h
  | raised _ => decide

theorem exponent (h : Rounds m k e q f) : e + k ≤ f ∧ f ≤ e + k + 1 := by
  cases h <;> omega

theorem exact {p : ℕ} (h : Rounds (p * 2 ^ k) k e q f) (hp : p < 2 ^ 53) : q = p ∧ f = e + k := by
  cases h with
  | kept _ _ h => exact ⟨h.exact, rfl⟩
  | raised h =>
    have := h.exact
    omega

theorem mono (h : Rounds m k e q f) (h' : Rounds m' k' e q' f') (hk : k ≤ k') (hm : k = k' → m < m') :
    f < f' ∨ f = f' ∧ q ≤ q' := by
  have hleast := h'.least
  have hexponent := h'.exponent
  rcases Nat.lt_or_eq_of_le hk with hlt | rfl
  · cases h with
    | kept _ _ _ => omega
    | raised _ => omega
  · have hm := hm rfl
    cases h with
    | kept _ _ h =>
      cases h' with
      | kept _ _ h' => exact .inr ⟨rfl, h.mono h' hm⟩
      | raised _ => omega
    | raised h =>
      cases h' with
      | kept _ hmost h' =>
        have := h.mono h' hm
        omega
      | raised _ => exact .inr ⟨rfl, Nat.le_refl _⟩

end Rounds

theorem targetExponent_eq (hk : m.log2 = 52 + k) (he : -1074 ≤ e + k) :
    Format.binary64.targetExponent (totalExponent m e) = e + k := by
  simp only [Format.targetExponent, totalExponent, Format.mantissaBits, Format.minExponent]
  omega

theorem shiftToTargetExponent_eq (hk : m.log2 = 52 + k) (he : -1074 ≤ e + k) :
    shiftToTargetExponent .binary64 m e .exact =
      (ExtendedMantissa.ofMantissaAndAccuracy m .exact >>> k, e + k) := by
  have hshift : (e + k - e).toNat = k := by omega
  simp only [shiftToTargetExponent, shiftToExponent, targetExponent_eq hk he, hshift]

theorem roundWithAccuracy_rounds (s : Sign) (hm : 0 < m) (hk : m.log2 = 52 + k) (he : -1074 ≤ e + k) :
    ∃ q f h, roundWithAccuracy .binary64 s m e .exact = .finite s q f h ∧ Rounds m k e q f := by
  have hcut := Cut.shift m k
  generalize hem : ExtendedMantissa.ofMantissaAndAccuracy m .exact >>> k = em at hcut
  have hnearest := hcut.nearest
  have hcases := Cut.rounded_cases em
  obtain ⟨hlow, hhigh⟩ := (Nat.log2_eq_iff hm.ne').1 hk
  have hleast : 2 ^ 52 ≤ em.mantissa := by
    rw [hcut.mantissa, Nat.le_div_iff_mul_le (Nat.two_pow_pos k), ← Nat.pow_add]
    exact hlow
  have hmost : em.mantissa < 2 ^ 53 := by
    rw [hcut.mantissa, Nat.div_lt_iff_lt_mul (Nat.two_pow_pos k), ← Nat.pow_add, Nat.add_comm 53 k]
    rwa [Nat.add_right_comm, Nat.add_comm] at hhigh
  rw [roundWithAccuracy, shiftToTargetExponent_eq hk he, hem]
  dsimp only
  generalize em.roundedMantissa = q at *
  rcases Nat.lt_or_ge q (2 ^ 53) with h | h
  · have hq : q.log2 = 52 + 0 := (Nat.log2_eq_iff (by omega)).2 ⟨by omega, h⟩
    refine ⟨q, e + k, by omega, ?_, .kept (by omega) h hnearest⟩
    rw [shiftToTargetExponent_eq hq (by omega), Nat.cast_zero, add_zero]
    have hne : q ≠ 0 := by omega
    exact dif_neg hne
  · obtain rfl : q = 2 ^ 53 := by omega
    refine ⟨2 ^ 52, e + k + 1, by decide, ?_, .raised hnearest⟩
    rw [shiftToTargetExponent_eq (k := 1) Nat.log2_two_pow (by omega)]
    rfl

end Typesetter.Decimal

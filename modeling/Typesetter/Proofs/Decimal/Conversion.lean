import Mathlib
import Typesetter.Limits
import Typesetter.Proofs.Decimal.Order
import Typesetter.Proofs.Decimal.Rounding

namespace Typesetter.Decimal

open Float.Model Float.Model.UnpackedFloat

variable {m m' n n' : ℕ} {e e' : ℤ}

theorem log2_mul_two_pow (h : 0 < m) (k : ℕ) : (m * 2 ^ k).log2 = m.log2 + k := by
  rw [Nat.log2_eq_iff (Nat.mul_pos h (Nat.two_pow_pos k)).ne']
  constructor
  · rw [Nat.pow_add]
    exact Nat.mul_le_mul_right _ (Nat.log2_self_le h.ne')
  · rw [Nat.add_right_comm, Nat.pow_add]
    exact Nat.mul_lt_mul_of_pos_right Nat.lt_log2_self (Nat.two_pow_pos k)

structure Normal (m : ℕ) (e : ℤ) : Prop where
  least : 2 ^ 52 ≤ m
  most : m < 2 ^ 53
  low : -1074 ≤ e
  high : e ≤ 971

theorem unpack_pack (h : Normal m e) (s : Sign) (hm : 0 < m) :
    (Float.Model.pack (.finite s m e hm)).unpack = .finite s m e hm := by
  obtain ⟨hleast, hmost, hlow, hhigh⟩ := h
  have hlog : m.log2 + 1 = 53 := by rw [(Nat.log2_eq_iff hm.ne').2 ⟨hleast, hmost⟩]
  have hexponent : (BitVec.ofNat 11 (e + 1023 + 52).toNat).toNat = (e + 1023 + 52).toNat :=
    Nat.mod_eq_of_lt (by omega)
  have hsignificand : (1#1 ++ BitVec.ofNat 52 m).toNat = m := by
    rw [BitVec.toNat_append, BitVec.toNat_ofNat, BitVec.toNat_ofNat,
      ← Nat.shiftLeft_add_eq_or_of_lt (Nat.mod_lt _ (by decide))]
    omega
  have hinner : BitVec.ofNat 11 (e + 1023 + 52).toNat ≠ -1#11 := fun h => by
    have h : (e + 1023 + 52).toNat = 2047 := hexponent ▸ congrArg BitVec.toNat h
    omega
  have hnormal : BitVec.ofNat 11 (e + 1023 + 52).toNat ≠ 0#11 := fun h => by
    have h : (e + 1023 + 52).toNat = 0 := hexponent ▸ congrArg BitVec.toNat h
    omega
  have hpack : UnpackedFloat.pack .binary64 (.finite s m e hm) =
      packComponents .binary64 s (BitVec.ofNat 11 (e + 1023 + 52).toNat) (BitVec.ofNat 52 m) := by
    have hfits : ¬ 2 ^ 11 ≤ (e + 1023 + 52).toNat + 1 := by omega
    exact (if_neg hfits).trans (if_pos hlog)
  change UnpackedFloat.unpack .binary64 (UnpackedFloat.pack .binary64 (.finite s m e hm)) = _
  rw [hpack, UnpackedFloat.unpack]
  simp only [unpackMantissa_packComponents, unpackExponent_packComponents, unpackSign_packComponents,
    Sign.ofBitVec_toBitVec]
  rw [if_neg hinner, if_neg hnormal]
  simp only [hexponent, hsignificand]
  congr 1
  change ((e + 1023 + 52).toNat : ℤ) - (1023 + 52) = e
  omega

abbrev Converts (n m : ℕ) (e : ℤ) : Prop := Rounds (n * 2 ^ 53) (n.log2 + 1) (-53) m e

namespace Converts

theorem normal (h : Converts n m e) (hn : 0 < n) (hmax : n ≤ 2 ^ 63) : Normal m e := by
  have hlog : n.log2 < 64 := (Nat.log2_lt hn.ne').2 (hmax.trans_lt (by decide))
  have := h.exponent
  exact ⟨h.least, h.most, by omega, by omega⟩

theorem mono (h : Converts n m e) (h' : Converts n' m' e') (hn : 0 < n) (hlt : n < n') :
    e < e' ∨ e = e' ∧ m ≤ m' := by
  have hlog : n.log2 ≤ n'.log2 :=
    (Nat.le_log2 (hn.trans hlt).ne').2 ((Nat.log2_self_le hn.ne').trans hlt.le)
  exact Rounds.mono h h' (by omega) fun _ => by omega

theorem of_small (hn : 0 < n) (h : n < 2 ^ 53) :
    Converts n (n * 2 ^ (52 - n.log2)) (n.log2 - 52) := by
  have hlog : n.log2 < 53 := (Nat.log2_lt hn.ne').2 h
  have hlog' : (n * 2 ^ (52 - n.log2)).log2 = 52 := by
    rw [log2_mul_two_pow hn]
    omega
  obtain ⟨hleast, hmost⟩ := (Nat.log2_eq_iff (Nat.mul_pos hn (Nat.two_pow_pos _)).ne').1 hlog'
  have hexact : n * 2 ^ (52 - n.log2) * 2 ^ (n.log2 + 1) = n * 2 ^ 53 := by
    rw [Nat.mul_assoc, ← Nat.pow_add]
    congr 2
    omega
  have he : (-53 : ℤ) + (n.log2 + 1 : ℕ) = n.log2 - 52 := by omega
  exact he ▸ Rounds.kept hleast hmost (.of_eq hexact)

end Converts

theorem unpack_one : ∃ h, (Float.ofBits 0x3FF0000000000000).toModel.unpack =
    .finite .positive (2 ^ 52) (-52) h :=
  ⟨by decide, rfl⟩

theorem unpackedOfNat_small (hn : 0 < n) (h : n < 2 ^ 53) : ∃ hm,
    UnpackedFloat.ofNat .binary64 n = .finite .positive (n * 2 ^ (52 - n.log2)) (n.log2 - 52) hm := by
  have hlog : n.log2 < 53 := (Nat.log2_lt hn.ne').2 h
  have hm : 0 < n * 2 ^ (52 - n.log2) := Nat.mul_pos hn (Nat.two_pow_pos _)
  have hlog' : (n * 2 ^ (52 - n.log2)).log2 = 52 + 0 := by
    rw [log2_mul_two_pow hn]
    omega
  have htarget : Format.binary64.targetExponent (totalExponent n 0) = n.log2 - 52 := by
    simp only [Format.targetExponent, totalExponent, Format.mantissaBits, Format.minExponent]
    omega
  have hshift : (0 - ((n.log2 : ℤ) - 52)).toNat = 52 - n.log2 := by omega
  have he : (0 : ℤ) - ((52 - n.log2 : ℕ) : ℤ) = n.log2 - 52 := by omega
  have hpositive : compare (n : ℤ) 0 = .gt := by
    rw [Int.compare_eq_gt]
    omega
  obtain ⟨q, f, _, hround, hrounds⟩ :=
    roundWithAccuracy_rounds .positive (e := n.log2 - 52) hm hlog' (by omega)
  obtain ⟨rfl, rfl⟩ := Rounds.exact (p := n * 2 ^ (52 - n.log2)) (by rwa [pow_zero, mul_one])
    (Converts.of_small hn h).most
  refine ⟨hm, ?_⟩
  rw [UnpackedFloat.ofNat, UnpackedFloat.ofInt, UnpackedFloat.normalize, hpositive]
  dsimp only
  rw [Int.toNat_natCast, UnpackedFloat.round, htarget, decreaseExponent, hshift, he, Nat.shiftLeft_eq]
  dsimp only
  rw [hround]
  simp only [Nat.cast_zero, add_zero]

theorem unpack_ofNat_small (hn : 0 < n) (h : n < 2 ^ 53) : ∃ hm, (Float.ofNat n).toModel.unpack =
    .finite .positive (n * 2 ^ (52 - n.log2)) (n.log2 - 52) hm := by
  have hconverts := Converts.of_small hn h
  have hnormal := hconverts.normal hn (h.le.trans (by decide))
  obtain ⟨hm, hunpacked⟩ := unpackedOfNat_small hn h
  obtain ⟨hone, hunpackOne⟩ := unpack_one
  have hnat : n.toUInt64.toNat = n := Nat.mod_eq_of_lt (h.trans (by decide))
  have hmodel : (Float.ofNat n).toModel = Float.Model.pack (mul .binary64
      (Float.Model.pack (UnpackedFloat.ofNat .binary64 n)).unpack
      (Float.ofBits 0x3FF0000000000000).toModel.unpack) := by
    change (Float.ofScientific n false 0).toModel = _
    rw [Float.ofScientific, dif_pos ⟨h, by decide⟩]
    change Float.Model.pack (mul .binary64
      (Float.Model.pack (UnpackedFloat.ofNat .binary64 n.toUInt64.toNat)).unpack _) = _
    rw [hnat]
    rfl
  rw [hmodel, hunpacked, unpack_pack hnormal, hunpackOne]
  generalize n * 2 ^ (52 - n.log2) = m at *
  have hproduct : (m * 2 ^ 52).log2 = 52 + 52 := by
    rw [log2_mul_two_pow hm, (Nat.log2_eq_iff hm.ne').2 ⟨hnormal.least, hnormal.most⟩]
  obtain ⟨q, f, _, hround, hrounds⟩ := roundWithAccuracy_rounds .positive (e := n.log2 - 52 + -52)
    (Nat.mul_pos hm hone) hproduct (by omega)
  obtain ⟨rfl, rfl⟩ := hrounds.exact hnormal.most
  have he : (n.log2 : ℤ) - 52 + -52 + (52 : ℕ) = n.log2 - 52 := by omega
  refine ⟨hm, ?_⟩
  change (Float.Model.pack (roundWithAccuracy .binary64 .positive (q * 2 ^ 52) (n.log2 - 52 + -52)
    .exact)).unpack = _
  simp only [hround, he]
  exact unpack_pack hnormal .positive hm

theorem unpack_ofNat (hn : 0 < n) (hmax : n ≤ 2 ^ 63) : ∃ m e hm, Converts n m e ∧
    (Float.ofNat n).toModel.unpack = .finite .positive m e hm := by
  rcases Nat.lt_or_ge n (2 ^ 53) with hsmall | hlarge
  · obtain ⟨hm, hunpack⟩ := unpack_ofNat_small hn hsmall
    exact ⟨_, _, hm, .of_small hn hsmall, hunpack⟩
  have hlog : (n * 2 ^ 53).log2 = 52 + (n.log2 + 1) := by
    rw [log2_mul_two_pow hn]
    omega
  obtain ⟨m, e, hm, hround, hrounds⟩ := roundWithAccuracy_rounds .positive (e := -53)
    (Nat.mul_pos hn (by decide)) hlog (by omega)
  have hscientific : UnpackedFloat.ofScientific .binary64 n 0 = .finite .positive m e hm := by
    have htop : ¬ (0 : ℤ) > 2 ^ 11 := by decide
    have hbottom : ¬ (0 : ℤ) < -(2 ^ 11 + n.log2) := by omega
    rw [UnpackedFloat.ofScientific, dif_neg hn.ne', if_neg htop, if_neg hbottom, if_pos (le_refl 0)]
    change roundWithAccuracy .binary64 .positive (n <<< 53 * 1) (-53 + 0) .exact = _
    rw [Nat.shiftLeft_eq, Nat.mul_one, Int.add_zero, hround]
  have hmodel : (Float.ofNat n).toModel = Float.Model.pack (UnpackedFloat.ofScientific .binary64 n 0) := by
    change (Float.ofScientific n false 0).toModel = _
    rw [Float.ofScientific, dif_neg fun h => absurd h.1 (Nat.not_lt.2 hlarge)]
    rfl
  refine ⟨m, e, hm, hrounds, ?_⟩
  rw [hmodel, hscientific]
  exact unpack_pack (Converts.normal hrounds hn hmax) .positive hm

theorem unpack_ofNat_cases (hmax : n ≤ 2 ^ 63) :
    n = 0 ∧ (Float.ofNat n).toModel.unpack = .zero .positive ∨
      0 < n ∧ ∃ m e hm, Converts n m e ∧ Normal m e ∧
        (Float.ofNat n).toModel.unpack = .finite .positive m e hm := by
  rcases Nat.eq_zero_or_pos n with rfl | hn
  · exact .inl ⟨rfl, rfl⟩
  · obtain ⟨m, e, hm, hconverts, hunpack⟩ := unpack_ofNat hn hmax
    exact .inr ⟨hn, m, e, hm, hconverts, hconverts.normal hn hmax, hunpack⟩

theorem rank_ofNat_nonneg (hmax : n ≤ 2 ^ 63) : 0 ≤ rank (Float.ofNat n) := by
  obtain ⟨_, hunpack⟩ | ⟨_, m, e, hm, _, _, hunpack⟩ := unpack_ofNat_cases hmax <;> rw [rank, hunpack]
  · exact le_refl _
  · exact Prod.Lex.toLex_le_toLex.2 (.inl Int.one_pos)

theorem rank_ofNat_mono (h : n ≤ n') (hmax : n' ≤ 2 ^ 63) :
    rank (Float.ofNat n) ≤ rank (Float.ofNat n') := by
  rcases Nat.lt_or_eq_of_le h with hlt | rfl
  · obtain ⟨rfl, hunpack⟩ | ⟨hn, m, e, hm, hconverts, _, hunpack⟩ := unpack_ofNat_cases (h.trans hmax)
    · exact rank_ofNat_nonneg hmax
    obtain ⟨m', e', hm', hconverts', hunpack'⟩ := unpack_ofNat (hn.trans hlt) hmax
    rw [rank, rank, hunpack, hunpack']
    refine Prod.Lex.toLex_le_toLex.2 (.inr ⟨rfl, Prod.Lex.toLex_le_toLex.2 ?_⟩)
    exact (hconverts.mono hconverts' hn hlt).imp_right fun h => ⟨h.1, Int.ofNat_le.2 h.2⟩
  · exact le_refl _

theorem unpack_neg_ofNat (hmax : n ≤ 2 ^ 63) :
    (Float.ofNat n).neg.toModel.unpack = (Float.ofNat n).toModel.unpack.neg := by
  change (Float.Model.pack (Float.ofNat n).toModel.unpack.neg).unpack = _
  obtain ⟨_, hunpack⟩ | ⟨_, m, e, hm, _, hnormal, hunpack⟩ := unpack_ofNat_cases hmax <;> rw [hunpack]
  · rfl
  · exact unpack_pack hnormal .negative hm

theorem rank_neg_ofNat (hmax : n ≤ 2 ^ 63) : rank (Float.ofNat n).neg = -rank (Float.ofNat n) := by
  rw [rank, unpack_neg_ofNat hmax, place_neg, rank]

theorem natAbs_le_of_inRange {i : ℤ} (h : InRange i) : i.natAbs ≤ 2 ^ 63 := by
  obtain ⟨hlow, hhigh⟩ := h
  simp only [minInteger, maxInteger] at hlow hhigh
  omega

theorem isNumber_ofInt {i : ℤ} (h : InRange i) : IsNumber (Float.ofInt i) := by
  have hmax := natAbs_le_of_inRange h
  cases i with
  | ofNat n =>
    obtain ⟨_, hunpack⟩ | ⟨_, m, e, hm, _, _, hunpack⟩ := unpack_ofNat_cases hmax <;>
      exact fun h => nomatch hunpack.symm.trans h
  | negSucc n =>
    intro h
    replace h := (unpack_neg_ofNat hmax).symm.trans h
    obtain ⟨_, hunpack⟩ | ⟨_, m, e, hm, _, _, hunpack⟩ := unpack_ofNat_cases hmax <;>
      exact nomatch (congrArg UnpackedFloat.neg hunpack).symm.trans h

theorem rank_ofInt_mono {i j : ℤ} (h : i ≤ j) (hi : InRange i) (hj : InRange j) :
    rank (Float.ofInt i) ≤ rank (Float.ofInt j) := by
  have hi := natAbs_le_of_inRange hi
  have hj := natAbs_le_of_inRange hj
  cases i with
  | ofNat m =>
    cases j with
    | ofNat n => exact rank_ofNat_mono (Int.ofNat_le.1 h) hj
    | negSucc n => exact absurd h (Int.not_le.2 (Int.negSucc_lt_zero n |>.trans_le (Int.natCast_nonneg m)))
  | negSucc m =>
    have hm : rank (Float.ofInt (.negSucc m)) = -rank (Float.ofNat (m + 1)) := rank_neg_ofNat hi
    rw [hm]
    cases j with
    | ofNat n => exact (neg_nonpos.2 (rank_ofNat_nonneg hi)).trans (rank_ofNat_nonneg hj)
    | negSucc n =>
      have hn : rank (Float.ofInt (.negSucc n)) = -rank (Float.ofNat (n + 1)) := rank_neg_ofNat hj
      rw [hn]
      exact neg_le_neg (rank_ofNat_mono (by omega) hi)

end Typesetter.Decimal

import Mathlib.Data.List.Shortlex
import Mathlib.Data.Nat.Digits.Defs
import Mathlib.Data.String.Basic
import Typesetter.Limits
import Typesetter.Operation.Numbering

namespace Typesetter.Numbering

variable {m n : Nat} {i j : Int} {c : Char} {cs : List Char} {s : String}

def alphabet : List Char := "abcdefghijklmnopqrstuvwxyz".toList

def IsWord (s : String) : Prop := s ≠ "" ∧ s.toList ⊆ alphabet

instance : DecidablePred IsWord := fun s => inferInstanceAs (Decidable (s ≠ "" ∧ s.toList ⊆ alphabet))

def letterValue (c : Char) : Nat := alphabet.idxOf c + 1

/-- Letters are digits in base 26, the most significant one first; there is none for zero. -/
def wordValue (s : String) : Nat := Nat.ofDigits 26 (s.toList.reverse.map letterValue)

section Letters

theorem alphabet_eq : alphabet = (List.range 26).map letter := by decide

theorem mem_alphabet : c ∈ alphabet ↔ ∃ k < 26, letter k = c := by
  simp only [alphabet_eq, List.mem_map, List.mem_range]

theorem letterValue_letter : ∀ k < 26, letterValue (letter k) = k + 1 := by decide

theorem letter_lt_letter : ∀ l < 26, ∀ k < l, letter k < letter l := by decide

end Letters

section Words

theorem lettersReversed_zero : lettersReversed 0 = [] := by rw [lettersReversed]

theorem lettersReversed_next (n : Nat) {k : Nat} (hk : k < 26) :
    lettersReversed (k + 1 + 26 * n) = letter k :: lettersReversed n := by
  have hnext : k + 1 + 26 * n = k + 26 * n + 1 := by omega
  have hletter : (k + 26 * n) % 26 = k := by omega
  have hrest : (k + 26 * n) / 26 = n := by omega
  rw [hnext, lettersReversed, hletter, hrest]

theorem lettersReversed_subset (n : Nat) : lettersReversed n ⊆ alphabet := by
  induction n using lettersReversed.induct with
  | case1 => rw [lettersReversed_zero]; exact List.nil_subset _
  | case2 n ih =>
    rw [lettersReversed, List.cons_subset]
    exact ⟨mem_alphabet.2 ⟨_, Nat.mod_lt n (by decide), rfl⟩, ih⟩

theorem ofDigits_lettersReversed (n : Nat) :
    Nat.ofDigits 26 ((lettersReversed n).map letterValue) = n := by
  induction n using lettersReversed.induct with
  | case1 => rw [lettersReversed_zero]; rfl
  | case2 n ih =>
    rw [lettersReversed, List.map_cons, Nat.ofDigits_cons, ih,
      letterValue_letter _ (Nat.mod_lt n (by decide))]
    omega

theorem lettersReversed_ofDigits (h : cs ⊆ alphabet) :
    lettersReversed (Nat.ofDigits 26 (cs.map letterValue)) = cs := by
  induction cs with
  | nil => exact lettersReversed_zero
  | cons c cs ih =>
    rw [List.cons_subset] at h
    obtain ⟨k, hk, rfl⟩ := mem_alphabet.1 h.1
    rw [List.map_cons, Nat.ofDigits_cons, letterValue_letter k hk, lettersReversed_next _ hk, ih h.2]

end Words

section Order

variable {α : Type} {r : α → α → Prop} {xs ys : List α}

theorem lex_concat (h : List.Lex r xs ys) (hlength : xs.length = ys.length) (x y : α) :
    List.Lex r (xs ++ [x]) (ys ++ [y]) := by
  induction h with
  | nil => cases hlength
  | cons _ ih => exact .cons (ih (Nat.succ.inj hlength))
  | rel h => exact .rel h

theorem shortlex_concat (h : List.Shortlex r xs ys) (x y : α) :
    List.Shortlex r (xs ++ [x]) (ys ++ [y]) := by
  have hgrows : (xs ++ [x]).length = xs.length + 1 ∧ (ys ++ [y]).length = ys.length + 1 := by simp
  rcases List.shortlex_def.1 h with hlength | ⟨hlength, hlex⟩
  · exact .of_length_lt (by omega)
  · exact .of_lex (by omega) (lex_concat hlex hlength x y)

theorem shortlex_lettersReversed (h : m < n) :
    List.Shortlex (· < ·) (lettersReversed m).reverse (lettersReversed n).reverse := by
  induction n using lettersReversed.induct generalizing m with
  | case1 => exact absurd h (Nat.not_lt_zero m)
  | case2 n ih =>
    cases m with
    | zero =>
      rw [lettersReversed_zero, lettersReversed]
      exact .of_length_lt (by simp)
    | succ m =>
      rw [lettersReversed, lettersReversed, List.reverse_cons, List.reverse_cons]
      have hrest : m / 26 < n / 26 ∨ m / 26 = n / 26 ∧ m % 26 < n % 26 := by omega
      rcases hrest with hrest | ⟨hrest, hlast⟩
      · exact shortlex_concat (ih hrest) _ _
      · have hletters : letter (m % 26) < letter (n % 26) :=
          letter_lt_letter _ (Nat.mod_lt n (by decide)) _ hlast
        rw [hrest]
        exact .append_left ((List.shortlex_singleton_iff _ _).2 hletters) _

theorem shortlex_lettersReversed_iff :
    List.Shortlex (· < ·) (lettersReversed m).reverse (lettersReversed n).reverse ↔ m < n := by
  refine ⟨fun h => Nat.lt_of_not_le fun hle => ?_, shortlex_lettersReversed⟩
  rcases Nat.lt_or_eq_of_le hle with hlt | rfl
  · exact Std.Asymm.asymm _ _ h (shortlex_lettersReversed hlt)
  · exact Std.Asymm.asymm _ _ h h

end Order

section Labels

theorem wordValue_alpha (i : Int) : wordValue (alpha i) = i.toNat := by
  rw [wordValue, alpha, String.toList_ofList, List.reverse_reverse, ofDigits_lettersReversed]

theorem alpha_wordValue (h : s.toList ⊆ alphabet) : alpha (wordValue s) = s := by
  have hreverse : s.toList.reverse ⊆ alphabet := List.reverse_subset.2 h
  rw [alpha, Int.toNat_natCast, wordValue, lettersReversed_ofDigits hreverse, List.reverse_reverse,
    String.ofList_toList]

theorem isWord_alpha (hi : 1 ≤ i) : IsWord (alpha i) := by
  constructor
  · intro hempty
    have hzero : wordValue (alpha i) = 0 := congrArg wordValue hempty
    rw [wordValue_alpha] at hzero
    omega
  · rw [alpha, String.toList_ofList, List.reverse_subset]
    exact lettersReversed_subset _

theorem one_le_wordValue (h : IsWord s) : 1 ≤ wordValue s := by
  refine Nat.one_le_iff_ne_zero.2 fun hzero => h.1 ?_
  rw [← alpha_wordValue h.2, hzero]
  exact congrArg String.ofList (congrArg List.reverse lettersReversed_zero)

theorem alpha_injective (hi : 1 ≤ i) (hj : 1 ≤ j) (h : alpha i = alpha j) : i = j := by
  have hvalues : i.toNat = j.toNat := by rw [← wordValue_alpha, h, wordValue_alpha]
  omega

theorem lt_iff_alpha_precedes (hj : 1 ≤ j) :
    i < j ↔ (alpha i).length < (alpha j).length ∨
      (alpha i).length = (alpha j).length ∧ alpha i < alpha j := by
  have hnumbers : i < j ↔ i.toNat < j.toNat := by omega
  rw [hnumbers, ← shortlex_lettersReversed_iff, List.shortlex_def, String.lt_iff_toList_lt,
    ← String.length_toList, ← String.length_toList, alpha, alpha, String.toList_ofList,
    String.toList_ofList]
  rfl

/-- Each number from one on is the value of its label and each word the label of its value. Labels are
ordered as their numbers are, by length and then alphabetically. -/
theorem number_alpha_bijective :
    (∀ i : Int, 1 ≤ i → ∃ s, number i "alpha" = .ok s ∧ IsWord s ∧ wordValue s = i) ∧
    (∀ s, IsWord s → 1 ≤ wordValue s ∧ number (wordValue s) "alpha" = .ok s) ∧
    (∀ i j : Int, 1 ≤ i → 1 ≤ j → number i "alpha" = number j "alpha" → i = j) ∧
    ∀ i j s t, 1 ≤ i → 1 ≤ j → number i "alpha" = .ok s → number j "alpha" = .ok t →
      (i < j ↔ s.length < t.length ∨ s.length = t.length ∧ s < t) := by
  refine ⟨?_, ?_, ?_, ?_⟩
  · intro i hi
    refine ⟨alpha i, rfl, isWord_alpha hi, ?_⟩
    rw [wordValue_alpha, Int.toNat_of_nonneg (Int.le_trans (by decide) hi)]
  · intro s hs
    exact ⟨one_le_wordValue hs, congrArg Except.ok (alpha_wordValue hs.2)⟩
  · intro i j hi hj h
    exact alpha_injective hi hj (Except.ok.inj h)
  · rintro i j _ _ hi hj ⟨⟩ ⟨⟩
    exact lt_iff_alpha_precedes hj

theorem number_alpha_bijective_carrying :
    IsWord "zz" ∧ IsWord "aaa" ∧ IsWord "crpxnlskvljfhg" ∧
    number 702 "alpha" = .ok "zz" ∧ number 703 "alpha" = .ok "aaa" ∧
    number maxInteger "alpha" = .ok "crpxnlskvljfhg" ∧
    number 702 "alpha" ≠ number 703 "alpha" ∧
    ("zz".length < "aaa".length ∨ "zz".length = "aaa".length ∧ "zz" < "aaa") := by
  obtain ⟨_, hlabel, hdistinct, horder⟩ := number_alpha_bijective
  have hzz : IsWord "zz" := by decide
  have haaa : IsWord "aaa" := by decide
  have hlast : IsWord "crpxnlskvljfhg" := by decide
  have hvalue : wordValue "crpxnlskvljfhg" = maxInteger := by decide
  have hnext : number 702 "alpha" = .ok "zz" ∧ number 703 "alpha" = .ok "aaa" :=
    ⟨(hlabel "zz" hzz).2, (hlabel "aaa" haaa).2⟩
  refine ⟨hzz, haaa, hlast, hnext.1, hnext.2, ?_, ?_, ?_⟩
  · rw [← hvalue]
    exact (hlabel "crpxnlskvljfhg" hlast).2
  · intro h
    exact absurd (hdistinct 702 703 (by decide) (by decide) h) (by decide)
  · exact (horder 702 703 "zz" "aaa" (by decide) (by decide) hnext.1 hnext.2).1 (by decide)

end Labels

end Typesetter.Numbering

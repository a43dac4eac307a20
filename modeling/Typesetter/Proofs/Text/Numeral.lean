import Typesetter.Text.Blank
import Typesetter.Text.Numeral

namespace Typesetter.Text

theorem digitsValue_eq (s : List Char) : digitsValue s = Nat.ofDigitChars 10 s 0 := rfl

theorem readDigits?_toDigits (n : Nat) : readDigits? (Nat.toDigits 10 n) = some n := by
  have hall : (Nat.toDigits 10 n).all Char.isDigit :=
    List.all_eq_true.2 fun c hc => Nat.isDigit_of_mem_toDigits (by decide) (by decide) hc
  rw [readDigits?, if_pos ⟨Nat.toDigits_ne_nil, hall⟩, digitsValue_eq,
    Nat.ofDigitChars_toDigits (by decide) (by decide)]

theorem not_isBlank_of_isDigit {c : Char} (h : c.isDigit) : isBlank c = false := by
  simp only [Char.isDigit, Bool.and_eq_true, decide_eq_true_eq] at h
  have hlow : 48 ≤ c.toNat := h.1
  have hhigh : c.toNat ≤ 57 := h.2
  simp only [isBlank, blankRanges, List.any_cons, List.any_nil, Bool.or_eq_false_iff,
    Bool.and_eq_false_iff, decide_eq_false_iff_not, and_true]
  omega

theorem dropBlanks_eq_self {s : List Char} (h : ∀ c ∈ s, isBlank c = false) : dropBlanks s = s := by
  cases s with
  | nil => rfl
  | cons c s => rw [dropBlanks, List.dropWhile_cons, h c List.mem_cons_self]; rfl

theorem trim_eq_self {s : List Char} (h : ∀ c ∈ s, isBlank c = false) : trim s = s := by
  have hreverse : ∀ c ∈ s.reverse, isBlank c = false := fun c hc => h c (List.mem_reverse.1 hc)
  rw [trim, dropBlanks_eq_self h, dropBlanks_eq_self hreverse, List.reverse_reverse]

theorem splitSign_of_isDigit {s : List Char} (h : ∀ c ∈ s, c.isDigit) : splitSign s = (false, s) := by
  unfold splitSign
  split
  · cases h '+' List.mem_cons_self
  · cases h '-' List.mem_cons_self
  · rfl

theorem readInteger?_toString {n : Nat} (h : (n : Int) ≤ maxInteger) :
    readInteger? (trim (toString n).toList) = some (n : Int) := by
  have hdigits : ∀ c ∈ Nat.toDigits 10 n, c.isDigit := fun c hc =>
    Nat.isDigit_of_mem_toDigits (by decide) (by decide) hc
  have hrange : InRange (n : Int) := ⟨Int.le_trans (by decide) (Int.natCast_nonneg n), h⟩
  rw [Nat.toString_eq_ofList_toDigits, String.toList_ofList,
    trim_eq_self fun c hc => not_isBlank_of_isDigit (hdigits c hc), readInteger?,
    splitSign_of_isDigit hdigits]
  simp only [readDigits?_toDigits, Option.bind_some, inRange?]
  exact if_pos hrange

theorem trim_minus_toDigits (n : Nat) : trim ('-' :: Nat.toDigits 10 n) = '-' :: Nat.toDigits 10 n := by
  refine trim_eq_self fun c hc => ?_
  rcases List.mem_cons.1 hc with rfl | hc
  · decide
  · exact not_isBlank_of_isDigit (Nat.isDigit_of_mem_toDigits (by decide) (by decide) hc)

theorem readInteger?_minus {s : List Char} {n : Nat} (h : readDigits? s = some n) :
    readInteger? ('-' :: s) = inRange? (-n) := by
  rw [readInteger?]
  simp only [splitSign, h, Option.bind_some, if_true]

theorem toList_toString_negSucc (n : Nat) :
    (toString (Int.negSucc n)).toList = '-' :: Nat.toDigits 10 (n + 1) := by
  have hminus : (toString (Int.negSucc n) : String) = "-" ++ toString (n + 1) := rfl
  have hsign : "-".toList = ['-'] := rfl
  rw [hminus, String.toList_append, hsign, Nat.toString_eq_ofList_toDigits, String.toList_ofList,
    List.singleton_append]

theorem readInteger?_toString_int {i : Int} (h : InRange i) :
    readInteger? (trim (toString i).toList) = some i := by
  cases i with
  | ofNat n => exact readInteger?_toString h.2
  | negSucc n =>
    rw [toList_toString_negSucc, trim_minus_toDigits, readInteger?_minus (readDigits?_toDigits (n + 1))]
    exact inRange?_eq_some.2 ⟨h, rfl⟩

end Typesetter.Text

import Typesetter.Limits

namespace Typesetter.Text

def digitValue (c : Char) : Nat := c.toNat - '0'.toNat

def digitsValue (s : List Char) : Nat := s.foldl (fun n c => 10 * n + digitValue c) 0

def readDigits? (s : List Char) : Option Nat :=
  if s ≠ [] ∧ s.all Char.isDigit then some (digitsValue s) else none

def splitSign : List Char → Bool × List Char
  | '+' :: rest => (false, rest)
  | '-' :: rest => (true, rest)
  | s => (false, s)

def readInteger? (s : List Char) : Option Int :=
  let (negative, rest) := splitSign s
  (readDigits? rest).bind fun n => inRange? (if negative then -n else n)

def readCount? (s : List Char) : Option Nat :=
  let digits := match s with
    | '+' :: rest => rest
    | _ => s
  (readDigits? digits).filter (· < countLimit)

theorem readInteger?_inRange {s : List Char} {i : Int} (h : readInteger? s = some i) :
    InRange i := by
  simp only [readInteger?, Option.bind_eq_some_iff] at h
  obtain ⟨n, _, hn⟩ := h
  obtain ⟨hr, rfl⟩ := inRange?_eq_some.1 hn
  exact hr

end Typesetter.Text

import Typesetter.Fault

namespace Typesetter.Numbering

def romanDigits : List (Nat × String) :=
  [(1000, "m"), (900, "cm"), (500, "d"), (400, "cd"), (100, "c"), (90, "xc"), (50, "l"),
    (40, "xl"), (10, "x"), (9, "ix"), (5, "v"), (4, "iv"), (1, "i")]

def romanFrom : List (Nat × String) → Nat → String
  | [], _ => ""
  | (value, digits) :: rest, n =>
    String.join (List.replicate (n / value) digits) ++ romanFrom rest (n % value)

/-- Nothing is written outside of one to 3999. -/
def roman (n : Int) : String :=
  if 1 ≤ n ∧ n < 4000 then romanFrom romanDigits n.toNat else ""

def letter (i : Nat) : Char := Char.ofNat ('a'.toNat + i)

/-- Letters of a positive number, the last one first: a to z, then aa, ab and so on. -/
def lettersReversed : Nat → List Char
  | 0 => []
  | n + 1 => letter (n % 26) :: lettersReversed (n / 26)

def alpha (n : Int) : String := String.ofList (lettersReversed n.toNat).reverse

def upper (s : String) : String := String.ofList (s.toList.map Char.toUpper)

def footnoteMarks : List String := ["*", "†", "‡", "§", "¶", "‖"]

def maxRepeat : Nat := 16

/-- Each round through the marks repeats them once more. -/
def footnoteMark (n : Int) : Except Fault String :=
  if n ≤ 0 then .ok ""
  else
    let i := (n - 1).toNat
    let times := i / footnoteMarks.length + 1
    if maxRepeat < times then .error (Cause.noFootnoteMark n)
    else
      let mark := footnoteMarks.getD (i % footnoteMarks.length) ""
      .ok (String.join (List.replicate times mark))

def number (n : Int) (style : String) : Except Fault String :=
  match style with
  | "arabic" => .ok (toString n)
  | "roman" => .ok (roman n)
  | "Roman" => .ok (upper (roman n))
  | "alpha" => .ok (alpha n)
  | "Alpha" => .ok (upper (alpha n))
  | "fnsymbol" => footnoteMark n
  | other => .error (Cause.unknownNumbering other)

end Typesetter.Numbering

import Typesetter.Text.Numeral

namespace Typesetter.Decimal

open Text

structure Numeral where
  whole : List Char
  part : List Char
  exponent : Int
  deriving DecidableEq, Repr

def readExponent? : List Char → Option Int
  | [] => some 0
  | e :: rest =>
    if e = 'e' ∨ e = 'E' then
      let (negative, digits) := splitSign rest
      (readDigits? digits).map fun n => if negative then -n else n
    else none

namespace Numeral

def read? (s : List Char) : Option Numeral :=
  let whole := s.takeWhile Char.isDigit
  let afterWhole := s.dropWhile Char.isDigit
  let (part, afterPart) := match afterWhole with
    | '.' :: rest => (rest.takeWhile Char.isDigit, rest.dropWhile Char.isDigit)
    | _ => ([], afterWhole)
  if whole = [] ∧ part = [] then none
  else (readExponent? afterPart).map fun exponent => { whole, part, exponent }

/-- The nearest double. An exponent that puts the value beyond every double is not computed. -/
def toFloat (d : Numeral) : Float :=
  let digits := (d.whole ++ d.part).dropWhile (· = '0')
  let exponent := d.exponent - d.part.length
  let top := digits.length + exponent
  if digits = [] ∨ top < -400 then 0.0
  else if 400 < top then 1.0 / 0.0
  else Float.ofScientific (digitsValue digits) (exponent < 0) exponent.natAbs

end Numeral

def lower (s : List Char) : String := String.ofList (s.map Char.toLower)

def readMagnitude? (s : List Char) : Option Float :=
  if lower s = "inf" ∨ lower s = "infinity" then some (1.0 / 0.0)
  else if lower s = "nan" then some (0.0 / 0.0)
  else (Numeral.read? s).map Numeral.toFloat

def readFloat? (s : List Char) : Option Float :=
  let (negative, rest) := splitSign s
  (readMagnitude? rest).map fun x => if negative then -x else x

end Typesetter.Decimal

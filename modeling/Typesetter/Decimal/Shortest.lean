import Typesetter.Decimal.Binary
/-!
Writing doubles with the fewest digits that read back to the same double. Of the decimals with that
many digits the nearest is taken, and of two that are equally near the larger.
-/

namespace Typesetter.Decimal

/-- A magnitude and the reals that round to it, over one denominator. -/
structure Rounding where
  value : Nat
  low : Nat
  high : Nat
  denominator : Nat
  closed : Bool

namespace Rounding

/-- A power of two has a nearer neighbour below than above, but for the least normal one. -/
def ofBinary (significand : Nat) (exponent : Int) : Rounding :=
  let scale := 1 <<< (exponent - 2).toNat
  let below := if significand = Binary.leadingBit ∧ -1074 < exponent then 1 else 2
  { value := 4 * significand * scale
    low := (4 * significand - below) * scale
    high := (4 * significand + 2) * scale
    denominator := 1 <<< (2 - exponent).toNat
    closed := significand % 2 = 0 }

def onGrid (r : Rounding) (power : Int) : Rounding :=
  let up := Nat.pow 10 (-power).toNat
  { r with
    value := r.value * up
    low := r.low * up
    high := r.high * up
    denominator := r.denominator * Nat.pow 10 power.toNat }

def admits (r : Rounding) (n : Nat) : Bool :=
  let x := n * r.denominator
  if r.closed then r.low ≤ x && x ≤ r.high else r.low < x && x < r.high

def nearest? (r : Rounding) : Option Nat :=
  let below := r.value / r.denominator
  let above := below + 1
  match r.admits below, r.admits above with
  | false, false => none
  | true, false => some below
  | false, true => some above
  | true, true =>
    if r.value - below * r.denominator < above * r.denominator - r.value then some below
    else some above

/-- Seventeen digits always suffice, so the search ends before its steps do. -/
def search (r : Rounding) : Nat → Int → Nat × Int
  | 0, power => (r.value / r.denominator, power)
  | steps + 1, power =>
    match (r.onGrid power).nearest? with
    | some n => (n, power)
    | none => search r steps (power - 1)

end Rounding

def shortest (significand : Nat) (exponent : Int) : Nat × Int :=
  let top := Int.fdiv ((significand.log2 + exponent) * 30103) 100000 + 2
  (Rounding.ofBinary significand exponent).search 24 top

def positional (digits : Nat) (power : Int) : String :=
  if 0 ≤ power then
    toString (digits * Nat.pow 10 power.toNat)
  else
    let places := (-power).toNat
    let text := (Nat.toDigits 10 digits)
    let padded := List.replicate (places + 1 - text.length) '0' ++ text
    let split := padded.length - places
    String.ofList (padded.take split ++ '.' :: padded.drop split)

def signText (negative : Bool) : String := if negative then "-" else ""

def Binary.text : Binary → String
  | .nan => "NaN"
  | .infinite negative => signText negative ++ "inf"
  | .finite negative m e =>
    if m = 0 then signText negative ++ "0"
    else
      let (digits, power) := shortest m e
      signText negative ++ positional digits power

def text (x : Float) : String := (Binary.ofFloat x).text

end Typesetter.Decimal

import Typesetter.Limits
/-!
Doubles taken apart. A finite double is a sign, a significand and a power of two; rounding to an
integer is exact arithmetic on these.
-/

namespace Typesetter.Decimal

inductive Binary where
  | nan
  | infinite (negative : Bool)
  | finite (negative : Bool) (significand : Nat) (exponent : Int)
  deriving DecidableEq, Repr

namespace Binary

def leadingBit : Nat := 0x10000000000000

def ofBits (bits : Nat) : Binary :=
  let negative := bits.testBit 63
  let exponent : Nat := bits / leadingBit % 0x800
  let fraction : Nat := bits % leadingBit
  if exponent = 2047 then
    if fraction = 0 then infinite negative else nan
  else if exponent = 0 then
    finite negative fraction (-1074)
  else
    finite negative (fraction + leadingBit) ((exponent : Int) - 1075)

def ofFloat (x : Float) : Binary := ofBits x.toBits.toNat

def isFinite : Binary → Bool
  | finite .. => true
  | _ => false

def fraction (significand : Nat) (exponent : Int) : Nat × Nat :=
  (significand <<< exponent.toNat, 1 <<< (-exponent).toNat)

def isInteger : Binary → Bool
  | finite _ m e => let (n, d) := fraction m e; n % d = 0
  | _ => false

def signed (negative : Bool) (n : Nat) : Int := if negative then -n else n

/-- Infinities go to the limits and what is no number goes to zero. -/
def toInteger (magnitude : Nat → Nat → Nat) : Binary → Int
  | nan => 0
  | infinite negative => if negative then minInteger else maxInteger
  | finite negative m e =>
    let (n, d) := fraction m e
    saturate (signed negative (magnitude n d))

theorem toInteger_inRange (f : Nat → Nat → Nat) (b : Binary) : InRange (toInteger f b) := by
  cases b with
  | nan => exact (by decide : InRange 0)
  | infinite s =>
    cases s with
    | false => exact (by decide : InRange maxInteger)
    | true => exact (by decide : InRange minInteger)
  | finite s m e => exact saturate_inRange _

end Binary

def isFinite (x : Float) : Bool := (Binary.ofFloat x).isFinite

def roundHalfAway (x : Float) : Int :=
  (Binary.ofFloat x).toInteger fun n d => (2 * n + d) / (2 * d)

def truncate (x : Float) : Int := (Binary.ofFloat x).toInteger fun n d => n / d

theorem roundHalfAway_inRange (x : Float) : InRange (roundHalfAway x) :=
  Binary.toInteger_inRange _ _

end Typesetter.Decimal

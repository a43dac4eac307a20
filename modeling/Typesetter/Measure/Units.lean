import Typesetter.Decimal.Reading
import Typesetter.Decimal.Shortest
import Typesetter.Text.Blank
import Typesetter.Tree.Basic
/-!
Lengths are integers in tmpt. A pixel has 256 tmpt and an inch as many pixels as the resolution
says; font, line, paragraph and page units follow the state of the document.
-/

namespace Typesetter

open Text Decimal

inductive LengthUnit where
  | tmpt | px | inch | pt | bp | mm | cm
  | font | ex | spc
  | line | par | page
  deriving DecidableEq, Repr

/-- A missing unit means tmpt. -/
def LengthUnit.ofName? (name : String) : Option LengthUnit :=
  match name with
  | "" | "tmpt" => some tmpt
  | "px" => some px
  | "in" => some inch
  | "pt" => some pt
  | "bp" => some bp
  | "mm" => some mm
  | "cm" => some cm
  | "fn" | "em" => some font
  | "ex" => some ex
  | "spc" => some spc
  | "ln" => some line
  | "par" => some par
  | "pag" => some page
  | _ => none

def pixel : Int := 256

@[ext] structure Units where
  inch : Float
  font : Float
  line : Float
  par : Float
  page : Float

structure Space where
  least : Int
  natural : Int
  most : Int
  deriving DecidableEq, Repr, Inhabited

structure Point where
  x : Int
  y : Int
  deriving DecidableEq, Repr, Inhabited

namespace Units

/-- The units at a resolution, with a font of ten points and paper of format A4. -/
def ofDpi (dpi : Int) : Units :=
  let inch := Float.ofInt (wrap (dpi * pixel))
  { inch
    font := 10.0 * inch / 72.27
    line := Float.ofInt pixel
    par := 15.0 * (inch / 2.54)
    page := 29.7 * (inch / 2.54) }

def size (u : Units) : LengthUnit → Float
  | .tmpt => 1.0
  | .px => Float.ofInt pixel
  | .inch => u.inch
  | .pt => u.inch / 72.27
  | .bp => u.inch / 72.0
  | .mm => u.inch / 25.4
  | .cm => u.inch / 2.54
  | .font => u.font
  | .ex => u.font * 0.5
  | .spc => u.font * 0.25
  | .line => u.line
  | .par => u.par
  | .page => u.page

end Units

namespace Length

def split? (s : List Char) : Option (Float × String) :=
  let (negative, unsigned) := splitSign (trim s)
  let isPart := fun c : Char => c.isDigit || c = '.'
  let unit := dropBlanks (unsigned.dropWhile isPart)
  if unit.all Char.isAlpha then
    (Numeral.read? (unsigned.takeWhile isPart)).map fun amount =>
      (if negative then -amount.toFloat else amount.toFloat, String.ofList unit)
  else none

def isLength (s : List Char) : Bool :=
  match split? s with
  | some (_, unit) => unit ≠ "" && (LengthUnit.ofName? unit).isSome
  | none => false

def text (tmpt : Int) : String := toString tmpt ++ "tmpt"

end Length

namespace Units

def unit? (u : Units) (name : String) : Option Float := (LengthUnit.ofName? name).map u.size

def length? (u : Units) (s : List Char) : Option Int := do
  let (amount, unit) ← Length.split? s
  let size ← u.unit? unit
  return roundHalfAway (amount * size)

/-- The space between words shrinks to two thirds and stretches to one and a half of its width; a
length with a star is all stretch; any other length is rigid. -/
def space? (u : Units) (s : List Char) : Option Space :=
  let s := trim s
  if s.getLast? = some '*' then
    (u.length? s.dropLast).map fun most => ⟨0, 0, most⟩
  else
    (Length.split? s).bind fun (amount, unit) =>
      if unit = "spc" then
        let natural := amount * u.size .spc
        some ⟨roundHalfAway (natural * 2.0 / 3.0), roundHalfAway natural,
          roundHalfAway (natural * 1.5)⟩
      else (u.length? s).map fun n => ⟨n, n, n⟩

def labelLength? (u : Units) (t : Tree) : Option Int :=
  t.label?.bind fun s => u.length? s.toList

def point? (u : Units) : Tree → Option Point
  | .node (.prim .point) [x, y] | .node (.prim .tuple) [x, y] => do
    return ⟨← u.labelLength? x, ← u.labelLength? y⟩
  | _ => none

def addLengths? (u : Units) (a b : List Char) : Option String := do
  let x ← u.length? a
  let y ← u.length? b
  let sum ← inRange? (x + y)
  return Length.text sum

def multiplyLength? (u : Units) (factor : Float) (a : List Char) : Option String :=
  (u.length? a).map fun n => Length.text (roundHalfAway (factor * Float.ofInt n))

def divideLengths? (u : Units) (a b : List Char) : Option Float := do
  let divisor ← u.length? b
  if divisor = 0 then none
  else return Float.ofInt (← u.length? a) / Float.ofInt divisor

end Units

end Typesetter

import Typesetter.Derived.Style
import Typesetter.Derived.Variable
import Typesetter.Measure.Color
import Typesetter.Measure.Units
import Typesetter.Settings.InactiveMode
/-!
The derived state: what the system variables mean. A malformed value means the same as none.
-/

namespace Typesetter

open Text Decimal

@[ext] structure Font where
  name : String := "roman"
  family : String := "rm"
  series : String := "medium"
  shape : String := "right"
  size : Float := 1.0
  baseSize : Float := 10.0

def Font.effectiveSize (f : Font) : Float := f.size * f.baseSize

structure GraphicsFrame where
  unit : Int
  origin : Point
  deriving DecidableEq, Repr

namespace GraphicsFrame

def standard (u : Units) : GraphicsFrame := ⟨roundHalfAway (u.size .cm), ⟨0, 0⟩⟩

/-- A frame is written as the word scale, a length and a point. -/
def read? (u : Units) : Tree → Option GraphicsFrame
  | .node (.prim .tuple) [.atom "scale", unit, origin] => do
    return ⟨← u.labelLength? unit, ← u.point? origin⟩
  | _ => none

end GraphicsFrame

def SystemVariable.Field : SystemVariable → Type
  | magnification | fontSize | fontBaseSize => Float
  | mode => Mode
  | language | font | fontFamily | fontSeries | fontShape => String
  | mathLevel | mathVpos | lineWidth | parWidth | pageHeight => Int
  | mathDisplay | mathCondensed | preamble => Bool
  | color => Color
  | frame => GraphicsFrame
  | clipLim1 | clipLim2 => Point
  | srcStyle => SourceStyle
  | srcSpecial => SourceSpecial
  | srcCompact => SourceCompact
  | srcClose => SourceClose
  | inactiveMode => InactiveMode

@[ext] structure Derived where
  dpi : Int
  magnification : Float
  mode : Mode
  language : String
  font : Font
  indexLevel : Int
  displayStyle : Bool
  mathCondensed : Bool
  vertPos : Int
  color : Color
  lineWidth : Int
  parWidth : Int
  pageHeight : Int
  preamble : Bool
  frame : GraphicsFrame
  clipLim1 : Point
  clipLim2 : Point
  srcStyle : SourceStyle
  srcSpecial : SourceSpecial
  srcCompact : SourceCompact
  srcClose : SourceClose
  inactiveMode : InactiveMode
  defaultInactiveMode : InactiveMode

namespace Derived

def fresh (dpi : Int) (mode : InactiveMode) : Derived :=
  let units := Units.ofDpi dpi
  { dpi
    magnification := 1.0
    mode := .text
    language := "english"
    font := {}
    indexLevel := 0
    displayStyle := false
    mathCondensed := false
    vertPos := 0
    color := .black
    lineWidth := pixel
    parWidth := roundHalfAway units.par
    pageHeight := roundHalfAway units.page
    preamble := false
    frame := .standard units
    clipLim1 := ⟨0, 0⟩
    clipLim2 := ⟨0, 0⟩
    srcStyle := default
    srcSpecial := default
    srcCompact := default
    srcClose := default
    inactiveMode := mode
    defaultInactiveMode := mode }

def units (d : Derived) : Units :=
  let inch := Float.ofInt (wrap (d.dpi * pixel))
  { inch
    font := d.font.effectiveSize * d.magnification * inch / 72.27
    line := Float.ofInt d.lineWidth
    par := Float.ofInt d.parWidth
    page := Float.ofInt d.pageHeight }

def positive? (s : String) : Option Float :=
  (readFloat? (trim s.toList)).filter fun x => isFinite x && 0.0 < x

def integerOrZero (s : String) : Int := (readInteger? (trim s.toList)).getD 0

def wordOr (s usual : String) : String := if s = "" then usual else s

def decode (d : Derived) (v : SystemVariable) (value : Tree) : v.Field :=
  let s := value.label?.getD ""
  let usual := fresh d.dpi d.defaultInactiveMode
  let length? := d.units.length? s.toList
  match v with
  | .magnification => (positive? s).getD usual.magnification
  | .mode => .ofWord s
  | .language => wordOr s usual.language
  | .font => wordOr s usual.font.name
  | .fontFamily => wordOr s usual.font.family
  | .fontSeries => wordOr s usual.font.series
  | .fontShape => wordOr s usual.font.shape
  | .fontSize => (positive? s).getD usual.font.size
  | .fontBaseSize => (positive? s).getD usual.font.baseSize
  | .mathLevel => integerOrZero s
  | .mathDisplay => s == "true"
  | .mathCondensed => s == "true"
  | .mathVpos => integerOrZero s
  | .color => (Color.read? s).getD usual.color
  | .lineWidth => length?.getD usual.lineWidth
  | .parWidth => length?.getD usual.parWidth
  | .pageHeight => length?.getD usual.pageHeight
  | .preamble => s == "true"
  | .frame => (GraphicsFrame.read? d.units value).getD usual.frame
  | .clipLim1 => (d.units.point? value).getD ⟨0, 0⟩
  | .clipLim2 => (d.units.point? value).getD ⟨0, 0⟩
  | .srcStyle => .ofWord s
  | .srcSpecial => .ofWord s
  | .srcCompact => .ofWord s
  | .srcClose => .ofWord s
  | .inactiveMode => (InactiveMode.ofName? s).getD d.defaultInactiveMode

def field (d : Derived) : (v : SystemVariable) → v.Field
  | .magnification => d.magnification
  | .mode => d.mode
  | .language => d.language
  | .font => d.font.name
  | .fontFamily => d.font.family
  | .fontSeries => d.font.series
  | .fontShape => d.font.shape
  | .fontSize => d.font.size
  | .fontBaseSize => d.font.baseSize
  | .mathLevel => d.indexLevel
  | .mathDisplay => d.displayStyle
  | .mathCondensed => d.mathCondensed
  | .mathVpos => d.vertPos
  | .color => d.color
  | .lineWidth => d.lineWidth
  | .parWidth => d.parWidth
  | .pageHeight => d.pageHeight
  | .preamble => d.preamble
  | .frame => d.frame
  | .clipLim1 => d.clipLim1
  | .clipLim2 => d.clipLim2
  | .srcStyle => d.srcStyle
  | .srcSpecial => d.srcSpecial
  | .srcCompact => d.srcCompact
  | .srcClose => d.srcClose
  | .inactiveMode => d.inactiveMode

def setField (d : Derived) : (v : SystemVariable) → v.Field → Derived
  | .magnification, x => { d with magnification := x }
  | .mode, x => { d with mode := x }
  | .language, x => { d with language := x }
  | .font, x => { d with font.name := x }
  | .fontFamily, x => { d with font.family := x }
  | .fontSeries, x => { d with font.series := x }
  | .fontShape, x => { d with font.shape := x }
  | .fontSize, x => { d with font.size := x }
  | .fontBaseSize, x => { d with font.baseSize := x }
  | .mathLevel, x => { d with indexLevel := x }
  | .mathDisplay, x => { d with displayStyle := x }
  | .mathCondensed, x => { d with mathCondensed := x }
  | .mathVpos, x => { d with vertPos := x }
  | .color, x => { d with color := x }
  | .lineWidth, x => { d with lineWidth := x }
  | .parWidth, x => { d with parWidth := x }
  | .pageHeight, x => { d with pageHeight := x }
  | .preamble, x => { d with preamble := x }
  | .frame, x => { d with frame := x }
  | .clipLim1, x => { d with clipLim1 := x }
  | .clipLim2, x => { d with clipLim2 := x }
  | .srcStyle, x => { d with srcStyle := x }
  | .srcSpecial, x => { d with srcSpecial := x }
  | .srcCompact, x => { d with srcCompact := x }
  | .srcClose, x => { d with srcClose := x }
  | .inactiveMode, x => { d with inactiveMode := x }

def apply (d : Derived) (v : SystemVariable) (value : Tree) : Derived :=
  d.setField v (d.decode v value)

def applyAll (d : Derived) (vs : List SystemVariable) (read : String → Tree) : Derived :=
  vs.foldl (fun d v => d.apply v (read v.name)) d

/-- What a change of one variable brings about. A variable that rescales a unit changes the lengths
of the others. -/
def update (d : Derived) (name : String) (read : String → Tree) : Derived :=
  match SystemVariable.ofName? name with
  | none => d
  | some v =>
    let d := d.apply v (read name)
    if v.affectsUnits then
      d.applyAll (SystemVariable.unitDependent.filter (· ≠ v)) read
    else d

/-- Read every variable again, and then those that hold lengths once more. -/
def updateAll (d : Derived) (order : SystemVariable.Order) (read : String → Tree) : Derived :=
  (d.applyAll order.list read).applyAll SystemVariable.unitDependent read

end Derived

end Typesetter

import Typesetter.Measure.Units

namespace Typesetter

open Decimal

structure PageGeometry where
  width : Int
  height : Int
  oddMargin : Int
  evenMargin : Int
  rightMargin : Int
  topMargin : Int
  bottomMargin : Int
  deriving DecidableEq, Repr

namespace PageGeometry

def standard (u : Units) : PageGeometry :=
  let cm := fun x : Float => roundHalfAway (x * (u.inch / 2.54))
  { width := cm 21.0
    height := cm 29.7
    oddMargin := cm 2.5
    evenMargin := cm 2.5
    rightMargin := cm 2.5
    topMargin := cm 3.0
    bottomMargin := cm 3.0 }

/-- A malformed variable leaves the standard value. -/
def ofVariables (u : Units) (read : String → Tree) : PageGeometry :=
  let usual := standard u
  let get := fun (name : String) (value : Int) => (u.labelLength? (read name)).getD value
  { width := get "page-width" usual.width
    height := get "page-height" usual.height
    oddMargin := get "page-odd" usual.oddMargin
    evenMargin := get "page-even" usual.evenMargin
    rightMargin := get "page-right" usual.rightMargin
    topMargin := get "page-top" usual.topMargin
    bottomMargin := get "page-bot" usual.bottomMargin }

def textWidth (p : PageGeometry) : Int := wrap (p.width - p.oddMargin - p.rightMargin)

def textHeight (p : PageGeometry) : Int := wrap (p.height - p.topMargin - p.bottomMargin)

end PageGeometry

end Typesetter

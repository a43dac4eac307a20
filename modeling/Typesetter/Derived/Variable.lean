namespace Typesetter

inductive SystemVariable where
  | magnification | mode | language
  | font | fontFamily | fontSeries | fontShape | fontSize | fontBaseSize
  | mathLevel | mathDisplay | mathCondensed | mathVpos
  | color | lineWidth | parWidth | pageHeight | preamble
  | frame | clipLim1 | clipLim2
  | srcStyle | srcSpecial | srcCompact | srcClose | inactiveMode
  deriving DecidableEq, Repr

namespace SystemVariable

def all : List SystemVariable :=
  [magnification, mode, language, font, fontFamily, fontSeries, fontShape, fontSize, fontBaseSize,
    mathLevel, mathDisplay, mathCondensed, mathVpos, color, lineWidth, parWidth, pageHeight,
    preamble, frame, clipLim1, clipLim2, srcStyle, srcSpecial, srcCompact, srcClose, inactiveMode]

def name : SystemVariable → String
  | magnification => "magnification"
  | mode => "mode"
  | language => "language"
  | font => "font"
  | fontFamily => "font-family"
  | fontSeries => "font-series"
  | fontShape => "font-shape"
  | fontSize => "font-size"
  | fontBaseSize => "font-base-size"
  | mathLevel => "math-level"
  | mathDisplay => "math-display"
  | mathCondensed => "math-condensed"
  | mathVpos => "math-vpos"
  | color => "color"
  | lineWidth => "line-width"
  | parWidth => "par-width"
  | pageHeight => "page-height"
  | preamble => "preamble"
  | frame => "gr-frame"
  | clipLim1 => "gr-clip-lim1"
  | clipLim2 => "gr-clip-lim2"
  | srcStyle => "src-style"
  | srcSpecial => "src-special"
  | srcCompact => "src-compact"
  | srcClose => "src-close"
  | inactiveMode => "inactive-mode"

def ofName? (name : String) : Option SystemVariable := all.find? (·.name = name)

def affectsUnits : SystemVariable → Bool
  | magnification | fontSize | fontBaseSize | lineWidth | parWidth | pageHeight => true
  | mode | language | font | fontFamily | fontSeries | fontShape
  | mathLevel | mathDisplay | mathCondensed | mathVpos | color | preamble
  | frame | clipLim1 | clipLim2 | srcStyle | srcSpecial | srcCompact | srcClose
  | inactiveMode => false

/-- The variables that hold lengths, in the order in which a change of units reaches them. -/
def unitDependent : List SystemVariable :=
  [parWidth, pageHeight, lineWidth, frame, clipLim1, clipLim2]

structure Order where
  list : List SystemVariable
  perm : list.Perm all

/-- The order of the hash table that the variables are kept in. -/
def Order.table : Order where
  list := [frame, clipLim2, fontSize, pageHeight, srcCompact, font, fontFamily, mode, mathCondensed,
    mathDisplay, mathVpos, preamble, lineWidth, magnification, language, mathLevel, srcSpecial, parWidth,
    color, srcClose, inactiveMode, clipLim1, srcStyle, fontSeries, fontBaseSize, fontShape]
  perm := by decide

theorem mem_all (v : SystemVariable) : v ∈ all := by
  cases v <;> decide

theorem Order.mem (order : Order) (v : SystemVariable) : v ∈ order.list :=
  order.perm.mem_iff.2 v.mem_all

theorem ofName?_name (v : SystemVariable) : ofName? v.name = some v := by
  cases v <;> decide

theorem name_of_ofName? {name : String} {v : SystemVariable} (h : ofName? name = some v) :
    v.name = name := by
  simpa using List.find?_some h

end SystemVariable

end Typesetter

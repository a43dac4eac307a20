import Typesetter.Settings.InactiveMode
import Typesetter.Tree.Basic

namespace Typesetter

def standardPoint (x y : String) : Tree := .node Primitive.point [.atom x, .atom y]

def standardFrame : Tree := .tuple [.atom "scale", .atom "1cm", .tuple [.atom "0cm", .atom "0cm"]]

def standardVariables (mode : InactiveMode) : List (String × Tree) :=
  [("magnification", .atom "1"),
    ("mode", .atom "text"),
    ("language", .atom "english"),
    ("font", .atom "roman"),
    ("font-family", .atom "rm"),
    ("font-series", .atom "medium"),
    ("font-shape", .atom "right"),
    ("font-size", .atom "1"),
    ("font-base-size", .atom "10"),
    ("math-level", .atom "0"),
    ("math-display", .atom "false"),
    ("math-condensed", .atom "false"),
    ("math-vpos", .atom "0"),
    ("color", .atom "black"),
    ("line-width", .atom "1px"),
    ("par-width", .atom "15cm"),
    ("preamble", .atom "false"),
    ("gr-frame", standardFrame),
    ("gr-clip-lim1", standardPoint "0cm" "0cm"),
    ("gr-clip-lim2", standardPoint "15cm" "10cm"),
    ("src-style", .atom "angular"),
    ("src-special", .atom "normal"),
    ("src-compact", .atom "normal"),
    ("src-close", .atom "long"),
    ("inactive-mode", .atom mode.name),
    ("page-width", .atom "21cm"),
    ("page-height", .atom "29.7cm"),
    ("page-odd", .atom "2.5cm"),
    ("page-even", .atom "2.5cm"),
    ("page-right", .atom "2.5cm"),
    ("page-top", .atom "3cm"),
    ("page-bot", .atom "3cm")]

end Typesetter

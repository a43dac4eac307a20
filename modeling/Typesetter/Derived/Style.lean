/-!
Choices that system variables make by a word. Any other word makes the usual choice.
-/

namespace Typesetter

inductive Mode where
  | text
  | math
  | prog
  | src
  deriving DecidableEq, Repr, Inhabited

def Mode.ofWord : String → Mode
  | "math" => math
  | "prog" => prog
  | "src" => src
  | _ => text

inductive SourceStyle where
  | angular
  | scheme
  | latex
  | functional
  deriving DecidableEq, Repr, Inhabited

def SourceStyle.ofWord : String → SourceStyle
  | "scheme" => scheme
  | "latex" => latex
  | "functional" => functional
  | _ => angular

inductive SourceSpecial where
  | raw
  | format
  | normal
  | maximal
  deriving DecidableEq, Repr

instance : Inhabited SourceSpecial := ⟨.normal⟩

def SourceSpecial.ofWord : String → SourceSpecial
  | "raw" => raw
  | "format" => format
  | "maximal" => maximal
  | _ => normal

/-- When the source view keeps a tag on one line. -/
inductive SourceCompact where
  /-- Always. -/
  | all
  /-- Unless an argument is a document. -/
  | inline
  /-- Unless an argument is a document and the tag is a line of its own. -/
  | normal
  /-- Unless the tag is a line of its own. -/
  | none
  deriving DecidableEq, Repr

instance : Inhabited SourceCompact := ⟨.normal⟩

def SourceCompact.ofWord : String → SourceCompact
  | "all" => all
  | "inline" => inline
  | "none" => none
  | _ => normal

inductive SourceClose where
  | compact
  | long
  | repeat
  deriving DecidableEq, Repr

instance : Inhabited SourceClose := ⟨.long⟩

def SourceClose.ofWord : String → SourceClose
  | "compact" | "minimal" => compact
  | "repeat" => .repeat
  | _ => long

end Typesetter

/-!
Paths. A relative name is resolved next to the file that mentions it, and no name leads above the
root.
-/

namespace Typesetter.Path

def limit : Nat := 4095

def partLimit : Nat := 255

def pieces (path : String) : List String := (path.toList.splitOn '/').map String.ofList

def isPart (piece : String) : Bool := piece ≠ "" && piece ≠ "."

def components (path : String) : List String := (pieces path).filter isPart

def isAbsolute (path : String) : Bool := path.toList.head? = some '/'

/-- Go into a directory, or one level up if there is one. The innermost directory comes first. -/
def enter (directory : List String) (part : String) : List String :=
  if part = ".." then directory.tail else part :: directory

def collapse (parts : List String) : List String := (parts.foldl enter []).reverse

/-- An absolute name stays as it is. -/
def resolve (base relative : String) : String :=
  if isAbsolute relative then relative
  else
    let baseParts := components base
    let joined := String.intercalate "/" (collapse (baseParts.dropLast ++ components relative))
    if isAbsolute base && baseParts ≠ [] then "/" ++ joined else joined

end Typesetter.Path

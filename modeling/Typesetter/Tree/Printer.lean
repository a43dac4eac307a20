import Typesetter.Text.Blank
import Typesetter.Tree.Basic

namespace Typesetter.Tree

open Text

def isDelimiter (c : Char) : Bool :=
  isBlank c || c = '(' || c = ')' || c = '"' || c = ';'

def isBare (s : List Char) : Bool :=
  s ≠ [] && s.all fun c => !isDelimiter c && c ≠ '\\'

def escape (c : Char) : List Char :=
  if c = '"' then ['\\', '"']
  else if c = '\\' then ['\\', '\\']
  else if c = '\n' then ['\\', 'n']
  else if c = '\t' then ['\\', 't']
  else [c]

def quoted (s : List Char) : List Char := '"' :: (s.flatMap escape ++ ['"'])

def labelChars (s : List Char) : List Char := if isBare s then s else quoted s

mutual

def charsBefore : Tree → List Char → List Char
  | atom s, rest => labelChars s.toList ++ rest
  | node tag cs, rest => '(' :: (tag.name.toList ++ charsBeforeList cs (')' :: rest))

def charsBeforeList : List Tree → List Char → List Char
  | [], rest => rest
  | c :: cs, rest => ' ' :: charsBefore c (charsBeforeList cs rest)

end

def chars (t : Tree) : List Char := t.charsBefore []

def text (t : Tree) : String := String.ofList t.chars

instance : ToString Tree := ⟨text⟩

end Typesetter.Tree

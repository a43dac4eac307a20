import Typesetter.Tree.Basic

namespace Typesetter.Tree

def hexDigit (n : Nat) : Char := (Nat.toDigits 16 n).headD '0'

def jsonEscape (c : Char) : List Char :=
  if c = '"' then ['\\', '"']
  else if c = '\\' then ['\\', '\\']
  else if c = '\n' then ['\\', 'n']
  else if c = '\r' then ['\\', 'r']
  else if c = '\t' then ['\\', 't']
  else if c = '\x08' then ['\\', 'b']
  else if c = '\x0c' then ['\\', 'f']
  else if c.toNat < 0x20 then ['\\', 'u', '0', '0', hexDigit (c.toNat / 16), hexDigit (c.toNat % 16)]
  else [c]

def jsonString (s : String) (rest : List Char) : List Char :=
  '"' :: (s.toList.flatMap jsonEscape ++ '"' :: rest)

def newline (indent : Nat) (rest : List Char) : List Char :=
  '\n' :: (List.replicate (2 * indent) ' ' ++ rest)

mutual

def jsonBefore (indent : Nat) : Tree → List Char → List Char
  | atom s, rest => jsonString s rest
  | node tag cs, rest =>
    let tail := ',' :: newline (indent + 1) ("\"tag\": ".toList
      ++ jsonString tag.name (newline indent ('\x7d' :: rest)))
    '\x7b' :: newline (indent + 1) ("\"children\": ".toList ++ match cs with
      | [] => '[' :: ']' :: tail
      | c :: cs =>
        '[' :: newline (indent + 2) (jsonBefore (indent + 2) c
          (jsonItems (indent + 2) cs (newline (indent + 1) (']' :: tail)))))

def jsonItems (indent : Nat) : List Tree → List Char → List Char
  | [], rest => rest
  | c :: cs, rest => ',' :: newline indent (jsonBefore indent c (jsonItems indent cs rest))

end

def json (t : Tree) : String := String.ofList (t.jsonBefore 0 [])

end Typesetter.Tree

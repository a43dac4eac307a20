namespace Typesetter

structure Color where
  red : UInt8
  green : UInt8
  blue : UInt8
  alpha : UInt8 := 255
  deriving DecidableEq, Repr

namespace Color

def black : Color := { red := 0, green := 0, blue := 0 }

def solid (r g b : UInt8) : Color := { red := r, green := g, blue := b }

def named : List (String × Color) :=
  [("black", black), ("white", solid 255 255 255), ("grey", solid 184 184 184),
    ("gray", solid 184 184 184), ("light grey", solid 208 208 208),
    ("dark grey", solid 112 112 112), ("red", solid 255 0 0), ("green", solid 0 255 0),
    ("blue", solid 0 0 255), ("yellow", solid 255 255 0), ("magenta", solid 255 0 255),
    ("cyan", solid 0 255 255), ("orange", solid 255 128 0), ("brown", solid 128 32 0),
    ("pink", solid 255 128 128), ("dark red", solid 128 0 0),
    ("dark green", solid 0 128 0), ("dark blue", solid 0 0 128)]

def hexValue? (c : Char) : Option Nat :=
  if c.isDigit then some (c.toNat - '0'.toNat)
  else if 'a' ≤ c ∧ c ≤ 'f' then some (c.toNat - 'a'.toNat + 10)
  else if 'A' ≤ c ∧ c ≤ 'F' then some (c.toNat - 'A'.toNat + 10)
  else none

def component? (a b : Char) : Option UInt8 := do
  let low ← hexValue? b
  let high ← if a = '+' then some 0 else hexValue? a
  return UInt8.ofNat (16 * high + low)

def ofHex? (s : List Char) : Option Color :=
  match s.dropWhile (· = '#') with
  | [r, g, b] => do
    return { red := ← component? r r, green := ← component? g g, blue := ← component? b b }
  | [r, r', g, g', b, b'] => do
    return { red := ← component? r r', green := ← component? g g', blue := ← component? b b' }
  | [r, r', g, g', b, b', a, a'] => do
    return {
      red := ← component? r r', green := ← component? g g', blue := ← component? b b',
      alpha := ← component? a a' }
  | _ => none

def read? (s : String) : Option Color :=
  match s.toList with
  | '#' :: rest => ofHex? ('#' :: rest)
  | _ => named.lookup s

def hexDigit (n : Nat) : Char := (Nat.toDigits 16 n).headD '0'

def hexByte (b : UInt8) : List Char := [hexDigit (b.toNat / 16), hexDigit (b.toNat % 16)]

def hex (c : Color) : String :=
  String.ofList ('#' :: (hexByte c.red ++ (hexByte c.green ++ (hexByte c.blue
    ++ if c.alpha = 255 then [] else hexByte c.alpha))))

end Color

end Typesetter

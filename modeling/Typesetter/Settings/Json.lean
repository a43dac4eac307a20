import Typesetter.Decimal.Reading
import Typesetter.Decimal.Binary
import Typesetter.Settings.Basic
/-!
Settings as JSON: an object whose fields may be missing, or a list of the values in order. Fields
with other names are passed over.
-/

namespace Typesetter.Settings.Json

open Text Decimal

inductive Problem where
  | malformed
  | unsuitable
  | ended
  deriving DecidableEq, Repr

abbrev Reader := StateT (List Char) (Except Problem)

def isSpace (c : Char) : Bool := c = ' ' || c = '\n' || c = '\t' || c = '\r'

def peek : Reader (Option Char) := do
  modify (·.dropWhile isSpace)
  return (← get).head?

def skip : Reader Unit := modify List.tail

def expectWord : List Char → Reader Unit
  | [] => pure ()
  | c :: cs => do
    match ← get with
    | [] => throw .ended
    | d :: rest =>
      set rest
      if d = c then expectWord cs else throw .malformed

def takeDigits : Reader (List Char) := do
  let s ← get
  set (s.dropWhile Char.isDigit)
  return s.takeWhile Char.isDigit

def someDigits (atEnd : Problem) : Reader (List Char) := do
  let digits ← takeDigits
  if digits ≠ [] then return digits
  throw (if (← get) = [] then atEnd else .malformed)

def wholeDigits (atEnd : Problem) : Reader (List Char) := do
  let digits ← someDigits atEnd
  match digits with
  | '0' :: _ :: _ => throw .malformed
  | _ => return digits

def partDigits (atEnd : Problem) : Reader (Option (List Char)) := do
  match ← get with
  | '.' :: rest =>
    set rest
    return some (← someDigits atEnd)
  | _ => return none

def exponent (atEnd : Problem) : Reader (Option Int) := do
  match ← get with
  | e :: rest =>
    if e = 'e' || e = 'E' then
      let (negative, rest) := splitSign rest
      set rest
      let n := digitsValue (← someDigits atEnd)
      return some (if negative then -n else n)
    else return none
  | [] => return none

structure Number where
  whole : List Char
  part : Option (List Char)
  exponent : Option Int
  deriving DecidableEq, Repr

namespace Number

def count? (n : Number) : Option Nat :=
  if n.part.isNone && n.exponent.isNone && digitsValue n.whole < countLimit then
    some (digitsValue n.whole)
  else none

/-- Append digits as long as the number stays below the limit for counts; the result tells how many
digits are left over. -/
def append (significand : Nat) : List Char → Nat × Nat
  | [] => (significand, 0)
  | c :: cs =>
    if 10 * significand + digitValue c < countLimit then append (10 * significand + digitValue c) cs
    else (significand, cs.length + 1)

def scaled (n : Number) : Nat × Int :=
  let (whole, more) := append 0 n.whole
  let part := n.part.getD []
  let (significand, rest) := append whole part
  (significand, n.exponent.getD 0 + more - (part.length - rest : Nat))

/-- Whether the product of the leading digits and the power of ten, both rounded to doubles, is one.
What is close to the largest double may be lost to rounding. -/
def isDouble (n : Number) : Bool :=
  let (significand, power) := n.scaled
  significand = 0 || power ≤ 0 ||
    (power ≤ 308 && isFinite (significand.toFloat * Float.ofScientific 1 false power.toNat))

end Number

def number (atEnd : Problem) : Reader Number := do
  return { whole := ← wholeDigits atEnd, part := ← partDigits atEnd, exponent := ← exponent atEnd }

def checkedNumber : Reader (Option Nat) := do
  let n ← number .ended
  if n.count?.isNone && !n.isDouble then throw .malformed
  return n.count?

def hexFour : Reader Nat := do
  let s ← get
  let digit := fun (c : Char) =>
    if c.isDigit then some (digitValue c)
    else if 'a' ≤ c ∧ c ≤ 'f' then some (c.toNat - 'a'.toNat + 10)
    else if 'A' ≤ c ∧ c ≤ 'F' then some (c.toNat - 'A'.toNat + 10)
    else none
  if (String.ofList (s.take 4)).utf8ByteSize < 4 then throw .ended
  match (s.take 4).mapM digit with
  | some ds =>
    set (s.drop 4)
    return ds.foldl (16 * · + ·) 0
  | none => throw .malformed

def lowSurrogate : Reader Nat := do
  expectWord ['\\', 'u']
  let n ← hexFour
  if 0xDC00 ≤ n ∧ n ≤ 0xDFFF then return n else throw .malformed

def unicodeEscape : Reader Char := do
  let high ← hexFour
  if 0xDC00 ≤ high ∧ high ≤ 0xDFFF then throw .malformed
  if 0xD800 ≤ high ∧ high ≤ 0xDBFF then
    let low ← lowSurrogate
    return Char.ofNat (0x10000 + (high - 0xD800) * 0x400 + (low - 0xDC00))
  return Char.ofNat high

/-- The character behind a backslash. In a string that is passed over, halves of characters may
stand alone. -/
def escape (passing : Bool) : Reader Char := do
  match ← get with
  | [] => throw .ended
  | c :: rest =>
    set rest
    match c with
    | '"' | '\\' | '/' => return c
    | 'b' => return '\x08'
    | 'f' => return '\x0c'
    | 'n' => return '\n'
    | 'r' => return '\r'
    | 't' => return '\t'
    | 'u' => if passing then return Char.ofNat (← hexFour) else unicodeEscape
    | _ => throw .malformed

def stringTail (passing : Bool) : Nat → List Char → Reader String
  | 0, _ => throw .ended
  | fuel + 1, text => do
    match ← get with
    | [] => throw .ended
    | c :: rest =>
      set rest
      if c = '"' then return String.ofList text.reverse
      else if c = '\\' then
        let d ← escape passing
        stringTail passing fuel (d :: text)
      else if c.toNat < 0x20 then throw .malformed
      else stringTail passing fuel (c :: text)

def stringWithin (steps : Nat) (passing : Bool) : Reader String := do
  skip
  stringTail passing steps []

def string (passing : Bool) : Reader String := do
  stringWithin ((← get).length + 1) passing

def colon : Reader Unit := do
  match ← peek with
  | some ':' => skip
  | some _ => throw .malformed
  | none => throw .ended

/-- A value of a wrong type is read first, so that a mistake in it counts. -/
def unsuitable (next : Char) : Reader α := do
  match next with
  | 'n' => skip; expectWord ['u', 'l', 'l']
  | 't' => skip; expectWord ['r', 'u', 'e']
  | 'f' => skip; expectWord ['a', 'l', 's', 'e']
  | '-' => skip; discard checkedNumber
  | '"' => discard (string false)
  | '[' | '\x7b' => pure ()
  | c => if c.isDigit then discard checkedNumber else throw .malformed
  throw .unsuitable

def valueStart : Reader Char := do
  match ← peek with
  | some c => return c
  | none => throw .ended

def boolean : Reader Bool := do
  match ← valueStart with
  | 't' => skip; expectWord ['r', 'u', 'e']; return true
  | 'f' => skip; expectWord ['a', 'l', 's', 'e']; return false
  | c => unsuitable c

def count : Reader Nat := do
  let c ← valueStart
  if c.isDigit then
    match ← checkedNumber with
    | some n => return n
    | none => throw .unsuitable
  else unsuitable c

def modeName : Reader InactiveMode := do
  match ← valueStart with
  | '"' =>
    match InactiveMode.ofExactName? (← string false) with
    | some mode => return mode
    | none => throw .unsuitable
  | c => unsuitable c

def mode : Reader InactiveMode := do
  match ← valueStart with
  | '"' => modeName
  | '\x7b' =>
    skip
    let mode ← modeName
    colon
    match ← valueStart with
    | 'n' => skip; expectWord ['u', 'l', 'l']
    | c => unsuitable c
    match ← peek with
    | some '\x7d' => skip; return mode
    | some _ => throw .malformed
    | none => throw .ended
  | _ => throw .malformed

mutual

/-- Pass over a value. Of two steps at least one reads a character. -/
def passValue : Nat → Reader Unit
  | 0 => throw .ended
  | fuel + 1 => do
    match ← valueStart with
    | 'n' => skip; expectWord ['u', 'l', 'l']
    | 't' => skip; expectWord ['r', 'u', 'e']
    | 'f' => skip; expectWord ['a', 'l', 's', 'e']
    | '-' => skip; discard (number .malformed)
    | '"' => discard (stringWithin fuel true)
    | '[' => skip; passItems fuel true
    | '\x7b' => skip; passEntries fuel true
    | c => if c.isDigit then discard (number .malformed) else throw .malformed

def passItems : Nat → Bool → Reader Unit
  | 0, _ => throw .ended
  | fuel + 1, first => do
    match ← valueStart with
    | ']' => skip
    | c =>
      if c = ',' && !first then
        skip
        passValue fuel
        passItems fuel false
      else if first then
        passValue fuel
        passItems fuel false
      else throw .malformed

def passEntries : Nat → Bool → Reader Unit
  | 0, _ => throw .ended
  | fuel + 1, first => do
    match ← valueStart with
    | '\x7d' => skip
    | c =>
      if c = ',' && !first then
        skip
        passEntry fuel
        passEntries fuel false
      else if first then
        passEntry fuel
        passEntries fuel false
      else throw .malformed

def passEntry : Nat → Reader Unit
  | 0 => throw .ended
  | fuel + 1 => do
    match ← valueStart with
    | '"' => discard (stringWithin fuel true)
    | _ => throw .malformed
    colon
    passValue fuel

end

inductive Field where
  | strict
  | maxRecursionDepth
  | maxIterations
  | maxViewDepth
  | inactiveMode
  deriving DecidableEq, Repr

namespace Field

def all : List Field := [strict, maxRecursionDepth, maxIterations, maxViewDepth, inactiveMode]

def name : Field → String
  | strict => "strict"
  | maxRecursionDepth => "max_recursion_depth"
  | maxIterations => "max_iterations"
  | maxViewDepth => "max_rewrite_depth"
  | inactiveMode => "inactive_mode"

def ofName? (s : String) : Option Field := all.find? (·.name = s)

def read (f : Field) (settings : Settings) : Reader Settings := do
  match f with
  | strict => return { settings with strict := ← boolean }
  | maxRecursionDepth => return { settings with maxRecursionDepth := ← count }
  | maxIterations => return { settings with maxIterations := ← count }
  | maxViewDepth => return { settings with maxViewDepth := ← count }
  | inactiveMode => return { settings with inactiveMode := ← mode }

end Field

/-- The fields of an object. A field may be given once. No more characters are left than steps. -/
def entries : Nat → Bool → List Field → Settings → Reader Settings
  | 0, _, _, _ => throw .ended
  | fuel + 1, first, seen, settings => do
    let c ← valueStart
    if c = '\x7d' then return settings
    if !first then
      if c ≠ ',' then throw .malformed
      skip
    match ← valueStart with
    | '"' =>
      match Field.ofName? (← stringWithin (fuel + 1) false) with
      | some f =>
        if f ∈ seen then throw .unsuitable
        colon
        entries fuel false (f :: seen) (← f.read settings)
      | none =>
        colon
        passValue (2 * fuel + 2)
        entries fuel false seen settings
    | _ => throw .malformed

def items : Bool → List Field → Settings → Reader Settings
  | _, [], settings => return settings
  | first, f :: fs, settings => do
    let c ← valueStart
    if c = ']' then return settings
    if !first then
      if c ≠ ',' then throw .malformed
      skip
      if (← valueStart) = ']' then throw .malformed
    items false fs (← f.read settings)

def close (bracket : Char) : Reader Unit := do
  if (← valueStart) = bracket then skip else throw .malformed

def document : Reader Settings := do
  let settings ← match ← valueStart with
    | '[' => do
      skip
      let settings ← items true Field.all {}
      close ']'
      pure settings
    | '\x7b' => do
      skip
      let settings ← entries ((← get).length + 1) true [] {}
      close '\x7d'
      pure settings
    | c => unsuitable c
  match ← peek with
  | none => return settings
  | some _ => throw .malformed

end Json

def ofJson (s : String) : Except Json.Problem Settings :=
  (Json.document.run s.toList).map (·.1)

end Typesetter.Settings

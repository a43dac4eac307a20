import Typesetter.Fault
import Typesetter.Operation.Calendar
/-!
Dates in a format with fields behind percent signs. A minus, a zero or an underscore before a
numeric field says how the number is filled up.
-/

namespace Typesetter.Date

inductive Padding where
  | none
  | zero
  | space
  deriving DecidableEq, Repr

inductive Piece where
  | literal (text : String)
  | name (text : Moment → String)
  | number (value : Moment → Int) (padding : Padding) (width : Nat)

def fill (padding : Padding) (width : Nat) (n : Int) : String :=
  let digits := toString n.natAbs
  let room := String.ofList (List.replicate (width - digits.length)
    (if padding = .zero then '0' else ' '))
  let sign := if n < 0 then "-" else ""
  match padding with
  | .none => sign ++ digits
  | .zero => sign ++ room ++ digits
  | .space => room ++ sign ++ digits

def Piece.text (m : Moment) : Piece → String
  | literal s => s
  | name f => f m
  | number f padding width => fill padding width (f m)

def zeros (width : Nat) (value : Moment → Int) : Piece := .number value .zero width
def spaces (width : Nat) (value : Moment → Int) : Piece := .number value .space width

def year : Piece := zeros 4 (·.year)
def yearOfCentury : Piece := zeros 2 (·.year.fmod 100)
def month : Piece := zeros 2 (·.month)
def day : Piece := zeros 2 (·.day)
def hour : Piece := zeros 2 (·.hour)
def hour12 : Piece := zeros 2 (·.hour12)
def minute : Piece := zeros 2 (·.minute)
def second : Piece := zeros 2 (·.second)
def half : Piece := .name fun m => if m.isAfternoon then "PM" else "AM"
def shortMonth : Piece := .name fun m => String.ofList (m.monthName.toList.take 3)
def shortWeekday : Piece := .name fun m => String.ofList (m.weekdayName.toList.take 3)

def fraction (places : Nat) (m : Moment) : String :=
  fill .zero places (m.nanosecond / Nat.pow 10 (9 - places))

def shortFraction (m : Moment) : String :=
  if m.nanosecond = 0 then ""
  else "." ++ fraction (if m.nanosecond % 1000000 = 0 then 3 else if m.nanosecond % 1000 = 0 then 6 else 9) m

def offset (colon : Bool) (m : Moment) : String :=
  let minutes := m.offset.natAbs / 60
  (if m.offset < 0 then "-" else "+") ++ fill .zero 2 (minutes / 60)
    ++ (if colon then ":" else "") ++ fill .zero 2 (minutes % 60)

def dashDate : List Piece := [year, .literal "-", month, .literal "-", day]
def slashDate : List Piece := [month, .literal "/", day, .literal "/", yearOfCentury]
def clock : List Piece := [hour, .literal ":", minute, .literal ":", second]

def letter : Char → List Piece
  | 'A' => [.name (·.weekdayName)]
  | 'B' => [.name (·.monthName)]
  | 'C' => [zeros 2 (·.year.fdiv 100)]
  | 'D' | 'x' => slashDate
  | 'F' => dashDate
  | 'G' => [zeros 4 (·.isoYearAndWeek.1)]
  | 'H' => [hour]
  | 'I' => [hour12]
  | 'M' => [minute]
  | 'P' => [.name fun m => if m.isAfternoon then "pm" else "am"]
  | 'R' => [hour, .literal ":", minute]
  | 'S' => [second]
  | 'T' | 'X' => clock
  | 'U' => [zeros 2 (·.weekFromSunday)]
  | 'V' => [zeros 2 (·.isoYearAndWeek.2)]
  | 'W' => [zeros 2 (·.weekFromMonday)]
  | 'Y' => [year]
  | 'Z' => [.name (offset true)]
  | 'a' => [shortWeekday]
  | 'b' | 'h' => [shortMonth]
  | 'c' => [shortWeekday, .literal " ", shortMonth, .literal " ", spaces 2 (·.day), .literal " "]
      ++ clock ++ [.literal " ", year]
  | 'd' => [day]
  | 'e' => [spaces 2 (·.day)]
  | 'f' => [zeros 9 (·.nanosecond)]
  | 'g' => [zeros 2 (·.isoYearAndWeek.1.fmod 100)]
  | 'j' => [zeros 3 (·.ordinal)]
  | 'k' => [spaces 2 (·.hour)]
  | 'l' => [spaces 2 (·.hour12)]
  | 'm' => [month]
  | 'n' => [.literal "\n"]
  | 'p' => [half]
  | 'q' => [.number (fun m => (m.month + 2) / 3) .none 1]
  | 'r' => [hour12, .literal ":", minute, .literal ":", second, .literal " ", half]
  | 's' => [.number (·.timestamp) .none 1]
  | 't' => [.literal "\t"]
  | 'u' => [.number (fun m => m.weekdayFromMonday + 1) .none 1]
  | 'v' => [spaces 2 (·.day), .literal "-", shortMonth, .literal "-", year]
  | 'w' => [.number (·.weekday) .none 1]
  | 'y' => [yearOfCentury]
  | 'z' => [.name (offset false)]
  | '+' => dashDate ++ [.literal "T"] ++ clock ++ [.name shortFraction, .name (offset true)]
  | '%' => [.literal "%"]
  | _ => []

def field? : List Char → Option (List Piece × Nat)
  | '-' :: c :: _ => repad .none c
  | '0' :: c :: _ => repad .zero c
  | '_' :: c :: _ => repad .space c
  | '#' :: 'z' :: _ => some ([.name (offset false)], 2)
  | ':' :: ':' :: ':' :: 'z' :: _ => some ([.name fun m => String.ofList ((offset true m).toList.take 3)], 4)
  | ':' :: ':' :: 'z' :: _ => some ([.name fun m => offset true m ++ ":00"], 3)
  | ':' :: 'z' :: _ => some ([.name (offset true)], 2)
  | '.' :: 'f' :: _ => some ([.name shortFraction], 2)
  | '.' :: '3' :: 'f' :: _ => some ([.name fun m => "." ++ fraction 3 m], 3)
  | '.' :: '6' :: 'f' :: _ => some ([.name fun m => "." ++ fraction 6 m], 3)
  | '.' :: '9' :: 'f' :: _ => some ([.name fun m => "." ++ fraction 9 m], 3)
  | '3' :: 'f' :: _ => some ([.name (fraction 3)], 2)
  | '6' :: 'f' :: _ => some ([.name (fraction 6)], 2)
  | '9' :: 'f' :: _ => some ([.name (fraction 9)], 2)
  | c :: _ => if (letter c).isEmpty then none else some (letter c, 1)
  | [] => none
where
  repad (padding : Padding) (c : Char) : Option (List Piece × Nat) :=
    match letter c with
    | [.number value _ width] => some ([.number value padding width], 2)
    | _ => none

def pieces? : Nat → List Char → Option (List Piece)
  | _, [] => some []
  | skipped + 1, _ :: rest => pieces? skipped rest
  | 0, '%' :: rest => do
    let (field, length) ← field? rest
    return field ++ (← pieces? length rest)
  | 0, c :: rest => do
    return .literal (String.ofList [c]) :: (← pieces? 0 rest)

def format? (now : Moment) (format : String) : Option String :=
  (pieces? 0 format.toList).map fun pieces => String.join (pieces.map (·.text now))

def usualFormat : String := "%B %-d, %Y"

def text (today : String → Option String) (format : String) : Except Fault String :=
  match today format with
  | some text => .ok text
  | none => .error (Cause.badDateFormat format)

end Typesetter.Date

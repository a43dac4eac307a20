import Std.Time
import Typesetter.CommandLine.Basic
/-!
The program. Files are read when the evaluation first asks for them, and it starts again with what
was found.
-/

namespace Typesetter

def moment (t : Std.Time.PlainDateTime) : Moment :=
  { year := t.date.year
    month := t.date.month.val.toNat
    day := t.date.day.val.toNat
    hour := t.time.hour.val.toNat
    minute := t.time.minute.val.toNat
    second := t.time.second.val.toNat
    nanosecond := t.time.nanosecond.val.toNat }

def diskError : IO.Error → DiskError
  | .noFileOrDirectory .. => .notFound
  | .permissionDenied .. => .permissionDenied
  | .inappropriateType _ code _ => if code = 21 then .isADirectory else .notADirectory
  | .invalidArgument .. => .nameTooLong
  | .userError _ => .notText
  | e => .other 5 (toString e)

def readContent (path : String) : IO (Except DiskError String) := do
  try
    return .ok (← IO.FS.readFile path)
  catch e => return .error (diskError e)

def isFile (entry : IO.FS.DirEntry) : IO Bool := do
  try
    return (← entry.path.metadata).type matches .file
  catch _ => return false

def lookOnDisk (path : String) : IO Finding := do
  if path.toList.any (· = '\x00') then return ⟨false, .error .nulInName⟩
  return ⟨← isFile { root := ".", fileName := path }, ← readContent path⟩

partial def runWith (known : List (String × Finding)) (today : String → Option String)
    (args : List String) (input : String) : IO CommandLine.Outcome := do
  match CommandLine.run (known.lookup ·) today args input with
  | .ok outcome => return outcome
  | .error (.unknownFile path) => runWith ((path, ← lookOnDisk path) :: known) today args input
  | .error .outOfFuel => return { exit := 1, errors := "Error: the evaluation does not end\n" }

def readsInput (args : List String) : Bool :=
  match CommandLine.Options.read args with
  | .ok o => o.input.isNone
  | .error _ => false

end Typesetter

open Typesetter in
def main (args : List String) : IO UInt32 := do
  let input ← if readsInput args then (← IO.getStdin).readToEnd else pure ""
  let now := moment (← Std.Time.PlainDateTime.now)
  let outcome ← runWith [] (Date.format? now) args input
  (← IO.getStdout).putStr outcome.output
  (← IO.getStderr).putStr outcome.errors
  return outcome.exit.toUInt32

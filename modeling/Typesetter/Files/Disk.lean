import Typesetter.Files.Path

namespace Typesetter

inductive DiskError where
  | notFound
  | permissionDenied
  | notADirectory
  | isADirectory
  | nameTooLong
  | nulInName
  | notText
  | other (code : Nat) (reason : String)
  deriving DecidableEq, Repr

namespace DiskError

def code? : DiskError → Option Nat
  | notFound => some 2
  | permissionDenied => some 13
  | notADirectory => some 20
  | isADirectory => some 21
  | nameTooLong => some 36
  | nulInName | notText => none
  | other code _ => some code

def kind : DiskError → String
  | notFound => "NotFound"
  | permissionDenied => "PermissionDenied"
  | notADirectory => "NotADirectory"
  | isADirectory => "IsADirectory"
  | nameTooLong => "InvalidFilename"
  | nulInName => "InvalidInput"
  | notText => "InvalidData"
  | other .. => "Other"

def reason : DiskError → String
  | notFound => "No such file or directory"
  | permissionDenied => "Permission denied"
  | notADirectory => "Not a directory"
  | isADirectory => "Is a directory"
  | nameTooLong => "File name too long"
  | nulInName => "file name contained an unexpected NUL byte"
  | notText => "stream did not contain valid UTF-8"
  | other _ reason => reason

def message (e : DiskError) : String :=
  match e.code? with
  | some code => e.reason ++ " (os error " ++ toString code ++ ")"
  | none => e.reason

end DiskError

/-- What stands at a path. Devices can be read as well, but are no files. -/
structure Finding where
  isFile : Bool
  content : Except DiskError String

abbrev Disk := String → Option Finding

/-- What can be read and directories, by their places below the root. Relative paths start at `home`. -/
structure Volume where
  home : List String
  entries : List (List String × Finding)
  directories : List (List String) := []

namespace Volume

def ofFiles (home : List String) (files : List (String × String)) : Volume :=
  { home
    entries := files.reverse.map fun (name, text) => (home ++ Path.components name, ⟨true, .ok text⟩) }

def isDirectory (v : Volume) (place : List String) : Bool :=
  place = [] || place.isPrefixOf v.home || v.directories.any (place.isPrefixOf ·)
    || v.entries.any fun (entry, _) => place.isPrefixOf entry

def lookAt (v : Volume) (place : List String) : Except DiskError Finding :=
  match v.entries.lookup place with
  | some finding => .ok finding
  | none => .error (if v.isDirectory place then .isADirectory else .notFound)

def enter (place : List String) (part : String) : Except DiskError (List String) :=
  if part = "" || part = "." then .ok place
  else if part = ".." then .ok place.dropLast
  else if Path.partLimit < part.utf8ByteSize then .error .nameTooLong
  else .ok (place ++ [part])

def follow (v : Volume) : List String → List String → Except DiskError Finding
  | place, [] => v.lookAt place
  | place, part :: rest =>
    match v.lookAt place with
    | .ok _ => .error .notADirectory
    | .error .isADirectory => do v.follow (← enter place part) rest
    | .error e => .error e

def find (v : Volume) (path : String) : Except DiskError Finding :=
  if path.toList.any (· = '\x00') then .error .nulInName
  else if Path.limit < path.utf8ByteSize then .error .nameTooLong
  else if path = "" then .error .notFound
  else v.follow (if Path.isAbsolute path then [] else v.home) (Path.pieces path)

def disk (v : Volume) : Disk := fun path =>
  match v.find path with
  | .ok finding => some finding
  | .error e => some ⟨false, .error e⟩

end Volume

end Typesetter

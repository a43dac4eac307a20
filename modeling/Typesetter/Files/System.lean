import Typesetter.Files.Disk

namespace Typesetter

inductive FileError where
  | notFound (path : String)
  | permissionDenied (path : String)
  | unreadable (reason : String)
  deriving DecidableEq, Repr

def FileError.message : FileError → String
  | notFound path => "file not found: " ++ path
  | permissionDenied path => "permission denied: " ++ path
  | unreadable reason => "read error: " ++ reason

/-- The files by their paths: whether there is one, and its text. Nothing where that has not been found out
yet. Neither answer follows from the other: a file need not hold text, and a device can be read. -/
structure FileSystem where
  hasFile : String → Option Bool
  text : String → Option (Except FileError String)

namespace FileSystem

def none : FileSystem where
  hasFile _ := some false
  text path := some (.error (.notFound path))

/-- Files by their exact paths; of two with one path the later counts. -/
def ofFiles (files : List (String × String)) : FileSystem where
  hasFile path := some (files.lookup path).isSome
  text path := some ((files.reverse.lookup path).elim (.error (.notFound path)) .ok)

def ofDiskError (path : String) : DiskError → FileError
  | .notFound => .notFound path
  | .permissionDenied => .permissionDenied path
  | e => .unreadable e.message

def placed (root path : String) : String := if Path.isAbsolute path then path else root ++ "/" ++ path

def ofDisk (root : String) (disk : Disk) : FileSystem where
  hasFile path := (disk (placed root path)).map (·.isFile)
  text path := (disk (placed root path)).map (·.content.mapError (ofDiskError path))

end FileSystem

end Typesetter

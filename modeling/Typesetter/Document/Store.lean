import Std.Data.TreeMap
import Typesetter.Document.Listing
import Typesetter.Tree.Basic
/-!
The variables of a document. A logged write notes in the innermost open frame what the name held
before its first logged write there; closing the frame puts that back.
-/

namespace Typesetter

abbrev Table := Std.TreeMap String Tree

/-- What logged names held; nothing for a name that was absent. -/
abbrev WriteBack := Listing (Option Tree)

structure Store where
  vars : Table := {}
  /-- The innermost frame first. -/
  frames : List WriteBack := []

namespace Store

def get? (s : Store) (name : String) : Option Tree := s.vars[name]?

def read (s : Store) (name : String) : Tree := (s.get? name).getD .uninit

def provides (s : Store) (name : String) : Bool := s.vars.contains name

def write (s : Store) (name : String) (value : Tree) : Store :=
  { s with vars := s.vars.insert name value }

def remove (s : Store) (name : String) : Store := { s with vars := s.vars.erase name }

def put (s : Store) (name : String) : Option Tree → Store
  | some value => s.write name value
  | none => s.remove name

/-- Only the first write of a name in a frame is noted. -/
def note (s : Store) (name : String) : Store :=
  match s.frames with
  | [] => s
  | frame :: rest =>
    if (frame.get? name).isSome then s
    else { s with frames := (frame ++ [(name, s.get? name)]) :: rest }

def writeLogged (s : Store) (name : String) (value : Tree) : Store := (s.note name).write name value

def openFrame (s : Store) : Store := { s with frames := [] :: s.frames }

def restore (s : Store) (frame : WriteBack) : Store :=
  frame.foldl (fun s (name, old) => s.put name old) s

/-- The restored names, in the order of their first writes. -/
def closeFrame? (s : Store) : Option (List String × Store) :=
  match s.frames with
  | [] => none
  | frame :: rest => some (frame.names, { s with frames := rest }.restore frame)

def unmatchedClose : String := "local_end called without a matching local_start"

def written (s : Store) : List String := (s.frames.headD []).names

def depth (s : Store) : Nat := s.frames.length

def size (s : Store) : Nat := s.vars.size

def isEmpty (s : Store) : Bool := s.vars.isEmpty

def names (s : Store) : List String := s.vars.keys

def snapshot (s : Store) : Listing Tree := s.vars.toList

def replace (s : Store) (vars : Listing Tree) : Store :=
  { s with vars := vars.foldl (fun t (name, value) => t.insert name value) {} }

/-- The names written in the innermost frame whose value is not the one seen last; a name not seen
yet counts as seen when it was never set. Returns the changes and what has been seen now. -/
def changes (s : Store) (seen : Listing Tree) : Listing Tree × Listing Tree :=
  s.written.foldl
    (fun (changed, seen) name =>
      let value := s.read name
      let same : Bool := match seen.get? name with
        | some old => old = value
        | none => value.isUninit
      if same then (changed, seen) else (changed.insert name value, seen.insert name value))
    ([], seen)

theorem read_of {P : Tree → Prop} {s : Store} {name : String} (huninit : P .uninit)
    (h : ∀ v, s.get? name = some v → P v) : P (s.read name) := by
  unfold read
  cases hv : s.get? name with
  | none => exact huninit
  | some v => exact h v hv

@[simp] theorem get?_write (s : Store) (n m : String) (v : Tree) :
    (s.write n v).get? m = if n = m then some v else s.get? m := by
  simp [get?, write, Std.TreeMap.getElem?_insert]

@[simp] theorem get?_remove (s : Store) (n m : String) :
    (s.remove n).get? m = if n = m then none else s.get? m := by
  simp [get?, remove, Std.TreeMap.getElem?_erase]

@[simp] theorem get?_put (s : Store) (n m : String) (v : Option Tree) :
    (s.put n v).get? m = if n = m then v else s.get? m := by
  cases v <;> simp [put]

@[simp] theorem get?_note (s : Store) (n m : String) : (s.note n).get? m = s.get? m := by
  unfold note
  split
  · rfl
  · split <;> rfl

@[simp] theorem get?_writeLogged (s : Store) (n m : String) (v : Tree) :
    (s.writeLogged n v).get? m = if n = m then some v else s.get? m := by
  simp [writeLogged]

@[simp] theorem frames_write (s : Store) (n : String) (v : Tree) :
    (s.write n v).frames = s.frames := rfl

@[simp] theorem frames_remove (s : Store) (n : String) : (s.remove n).frames = s.frames := rfl

@[simp] theorem frames_put (s : Store) (n : String) (v : Option Tree) :
    (s.put n v).frames = s.frames := by
  cases v <;> rfl

end Store

end Typesetter

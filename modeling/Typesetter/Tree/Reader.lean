import Typesetter.Tree.Printer
/-!
Reading a tree from text. The reader takes one character after the other: a step refuses what no
continuation can mend, and the end of the text tells what is still missing.
-/

namespace Typesetter

/-- Why a text is no tree. Offsets count bytes. -/
inductive ReadError where
  | unexpectedEnd
  | unexpectedClose (offset : Nat)
  | missingTag (offset : Nat)
  | unclosed (offset : Nat)
  | unterminatedString (offset : Nat)
  | trailingInput (offset : Nat)
  | tooDeep (offset : Nat)
  deriving DecidableEq, Repr

namespace ReadError

def message : ReadError → String
  | unexpectedEnd => "unexpected end of input"
  | unexpectedClose o => "unexpected ')' at offset " ++ toString o
  | missingTag o => "node at offset " ++ toString o ++ " has no tag"
  | unclosed o => "node opened at offset " ++ toString o ++ " is never closed"
  | unterminatedString o => "string starting at offset " ++ toString o ++ " is never terminated"
  | trailingInput o => "unexpected input after tree at offset " ++ toString o
  | tooDeep o => "node at offset " ++ toString o ++ " is nested too deeply"

def isIncomplete : ReadError → Bool
  | unexpectedEnd | unclosed _ | unterminatedString _ => true
  | unexpectedClose _ | missingTag _ | trailingInput _ | tooDeep _ => false

end ReadError

namespace Tree.Reader

open Text

def maxNesting : Nat := 256

structure OpenNode where
  offset : Nat
  tag : Tag
  children : List Tree

def OpenNode.close (n : OpenNode) : Tree := node n.tag n.children.reverse

/-- What the next character continues. Collected characters have the last one first. -/
inductive Focus where
  | gap (inComment : Bool)
  | head (start : Nat) (inComment : Bool)
  | tagName (start : Nat) (word : List Char)
  | bare (word : List Char)
  | string (start : Nat) (escaped : Bool) (text : List Char)

structure State where
  offset : Nat
  stack : List OpenNode
  result : Option Tree
  focus : Focus

namespace State

def initial : State := ⟨0, [], none, .gap false⟩

def complete (s : State) (t : Tree) : State :=
  match s.stack with
  | [] => { s with result := some t, focus := .gap false }
  | n :: rest =>
    { s with stack := { n with children := t :: n.children } :: rest, focus := .gap false }

def openNode (s : State) (start : Nat) (word : List Char) : State :=
  let tag := Tag.ofName (String.ofList word.reverse)
  { s with stack := ⟨start, tag, []⟩ :: s.stack, focus := .gap false }

def finishWord (s : State) (word : List Char) : State :=
  s.complete (atom (String.ofList word.reverse))

def atGap (s : State) (c : Char) : Except ReadError State :=
  if isBlank c then .ok { s with focus := .gap false }
  else if c = ';' then .ok { s with focus := .gap true }
  else if s.result.isSome then .error (.trailingInput s.offset)
  else if c = '(' then
    if maxNesting ≤ s.stack.length then .error (.tooDeep s.offset)
    else .ok { s with focus := .head s.offset false }
  else if c = ')' then
    match s.stack with
    | [] => .error (.unexpectedClose s.offset)
    | n :: rest => .ok (complete { s with stack := rest } n.close)
  else if c = '"' then .ok { s with focus := .string s.offset false [] }
  else .ok { s with focus := .bare [c] }

def atHead (s : State) (start : Nat) (c : Char) : Except ReadError State :=
  if isBlank c then .ok s
  else if c = ';' then .ok { s with focus := .head start true }
  else if isDelimiter c then .error (.missingTag start)
  else .ok { s with focus := .tagName start [c] }

def unescape (c : Char) : Char :=
  if c = 'n' then '\n' else if c = 't' then '\t' else c

def accept (s : State) (c : Char) : Except ReadError State :=
  match s.focus with
  | .gap false => s.atGap c
  | .gap true => .ok { s with focus := .gap (c ≠ '\n') }
  | .head start false => s.atHead start c
  | .head start true => .ok { s with focus := .head start (c ≠ '\n') }
  | .tagName start word =>
    if isDelimiter c then (s.openNode start word).atGap c
    else .ok { s with focus := .tagName start (c :: word) }
  | .bare word =>
    if isDelimiter c then (s.finishWord word).atGap c
    else .ok { s with focus := .bare (c :: word) }
  | .string start true text =>
    .ok { s with focus := .string start false (unescape c :: text) }
  | .string start false text =>
    if c = '"' then .ok (s.finishWord text)
    else if c = '\\' then .ok { s with focus := .string start true text }
    else .ok { s with focus := .string start false (c :: text) }

def step (s : State) (c : Char) : Except ReadError State :=
  (s.accept c).map fun s' => { s' with offset := s.offset + c.utf8Size }

def steps : State → List Char → Except ReadError State
  | s, [] => .ok s
  | s, c :: cs =>
    match s.step c with
    | .ok s' => steps s' cs
    | .error e => .error e

def settle (s : State) : Except ReadError Tree :=
  match s.stack, s.result with
  | n :: _, _ => .error (.unclosed n.offset)
  | [], some t => .ok t
  | [], none => .error .unexpectedEnd

def finish (s : State) : Except ReadError Tree :=
  match s.focus with
  | .gap _ => s.settle
  | .head .. => .error .unexpectedEnd
  | .tagName start word => (s.openNode start word).settle
  | .bare word => (s.finishWord word).settle
  | .string start .. => .error (.unterminatedString start)

end State

end Tree.Reader

def Tree.readChars (s : List Char) : Except ReadError Tree :=
  match Reader.State.initial.steps s with
  | .ok state => state.finish
  | .error e => .error e

def Tree.read (s : String) : Except ReadError Tree := readChars s.toList

end Typesetter

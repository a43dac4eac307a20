import Typesetter.Settings.InactiveMode

namespace Typesetter.CommandLine

structure Options where
  input : Option String := none
  config : Option String := none
  mode : Option InactiveMode := none
  inactive : Option String := none
  json : Bool := false
  assignments : List String := []
  color : Bool := false

inductive Refusal where
  | unexpected (argument : String)
  | missingValue (option : String)
  | repeated (option : String)
  | badMode (name : String)
  | help
  | version
  deriving DecidableEq, Repr

namespace Options

def once {α : Type} (option : String) (old : Option α) (new : α) : Except Refusal (Option α) :=
  match old with
  | some _ => .error (.repeated option)
  | none => .ok (some new)

def switch (option : String) (old : Bool) : Except Refusal Bool :=
  if old then .error (.repeated option) else .ok true

def setInput (o : Options) (s : String) : Except Refusal Options :=
  match o.input with
  | some _ => .error (.unexpected s)
  | none => .ok { o with input := some s }

def setValue? (o : Options) (option value : String) : Option (Except Refusal Options) :=
  match option with
  | "config" => some do return { o with config := ← once option o.config value }
  | "inactive" => some do return { o with inactive := ← once option o.inactive value }
  | "set" => some (.ok { o with assignments := o.assignments ++ [value] })
  | "mode" => some do
    match InactiveMode.ofName? value with
    | some mode => return { o with mode := ← once option o.mode mode }
    | none => throw (.badMode value)
  | _ => none

def setSwitch (o : Options) (option : String) : Except Refusal Options := do
  match option with
  | "json" => return { o with json := ← switch option o.json }
  | "color" => return { o with color := ← switch option o.color }
  | "help" => throw .help
  | "version" => throw .version
  | _ => throw (.unexpected option)

def setLetters (o : Options) : List Char → Except Refusal Options
  | [] => .ok o
  | c :: rest => do
    let o ← match c with
      | 'c' => o.setSwitch "color"
      | 'h' => o.setSwitch "help"
      | 'V' => o.setSwitch "version"
      | c => throw (.unexpected (String.ofList ['-', c]))
    o.setLetters rest

def isOption (s : String) : Bool := s.toList.head? = some '-' && s ≠ "-"

def splitLong (s : List Char) : String × Option String :=
  let name := s.takeWhile (· ≠ '=')
  match s.dropWhile (· ≠ '=') with
  | _ :: value => (String.ofList name, some (String.ofList value))
  | [] => (String.ofList name, none)

def takesValue (option : String) : Bool := (setValue? {} option "").isSome

/-- Everything behind two hyphens is a name. -/
def readNames (o : Options) : List String → Except Refusal Options
  | [] => .ok o
  | s :: rest => do (← o.setInput s).readNames rest

def readFrom (o : Options) : List String → Except Refusal Options
  | [] => .ok o
  | s :: rest =>
    match s.toList with
    | ['-', '-'] => o.readNames rest
    | '-' :: '-' :: long =>
      match splitLong long with
      | (option, some value) =>
        match o.setValue? option value with
        | some result => do (← result).readFrom rest
        | none => .error (.unexpected s)
      | (option, none) =>
        if takesValue option then
          match rest with
          | value :: rest =>
            if isOption value then .error (.missingValue option)
            else
              match o.setValue? option value with
              | some result => do (← result).readFrom rest
              | none => .error (.unexpected s)
          | [] => .error (.missingValue option)
        else do (← o.setSwitch option).readFrom rest
    | '-' :: c :: letters => do (← o.setLetters (c :: letters)).readFrom rest
    | _ => do (← o.setInput s).readFrom rest

def read (args : List String) : Except Refusal Options := readFrom {} args

end Options

end Typesetter.CommandLine

namespace Typesetter

inductive Primitive where
  | document | concat | tuple | uninit | error | rawData | symbol | hybrid | point | includeFile
  | value | arg | evalArgs | quote | delay | quasiquote | unquote | unquoteSplice
  | macroDef | variadicDef | compound | assign | withVars
  | provides | registryProperty | getLabel | getArity | getBinding | getAttachment
  | or | and | xor | not | plus | minus | times | ratio | divide | modulo
  | merge | length | range | lookup | isTuple | number | date | translate | findFile
  | equal | unequal | less | lesseq | greater | greatereq
  | ifThen | caseOf | whileLoop | viewInactive
  | srcArg | srcValue | srcSymbol | srcHybrid | srcRaw | srcHighlight | srcExpand
  | inlineTag | openTag | closeTag
  deriving DecidableEq, Repr, Inhabited

structure Arity where
  least : Nat
  most : Option Nat
  deriving DecidableEq, Repr

namespace Arity

def exactly (n : Nat) : Arity := ⟨n, some n⟩
def between (m n : Nat) : Arity := ⟨m, some n⟩
def atLeast (n : Nat) : Arity := ⟨n, none⟩

def admits (a : Arity) (n : Nat) : Bool :=
  a.least ≤ n && a.most.all (n ≤ ·)

def text (a : Arity) : String :=
  match a.most with
  | some n => if n = a.least then toString n else toString a.least ++ " to " ++ toString n
  | none => "at least " ++ toString a.least

end Arity

namespace Primitive

def all : List Primitive :=
  [document, concat, tuple, uninit, error, rawData, symbol, hybrid, point, includeFile,
    value, arg, evalArgs, quote, delay, quasiquote, unquote, unquoteSplice,
    macroDef, variadicDef, compound, assign, withVars,
    provides, registryProperty, getLabel, getArity, getBinding, getAttachment,
    or, and, xor, not, plus, minus, times, ratio, divide, modulo,
    merge, length, range, lookup, isTuple, number, date, translate, findFile,
    equal, unequal, less, lesseq, greater, greatereq,
    ifThen, caseOf, whileLoop, viewInactive,
    srcArg, srcValue, srcSymbol, srcHybrid, srcRaw, srcHighlight, srcExpand,
    inlineTag, openTag, closeTag]

def name : Primitive → String
  | document => "document"
  | concat => "concat"
  | tuple => "tuple"
  | uninit => "uninit"
  | error => "error"
  | rawData => "raw-data"
  | symbol => "symbol"
  | hybrid => "hybrid"
  | point => "point"
  | includeFile => "include"
  | value => "value"
  | arg => "arg"
  | evalArgs => "eval-args"
  | quote => "quote"
  | delay => "delay"
  | quasiquote => "quasiquote"
  | unquote => "unquote"
  | unquoteSplice => "unquote*"
  | macroDef => "macro"
  | variadicDef => "xmacro"
  | compound => "compound"
  | assign => "assign"
  | withVars => "with"
  | provides => "provides"
  | registryProperty => "drd-props"
  | getLabel => "get-label"
  | getArity => "get-arity"
  | getBinding => "get-binding"
  | getAttachment => "get-attachment"
  | or => "or"
  | and => "and"
  | xor => "xor"
  | not => "not"
  | plus => "plus"
  | minus => "minus"
  | times => "times"
  | ratio => "over"
  | divide => "divide"
  | modulo => "modulo"
  | merge => "merge"
  | length => "length"
  | range => "range"
  | lookup => "lookup"
  | isTuple => "is-tuple"
  | number => "number"
  | date => "date"
  | translate => "translate"
  | findFile => "find-file"
  | equal => "equal"
  | unequal => "unequal"
  | less => "less"
  | lesseq => "lesseq"
  | greater => "greater"
  | greatereq => "greatereq"
  | ifThen => "if"
  | caseOf => "case"
  | whileLoop => "while"
  | viewInactive => "rewrite-inactive"
  | srcArg => "src-arg"
  | srcValue => "src-value"
  | srcSymbol => "src-symbol"
  | srcHybrid => "src-hybrid"
  | srcRaw => "src-raw"
  | srcHighlight => "src-highlight"
  | srcExpand => "src-expand"
  | inlineTag => "inline-tag"
  | openTag => "open-tag"
  | closeTag => "close-tag"

def ofName? (name : String) : Option Primitive := all.find? (·.name = name)

def arity? : Primitive → Option Arity
  | value | evalArgs | quote | delay | quasiquote | unquote | unquoteSplice
  | provides | getLabel | getArity | not | length | isTuple | includeFile => some (.exactly 1)
  | arg | macroDef | compound | or | and | plus | times | merge | findFile | point
  | withVars => some (.atLeast 1)
  | variadicDef | assign | registryProperty | xor | ratio | divide | modulo | lookup | number
  | equal | unequal | less | lesseq | greater | greatereq | whileLoop
  | viewInactive => some (.exactly 2)
  | getBinding | getAttachment | minus => some (.between 1 2)
  | range | translate => some (.exactly 3)
  | date => some (.between 0 2)
  | ifThen => some (.between 2 3)
  | caseOf => some (.atLeast 2)
  | document | concat | tuple | uninit | error | rawData | symbol | hybrid
  | srcArg | srcValue | srcSymbol | srcHybrid | srcRaw | srcHighlight | srcExpand
  | inlineTag | openTag | closeTag => none

def isActive : Primitive → Bool
  | evalArgs | quote | delay | quasiquote | unquote | unquoteSplice
  | macroDef | variadicDef | assign | withVars
  | provides | registryProperty | getLabel | getArity | getBinding | getAttachment
  | or | and | xor | not | plus | minus | times | ratio | divide | modulo
  | merge | length | range | lookup | isTuple | number | date | translate | findFile | includeFile
  | equal | unequal | less | lesseq | greater | greatereq
  | ifThen | caseOf | whileLoop | viewInactive => true
  | document | concat | tuple | uninit | error | rawData | symbol | hybrid | point
  | value | arg | compound
  | srcArg | srcValue | srcSymbol | srcHybrid | srcRaw | srcHighlight | srcExpand
  | inlineTag | openTag | closeTag => false

end Primitive

inductive Tag where
  | prim (primitive : Primitive)
  | user (name : String)
  deriving DecidableEq, Repr, Inhabited

namespace Tag

instance : Coe Primitive Tag := ⟨prim⟩

def name : Tag → String
  | prim p => p.name
  | user name => name

def ofName (name : String) : Tag :=
  match Primitive.ofName? name with
  | some p => prim p
  | none => user name

def arity? : Tag → Option Arity
  | prim p => p.arity?
  | user _ => none

def isUser : Tag → Bool
  | prim _ => false
  | user _ => true

def isActive : Tag → Bool
  | prim p => p.isActive
  | user _ => false

end Tag

end Typesetter

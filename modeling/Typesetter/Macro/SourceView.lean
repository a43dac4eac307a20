import Typesetter.Derived.Style
import Typesetter.Diagnostic
import Typesetter.Macro.Expansion
import Typesetter.Settings.InactiveMode
/-!
The source view: a tree that shows how another one is built, without evaluating it. Occurrences of a
target are highlighted and shown with what they stand for; the recursion policy decides about
occurrences inside of that.
-/

namespace Typesetter.SourceView

inductive Target where
  | argument (name : String)
  | value (name : String)
  | application (name : String)
  deriving DecidableEq, Repr

namespace Target

def ofTree? : Tree → Option Target
  | .atom name => if name = "" then none else some (application name)
  | .node (.prim .arg) (.atom name :: _) => some (argument name)
  | .node (.prim .value) (.atom name :: _) => some (value name)
  | _ => none

def name : Target → String
  | argument name | value name | application name => name

def occursAs : Target → Tag → List Tree → Bool
  | argument x, .prim .arg, .atom y :: _ => x = y
  | value x, .prim .value, .atom y :: _ => x = y
  | application m, .user name, _ => m = name
  | application m, .prim .compound, .atom name :: _ => m = name
  | _, _, _ => false

end Target

structure Layout where
  block : Bool
  flush : Bool
  deriving DecidableEq, Repr

def Layout.inline : Layout := ⟨false, false⟩
def Layout.line : Layout := ⟨true, true⟩

structure Setting where
  target : Option Target
  policy : RecursionPolicy
  maxDepth : Nat
  special : SourceSpecial
  compact : SourceCompact
  close : SourceClose
  scope : Scope
  store : Store
  registry : Registry

abbrev Rendering := StateM (Array Diagnostic)

def record (d : Diagnostic) : Rendering Unit := modify (·.push d)

namespace Setting

def isTarget (s : Setting) (tag : Tag) (cs : List Tree) : Bool :=
  s.target.any (·.occursAs tag cs)

/-- What an occurrence stands for: the bound argument, the value of the variable, or the body of the
macro with its arguments. -/
def expansion? (s : Setting) (t : Tree) : Option Tree :=
  match s.target with
  | none => none
  | some (.argument name) => (s.scope.value? name).bind (·.follow? t.children.tail)
  | some (.value name) =>
    let value := s.store.read name
    if value.isUninit then none else some value
  | some (.application _) =>
    let expanded := Expansion.expand s.store s.registry t
    if expanded = t then none else some expanded

def isBlock (s : Setting) (layout : Layout) (args : List Tree) : Bool :=
  let hasDocument := args.any (·.hasTag Primitive.document)
  match s.compact with
  | .all => false
  | .inline => hasDocument
  | .normal => layout.block && hasDocument
  | .none => layout.block

def closeTag (s : Setting) (name : String) (args : List Tree) : Tree :=
  .node Primitive.closeTag <| match s.close with
    | .compact => []
    | .long => [.atom name]
    | .repeat => .atom name :: args.take 1

def blockLines (flush : Bool) (opening : Tree) (args : List Tree) (closing : Tree) : List Tree :=
  if flush then opening :: args ++ [closing]
  else
    let lines := opening :: args
    lines.dropLast ++ [.node Primitive.concat [lines.getLastD opening, closing]]

def tagView (s : Setting) (name : String) (layout : Layout) (block : Bool) (args : List Tree) :
    Tree :=
  if block then
    let opening := .node Primitive.openTag [.atom name]
    .node Primitive.document (blockLines layout.flush opening args (s.closeTag name args))
  else .node Primitive.inlineTag (.atom name :: args)

def argumentLayout (block : Bool) (arg : Tree) : Layout :=
  if block && arg.hasTag Primitive.document then .line else .inline

end Setting

inductive Plan where
  | leaf (view : Tree)
  | children (layout : Tree → Layout) (build : List Tree → Tree)
  | tail (layout : Tree → Layout) (build : List Tree → Tree)

def rawText : List Tree → String
  | .atom s :: _ => toString s.utf8ByteSize ++ " bytes"
  | _ => "0 bytes"

namespace Setting

def tagChildren (s : Setting) (name : String) (layout : Layout) (cs : List Tree) : Plan :=
  let block := s.isBlock layout cs
  .children (argumentLayout block) (s.tagView name layout block)

def tagTail (s : Setting) (name : String) (layout : Layout) (cs : List Tree) : Plan :=
  let block := s.isBlock layout cs
  .tail (argumentLayout block) (s.tagView name layout block)

def plan (s : Setting) (tag : Tag) (cs : List Tree) (layout : Layout) : Plan :=
  match tag with
  | .user name => s.tagChildren name layout cs
  | .prim p =>
    match p with
    | .arg => .leaf (.node Primitive.srcArg cs)
    | .value => .leaf (.node Primitive.srcValue cs)
    | .symbol => .leaf (.node Primitive.srcSymbol cs)
    | .hybrid => .leaf (.node Primitive.srcHybrid cs)
    | .rawData => .leaf (.node Primitive.srcRaw [.atom (rawText cs)])
    | .document =>
      if s.special = .raw then s.tagChildren p.name layout cs
      else .children (fun _ => .line) (.node tag)
    | .concat =>
      if s.special = .raw then s.tagChildren p.name layout cs
      else .children (fun _ => .inline) (.node tag)
    | .tuple | .point => s.tagChildren p.name layout cs
    | .compound =>
      match cs with
      | .atom name :: args => s.tagTail name layout args
      | _ => s.tagChildren p.name layout cs
    | p => if p.isActive then s.tagChildren p.name layout cs else .leaf (.node tag cs)

end Setting

abbrev Marking := Tree → Layout → Rendering Tree → Rendering Tree

mutual

def render (s : Setting) (mark : Marking) : Tree → Layout → Rendering Tree
  | .atom label, _ => pure (.atom label)
  | .node tag cs, layout =>
    let plain : Rendering Tree :=
      match s.plan tag cs layout with
      | .leaf view => pure view
      | .children childLayout build => build <$> renderList s mark childLayout cs
      | .tail childLayout build => build <$> renderTail s mark childLayout cs
    if s.isTarget tag cs then mark (.node tag cs) layout plain else plain

def renderList (s : Setting) (mark : Marking) (layout : Tree → Layout) :
    List Tree → Rendering (List Tree)
  | [] => pure []
  | c :: cs => do
    let view ← render s mark c (layout c)
    let views ← renderList s mark layout cs
    return view :: views

def renderTail (s : Setting) (mark : Marking) (layout : Tree → Layout) :
    List Tree → Rendering (List Tree)
  | [] => pure []
  | _ :: cs => renderList s mark layout cs

end

def nestedFault (s : Setting) : Fault :=
  { cause := .nestedReference ((s.target.map (·.name)).getD "")
    context := some Primitive.viewInactive.name }

def stopped (limit : Nat) : Diagnostic :=
  ⟨.info, "expansion stopped at depth " ++ toString limit, some Primitive.viewInactive.name⟩

/-- Highlight an occurrence, and show its expansion unless no further level is allowed. -/
def highlight (s : Setting) (deeper : Option (Tree → Layout → Rendering Tree)) : Marking :=
  fun t layout plain => do
    let highlighted := Tree.node Primitive.srcHighlight [← plain]
    match deeper with
    | none =>
      record (stopped s.maxDepth)
      return highlighted
    | some expand =>
      match s.expansion? t with
      | none => return highlighted
      | some expansion =>
        let view ← expand expansion layout
        return .node Primitive.srcExpand [highlighted, view]

def markNested (s : Setting) (deeper : Option (Tree → Layout → Rendering Tree)) : Marking :=
  fun t layout plain =>
    match s.policy with
    | .recurse => highlight s deeper t layout plain
    | .once => plain
    | .error => do
      let fault := nestedFault s
      if let some d := fault.diagnostic? then record d
      return fault.toTree

def renderNested (s : Setting) : Nat → Tree → Layout → Rendering Tree
  | 0 => render s (markNested s none)
  | levels + 1 => render s (markNested s (some (renderNested s levels)))

def view (s : Setting) (t : Tree) (layout : Layout) : Rendering Tree :=
  match s.maxDepth with
  | 0 => render s (highlight s none) t layout
  | levels + 1 => render s (highlight s (some (renderNested s levels))) t layout

end Typesetter.SourceView

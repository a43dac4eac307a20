import Typesetter.Proofs.Evaluation.Partial
import Typesetter.Proofs.Tree.Every

namespace Typesetter

def Tag.IsUnescaped (tag : Tag) : Prop := tag ≠ Primitive.unquote ∧ tag ≠ Primitive.unquoteSplice

instance (tag : Tag) : Decidable tag.IsUnescaped := inferInstanceAs (Decidable (_ ∧ _))

namespace Tree

def literal (t : Tree) : Tree := node Primitive.quote [t]

mutual

/-- The second tree is the first one with some of its disjoint parts escaped. -/
inductive Escapes : Tree → Tree → Prop
  | label (s : String) : Escapes (atom s) (atom s)
  | node (tag : Tag) {cs ds : List Tree} : EscapesAll cs ds → Escapes (node tag cs) (node tag ds)
  | unquoted (t : Tree) : Escapes t (node Primitive.unquote [literal t])

inductive EscapesAll : List Tree → List Tree → Prop
  | nil : EscapesAll [] []
  | cons {c d : Tree} {cs ds : List Tree} : Escapes c d → EscapesAll cs ds →
      EscapesAll (c :: cs) (d :: ds)
  | spliced (us : List Tree) {cs ds : List Tree} : EscapesAll cs ds →
      EscapesAll (us ++ cs) (node Primitive.unquoteSplice [literal (tuple us)] :: ds)

end

end Tree

variable {eval : Evaluator} {s t : Tree} {cs ds : List Tree} {tag : Tag}

theorem quasiquote_node (htag : tag.IsUnescaped) :
    Rule.quasiquote eval (.node tag cs) = do return .node tag (← Rule.quasiquoteList eval cs) :=
  Rule.quasiquote.eq_3 eval tag cs fun _ _ h _ => htag.1 h

theorem quasiquoteList_cons (hc : ∀ body rest, t ≠ .node Primitive.unquoteSplice (body :: rest)) :
    Rule.quasiquoteList eval (t :: ds) = do
      let v ← Rule.quasiquote eval t
      return v :: (← Rule.quasiquoteList eval ds) :=
  Rule.quasiquoteList.eq_3 eval t ds hc

theorem quasiquoteList_spliced (heval : ∀ t : Tree, eval t.literal = pure t) (us : List Tree) :
    Rule.quasiquoteList eval (.node Primitive.unquoteSplice [(Tree.tuple us).literal] :: ds) = do
      return us ++ (← Rule.quasiquoteList eval ds) := by
  have hoperand : Rule.operand eval (Tree.tuple us).literal = pure (Tree.tuple us) := by
    rw [Rule.operand, heval, pure_bind]
    rfl
  rw [Rule.quasiquoteList, hoperand, pure_bind]
  simp only [Tree.tuple, pure_bind]

namespace Tree

theorem Escapes.not_spliced (h : s.Escapes t) (hs : s.Uses Tag.IsUnescaped) (body : Tree)
    (rest : List Tree) : t ≠ Tree.node Primitive.unquoteSplice (body :: rest) := by
  rintro rfl
  cases h with
  | node _ _ => exact hs.here.2 rfl

mutual

theorem Escapes.quasiquote_eq {eval : Evaluator} {s t : Tree} (h : s.Escapes t)
    (heval : ∀ t : Tree, eval t.literal = pure t) (hs : s.Uses Tag.IsUnescaped) :
    Rule.quasiquote eval t = pure s := by
  cases h with
  | label s => rfl
  | node tag h => rw [quasiquote_node hs.here, h.quasiquoteList_eq heval fun c hc => hs.child hc, pure_bind]
  | unquoted s => exact heval s

theorem EscapesAll.quasiquoteList_eq {eval : Evaluator} {cs ds : List Tree} (h : EscapesAll cs ds)
    (heval : ∀ t : Tree, eval t.literal = pure t) (hcs : ∀ c ∈ cs, c.Uses Tag.IsUnescaped) :
    Rule.quasiquoteList eval ds = pure cs := by
  cases h with
  | nil => rfl
  | cons h hrest =>
    obtain ⟨hc, hcs⟩ := List.forall_mem_cons.1 hcs
    rw [quasiquoteList_cons (h.not_spliced hc), h.quasiquote_eq heval hc, pure_bind,
      hrest.quasiquoteList_eq heval hcs, pure_bind]
  | spliced us hrest =>
    have hcs := (List.forall_mem_append.1 hcs).2
    rw [quasiquoteList_spliced heval, hrest.quasiquoteList_eq heval hcs, pure_bind]

end

end Tree

theorem eval_literal (fuel : Nat) (t : Tree) : Typesetter.eval (fuel + 1) t.literal = pure t := rfl

theorem exec_quasiquote (h : s.Escapes t) (hs : s.Uses Tag.IsUnescaped) (fuel : Nat) (w : World)
    (st : State) : (exec (fuel + 2) (.node Primitive.quasiquote [t])).run w st = .ok (s, st) := by
  have hrule : exec (fuel + 2) (.node Primitive.quasiquote [t]) = Execution.absorbing
      (Evaluation.inContext Primitive.quasiquote.name
        (Rule.quasiquote (Typesetter.eval (fuel + 1)) t)) := rfl
  rw [hrule, h.quasiquote_eq (eval_literal fuel) hs]
  rfl

theorem exec_quasiquote_siblings :
    let sum : Tree := .node Primitive.plus [.atom "1", .atom "x"]
    let s : Tree := .tuple [.atom "a", .node Primitive.concat [sum, .atom "b", .atom "c"]]
    let t : Tree := .tuple [.atom "a", .node Primitive.concat
      [.node Primitive.unquoteSplice [(Tree.tuple []).literal], .node Primitive.unquote [sum.literal],
        .node Primitive.unquoteSplice [(Tree.tuple [.atom "b", .atom "c"]).literal]]]
    s.Escapes t ∧ s.Uses Tag.IsUnescaped ∧
      (exec 2 (.node Primitive.quasiquote [t])).run { base := "" } (State.fresh 600 default) =
        .ok (s, State.fresh 600 default) := by
  intro sum s t
  have hinner := Tree.EscapesAll.spliced [] (.cons (.unquoted sum) (.spliced [.atom "b", .atom "c"] .nil))
  have hescapes : s.Escapes t := .node _ (.cons (.label "a") (.cons (.node _ hinner) .nil))
  have hunescaped : s.Uses Tag.IsUnescaped := by decide
  exact ⟨hescapes, hunescaped, exec_quasiquote hescapes hunescaped 0 _ _⟩

end Typesetter

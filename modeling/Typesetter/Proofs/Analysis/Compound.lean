import Typesetter.Analysis.Dependency
import Typesetter.Proofs.Evaluation.Operands
/-!
A compound with a name for its head. Evaluation takes it for the node that has this name for its tag. The
analysis takes the name for that of a macro, and misses what a primitive of this name reads by itself.
-/

namespace Typesetter

variable {store : Store} {level : Nat} {m n : String} {args : List Tree}

theorem eval_compound_atom (fuel : Nat) (m : String) (args : List Tree) :
    eval (fuel + 2) (.node Primitive.compound (.atom m :: args)) =
      eval (fuel + 1) (.node (Tag.ofName m) args) := by
  have hm : eval (fuel + 1) (.atom m) = pure (.atom m) := rfl
  rw [eval, Rule.step_compound_atom hm]
  -- A fault of the node has the node for its context already.
  exact Rule.inContext_inContext Primitive.compound.name (Tag.ofName m).name _

namespace Dependency

theorem depends_user (h : Primitive.ofName? m = none) :
    depends store (.node (Tag.ofName m) args) n level =
      depends store (.node Primitive.compound (.atom m :: args)) n level := by
  have htag : Tag.ofName m = .user m := by rw [Tag.ofName, h]
  rw [htag]
  simp [depends, reads, readsAny, readsItself, onlyNames]

theorem depends_primitive {p : Primitive} (h : Primitive.ofName? m = some p)
    (hown : readsItself (macroReads store n level) n p args = false)
    (hreads : depends store (.node (Tag.ofName m) args) n level) :
    depends store (.node Primitive.compound (.atom m :: args)) n level := by
  have htag : Tag.ofName m = .prim p := by rw [Tag.ofName, h]
  have hany : readsAny (macroReads store n level) n args := by
    rw [htag, depends, reads, hown, Bool.false_or, Bool.and_eq_true] at hreads
    exact hreads.2
  simp [depends, reads, readsAny, onlyNames, hany]

end Dependency

open Dependency

theorem compound_agrees (store : Store) (m n : String) (args : List Tree) (level : Nat)
    (hown : ∀ p, Primitive.ofName? m = some p →
      readsItself (macroReads store n level) n p args = false) :
    (∀ fuel, exec (fuel + 2) (.node Primitive.compound (.atom m :: args)) =
      exec (fuel + 1) (.node (Tag.ofName m) args)) ∧
    (depends store (.node (Tag.ofName m) args) n level →
      depends store (.node Primitive.compound (.atom m :: args)) n level) := by
  refine ⟨fun fuel => congrArg Execution.absorbing (eval_compound_atom fuel m args), fun hreads => ?_⟩
  cases hm : Primitive.ofName? m with
  | none => rwa [← depends_user hm]
  | some p => exact depends_primitive hm (hown p hm) hreads

namespace Compound

def reader : Store :=
  Store.write {} "m" (.node Primitive.macroDef [.atom "a", .node Primitive.value [.atom "x"]])

end Compound

theorem compound_agrees_reader :
    depends Compound.reader (.node (Tag.ofName "m") [.atom "1"]) "x" 1 ∧
    depends Compound.reader (.node Primitive.compound [.atom "m", .atom "1"]) "x" 1 :=
  have hm : Primitive.ofName? "m" = none := by decide
  have h : depends Compound.reader (.node (Tag.ofName "m") [.atom "1"]) "x" 1 := by rfl
  ⟨h, (compound_agrees Compound.reader "m" "x" [.atom "1"] 1 (by simp [hm])).2 h⟩

theorem not_depends_compound_value : (∀ a ∈ Primitive.value.arity?, a.admits 1) ∧
    Tag.ofName "value" = Primitive.value ∧
    depends {} (.node (Tag.ofName "value") [.atom "n"]) "n" 64 ∧
    ¬ depends {} (.node Primitive.compound [.atom "value", .atom "n"]) "n" 64 :=
  ⟨by decide, by decide, by decide, by decide⟩

end Typesetter

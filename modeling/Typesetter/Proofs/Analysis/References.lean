import Typesetter.Proofs.Analysis.Coverage

namespace Typesetter

open Dependency

variable {f : String → Bool} {n : String} {tag : Tag} {cs : List Tree} {t : Tree}

namespace Dependency

def Admitted (tag : Tag) (cs : List Tree) : Prop := ∀ a ∈ tag.arity?, a.admits cs.length

instance (tag : Tag) (cs : List Tree) : Decidable (Admitted tag cs) :=
  inferInstanceAs (Decidable (∀ a ∈ tag.arity?, _))

/-- A node that names the variable, or applies the macro of this name. -/
inductive Refers (n : String) : Tag → List Tree → Prop
  | value : Refers n (.prim .value) [.atom n]
  | arg (indices : List Tree) : Refers n (.prim .arg) (.atom n :: indices)
  | provides : Refers n (.prim .provides) [.atom n]
  | evalArgs : Refers n (.prim .evalArgs) [.atom n]
  | user (args : List Tree) : Refers n (.user n) args
  | compound (args : List Tree) : Refers n (.prim .compound) (.atom n :: args)

theorem Admitted.namesOne (h : Admitted tag cs) : NamesOne tag cs := by
  rintro p rfl hnames
  cases p with
  | provides | evalArgs =>
    have hone : Arity.admits (.exactly 1) cs.length := h _ rfl
    simp only [Arity.admits, Arity.exactly, Option.all_some, Bool.and_eq_true, decide_eq_true_eq] at hone
    exact hone.2
  | _ => cases hnames

theorem reads_iff_part (h : t.Every Admitted) :
    reads f n t ↔ ∃ tag cs, (Tree.node tag cs).IsPart t ∧ readsHere f n tag cs := by
  induction h with
  | atom s =>
    constructor
    · nofun
    · rintro ⟨_, _, hpart, _⟩
      cases hpart
  | @node tag cs htag _ ih =>
    rw [reads_node htag.namesOne]
    constructor
    · rintro (hhere | ⟨c, hc, hreads⟩)
      · exact ⟨tag, cs, .refl, hhere⟩
      · obtain ⟨tag', cs', hpart, hhere⟩ := (ih c hc).1 hreads
        exact ⟨tag', cs', .child hc hpart, hhere⟩
    · rintro ⟨tag', cs', hpart, hhere⟩
      cases hpart with
      | refl => exact .inl hhere
      | child hc hpart => exact .inr ⟨_, hc, (ih _ hc).2 ⟨tag', cs', hpart, hhere⟩⟩

theorem macroReads_self (store : Store) (n : String) (level : Nat) : macroReads store n level n := by
  cases level <;> simp [macroReads]

theorem Refers.readsHere (h : Refers n tag cs) (store : Store) (level : Nat) :
    Dependency.readsHere (macroReads store n level) n tag cs := by
  cases h with
  | value | arg | provides | evalArgs => exact decide_eq_true rfl
  | user | compound => exact macroReads_self store n level

end Dependency

theorem depends_of_refers (hadmitted : t.Every Admitted) (hpart : (Tree.node tag cs).IsPart t)
    (h : Refers n tag cs) (store : Store) (level : Nat) : depends store t n level :=
  (reads_iff_part hadmitted).2 ⟨tag, cs, hpart, h.readsHere store level⟩

def quotedReference : Tree :=
  .node Primitive.quote [.node Primitive.macroDef [.atom "x",
    .node Primitive.concat [.node Primitive.provides [.atom "x"], .node Primitive.arg [.atom "y", .atom "0"]]]]

theorem depends_of_refers_quoted : quotedReference.Every Admitted ∧
    (Tree.node Primitive.arg [.atom "y", .atom "0"]).IsPart quotedReference ∧
    depends {} quotedReference "y" 0 := by
  have hadmitted : quotedReference.Every Admitted := by decide
  have hpart : (Tree.node Primitive.arg [.atom "y", .atom "0"]).IsPart quotedReference :=
    .child List.mem_cons_self (.child (List.mem_cons_of_mem _ List.mem_cons_self)
      (.child (List.mem_cons_of_mem _ List.mem_cons_self) .refl))
  exact ⟨hadmitted, hpart, depends_of_refers hadmitted hpart (.arg [.atom "0"]) {} 0⟩

end Typesetter

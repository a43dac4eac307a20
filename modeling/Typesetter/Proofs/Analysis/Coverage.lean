import Typesetter.Proofs.Analysis.View
import Typesetter.Proofs.Logic.Basic

namespace Typesetter

open Dependency

namespace Dependency

/-- Where no macro is applied, neither by its name nor by a computed one, and no argument twice. -/
def Direct : Tag → Prop
  | .user _ | .prim .compound | .prim .evalArgs => False
  | .prim _ => True

/-- The analysis leaves out what follows the first child of such a node. -/
def NamesOnly (tag : Tag) (cs : List Tree) : Prop := tag = Primitive.provides → cs.length ≤ 1

instance : DecidablePred Direct
  | .user _ => .isFalse id
  | .prim p => decidable_of_iff (p ≠ .compound ∧ p ≠ .evalArgs) (by cases p <;> simp [Direct])

instance (tag : Tag) (cs : List Tree) : Decidable (NamesOnly tag cs) :=
  inferInstanceAs (Decidable (_ → _))

/-- Nodes that the analysis deals with, when these macros may be applied and these trees may be put off:
macros stay as they are, and the source view does not put arguments in trees that are put off. -/
def Plain (macros : String → Prop) (late : Tree → Prop) : Tag → List Tree → Prop
  | .user m, _ => macros m
  | .prim .compound, _ | .prim .evalArgs, _ => False
  | .prim .provides, cs => cs.length ≤ 1
  | .prim .assign, x :: _ => ∀ m, x.MayName m → ¬ macros m
  | .prim .withVars, cs => ∀ b ∈ (Form.pairs cs).1, ∀ m, b.1.MayName m → ¬ macros m
  | .prim .viewInactive, _ :: .atom _ :: _ => (∃ m, macros m) → ∀ u, ¬ late u
  | .prim p, cs => (∃ m, macros m) → Tree.Defers late p cs

variable {macros : String → Prop} {late : Tree → Prop} {n m : String} {tag : Tag} {cs : List Tree}
  {t c : Tree} {store : Store} {level : Nat} {f : String → Bool}

theorem Plain.defers (h : Plain macros late tag cs) (hm : ∃ m, macros m) : Tree.Defers late tag cs := by
  unfold Plain at h
  split at h
  all_goals first
    | trivial
    | exact h hm

theorem plain_of_direct (htag : Direct tag) (hcs : NamesOnly tag cs) :
    Plain (fun _ => False) late tag cs := by
  unfold Plain
  split
  · exact htag
  · exact htag
  · exact htag
  · exact hcs rfl
  · exact fun _ _ h => h
  · exact fun _ _ _ _ h => h
  · exact fun ⟨_, h⟩ => h.elim
  · exact fun ⟨_, h⟩ => h.elim

theorem readsAny_eq_false : readsAny f n cs = false ↔ ∀ c ∈ cs, reads f n c = false := by
  induction cs with
  | nil => simp [readsAny]
  | cons c cs ih => simp [readsAny, ih]

theorem readsAny_congr {g : String → Bool} (h : ∀ c ∈ cs, reads f n c = reads g n c) :
    readsAny f n cs = readsAny g n cs := by
  induction cs with
  | nil => rfl
  | cons c cs ih =>
    obtain ⟨hc, hcs⟩ := List.forall_mem_cons.1 h
    rw [readsAny, readsAny, hc, ih hcs]

theorem readsItself_congr {p : Primitive} (hp : p ≠ .compound) (f g : String → Bool) :
    readsItself f n p cs = readsItself g n p cs := by
  cases p <;> first
    | exact absurd rfl hp
    | rfl
    | (rcases cs with _ | ⟨_ | _, _⟩ <;> rfl)

theorem reads_direct (h : t.Every fun tag _ => Direct tag) (f g : String → Bool) :
    reads f n t = reads g n t := by
  induction h with
  | atom s => rfl
  | @node tag cs htag _ ih =>
    cases tag with
    | user m => exact htag.elim
    | prim p =>
      have hp : p ≠ .compound := by
        rintro rfl
        exact htag
      rw [reads, reads, readsItself_congr hp f g, readsAny_congr ih]

theorem ne_of_macroReads (h : macroReads store n level m = false) : m ≠ n := by
  rintro rfl
  cases level <;> simp [macroReads] at h

theorem reads_body {body : Tree} (h : macroReads store n (level + 1) m = false)
    (hm : (store.read m).isMacroDef) (hbody : (store.read m).children.getLast? = some body) :
    reads (macroReads store n level) n body = false := by
  rw [macroReads, Bool.or_eq_false_iff, hm, hbody, Bool.true_and] at h
  exact h.2

theorem reads_body_within {body : Tree} {d limit : Nat} (h : macroReads store n level m = false)
    (hlevel : limit ≤ d + level) (hd : d < limit) (hm : (store.read m).isMacroDef)
    (hbody : (store.read m).children.getLast? = some body) :
    ∃ below, limit ≤ d + 1 + below ∧ reads (macroReads store n below) n body = false := by
  obtain ⟨below, rfl⟩ : ∃ l, level = l + 1 := ⟨level - 1, by omega⟩
  exact ⟨below, by omega, reads_body h hm hbody⟩

theorem readsAny_iff : readsAny f n cs ↔ ∃ c ∈ cs, reads f n c := by
  rw [← Bool.not_eq_false, readsAny_eq_false]
  simp

def readsHere (f : String → Bool) (n : String) : Tag → List Tree → Bool
  | .user m, _ => f m
  | .prim p, cs => readsItself f n p cs

def NamesOne (tag : Tag) (cs : List Tree) : Prop := ∀ p, tag = .prim p → onlyNames p → cs.length ≤ 1

theorem reads_node (h : NamesOne tag cs) :
    reads f n (.node tag cs) ↔ readsHere f n tag cs ∨ ∃ c ∈ cs, reads f n c := by
  cases tag with
  | user m => rw [reads, Bool.or_eq_true, readsAny_iff, readsHere]
  | prim p =>
    rw [reads, Bool.or_eq_true, Bool.and_eq_true, readsAny_iff, readsHere]
    refine ⟨Or.imp_right And.right, ?_⟩
    rintro (hhere | ⟨c, hc, hreads⟩)
    · exact .inl hhere
    by_cases hnames : onlyNames p
    · -- The one child is computed, and may be any name: what is written out reads nothing.
      match cs, h p rfl hnames, hc with
      | [.atom x], _, hc =>
        obtain rfl := List.mem_singleton.1 hc
        cases hreads
      | [.node ..], _, _ =>
        left
        cases p with
        | provides | evalArgs => rfl
        | _ => cases hnames
    · exact .inr ⟨by rw [Bool.eq_false_iff.2 hnames, Bool.not_false], c, hc, hreads⟩

theorem Plain.namesOne (h : Plain macros late tag cs) : NamesOne tag cs := by
  rintro p rfl hnames
  cases p with
  | provides => exact h
  | evalArgs => exact h.elim
  | _ => cases hnames

theorem reads_child (hp : Plain macros late tag cs) (h : reads f n (.node tag cs) = false) (hc : c ∈ cs) :
    reads f n c = false := by
  rw [Bool.eq_false_iff] at h ⊢
  exact fun hreads => h ((reads_node hp.namesOne).2 (.inr ⟨c, hc, hreads⟩))

theorem target_ne {target : Tree} (h : reads f n target = false) (ht : target ≠ .atom n)
    {g : SourceView.Target} (hg : SourceView.Target.ofTree? target = some g) : g.name ≠ n := by
  unfold SourceView.Target.ofTree? at hg
  split at hg
  · split at hg
    · cases hg
    · cases hg
      exact fun hn => ht (congrArg Tree.atom hn)
  · cases hg
    rw [reads, Bool.or_eq_false_iff] at h
    exact of_decide_eq_false h.1
  · cases hg
    rw [reads, Bool.or_eq_false_iff] at h
    exact of_decide_eq_false h.1
  · cases hg

theorem isAtom_of_application {target : Tree}
    (h : SourceView.Target.ofTree? target = some (.application m)) : target.isAtom := by
  unfold SourceView.Target.ofTree? at h
  split at h
  · rfl
  all_goals cases h

end Dependency

namespace Form

def Spares (macros : String → Prop) (late : Tree → Prop) (n : String) : Form → Prop
  | value x | arg x _ | provides x => ∀ y, x.MayName y → y ≠ n
  | evalArgs _ | apply .. | compound .. | includeFile _ => False
  | assign x _ => ∀ y, x.MayName y → ¬ macros y
  | withVars bindings _ => ∀ b ∈ bindings, ∀ y, b.1.MayName y → ¬ macros y
  | plus .. | minus .. | times .. | ratio .. | equality .. | comparison .. => ¬ isUnitVariable n
  | viewInactive _ target => n ∉ sourceViewVariables ∧ target ≠ .atom n ∧
    (target.isAtom → (∃ m, macros m) → ∀ u, ¬ late u)
  | _ => True

variable {macros : String → Prop} {late : Tree → Prop} {n : String} {q : Primitive} {cs : List Tree}
  {f : Form} {reads : String → Bool}

theorem ne_of_mayName (hq : q = .value ∨ q = .arg ∨ q = .provides) {x : Tree}
    (hr : readsItself reads n q (x :: cs) = false) : ∀ y, x.MayName y → y ≠ n := by
  intro y hy
  cases x with
  | node tag cs => rcases hq with rfl | rfl | rfl <;> cases hr
  | atom s =>
    cases hy
    rcases hq with rfl | rfl | rfl <;> exact of_decide_eq_false hr

theorem not_isUnitVariable (hq : readsUnits q) (hr : readsItself reads n q cs = false) :
    ¬ isUnitVariable n := by
  cases q <;> first
    | exact absurd hq (by decide)
    | simpa [readsItself, readsUnits] using hr

theorem spares_viewInactive {t target : Tree} (hp : Plain macros late Primitive.viewInactive [t, target])
    (hr : readsItself reads n .viewInactive [t, target] = false) :
    (viewInactive t target).Spares macros late n := by
  have hhere : n ∉ sourceViewVariables ∧ target ≠ .atom n := by simpa [readsItself] using hr
  refine ⟨hhere.1, hhere.2, fun hatom => ?_⟩
  cases target with
  | atom x => exact hp
  | node tag cs => cases hatom

theorem spares_ofPrimitive? (hp : Plain macros late (.prim q) cs)
    (hr : readsItself reads n q cs = false) (h : ofPrimitive? q cs = some f) : f.Spares macros late n := by
  revert h
  rcases cs with _ | ⟨a, _ | ⟨b, _ | ⟨c, _ | ⟨d, rest⟩⟩⟩⟩ <;> cases q
  all_goals
    intro h
    first
    | (cases Option.some.inj h; exact hp)
    | (cases Option.some.inj h; trivial)
    | (cases Option.some.inj h; exact ne_of_mayName (by decide) hr)
    | (cases Option.some.inj h; exact not_isUnitVariable rfl hr)
    | (cases Option.some.inj h; exact spares_viewInactive hp hr)
    | exact absurd h.symm (Option.some_ne_none f)

end Form

end Typesetter

import Typesetter.Proofs.Tree.Reading
import Typesetter.Proofs.Vocabulary.Basic
/-!
What evaluation makes of trees that were read can be read back from its text, as long as no node gets a
name that was computed.
-/

namespace Typesetter

def Tree.IsRead (t : Tree) : Prop := ∃ source, Tree.read source = .ok t

def World.Reads (w : World) (t : Tree) : Prop :=
  t.IsRead ∧ (w.settings.strict ∨ t.Uses (· ≠ Primitive.compound))

inductive Tree.IsResult : Tree → Prop
  | exec {fuel : Nat} {w : World} {s s' : State} {t r : Tree} : w.Holds w.Reads → s.Holds w.Reads →
      w.Reads t → (exec fuel t).run w s = .ok (r, s') → IsResult r

namespace Vocabulary

def readable (w : World) : Vocabulary :=
  ⟨w, fun tag => tag.IsReadable ∧ (tag = Primitive.compound → w.settings.strict)⟩

theorem value_of_reads {w : World} {t : Tree} (h : w.Reads t) : (readable w).Value t := by
  obtain ⟨⟨source, hread⟩, hcompound⟩ := h
  have hreadable := (Tree.readable_of_read hread).1
  rcases hcompound with hstrict | hnone
  · exact hreadable.mono fun _ _ htag => ⟨htag, fun _ => hstrict⟩
  · exact (hreadable.both hnone).mono fun _ _ htag => ⟨htag.1, fun he => absurd he htag.2⟩

theorem grounded_readable {w : World} (hw : w.Holds w.Reads) : (readable w).Grounded :=
  { hw.mono fun _ => value_of_reads with
    own := fun p hp => ⟨trivial, fun he => absurd hp (Tag.prim.inj he ▸ by decide)⟩
    computed := fun h x => by
      have hstrict := h.2 rfl
      cases hx : Tag.ofName x with
      | prim p => exact .inl ⟨trivial, fun _ => hstrict⟩
      | user name => exact .inr ⟨hstrict, rfl⟩ }

end Vocabulary

open Typesetter.Tree Reader Vocabulary

theorem Tree.IsResult.readable {r : Tree} (h : r.IsResult) : r.Readable := by
  obtain ⟨hw, hs, ht, hrun⟩ := h
  have hvalue := exec_keeps (grounded_readable hw) (hs.mono fun _ => value_of_reads) (value_of_reads ht) hrun
  obtain ⟨_, _, ⟨hno, _⟩ | ⟨hr, _⟩⟩ := hvalue
  · exact absurd ⟨trivial, nofun⟩ hno
  · exact hr.mono fun _ _ htag => htag.1

theorem read_text_of_isResult {r : Tree} (h : r.IsResult) (hdeep : r.nesting ≤ maxNesting) :
    Tree.read r.text = .ok r ∧
      ∀ u : Tree, u.IsResult → u.nesting ≤ maxNesting → u.text = r.text → u = r := by
  have hr := read_text_of_readable h.readable hdeep
  refine ⟨hr, fun u hu hudeep htext => ?_⟩
  have hread := read_text_of_readable hu.readable hudeep
  rw [htext, hr] at hread
  exact (Except.ok.inj hread).symm

namespace Printing

def greeting : Tree := .node Primitive.compound [.atom "greet", .atom "a b"]

def definition : Tree :=
  .node Primitive.macroDef
    [.atom "x", .node Primitive.concat [.atom "hello", .node Primitive.arg [.atom "x"]]]

def greeted : Tree := .node Primitive.concat [.atom "hello", .atom "a b"]

def greeter : State := (State.fresh 600 default).write "greet" definition

def demanding : World := { base := "", settings := { strict := true } }

def naming : Tree := .node Primitive.compound [.atom "two words", .atom "a"]

def named : Tree := .node (.user "two words") [.atom "a"]

end Printing

open Printing

theorem read_text_of_isResult_greeted : greeted.IsResult ∧ greeted.nesting ≤ maxNesting ∧
    Tree.read greeted.text = .ok greeted ∧
      ∀ u : Tree, u.IsResult → u.nesting ≤ maxNesting → u.text = greeted.text → u = greeted := by
  have hstrict (t : Tree) (ht : t.IsRead) : demanding.Reads t := ⟨ht, .inl rfl⟩
  have hdefinition : definition.IsRead := ⟨"(macro x (concat hello (arg x)))", rfl⟩
  have hgreeting : greeting.IsRead := ⟨"(compound greet \"a b\")", rfl⟩
  have hgreeter : greeter.Holds demanding.Reads :=
    (State.holds_fresh 600 default).write "greet" (hstrict definition hdefinition)
  have hgreeted : greeted.IsResult :=
    @IsResult.exec 9 demanding greeter _ greeting greeted (World.holds_bare "" _) hgreeter
      (hstrict greeting hgreeting) rfl
  exact ⟨hgreeted, by decide, read_text_of_isResult hgreeted (by decide)⟩

theorem not_read_text_computed : naming.IsRead ∧ World.Holds IsRead { base := "" } ∧
    State.Holds IsRead (State.fresh 600 default) ∧
    (∃ s', (exec 9 naming).run { base := "" } (State.fresh 600 default) = .ok (named, s')) ∧
    named.nesting ≤ maxNesting ∧ Tree.read named.text ≠ .ok named := by
  have hread : Tree.read named.text = .ok (.node (.user "two") [.atom "words", .atom "a"]) := by rfl
  refine ⟨⟨"(compound \"two words\" a)", rfl⟩, World.holds_bare "" {}, State.holds_fresh 600 default,
    ⟨_, rfl⟩, by decide, ?_⟩
  rw [hread]
  exact fun h => absurd (Except.ok.inj h) (by decide)

end Typesetter

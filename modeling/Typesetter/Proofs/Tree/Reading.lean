import Typesetter.Proofs.Tree.Grammar

namespace Typesetter.Tree

open Grammar Reader Text

variable {c : Char} {w rest : List Char}

theorem isWord_of_isBare (h : isBare w) : IsWord w := by
  simp only [isBare, Bool.and_eq_true, decide_eq_true_eq, List.all_eq_true, Bool.not_eq_true'] at h
  exact ⟨h.1, fun c hc => (h.2 c hc).1⟩

theorem escape_eq_self (hq : c ≠ '"') (hb : c ≠ '\\') (hn : c ≠ '\n') (ht : c ≠ '\t') :
    escape c = [c] := by
  simp only [escape, if_neg hq, if_neg hb, if_neg hn, if_neg ht]

theorem quoted_escape {s l : List Char} (h : Quoted s l rest) (c : Char) :
    Quoted (escape c ++ s) (c :: l) rest := by
  by_cases hq : c = '"'
  · subst hq
    exact .escaped (by decide) (by decide) h
  by_cases hb : c = '\\'
  · subst hb
    exact .escaped (by decide) (by decide) h
  by_cases hn : c = '\n'
  · subst hn
    exact .newline h
  by_cases ht : c = '\t'
  · subst ht
    exact .tab h
  · rw [escape_eq_self hq hb hn ht]
    exact .plain hq hb h

theorem quoted_flatMap_escape (l rest : List Char) : Quoted (l.flatMap escape ++ '"' :: rest) l rest := by
  induction l with
  | nil => exact .close
  | cons c l ih =>
    rw [List.flatMap_cons, List.append_assoc]
    exact quoted_escape ih c

theorem denotes_labelChars (l : String) (hrest : Ends rest) :
    Denotes (labelChars l.toList ++ rest) (atom l) rest := by
  rw [← String.ofList_toList (s := l), String.toList_ofList]
  unfold labelChars
  by_cases h : isBare l.toList
  · rw [if_pos h]
    exact .word (isWord_of_isBare h) hrest
  · rw [if_neg h, quoted, List.cons_append, List.append_assoc]
    exact .quoted (quoted_flatMap_escape l.toList rest)

theorem ends_charsBeforeList (cs : List Tree) : Ends (charsBeforeList cs (')' :: rest)) := by
  intro c hc
  cases cs <;> cases hc <;> decide

mutual

theorem denotes_charsBefore (t : Tree) (ht : t.Readable) {rest : List Char} (hrest : Ends rest) :
    Denotes (t.charsBefore rest) t rest := by
  cases t with
  | atom l => exact denotes_labelChars l hrest
  | node tag cs =>
    have hnode := Denotes.node .nil ht.here.isWord (ends_charsBeforeList cs)
      (denotesAll_charsBeforeList cs (fun c hc => ht.child hc) rest)
    rwa [String.ofList_toList, ht.here.ofName_name] at hnode

theorem denotesAll_charsBeforeList (cs : List Tree) (hcs : ∀ c ∈ cs, c.Readable) (rest : List Char) :
    DenotesAll (charsBeforeList cs (')' :: rest)) cs rest := by
  cases cs with
  | nil => exact .close .nil
  | cons c cs =>
    obtain ⟨hc, hcs⟩ := List.forall_mem_cons.1 hcs
    have hspace : Trivia [' '] := .blank (by decide) .nil
    exact .cons hspace (denotes_charsBefore c hc (ends_charsBeforeList cs))
      (denotesAll_charsBeforeList cs hcs rest)

end

theorem document_chars {t : Tree} (ht : t.Readable) : Document t.chars t :=
  .intro .nil (denotes_charsBefore t ht nofun) (.closed .nil)

theorem read_text_of_readable {t : Tree} (ht : t.Readable) (hdeep : t.nesting ≤ maxNesting) :
    Tree.read t.text = .ok t := by
  rw [Tree.read, text, String.toList_ofList]
  exact readChars_of_document (document_chars ht) hdeep

theorem read_text : (∀ t : Tree, t.Readable → t.nesting ≤ maxNesting → Tree.read t.text = .ok t) ∧
    ∀ s t, Tree.read s = .ok t → Tree.read t.text = .ok t := by
  refine ⟨fun t ht hdeep => read_text_of_readable ht hdeep, fun s t h => ?_⟩
  obtain ⟨ht, hdeep⟩ := readable_of_read h
  exact read_text_of_readable ht hdeep

def quotable : Tree :=
  .node (.user "name*") [.atom "", .node Primitive.concat [.atom "a \"b\"\n", .atom "\\;"], .atom "é"]

def spaced : Tree := .node Primitive.concat [.atom "a", .atom "b c"]

theorem read_text_quotable :
    (quotable.Readable ∧ quotable.nesting ≤ maxNesting ∧ Tree.read quotable.text = .ok quotable) ∧
      Tree.read "( concat ; (\n \"a\" \"b c\")" = .ok spaced ∧ Tree.read spaced.text = .ok spaced :=
  have hspaced : Tree.read "( concat ; (\n \"a\" \"b c\")" = .ok spaced := by rfl
  ⟨⟨by decide, by decide, read_text.1 quotable (by decide) (by decide)⟩, hspaced,
    read_text.2 _ spaced hspaced⟩

end Typesetter.Tree

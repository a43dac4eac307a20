import Typesetter.Proofs.Tree.Readable
/-!
The grammar of texts, and that the reader takes every text of the grammar. A word ends where nothing
could make it longer, so a phrase is related to the text that starts with it and to the text behind it.
-/

namespace Typesetter.Tree

open Reader Text

namespace Grammar

inductive Trivia : List Char → Prop
  | nil : Trivia []
  | blank {c : Char} {v : List Char} : isBlank c → Trivia v → Trivia (c :: v)
  | comment {w v : List Char} : '\n' ∉ w → Trivia v → Trivia (';' :: (w ++ '\n' :: v))

/-- The last line of a text may be a comment as well. -/
inductive FinalTrivia : List Char → Prop
  | closed {v : List Char} : Trivia v → FinalTrivia v
  | comment {v w : List Char} : Trivia v → '\n' ∉ w → FinalTrivia (v ++ ';' :: w)

def Ends (rest : List Char) : Prop := ∀ c ∈ rest.head?, isDelimiter c

inductive Quoted : List Char → List Char → List Char → Prop
  | close {rest : List Char} : Quoted ('"' :: rest) [] rest
  | plain {c : Char} {s l rest : List Char} : c ≠ '"' → c ≠ '\\' → Quoted s l rest →
      Quoted (c :: s) (c :: l) rest
  | newline {s l rest : List Char} : Quoted s l rest → Quoted ('\\' :: 'n' :: s) ('\n' :: l) rest
  | tab {s l rest : List Char} : Quoted s l rest → Quoted ('\\' :: 't' :: s) ('\t' :: l) rest
  | escaped {c : Char} {s l rest : List Char} : c ≠ 'n' → c ≠ 't' → Quoted s l rest →
      Quoted ('\\' :: c :: s) (c :: l) rest

mutual

/-- A text starts with that of a tree, and what follows. -/
inductive Denotes : List Char → Tree → List Char → Prop
  | word {w rest : List Char} : IsWord w → Ends rest →
      Denotes (w ++ rest) (atom (String.ofList w)) rest
  | quoted {s l rest : List Char} : Quoted s l rest →
      Denotes ('"' :: s) (atom (String.ofList l)) rest
  | node {v w s rest : List Char} {cs : List Tree} : Trivia v → IsWord w → Ends s →
      DenotesAll s cs rest →
      Denotes ('(' :: (v ++ (w ++ s))) (node (Tag.ofName (String.ofList w)) cs) rest

inductive DenotesAll : List Char → List Tree → List Char → Prop
  | close {v rest : List Char} : Trivia v → DenotesAll (v ++ ')' :: rest) [] rest
  | cons {v s s' rest : List Char} {t : Tree} {cs : List Tree} : Trivia v → Denotes s t s' →
      DenotesAll s' cs rest → DenotesAll (v ++ s) (t :: cs) rest

end

inductive Document : List Char → Tree → Prop
  | intro {v s rest : List Char} {t : Tree} : Trivia v → Denotes s t rest → FinalTrivia rest →
      Document (v ++ s) t

end Grammar

open Grammar

namespace Reader.State

variable {s s' : State} {c : Char} {v w l rest : List Char} {o start : Nat} {stack : List OpenNode}
  {n : OpenNode} {t : Tree} {cs : List Tree}

def outcome (s : State) (cs : List Char) : Except ReadError Tree :=
  match s.steps cs with
  | .ok s' => s'.finish
  | .error e => .error e

theorem outcome_cons (h : s.accept c = .ok s') :
    s.outcome (c :: rest) = outcome { s' with offset := s.offset + c.utf8Size } rest := by
  simp only [outcome, steps, step, h, Except.map]

theorem outcome_congr (ho : s.offset = s'.offset) (h : s.accept c = s'.accept c) :
    s.outcome (c :: rest) = s'.outcome (c :: rest) := by
  simp only [outcome, steps, step, h, ho]

def between (o : Nat) (stack : List OpenNode) : State := ⟨o, stack, none, .gap false⟩

theorem not_delimiter (h : isDelimiter c = false) :
    isBlank c = false ∧ c ≠ '(' ∧ c ≠ ')' ∧ c ≠ '"' ∧ c ≠ ';' := by
  simpa [isDelimiter, and_assoc] using h

structure Skips (f : Bool → Focus) : Prop where
  blank (s : State) (c : Char) : isBlank c →
    accept { s with focus := f false } c = .ok { s with focus := f false }
  opening (s : State) : accept { s with focus := f false } ';' = .ok { s with focus := f true }
  inside (s : State) (c : Char) :
    accept { s with focus := f true } c = .ok { s with focus := f (c ≠ '\n') }

theorem skips_gap : Skips .gap where
  blank s c hc := by simp only [accept, atGap, hc, if_true]
  opening s := rfl
  inside s c := rfl

theorem skips_head (start : Nat) : Skips (.head start) where
  blank s c hc := by simp only [accept, atHead, hc, if_true]
  opening s := rfl
  inside s c := rfl

variable {f : Bool → Focus}

theorem outcome_comment (hf : Skips f) (hw : '\n' ∉ w) (stack : List OpenNode) (r : Option Tree)
    (rest : List Char) (o : Nat) : ∃ o', outcome ⟨o, stack, r, f true⟩ (w ++ rest) =
      outcome ⟨o', stack, r, f true⟩ rest := by
  induction w generalizing o with
  | nil => exact ⟨o, rfl⟩
  | cons c w ih =>
    obtain ⟨hc, hw⟩ := List.ne_and_not_mem_of_not_mem_cons hw
    have hinside := hf.inside ⟨o, stack, r, f true⟩ c
    rw [decide_eq_true (Ne.symm hc)] at hinside
    obtain ⟨o', h⟩ := ih hw (o + c.utf8Size)
    exact ⟨o', (outcome_cons hinside).trans h⟩

theorem outcome_trivia (hf : Skips f) (hv : Trivia v) (stack : List OpenNode) (r : Option Tree)
    (rest : List Char) (o : Nat) : ∃ o', outcome ⟨o, stack, r, f false⟩ (v ++ rest) =
      outcome ⟨o', stack, r, f false⟩ rest := by
  induction hv generalizing o with
  | nil => exact ⟨o, rfl⟩
  | @blank c v hc _ ih =>
    obtain ⟨o', h⟩ := ih (o + c.utf8Size)
    exact ⟨o', (outcome_cons (hf.blank ⟨o, stack, r, f false⟩ c hc)).trans h⟩
  | @comment w v hw _ ih =>
    have hopen := hf.opening ⟨o, stack, r, f false⟩
    obtain ⟨o₁, hcomment⟩ := outcome_comment hf hw stack r ('\n' :: (v ++ rest)) (o + 1)
    have hline := hf.inside ⟨o₁, stack, r, f true⟩ '\n'
    obtain ⟨o₂, h⟩ := ih (o₁ + 1)
    rw [List.cons_append, List.append_assoc]
    exact ⟨o₂, (outcome_cons hopen).trans (hcomment.trans ((outcome_cons hline).trans h))⟩

theorem outcome_finalTrivia (hv : FinalTrivia v) (o : Nat) (t : Tree) :
    outcome ⟨o, [], some t, .gap false⟩ v = .ok t := by
  cases hv with
  | closed hv =>
    obtain ⟨o', h⟩ := outcome_trivia skips_gap hv [] (some t) [] o
    rwa [List.append_nil] at h
  | @comment v w hv hw =>
    obtain ⟨o₁, h⟩ := outcome_trivia skips_gap hv [] (some t) (';' :: w) o
    obtain ⟨o₂, hcomment⟩ := outcome_comment skips_gap hw [] (some t) [] (o₁ + 1)
    rw [List.append_nil] at hcomment
    have hopen := skips_gap.opening ⟨o₁, [], some t, .gap false⟩
    exact h.trans ((outcome_cons hopen).trans hcomment)

theorem outcome_word {f : List Char → Focus} (hw : ∀ c ∈ w, isDelimiter c = false)
    (hf : ∀ (s : State) word c, isDelimiter c = false →
      accept { s with focus := f word } c = .ok { s with focus := f (c :: word) })
    (stack : List OpenNode) (rest : List Char) (o : Nat) (word : List Char) : ∃ o',
    outcome ⟨o, stack, none, f word⟩ (w ++ rest) =
      outcome ⟨o', stack, none, f (w.reverse ++ word)⟩ rest := by
  induction w generalizing o word with
  | nil => exact ⟨o, rfl⟩
  | cons c w ih =>
    obtain ⟨hc, hw⟩ := List.forall_mem_cons.1 hw
    obtain ⟨o', h⟩ := ih hw (o + c.utf8Size) (c :: word)
    rw [List.reverse_cons, List.append_assoc]
    exact ⟨o', (outcome_cons (hf ⟨o, stack, none, f word⟩ word c hc)).trans h⟩

theorem outcome_bare_end (h : Ends rest) : outcome ⟨o, stack, none, .bare w⟩ rest =
    outcome ((between o stack).complete (atom (String.ofList w.reverse))) rest := by
  cases rest with
  | nil => cases stack <;> rfl
  | cons c rest =>
    have hc : isDelimiter c = true := h c rfl
    -- The delimiter ends the word and is then read as if there had been none.
    refine outcome_congr ?_ ?_
    · cases stack <;> rfl
    · simp only [accept, if_pos hc]
      cases stack <;> rfl

theorem outcome_tagName_end (h : Ends rest) : outcome ⟨o, stack, none, .tagName start w⟩ rest =
    outcome (between o (⟨start, .ofName (String.ofList w.reverse), []⟩ :: stack)) rest := by
  cases rest with
  | nil => rfl
  | cons c rest =>
    have hc : isDelimiter c = true := h c rfl
    refine outcome_congr rfl ?_
    simp only [accept, if_pos hc]
    rfl

theorem outcome_plain (hq : c ≠ '"') (hb : c ≠ '\\') (o : Nat) (text rest : List Char) :
    outcome ⟨o, stack, none, .string start false text⟩ (c :: rest) =
      outcome ⟨o + c.utf8Size, stack, none, .string start false (c :: text)⟩ rest := by
  have h : accept ⟨o, stack, none, .string start false text⟩ c =
      .ok ⟨o, stack, none, .string start false (c :: text)⟩ := by
    simp only [accept, if_neg hq, if_neg hb]
  exact outcome_cons h

theorem outcome_escape (stack : List OpenNode) (start : Nat) (c : Char) (o : Nat) (text rest : List Char) :
    outcome ⟨o, stack, none, .string start false text⟩ ('\\' :: c :: rest) =
      outcome ⟨o + 1 + c.utf8Size, stack, none, .string start false (unescape c :: text)⟩ rest := by
  have hbackslash : accept ⟨o, stack, none, .string start false text⟩ '\\' =
      .ok ⟨o, stack, none, .string start true text⟩ := rfl
  have hescaped : accept ⟨o + 1, stack, none, .string start true text⟩ c =
      .ok ⟨o + 1, stack, none, .string start false (unescape c :: text)⟩ := rfl
  exact (outcome_cons hbackslash).trans (outcome_cons hescaped)

theorem outcome_quoted (h : Quoted v l rest) (stack : List OpenNode) (start o : Nat)
    (text : List Char) : ∃ o', outcome ⟨o, stack, none, .string start false text⟩ v =
      outcome ((between o' stack).complete (atom (String.ofList (text.reverse ++ l)))) rest := by
  induction h generalizing o text with
  | @close rest =>
    have hclose : accept ⟨o, stack, none, .string start false text⟩ '"' =
        .ok ((between o stack).complete (atom (String.ofList text.reverse))) := by
      cases stack <;> rfl
    refine ⟨o + 1, (outcome_cons hclose).trans ?_⟩
    rw [List.append_nil]
    cases stack <;> rfl
  | @plain c s l rest hq hb _ ih =>
    obtain ⟨o', h⟩ := ih (o + c.utf8Size) (c :: text)
    rw [List.reverse_cons, List.append_assoc] at h
    exact ⟨o', (outcome_plain hq hb o text s).trans h⟩
  | @newline s l rest _ ih =>
    obtain ⟨o', h⟩ := ih (o + 1 + 1) ('\n' :: text)
    rw [List.reverse_cons, List.append_assoc] at h
    exact ⟨o', (outcome_escape stack start 'n' o text s).trans h⟩
  | @tab s l rest _ ih =>
    obtain ⟨o', h⟩ := ih (o + 1 + 1) ('\t' :: text)
    rw [List.reverse_cons, List.append_assoc] at h
    exact ⟨o', (outcome_escape stack start 't' o text s).trans h⟩
  | @escaped c s l rest hn ht _ ih =>
    have hc : unescape c = c := by rw [unescape, if_neg hn, if_neg ht]
    obtain ⟨o', h⟩ := ih (o + 1 + c.utf8Size) (c :: text)
    rw [List.reverse_cons, List.append_assoc] at h
    have hescape := outcome_escape stack start c o text s
    rw [hc] at hescape
    exact ⟨o', hescape.trans h⟩

theorem outcome_bare (hw : IsWord w) (h : Ends rest) (stack : List OpenNode) (o : Nat) : ∃ o',
    outcome (between o stack) (w ++ rest) =
      outcome ((between o' stack).complete (atom (String.ofList w))) rest := by
  obtain ⟨c, w, rfl⟩ := List.exists_cons_of_ne_nil hw.1
  obtain ⟨hc, hw⟩ := List.forall_mem_cons.1 hw.2
  obtain ⟨hblank, hopen, hclose, hquote, hcomment⟩ := not_delimiter hc
  have hfirst : accept (between o stack) c = .ok ⟨o, stack, none, .bare [c]⟩ := by
    simp only [accept, between, atGap, hblank, if_neg hopen, if_neg hclose, if_neg hquote,
      if_neg hcomment]
    rfl
  obtain ⟨o', hword⟩ := outcome_word (f := .bare) hw
    (fun s word c hc => by simp only [accept, hc]; rfl) stack rest (o + c.utf8Size) [c]
  refine ⟨o', ((outcome_cons hfirst).trans hword).trans ?_⟩
  rw [outcome_bare_end h, ← List.reverse_cons, List.reverse_reverse]

theorem outcome_head (hroom : stack.length < maxNesting) (hv : Trivia v) (hw : IsWord w)
    (h : Ends rest) (o : Nat) : ∃ o', outcome (between o stack) ('(' :: (v ++ (w ++ rest))) =
      outcome (between o' (⟨o, .ofName (String.ofList w), []⟩ :: stack)) rest := by
  have hopen : accept (between o stack) '(' = .ok ⟨o, stack, none, .head o false⟩ := by
    have haccept : accept (between o stack) '(' = if maxNesting ≤ stack.length then
      .error (.tooDeep o) else .ok ⟨o, stack, none, .head o false⟩ := rfl
    rw [haccept, if_neg (Nat.not_le_of_lt hroom)]
  obtain ⟨o₁, htrivia⟩ := outcome_trivia (skips_head o) hv stack none (w ++ rest) (o + 1)
  obtain ⟨c, w, rfl⟩ := List.exists_cons_of_ne_nil hw.1
  obtain ⟨hc, hw⟩ := List.forall_mem_cons.1 hw.2
  obtain ⟨hblank, _, _, _, hcomment⟩ := not_delimiter hc
  have hfirst : accept ⟨o₁, stack, none, .head o false⟩ c = .ok ⟨o₁, stack, none, .tagName o [c]⟩ := by
    simp only [accept, atHead, hblank, if_neg hcomment, hc]
    rfl
  obtain ⟨o₂, hword⟩ := outcome_word (f := .tagName o) hw
    (fun s word c hc => by simp only [accept, hc]; rfl) stack rest (o₁ + c.utf8Size) [c]
  have hname := (outcome_cons hopen).trans (htrivia.trans ((outcome_cons hfirst).trans hword))
  refine ⟨o₂, hname.trans ?_⟩
  rw [outcome_tagName_end h, ← List.reverse_cons, List.reverse_reverse]

mutual

theorem outcome_denotes {v rest : List Char} {t : Tree} (h : Denotes v t rest)
    (stack : List OpenNode) (o : Nat) (hroom : stack.length + t.nesting ≤ maxNesting) : ∃ o',
    outcome (between o stack) v = outcome ((between o' stack).complete t) rest := by
  cases h with
  | word hw h => exact outcome_bare hw h stack o
  | quoted h =>
    have hopen : accept (between o stack) '"' = .ok ⟨o, stack, none, .string o false []⟩ := rfl
    obtain ⟨o', hquoted⟩ := outcome_quoted h stack o (o + 1) []
    exact ⟨o', (outcome_cons hopen).trans hquoted⟩
  | @node v w s _ cs hv hw hends hcs =>
    simp only [nesting] at hroom
    have hinside : stack.length + 1 + nestingList cs ≤ maxNesting := by omega
    have hspace : stack.length < maxNesting := by omega
    obtain ⟨o₁, hhead⟩ := outcome_head hspace hv hw hends o
    obtain ⟨o₂, hlist⟩ := outcome_denotesAll hcs ⟨o, .ofName (String.ofList w), []⟩ stack o₁ hinside
    exact ⟨o₂, hhead.trans hlist⟩

theorem outcome_denotesAll {v rest : List Char} {cs : List Tree} (h : DenotesAll v cs rest)
    (n : OpenNode) (stack : List OpenNode) (o : Nat)
    (hroom : stack.length + 1 + nestingList cs ≤ maxNesting) : ∃ o', outcome (between o (n :: stack)) v =
      outcome ((between o' stack).complete (.node n.tag (n.children.reverse ++ cs))) rest := by
  cases h with
  | @close v _ hv =>
    obtain ⟨o', htrivia⟩ := outcome_trivia skips_gap hv (n :: stack) none (')' :: rest) o
    have hclose : accept (between o' (n :: stack)) ')' = .ok ((between o' stack).complete n.close) := rfl
    refine ⟨o' + 1, (htrivia.trans (outcome_cons hclose)).trans ?_⟩
    rw [List.append_nil]
    cases stack <;> rfl
  | @cons v s s' _ t cs hv ht hcs =>
    simp only [nestingList] at hroom
    have hfirst : (n :: stack).length + t.nesting ≤ maxNesting := by
      rw [List.length_cons]
      omega
    have hothers : stack.length + 1 + nestingList cs ≤ maxNesting := by omega
    obtain ⟨o₁, htrivia⟩ := outcome_trivia skips_gap hv (n :: stack) none s o
    obtain ⟨o₂, htree⟩ := outcome_denotes ht (n :: stack) o₁ hfirst
    obtain ⟨o₃, hrest⟩ := outcome_denotesAll hcs { n with children := t :: n.children } stack o₂ hothers
    refine ⟨o₃, (htrivia.trans (htree.trans hrest)).trans ?_⟩
    rw [List.reverse_cons, List.append_assoc]
    rfl

end

end Reader.State

open Reader.State in
theorem readChars_of_document {s : List Char} {t : Tree} (h : Document s t)
    (ht : t.nesting ≤ maxNesting) : readChars s = .ok t := by
  obtain @⟨v, s, rest, t, hv, hs, hrest⟩ := h
  obtain ⟨o₁, htrivia⟩ := outcome_trivia skips_gap hv [] none s 0
  obtain ⟨o₂, htree⟩ := outcome_denotes hs [] o₁ (by simpa using ht)
  exact (htrivia.trans htree).trans (outcome_finalTrivia hrest o₂ t)

end Typesetter.Tree

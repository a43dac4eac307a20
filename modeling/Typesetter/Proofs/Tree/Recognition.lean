import Typesetter.Proofs.Tree.Grammar

namespace Typesetter.Tree

open Grammar Reader Text

namespace Grammar

variable {v v' s rest : List Char} {c : Char} {t : Tree} {cs : List Tree}

theorem Trivia.append (h : Trivia v) (h' : Trivia v') : Trivia (v ++ v') := by
  induction h with
  | nil => exact h'
  | blank hc _ ih => exact .blank hc ih
  | @comment w v hw _ ih =>
    rw [List.cons_append, List.append_assoc, List.cons_append]
    exact .comment hw ih

theorem FinalTrivia.after (h : Trivia v) (h' : FinalTrivia s) : FinalTrivia (v ++ s) := by
  cases h' with
  | closed h' => exact .closed (h.append h')
  | comment h' hw =>
    rw [← List.append_assoc]
    exact .comment (h.append h') hw

theorem DenotesAll.after (h : Trivia v) (h' : DenotesAll s cs rest) : DenotesAll (v ++ s) cs rest := by
  cases h' with
  | close h' =>
    rw [← List.append_assoc]
    exact .close (h.append h')
  | cons h' ht hcs =>
    rw [← List.append_assoc]
    exact .cons (h.append h') ht hcs

theorem Document.after (h : Trivia v) (h' : Document s t) : Document (v ++ s) t := by
  obtain ⟨h', ht, hrest⟩ := h'
  rw [← List.append_assoc]
  exact .intro (h.append h') ht hrest

theorem Denotes.ne_nil (h : Denotes s t rest) : s ≠ [] := by
  cases h with
  | word hw _ => exact List.append_ne_nil_of_left_ne_nil hw.1 _
  | quoted _ => exact List.cons_ne_nil _ _
  | node _ _ _ _ => exact List.cons_ne_nil _ _

theorem DenotesAll.ne_nil (h : DenotesAll s cs rest) : s ≠ [] := by
  cases h with
  | close _ => exact List.append_ne_nil_of_right_ne_nil _ (List.cons_ne_nil _ _)
  | cons _ ht _ => exact List.append_ne_nil_of_right_ne_nil _ ht.ne_nil

theorem Document.ne_nil (h : Document s t) : s ≠ [] := by
  obtain ⟨_, ht, _⟩ := h
  exact List.append_ne_nil_of_right_ne_nil _ ht.ne_nil

end Grammar

namespace Reader

variable {stack : List OpenNode} {r : Option Tree} {v rest : List Char} {t u : Tree} {c : Char}

def Closes : List OpenNode → Tree → List Char → Tree → Prop
  | [], u, v, t => FinalTrivia v ∧ u = t
  | n :: below, u, v, t => ∃ cs rest, DenotesAll v cs rest ∧
      Closes below (node n.tag (n.children.reverse ++ u :: cs)) rest t

def Continues (stack : List OpenNode) (result : Option Tree) (v : List Char) (t : Tree) : Prop :=
  match stack, result with
  | n :: below, _ => ∃ cs rest, DenotesAll v cs rest ∧
      Closes below (node n.tag (n.children.reverse ++ cs)) rest t
  | [], some u => FinalTrivia v ∧ u = t
  | [], none => Document v t

def Passes (inComment : Bool) (G : List Char → Prop) (v : List Char) : Prop :=
  if inComment then ∃ w, '\n' ∉ w ∧ (v = w ∧ G [] ∨ ∃ rest, v = w ++ '\n' :: rest ∧ G rest)
  else G v

def Opens (stack : List OpenNode) (result : Option Tree) (start : Nat) (t : Tree) (v : List Char) : Prop :=
  ∃ u w rest, v = u ++ (w ++ rest) ∧ Trivia u ∧ IsWord w ∧ Ends rest ∧
    Continues (⟨start, .ofName (String.ofList w), []⟩ :: stack) result rest t

def Extends (word : List Char) (G : List Char → List Char → Prop) (v : List Char) : Prop :=
  ∃ w rest, v = w ++ rest ∧ (∀ c ∈ w, isDelimiter c = false) ∧ Ends rest ∧ G (word.reverse ++ w) rest

def Completes (s : State) (v : List Char) (t : Tree) : Prop :=
  match s.focus with
  | .gap b => Passes b (Continues s.stack s.result · t) v
  | .head start b => Passes b (Opens s.stack s.result start t) v
  | .tagName start word => Extends word
      (fun w => (Continues (⟨start, .ofName (String.ofList w), []⟩ :: s.stack) s.result · t)) v
  | .bare word => Extends word (fun w => (Closes s.stack (atom (String.ofList w)) · t)) v
  | .string _ escaped text => ∃ l rest, Quoted (if escaped then '\\' :: v else v) l rest ∧
      Closes s.stack (atom (String.ofList (text.reverse ++ l))) rest t

namespace Passes

variable {G : List Char → Prop}

theorem of_line (h : Passes (c ≠ '\n') G v) : Passes true G (c :: v) := by
  by_cases hc : c = '\n'
  · rw [decide_eq_false (Decidable.not_not.2 hc)] at h
    exact ⟨[], List.not_mem_nil, .inr ⟨v, by rw [hc, List.nil_append], h⟩⟩
  · rw [decide_eq_true hc] at h
    obtain ⟨w, hw, h⟩ := h
    have hw : '\n' ∉ c :: w := List.not_mem_cons_of_ne_of_not_mem (Ne.symm hc) hw
    rcases h with ⟨rfl, hend⟩ | ⟨rest, rfl, hrest⟩
    · exact ⟨c :: v, hw, .inl ⟨rfl, hend⟩⟩
    · exact ⟨c :: w, hw, .inr ⟨rest, rfl, hrest⟩⟩

theorem of_comment (hafter : ∀ u rest, Trivia u → G rest → G (u ++ rest))
    (hend : ∀ w, '\n' ∉ w → G [] → G (';' :: w)) (h : Passes true G v) : G (';' :: v) := by
  obtain ⟨w, hw, ⟨rfl, hnil⟩ | ⟨rest, rfl, hrest⟩⟩ := h
  · exact hend v hw hnil
  · have hcomment : Trivia (';' :: (w ++ ['\n'])) := .comment hw .nil
    simpa using hafter _ rest hcomment hrest

end Passes

namespace Extends

variable {word : List Char} {G : List Char → List Char → Prop}

theorem of_ends (hv : Ends v) (h : G word.reverse v) : Extends word G v := by
  rw [← List.append_nil word.reverse] at h
  exact ⟨[], v, rfl, List.forall_mem_nil _, hv, h⟩

theorem of_delimiter (hc : isDelimiter c) (h : G word.reverse (c :: v)) : Extends word G (c :: v) :=
  of_ends (fun _ h => Option.some.inj h ▸ hc) h

theorem of_cons (hc : isDelimiter c = false) (h : Extends (c :: word) G v) : Extends word G (c :: v) := by
  obtain ⟨w, rest, rfl, hw, hends, h⟩ := h
  rw [List.reverse_cons, List.append_assoc] at h
  exact ⟨c :: w, rest, rfl, List.forall_mem_cons.2 ⟨hc, hw⟩, hends, h⟩

end Extends

namespace Continues

theorem after (h : Trivia v) (h' : Continues stack r rest t) : Continues stack r (v ++ rest) t := by
  match stack, r, h' with
  | n :: below, _, ⟨cs, rest', hcs, hclose⟩ => exact ⟨cs, rest', hcs.after h, hclose⟩
  | [], some u, ⟨hfinal, hu⟩ => exact ⟨hfinal.after h, hu⟩
  | [], none, h' => exact Document.after h h'

theorem of_comment (h : Passes true (Continues stack r · t) v) : Continues stack r (';' :: v) t := by
  refine Passes.of_comment (G := (Continues stack r · t)) (fun _ _ => after) (fun w hw hend => ?_) h
  match stack, r, hend with
  | n :: below, _, ⟨cs, rest, hcs, _⟩ => exact absurd rfl hcs.ne_nil
  | [], some u, ⟨_, hu⟩ => exact ⟨.comment .nil hw, hu⟩
  | [], none, hend => exact absurd rfl (Document.ne_nil hend)

theorem of_denotes (h : Denotes v u rest) (h' : Closes stack u rest t) : Continues stack none v t := by
  match stack, h' with
  | [], ⟨hfinal, hu⟩ =>
    subst hu
    exact Document.intro .nil h hfinal
  | n :: below, ⟨cs, rest', hcs, hclose⟩ => exact ⟨u :: cs, rest', .cons .nil h hcs, hclose⟩

end Continues

namespace Opens

variable {start : Nat}

theorem after (h : Trivia v) (h' : Opens stack r start t rest) : Opens stack r start t (v ++ rest) := by
  obtain ⟨u, w, rest', rfl, hu, hw⟩ := h'
  exact ⟨v ++ u, w, rest', (List.append_assoc ..).symm, h.append hu, hw⟩

theorem of_comment (h : Passes true (Opens stack r start t) v) : Opens stack r start t (';' :: v) := by
  refine Passes.of_comment (fun _ _ => after) (fun w _ hend => ?_) h
  obtain ⟨u, w', rest, hnil, _, hw', _⟩ := hend
  exact absurd (List.append_eq_nil_iff.1 (List.append_eq_nil_iff.1 hnil.symm).2).1 hw'.1

end Opens

namespace State

variable {s s' : State}

theorem completes_complete : Completes (s.complete u) v t ↔ Closes s.stack u v t := by
  obtain ⟨o, stack, r, f⟩ := s
  cases stack with
  | nil => exact Iff.rfl
  | cons n below => simp [Completes, complete, Passes, Continues, Closes]

theorem continues_complete : Continues (s.complete u).stack (s.complete u).result v t ↔
    Closes s.stack u v t := by
  rw [← completes_complete]
  obtain ⟨o, stack, r, f⟩ := s
  cases stack <;> exact Iff.rfl

theorem continues_of_atGap (hs : AtGap s c s') (h : Completes s' v t) :
    Continues s.stack s.result (c :: v) t := by
  cases hs with
  | blank hc => exact h.after (.blank hc .nil)
  | comment => exact .of_comment h
  | opening hresult _ =>
    rw [hresult]
    obtain ⟨u, w, rest, rfl, hu, hw, hends, cs, rest', hcs, hclose⟩ := h
    exact .of_denotes (.node hu hw hends hcs) hclose
  | @closing n below _ hstack =>
    rw [hstack]
    refine ⟨[], v, .close .nil, ?_⟩
    rw [List.append_nil]
    exact completes_complete.1 h
  | quote hresult =>
    rw [hresult]
    obtain ⟨l, rest, hquoted, hclose⟩ := h
    exact .of_denotes (.quoted hquoted) hclose
  | word hresult hc =>
    rw [hresult]
    obtain ⟨w, rest, rfl, hw, hends, hclose⟩ := h
    have hword : IsWord (c :: w) := ⟨List.cons_ne_nil c w, List.forall_mem_cons.2 ⟨hc, hw⟩⟩
    exact .of_denotes (.word hword hends) hclose

theorem quoted_unescape {l : List Char} (h : Quoted v l rest) (c : Char) :
    Quoted ('\\' :: c :: v) (unescape c :: l) rest := by
  unfold unescape
  split
  case isTrue hn => exact hn ▸ .newline h
  case isFalse hn =>
    split
    case isTrue ht => exact ht ▸ .tab h
    case isFalse ht => exact .escaped hn ht h

theorem completes_of_accept (hs : Accepts s c s') (h : Completes s' v t) : Completes s (c :: v) t := by
  cases hs with
  | gap hf hs =>
    rw [Completes, hf]
    exact continues_of_atGap hs h
  | comment hf =>
    rw [Completes, hf]
    exact Passes.of_line h
  | headBlank hf hc =>
    rw [Completes, hf] at h ⊢
    exact Opens.after (.blank hc .nil) h
  | headOpen hf hc =>
    rw [Completes, hf, hc]
    exact Opens.of_comment h
  | headComment hf =>
    rw [Completes, hf]
    exact Passes.of_line h
  | nameStart hf hc =>
    rw [Completes, hf]
    obtain ⟨w, rest, rfl, hw, hends, hcontinue⟩ := h
    have hword : IsWord (c :: w) := ⟨List.cons_ne_nil c w, List.forall_mem_cons.2 ⟨hc, hw⟩⟩
    exact ⟨[], c :: w, rest, rfl, .nil, hword, hends, hcontinue⟩
  | name hf hc =>
    rw [Completes, hf]
    exact .of_cons hc h
  | nameEnd hf hc hs =>
    rw [Completes, hf]
    exact .of_delimiter hc (continues_of_atGap hs h)
  | bare hf hc =>
    rw [Completes, hf]
    exact .of_cons hc h
  | bareEnd hf hc hs =>
    rw [Completes, hf]
    exact .of_delimiter hc (continues_complete.1 (continues_of_atGap hs h))
  | plain hf hq hb =>
    rw [Completes, hf]
    obtain ⟨l, rest, hquoted, hclose⟩ := h
    rw [List.reverse_cons, List.append_assoc] at hclose
    exact ⟨c :: l, rest, .plain hq hb hquoted, hclose⟩
  | escape hf hc =>
    rw [Completes, hf, hc]
    exact h
  | escaped hf =>
    rw [Completes, hf]
    obtain ⟨l, rest, hquoted, hclose⟩ := h
    rw [List.reverse_cons, List.append_assoc] at hclose
    exact ⟨unescape c :: l, rest, quoted_unescape hquoted c, hclose⟩
  | @stringEnd _ text hf hc =>
    rw [Completes, hf, hc]
    have hclose := completes_complete.1 h
    rw [← List.append_nil text.reverse] at hclose
    exact ⟨[], v, .close, hclose⟩

theorem completes_of_settle (h : s.settle = .ok t) : Continues s.stack s.result [] t := by
  unfold settle at h
  split at h
  case h_1 => cases h
  case h_2 t' hstack hresult =>
    cases h
    rw [hstack, hresult]
    exact ⟨.closed .nil, rfl⟩
  case h_3 => cases h

theorem completes_of_finish (h : s.finish = .ok t) : Completes s [] t := by
  unfold finish at h
  split at h
  all_goals rename_i hf
  all_goals rw [Completes, hf]
  case h_1 b =>
    have hcontinue := completes_of_settle h
    cases b with
    | false => exact hcontinue
    | true => exact ⟨[], List.not_mem_nil, .inl ⟨rfl, hcontinue⟩⟩
  case h_2 => cases h
  case h_3 => cases h
  case h_4 word =>
    exact Extends.of_ends nofun (continues_complete.1 (completes_of_settle h))
  case h_5 => cases h

theorem completes_of_outcome (h : s.outcome v = .ok t) : Completes s v t := by
  induction v generalizing s with
  | nil => exact completes_of_finish h
  | cons c v ih =>
    cases hs : s.accept c with
    | error e =>
      simp only [outcome, steps, step, hs, Except.map] at h
      cases h
    | ok s' =>
      rw [outcome_cons hs] at h
      exact completes_of_accept (.of_accept hs) (ih (s := { s' with offset := s.offset + c.utf8Size }) h)

end State

end Reader

theorem document_of_readChars {s : List Char} {t : Tree} (h : readChars s = .ok t) : Document s t :=
  State.completes_of_outcome (s := .initial) h

theorem read_eq_ok_iff (s : String) (t : Tree) :
    Tree.read s = .ok t ↔ Document s.toList t ∧ t.nesting ≤ maxNesting :=
  ⟨fun h => ⟨document_of_readChars h, (readable_of_read h).2⟩, fun h => readChars_of_document h.1 h.2⟩

end Typesetter.Tree

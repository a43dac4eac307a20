import Typesetter.Proofs.Tree.Grammar

namespace Typesetter.Tree

open Grammar Reader Text

namespace Reader.State

variable {s s' : State} {c : Char} {v v' w rest : List Char} {e : ReadError} {t : Tree} {o start : Nat}
  {stack : List OpenNode}

theorem Refuses.not_incomplete (h : Refuses s c e) : e.isIncomplete = false := by
  cases h with
  | missingTag _ _ _ _ => rfl
  | gap _ h | nameEnd _ h | bareEnd _ h =>
    cases h
    all_goals rfl

theorem not_incomplete_of_steps (h : s.steps v = .error e) : e.isIncomplete = false := by
  obtain ⟨_, _, _, _, _, _, hrefuses⟩ := steps_eq_error h
  exact hrefuses.not_incomplete

theorem isIncomplete_of_settle (h : s.settle = .error e) : e.isIncomplete := by
  unfold settle at h
  split at h
  all_goals cases h
  all_goals rfl

theorem isIncomplete_of_finish (h : s.finish = .error e) : e.isIncomplete := by
  unfold finish at h
  split at h
  case h_1 => exact isIncomplete_of_settle h
  case h_2 =>
    cases h
    rfl
  case h_3 => exact isIncomplete_of_settle h
  case h_4 => exact isIncomplete_of_settle h
  case h_5 =>
    cases h
    rfl

theorem steps_append (s : State) (v v' : List Char) :
    s.steps (v ++ v') = (s.steps v).bind (·.steps v') := by
  induction v generalizing s with
  | nil => rfl
  | cons c v ih =>
    rw [List.cons_append, steps, steps]
    cases s.step c with
    | error e => rfl
    | ok s' => exact ih s'

def Mendable (s : State) : Prop := ∃ v t, s.outcome v = .ok t

theorem Mendable.of_accept (h : s.accept c = .ok s')
    (h' : Mendable { s' with offset := s.offset + c.utf8Size }) : s.Mendable := by
  obtain ⟨v, t, h'⟩ := h'
  exact ⟨c :: v, t, (outcome_cons h).trans h'⟩

theorem complete_shift (o o' : Nat) (stack : List OpenNode) (t : Tree) :
    { (between o stack).complete t with offset := o' } = (between o' stack).complete t := by
  cases stack <;> rfl

theorem mendable_complete (stack : List OpenNode) (o : Nat) (t : Tree) :
    ((between o stack).complete t).Mendable := by
  induction stack generalizing o t with
  | nil => exact ⟨[], t, rfl⟩
  | cons n below ih =>
    -- A parenthesis closes the innermost open node, and the node around it comes next.
    let closed := OpenNode.close { n with children := t :: n.children }
    have hclose : accept ((between o (n :: below)).complete t) ')' =
        .ok ((between o below).complete closed) := rfl
    refine .of_accept hclose ?_
    rw [complete_shift]
    exact ih _ closed

theorem mendable_of_complete {t : Tree} (h : s.accept c = .ok ((between o stack).complete t)) :
    s.Mendable := by
  refine .of_accept h ?_
  rw [complete_shift]
  exact mendable_complete stack _ t

theorem mendable_bare (stack : List OpenNode) (o : Nat) (w : List Char) :
    Mendable ⟨o, stack, none, .bare w⟩ := by
  let word := atom (String.ofList w.reverse)
  have hspace : accept ⟨o, stack, none, .bare w⟩ ' ' = .ok ((between o stack).complete word) := by
    cases stack <;> rfl
  exact mendable_of_complete hspace

theorem mendable_between (stack : List OpenNode) (o : Nat) : (between o stack).Mendable := by
  cases stack with
  | nil =>
    have hword : accept (between o []) 'a' = .ok ⟨o, [], none, .bare ['a']⟩ := rfl
    exact .of_accept hword (mendable_bare _ _ _)
  | cons n below =>
    have hclose : accept (between o (n :: below)) ')' = .ok ((between o below).complete n.close) := rfl
    exact mendable_of_complete hclose

theorem mendable_tagName (stack : List OpenNode) (o start : Nat) (w : List Char) :
    Mendable ⟨o, stack, none, .tagName start w⟩ := by
  let n : OpenNode := ⟨start, .ofName (String.ofList w.reverse), []⟩
  have hspace : accept ⟨o, stack, none, .tagName start w⟩ ' ' = .ok (between o (n :: stack)) := rfl
  exact .of_accept hspace (mendable_between _ _)

theorem mendable_head (stack : List OpenNode) (o start : Nat) :
    Mendable ⟨o, stack, none, .head start false⟩ := by
  have hname : accept ⟨o, stack, none, .head start false⟩ 'a' =
      .ok ⟨o, stack, none, .tagName start ['a']⟩ := rfl
  exact .of_accept hname (mendable_tagName _ _ _ _)

theorem mendable_string (stack : List OpenNode) (o start : Nat) (w : List Char) :
    Mendable ⟨o, stack, none, .string start false w⟩ := by
  let word := atom (String.ofList w.reverse)
  have hquote : accept ⟨o, stack, none, .string start false w⟩ '"' =
      .ok ((between o stack).complete word) := by
    cases stack <;> rfl
  exact mendable_of_complete hquote

theorem mendable (s : State) (h : s.result = none) : s.Mendable := by
  obtain ⟨o, stack, r, f⟩ := s
  cases h
  cases f with
  | gap b =>
    cases b with
    | false => exact mendable_between stack o
    | true => exact .of_accept (skips_gap.inside ⟨o, stack, none, .gap true⟩ '\n') (mendable_between _ _)
  | head start b =>
    cases b with
    | false => exact mendable_head stack o start
    | true =>
      exact .of_accept ((skips_head start).inside ⟨o, stack, none, .gap true⟩ '\n') (mendable_head _ _ _)
  | tagName start w => exact mendable_tagName stack o start w
  | bare w => exact mendable_bare stack o w
  | string start b w =>
    cases b with
    | false => exact mendable_string stack o start w
    | true =>
      have hescaped : accept ⟨o, stack, none, .string start true w⟩ 'a' =
          .ok ⟨o, stack, none, .string start false ('a' :: w)⟩ := rfl
      exact .of_accept hescaped (mendable_string _ _ _ _)

def Single (s : State) : Prop := s.result = none ∨ s.stack = [] ∧ ∃ b, s.focus = .gap b

theorem Single.refocus (h : s.Single) (b : Bool) : Single { s with focus := .gap b } :=
  h.imp_right fun h => ⟨h.1, b, rfl⟩

theorem single_complete (h : s.result = none) (t : Tree) : (s.complete t).Single := by
  obtain ⟨o, stack, r, f⟩ := s
  cases stack with
  | nil => exact .inr ⟨rfl, false, rfl⟩
  | cons n below => exact .inl h

theorem Single.atGap (h : s.Single) (hs : AtGap s c s') : s'.Single := by
  cases hs with
  | blank _ => exact h.refocus false
  | comment => exact h.refocus true
  | opening hresult _ | quote hresult | word hresult _ => exact .inl hresult
  | @closing n below hresult _ => exact single_complete (s := { s with stack := below }) hresult n.close

theorem Single.result (h : s.Single) {f : Focus} (hf : s.focus = f) (hgap : ∀ b, f ≠ .gap b) :
    s.result = none :=
  h.resolve_right fun ⟨_, b, hb⟩ => hgap b (hf.symm.trans hb)

theorem Single.accept (h : s.Single) (hs : Accepts s c s') : s'.Single := by
  cases hs with
  | gap _ hs => exact h.atGap hs
  | comment _ => exact h.refocus _
  | headBlank _ _ => exact h
  | headOpen hf _ | headComment hf | nameStart hf _ | name hf _ | bare hf _ | plain hf _ _
  | escape hf _ | escaped hf => exact .inl (h.result hf nofun)
  | @nameEnd start word _ hf _ hs =>
    exact atGap (s := s.openNode start word) (.inl (h.result hf nofun)) hs
  | bareEnd hf _ hs => exact (single_complete (h.result hf nofun) _).atGap hs
  | stringEnd hf _ => exact single_complete (h.result hf nofun) _

theorem Single.steps (h : s.Single) (hs : s.steps v = .ok s') : s'.Single :=
  steps_preserve (fun _ _ _ h hs => h.accept hs) (fun _ _ h => h) h hs

theorem Single.result_of_finish (h : s.Single) (hf : s.finish = .error e) : s.result = none := by
  rcases h with h | ⟨hstack, b, hfocus⟩
  · exact h
  · rw [finish, hfocus] at hf
    cases hr : s.result with
    | none => rfl
    | some t =>
      simp only [settle, hstack, hr] at hf
      cases hf

end Reader.State

open Reader.State in
theorem isIncomplete_iff_continues {s : String} {e : ReadError} (h : Tree.read s = .error e) :
    e.isIncomplete ↔ ∃ u t, Tree.read (s ++ u) = .ok t := by
  have hread (u : String) :
      Tree.read (s ++ u) = (State.initial.steps s.toList).bind (·.outcome u.toList) := by
    rw [Tree.read, readChars, String.toList_append, steps_append]
    cases State.initial.steps s.toList <;> rfl
  simp only [hread]
  rw [Tree.read, readChars] at h
  cases hs : State.initial.steps s.toList with
  | error e' =>
    rw [hs] at h
    cases h
    have hwrong := not_incomplete_of_steps hs
    constructor
    · intro he
      exact Bool.noConfusion (hwrong.symm.trans he)
    · rintro ⟨u, t, hu⟩
      cases hu
  | ok s' =>
    rw [hs] at h
    have hresult : s'.result = none := (Single.steps (.inl rfl) hs).result_of_finish h
    obtain ⟨v, t, hv⟩ := s'.mendable hresult
    refine ⟨fun _ => ⟨String.ofList v, t, ?_⟩, fun _ => isIncomplete_of_finish h⟩
    rwa [String.toList_ofList]

theorem isIncomplete_iff_continues_escaped :
    (Tree.read "(a \"b\\" = .error (.unterminatedString 3) ∧
      ∃ u t, Tree.read ("(a \"b\\" ++ u) = .ok t) ∧
    Tree.read "(a ())" = .error (.missingTag 3) ∧ ¬ ∃ u t, Tree.read ("(a ())" ++ u) = .ok t := by
  have hmissing : Tree.read "(a \"b\\" = .error (.unterminatedString 3) := by rfl
  have hwrong : Tree.read "(a ())" = .error (.missingTag 3) := by rfl
  exact ⟨⟨hmissing, (isIncomplete_iff_continues hmissing).1 rfl⟩, hwrong,
    fun h => Bool.noConfusion ((isIncomplete_iff_continues hwrong).2 h)⟩

end Typesetter.Tree

import Typesetter.Proofs.Tree.Continuation
import Typesetter.Proofs.Tree.Places
import Typesetter.Proofs.Tree.Recognition
/-!
What errors point at. The reader keeps the offsets of the nodes that are open and of the string that it is
in as the characters alone tell them, so the offset of an error is that of the character to blame.
-/

namespace Typesetter.Tree

open Grammar Reader Text

namespace Reader

variable {v cs before : List Char} {c : Char} {s s' t : State} {e : ReadError} {b : Bool} {start o : Nat}

def Skipped (inComment : Bool) (v : List Char) : Prop :=
  if inComment then ∃ u w, v = u ++ ';' :: w ∧ Trivia u ∧ '\n' ∉ w else Trivia v

namespace Skipped

theorem blank (h : Skipped false v) (hc : isBlank c) : Skipped false (v ++ [c]) :=
  Trivia.append h (.blank hc .nil)

theorem comment (h : Skipped false v) : Skipped true (v ++ [';']) :=
  ⟨v, [], rfl, h, List.not_mem_nil⟩

theorem inside (h : Skipped true v) (c : Char) : Skipped (c ≠ '\n') (v ++ [c]) := by
  obtain ⟨u, w, rfl, hu, hw⟩ := h
  rw [List.append_assoc, List.cons_append]
  by_cases hc : c = '\n'
  · subst hc
    exact hu.append (.comment hw .nil)
  · rw [decide_eq_true hc]
    refine ⟨u, w ++ [c], rfl, hu, fun hmem => ?_⟩
    rcases List.mem_append.1 hmem with hmem | hmem
    · exact hw hmem
    · exact hc (List.mem_singleton.1 hmem).symm

end Skipped

def Focus.place : Focus → Place
  | .gap inComment | .head _ inComment => if inComment then .comment else .outside
  | .tagName .. | .bare _ => .outside
  | .string start escaped _ => .string start escaped

def Focus.opened : Focus → List Nat
  | .head start _ | .tagName start _ => [start]
  | .gap _ | .bare _ | .string .. => []

def State.opened (s : State) : List Nat := s.focus.opened ++ s.stack.map (·.offset)

def Heads (inComment : Bool) (cs : List Char) (start : Nat) : Prop :=
  ∃ before v, cs = before ++ '(' :: v ∧ (scan before).offset = start ∧
    (scan before).place = .outside ∧ Skipped inComment v

theorem ordinary_of_isBlank (h : isBlank c) : Scan.IsOrdinary c := by
  refine ⟨?_, ?_, ?_, ?_⟩
  all_goals
    rintro rfl
    exact absurd h (by decide)

theorem ordinary_of_not_isDelimiter (h : isDelimiter c = false) : Scan.IsOrdinary c :=
  (State.not_delimiter h).2

theorem State.focus_complete (s : State) (t : Tree) : (s.complete t).focus = .gap false := by
  unfold complete
  split <;> rfl

theorem State.offset_complete (s : State) (t : Tree) : (s.complete t).offset = s.offset := by
  unfold complete
  split <;> rfl

theorem State.opened_complete (s : State) (t : Tree) :
    (s.complete t).opened = s.stack.map (·.offset) := by
  obtain ⟨o, stack, r, f⟩ := s
  cases stack <;> rfl

def State.Untouched (s : State) : Prop := s.stack = [] ∧ s.result = none

theorem State.not_untouched_complete (s : State) (t : Tree) : ¬(s.complete t).Untouched := by
  rintro ⟨hstack, hresult⟩
  obtain ⟨o, stack, r, f⟩ := s
  cases stack with
  | nil => cases hresult
  | cons n below => cases hstack

def State.Behind (cs : List Char) (s : State) : Prop :=
  match s.focus with
  | .gap inComment => s.Untouched → Skipped inComment cs
  | .head start inComment => Heads inComment cs start
  | .tagName .. | .bare _ | .string .. => True

theorem State.behind_complete (cs : List Char) (s : State) (t : Tree) : (s.complete t).Behind cs := by
  rw [Behind, focus_complete]
  exact fun h => absurd h (s.not_untouched_complete t)

structure State.Follows (cs : List Char) (s : State) : Prop where
  offset : (scan cs).offset = s.offset
  place : (scan cs).place = s.focus.place
  opened : (scan cs).opened = s.opened
  behind : s.Behind cs

theorem Heads.concat {b' : Bool} (h : Heads b cs start)
    (hskip : ∀ v, Skipped b v → Skipped b' (v ++ [c])) : Heads b' (cs ++ [c]) start := by
  obtain ⟨before, v, rfl, ho, hplace, hv⟩ := h
  exact ⟨before, v ++ [c], by rw [List.append_assoc, List.cons_append], ho, hplace, hskip v hv⟩

theorem nextPlace_comment {s : Scan} (h : s.place = .comment) (c : Char) :
    s.nextPlace c = (Focus.gap (c ≠ '\n')).place := by
  by_cases hc : c = '\n' <;> simp [Scan.nextPlace, h, hc, Focus.place]

namespace State.Follows

theorem initial : Follows [] .initial where
  offset := rfl
  place := rfl
  opened := rfl
  behind _ := .nil

theorem skipped (h : Follows cs s) (hf : s.focus = .gap b) (hs : s.Untouched) : Skipped b cs := by
  have hbehind := h.behind
  rw [Behind, hf] at hbehind
  exact hbehind hs

theorem heads (h : Follows cs s) (hf : s.focus = .head start b) : Heads b cs start := by
  have hbehind := h.behind
  rwa [Behind, hf] at hbehind

theorem next (h : Follows cs s) (hplace : (scan cs).nextPlace c = t.focus.place)
    (hopened : (scan cs).nextOpened c = t.opened) (hbehind : t.Behind (cs ++ [c])) :
    Follows (cs ++ [c]) { t with offset := s.offset + c.utf8Size } where
  offset := by rw [scan_concat, Scan.next, h.offset]
  place := by rw [scan_concat, Scan.next, hplace]
  opened := by
    rw [scan_concat, Scan.next, hopened]
    rfl
  behind := hbehind

theorem outside_of_gap (h : Follows cs s) (hf : s.focus = .gap false) :
    (scan cs).place = .outside ∧ (scan cs).opened = s.stack.map (·.offset) := by
  refine ⟨h.place.trans (by rw [hf]; rfl), h.opened.trans ?_⟩
  rw [State.opened, hf]
  rfl

theorem atGap (h : Follows cs s) (hf : s.focus = .gap false) (hs : AtGap s c s') :
    Follows (cs ++ [c]) { s' with offset := s.offset + c.utf8Size } := by
  obtain ⟨hplace, hopened⟩ := h.outside_of_gap hf
  cases hs with
  | blank hc =>
    obtain ⟨hplace', hopened'⟩ := Scan.next_ordinary hplace (ordinary_of_isBlank hc)
    exact h.next hplace' (hopened'.trans hopened) fun hs => (h.skipped hf hs).blank hc
  | comment =>
    refine h.next ?_ ?_ fun hs => (h.skipped hf hs).comment
    · rw [Scan.nextPlace, hplace]
      rfl
    · rw [Scan.nextOpened, hplace]
      exact hopened
  | opening _ _ =>
    refine h.next ?_ ?_ ⟨cs, [], rfl, h.offset, hplace, .nil⟩
    · rw [Scan.nextPlace, hplace]
      rfl
    · rw [Scan.nextOpened, hplace, h.offset, hopened]
      rfl
  | @closing n below _ hstack =>
    refine h.next ?_ ?_ (behind_complete _ _ _)
    · rw [Scan.nextPlace, hplace, focus_complete]
      rfl
    · rw [Scan.nextOpened, hplace, opened_complete, hopened, hstack]
      rfl
  | quote _ =>
    refine h.next ?_ ?_ trivial
    · rw [Scan.nextPlace, hplace, h.offset]
      rfl
    · rw [Scan.nextOpened, hplace]
      exact hopened
  | word _ hc =>
    obtain ⟨hplace', hopened'⟩ := Scan.next_ordinary hplace (ordinary_of_not_isDelimiter hc)
    exact h.next hplace' (hopened'.trans hopened) trivial

theorem inside {f g : Focus} (h : Follows cs s) (hf : s.focus = f) (hin : f.place ≠ .outside)
    (hplace : (scan cs).nextPlace c = g.place) (hopened : g.opened = f.opened)
    (hbehind : Behind (cs ++ [c]) { s with focus := g }) :
    Follows (cs ++ [c]) { s with focus := g, offset := s.offset + c.utf8Size } := by
  subst hf
  refine h.next (t := { s with focus := g }) hplace ?_ hbehind
  rw [State.opened, hopened]
  exact (Scan.nextOpened_inside (h.place ▸ hin) c).trans h.opened

theorem ordinary {f g : Focus} (h : Follows cs s) (hf : s.focus = f) (hout : f.place = .outside)
    (hc : Scan.IsOrdinary c) (hplace : g.place = .outside) (hopened : g.opened = f.opened)
    (hbehind : Behind (cs ++ [c]) { s with focus := g }) :
    Follows (cs ++ [c]) { s with focus := g, offset := s.offset + c.utf8Size } := by
  subst hf
  obtain ⟨hplace', hopened'⟩ := Scan.next_ordinary (h.place.trans hout) hc
  refine h.next (t := { s with focus := g }) (hplace'.trans hplace.symm) ?_ hbehind
  rw [State.opened, hopened]
  exact hopened'.trans h.opened

theorem openNode {word : List Char} (h : Follows cs s) (hf : s.focus = .tagName start word) :
    Follows cs (s.openNode start word) where
  offset := h.offset
  place := h.place.trans (by rw [hf]; rfl)
  opened := h.opened.trans (by rw [State.opened, hf]; rfl)
  behind hs := absurd hs.1 (List.cons_ne_nil _ _)

theorem finishWord {word : List Char} (h : Follows cs s) (hf : s.focus = .bare word) :
    Follows cs (s.finishWord word) where
  offset := h.offset.trans (offset_complete s _).symm
  place := h.place.trans (by rw [hf, State.finishWord, focus_complete]; rfl)
  opened := h.opened.trans (by rw [State.finishWord, opened_complete, State.opened, hf]; rfl)
  behind := behind_complete cs s _

theorem accept (h : Follows cs s) (hs : Accepts s c s') :
    Follows (cs ++ [c]) { s' with offset := s.offset + c.utf8Size } := by
  have hplace := h.place
  have hopened := h.opened
  cases hs with
  | gap hf hs => exact h.atGap hf hs
  | nameEnd hf _ hs => exact (h.openNode hf).atGap rfl hs
  | bareEnd hf _ hs =>
    have hnext := (h.finishWord hf).atGap (focus_complete s _) hs
    rwa [State.finishWord, offset_complete] at hnext
  | comment hf =>
    rw [hf] at hplace
    exact h.inside hf (by rintro ⟨⟩) (nextPlace_comment hplace c) rfl
      fun hs => (h.skipped hf hs).inside c
  | headBlank hf hc =>
    -- The state goes on as it is, so its focus can only be rewritten.
    obtain ⟨hplace', hopened'⟩ := Scan.next_ordinary (hplace.trans (by rw [hf]; rfl)) (ordinary_of_isBlank hc)
    refine h.next (hplace'.trans (by rw [hf]; rfl)) (hopened'.trans hopened) ?_
    rw [Behind, hf]
    exact (h.heads hf).concat fun v hv => hv.blank hc
  | headOpen hf hc =>
    subst hc
    rw [hf] at hplace
    refine h.next ?_ ?_ ((h.heads hf).concat fun v hv => hv.comment)
    · rw [Scan.nextPlace, hplace]
      rfl
    · rw [Scan.nextOpened, hplace]
      exact hopened.trans (by rw [State.opened, hf]; rfl)
  | headComment hf =>
    rw [hf] at hplace
    exact h.inside hf (by rintro ⟨⟩) (nextPlace_comment hplace c) rfl
      ((h.heads hf).concat fun v hv => hv.inside c)
  | nameStart hf hc | name hf hc | bare hf hc =>
    exact h.ordinary hf rfl (ordinary_of_not_isDelimiter hc) rfl rfl trivial
  | plain hf hq hb =>
    rw [hf] at hplace
    refine h.inside hf (by rintro ⟨⟩) ?_ rfl trivial
    rw [Scan.nextPlace, hplace]
    simp only [Focus.place, if_neg hq, decide_eq_false hb]
  | escape hf hc =>
    rw [hf] at hplace
    refine h.inside hf (by rintro ⟨⟩) ?_ rfl trivial
    rw [Scan.nextPlace, hplace, hc]
    rfl
  | escaped hf =>
    rw [hf] at hplace
    refine h.inside hf (by rintro ⟨⟩) ?_ rfl trivial
    rw [Scan.nextPlace, hplace]
    rfl
  | stringEnd hf hc =>
    rw [hf] at hplace
    refine h.next ?_ ?_ (behind_complete _ _ _)
    · rw [Scan.nextPlace, hplace, State.finishWord, focus_complete, hc]
      rfl
    · rw [Scan.nextOpened, hplace, State.finishWord, opened_complete]
      exact hopened.trans (by rw [State.opened, hf]; rfl)

theorem steps (h : s.steps cs = .ok s') (hs : Follows before s) : Follows (before ++ cs) s' :=
  steps_trace (fun _ _ _ _ h ha => h.accept ha) before hs h

end State.Follows

end Reader

end Typesetter.Tree

namespace Typesetter

open Typesetter.Tree Grammar Reader Text

namespace ReadError

def offset? : ReadError → Option Nat
  | unexpectedEnd => none
  | unexpectedClose o | missingTag o | unclosed o | unterminatedString o | trailingInput o
  | tooDeep o => some o

/-- What an error says of a text that is cut at a character. -/
def Blames (before : List Char) (c : Char) (after : List Char) : ReadError → Prop
  | unexpectedEnd => False
  | unexpectedClose _ => c = ')' ∧ Trivia before
  | missingTag _ => c = '(' ∧ (scan before).place = .outside ∧
      ∃ v d rest, after = v ++ d :: rest ∧ Trivia v ∧ (d = '(' ∨ d = ')' ∨ d = '"')
  | unclosed o => c = '(' ∧ (scan before).place = .outside ∧
      (scan (before ++ c :: after)).opened.head? = some o
  | unterminatedString o => c = '"' ∧ (scan before).place = .outside ∧
      ∃ escaped, (scan (before ++ c :: after)).place = .string o escaped
  | trailingInput _ => ∃ t, Tree.read (String.ofList before) = .ok t
  | tooDeep _ => c = '(' ∧ (scan before).place = .outside ∧ (scan before).opened.length = 256

def PointsInto (text : List Char) (e : ReadError) : Prop :=
  ∀ o ∈ e.offset?, ∃ before c after, text = before ++ c :: after ∧ (scan before).offset = o ∧
    e.Blames before c after

end ReadError

namespace Tree.Reader.State

variable {before after v : List Char} {c : Char} {s t : State} {e : ReadError}

theorem readChars_of_steps (h : initial.steps v = .ok s) : readChars v = s.finish := by
  rw [readChars, h]

theorem Follows.pointsInto_of_refusesAtGap (h : Follows before t) (hf : t.focus = .gap false)
    (hfits : t.Fits) (hsingle : t.Single) (hread : readChars before = t.settle)
    (he : RefusesAtGap t c e) (after : List Char) : e.PointsInto (before ++ c :: after) := by
  obtain ⟨hplace, hopened⟩ := h.outside_of_gap hf
  cases he with
  | trailing hresult =>
    rintro o ⟨⟩
    refine ⟨before, c, after, rfl, h.offset, ?_⟩
    obtain ⟨tree, htree⟩ := Option.isSome_iff_exists.1 hresult
    have hstack : t.stack = [] := (hsingle.resolve_left fun hnone => by simp [hnone] at hresult).1
    exact ⟨tree, by rw [Tree.read, String.toList_ofList, hread, settle, hstack, htree]⟩
  | tooDeep _ hdeep =>
    rintro o ⟨⟩
    refine ⟨before, '(', after, rfl, h.offset, rfl, hplace, ?_⟩
    rw [hopened, List.length_map]
    exact Nat.le_antisymm hfits.stack.length_le hdeep
  | unexpectedClose hresult hstack =>
    rintro o ⟨⟩
    exact ⟨before, ')', after, rfl, h.offset, rfl, h.skipped hf ⟨hstack, hresult⟩⟩

theorem Follows.pointsInto_of_refuses (h : Follows before s) (hfits : s.Fits) (hsingle : s.Single)
    (hread : readChars before = s.finish) (he : Refuses s c e) (after : List Char) :
    e.PointsInto (before ++ c :: after) := by
  have hfocus := hfits.focus
  cases he with
  | gap hf he =>
    rw [finish, hf] at hread
    exact h.pointsInto_of_refusesAtGap hf hfits hsingle hread he after
  | nameEnd hf he =>
    rw [finish, hf] at hread
    rw [hf] at hfocus
    exact (h.openNode hf).pointsInto_of_refusesAtGap rfl (hfits.openNode hfocus.1 hfocus.2)
      (.inl (hsingle.result hf fun b hb => by cases hb)) hread he after
  | bareEnd hf he =>
    rw [finish, hf] at hread
    exact (h.finishWord hf).pointsInto_of_refusesAtGap (focus_complete s _) (hfits.finishWord _)
      (single_complete (hsingle.result hf fun b hb => by cases hb) _) hread he after
  | missingTag hf hblank hcomment hdelimiter =>
    rintro o ⟨⟩
    obtain ⟨opening, v, rfl, ho, hplace, hv⟩ := h.heads hf
    refine ⟨opening, '(', v ++ c :: after, by rw [List.append_assoc, List.cons_append], ho, rfl, hplace,
      v, c, after, rfl, hv, ?_⟩
    simpa [isDelimiter, hblank, hcomment, or_assoc] using hdelimiter

theorem Follows.pointsInto_of_settle (h : Follows v t) (hf : t.focus.opened = [])
    (he : t.settle = .error e) : e.PointsInto v := by
  unfold settle at he
  split at he
  case h_1 n below hstack =>
    cases he
    rintro o ⟨⟩
    have hinnermost : (scan v).opened.head? = some n.offset := by
      rw [h.opened, State.opened, hf, hstack]
      rfl
    obtain ⟨before, after, rfl, ho, hplace⟩ := stands_of_mem_opened (List.mem_of_mem_head? hinnermost)
    exact ⟨before, '(', after, rfl, ho, rfl, hplace, hinnermost⟩
  case h_2 => cases he
  case h_3 =>
    cases he
    rintro o ⟨⟩

theorem Follows.pointsInto_of_finish (h : Follows v s) (he : s.finish = .error e) : e.PointsInto v := by
  unfold finish at he
  split at he
  case h_1 hf => exact h.pointsInto_of_settle (by rw [hf]; rfl) he
  case h_2 =>
    cases he
    rintro o ⟨⟩
  case h_3 hf => exact (h.openNode hf).pointsInto_of_settle rfl he
  case h_4 hf => exact (h.finishWord hf).pointsInto_of_settle (by rw [State.finishWord, focus_complete]; rfl) he
  case h_5 start escaped text hf =>
    cases he
    rintro o ⟨⟩
    have hstring : (scan v).place = .string start escaped := h.place.trans (by rw [hf]; rfl)
    obtain ⟨before, after, rfl, ho, hplace⟩ := stands_of_string hstring
    exact ⟨before, '"', after, rfl, ho, rfl, hplace, escaped, hstring⟩

end Tree.Reader.State

namespace Tree

open Reader.State

theorem pointsInto_of_readChars {v : List Char} {e : ReadError} (h : readChars v = .error e) :
    e.PointsInto v := by
  cases hs : State.initial.steps v with
  | ok s =>
    rw [readChars_of_steps hs] at h
    exact (Follows.steps hs .initial).pointsInto_of_finish h
  | error e' =>
    rw [readChars, hs] at h
    cases h
    -- The text is cut where the reader gave up; it follows the text up to there.
    obtain ⟨before, c, after, s, rfl, hbefore, hrefuses⟩ := steps_eq_error hs
    have hfits : s.Fits := State.Fits.initial.steps hbefore
    have hsingle : s.Single := Single.steps (.inl rfl) hbefore
    exact (Follows.steps hbefore .initial).pointsInto_of_refuses hfits hsingle
      (readChars_of_steps hbefore) hrefuses after

theorem read_error_located {s : String} {e : ReadError} {o : Nat} (h : Tree.read s = .error e)
    (ho : e.offset? = some o) : ∃ before c after, s.toList = before ++ c :: after ∧
      (String.ofList before).utf8ByteSize = o ∧ e.Blames before c after := by
  obtain ⟨before, c, after, htext, hoffset, hblames⟩ := pointsInto_of_readChars h o ho
  exact ⟨before, c, after, htext, (offset_scan before).symm.trans hoffset, hblames⟩

def unclosedText : String := "; é (\n(a \"b)é\" (c ; )\n"

theorem read_error_located_unclosed : Tree.read unclosedText = .error (.unclosed 17) ∧
    ∃ before c after, unclosedText.toList = before ++ c :: after ∧
      (String.ofList before).utf8ByteSize = 17 ∧ c = '(' ∧ (scan before).place = .outside ∧
      (scan (before ++ c :: after)).opened.head? = some 17 := by
  have h : Tree.read unclosedText = .error (.unclosed 17) := by rfl
  exact ⟨h, read_error_located h rfl⟩

end Tree

end Typesetter

import Typesetter.Tree.Reader

namespace Typesetter.Tree.Reader.State

open Text

variable {s s' : State} {c : Char} {e : ReadError}

inductive AtGap (s : State) : Char → State → Prop
  | blank {c : Char} : isBlank c → AtGap s c { s with focus := .gap false }
  | comment : AtGap s ';' { s with focus := .gap true }
  | opening : s.result = none → s.stack.length < maxNesting →
      AtGap s '(' { s with focus := .head s.offset false }
  | closing {n : OpenNode} {below : List OpenNode} : s.result = none → s.stack = n :: below →
      AtGap s ')' (complete { s with stack := below } n.close)
  | quote : s.result = none → AtGap s '"' { s with focus := .string s.offset false [] }
  | word {c : Char} : s.result = none → isDelimiter c = false → AtGap s c { s with focus := .bare [c] }

theorem AtGap.of_atGap (h : s.atGap c = .ok s') : AtGap s c s' := by
  unfold State.atGap at h
  split at h
  · cases h
    exact .blank ‹_›
  split at h
  case isTrue hc =>
    subst hc
    cases h
    exact .comment
  split at h
  · cases h
  have hresult : s.result = none := by simpa using ‹¬ s.result.isSome = true›
  split at h
  case isTrue hc =>
    subst hc
    split at h
    · cases h
    · cases h
      exact .opening hresult (Nat.lt_of_not_le ‹_›)
  split at h
  case isTrue hc =>
    subst hc
    cases hstack : s.stack with
    | nil =>
      rw [hstack] at h
      cases h
    | cons n below =>
      rw [hstack] at h
      cases h
      exact .closing hresult hstack
  split at h
  case isTrue hc =>
    subst hc
    cases h
    exact .quote hresult
  · cases h
    exact .word hresult (by simp [isDelimiter, *])

inductive Accepts (s : State) (c : Char) : State → Prop
  | gap {s' : State} : s.focus = .gap false → AtGap s c s' → Accepts s c s'
  | comment : s.focus = .gap true → Accepts s c { s with focus := .gap (c ≠ '\n') }
  | headBlank {start : Nat} : s.focus = .head start false → isBlank c → Accepts s c s
  | headOpen {start : Nat} : s.focus = .head start false → c = ';' →
      Accepts s c { s with focus := .head start true }
  | headComment {start : Nat} : s.focus = .head start true →
      Accepts s c { s with focus := .head start (c ≠ '\n') }
  | nameStart {start : Nat} : s.focus = .head start false → isDelimiter c = false →
      Accepts s c { s with focus := .tagName start [c] }
  | name {start : Nat} {word : List Char} : s.focus = .tagName start word → isDelimiter c = false →
      Accepts s c { s with focus := .tagName start (c :: word) }
  | nameEnd {start : Nat} {word : List Char} {s' : State} : s.focus = .tagName start word →
      isDelimiter c → AtGap (s.openNode start word) c s' → Accepts s c s'
  | bare {word : List Char} : s.focus = .bare word → isDelimiter c = false →
      Accepts s c { s with focus := .bare (c :: word) }
  | bareEnd {word : List Char} {s' : State} : s.focus = .bare word → isDelimiter c →
      AtGap (s.finishWord word) c s' → Accepts s c s'
  | plain {start : Nat} {text : List Char} : s.focus = .string start false text → c ≠ '"' → c ≠ '\\' →
      Accepts s c { s with focus := .string start false (c :: text) }
  | escape {start : Nat} {text : List Char} : s.focus = .string start false text → c = '\\' →
      Accepts s c { s with focus := .string start true text }
  | escaped {start : Nat} {text : List Char} : s.focus = .string start true text →
      Accepts s c { s with focus := .string start false (unescape c :: text) }
  | stringEnd {start : Nat} {text : List Char} : s.focus = .string start false text → c = '"' →
      Accepts s c (s.finishWord text)

theorem Accepts.of_atHead {start : Nat} (hf : s.focus = .head start false)
    (h : s.atHead start c = .ok s') : Accepts s c s' := by
  unfold atHead at h
  split at h
  · cases h
    exact .headBlank hf ‹_›
  split at h
  · cases h
    exact .headOpen hf ‹_›
  split at h
  · cases h
  · cases h
    exact .nameStart hf (Bool.eq_false_iff.2 ‹_›)

theorem Accepts.of_accept (h : s.accept c = .ok s') : Accepts s c s' := by
  unfold State.accept at h
  split at h
  case h_1 hf => exact .gap hf (.of_atGap h)
  case h_2 hf =>
    cases h
    exact .comment hf
  case h_3 start hf => exact .of_atHead hf h
  case h_4 start hf =>
    cases h
    exact .headComment hf
  case h_5 start word hf =>
    split at h
    · exact .nameEnd hf ‹_› (.of_atGap h)
    · cases h
      exact .name hf (Bool.eq_false_iff.2 ‹_›)
  case h_6 word hf =>
    split at h
    · exact .bareEnd hf ‹_› (.of_atGap h)
    · cases h
      exact .bare hf (Bool.eq_false_iff.2 ‹_›)
  case h_7 start text hf =>
    cases h
    exact .escaped hf
  case h_8 start text hf =>
    split at h
    · cases h
      exact .stringEnd hf ‹_›
    split at h
    · cases h
      exact .escape hf ‹_›
    · cases h
      exact .plain hf ‹_› ‹_›

inductive RefusesAtGap (s : State) : Char → ReadError → Prop
  | trailing {c : Char} : s.result.isSome → RefusesAtGap s c (.trailingInput s.offset)
  | tooDeep : s.result = none → maxNesting ≤ s.stack.length → RefusesAtGap s '(' (.tooDeep s.offset)
  | unexpectedClose : s.result = none → s.stack = [] → RefusesAtGap s ')' (.unexpectedClose s.offset)

theorem RefusesAtGap.of_atGap (h : s.atGap c = .error e) : RefusesAtGap s c e := by
  unfold State.atGap at h
  split at h
  · cases h
  split at h
  · cases h
  split at h
  · cases h
    exact .trailing ‹_›
  have hresult : s.result = none := by simpa using ‹¬ s.result.isSome = true›
  split at h
  case isTrue hc =>
    subst hc
    split at h
    · cases h
      exact .tooDeep hresult ‹_›
    · cases h
  split at h
  case isTrue hc =>
    subst hc
    split at h
    · cases h
      exact .unexpectedClose hresult ‹_›
    · cases h
  split at h
  all_goals cases h

inductive Refuses (s : State) (c : Char) : ReadError → Prop
  | gap {e : ReadError} : s.focus = .gap false → RefusesAtGap s c e → Refuses s c e
  | missingTag {start : Nat} : s.focus = .head start false → isBlank c = false → c ≠ ';' → isDelimiter c →
      Refuses s c (.missingTag start)
  | nameEnd {start : Nat} {word : List Char} {e : ReadError} : s.focus = .tagName start word →
      RefusesAtGap (s.openNode start word) c e → Refuses s c e
  | bareEnd {word : List Char} {e : ReadError} : s.focus = .bare word →
      RefusesAtGap (s.finishWord word) c e → Refuses s c e

theorem Refuses.of_atHead {start : Nat} (hf : s.focus = .head start false)
    (h : s.atHead start c = .error e) : Refuses s c e := by
  unfold atHead at h
  split at h
  · cases h
  split at h
  · cases h
  split at h
  · cases h
    exact .missingTag hf (Bool.eq_false_iff.2 ‹_›) ‹_› ‹_›
  · cases h

theorem Refuses.of_accept (h : s.accept c = .error e) : Refuses s c e := by
  unfold State.accept at h
  split at h
  case h_1 hf => exact .gap hf (.of_atGap h)
  case h_2 => cases h
  case h_3 hf => exact .of_atHead hf h
  case h_4 => cases h
  case h_5 hf =>
    split at h
    · exact .nameEnd hf (.of_atGap h)
    · cases h
  case h_6 hf =>
    split at h
    · exact .bareEnd hf (.of_atGap h)
    · cases h
  case h_7 => cases h
  case h_8 =>
    repeat' split at h
    all_goals cases h

theorem steps_trace {P : List Char → State → Prop}
    (haccept : ∀ before s c s', P before s → Accepts s c s' →
      P (before ++ [c]) { s' with offset := s.offset + c.utf8Size })
    (before : List Char) {cs : List Char} (h : P before s) (hs : s.steps cs = .ok s') :
    P (before ++ cs) s' := by
  induction cs generalizing before s with
  | nil =>
    cases hs
    rwa [List.append_nil]
  | cons c cs ih =>
    rw [steps, step] at hs
    cases ha : s.accept c with
    | error e =>
      rw [ha] at hs
      cases hs
    | ok a =>
      rw [ha] at hs
      have hrest := ih (before ++ [c]) (haccept before s c a h (.of_accept ha)) hs
      rwa [List.append_assoc] at hrest

theorem steps_preserve {P : State → Prop} (haccept : ∀ s c s', P s → Accepts s c s' → P s')
    (hcount : ∀ s o, P s → P { s with offset := o }) {cs : List Char} (h : P s)
    (hs : s.steps cs = .ok s') : P s' :=
  steps_trace (P := fun _ => P)
    (fun _ s c s' h ha => hcount s' (s.offset + c.utf8Size) (haccept s c s' h ha)) [] h hs

theorem steps_eq_error {cs : List Char} (h : s.steps cs = .error e) :
    ∃ before c after s', cs = before ++ c :: after ∧ s.steps before = .ok s' ∧ Refuses s' c e := by
  induction cs generalizing s with
  | nil => cases h
  | cons c cs ih =>
    rw [steps, step] at h
    cases ha : s.accept c with
    | error e' =>
      rw [ha] at h
      cases h
      exact ⟨[], c, cs, s, rfl, rfl, .of_accept ha⟩
    | ok a =>
      rw [ha] at h
      obtain ⟨before, d, after, s', rfl, hs', hd⟩ := ih h
      refine ⟨c :: before, d, after, s', rfl, ?_, hd⟩
      rw [steps, step, ha]
      exact hs'

end Typesetter.Tree.Reader.State

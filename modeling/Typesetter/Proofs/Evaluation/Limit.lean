import Typesetter.Proofs.Evaluation.Preservation

namespace Typesetter

open Execution

variable {α β : Type}

def Cause.isLimit : Cause → Bool
  | .undefinedMacro _ | .tooManyIterations _ | .recursionLimit .. => true
  | _ => false

def Cause.initial : Cause → Char
  | typeMismatch .. => 't'
  | wrongArity .. => 'b'
  | undefinedMacro _ => 'u'
  | divisionByZero _ => 'd'
  | overflow _ | unknownNumbering _ | noFootnoteMark _ | badDateFormat _ | unreadableFile ..
  | invalid _ | indexOutOfBounds .. => 'i'
  | tooManyIterations _ => 'l'
  | recursionLimit .. => 'r'
  | nestedReference _ => 'n'
  | notAString _ | propagated _ => 'e'

theorem head_append {a : String} {c : Char} (h : a.toList.head? = some c) (b : String) :
    (a ++ b).toList.head? = some c := by
  rw [String.toList_append, List.head?_append, h]
  rfl

namespace Cause

variable {cause other : Cause}

theorem head_message (h : ∀ t, cause ≠ .propagated t) : cause.message.toList.head? = some cause.initial := by
  cases cause with
  | typeMismatch | wrongArity =>
    iterate 5 refine head_append ?_ _
    rfl
  | indexOutOfBounds | recursionLimit =>
    iterate 3 refine head_append ?_ _
    rfl
  | tooManyIterations | nestedReference =>
    iterate 2 refine head_append ?_ _
    rfl
  | propagated t => exact absurd rfl (h t)
  | _ => exact head_append rfl _

theorem isLimit_eq (cause : Cause) : cause.isLimit = decide (cause.initial ∈ ['u', 'l', 'r']) := by
  cases cause <;> rfl

theorem isLimit_of_message_eq (h : other.isLimit) (hc : ∀ t, cause ≠ .propagated t)
    (hm : cause.message = other.message) : cause.isLimit := by
  have ho : ∀ t, other ≠ .propagated t := by
    rintro t rfl
    cases h
  have hinitial : cause.initial = other.initial := by
    have hhead := head_message hc
    rw [hm, head_message ho] at hhead
    exact (Option.some.inj hhead).symm
  rw [isLimit_eq, hinitial, ← isLimit_eq]
  exact h

end Cause

/-- The report of a limit: an error, or a source view that does not go deeper. -/
def Diagnostic.TellsLimit (d : Diagnostic) : Prop :=
  (d.isError ∧ ∃ cause : Cause, cause.isLimit ∧ d.message = cause.message) ∨
    ∃ limit, d = SourceView.stopped limit

theorem Fault.tellsLimit_iff {f : Fault} {d : Diagnostic} (h : f.diagnostic? = some d) :
    d.TellsLimit ↔ f.cause.isLimit := by
  have hfresh : ∀ t, f.cause ≠ .propagated t := by
    intro t ht
    simp [diagnostic?, isPropagated, ht] at h
  rw [diagnostic?, isPropagated_fresh hfresh] at h
  cases h
  constructor
  · rintro (⟨_, cause, hcause, hmessage⟩ | ⟨limit, hstopped⟩)
    · exact Cause.isLimit_of_message_eq hcause hfresh hmessage
    · cases hstopped
  · exact fun hcause => .inl ⟨rfl, f.cause, hcause, rfl⟩

structure Settings.IsWithin (c c' : Settings) : Prop where
  recursionDepth : c.maxRecursionDepth ≤ c'.maxRecursionDepth
  iterations : c.maxIterations ≤ c'.maxIterations
  viewDepth : c.maxViewDepth ≤ c'.maxViewDepth
  strict : c'.strict → c.strict

def AtLimit (r : Except Fault α) : Prop := ∃ f, r = .error f ∧ f.cause.isLimit

namespace Evaluation

def Within (m m' : Evaluation α) : Prop :=
  ∀ w s r s', m.run w s = .ok (r, s') → AtLimit r ∨ m'.run w s = .ok (r, s')

namespace Within

theorem refl (m : Evaluation α) : m.Within m := fun _ _ _ _ hrun => .inr hrun

theorem fails {e : Cause} (he : e.isLimit) (m : Evaluation α) : (fault e).Within m := by
  intro w s r s' hrun
  cases hrun
  exact .inl ⟨_, rfl, he⟩

theorem bind {m m' : Evaluation α} {f f' : α → Evaluation β} (hm : m.Within m')
    (hf : ∀ a, (f a).Within (f' a)) : (m >>= f).Within (m' >>= f') := by
  intro w s r s'' hrun
  obtain ⟨first, s', hfirst, hrest⟩ := bind_eq_ok (f := ExceptT.bindCont f) hrun
  rcases hm w s first s' hfirst with ⟨e, rfl, he⟩ | hfirst'
  · cases hrest
    exact .inl ⟨e, rfl, he⟩
  · change _ ∨ (m'.run >>= ExceptT.bindCont f') w s = _
    rw [bind_apply, hfirst']
    cases first with
    | error e => exact .inr hrest
    | ok a => exact hf a w s' r s'' hrest

theorem after {m : Evaluation α} {f f' : α → Evaluation β} (hf : ∀ a, (f a).Within (f' a)) :
    (m >>= f).Within (m >>= f') :=
  (refl m).bind hf

theorem refusal {p q : Prop} [Decidable p] [Decidable q] {e e' : Cause} (he : e.isLimit) (h : q → p)
    (m : Evaluation α) : Within (if p then fault e else m) (if q then fault e' else m) := by
  by_cases hp : p
  · rw [if_pos hp]
    exact fails he _
  · rw [if_neg hp, if_neg fun hq => hp (h hq)]
    exact refl m

variable (eval : Evaluator)

theorem rounds {limit limit' left left' : Nat} (h : left ≤ left') (condition body : Tree)
    (results : List Tree) : (Rule.rounds eval limit condition body left results).Within
      (Rule.rounds eval limit' condition body left' results) := by
  induction left generalizing left' results with
  | zero =>
    have hmore (v : Tree) (m : Evaluation (List Tree)) : Within
        (if v.isTrue then fault (.tooManyIterations limit) else return results.reverse)
        (if v.isTrue then m else return results.reverse) := by
      by_cases hv : v.isTrue
      · rw [if_pos hv]
        exact fails rfl _
      · rw [if_neg hv, if_neg hv]
        exact refl _
    cases left' with
    | zero => exact .after fun v => hmore v _
    | succ left' => exact .after fun v => hmore v _
  | succ left ih =>
    cases left' with
    | zero => omega
    | succ left' =>
      refine .after fun v => ?_
      by_cases hv : v.isTrue
      · simp only [if_pos hv]
        exact .after fun u => ih (Nat.le_of_succ_le_succ h) (u :: results)
      · simp only [if_neg hv]
        exact refl _

end Within

end Evaluation

end Typesetter

import Typesetter.Proofs.Document.WriteBack

namespace Typesetter

open Store

inductive Action where
  | write (name : String) (value : Tree)
  | remove (name : String)
  | writeLogged (name : String) (value : Tree)
  | block (body : List Action)

namespace Action

mutual

def perform : Action → Store → Option Store
  | write name value, s => some (s.write name value)
  | remove name, s => some (s.remove name)
  | writeLogged name value, s => some (s.writeLogged name value)
  | block body, s => do
    let s' ← performAll body s.openFrame
    let (_, s'') ← s'.closeFrame?
    return s''

def performAll : List Action → Store → Option Store
  | [], s => some s
  | a :: rest, s => do performAll rest (← perform a s)

end

def notes (n : String) : Action → Bool
  | writeLogged m _ => m = n
  | _ => false

mutual

/-- The name may hold something else afterwards, and no frame knows what it held before. -/
def overwrites (n : String) : Action → Bool
  | write m _ | remove m => m = n
  | writeLogged .. => false
  | block body => overwritesAny n body

/-- Once the name is noted in a frame, closing that frame takes back whatever is done to it. -/
def overwritesAny (n : String) : List Action → Bool
  | [] => false
  | a :: rest => overwrites n a || (!a.notes n && overwritesAny n rest)

end

structure Effect (as : List Action) (s s' : Store) : Prop extends Extends s s' where
  distinct : s.innermost.names.Nodup → s'.innermost.names.Nodup
  restored : s.frames ≠ [] → ∀ n, overwritesAny n as = false → s'.restored n = s.restored n
  logged : s.frames ≠ [] → ∀ n, as.any (·.notes n) = true → ∃ old, s'.innermost.get? n = some old
  unnoted : ∀ n, as.any (·.notes n) = false → s.innermost.get? n = none → s'.innermost.get? n = none

variable {a : Action} {as bs : List Action} {s s' s'' : Store} {n : String} {v : Tree}

theorem performAll_append : performAll (as ++ bs) s = (performAll as s).bind (performAll bs) := by
  induction as generalizing s with
  | nil => rfl
  | cons a as ih =>
    simp only [List.cons_append, performAll, Option.bind_eq_bind, Option.bind_assoc, ih]

theorem overwritesAny_append : overwritesAny n (as ++ bs) =
    (overwritesAny n as || (!as.any (·.notes n) && overwritesAny n bs)) := by
  induction as with
  | nil => simp [overwritesAny]
  | cons a as ih =>
    rw [List.cons_append, overwritesAny, overwritesAny, ih, List.any_cons]
    cases overwrites n a <;> cases a.notes n <;> simp

theorem overwritesAny_singleton : overwritesAny n [a] = overwrites n a := by
  simp [overwritesAny]

theorem any_notes_eq_false : as.any (·.notes n) = false ↔ ∀ v, .writeLogged n v ∉ as := by
  rw [List.any_eq_false]
  constructor
  · intro h v hv
    exact h _ hv (decide_eq_true rfl)
  · intro h a ha hnotes
    cases a with
    | writeLogged m v => exact h v (of_decide_eq_true hnotes ▸ ha)
    | _ => cases hnotes

namespace Effect

theorem nil (s : Store) : Effect [] s s := ⟨.refl s, id, fun _ _ _ => rfl, nofun, fun _ _ => id⟩

theorem append (h : Effect as s s') (h' : Effect bs s' s'') : Effect (as ++ bs) s s'' := by
  refine ⟨h.toExtends.trans h'.toExtends, h'.distinct ∘ h.distinct, fun hs n hn => ?_, fun hs n hn => ?_,
    fun n hn => ?_⟩
  · rw [overwritesAny_append, Bool.or_eq_false_iff] at hn
    refine Eq.trans ?_ (h.restored hs n hn.1)
    cases hnotes : as.any (·.notes n) with
    | true =>
      obtain ⟨old, hold⟩ := h.logged hs n hnotes
      simp only [Store.restored, h'.noted hold, hold, Option.getD_some]
    | false =>
      rw [hnotes] at hn
      exact h'.restored (h.frames_ne_nil.2 hs) n hn.2
  · rw [List.any_append, Bool.or_eq_true] at hn
    rcases hn with hn | hn
    · obtain ⟨old, hold⟩ := h.logged hs n hn
      exact ⟨old, h'.noted hold⟩
    · exact h'.logged (h.frames_ne_nil.2 hs) n hn
  · rw [List.any_append, Bool.or_eq_false_iff] at hn
    exact h'.unnoted n hn.2 ∘ h.unnoted n hn.1

theorem of_frames (h : s'.frames = s.frames) (hnotes : ∀ n, a.notes n = false)
    (hget : ∀ n, overwrites n a = false → s'.get? n = s.get? n) : Effect [a] s s' := by
  have hin : s'.innermost = s.innermost := congrArg (List.headD · []) h
  refine ⟨.of_frames h, fun hs => by rwa [hin], fun _ n hn => ?_, fun _ n hn => ?_,
    fun _ _ hs => by rwa [hin]⟩
  · simp only [Store.restored, hin, hget n (overwritesAny_singleton.symm.trans hn)]
  · simp [hnotes] at hn

theorem write (s : Store) (m : String) (v : Tree) : Effect [.write m v] s (s.write m v) := by
  refine of_frames rfl (fun _ => rfl) fun n hn => ?_
  rw [overwrites, decide_eq_false_iff_not] at hn
  rw [get?_write, if_neg hn]

theorem remove (s : Store) (m : String) : Effect [.remove m] s (s.remove m) := by
  refine of_frames rfl (fun _ => rfl) fun n hn => ?_
  rw [overwrites, decide_eq_false_iff_not] at hn
  rw [get?_remove, if_neg hn]

theorem writeLogged (s : Store) (m : String) (v : Tree) :
    Effect [.writeLogged m v] s (s.writeLogged m v) := by
  have h := Resumes.writeLogged s m v
  refine ⟨h.toExtends, h.distinct, fun hs n _ => h.restored hs n, fun hs n hn => ?_, fun n hn hnone => ?_⟩
  · have hm : m = n := by simpa [notes] using hn
    exact hm ▸ noted_note hs m
  · have hne : n ≠ m := by
      rintro rfl
      simp [notes] at hn
    rcases s.note_cases m with ⟨hs, _⟩ | ⟨frame, rest, hf, _, hs⟩
    · rwa [Store.writeLogged, hs]
    · have hin : (s.writeLogged m v).innermost = frame ++ [(m, s.get? m)] := innermost_of_frames hs
      rw [innermost_of_frames hf] at hnone
      rw [hin, Listing.get?_append, hnone, Listing.get?_cons, if_neg hne]
      rfl

theorem block (h : Effect as s.openFrame s') :
    ∃ s'', (do let (_, s'') ← s'.closeFrame?; return s'') = some s'' ∧ Effect [.block as] s s'' := by
  obtain ⟨names, s'', hclose, hget, hframes⟩ := h.toExtends.closes (h.distinct List.nodup_nil)
  refine ⟨s'', by rw [hclose]; rfl, of_frames hframes (fun _ => rfl) fun n hn => ?_⟩
  have hopen : s.openFrame.frames ≠ [] := List.cons_ne_nil [] s.frames
  rw [overwrites] at hn
  exact (hget n).trans (h.restored hopen n hn)

end Effect

mutual

theorem exists_perform : (a : Action) → (s : Store) → ∃ s', a.perform s = some s' ∧ Effect [a] s s'
  | .write m v, s => ⟨_, by rw [perform], .write s m v⟩
  | .remove m, s => ⟨_, by rw [perform], .remove s m⟩
  | .writeLogged m v, s => ⟨_, by rw [perform], .writeLogged s m v⟩
  | .block body, s => by
    obtain ⟨s', hbody, heffect⟩ := exists_performAll body s.openFrame
    obtain ⟨s'', hclose, heffect⟩ := heffect.block
    exact ⟨s'', by rw [perform, hbody]; exact hclose, heffect⟩

theorem exists_performAll : (as : List Action) → (s : Store) →
    ∃ s', performAll as s = some s' ∧ Effect as s s'
  | [], s => ⟨s, by rw [performAll], .nil s⟩
  | a :: as, s => by
    obtain ⟨s', ha, heffect⟩ := exists_perform a s
    obtain ⟨s'', has, heffect'⟩ := exists_performAll as s'
    exact ⟨s'', by rw [performAll, ha]; exact has, heffect.append heffect'⟩

end

/-- Closing the frame gives a name back what it held right before its first logged write there, whatever
comes afterwards, and what it held when the frame was opened if it was not overwritten before that. -/
theorem closes_logged (s : Store) (before after : List Action) (n : String) (v : Tree) :
    ∃ t s' names s'', performAll before s.openFrame = some t ∧
      performAll (before ++ .writeLogged n v :: after) s.openFrame = some s' ∧
      s'.closeFrame? = some (names, s'') ∧ s''.frames = s.frames ∧
      ((∀ u, .writeLogged n u ∉ before) → s''.get? n = t.get? n) ∧
      (overwritesAny n before = false → s''.get? n = s.get? n) := by
  have hopen : s.openFrame.frames ≠ [] := List.cons_ne_nil [] s.frames
  obtain ⟨t, ht, hbefore⟩ := exists_performAll before s.openFrame
  obtain ⟨s', hs', hafter⟩ := exists_performAll after (t.writeLogged n v)
  have hall := (hbefore.append (.writeLogged t n v)).append hafter
  obtain ⟨names, s'', hclose, hget, hframes⟩ := hall.toExtends.closes (hall.distinct List.nodup_nil)
  have hframe : t.frames ≠ [] := hbefore.frames_ne_nil.2 hopen
  -- The note is there from the first logged write on, so what will be put back stays the same.
  have hback : s''.get? n = t.restored n := by
    obtain ⟨old, hold⟩ : ∃ old, (t.writeLogged n v).innermost.get? n = some old := noted_note hframe n
    have hlogged : (t.writeLogged n v).restored n = t.restored n :=
      (Resumes.writeLogged t n v).restored hframe n
    simp only [Store.restored, hold, Option.getD_some] at hlogged
    rw [hget, Store.restored, hafter.noted hold, Option.getD_some, hlogged, Store.restored]
  refine ⟨t, s', names, s'', ht, ?_, hclose, hframes, fun hfirst => ?_, fun hn => ?_⟩
  · rw [performAll_append, ht]
    exact hs'
  · rw [hback, Store.restored, hbefore.unnoted n (any_notes_eq_false.2 hfirst) rfl, Option.getD_none]
  · rw [hback, hbefore.restored hopen n hn]
    rfl

theorem closes_logged_nested :
    let s : Store := ({} : Store).write "x" (.atom "1")
    let before : List Action := [.block [.writeLogged "x" (.atom "2"), .write "x" (.atom "5")]]
    let after : List Action := [.write "x" (.atom "4"), .remove "x"]
    overwritesAny "x" before = false ∧ ∃ s' names s'',
      performAll (before ++ .writeLogged "x" (.atom "3") :: after) s.openFrame = some s' ∧
        s'.closeFrame? = some (names, s'') ∧ s''.get? "x" = some (.atom "1") := by
  intro s before after
  have hbefore : overwritesAny "x" before = false := rfl
  obtain ⟨_, s', names, s'', _, hs', hclose, _, _, hback⟩ :=
    closes_logged s before after "x" (.atom "3")
  exact ⟨hbefore, s', names, s'', hs', hclose, (hback hbefore).trans (by simp [s])⟩

theorem not_closes_logged_overwritten :
    let s : Store := {}
    s.get? "x" = none ∧ ∃ s' names s'',
      performAll [.write "x" (.atom "1"), .writeLogged "x" (.atom "2")] s.openFrame = some s' ∧
        s'.closeFrame? = some (names, s'') ∧ s''.get? "x" = some (.atom "1") :=
  ⟨rfl, _, _, _, rfl, rfl, rfl⟩

end Action

end Typesetter

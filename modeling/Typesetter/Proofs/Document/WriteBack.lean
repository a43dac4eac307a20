import Typesetter.Document.Store

namespace Typesetter

namespace Listing

variable {α : Type} {l l' : Listing α} {name : String} {a : α}

theorem get?_append : (l ++ l').get? name = (l.get? name).or (l'.get? name) :=
  List.lookup_append

theorem get?_cons (n : String) (b : α) (m : String) :
    get? ((n, b) :: l) m = if m = n then some b else l.get? m := by
  by_cases h : m = n
  · simp [get?, h]
  · simp [get?, List.lookup_cons, h, beq_eq_false_iff_ne.2 h]

theorem get?_eq_none : l.get? name = none ↔ name ∉ l.names := by
  induction l with
  | nil => simp [get?, names]
  | cons e l ih =>
    obtain ⟨n, b⟩ := e
    rw [get?_cons]
    by_cases h : name = n
    · simp [h, names]
    · simpa [h, names] using ih

theorem names_nodup_concat (h : l.names.Nodup) (hn : l.get? name = none) (b : α) :
    (names (l ++ [(name, b)])).Nodup := by
  simp only [names, List.map_append, List.map_cons, List.map_nil]
  refine List.nodup_append.2 ⟨h, by simp, ?_⟩
  intro n hmem m hm
  obtain rfl := List.mem_singleton.1 hm
  exact fun e => get?_eq_none.1 hn (e ▸ hmem)

end Listing

namespace Store

variable {s s' s'' : Store} {frame : WriteBack} {rest : List WriteBack} {n m : String}

def innermost (s : Store) : WriteBack := s.frames.headD []

def restored (s : Store) (name : String) : Option Tree :=
  (s.innermost.get? name).getD (s.get? name)

theorem get?_restore (s : Store) (h : frame.names.Nodup) (m : String) :
    (s.restore frame).get? m = (frame.get? m).getD (s.get? m) := by
  induction frame generalizing s with
  | nil => rfl
  | cons e rest ih =>
    obtain ⟨n, old⟩ := e
    obtain ⟨hn, hrest⟩ := List.nodup_cons.1 h
    have hstep : (s.restore ((n, old) :: rest)).get? m = ((s.put n old).restore rest).get? m := rfl
    rw [hstep, ih _ hrest, get?_put, Listing.get?_cons]
    by_cases hm : m = n
    · subst hm
      simp [Listing.get?_eq_none.2 hn]
    · simp [hm, Ne.symm hm]

theorem get?_restore_of_not_mem (s : Store) (h : m ∉ frame.names) :
    (s.restore frame).get? m = s.get? m := by
  induction frame generalizing s with
  | nil => rfl
  | cons e rest ih =>
    obtain ⟨hm, hrest⟩ := not_or.1 (fun h' => h (List.mem_cons.2 h'))
    exact (ih _ hrest).trans ((get?_put s e.1 m e.2).trans (if_neg (Ne.symm hm)))

theorem frames_restore (s : Store) (frame : WriteBack) : (s.restore frame).frames = s.frames := by
  induction frame generalizing s with
  | nil => rfl
  | cons e rest ih => exact (ih _).trans (frames_put s e.1 e.2)

structure Extends (s s' : Store) : Prop where
  count : s'.frames.length = s.frames.length
  outer : s'.frames.tail = s.frames.tail
  innermost : s.innermost <+: s'.innermost

namespace Extends

theorem refl (s : Store) : Extends s s := ⟨rfl, rfl, List.prefix_rfl⟩

theorem trans (h : Extends s s') (h' : Extends s' s'') : Extends s s'' :=
  ⟨h'.count.trans h.count, h'.outer.trans h.outer, h.innermost.trans h'.innermost⟩

theorem of_frames (h : s'.frames = s.frames) : Extends s s' := by
  refine ⟨congrArg List.length h, congrArg List.tail h, ?_⟩
  simp only [Store.innermost, h]
  exact List.prefix_rfl

theorem of_append (hf : s.frames = frame :: rest) {new : WriteBack}
    (hf' : s'.frames = (frame ++ new) :: rest) : Extends s s' := by
  refine ⟨by simp [hf, hf'], by simp [hf, hf'], ?_⟩
  simp only [Store.innermost, hf, hf']
  exact List.prefix_append frame new

theorem noted (h : Extends s s') {old : Option Tree} (hn : s.innermost.get? n = some old) :
    s'.innermost.get? n = some old := by
  obtain ⟨new, hnew⟩ := h.innermost
  rw [← hnew, Listing.get?_append, hn]
  rfl

theorem frames_ne_nil (h : Extends s s') : s'.frames ≠ [] ↔ s.frames ≠ [] := by
  rw [← List.length_pos_iff, h.count, List.length_pos_iff]

end Extends

theorem innermost_of_frames (hf : s.frames = frame :: rest) : s.innermost = frame := by
  simp only [innermost, hf, List.headD_cons]

theorem Extends.closes (h : Extends s.openFrame s') (hdistinct : s'.innermost.names.Nodup) :
    ∃ names s'', s'.closeFrame? = some (names, s'') ∧ (∀ m, s''.get? m = s'.restored m) ∧
      s''.frames = s.frames := by
  have hopen : s.openFrame.frames ≠ [] := List.cons_ne_nil [] s.frames
  obtain ⟨frame, rest, hf⟩ := List.exists_cons_of_ne_nil (h.frames_ne_nil.2 hopen)
  have hrest : rest = s.frames := by
    simpa only [hf, openFrame, List.tail_cons] using h.outer
  have hin := innermost_of_frames hf
  rw [hin] at hdistinct
  refine ⟨frame.names, Store.restore { s' with frames := rest } frame, ?_, fun m => ?_, ?_⟩
  · simp only [closeFrame?, hf]
  · rw [get?_restore _ hdistinct, Store.restored, hin]
    rfl
  · rw [frames_restore, hrest]

theorem note_cases (s : Store) (n : String) :
    (s.note n = s ∧ (s.frames ≠ [] → ∃ old, s.innermost.get? n = some old)) ∨
      ∃ frame rest, s.frames = frame :: rest ∧ frame.get? n = none ∧
        (s.note n).frames = (frame ++ [(n, s.get? n)]) :: rest := by
  cases hf : s.frames with
  | nil => exact .inl ⟨by simp only [note, hf], fun h => absurd rfl h⟩
  | cons frame rest =>
    cases hn : frame.get? n with
    | none => exact .inr ⟨frame, rest, rfl, hn, by simp [note, hf, hn]⟩
    | some old =>
      refine .inl ⟨by simp [note, hf, hn], fun _ => ⟨old, ?_⟩⟩
      rwa [innermost_of_frames hf]

theorem extends_note (s : Store) (n : String) : Extends s (s.note n) := by
  rcases s.note_cases n with ⟨h, _⟩ | ⟨frame, rest, hf, _, h⟩
  · rw [h]
    exact .refl s
  · exact .of_append hf h

theorem extends_writeLogged (s : Store) (n : String) (v : Tree) : Extends s (s.writeLogged n v) :=
  (extends_note s n).trans (.of_frames rfl)

theorem noted_note (h : s.frames ≠ []) (n : String) :
    ∃ old, (s.note n).innermost.get? n = some old := by
  rcases s.note_cases n with ⟨hs, hold⟩ | ⟨frame, rest, _, hn, hs⟩
  · rw [hs]
    exact hold h
  · refine ⟨s.get? n, ?_⟩
    rw [innermost_of_frames hs, Listing.get?_append, Listing.get?_cons, hn]
    simp

/-- Closing the innermost frame of either store puts the same variables back. -/
structure Resumes (s s' : Store) : Prop extends Extends s s' where
  distinct : s.innermost.names.Nodup → s'.innermost.names.Nodup
  restored : s.frames ≠ [] → ∀ m, s'.restored m = s.restored m

theorem restored_put {old : Option Tree} (h : s.innermost.get? n = some old) (v : Option Tree)
    (m : String) : (s.put n v).restored m = s.restored m := by
  have hin : (s.put n v).innermost = s.innermost := congrArg (List.headD · []) (frames_put s n v)
  simp only [Store.restored, hin, get?_put]
  by_cases hm : n = m
  · subst hm
    simp [h]
  · simp [hm]

namespace Resumes

theorem refl (s : Store) : Resumes s s := ⟨.refl s, id, fun _ _ => rfl⟩

theorem trans (h : Resumes s s') (h' : Resumes s' s'') : Resumes s s'' := by
  refine ⟨h.toExtends.trans h'.toExtends, h'.distinct ∘ h.distinct, fun hs m => ?_⟩
  exact (h'.restored (h.frames_ne_nil.2 hs) m).trans (h.restored hs m)

theorem note (s : Store) (n : String) : Resumes s (s.note n) := by
  rcases s.note_cases n with ⟨h, _⟩ | ⟨frame, rest, hf, hn, h⟩
  · rw [h]
    exact .refl s
  refine ⟨.of_append hf h, fun hs => ?_, fun _ m => ?_⟩
  · rw [innermost_of_frames hf] at hs
    rw [innermost_of_frames h]
    exact Listing.names_nodup_concat hs hn (s.get? n)
  · simp only [Store.restored, innermost_of_frames hf, innermost_of_frames h, get?_note,
      Listing.get?_append, Listing.get?_cons]
    by_cases hm : m = n
    · subst hm
      simp [hn]
    · simp [hm, Listing.get?]

theorem put (h : s.frames ≠ [] → ∃ old, s.innermost.get? n = some old) (v : Option Tree) :
    Resumes s (s.put n v) := by
  have hin : (s.put n v).innermost = s.innermost := congrArg (List.headD · []) (frames_put s n v)
  refine ⟨.of_frames (frames_put s n v), fun hs => by rwa [hin], fun hs m => ?_⟩
  obtain ⟨old, hold⟩ := h hs
  exact restored_put hold v m

theorem writeLogged (s : Store) (n : String) (v : Tree) : Resumes s (s.writeLogged n v) :=
  (note s n).trans (put (fun h => noted_note ((extends_note s n).frames_ne_nil.1 h) n) (some v))

theorem binding {v : Tree} (h : Resumes (s.writeLogged n v) s') (old : Option Tree) :
    Resumes s (s'.put n old) := by
  refine (writeLogged s n v).trans (h.trans (put (fun hs => ?_) old))
  have hs : s.frames ≠ [] := ((extends_writeLogged s n v).trans h.toExtends).frames_ne_nil.1 hs
  obtain ⟨noted, hn⟩ := noted_note hs n
  exact ⟨noted, h.noted hn⟩

theorem closes (h : Resumes s.openFrame s') : ∃ names s'', s'.closeFrame? = some (names, s'') ∧
    (∀ m, s''.get? m = s.get? m) ∧ s''.frames = s.frames := by
  obtain ⟨names, s'', hclose, hget, hframes⟩ := h.toExtends.closes (h.distinct List.nodup_nil)
  have hopen : s.openFrame.frames ≠ [] := List.cons_ne_nil [] s.frames
  exact ⟨names, s'', hclose, fun m => (hget m).trans (h.restored hopen m), hframes⟩

end Resumes

end Store

end Typesetter

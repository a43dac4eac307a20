import Mathlib.Logic.Function.Basic
import Typesetter.Proofs.Document.WriteBack
/-!
Layers: what the variables hold now, and after each of the open frames is closed in turn. The frames log
single values, but a logged write, the opening of a frame and its closing do to the layers what they would
do to a stack of whole tables.
-/

namespace Typesetter.Store

variable {s t : Store} {frame : WriteBack} {n m : String}

theorem get?_restore_congr (h : s.get? m = t.get? m) (frame : WriteBack) :
    (s.restore frame).get? m = (t.restore frame).get? m := by
  induction frame generalizing s t with
  | nil => exact h
  | cons e rest ih =>
    refine ih (s := s.put e.1 e.2) (t := t.put e.1 e.2) ?_
    rw [get?_put, get?_put, h]

theorem get?_restore_of_mem (h : m ∈ frame.names) (s t : Store) :
    (s.restore frame).get? m = (t.restore frame).get? m := by
  induction frame generalizing s t with
  | nil => cases h
  | cons e rest ih =>
    by_cases hm : e.1 = m
    · refine get?_restore_congr (s := s.put e.1 e.2) (t := t.put e.1 e.2) ?_ rest
      rw [get?_put, get?_put, if_pos hm, if_pos hm]
    · exact ih (List.mem_of_ne_of_mem (Ne.symm hm) h) (s.put e.1 e.2) (t.put e.1 e.2)

def unwind (s : Store) : List WriteBack → List (String → Option Tree)
  | [] => [s.get?]
  | frame :: rest => s.get? :: unwind (s.restore frame) rest

def layers (s : Store) : List (String → Option Tree) := s.unwind s.frames

theorem unwind_congr (h : s.get? = t.get?) (frames : List WriteBack) :
    s.unwind frames = t.unwind frames := by
  induction frames generalizing s t with
  | nil => rw [unwind, unwind, h]
  | cons frame rest ih =>
    rw [unwind, unwind, h, ih (funext fun m => get?_restore_congr (congrFun h m) frame)]

theorem layers_of_frames {rest : List WriteBack} (h : s.frames = frame :: rest) :
    s.layers = s.get? :: (s.restore frame).unwind rest := by
  rw [layers, h, unwind]

theorem exists_layers (s : Store) : ∃ below, s.layers = s.get? :: below := by
  cases h : s.frames with
  | nil => exact ⟨[], by rw [layers, h, unwind]⟩
  | cons frame rest => exact ⟨_, layers_of_frames h⟩

theorem layers_openFrame (s : Store) : s.openFrame.layers = s.get? :: s.layers := by
  rw [layers_of_frames (s := s.openFrame) rfl]
  exact congrArg (s.get? :: ·) (unwind_congr (s := s.openFrame) (t := s) rfl s.frames)

theorem layers_closeFrame? {names : List String} (h : s.closeFrame? = some (names, t)) :
    s.layers = s.get? :: t.layers := by
  cases hf : s.frames with
  | nil =>
    rw [closeFrame?, hf] at h
    cases h
  | cons frame rest =>
    rw [closeFrame?, hf] at h
    cases h
    have hget : (s.restore frame).get? = (restore { s with frames := rest } frame).get? :=
      funext fun m => get?_restore_congr (s := s) (t := { s with frames := rest }) rfl frame
    rw [layers_of_frames hf, layers, frames_restore, unwind_congr hget]

theorem layers_of_closeFrame?_eq_none (h : s.closeFrame? = none) : s.layers = [s.get?] := by
  cases hf : s.frames with
  | nil => rw [layers, hf, unwind]
  | cons frame rest =>
    rw [closeFrame?, hf] at h
    cases h

theorem get?_writeLogged_eq_update (s : Store) (n : String) (v : Tree) :
    (s.writeLogged n v).get? = Function.update s.get? n (some v) := by
  funext m
  rw [get?_writeLogged]
  by_cases hm : n = m
  · rw [if_pos hm, ← hm, Function.update_self]
  · rw [if_neg hm, Function.update_of_ne (Ne.symm hm)]

theorem restore_writeLogged {rest : List WriteBack} (h : s.frames = frame :: rest) (n : String) (v : Tree) :
    ∃ noted, (s.writeLogged n v).frames = noted :: rest ∧
      ((s.writeLogged n v).restore noted).get? = (s.restore frame).get? := by
  have hget (m : String) (hm : m ≠ n) : (s.writeLogged n v).get? m = s.get? m := by
    rw [get?_writeLogged, if_neg (Ne.symm hm)]
  rcases s.note_cases n with ⟨hs, hnoted⟩ | ⟨first, others, hf, hn, hs⟩
  · obtain ⟨old, hold⟩ := hnoted (by rw [h]; exact List.cons_ne_nil frame rest)
    rw [innermost_of_frames h] at hold
    have hmem : n ∈ frame.names := by
      by_contra hn
      rw [Listing.get?_eq_none.2 hn] at hold
      cases hold
    refine ⟨frame, by rw [writeLogged, frames_write, hs, h], funext fun m => ?_⟩
    by_cases hm : m = n
    · exact get?_restore_of_mem (hm ▸ hmem) _ _
    · exact get?_restore_congr (hget m hm) frame
  · obtain ⟨rfl, rfl⟩ := List.cons.inj (h.symm.trans hf)
    refine ⟨frame ++ [(n, s.get? n)], hs, funext fun m => ?_⟩
    have happend : (s.writeLogged n v).restore (frame ++ [(n, s.get? n)]) =
        ((s.writeLogged n v).restore frame).put n (s.get? n) :=
      List.foldl_append
    rw [happend, get?_put]
    by_cases hm : n = m
    · subst hm
      rw [if_pos rfl, get?_restore_of_not_mem s (Listing.get?_eq_none.1 hn)]
    · rw [if_neg hm]
      exact get?_restore_congr (hget m (Ne.symm hm)) frame

theorem layers_writeLogged (s : Store) (n : String) (v : Tree) {below : List (String → Option Tree)}
    (h : s.layers = s.get? :: below) :
    (s.writeLogged n v).layers = Function.update s.get? n (some v) :: below := by
  cases hf : s.frames with
  | nil =>
    have hframes : (s.writeLogged n v).frames = [] := by
      simp only [writeLogged, frames_write, note, hf]
    rw [layers, hf, unwind] at h
    cases h
    rw [layers, hframes, unwind, get?_writeLogged_eq_update]
  | cons frame rest =>
    obtain ⟨noted, hframes, hrestore⟩ := restore_writeLogged hf n v
    rw [layers_of_frames hf] at h
    cases h
    rw [layers_of_frames hframes, get?_writeLogged_eq_update, unwind_congr hrestore]

end Typesetter.Store

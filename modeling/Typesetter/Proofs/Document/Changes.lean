import Typesetter.Proofs.Document.WriteBack
/-!
Change sets. A change set holds the logged names of the innermost frame that differ from what has been seen
of them, and puts that right; so the change sets of a run, put over one another, are all that is seen in the
end, and nothing is told twice.
-/

namespace Typesetter

namespace Listing

variable {α : Type} {l : Listing α} {name : String} {seen : Listing Tree} {value : Tree}

def agrees (seen : Listing Tree) (name : String) (value : Tree) : Bool :=
  match seen.get? name with
  | some old => old = value
  | none => value.isUninit

def overlay (l l' : Listing α) : Listing α := l'.foldl (fun l (name, value) => l.insert name value) l

theorem insert_of_not_mem (h : name ∉ l.names) (a : α) : l.insert name a = l ++ [(name, a)] := by
  induction l with
  | nil => rfl
  | cons e l ih =>
    obtain ⟨hne, hl⟩ := not_or.1 fun h' => h (List.mem_cons.2 h')
    rw [insert, if_neg (Ne.symm hne), ih hl, List.cons_append]

theorem agrees_congr {seen' : Listing Tree} (h : seen'.get? name = seen.get? name) (value : Tree) :
    seen'.agrees name value = seen.agrees name value := by
  rw [agrees, agrees, h]

theorem agrees_of_get? (h : seen.get? name = some value) : seen.agrees name value := by
  simp only [agrees, h, decide_true]

theorem get?_overlay_map (l : Listing α) (names : List String) (f : String → α) (name : String) :
    (l.overlay (names.map fun n => (n, f n))).get? name =
      if name ∈ names then some (f name) else l.get? name := by
  induction names generalizing l with
  | nil => rfl
  | cons n names ih =>
    have hstep : (l.overlay ((n :: names).map fun n => (n, f n))) =
      (l.insert n (f n)).overlay (names.map fun n => (n, f n)) := rfl
    rw [hstep, ih, get?_insert]
    by_cases hn : name = n
    · subst hn
      simp
    · simp [hn]

end Listing

namespace Store

variable {s : Store} {seen changed : Listing Tree} {names : List String} {n : String}

def unseen (s : Store) (seen : Listing Tree) (names : List String) : Listing Tree :=
  (names.filter fun n => !seen.agrees n (s.read n)).map fun n => (n, s.read n)

def notice (s : Store) (told : Listing Tree × Listing Tree) (n : String) : Listing Tree × Listing Tree :=
  if told.2.agrees n (s.read n) then told
  else (told.1.insert n (s.read n), told.2.insert n (s.read n))

theorem changes_eq_foldl (s : Store) (seen : Listing Tree) :
    s.changes seen = s.written.foldl s.notice ([], seen) := rfl

theorem foldl_notice (hdistinct : names.Nodup) (hnew : ∀ n ∈ names, n ∉ changed.names) :
    names.foldl s.notice (changed, seen) =
      (changed ++ s.unseen seen names, seen.overlay (s.unseen seen names)) := by
  induction names generalizing changed seen with
  | nil => simp [unseen, Listing.overlay]
  | cons n names ih =>
    obtain ⟨hn, hdistinct⟩ := List.nodup_cons.1 hdistinct
    obtain ⟨hchanged, hnew⟩ := List.forall_mem_cons.1 hnew
    rw [List.foldl_cons, notice]
    by_cases hsame : seen.agrees n (s.read n)
    · rw [if_pos hsame, ih hdistinct hnew]
      simp [unseen, hsame]
    · -- The names that follow are others, so noting this one changes nothing for them.
      have hrest : s.unseen (seen.insert n (s.read n)) names = s.unseen seen names := by
        refine congrArg (List.map _) (List.filter_congr fun m hm => ?_)
        have hne : m ≠ n := fun h => hn (h ▸ hm)
        have hget : (seen.insert n (s.read n)).get? m = seen.get? m := by rw [Listing.get?_insert, if_neg hne]
        rw [Listing.agrees_congr hget]
      have hmore : ∀ m ∈ names, m ∉ Listing.names (changed ++ [(n, s.read n)]) := by
        intro m hm hmem
        have hne : m ≠ n := fun h => hn (h ▸ hm)
        simp only [Listing.names, List.map_append, List.mem_append, List.map_cons, List.map_nil,
          List.mem_singleton] at hmem
        exact hmem.elim (hnew m hm) hne
      have hfirst : s.unseen seen (n :: names) = (n, s.read n) :: s.unseen seen names := by
        simp [unseen, hsame]
      rw [if_neg hsame, Listing.insert_of_not_mem hchanged, ih hdistinct hmore, hrest, hfirst,
        List.append_assoc]
      rfl

theorem changes_eq (h : s.written.Nodup) (seen : Listing Tree) :
    s.changes seen = (s.unseen seen s.written, seen.overlay (s.unseen seen s.written)) := by
  rw [changes_eq_foldl, foldl_notice h fun _ _ => List.not_mem_nil, List.nil_append]

theorem agrees_overlay_unseen (hn : n ∈ names) :
    (seen.overlay (s.unseen seen names)).agrees n (s.read n) := by
  have hget := Listing.get?_overlay_map seen (names.filter fun n => !seen.agrees n (s.read n)) s.read n
  by_cases hsame : seen.agrees n (s.read n)
  · rw [if_neg (by simp [hsame])] at hget
    exact (Listing.agrees_congr hget _).trans hsame
  · rw [if_pos (by simp [hn, hsame])] at hget
    exact Listing.agrees_of_get? hget

theorem unseen_eq_nil (h : ∀ n ∈ names, seen.agrees n (s.read n)) : s.unseen seen names = [] := by
  simpa [unseen] using h

end Store

/-- A store, what one who follows its variables has seen of them, and the change sets that told it, the
first one first. -/
structure Followed where
  store : Store
  seen : Listing Tree
  told : List (Listing Tree) := []

inductive Move where
  | write (name : String) (value : Tree)
  | remove (name : String)
  | replace (vars : Listing Tree)
  | writeLogged (name : String) (value : Tree)
  | openFrame
  | closeFrame
  | ask

namespace Move

def perform : Move → Followed → Option Followed
  | write name value, f => some { f with store := f.store.write name value }
  | remove name, f => some { f with store := f.store.remove name }
  | replace vars, f => some { f with store := f.store.replace vars }
  | writeLogged name value, f => some { f with store := f.store.writeLogged name value }
  | openFrame, f => some { f with store := f.store.openFrame }
  | closeFrame, f => f.store.closeFrame?.map fun (_, store) => { f with store }
  | ask, f =>
    let (changed, seen) := f.store.changes f.seen
    some { f with seen, told := f.told ++ [changed] }

def performAll : List Move → Followed → Option Followed
  | [], f => some f
  | m :: ms, f => do performAll ms (← m.perform f)

abbrev Log := List String × List (List String)

def log : Move → Log → Option Log
  | writeLogged name _, (names, outer) =>
    some (if name ∈ names then names else names ++ [name], outer)
  | openFrame, (names, outer) => some ([], names :: outer)
  | closeFrame, (_, names :: outer) => some (names, outer)
  | closeFrame, (_, []) => none
  | _, log => some log

def logAll : List Move → Log → Option Log
  | [], log => some log
  | m :: ms, log => do logAll ms (← m.log log)

/-- The frames have the notes of the log, above those that were open before, and the change sets lead from
what was seen first to what is seen now. -/
structure Follows (below : List WriteBack) (seen : Listing Tree) (log : Log) (f : Followed) : Prop where
  frames : ∃ frame inner, f.store.frames = frame :: (inner ++ below) ∧ frame.names = log.1 ∧
    inner.map Listing.names = log.2
  distinct : log.1.Nodup ∧ ∀ names ∈ log.2, names.Nodup
  told : f.told.foldl Listing.overlay seen = f.seen

variable {m : Move} {ms : List Move} {below : List WriteBack} {seen : Listing Tree} {l l' : Log}
  {f : Followed} {n : String} {v : Tree}

namespace Follows

theorem written (h : Follows below seen l f) : f.store.written = l.1 := by
  obtain ⟨frame, inner, hframes, hnames, _⟩ := h.frames
  rw [Store.written, hframes, List.headD_cons, hnames]

theorem of_frames {store : Store} (h : Follows below seen l f) (hs : store.frames = f.store.frames) :
    Follows below seen l { f with store } :=
  ⟨hs ▸ h.frames, h.distinct, h.told⟩

theorem writeLogged (h : Follows below seen l f) (n : String) (v : Tree) :
    Follows below seen (if n ∈ l.1 then l.1 else l.1 ++ [n], l.2)
      { f with store := f.store.writeLogged n v } := by
  obtain ⟨frame, inner, hframes, hnames, hinner⟩ := h.frames
  -- A name that the frame has noted already is not noted again: its place in the log is the first.
  rcases f.store.note_cases n with ⟨hnote, hold⟩ | ⟨frame', rest, hframes', hnew, hnote⟩
  · obtain ⟨old, hold⟩ := hold (hframes ▸ List.cons_ne_nil _ _)
    have hn : n ∈ l.1 := by
      rw [← hnames]
      rw [Store.innermost_of_frames hframes] at hold
      exact Decidable.byContradiction fun hn => by simp [Listing.get?_eq_none.2 hn] at hold
    rw [if_pos hn]
    have hsame : (f.store.writeLogged n v).frames = f.store.frames :=
      (Store.frames_write _ n v).trans (congrArg Store.frames hnote)
    exact h.of_frames hsame
  · obtain ⟨rfl, rfl⟩ := List.cons.inj (hframes'.symm.trans hframes)
    have hn : n ∉ l.1 := hnames ▸ Listing.get?_eq_none.1 hnew
    rw [if_neg hn]
    have hnoted : Listing.names (frame' ++ [(n, f.store.get? n)]) = l.1 ++ [n] := by
      rw [← hnames, Listing.names, List.map_append]
      rfl
    refine ⟨⟨_, inner, hnote, hnoted, hinner⟩, ⟨?_, h.distinct.2⟩, h.told⟩
    rw [← hnoted]
    exact Listing.names_nodup_concat (hnames ▸ h.distinct.1) hnew _

theorem openFrame (h : Follows below seen l f) :
    Follows below seen ([], l.1 :: l.2) { f with store := f.store.openFrame } := by
  obtain ⟨frame, inner, hframes, hnames, hinner⟩ := h.frames
  refine ⟨⟨[], frame :: inner, congrArg ([] :: ·) hframes, rfl, ?_⟩,
    ⟨List.nodup_nil, List.forall_mem_cons.2 h.distinct⟩, h.told⟩
  rw [List.map_cons, hnames, hinner]

theorem closeFrame {names names' : List String} {outer : List (List String)}
    (h : Follows below seen (names, names' :: outer) f) :
    ∃ f', Move.closeFrame.perform f = some f' ∧ Follows below seen (names', outer) f' := by
  obtain ⟨frame, inner, hframes, _, hinner⟩ := h.frames
  obtain ⟨frame', inner', rfl, hnames', hinner'⟩ := List.map_eq_cons_iff.1 hinner
  obtain ⟨hdistinct', houter⟩ := List.forall_mem_cons.1 h.distinct.2
  let closed : Store := { f.store with frames := frame' :: (inner' ++ below) }
  have hclose : f.store.closeFrame? = some (frame.names, closed.restore frame) := by
    simp only [Store.closeFrame?, hframes, closed, List.cons_append]
  refine ⟨{ f with store := closed.restore frame }, congrArg (Option.map _) hclose, ?_,
    ⟨hdistinct', houter⟩, h.told⟩
  exact ⟨frame', inner', closed.frames_restore frame, hnames', hinner'⟩

theorem ask (h : Follows below seen l f) : Follows below seen l
    { f with
      seen := (f.store.changes f.seen).2
      told := f.told ++ [(f.store.changes f.seen).1] } := by
  have hwritten : f.store.written.Nodup := h.written ▸ h.distinct.1
  refine ⟨h.frames, h.distinct, ?_⟩
  rw [List.foldl_append, h.told, Store.changes_eq hwritten]
  rfl

theorem perform (h : Follows below seen l f) (hm : m.log l = some l') :
    ∃ f', m.perform f = some f' ∧ Follows below seen l' f' := by
  obtain ⟨names, outer⟩ := l
  cases m with
  | write name value | remove name | replace vars =>
    cases hm
    exact ⟨_, rfl, h.of_frames rfl⟩
  | writeLogged name value =>
    cases hm
    exact ⟨_, rfl, h.writeLogged name value⟩
  | openFrame =>
    cases hm
    exact ⟨_, rfl, h.openFrame⟩
  | closeFrame =>
    cases outer with
    | nil => cases hm
    | cons names' outer =>
      cases hm
      exact h.closeFrame
  | ask =>
    cases hm
    exact ⟨_, rfl, h.ask⟩

theorem performAll (h : Follows below seen l f) (hms : logAll ms l = some l') :
    ∃ f', Move.performAll ms f = some f' ∧ Follows below seen l' f' := by
  induction ms generalizing l f with
  | nil =>
    cases hms
    exact ⟨f, rfl, h⟩
  | cons m ms ih =>
    obtain ⟨l₁, hm, hms⟩ := Option.bind_eq_some_iff.1 hms
    obtain ⟨f₁, hf₁, h₁⟩ := h.perform hm
    obtain ⟨f', hf', h'⟩ := ih h₁ hms
    exact ⟨f', Option.bind_eq_some_iff.2 ⟨f₁, hf₁, hf'⟩, h'⟩

theorem start (s : Store) (seen : Listing Tree) :
    Follows s.frames seen ([], []) { store := s.openFrame, seen } :=
  ⟨⟨[], [], rfl, rfl, rfl⟩, ⟨List.nodup_nil, List.forall_mem_nil _⟩, rfl⟩

end Follows

theorem changes_converge {logged : List String} {outer : List (List String)}
    (hinside : logAll ms ([], []) = some (logged, outer)) (s : Store) (seen : Listing Tree) :
    ∃ f, Move.performAll ms { store := s.openFrame, seen } = some f ∧
      (f.store.changes f.seen).1 =
        (logged.filter fun n => !f.seen.agrees n (f.store.read n)).map (fun n => (n, f.store.read n)) ∧
      (∀ n ∈ logged, (f.store.changes f.seen).2.agrees n (f.store.read n)) ∧
      f.store.changes (f.store.changes f.seen).2 = ([], (f.store.changes f.seen).2) ∧
      f.told.foldl Listing.overlay seen = f.seen := by
  obtain ⟨f, hf, h⟩ := (Follows.start s seen).performAll hinside
  have hwritten : f.store.written = logged := h.written
  have hdistinct : f.store.written.Nodup := hwritten ▸ h.distinct.1
  have hagrees : ∀ n ∈ logged, (f.store.changes f.seen).2.agrees n (f.store.read n) := by
    intro n hn
    rw [Store.changes_eq hdistinct, hwritten]
    exact Store.agrees_overlay_unseen hn
  refine ⟨f, hf, ?_, hagrees, ?_, h.told⟩
  · rw [Store.changes_eq hdistinct, hwritten]
    rfl
  · rw [Store.changes_eq hdistinct (f.store.changes f.seen).2, hwritten, Store.unseen_eq_nil hagrees]
    rfl

def asking : List Move :=
  [.writeLogged "x" (.atom "1"), .ask, .openFrame, .writeLogged "y" (.atom "2"), .ask, .closeFrame,
    .writeLogged "z" (.atom "3"), .remove "x"]

theorem changes_converge_asking : logAll asking ([], []) = some (["x", "z"], []) ∧
    ∃ f, Move.performAll asking { store := Store.openFrame {}, seen := [] } = some f ∧
      f.told = [[("x", .atom "1")], [("y", .atom "2")]] ∧
      (f.store.changes f.seen).1 = [("x", .uninit), ("z", .atom "3")] ∧
      f.store.changes (f.store.changes f.seen).2 = ([], (f.store.changes f.seen).2) ∧
      f.told.foldl Listing.overlay [] = f.seen := by
  have hinside : logAll asking ([], []) = some (["x", "z"], []) := by decide
  obtain ⟨f, hf, _, _, hagain, htold⟩ := changes_converge hinside {} []
  refine ⟨hinside, f, hf, ?_, ?_, hagain, htold⟩
  all_goals
    cases hf
    rfl

end Move

end Typesetter

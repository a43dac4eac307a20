import Typesetter.Files.Path
/-!
Where a resolved name leads. A path is read without a look at the files: from the root or from where
relative paths start, so many levels up, and then down by names. Resolution leads to the place of the name
behind the directory of its base, but for the levels up, which it leaves out; so a relative base cannot be
left upwards.
-/

namespace Typesetter.Path

variable {base name path part : String} {parts : List String}

structure Ordinary (part : String) : Prop where
  said : isPart part
  whole : '/' ∉ part.toList
  ne_up : part ≠ ".."

def front : List String → List String
  | [] => []
  | piece :: rest => if rest.filter isPart = [] then [] else piece :: front rest

def directory (path : String) : String := String.intercalate "/" (front (pieces path) ++ [""])

structure Lead where
  absolute : Bool
  up : Nat := 0
  names : List String := []
  deriving DecidableEq

namespace Lead

def step (l : Lead) (part : String) : Lead :=
  if part = ".." then
    match l.names with
    | [] => if l.absolute then l else { l with up := l.up + 1 }
    | _ :: outer => { l with names := outer }
  else { l with names := part :: l.names }

def ofPath (path : String) : Lead := (components path).foldl step { absolute := isAbsolute path }

end Lead

section Text

theorem pieces_join (a b : String) : pieces (a ++ "/" ++ b) = pieces a ++ pieces b := by
  have htext : (a ++ "/" ++ b).toList = a.toList ++ '/' :: b.toList := by simp
  rw [pieces, htext, List.splitOn_append_cons_self, List.map_append]
  rfl

theorem components_join (a b : String) : components (a ++ "/" ++ b) = components a ++ components b := by
  rw [components, pieces_join, List.filter_append]
  rfl

theorem pieces_ne_nil (path : String) : pieces path ≠ [] := by
  simp [pieces, List.splitOn_ne_nil]

theorem pieces_of_whole (h : '/' ∉ path.toList) : pieces path = [path] := by
  rw [pieces, List.splitOn_eq_singleton h, List.map_singleton, String.ofList_toList]

theorem not_mem_of_mem_splitOn {cs piece : List Char} (h : piece ∈ cs.splitOn '/') : '/' ∉ piece := by
  induction cs generalizing piece with
  | nil =>
    rw [List.splitOn_nil, List.mem_singleton] at h
    exact h ▸ List.not_mem_nil
  | cons c cs ih =>
    rw [List.splitOn_cons_eq_if_modifyHead] at h
    by_cases hc : c == '/'
    · rw [if_pos hc, List.mem_cons] at h
      rcases h with rfl | h
      · exact List.not_mem_nil
      · exact ih h
    · rw [if_neg hc] at h
      obtain ⟨first, rest, hsplit⟩ := List.exists_cons_of_ne_nil (List.splitOn_ne_nil '/' cs)
      rw [hsplit] at h ih
      rcases List.mem_cons.1 h with rfl | h
      · have hne : '/' ≠ c := fun h => hc (beq_iff_eq.2 h.symm)
        exact List.not_mem_cons_of_ne_of_not_mem hne (ih List.mem_cons_self)
      · exact ih (List.mem_cons_of_mem first h)

theorem whole_of_mem_pieces (h : part ∈ pieces path) : '/' ∉ part.toList := by
  obtain ⟨cs, hcs, rfl⟩ := List.mem_map.1 h
  rw [String.toList_ofList]
  exact not_mem_of_mem_splitOn hcs

theorem isAbsolute_join {a : String} (ha : a ≠ "") (b : String) : isAbsolute (a ++ b) = isAbsolute a := by
  have hlist : a.toList ≠ [] := by simpa using ha
  obtain ⟨c, cs, hcs⟩ := List.exists_cons_of_ne_nil hlist
  rw [isAbsolute, isAbsolute, String.toList_append, hcs]
  rfl

theorem not_isAbsolute_of_whole (h : '/' ∉ part.toList) : isAbsolute part = false :=
  decide_eq_false fun hhead => h (List.mem_of_head? hhead)

theorem ne_empty_of_isPart (h : isPart part) : part ≠ "" := by
  rintro rfl
  exact absurd h (by decide)

theorem Ordinary.components_eq (h : Ordinary part) : components part = [part] := by
  rw [components, pieces_of_whole h.whole, List.filter_cons_of_pos h.said, List.filter_nil]

theorem ordinary_of_mem_components (h : part ∈ components path) (hdown : part ≠ "..") : Ordinary part :=
  have hpart := List.mem_filter.1 h
  ⟨hpart.2, whole_of_mem_pieces hpart.1, hdown⟩

theorem not_isAbsolute_intercalate (hpart : isPart part) (hwhole : '/' ∉ part.toList) (rest : List String) :
    isAbsolute (String.intercalate "/" (part :: rest)) = false := by
  have hrelative := not_isAbsolute_of_whole hwhole
  cases rest with
  | nil => rwa [String.intercalate_singleton]
  | cons part' rest =>
    rwa [String.intercalate_cons_cons, String.append_assoc, isAbsolute_join (ne_empty_of_isPart hpart)]

theorem not_isAbsolute_joined (h : ∀ part ∈ parts, Ordinary part) :
    isAbsolute (String.intercalate "/" parts) = false := by
  cases parts with
  | nil => rfl
  | cons part rest =>
    have hpart : Ordinary part := h part List.mem_cons_self
    exact not_isAbsolute_intercalate hpart.said hpart.whole rest

end Text

section Directory

theorem filter_front (pieces : List String) :
    (front pieces).filter isPart = (pieces.filter isPart).dropLast := by
  induction pieces with
  | nil => rfl
  | cons piece rest ih =>
    rw [front]
    by_cases hlast : rest.filter isPart = []
    · rw [if_pos hlast, List.filter_cons, hlast]
      by_cases hpart : isPart piece <;> simp [hpart]
    · rw [if_neg hlast, List.filter_cons, List.filter_cons, ih]
      by_cases hpart : isPart piece
      · rw [if_pos hpart, if_pos hpart, List.dropLast_cons_of_ne_nil hlast]
      · rw [if_neg hpart, if_neg hpart]

theorem front_sublist (pieces : List String) : (front pieces).Sublist pieces := by
  induction pieces with
  | nil => exact .slnil
  | cons piece rest ih =>
    rw [front]
    split
    · exact List.nil_sublist _
    · exact ih.cons_cons piece

theorem intercalate_concat_append (pieces : List String) (name : String) :
    String.intercalate "/" (pieces ++ [""]) ++ name = String.intercalate "/" (pieces ++ [name]) := by
  induction pieces with
  | nil => simp
  | cons piece rest ih =>
    have hrest : ∀ last : String, rest ++ [last] ≠ [] := by simp
    rw [List.cons_append, List.cons_append, String.intercalate_cons_of_ne_nil (hrest ""),
      String.intercalate_cons_of_ne_nil (hrest name), String.append_assoc, ih]

theorem components_intercalate_concat (h : ∀ piece ∈ parts, '/' ∉ piece.toList) (name : String) :
    components (String.intercalate "/" (parts ++ [name])) = parts.filter isPart ++ components name := by
  induction parts with
  | nil => simp
  | cons piece rest ih =>
    obtain ⟨hpiece, hrest⟩ := List.forall_mem_cons.1 h
    have hne : rest ++ [name] ≠ [] := by simp
    rw [List.cons_append, String.intercalate_cons_of_ne_nil hne, components_join, ih hrest, components,
      pieces_of_whole hpiece, ← List.append_assoc, ← List.filter_append]
    rfl

theorem components_intercalate (h : ∀ part ∈ parts, Ordinary part) :
    components (String.intercalate "/" parts) = parts := by
  obtain rfl | ⟨init, last, rfl⟩ := List.eq_nil_or_concat parts
  · rfl
  · rw [List.concat_eq_append] at h ⊢
    obtain ⟨hinit, hlast⟩ := List.forall_mem_append.1 h
    have hparts : init.filter isPart = init := List.filter_eq_self.2 fun part hpart => (hinit part hpart).said
    rw [components_intercalate_concat (fun part hpart => (hinit part hpart).whole), hparts,
      (hlast last List.mem_cons_self).components_eq]

theorem components_beside (base name : String) :
    components (directory base ++ name) = (components base).dropLast ++ components name := by
  have hwhole : ∀ piece ∈ front (pieces base), '/' ∉ piece.toList := fun piece hpiece =>
    whole_of_mem_pieces ((front_sublist _).subset hpiece)
  rw [directory, intercalate_concat_append, components_intercalate_concat hwhole, filter_front]
  rfl

theorem intercalate_pieces (path : String) : String.intercalate "/" (pieces path) = path := by
  have hseparator : "/".toList = ['/'] := rfl
  rw [← String.toList_inj, String.toList_intercalate, pieces, List.map_map, hseparator]
  have hsame : String.toList ∘ String.ofList = id := funext fun cs => String.toList_ofList
  rw [hsame, List.map_id, List.intercalate_splitOn]

theorem isAbsolute_beside (hrel : isAbsolute name = false) :
    isAbsolute (directory base ++ name) = (isAbsolute base && components base ≠ []) := by
  rw [directory, intercalate_concat_append]
  obtain ⟨piece, rest, hpieces⟩ := List.exists_cons_of_ne_nil (pieces_ne_nil base)
  have hbase : base = String.intercalate "/" (piece :: rest) := by rw [← hpieces, intercalate_pieces]
  have hparts : components base = (piece :: rest).filter isPart := by rw [components, hpieces]
  rw [hpieces, front]
  by_cases hlast : rest.filter isPart = []
  · rw [if_pos hlast, List.nil_append, String.intercalate_singleton, hrel]
    by_cases hpart : isPart piece
    · have hwhole : '/' ∉ piece.toList := whole_of_mem_pieces (hpieces ▸ List.mem_cons_self)
      rw [hbase, not_isAbsolute_intercalate hpart hwhole, Bool.false_and]
    · have hnone : (piece :: rest).filter isPart = [] := by rw [List.filter_cons_of_neg hpart, hlast]
      rw [hparts, hnone, decide_eq_false (not_not_intro rfl), Bool.and_false]
  · have hne : rest ≠ [] := by
      rintro rfl
      exact hlast rfl
    have hsome : (piece :: rest).filter isPart ≠ [] := by
      rw [List.filter_cons]
      split
      · exact List.cons_ne_nil _ _
      · exact hlast
    have hstart : piece ++ "/" ≠ "" := by simp
    rw [if_neg hlast, List.cons_append, String.intercalate_cons_of_ne_nil (by simp), hparts, hbase,
      String.intercalate_cons_of_ne_nil hne, isAbsolute_join hstart, isAbsolute_join hstart,
      decide_eq_true hsome, Bool.and_true]

end Directory

section Collapse

def normalize (path : String) : String :=
  let joined := String.intercalate "/" (collapse (components path))
  if isAbsolute path then "/" ++ joined else joined

theorem resolve_eq (hrel : isAbsolute name = false) :
    resolve base name = normalize (directory base ++ name) := by
  rw [resolve, if_neg (Bool.eq_false_iff.1 hrel), normalize, isAbsolute_beside hrel, components_beside]

theorem mem_foldl_enter {above : List String} (h : part ∈ parts.foldl enter above) :
    part ∈ above ∨ part ∈ parts ∧ part ≠ ".." := by
  induction parts generalizing above with
  | nil => exact .inl h
  | cons first rest ih =>
    rw [List.foldl_cons] at h
    rcases ih h with hmem | ⟨hmem, hdown⟩
    · rw [enter] at hmem
      split at hmem
      · exact .inl (List.mem_of_mem_tail hmem)
      · rename_i hdown
        rcases List.mem_cons.1 hmem with rfl | hmem
        · exact .inr ⟨List.mem_cons_self, hdown⟩
        · exact .inl hmem
    · exact .inr ⟨List.mem_cons_of_mem first hmem, hdown⟩

theorem ordinary_collapse (path : String) : ∀ part ∈ collapse (components path), Ordinary part := by
  intro part hpart
  obtain hnone | ⟨hmem, hdown⟩ := mem_foldl_enter (List.mem_reverse.1 hpart)
  · exact absurd hnone List.not_mem_nil
  · exact ordinary_of_mem_components hmem hdown

theorem components_normalize (path : String) :
    components (normalize path) = collapse (components path) := by
  have hordinary := ordinary_collapse path
  rw [normalize]
  split
  · have hempty : "/" ++ String.intercalate "/" (collapse (components path)) =
      "" ++ "/" ++ String.intercalate "/" (collapse (components path)) := rfl
    rw [hempty, components_join, components_intercalate hordinary]
    rfl
  · exact components_intercalate hordinary

theorem isAbsolute_normalize (path : String) : isAbsolute (normalize path) = isAbsolute path := by
  rw [normalize]
  split
  · rename_i h
    rw [isAbsolute_join (by decide), h]
    rfl
  · rename_i h
    rw [not_isAbsolute_joined (ordinary_collapse path), Bool.eq_false_iff.2 h]

end Collapse

namespace Lead

theorem step_enters (l : Lead) (part : String) :
    ∃ up, l.step part = { l with up, names := enter l.names part } := by
  obtain ⟨absolute, up, names⟩ := l
  rw [step, enter]
  split
  · cases names with
    | nil =>
      cases absolute with
      | false => exact ⟨up + 1, rfl⟩
      | true => exact ⟨up, rfl⟩
    | cons name outer => exact ⟨up, rfl⟩
  · exact ⟨up, rfl⟩

theorem foldl_enters (l : Lead) (parts : List String) :
    ∃ up, parts.foldl step l = { l with up, names := parts.foldl enter l.names } := by
  induction parts generalizing l with
  | nil => exact ⟨l.up, rfl⟩
  | cons part rest ih =>
    obtain ⟨up, hstep⟩ := l.step_enters part
    obtain ⟨up', hrest⟩ := ih (l.step part)
    rw [List.foldl_cons, hrest, hstep]
    exact ⟨up', rfl⟩

theorem foldl_down (l : Lead) (h : ∀ part ∈ parts, part ≠ "..") :
    parts.foldl step l = { l with names := parts.reverse ++ l.names } := by
  induction parts generalizing l with
  | nil => rfl
  | cons part rest ih =>
    obtain ⟨hpart, hrest⟩ := List.forall_mem_cons.1 h
    rw [List.foldl_cons, ih _ hrest, step, if_neg hpart]
    simp

theorem level_eq_iff (l : Lead) : { l with up := 0 } = l ↔ l.up = 0 := by
  obtain ⟨absolute, up, names⟩ := l
  rw [Lead.mk.injEq]
  simp [eq_comm]

theorem ofPath_normalize (path : String) : ofPath (normalize path) = { ofPath path with up := 0 } := by
  have hdown : ∀ part ∈ collapse (components path), part ≠ ".." := fun part h =>
    (ordinary_collapse path part h).ne_up
  obtain ⟨up, hpath⟩ := foldl_enters { absolute := isAbsolute path } (components path)
  rw [ofPath, components_normalize, isAbsolute_normalize, foldl_down _ hdown, collapse,
    List.reverse_reverse, List.append_nil, ofPath, hpath]

theorem ofPath_beside (hrel : isAbsolute name = false) :
    ofPath (directory base ++ name) = (components name).foldl step (ofPath (directory base)) := by
  have hdirectory : ofPath (directory base) =
      (components base).dropLast.foldl step { absolute := isAbsolute base && components base ≠ [] } := by
    have hempty : directory base ++ "" = directory base := String.append_empty
    rw [← hempty, ofPath, isAbsolute_beside rfl, components_beside, List.foldl_append]
    rfl
  rw [hdirectory, ofPath, isAbsolute_beside hrel, components_beside, List.foldl_append]

/-- Resolution leads to the place of a plain name behind the directory of its base if this directory does
not lead upwards from where relative paths start, and misses it otherwise. -/
theorem ofPath_resolve_iff (hrel : isAbsolute name = false) (hplain : ".." ∉ components name) :
    ofPath (resolve base name) = ofPath (directory base ++ name) ↔ (ofPath (directory base)).up = 0 := by
  have hdown : ∀ part ∈ components name, part ≠ ".." := fun part hpart h => hplain (h ▸ hpart)
  have hup : (ofPath (directory base ++ name)).up = (ofPath (directory base)).up := by
    rw [ofPath_beside hrel, foldl_down _ hdown]
  rw [resolve_eq hrel, ofPath_normalize, level_eq_iff, hup]

theorem ofPath_resolve_iff_returning :
    isAbsolute "./c//fig.png" = false ∧ ".." ∉ components "./c//fig.png" ∧
    (ofPath (directory "a/../b/./main.tm/")).up = 0 ∧
    resolve "a/../b/./main.tm/" "./c//fig.png" = "b/c/fig.png" ∧
    ofPath (resolve "a/../b/./main.tm/" "./c//fig.png") =
      ofPath (directory "a/../b/./main.tm/" ++ "./c//fig.png") := by
  have hrel : isAbsolute "./c//fig.png" = false := by decide
  have hplain : ".." ∉ components "./c//fig.png" := by decide
  have hup : (ofPath (directory "a/../b/./main.tm/")).up = 0 := by decide
  exact ⟨hrel, hplain, hup, by decide, (ofPath_resolve_iff hrel hplain).2 hup⟩

theorem not_ofPath_resolve_upward :
    isAbsolute "x.ts" = false ∧ ".." ∉ components "x.ts" ∧
    directory "../docs/main.tm" ++ "x.ts" = "../docs/x.ts" ∧
    resolve "../docs/main.tm" "x.ts" = "docs/x.ts" ∧
    ofPath (resolve "../docs/main.tm" "x.ts") ≠ ofPath (directory "../docs/main.tm" ++ "x.ts") := by
  decide

end Lead

section Confinement

theorem resolve_congr {name' : String} (hrel : isAbsolute name = false) (hrel' : isAbsolute name' = false)
    (h : ∀ above, (components name').foldl enter above = (components name).foldl enter above) :
    resolve base name' = resolve base name := by
  have hcollapse : collapse ((components base).dropLast ++ components name') =
      collapse ((components base).dropLast ++ components name) := by
    rw [collapse, collapse, List.foldl_append, List.foldl_append, h]
  rw [resolve, resolve, if_neg (Bool.eq_false_iff.1 hrel), if_neg (Bool.eq_false_iff.1 hrel')]
  simp only [hcollapse]

theorem resolve_detour (hpart : Ordinary part) (hrel : isAbsolute name = false) :
    resolve base (part ++ "/../" ++ name) = resolve base name := by
  have htext : part ++ "/../" ++ name = part ++ "/" ++ (".." ++ "/" ++ name) := by
    simp only [String.append_assoc]
    rfl
  have hdots : components ".." = [".."] := by decide
  have hrel' : isAbsolute (part ++ "/../" ++ name) = false := by
    rw [String.append_assoc, isAbsolute_join (ne_empty_of_isPart hpart.said)]
    exact not_isAbsolute_of_whole hpart.whole
  refine resolve_congr hrel hrel' fun above => ?_
  rw [htext, components_join, components_join, hpart.components_eq, hdots]
  simp only [List.singleton_append, List.foldl_cons, enter, if_neg hpart.ne_up, if_true, List.tail_cons]

theorem resolve_dot (hrel : isAbsolute name = false) : resolve base ("./" ++ name) = resolve base name := by
  have htext : "./" ++ name = "." ++ "/" ++ name := rfl
  have hdot : components "." = [] := by decide
  have hrel' : isAbsolute ("./" ++ name) = false := by
    rw [isAbsolute_join (by decide)]
    decide
  refine resolve_congr hrel hrel' fun above => ?_
  rw [htext, components_join, hdot, List.nil_append]

theorem resolve_confined (hbase : isAbsolute base = false) (hname : isAbsolute name = false) :
    (∃ parts : List String, (∀ part ∈ parts, Ordinary part) ∧
      resolve base name = String.intercalate "/" parts ∧
      Lead.ofPath (resolve base name) = { absolute := false, names := parts.reverse }) ∧
    (∀ part, Ordinary part → resolve base (part ++ "/../" ++ name) = resolve base name) ∧
    resolve base ("./" ++ name) = resolve base name := by
  refine ⟨?_, fun part hpart => resolve_detour hpart hname, resolve_dot hname⟩
  have habsolute : isAbsolute (directory base ++ name) = false := by
    rw [isAbsolute_beside hname, hbase, Bool.false_and]
  have hordinary := ordinary_collapse (directory base ++ name)
  have hdown : ∀ part ∈ collapse (components (directory base ++ name)), part ≠ ".." := fun part h =>
    (hordinary part h).ne_up
  refine ⟨collapse (components (directory base ++ name)), hordinary, ?_, ?_⟩
  · rw [resolve_eq hname, normalize, if_neg (Bool.eq_false_iff.1 habsolute)]
  · rw [resolve_eq hname, Lead.ofPath, isAbsolute_normalize, habsolute, components_normalize,
      Lead.foldl_down _ hdown, List.append_nil]

theorem resolve_confined_above :
    isAbsolute "doc/main.tm" = false ∧ isAbsolute "../../..//./a/" = false ∧ Ordinary "..." ∧
    resolve "doc/main.tm" "../../..//./a/" = "a" ∧
    resolve "doc/main.tm" ("..." ++ "/../" ++ "../../..//./a/") = "a" ∧
    resolve "doc/main.tm" ("./" ++ "../../..//./a/") = "a" := by
  have hbase : isAbsolute "doc/main.tm" = false := by decide
  have hname : isAbsolute "../../..//./a/" = false := by decide
  have hpart : Ordinary "..." := ⟨by decide, by decide, by decide⟩
  have hresolved : resolve "doc/main.tm" "../../..//./a/" = "a" := by decide
  obtain ⟨_, hdetour, hdot⟩ := resolve_confined hbase hname
  exact ⟨hbase, hname, hpart, hresolved, (hdetour "..." hpart).trans hresolved, hdot.trans hresolved⟩

end Confinement

end Typesetter.Path

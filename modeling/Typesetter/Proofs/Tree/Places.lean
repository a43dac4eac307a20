import Mathlib.Data.List.Induction

namespace Typesetter.Tree

inductive Place where
  | outside
  | comment
  | string (start : Nat) (escaped : Bool)
  deriving DecidableEq, Repr

structure Scan where
  offset : Nat := 0
  place : Place := .outside
  opened : List Nat := []
  deriving DecidableEq, Repr

namespace Scan

def nextPlace (s : Scan) (c : Char) : Place :=
  match s.place with
  | .outside => if c = ';' then .comment else if c = '"' then .string s.offset false else .outside
  | .comment => if c = '\n' then .outside else .comment
  | .string start true => .string start false
  | .string start false => if c = '"' then .outside else .string start (c = '\\')

def nextOpened (s : Scan) (c : Char) : List Nat :=
  match s.place with
  | .outside => if c = '(' then s.offset :: s.opened else if c = ')' then s.opened.tail else s.opened
  | _ => s.opened

def next (s : Scan) (c : Char) : Scan := ⟨s.offset + c.utf8Size, s.nextPlace c, s.nextOpened c⟩

def IsOrdinary (c : Char) : Prop := c ≠ '(' ∧ c ≠ ')' ∧ c ≠ '"' ∧ c ≠ ';'

theorem next_ordinary {s : Scan} {c : Char} (hs : s.place = .outside) (hc : IsOrdinary c) :
    s.nextPlace c = .outside ∧ s.nextOpened c = s.opened := by
  obtain ⟨hopen, hclose, hquote, hcomment⟩ := hc
  constructor
  · simp only [nextPlace, hs, if_neg hcomment, if_neg hquote]
  · simp only [nextOpened, hs, if_neg hopen, if_neg hclose]

theorem nextOpened_inside {s : Scan} (hs : s.place ≠ .outside) (c : Char) :
    s.nextOpened c = s.opened := by
  unfold nextOpened
  split
  · exact absurd ‹_› hs
  · rfl

end Scan

def scan (cs : List Char) : Scan := cs.foldl Scan.next {}

variable {cs : List Char} {c : Char} {o : Nat}

theorem scan_concat (cs : List Char) (c : Char) : scan (cs ++ [c]) = (scan cs).next c :=
  List.foldl_append

theorem offset_scan (cs : List Char) : (scan cs).offset = (String.ofList cs).utf8ByteSize := by
  induction cs using List.reverseRecOn with
  | nil => rfl
  | append_singleton cs c ih =>
    rw [scan_concat, String.ofList_append, String.utf8ByteSize_append, ← ih,
      ← String.singleton_eq_ofList, String.utf8ByteSize_singleton]
    rfl

def Stands (cs : List Char) (c : Char) (o : Nat) : Prop :=
  ∃ before after, cs = before ++ c :: after ∧ (scan before).offset = o ∧ (scan before).place = .outside

theorem Stands.concat (h : Stands cs c o) (d : Char) : Stands (cs ++ [d]) c o := by
  obtain ⟨before, after, rfl, ho, hplace⟩ := h
  exact ⟨before, after ++ [d], by rw [List.append_assoc, List.cons_append], ho, hplace⟩

theorem stands_here (h : (scan cs).place = .outside) (c : Char) :
    Stands (cs ++ [c]) c (scan cs).offset :=
  ⟨cs, [], rfl, rfl, h⟩

theorem stands_of_mem_opened (h : o ∈ (scan cs).opened) : Stands cs '(' o := by
  induction cs using List.reverseRecOn with
  | nil => cases h
  | append_singleton cs c ih =>
    rw [scan_concat] at h
    -- Only a parenthesis outside of comments and strings adds an offset, and it adds its own.
    have hcases : o ∈ (scan cs).opened ∨ (scan cs).place = .outside ∧ c = '(' ∧ o = (scan cs).offset := by
      simp only [Scan.next, Scan.nextOpened] at h
      split at h
      case h_1 hplace =>
        split at h
        case isTrue hc => exact (List.mem_cons.1 h).elim (fun ho => .inr ⟨hplace, hc, ho⟩) .inl
        case isFalse =>
          split at h
          · exact .inl (List.mem_of_mem_tail h)
          · exact .inl h
      case h_2 => exact .inl h
    rcases hcases with h | ⟨hplace, rfl, rfl⟩
    · exact (ih h).concat c
    · exact stands_here hplace '('

theorem stands_of_string {escaped : Bool} (h : (scan cs).place = .string o escaped) :
    Stands cs '"' o := by
  induction cs using List.reverseRecOn generalizing escaped with
  | nil => cases h
  | append_singleton cs c ih =>
    rw [scan_concat] at h
    simp only [Scan.next, Scan.nextPlace] at h
    split at h
    case h_1 hplace =>
      split at h
      · cases h
      split at h
      case isTrue hc =>
        cases h
        exact hc ▸ stands_here hplace c
      · cases h
    case h_2 =>
      split at h
      all_goals cases h
    case h_3 hplace =>
      cases h
      exact (ih hplace).concat c
    case h_4 hplace =>
      split at h
      · cases h
      · cases h
        exact (ih hplace).concat c

end Typesetter.Tree

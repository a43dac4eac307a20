import Typesetter.Evaluation.Effect
import Typesetter.Evaluation.Form
/-!
Access to the items of a list by their numbers. An item that is asked for has to exist, and so have all
items of a stretch; an access that asks for more is out of range.
-/

namespace Typesetter

theorem Tree.sizeList_le_of_sublist {cs ds : List Tree} (h : ds.Sublist cs) :
    sizeList ds ≤ sizeList cs := by
  induction h with
  | slnil => exact Nat.le_refl _
  | cons c _ ih => exact Nat.le_trans ih (Nat.le_add_left _ _)
  | cons_cons c _ ih => exact Nat.add_le_add_left ih _

structure OutOfRange where
  start : Nat
  stop : Nat
  length : Nat
  deriving DecidableEq, Repr

/-- What is found out by accesses to lists, all of which have to be in range. -/
abbrev Access := Except OutOfRange

namespace Access

variable {α : Type}

def item (xs : List α) (i : Nat) : Access α :=
  match xs[i]? with
  | some x => .ok x
  | none => .error ⟨i, i + 1, xs.length⟩

def stretch (xs : List α) (start stop : Nat) : Access (List α) :=
  if start ≤ stop ∧ stop ≤ xs.length then .ok ((xs.drop start).take (stop - start))
  else .error ⟨start, stop, xs.length⟩

def onward (xs : List α) (start : Nat) : Access (List α) := stretch xs start xs.length

def upTo (xs : List α) (stop : Nat) : Access (List α) := stretch xs 0 stop

def upToLast (xs : List α) : Access (List α) :=
  match xs.length with
  | 0 => .error ⟨0, 0, 0⟩
  | n + 1 => upTo xs n

@[simp] theorem item_zero (x : α) (xs : List α) : item (x :: xs) 0 = .ok x := rfl

@[simp] theorem item_one (x y : α) (xs : List α) : item (x :: y :: xs) 1 = .ok y := rfl

@[simp] theorem item_two (x y z : α) (xs : List α) : item (x :: y :: z :: xs) 2 = .ok z := rfl

theorem stretch_eq_ok {xs : List α} {i j : Nat} (h : i ≤ j) (hj : j ≤ xs.length) :
    stretch xs i j = .ok ((xs.drop i).take (j - i)) :=
  if_pos ⟨h, hj⟩

theorem onward_eq_ok {xs : List α} {i : Nat} (h : i ≤ xs.length) : onward xs i = .ok (xs.drop i) := by
  rw [onward, stretch_eq_ok h (Nat.le_refl _), List.take_of_length_le (by simp)]

@[simp] theorem onward_one (x : α) (xs : List α) : onward (x :: xs) 1 = .ok xs :=
  onward_eq_ok (Nat.succ_le_succ (Nat.zero_le _))

theorem upTo_eq_ok {xs : List α} {i : Nat} (h : i ≤ xs.length) : upTo xs i = .ok (xs.take i) :=
  stretch_eq_ok (Nat.zero_le i) h

theorem upToLast_eq_ok {xs : List α} (h : xs ≠ []) : upToLast xs = .ok xs.dropLast := by
  obtain ⟨n, hn⟩ := Nat.exists_eq_succ_of_ne_zero (mt List.length_eq_zero_iff.1 h)
  rw [upToLast, hn]
  simp only
  rw [upTo_eq_ok (by omega), List.dropLast_eq_take, hn]
  rfl

theorem sublist_of_onward {xs ys : List α} {i : Nat} (h : onward xs i = .ok ys) : ys.Sublist xs := by
  unfold onward stretch at h
  split at h
  · cases h
    exact (List.take_sublist _ _).trans (List.drop_sublist _ _)
  · cases h

theorem sizeList_onward {cs ds : List Tree} {i : Nat} (h : onward cs i = .ok ds) :
    Tree.sizeList ds ≤ Tree.sizeList cs :=
  Tree.sizeList_le_of_sublist (sublist_of_onward h)

end Access

namespace Indexed

variable {α : Type}

def pieces : List α → List (List α)
  | [] => []
  | [x] => [[x]]
  | x :: y :: rest => [x, y] :: pieces rest

def wholePieces : List α → List (List α) × List α
  | [] => ([], [])
  | [x] => ([], [x])
  | x :: y :: rest => ([x, y] :: (wholePieces rest).1, (wholePieces rest).2)

def splitLast? (xs : List α) : Option (List α × α) := xs.getLast?.map fun x => (xs.dropLast, x)

theorem splitLast?_concat (xs : List α) (x : α) : splitLast? (xs ++ [x]) = some (xs, x) := by
  simp only [splitLast?, List.getLast?_concat, List.dropLast_concat, Option.map_some]

theorem wholePieces_eq (ts : List Tree) : wholePieces ts =
    ((Form.pairs ts).1.map fun b => [b.1, b.2], (Form.pairs ts).2.toList) := by
  induction ts using Form.pairs.induct with
  | case1 => rfl
  | case2 t => rfl
  | case3 a b rest ps last h ih => simp only [wholePieces, Form.pairs, ih, h, List.map_cons]

theorem pieces_eq {ts : List Tree} (h : ts.length % 2 = 0) :
    pieces ts = (Form.pairs ts).1.map fun b => [b.1, b.2] := by
  induction ts using Form.pairs.induct with
  | case1 => rfl
  | case2 t => cases h
  | case3 a b rest ps last hrest ih =>
    have hlength : rest.length % 2 = 0 := by
      simp only [List.length_cons] at h
      omega
    simp only [pieces, Form.pairs, ih hlength, hrest, List.map_cons]

end Indexed

namespace Execution

variable {α : Type} (crash : OutOfRange → Halt)

/-- What is accessed in the course of an evaluation. Nothing follows an access out of range. -/
def reach : Access α → Execution α
  | .ok a => pure a
  | .error e => halt (crash e)

@[simp] theorem reach_ok (a : α) : reach crash (.ok a) = pure a := rfl

end Execution

end Typesetter

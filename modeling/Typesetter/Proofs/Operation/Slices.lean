import Typesetter.Operation.Sequence

namespace Typesetter

section

variable {α β : Type} {xs : List α} {i j k : Int} {p : Nat}

theorem slice_map (f : α → β) (xs : List α) (i j : Int) :
    slice (xs.map f) i j = (slice xs i j).map f := by
  simp only [slice, List.length_map, List.map_take, List.map_drop]

theorem slice_append (xs : List α) (hij : i ≤ j) (hjk : j ≤ k) :
    slice xs i j ++ slice xs j k = slice xs i k := by
  have hi : min i.toNat xs.length ≤ min j.toNat xs.length := by omega
  have hj : min j.toNat xs.length ≤ min k.toNat xs.length := by omega
  simp only [slice]
  generalize min i.toNat xs.length = a, min j.toNat xs.length = b, min k.toNat xs.length = c at *
  obtain ⟨m, rfl⟩ := Nat.exists_eq_add_of_le hi
  obtain ⟨n, rfl⟩ := Nat.exists_eq_add_of_le hj
  have htotal : a + m + n - a = m + n := by omega
  rw [Nat.add_sub_cancel_left, Nat.add_sub_cancel_left, htotal, List.take_add, List.drop_drop]

theorem length_slice (xs : List α) (i j : Int) :
    (slice xs i j).length = min j.toNat xs.length - min i.toNat xs.length := by
  simp only [slice, List.length_take, List.length_drop]
  omega

theorem getElem?_slice (hp : p < (slice xs i j).length) : (slice xs i j)[p]? = xs[i.toNat + p]? := by
  rw [length_slice] at hp
  have hi : min i.toNat xs.length = i.toNat := by omega
  rw [hi] at hp
  rw [slice, hi, List.getElem?_take_of_lt hp, List.getElem?_drop]

theorem countP_between (i j : Int) (n : Nat) :
    (List.range n).countP (fun p : Nat => i ≤ p ∧ p < j) = min j.toNat n - min i.toNat n := by
  induction n with
  | zero => simp
  | succ n ih =>
    rw [List.range_succ, List.countP_append, ih, List.countP_singleton]
    by_cases hn : i ≤ n ∧ n < j
    · rw [if_pos (decide_eq_true hn)]
      omega
    · rw [if_neg (mt of_decide_eq_true hn)]
      omega

end

namespace Tree

variable {t item : Tree} {i j k : Int}

def items : Tree → List Tree
  | atom s => s.toList.map fun c => atom (String.ofList [c])
  | node _ cs => cs

theorem length_eq_items (t : Tree) : t.length = t.items.length := by
  cases t with
  | atom s => rw [length, items, List.length_map, String.length_toList]
  | node tag cs => rfl

theorem item?_eq_items (t : Tree) (i : Int) : t.item? i = i.toNat?.bind (t.items[·]?) := by
  cases t with
  | atom s => simp only [item?, items, List.getElem?_map]
  | node tag cs => rfl

theorem items_range (t : Tree) (i j : Int) : (t.range i j).items = slice t.items i j := by
  cases t with
  | atom s => rw [range, items, items, String.toList_ofList, slice_map]
  | node tag cs => rfl

theorem merge_atoms (l l' : String) : merge [atom l, atom l'] = .ok (atom (l ++ l')) := rfl

theorem merge_tuples (cs cs' : List Tree) : merge [tuple cs, tuple cs'] = .ok (tuple (cs ++ cs')) := by
  have hchildren : [tuple cs, tuple cs'].flatMap children = cs ++ cs' :=
    congrArg (cs ++ ·) (List.append_nil cs')
  exact congrArg (fun ds => Except.ok (tuple ds)) hchildren

theorem merge_range (ht : t.isAtom ∨ t.isTuple) (hij : i ≤ j) (hjk : j ≤ k) :
    merge [t.range i j, t.range j k] = .ok (t.range i k) := by
  cases t with
  | atom s =>
    rw [range, range, range, merge_atoms, ← String.ofList_append, slice_append s.toList hij hjk]
  | node tag cs =>
    obtain rfl : tag = Primitive.tuple := by simpa [isAtom, label?, isTuple, hasTag, tag?] using ht
    have hslices : slice cs i j ++ slice cs j k = slice cs i k := slice_append cs hij hjk
    exact (merge_tuples _ _).trans (congrArg (fun ds => Except.ok (tuple ds)) hslices)

theorem lookup_of_item {p : Nat} (h : t.items[p]? = some item) : t.lookup p = .ok item := by
  have hitem : t.item? p = some item := (item?_eq_items t p).trans h
  rw [lookup, hitem]

theorem lookup_of_beyond (h : ¬ (0 ≤ i ∧ i < t.length)) :
    t.lookup i = .error (Cause.indexOutOfBounds i t.length) := by
  have hnone : t.item? i = none := by
    rw [item?_eq_items]
    rw [length_eq_items] at h
    cases i with
    | ofNat p =>
      have hp : t.items.length ≤ p := Nat.le_of_not_lt fun hp => h ⟨Int.natCast_nonneg p, Int.ofNat_lt.2 hp⟩
      exact List.getElem?_eq_none hp
    | negSucc p => rfl
  rw [lookup, hnone]

theorem length_range (t : Tree) (i j : Int) :
    (t.range i j).length = (List.range t.length).countP fun p : Nat => i ≤ p ∧ p < j := by
  rw [length_eq_items, items_range, length_slice, countP_between, length_eq_items]

theorem lookup_range {p : Nat} (hp : p < (t.range i j).length) :
    ∃ item, (t.range i j).lookup p = .ok item ∧ t.lookup (max i 0 + p) = .ok item := by
  rw [length_eq_items] at hp
  have hitem : (t.range i j).items[p]? = some (t.range i j).items[p] := List.getElem?_eq_getElem hp
  have hshifted : t.items[i.toNat + p]? = some (t.range i j).items[p] := by
    rw [← hitem, items_range]
    rw [items_range] at hp
    exact (getElem?_slice hp).symm
  have hindex : max i 0 + p = ((i.toNat + p : Nat) : Int) := by omega
  rw [hindex]
  exact ⟨_, lookup_of_item hitem, lookup_of_item hshifted⟩

theorem range_composes (ht : t.isAtom ∨ t.isTuple) (hij : i ≤ j) (hjk : j ≤ k) :
    merge [t.range i j, t.range j k] = .ok (t.range i k) ∧
    (t.range i j).length = (List.range t.length).countP (fun p : Nat => i ≤ p ∧ p < j) ∧
    ∀ p : Int,
      (0 ≤ p ∧ p < (t.range i j).length → ∃ item, (t.range i j).lookup p = .ok item ∧
        t.lookup (max i 0 + p) = .ok item) ∧
      (¬ (0 ≤ p ∧ p < (t.range i j).length) →
        (t.range i j).lookup p = .error (Cause.indexOutOfBounds p (t.range i j).length)) := by
  refine ⟨merge_range ht hij hjk, length_range t i j, fun p => ⟨?_, lookup_of_beyond⟩⟩
  rintro ⟨hnonneg, hlt⟩
  obtain ⟨p, rfl⟩ := Int.eq_ofNat_of_zero_le hnonneg
  exact lookup_range (Int.ofNat_lt.1 hlt)

theorem range_composes_beyond :
    (atom "äbçd").isAtom ∧ (-5 : Int) ≤ 2 ∧ (2 : Int) ≤ 9 ∧
    (atom "äbçd").range (-5) 2 = atom "äb" ∧ (atom "äbçd").range 2 9 = atom "çd" ∧
    merge [(atom "äbçd").range (-5) 2, (atom "äbçd").range 2 9] = .ok ((atom "äbçd").range (-5) 9) :=
  ⟨rfl, by decide, by decide, by decide, by decide,
    (range_composes (.inl rfl) (by decide) (by decide)).1⟩

end Tree

end Typesetter

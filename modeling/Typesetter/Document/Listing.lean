/-!
Listings: values by name, in the order in which the names came first.
-/

namespace Typesetter

abbrev Listing (α : Type) := List (String × α)

namespace Listing

variable {α : Type}

def get? (l : Listing α) (name : String) : Option α := l.lookup name

def names (l : Listing α) : List String := l.map (·.1)

/-- A name that is there keeps its place. -/
def insert : Listing α → String → α → Listing α
  | [], name, value => [(name, value)]
  | (n, v) :: rest, name, value =>
    if n = name then (n, value) :: rest else (n, v) :: insert rest name value

def ofList (entries : List (String × α)) : Listing α :=
  entries.foldl (fun l (name, value) => l.insert name value) []

@[simp] theorem get?_insert (l : Listing α) (n m : String) (v : α) :
    (l.insert n v).get? m = if m = n then some v else l.get? m := by
  induction l with
  | nil =>
    simp only [insert, get?, List.lookup_cons, List.lookup_nil]
    by_cases h : m = n
    · simp [h]
    · simp [h, beq_eq_false_iff_ne.2 h]
  | cons e l ih =>
    obtain ⟨k, w⟩ := e
    simp only [get?] at ih
    simp only [get?, insert]
    by_cases hk : k = n
    · subst hk
      by_cases h : m = k
      · simp [h]
      · simp [h, List.lookup_cons, beq_eq_false_iff_ne.2 h]
    · by_cases h : m = k
      · subst h
        simp [hk]
      · simp [hk, List.lookup_cons, beq_eq_false_iff_ne.2 h, ih]

end Listing

end Typesetter

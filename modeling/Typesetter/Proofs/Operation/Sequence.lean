import Typesetter.Operation.Sequence
import Typesetter.Proofs.Tree.Every

namespace Typesetter.Tree.Every

variable {p : Tag → List Tree → Prop} {t u : Tree} {ts : List Tree}

theorem range (hp : ∀ tag cs ds, p tag cs → ds ⊆ cs → p tag ds) (h : t.Every p) (i j : Int) :
    (t.range i j).Every p := by
  cases t with
  | atom s => exact .atom _
  | node tag cs =>
    have hslice : slice cs i j ⊆ cs := fun c hc => List.mem_of_mem_drop (List.mem_of_mem_take hc)
    exact .node (hp tag cs _ h.here hslice) fun c hc => h.child (hslice hc)

theorem lookup (h : t.Every p) {i : Int} (hu : t.lookup i = .ok u) : u.Every p := by
  unfold Tree.lookup at hu
  cases hitem : t.item? i with
  | none =>
    rw [hitem] at hu
    cases hu
  | some item =>
    rw [hitem] at hu
    cases hu
    cases t with
    | atom s =>
      obtain ⟨n, _, hn⟩ := Option.bind_eq_some_iff.1 hitem
      obtain ⟨c, _, rfl⟩ := Option.map_eq_some_iff.1 hn
      exact .atom _
    | node tag cs =>
      obtain ⟨n, _, hn⟩ := Option.bind_eq_some_iff.1 hitem
      exact h.child (List.mem_of_getElem? hn)

theorem merge (htuple : ∀ cs, p Primitive.tuple cs) (h : ∀ t ∈ ts, t.Every p)
    (hu : Tree.merge ts = .ok u) : u.Every p := by
  unfold Tree.merge at hu
  split at hu
  · cases hu
    exact .atom _
  · split at hu
    · cases hu
    · cases hu
      refine .node (htuple _) fun c hc => ?_
      obtain ⟨t, ht, hc⟩ := List.mem_flatMap.1 hc
      exact (h t ht).of_mem_children hc

end Typesetter.Tree.Every

import Typesetter.Proofs.Macro.Expansion
import Typesetter.Session.Environment

namespace Typesetter

variable {P Q : Tree → Prop} {w : World} {s s' : State} {x : String} {v : Tree}

structure World.Holds (P : Tree → Prop) (w : World) : Prop where
  binding (key : String) (v : Tree) : w.references.binding? key = some v → P v
  attachment (key : String) (v : Tree) : w.references.attachment? key = some v → P v
  property (tag name : String) (v : Tree) : w.registry.property? tag name = some v → P v
  default (m : String) (i : Nat) (v : Tree) : w.registry.default? m i = some v → P v
  file (path text : String) (t : Tree) :
    w.files.text path = some (.ok text) → Tree.read text = .ok t → P t

structure State.Holds (P : Tree → Prop) (s : State) : Prop where
  stored (x : String) (v : Tree) : s.store.get? x = some v → P v
  scope : ∀ f ∈ s.scope, f.Holds P

namespace World

theorem Holds.mono (h : w.Holds P) (hPQ : ∀ v, P v → Q v) : w.Holds Q :=
  ⟨fun key v hv => hPQ v (h.binding key v hv), fun key v hv => hPQ v (h.attachment key v hv),
    fun tag name v hv => hPQ v (h.property tag name v hv), fun m i v hv => hPQ v (h.default m i v hv),
    fun path text t hf ht => hPQ t (h.file path text t hf ht)⟩

theorem holds_bare (base : String) (settings : Settings) : World.Holds P { base, settings } where
  binding key v hv := by simp [References.binding?] at hv
  attachment key v hv := by simp [References.attachment?] at hv
  property tag name v hv := by simp [Registry.property?, Registry.entry, Listing.get?] at hv
  default m i v hv := by simp [Registry.default?, Registry.entry] at hv
  file path text t hf _ := by simp [FileSystem.none] at hf

end World

namespace State

theorem holds_fresh (dpi : Int) (mode : InactiveMode) : (fresh dpi mode).Holds P :=
  ⟨fun x v hv => by simp [fresh, Store.get?] at hv, List.forall_mem_nil _⟩

namespace Holds

theorem mono (h : s.Holds P) (hPQ : ∀ v, P v → Q v) : s.Holds Q :=
  ⟨fun x v hv => hPQ v (h.stored x v hv), fun f hf => (h.scope f hf).mono hPQ⟩

theorem restore (h : s.Holds P) {store : Store} (x : String)
    (hold : ∀ y, y ≠ x → store.get? y = s.store.get? y) (hx : ∀ v, store.get? x = some v → P v) :
    Holds P { s with store } := by
  refine ⟨fun y v hv => ?_, h.scope⟩
  by_cases hy : y = x
  · subst hy
    exact hx v hv
  · exact h.stored y v ((hold y hy).symm.trans hv)

theorem write (h : s.Holds P) (x : String) (hv : P v) : (s.write x v).Holds P := by
  refine h.restore x (fun y hy => by simp [Ne.symm hy]) fun u hu => ?_
  simp only [Store.get?_write, if_true, Option.some.injEq] at hu
  exact hu ▸ hv

theorem writeLogged (h : s.Holds P) (x : String) (hv : P v) : (s.writeLogged x v).Holds P := by
  refine h.restore x (fun y hy => by simp [Ne.symm hy]) fun u hu => ?_
  simp only [Store.get?_writeLogged, if_true, Option.some.injEq] at hu
  exact hu ▸ hv

theorem update (h : s.Holds P) (x : String) : (s.update x).Holds P := ⟨h.stored, h.scope⟩

theorem assign (h : s.Holds P) (x : String) (hv : P v) : (s.assign x v).Holds P := by
  unfold State.assign
  split
  · exact h
  · exact (h.writeLogged x hv).update x

theorem putBack (h : s.Holds P) (h' : s'.Holds P) (x : String) :
    (s'.putBack x (s.store.get? x)).Holds P := by
  refine update (h'.restore x (fun y hy => by simp [Ne.symm hy]) fun u hu => ?_) x
  simp only [Store.get?_put, if_true] at hu
  exact h.stored x u hu

theorem rescope (h : s.Holds P) {scope : Scope} (hscope : ∀ f ∈ scope, f.Holds P) :
    Holds P { s with scope } :=
  ⟨h.stored, hscope⟩

theorem read (h : s.Holds P) (huninit : P .uninit) (x : String) : P (s.store.read x) :=
  Store.read_of huninit (h.stored x)

theorem lookup (h : s.Holds P) {level : Nat} (hv : s.scope.lookup? x = some (level, v)) : P v :=
  Scope.lookup?_of h.scope hv

end Holds

end State

end Typesetter

import Typesetter.Proofs.Tree.Every

namespace Typesetter

namespace ArgumentFrame

variable {P Q : Tree → Prop} {f : ArgumentFrame}

def Holds (P : Tree → Prop) (f : ArgumentFrame) : Prop := ∀ x v, f.value? x = some v → P v

namespace Holds

theorem nil : Holds P [] := nofun

theorem mono (h : Holds P f) (hPQ : ∀ v, P v → Q v) : Holds Q f := fun x v hv => hPQ v (h x v hv)

theorem insert (h : Holds P f) (x : String) {b : Binding} (hb : P b.value) :
    Holds P (Listing.insert f x b) := by
  intro y v hv
  rw [value?, Listing.get?_insert] at hv
  by_cases hy : y = x
  · rw [if_pos hy] at hv
    cases hv
    exact hb
  · rw [if_neg hy] at hv
    exact h y v hv

theorem bindAt (h : Holds P f) (x : String) {v : Tree} (hv : P v) (path : List Nat) :
    Holds P (f.bindAt x v path) :=
  h.insert x hv

theorem bind (h : Holds P f) (x : String) {v : Tree} (hv : P v) : Holds P (f.bind x v) :=
  h.insert x hv

end Holds

end ArgumentFrame

theorem Scope.lookup?_of {P : Tree → Prop} {scope : Scope} {x : String} {level : Nat} {v : Tree}
    (h : ∀ f ∈ scope, f.Holds P) (hv : scope.lookup? x = some (level, v)) : P v := by
  induction scope with
  | nil => cases hv
  | cons f below ih =>
    rw [Scope.lookup?] at hv
    cases hf : f.value? x with
    | none =>
      rw [hf] at hv
      exact ih (fun g hg => h g (List.mem_cons_of_mem f hg)) hv
    | some u =>
      rw [hf] at hv
      obtain ⟨_, rfl⟩ := Prod.mk.inj (Option.some.inj hv)
      exact h f List.mem_cons_self x u hf

namespace Expansion

open Typesetter.Tree

variable {p : Tag → List Tree → Prop} {frame : ArgumentFrame} {store : Store} {registry : Registry}
  {name : String} {args : List Tree} {t e : Tree}

structure Stable (p : Tag → List Tree → Prop) : Prop where
  uninit : p Primitive.uninit []
  tuple (items : List Tree) : p Primitive.tuple items
  substituted (frame : ArgumentFrame) {tag : Tag} {cs : List Tree} :
    p tag cs → p tag (substituteList frame cs)

theorem Stable.uses {tags : Tag → Prop} (huninit : tags Primitive.uninit)
    (htuple : tags Primitive.tuple) : Stable fun tag _ => tags tag :=
  ⟨huninit, fun _ => htuple, fun _ _ _ h => h⟩

theorem reference?_every (hf : frame.Holds (Every p)) {cs : List Tree}
    (he : substitute.reference? frame cs = some e) : e.Every p := by
  unfold substitute.reference? at he
  split at he
  · obtain ⟨v, hv, he⟩ := Option.bind_eq_some_iff.1 he
    exact (hf _ v hv).of_follow? he
  · cases he

mutual

theorem substitute_every (hp : Stable p) (hf : frame.Holds (Every p)) (t : Tree) (ht : t.Every p) :
    (substitute frame t).Every p := by
  cases t with
  | atom s => exact .atom s
  | node tag cs =>
    have hcs : (Tree.node tag (substituteList frame cs)).Every p :=
      .node (hp.substituted frame ht.here) (substituteList_every hp hf cs fun c hc => ht.child hc)
    unfold substitute
    split
    · exact ht
    · exact ht
    · exact ht
    · cases he : substitute.reference? frame cs with
      | none => exact ht
      | some e => exact reference?_every hf he
    · exact hcs

theorem substituteList_every (hp : Stable p) (hf : frame.Holds (Every p)) (ts : List Tree)
    (hts : ∀ t ∈ ts, t.Every p) : ∀ t ∈ substituteList frame ts, t.Every p := by
  cases ts with
  | nil => exact List.forall_mem_nil _
  | cons c cs =>
    intro t ht
    rw [substituteList] at ht
    rcases List.mem_cons.1 ht with rfl | ht
    · exact substitute_every hp hf c (hts c List.mem_cons_self)
    · exact substituteList_every hp hf cs (fun d hd => hts d (List.mem_cons_of_mem c hd)) t ht

end

theorem bindFormals_every (hp : Stable p)
    (hdefaults : ∀ i d, registry.default? name i = some d → d.Every p) (i : Nat)
    (formals : List Tree) (hargs : ∀ t ∈ args, t.Every p) (hf : frame.Holds (Every p)) :
    (bindFormals registry name i formals args frame).Holds (Every p) := by
  induction formals generalizing i args frame with
  | nil => exact hf
  | cons formal formals ih =>
    have htail : ∀ t ∈ args.tail, t.Every p := fun t ht => hargs t (List.mem_of_mem_tail ht)
    cases formal with
    | node tag cs => exact ih (i + 1) htail hf
    | atom x =>
      refine ih (i + 1) htail (hf.bindAt x ?_ [i])
      cases args with
      | cons t args => exact hargs t List.mem_cons_self
      | nil =>
        cases hd : registry.default? name i with
        | none => exact .leaf hp.uninit
        | some d => exact hdefaults i d hd

theorem bindVariadic_every (hp : Stable p) (formals : List Tree) (hargs : ∀ t ∈ args, t.Every p) :
    (bindVariadic formals args).Holds (Every p) := by
  unfold bindVariadic
  split
  · exact ArgumentFrame.Holds.nil.bind _ (.node (hp.tuple args) hargs)
  · exact .nil

theorem expandMacro?_every (hp : Stable p) (hdefinition : (store.read name).Every p)
    (hdefaults : ∀ i d, registry.default? name i = some d → d.Every p)
    (hargs : ∀ t ∈ args, t.Every p) (he : expandMacro? store registry name args = some e) :
    e.Every p := by
  obtain ⟨_, _, he⟩ := Option.bind_eq_some_iff.1 he
  obtain ⟨⟨formals, body⟩, hparts, he⟩ := Option.bind_eq_some_iff.1 he
  cases he
  have hbody : body.Every p := by
    obtain ⟨last, hlast, hl⟩ := Option.map_eq_some_iff.1 hparts
    cases hl
    exact hdefinition.of_mem_children (List.mem_of_getLast? hlast)
  refine substitute_every hp ?_ body hbody
  by_cases hv : (store.read name).hasTag Primitive.variadicDef
  · rw [if_pos hv]
    exact bindVariadic_every hp formals hargs
  · rw [if_neg hv]
    exact bindFormals_every hp hdefaults 0 formals hargs .nil

end Expansion

end Typesetter

import Typesetter.Macro.Expansion

namespace Typesetter

def Tag.IsPrompt (tag : Tag) : Prop := tag ≠ Primitive.delay ∧ tag ≠ Primitive.quasiquote

instance (tag : Tag) : Decidable tag.IsPrompt := inferInstanceAs (Decidable (_ ∧ _))

theorem Tag.IsPrompt.user (name : String) : (Tag.user name).IsPrompt := ⟨Tag.noConfusion, Tag.noConfusion⟩

namespace Tree

def MayName : Tree → String → Prop
  | .atom s, x => x = s
  | .node .., _ => True

variable {p q : Tag → List Tree → Prop} {t c : Tree} {tag : Tag} {cs : List Tree}

inductive Every (p : Tag → List Tree → Prop) : Tree → Prop
  | atom (s : String) : Every p (.atom s)
  | node {tag : Tag} {cs : List Tree} : p tag cs → (∀ c ∈ cs, Every p c) → Every p (.node tag cs)

namespace Every

theorem here (h : Every p (.node tag cs)) : p tag cs := by
  cases h with
  | node hp _ => exact hp

theorem child (h : Every p (.node tag cs)) (hc : c ∈ cs) : Every p c := by
  cases h with
  | node _ hcs => exact hcs c hc

theorem leaf (h : p tag []) : Every p (.node tag []) := .node h (List.forall_mem_nil _)

theorem of_mem_children (h : Every p t) (hc : c ∈ t.children) : Every p c := by
  cases t with
  | atom s => cases hc
  | node tag cs => exact h.child hc

theorem of_child? (h : Every p t) {i : Nat} (hc : t.child? i = some c) : Every p c :=
  h.of_mem_children (List.mem_of_getElem? hc)

theorem of_childAt? (h : Every p t) {i : Int} (hc : t.childAt? i = some c) : Every p c := by
  obtain ⟨n, _, hn⟩ := Option.bind_eq_some_iff.1 hc
  exact h.of_child? hn

theorem of_follow? (h : Every p t) {indices : List Tree} (hc : t.follow? indices = some c) :
    Every p c := by
  induction indices generalizing t with
  | nil =>
    cases hc
    exact h
  | cons i rest ih =>
    obtain ⟨label, _, hc⟩ := Option.bind_eq_some_iff.1 hc
    obtain ⟨n, _, hc⟩ := Option.bind_eq_some_iff.1 hc
    obtain ⟨d, hd, hc⟩ := Option.bind_eq_some_iff.1 hc
    exact ih (h.of_child? hd) hc

theorem of_forall (h : ∀ tag cs, p tag cs) : (t : Tree) → Every p t
  | .atom s => .atom s
  | .node tag cs => .node (h tag cs) fun c _ => of_forall h c

theorem mono (h : Every p t) (hpq : ∀ tag cs, p tag cs → q tag cs) : Every q t := by
  induction h with
  | atom s => exact .atom s
  | node hp _ ih => exact .node (hpq _ _ hp) ih

theorem both (h : Every p t) (h' : Every q t) : Every (fun tag cs => p tag cs ∧ q tag cs) t := by
  induction h with
  | atom s => exact .atom s
  | node hp _ ih => exact .node ⟨hp, h'.here⟩ fun c hc => ih c hc (h'.child hc)

section Decidable

variable [∀ tag cs, Decidable (p tag cs)]

mutual

def dec : (t : Tree) → Decidable (Every p t)
  | .atom s => .isTrue (.atom s)
  | .node tag cs =>
    match (inferInstance : Decidable (p tag cs)), decList cs with
    | .isTrue h, .isTrue hcs => .isTrue (.node h hcs)
    | .isFalse h, _ => .isFalse fun he => h he.here
    | _, .isFalse hcs => .isFalse fun he => hcs fun _ hc => he.child hc

def decList : (cs : List Tree) → Decidable (∀ c ∈ cs, Every p c)
  | [] => .isTrue (List.forall_mem_nil _)
  | c :: cs =>
    match dec c, decList cs with
    | .isTrue h, .isTrue hcs => .isTrue (List.forall_mem_cons.2 ⟨h, hcs⟩)
    | .isFalse h, _ => .isFalse fun hall => h (hall c List.mem_cons_self)
    | _, .isFalse hcs => .isFalse fun hall => hcs fun d hd => hall d (List.mem_cons_of_mem c hd)

end

instance (t : Tree) : Decidable (Every p t) := dec t

end Decidable

end Every

inductive IsPart (u : Tree) : Tree → Prop
  | refl : IsPart u u
  | child {tag : Tag} {cs : List Tree} {c : Tree} : c ∈ cs → IsPart u c → IsPart u (.node tag cs)

theorem IsPart.size_le {u : Tree} (h : u.IsPart t) : u.size ≤ t.size := by
  induction h with
  | refl => exact Nat.le_refl _
  | child hc _ ih =>
    have := size_lt_of_mem hc
    simp only [size]
    omega

theorem IsPart.size_lt {u : Tree} (h : u.IsPart c) (hc : c ∈ t.children) : u.size < t.size := by
  cases t with
  | atom s => cases hc
  | node tag cs =>
    have hc : c ∈ cs := hc
    have := h.size_le
    have := size_lt_of_mem hc
    simp only [size]
    omega

theorem size_named_lt (s : String) (head : Tree) (args : List Tree) :
    (node (Tag.ofName s) args).size < (node Primitive.compound (head :: args)).size := by
  have := head.size_pos
  simp only [size, sizeList]
  omega

theorem Every.part {u : Tree} (h : Every p t) (hu : u.IsPart t) : Every p u := by
  induction hu with
  | refl => exact h
  | child hc _ ih => exact ih (h.child hc)

abbrev Always (p : Tag → List Tree → Prop) (tag : Tag) : Prop := ∀ cs, p tag cs

abbrev Uses (tags : Tag → Prop) : Tree → Prop := Every fun tag _ => tags tag

abbrev Prompt : Tree → Prop := Every fun tag _ => tag.IsPrompt

theorem tag_of_isDelayed (h : (node tag cs).isDelayed) :
    tag = Primitive.delay ∨ tag = Primitive.quasiquote := by
  simpa [isDelayed, hasTag, tag?] using h

theorem isPrompt_of_isDelayed (h : (node tag cs).isDelayed = false) : tag.IsPrompt := by
  simpa [isDelayed, hasTag, tag?, Tag.IsPrompt] using h

def IsSplice (t : Tree) : Prop := ∃ body rest, t = node Primitive.unquoteSplice (body :: rest)

/-- A template with nodes of such tags outside of the parts that are evaluated. -/
inductive Template (tags : Tag → Prop) : Tree → Prop
  | atom (s : String) : Template tags (.atom s)
  | unquote (body : Tree) (rest : List Tree) : Template tags (node Primitive.unquote (body :: rest))
  | node {tag : Tag} {cs : List Tree} : tags tag → (∀ c ∈ cs, ¬ c.IsSplice → Template tags c) →
    Template tags (.node tag cs)

theorem Template.of_uses {tags : Tag → Prop} (h : t.Uses tags) : Template tags t := by
  induction h with
  | atom s => exact .atom s
  | node htag _ ih => exact .node htag fun c hc _ => ih c hc

theorem Template.mono {tags tags' : Tag → Prop} (h : Template tags t) (htags : ∀ tag, tags tag → tags' tag) :
    Template tags' t := by
  induction h with
  | atom s => exact .atom s
  | unquote body rest => exact .unquote body rest
  | node htag _ ih => exact .node (htags _ htag) fun c hc => ih c hc

end Tree

end Typesetter

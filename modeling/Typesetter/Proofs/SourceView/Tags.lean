import Typesetter.Proofs.Evaluation.Contents
import Typesetter.Proofs.SourceView.Outcome

namespace Typesetter

/-- An error was reported, and error trees have no place among the tags. -/
def Excused (tags : Tag → Prop) (new : Array Diagnostic) : Prop :=
  ¬ tags Primitive.error ∧ ∃ d ∈ new, d.isError

namespace Excused

variable {tags : Tag → Prop} {first second : Array Diagnostic}

theorem left (h : Excused tags first) : Excused tags (first ++ second) := by
  obtain ⟨hno, d, hd, herror⟩ := h
  exact ⟨hno, d, Array.mem_append_left second hd, herror⟩

theorem right (h : Excused tags second) : Excused tags (first ++ second) := by
  obtain ⟨hno, d, hd, herror⟩ := h
  exact ⟨hno, d, Array.mem_append_right first hd, herror⟩

end Excused

namespace SourceView

open Typesetter.Tree

variable {α : Type} {tags : Tag → Prop} {c : Prop} {p : Tag → List Tree → Prop} {s : Setting}
  {layout : Layout} {name : String} {tag : Tag} {t : Tree} {cs ts : List Tree}

def Shows (tags : Tag → Prop) (c : Prop) (P : α → Prop) (m : Rendering α) : Prop :=
  ∀ ds, ∃ new, (m.run ds).2 = ds ++ new ∧ (c → Excused tags new ∨ P (m.run ds).1)

def ownPrimitives : List Primitive :=
  [.srcArg, .srcValue, .srcSymbol, .srcHybrid, .srcRaw, .srcHighlight, .srcExpand, .document, .concat,
    .inlineTag, .openTag, .closeTag]

def AllEvery (p : Tag → List Tree → Prop) (ts : List Tree) : Prop := ∀ t ∈ ts, t.Every p

abbrev AllUse (tags : Tag → Prop) : List Tree → Prop := AllEvery fun tag _ => tags tag

theorem AllEvery.nil : AllEvery p [] := List.forall_mem_nil _

theorem AllEvery.cons (ht : t.Every p) (hts : AllEvery p ts) : AllEvery p (t :: ts) :=
  List.forall_mem_cons.2 ⟨ht, hts⟩

theorem tagView_every (hown : ∀ q ∈ ownPrimitives, Always p q) (block : Bool) (hts : AllEvery p ts) :
    (s.tagView name layout block ts).Every p := by
  have hframe : framePrimitives ⊆ ownPrimitives := by decide
  exact tagView_of .atom (fun q hq vs hvs => .node (hown q (hframe hq) vs) hvs) block hts

theorem Target.occursAs_application {m : String} (h : (application m).occursAs tag cs) :
    tag = .user m ∨ ∃ args, tag = .prim .compound ∧ cs = .atom m :: args := by
  unfold occursAs at h
  split at h
  all_goals simp_all

namespace Setting

variable {x m : String}

theorem expansion?_none (h : s.target = none) : s.expansion? t = none := by
  rw [expansion?, h]

theorem expansion?_argument (h : s.target = some (.argument x)) :
    s.expansion? t = (s.scope.value? x).bind (·.follow? t.children.tail) := by
  rw [expansion?, h]

theorem expansion?_value (h : s.target = some (.value x)) :
    s.expansion? t = if (s.store.read x).isUninit then none else some (s.store.read x) := by
  rw [expansion?, h]

theorem expansion?_application (h : s.target = some (.application m)) : s.expansion? t =
    if Expansion.expand s.store s.registry t = t then none
    else some (Expansion.expand s.store s.registry t) := by
  rw [expansion?, h]

end Setting

def Setting.Expands (s : Setting) (P : Tree → Prop) : Prop :=
  ∀ tag cs e, s.isTarget tag cs → P (.node tag cs) → s.expansion? (.node tag cs) = some e → P e

theorem Setting.expands
    (hargument : ∀ x v, s.target = some (.argument x) → s.scope.value? x = some v → v.Every p)
    (hvalue : ∀ x, s.target = some (.value x) → (s.store.read x).Every p)
    (happlication : ∀ m args e, s.target = some (.application m) → (∀ t ∈ args, t.Every p) →
      Expansion.expandMacro? s.store s.registry m args = some e → e.Every p) :
    s.Expands (Every p) := by
  intro tag cs e hocc ht he
  rcases Option.eq_none_or_eq_some s.target with hs | ⟨g, hs⟩
  · rw [expansion?_none hs] at he
    cases he
  cases g with
  | argument x =>
    rw [expansion?_argument hs] at he
    obtain ⟨v, hv, he⟩ := Option.bind_eq_some_iff.1 he
    exact (hargument x v hs hv).of_follow? he
  | value x =>
    rw [expansion?_value hs] at he
    split at he
    · cases he
    · cases he
      exact hvalue x hs
  | application m =>
    have hexpanded (args : List Tree) (hargs : ∀ t ∈ args, t.Every p) :
        ((Expansion.expandMacro? s.store s.registry m args).getD (.node tag cs)).Every p := by
      cases hm : Expansion.expandMacro? s.store s.registry m args with
      | none => exact ht
      | some e => exact happlication m args e hs hargs hm
    have hexpand : (Expansion.expand s.store s.registry (.node tag cs)).Every p := by
      rw [isTarget, hs] at hocc
      rcases Target.occursAs_application hocc with rfl | ⟨args, rfl, rfl⟩
      · exact hexpanded cs fun c hc => ht.child hc
      · exact hexpanded args fun c hc => ht.child (List.mem_cons_of_mem _ hc)
    rw [expansion?_application hs] at he
    split at he
    · cases he
    · cases he
      exact hexpand

def nodeContract (p : Tag → List Tree → Prop) (c : Prop) : Contract where
  Source t := c → t.Every p
  Outcome v new := c → Excused (Always p) new ∨ v.Every p

theorem Contract.Outcomes.allEvery {vs : List Tree} {new : Array Diagnostic}
    (h : (nodeContract p c).Outcomes vs new) (hc : c) : Excused (Always p) new ∨ AllEvery p vs := by
  induction h with
  | nil => exact .inr .nil
  | cons hv _ ih =>
    rcases hv hc with hexcused | hv
    · exact .inl hexcused.left
    · exact ih.imp Excused.right (AllEvery.cons hv)

theorem nodeContract_steady (hown : ∀ q ∈ ownPrimitives, Always p q) (he : c → s.Expands (Every p)) :
    (nodeContract p c).Steady s where
  atom label _ := .inr (.atom label)
  child ht hc h := (ht h).child hc
  copied {_ q cs} ht hq hc := by
    refine .inr (.node ?_ fun u hu => (ht hc).child hu)
    rcases copiedAs?_eq_some hq with rfl | hsource
    · exact (ht hc).here
    · have hincluded : [Primitive.srcArg, .srcValue, .srcSymbol, .srcHybrid] ⊆ ownPrimitives := by decide
      exact hown q (hincluded hsource) cs
  raw text _ := .inr (.node (hown _ (by decide) _) (AllEvery.cons (.atom text) .nil))
  kept {_ vs _} hq h hc := by
    refine (h.allEvery hc).imp_right fun hvs => .node ?_ hvs
    rcases hq with rfl | rfl
    · exact hown _ (by decide) vs
    · exact hown _ (by decide) vs
  tagged name layout block {vs new} h hc :=
    (h.allEvery hc).imp_right fun hvs => tagView_every hown block hvs
  expands htarget ht hexp hc := he hc _ _ _ htarget (ht hc) hexp
  highlighted h hc := (h hc).imp_right fun hv => .node (hown _ (by decide) _) (AllEvery.cons hv .nil)
  stopped h hc := (h hc).imp_left Excused.left
  expanded h h' hc := by
    rcases h hc with hexcused | hv
    · exact .inl hexcused.left
    · refine (h' hc).imp Excused.right fun he => ?_
      exact .node (hown _ (by decide) _) (AllEvery.cons hv (AllEvery.cons he .nil))
  refused d _ hd _ := by
    cases hd
    -- The error tree has a place among the nodes, or the diagnostic excuses it.
    by_cases herror : Always p Primitive.error
    · exact .inr (.node (herror _) (AllEvery.cons (.atom _) .nil))
    · exact .inl ⟨herror, _, Array.mem_singleton.2 rfl, rfl⟩

theorem view_shows (hown : ∀ q ∈ ownPrimitives, Always p q) (he : c → s.Expands (Every p))
    (ht : c → t.Every p) (layout : Layout) : Shows (Always p) c (Every p) (view s t layout) :=
  Contract.view_gives (nodeContract_steady hown he) t layout ht

theorem view_reports (s : Setting) (t : Tree) (layout : Layout) (ds : Array Diagnostic) :
    ∃ new, ((view s t layout).run ds).2 = ds ++ new := by
  have hshows : Shows (Always fun _ _ => True) False (Every fun _ _ => True) (view s t layout) :=
    view_shows (fun _ _ _ => trivial) False.elim False.elim layout
  obtain ⟨new, hnew, _⟩ := hshows ds
  exact ⟨new, hnew⟩

end SourceView

namespace State

variable {p : Tag → List Tree → Prop} {s : State} {w : World} {mode : InactiveMode} {target : Tree}

theorem expands
    (hp : ∀ m, SourceView.Target.ofTree? target = some (.application m) → Expansion.Stable p)
    (hscope : ∀ x level v, s.scope.lookup? x = some (level, v) → v.Every p)
    (hstore : ∀ g, SourceView.Target.ofTree? target = some g → (s.store.read g.name).Every p)
    (hdefault : ∀ m i v, w.registry.default? m i = some v → v.Every p) :
    (s.sourceView w mode target).Expands (Tree.Every p) := by
  refine SourceView.Setting.expands (fun x v _ hv => ?_) (fun x hg => hstore _ hg)
    fun m args e hg hargs he => ?_
  · obtain ⟨⟨level, u⟩, hu, rfl⟩ := Option.map_eq_some_iff.1 hv
    exact hscope x level u hu
  · exact Expansion.expandMacro?_every (hp m hg) (hstore _ hg) (hdefault m) hargs he

theorem Holds.expands (hs : s.Holds (Tree.Every p)) (hp : Expansion.Stable p)
    (hdefault : ∀ m i v, w.registry.default? m i = some v → v.Every p) :
    (s.sourceView w mode target).Expands (Tree.Every p) :=
  State.expands (fun _ _ => hp) (fun _ _ _ hv => hs.lookup hv) (fun g _ => hs.read (.leaf hp.uninit) g.name) hdefault

end State

end Typesetter

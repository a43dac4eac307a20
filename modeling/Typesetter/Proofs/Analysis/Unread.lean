import Typesetter.Evaluation.Run
import Typesetter.Proofs.Analysis.Soundness
import Typesetter.Proofs.Evaluation.Balance
import Typesetter.Proofs.Evaluation.Position

namespace Typesetter

open Dependency

variable {fuel level : Nat} {t v : Tree} {w : World} {s : State} {n : String} {macros : String → Prop}
  {late : Tree → Prop}

/-- Evaluation comes out the same after the variable has been written: with the same value and the same
reports, or without an outcome for the same reason. -/
inductive Unread (fuel : Nat) (t : Tree) (w : World) (s : State) (n : String) (v : Tree) : Prop
  | halts (h : Halt) : (exec fuel t).run w s = .error h →
      (exec fuel t).run w (s.writeUpdate n v) = .error h → Unread fuel t w s n v
  | ends (value : Tree) (new : Array Diagnostic) (s' s'' : State) :
      (exec fuel t).run w s = .ok (value, s') →
      (exec fuel t).run w (s.writeUpdate n v) = .ok (value, s'') →
      s'.diagnostics = s.diagnostics ++ new →
      s''.diagnostics = (s.writeUpdate n v).diagnostics ++ new → Unread fuel t w s n v

namespace Comparison

variable {C : Comparison} {d : Nat}

theorem twins_write (hd : s.depth = d) (hscope : s.scope = [])
    (hstored : ∀ x v, s.store.get? x = some v → C.Value v)
    (hstore : C.store = s.store) (v : Tree) : C.Twins d s (s.writeUpdate C.name v) := by
  refine ⟨.writeUpdate s C.name v, hd, ?_, fun x _ u hu => hstored x u hu, fun m _ _ => ?_⟩
  · rw [hscope]
    nofun
  · rw [hstore]

theorem unread_of_agree {R : State → State → Prop} {P : Tree → Prop}
    (hR : ∀ s' s'', R s' s'' → s''.diagnostics = s'.diagnostics)
    (h : Agree R P ((exec fuel t).run w s) ((exec fuel t).run w (s.writeUpdate n v))) :
    Unread fuel t w s n v := by
  generalize hr : (exec fuel t).run w s = r at h
  generalize hr' : (exec fuel t).run w (s.writeUpdate n v) = r' at h
  cases h with
  | halted e => exact .halts e hr hr'
  | @ended value s' s'' _ hs =>
    obtain ⟨new, hnew⟩ := (balanced_kept.exec hr).diagnostics
    exact .ends value new s' s'' hr hr' hnew ((hR s' s'' hs).trans hnew)

theorem unread (hC : C.Rooted) (ht : C.Code d t) (h : C.Twins d s (s.writeUpdate C.name v)) :
    Unread fuel t C.world s C.name v :=
  unread_of_agree (fun _ _ h => h.alike.diagnostics) (Accords.exec (eval_accords hC fuel d t ht) _ _ h)

end Comparison

theorem Unread.value_eq {value value' : Tree} {s' s'' : State} (h : Unread fuel t w s n v)
    (hr : (exec fuel t).run w s = .ok (value, s'))
    (hr' : (exec fuel t).run w (s.writeUpdate n v) = .ok (value', s'')) : value = value' := by
  cases h with
  | halts e he _ =>
    rw [hr] at he
    cases he
  | ends u new a b ha hb _ _ =>
    rw [hr] at ha
    rw [hr'] at hb
    cases ha
    cases hb
    rfl

/-! Where no macro is applied -/

namespace Comparison

def unapplied (w : World) (s : State) (n : String) : Comparison :=
  ⟨n, fun _ => False, fun _ => False, s.store, w⟩

variable (w s n)

theorem unapplied_value (v : Tree) : (unapplied w s n).Value v :=
  .of_forall (fun _ _ ⟨_, hm⟩ => hm.elim) v

theorem unapplied_rooted : (unapplied w s n).Rooted where
  binding _ v _ := unapplied_value w s n v
  attachment _ v _ := unapplied_value w s n v
  property _ _ v _ := unapplied_value w s n v
  default _ _ v _ := unapplied_value w s n v
  body _ hm := hm.elim
  code _ _ _ hm := hm.elim
  deferred _ _ hlate := hlate.elim

variable {s n}

theorem unapplied_code {d : Nat} (hdirect : t.Every fun tag _ => Direct tag)
    (hnames : t.Every NamesOnly) (h : depends s.store t n level = false) :
    (unapplied w s n).Code d t :=
  ⟨(hdirect.both hnames).mono fun _ _ hp => plain_of_direct hp.1 hp.2, level,
    fun ⟨_, hm⟩ => hm.elim, h⟩

theorem unapplied_twins (hscope : s.scope = []) (v : Tree) :
    (unapplied w s n).Twins s.depth s (s.writeUpdate n v) :=
  twins_write rfl hscope (fun _ v _ => unapplied_value w s n v) rfl v

end Comparison

theorem exec_unread (hscope : s.scope = []) (hdirect : t.Every fun tag _ => Direct tag)
    (hnames : t.Every NamesOnly) (h : depends s.store t n level = false) (v : Tree) :
    Unread fuel t w s n v :=
  Comparison.unread (Comparison.unapplied_rooted w s n) (Comparison.unapplied_code w hdirect hnames h)
    (Comparison.unapplied_twins w hscope v)

namespace Unread

def sum : Tree := .node Primitive.plus [.node Primitive.value [.atom "x"], .atom "1"]

def two : State := (State.fresh 600 default).write "x" (.atom "2")

def template (body : Tree) : Tree := .node Primitive.provides [.atom "x", body]

def templated : Tree :=
  .node Primitive.quasiquote [template (.node Primitive.unquote [.node Primitive.value [.atom "n"]])]

end Unread

theorem exec_unread_sum : depends Unread.two.store Unread.sum "y" 64 = false ∧
    Unread 9 Unread.sum { base := "" } Unread.two "y" (.atom "5") :=
  have h : depends Unread.two.store Unread.sum "y" 64 = false := by decide
  ⟨h, exec_unread rfl (by decide) (by decide) h _⟩

theorem not_unread_templated : (State.fresh 600 default).scope = [] ∧
    (Unread.templated.Every fun tag _ => Direct tag) ∧
    depends (State.fresh 600 default).store Unread.templated "n" 64 = false ∧
    ¬ Unread 9 Unread.templated { base := "" } (State.fresh 600 default) "n" (.atom "1") := by
  refine ⟨rfl, by decide, by decide, fun h => ?_⟩
  have heq : Unread.template .uninit = Unread.template (.atom "1") := h.value_eq rfl rfl
  cases heq

/-! Where macros are applied -/

/-- Where macros are applied, values put nothing off but such trees. -/
structure Withholds (macros : String → Prop) (late : Tree → Prop) (w : World) (s : State) : Prop where
  stored (x : String) (u : Tree) :
    s.store.get? x = some u → (∃ m, macros m) → u.Every (Tree.Defers late)
  binding (key : String) (u : Tree) :
    w.references.binding? key = some u → (∃ m, macros m) → u.Every (Tree.Defers late)
  attachment (key : String) (u : Tree) :
    w.references.attachment? key = some u → (∃ m, macros m) → u.Every (Tree.Defers late)
  property (tag name : String) (u : Tree) :
    w.registry.property? tag name = some u → (∃ m, macros m) → u.Every (Tree.Defers late)

namespace Withholds

theorem bare (h : s.Holds (Tree.Every (Tree.Defers late))) (base : String) :
    Withholds macros late { base } s where
  stored x u hu _ := h.stored x u hu
  binding key u hu _ := (World.holds_bare base default).binding key u hu
  attachment key u hu _ := (World.holds_bare base default).attachment key u hu
  property tag name u hu _ := (World.holds_bare base default).property tag name u hu

theorem grounds (h : Withholds macros late w s)
    (hdefault : ∀ m i u, w.registry.default? m i = some u → (∃ m, macros m) → u.Every (Tree.Defers late)) :
    (Comparison.mk n macros late s.store w).Grounds where
  binding key u hu := Comparison.value_of (h.binding key u hu)
  attachment key u hu := Comparison.value_of (h.attachment key u hu)
  property tag name u hu := Comparison.value_of (h.property tag name u hu)
  default m i u hu := Comparison.value_of (hdefault m i u hu)

theorem twins (h : Withholds macros late w s) (hscope : s.scope = []) (v : Tree) :
    (Comparison.mk n macros late s.store w).Twins s.depth s (s.writeUpdate n v) :=
  Comparison.twins_write rfl hscope (fun x u hu => Comparison.value_of (h.stored x u hu)) rfl v

end Withholds

/-- Asked about defaults and about what is put off, the analysis says that they do not read the variable. -/
structure Steady (macros : String → Prop) (late : Tree → Prop) (w : World) (s : State) (n : String)
    (level : Nat) : Prop extends Withholds macros late w s where
  default (m : String) (i : Nat) (u : Tree) : w.registry.default? m i = some u → (∃ m, macros m) →
    u.Every (Plain macros late) ∧ depends s.store u n level = false
  body (m : String) : macros m → (s.store.read m).Every (Plain macros late)
  deferred (u : Tree) : late u → (∃ m, macros m) →
    u.Every (Plain macros late) ∧ depends s.store u n level = false

theorem exec_unread_applied (hscope : s.scope = []) (hsteady : Steady macros late w s n level)
    (hlevel : w.settings.maxRecursionDepth ≤ level) (ht : t.Every (Plain macros late))
    (h : depends s.store t n level = false) (v : Tree) : Unread fuel t w s n v := by
  let C : Comparison := ⟨n, macros, late, s.store, w⟩
  have hcode (d : Nat) (u : Tree) (hplain : u.Every (Plain macros late))
      (hreads : depends s.store u n level = false) : C.Code d u :=
    ⟨hplain, level, fun _ => Nat.le_trans hlevel (Nat.le_add_left level d), hreads⟩
  have hgrounds : C.Grounds := hsteady.grounds fun m i u hu hm =>
    (hsteady.default m i u hu hm).1.mono fun _ _ hplain => hplain.defers hm
  have hC : C.Rooted :=
    { hgrounds with
      body := fun m hm _ => hsteady.body m hm
      code := fun m i u hm hu =>
        hcode 0 u (hsteady.default m i u hu ⟨m, hm⟩).1 (hsteady.default m i u hu ⟨m, hm⟩).2
      deferred := fun u hm hu => hcode 0 u (hsteady.deferred u hu hm).1 (hsteady.deferred u hu hm).2 }
  exact C.unread hC (hcode s.depth t ht h) (hsteady.twins hscope v)

namespace Unread

def applied : Tree :=
  .node Primitive.tuple [.node (.user "m") [.node Primitive.delay [.node Primitive.value [.atom "y"]]],
    .node (.user "m") [.node Primitive.value [.atom "z"]]]

def definition : Tree := .node Primitive.macroDef [.atom "x", .node Primitive.arg [.atom "x"]]

def defining : State := (State.fresh 600 default).write "m" definition

def delaying : State := defining.write "z" (.node Primitive.delay [.node Primitive.value [.atom "y"]])

def Late (t : Tree) : Prop := t = .node Primitive.value [.atom "y"]

theorem plain_late {u : Tree} (h : Late u) : u.Every (Plain (· = "m") Late) := by
  rw [h]
  exact .node (fun _ => trivial) (List.forall_mem_singleton.2 (.atom _))

theorem plain_definition : definition.Every (Plain (· = "m") late) :=
  .node (fun _ => trivial) (List.forall_mem_cons.2 ⟨.atom _, List.forall_mem_singleton.2
    (.node (fun _ => trivial) (List.forall_mem_singleton.2 (.atom _)))⟩)

theorem plain_delayed :
    (Tree.node Primitive.delay [.node Primitive.value [.atom "y"]]).Every (Plain (· = "m") Late) :=
  .node (fun _ => List.forall_mem_singleton.2 rfl) (List.forall_mem_singleton.2 (plain_late rfl))

theorem plain_applied : applied.Every (Plain (· = "m") Late) := by
  refine .node (fun _ => trivial) (List.forall_mem_cons.2 ⟨?_, List.forall_mem_singleton.2 ?_⟩)
  · exact .node rfl (List.forall_mem_singleton.2 plain_delayed)
  · exact .node rfl (List.forall_mem_singleton.2
      (.node (fun _ => trivial) (List.forall_mem_singleton.2 (.atom _))))

theorem holds_delaying : delaying.Holds (Tree.Every (Tree.Defers Late)) := by
  have hdefers {t : Tree} (ht : t.Every (Plain (· = "m") Late)) : t.Every (Tree.Defers Late) :=
    ht.mono fun _ _ hplain => hplain.defers ⟨"m", rfl⟩
  exact ((State.holds_fresh 600 default).write "m" (hdefers plain_definition)).write "z" (hdefers plain_delayed)

theorem steady_delaying : Steady (· = "m") Late { base := "" } delaying "n" 64 where
  toWithholds := .bare holds_delaying ""
  default m i u hu := ((World.holds_bare (P := fun _ => False) "" default).default m i u hu).elim
  body m hm := by
    subst hm
    exact plain_definition
  deferred u hu _ := by
    refine ⟨plain_late hu, ?_⟩
    rw [hu]
    rfl

def defaulting : World :=
  { base := "", registry := Registry.setDefault {} "m" 0 (.node Primitive.value [.atom "n"]) }

end Unread

theorem exec_unread_applied_once : depends Unread.delaying.store Unread.applied "n" 64 = false ∧
    Unread 9 Unread.applied { base := "" } Unread.delaying "n" (.atom "1") := by
  have h : depends Unread.delaying.store Unread.applied "n" 64 = false := by rfl
  exact ⟨h, exec_unread_applied rfl Unread.steady_delaying (by decide) Unread.plain_applied h _⟩

theorem not_unread_default : Unread.defining.scope = [] ∧
    Unread.defaulting.settings.maxRecursionDepth ≤ 64 ∧
    depends Unread.defining.store (.node (.user "m") []) "n" 64 = false ∧
    ¬ Unread 9 (.node (.user "m") []) Unread.defaulting Unread.defining "n" (.atom "1") := by
  refine ⟨rfl, by decide, by rfl, fun h => ?_⟩
  have heq : Tree.uninit = .atom "1" := h.value_eq rfl rfl
  cases heq

end Typesetter

import Typesetter.Proofs.Evaluation.Limit
import Typesetter.Proofs.Macro.Expansion
import Typesetter.Proofs.Operation.Fresh
/-!
Logics of evaluation. A logic vouches for computations: where some facts hold at the start, the result is
as said. Values are trees of certain nodes, and what is evaluated is code.
-/

namespace Typesetter

open Execution Evaluation

def State.bound (s : State) (x : String) : Tree := (s.scope.lookup? x).elim (s.store.read x) (·.2)

structure Logic where
  world : World
  Node : Tag → List Tree → Prop
  Code : Nat → Tree → Prop
  Argument : Tree → Prop
  Reads : String → Prop
  Assigns : String → Prop
  Binds : String → Prop
  Measures : Prop
  /-- At some depth, where some facts hold, the result of a computation is as said. -/
  Triple : {α : Type} → Nat → Prop → (α → Prop) → Execution α → Prop
  Accords : {α : Type} → Nat → Prop → (α → Prop) → Evaluation α → Prop

namespace Form

def shown : Form → List Tree
  | quote body => [body]
  | viewInactive t target => [t, target]
  | _ => []

theorem shown_ofPrimitive? {q : Primitive} {cs : List Tree} {f : Form} (h : ofPrimitive? q cs = some f) :
    ∀ u ∈ f.shown, u ∈ cs := by
  -- No form looks at more than three children one by one.
  revert h
  rcases cs with _ | ⟨a, _ | ⟨b, _ | ⟨c, _ | ⟨d, rest⟩⟩⟩⟩ <;> cases q
  all_goals
    intro h
    first
    | (cases Option.some.inj h; exact fun u hu => hu)
    | (cases Option.some.inj h; exact List.forall_mem_nil _)
    | exact absurd h.symm (Option.some_ne_none f)

def root? : Form → Option Primitive
  | quasiquote _ => some .quasiquote
  | compound .. => some .compound
  | assign .. => some .assign
  | withVars .. => some .withVars
  | point _ => some .point
  | _ => none

theorem root?_ofPrimitive? {p q : Primitive} {cs : List Tree} {f : Form}
    (h : ofPrimitive? q cs = some f) (hp : f.root? = some p) : q = p := by
  revert h hp
  rcases cs with _ | ⟨a, _ | ⟨b, _ | ⟨c, _ | ⟨d, rest⟩⟩⟩⟩ <;> cases q
  all_goals
    intro h hp
    first
    | (cases Option.some.inj h; cases hp; rfl)
    | (cases Option.some.inj h; cases hp)
    | exact absurd h.symm (Option.some_ne_none f)

theorem isPrompt_of_rebuilt {q : Primitive} {cs : List Tree} (h : ofPrimitive? q cs = some rebuilt) :
    Tag.IsPrompt q := by
  constructor
  all_goals
    intro hq
    cases hq
    rcases cs with _ | ⟨a, _ | ⟨b, rest⟩⟩ <;> cases h

theorem ofPrimitive?_ne_apply {q : Primitive} {cs : List Tree} {m : String} {args : List Tree} :
    ofPrimitive? q cs ≠ some (apply m args) := by
  intro h
  rcases cs with _ | ⟨a, _ | ⟨b, _ | ⟨c, _ | ⟨d, rest⟩⟩⟩⟩ <;> cases q <;> cases h

end Form

namespace Logic

variable {α β : Type}

abbrev Value (L : Logic) : Tree → Prop := Tree.Every L.Node

abbrev Tags (L : Logic) : Tag → Prop := Tree.Always L.Node

def Ended (Value : Tree → Prop) (P : α → Prop) : Except Fault α → Prop
  | .ok a => P a
  | .error f => ∀ t, f.cause = .propagated t → Value t

def Evaluates (L : Logic) (d : Nat) (c : Prop) (eval : Evaluator) (t : Tree) : Prop :=
  L.Accords d c L.Value (eval t)

def Formed (L : Logic) (d : Nat) (f : Form) : Prop :=
  ∃ p cs, L.Code d (.node (.prim p) cs) ∧ Form.ofPrimitive? p cs = some f

def Permits (L : Logic) : Form → Prop
  | .value x | .arg x _ | .evalArgs x | .provides x => ∀ y, x.MayName y → L.Reads y
  | .assign x _ => ∀ y, x.MayName y → L.Assigns y
  | .withVars bindings _ => ∀ b ∈ bindings, ∀ y, b.1.MayName y → L.Binds y
  | .plus .. | .minus .. | .times .. | .ratio .. | .equality .. | .comparison .. => L.Measures
  | _ => True

structure Applies (L : Logic) (d : Nat) (macroName : String) (definition : Tree) : Prop where
  argument (v : Tree) : L.Value v → L.Argument v
  default (i : Nat) (t : Tree) : L.world.registry.default? macroName i = some t → L.Code d t
  body (b : Tree) : definition.isMacroDef → d < L.world.settings.maxRecursionDepth →
    definition.children.getLast? = some b → L.Code (d + 1) b

def ownPrimitives : List Primitive := [.uninit, .tuple, .quote, .concat]

structure Composes (L : Logic) : Prop where
  returns {α : Type} {d : Nat} {c : Prop} {P : α → Prop} {a : α} : (c → P a) →
    L.Triple d c P (pure a)
  chain {α β : Type} {d : Nat} {c : Prop} {P : α → Prop} {Q : β → Prop} {m : Execution α}
    {f : α → Execution β} : L.Triple d c P m → (∀ a, L.Triple d (c ∧ P a) Q (f a)) →
    L.Triple d c Q (m >>= f)
  mono {α : Type} {d : Nat} {c c' : Prop} {P P' : α → Prop} {m : Execution α} : L.Triple d c P m →
    (c' → c) → (∀ a, c' → P a → P' a) → L.Triple d c' P' m
  halt {α : Type} {d : Nat} {c : Prop} {P : α → Prop} (h : Halt) :
    L.Triple d c P (Execution.halt h)

structure Carries (L : Logic) : Prop where
  ended {α : Type} {d : Nat} {c : Prop} {P : α → Prop} {r : Except Fault α} :
    (c → Ended L.Value P r) → L.Accords d c P (ExceptT.mk (pure r))
  bind {α β : Type} {d : Nat} {c : Prop} {P : α → Prop} {Q : β → Prop} {m : Evaluation α}
    {f : α → Evaluation β} : L.Accords d c P m → (∀ a, L.Accords d (c ∧ P a) Q (f a)) →
    L.Accords d c Q (m >>= f)
  weaken {α : Type} {d : Nat} {c c' : Prop} {P : α → Prop} {m : Evaluation α} : L.Accords d c P m →
    (c' → c) → L.Accords d c' P m
  lift {α : Type} {d : Nat} {c : Prop} {P : α → Prop} {m : Execution α} : L.Triple d c P m →
    L.Accords d c P (liftM m)
  inContext {α : Type} {d : Nat} {c : Prop} {P : α → Prop} {m : Evaluation α} (name : String) :
    L.Accords d c P m → L.Accords d c P (inContext name m)
  absorbing {d : Nat} {c : Prop} {m : Evaluation Tree} : L.Accords d c L.Value m →
    L.Triple d c L.Value (absorbing m)

structure Observes (L : Logic) : Prop where
  /-- Where the settings are looked at, others that allow more must make no difference but at limits. -/
  settings {α : Type} {d : Nat} {c : Prop} {P : α → Prop} {k : Settings → Evaluation α} :
    (∀ c c', c.IsWithin c' → (k c).Within (k c')) →
    (∀ settings, L.Accords d (c ∧ settings = L.world.settings) P (k settings)) →
    L.Accords d c P (liftM Execution.settings >>= k)
  world {α : Type} {d : Nat} {c : Prop} {P : α → Prop} {k : World → Execution α} :
    (∀ w settings, k { w with settings } = k w) → (∀ w, L.Triple d (c ∧ w = L.world) P (k w)) →
    L.Triple d c P (read >>= k)
  reading {α : Type} {d : Nat} {c : Prop} {P : α → Prop} {k : World → Evaluation α} :
    (∀ w settings, k { w with settings } = k w) → (∀ w, L.Accords d (c ∧ w = L.world) P (k w)) →
    L.Accords d c P (read >>= k)
  depth {d : Nat} {c : Prop} : L.Triple d c (· = d) depth
  units {d : Nat} {c : Prop} : (c → L.Measures) → L.Triple d c (fun _ => True) units
  readVariable {d : Nat} {c : Prop} {x : String} : (c → L.Reads x) →
    L.Triple d c L.Value (readVariable x)
  providesVariable {d : Nat} {c : Prop} {x : String} : (c → L.Reads x) →
    L.Triple d c (fun _ => True) (providesVariable x)
  lookupArgument {d : Nat} {c : Prop} (x : String) :
    L.Triple d c (fun r => ∀ level v, r = some (level, v) → L.Argument v) (lookupArgument? x)
  consult {α : Type} {d : Nat} {c : Prop} (question : FileSystem → String → Option α) (path : String) :
    L.Triple d c (fun r => question L.world.files path = some r) (consult question path)

structure Changes (L : Logic) : Prop where
  report {d : Nat} {c : Prop} (r : Diagnostic) : L.Triple d c (fun _ => True) (report r)
  assigning {d : Nat} {c : Prop} {x : String} {v : Tree} : (c → L.Assigns x) → (c → L.Value v) →
    L.Triple d c (fun _ => True) (Execution.assign x v)
  binding {α : Type} {d : Nat} {c : Prop} {P : α → Prop} {x : String} {v : Tree} {m : Evaluation α} :
    (c → L.Binds x) → (c → L.Value v) → L.Accords d c P m → L.Accords d c P (binding x v m)
  withFrame {α : Type} {d : Nat} {c : Prop} {P : α → Prop} {f : ArgumentFrame} {m : Evaluation α} :
    (c → f.Holds L.Argument) → L.Accords (d + 1) c P m → L.Accords d c P (withFrame f m)
  below {α : Type} {d level : Nat} {c : Prop} {P : α → Prop} {m : Evaluation α} :
    (c → ∃ v, L.Argument v ∧ v.isDelayed ∧ v.children ≠ []) → L.Accords d c P m →
    L.Accords d c P (below level m)
  deeper {α : Type} {d : Nat} {c : Prop} {P : α → Prop} {m : Evaluation α} :
    L.Accords (d + 1) c P m → L.Accords d c P (deeper m)

structure Closed (L : Logic) : Prop where
  own : ∀ p ∈ ownPrimitives, L.Tags p
  fewer (tag : Tag) (cs ds : List Tree) : L.Node tag cs → ds ⊆ cs → L.Node tag ds
  tag {d : Nat} {tag : Tag} {cs : List Tree} : L.Code d (.node tag cs) → tag.IsPrompt →
    (tag.isUser → L.world.settings.strict = false) → L.Tags tag
  itself {d : Nat} {q : Primitive} {cs : List Tree} : L.Code d (.node q cs) → L.Value (.node q cs)
  part {d : Nat} {tag : Tag} {cs : List Tree} {t : Tree} : L.Code d (.node tag cs) → t ∈ cs →
    L.Code d t ∧ L.Value t
  permits {d : Nat} {f : Form} : L.Formed d f → L.Permits f
  computed {d : Nat} {head : Tree} {args : List Tree} : L.Formed d (.compound head args) →
    (∀ s, L.Code d (.node (Tag.ofName s) args)) ∧
      ∀ v, L.Value v → L.Applies d Primitive.compound.name v
  included {d : Nat} {x t : Tree} {path text : String} : L.Formed d (.includeFile x) →
    L.world.files.text path = some (.ok text) → Tree.read text = .ok t → L.Code (d + 1) t
  argument {v : Tree} : L.Argument v → L.Value v
  delayed {d : Nat} {v b : Tree} : L.Argument v → v.isDelayed → b ∈ v.children → L.Code d b
  template {cs : List Tree} {b : Tree} : L.Value (.node Primitive.quasiquote cs) → b ∈ cs →
    b.Template L.Tags
  reference {key : String} {v : Tree} : L.world.references.binding? key = some v → L.Value v
  attachment {key : String} {v : Tree} : L.world.references.attachment? key = some v → L.Value v
  property {tag name : String} {v : Tree} : L.world.registry.property? tag name = some v → L.Value v

def boundTo (x : String) : Execution Tree := return (← get).bound x

structure Lawful (L : Logic) : Prop extends L.Composes, L.Carries, L.Observes, L.Changes, L.Closed where
  rerun {d : Nat} {c : Prop} {x : Tree} {y : String} : (c → L.Formed d (.evalArgs x)) →
    (c → x.MayName y) → L.Triple d c
      (fun v => (∀ tag cs, v = .node tag cs → L.Tags tag) ∧ ∀ b ∈ v.children, L.Code d b) (boundTo y)
  viewInactive {d : Nat} {c : Prop} {t target : Tree} : (c → L.Formed d (.viewInactive t target)) →
    L.Accords d c L.Value (Rule.viewInactive t target)
  application {d : Nat} {c : Prop} {m : String} {args : List Tree} :
    (c → L.Code d (.node (.user m) args)) → L.Triple d c (L.Applies d m) (Execution.readVariable m)

namespace Lawful

variable {L : Logic} {d : Nat} {c c' : Prop} {P P' : α → Prop} {Q : β → Prop}

theorem success (hL : L.Lawful) {a : α} (ha : c → P a) : L.Accords d c P (pure a) :=
  hL.ended (r := .ok a) ha

theorem fault (hL : L.Lawful) {e : Cause} (he : c → ∀ t, e = .propagated t → L.Value t) :
    L.Accords d c P (Evaluation.fault e) :=
  hL.ended (r := .error ⟨e, none⟩) he

theorem refuse (hL : L.Lawful) {e : Cause} (he : Fault.isPropagated ⟨e, none⟩ = false) :
    L.Accords d c P (Evaluation.fault e) := by
  refine hL.fault fun _ t ht => ?_
  rw [ht] at he
  cases he

theorem ofResult (hL : L.Lawful) {e : Except Fault α} (he : Fresh e) (h : ∀ a, c → e = .ok a → P a) :
    L.Accords d c P (Evaluation.ofResult e) := by
  cases e with
  | ok a => exact hL.success fun hc => h a hc rfl
  | error f =>
    refine hL.ended (r := .error f) fun _ t ht => ?_
    have hf := he f rfl
    rw [Fault.isPropagated, ht] at hf
    cases hf

theorem each (hL : L.Lawful) {γ : Type} {m : γ → Evaluation α} (l : List γ)
    (h : ∀ x ∈ l, L.Accords d c P (m x)) : L.Accords d c (fun as => ∀ a ∈ as, P a) (l.mapM m) := by
  induction l with
  | nil => simpa only [List.mapM_nil] using! hL.success fun _ => List.forall_mem_nil _
  | cons x l ih =>
    simp only [List.mapM_cons]
    refine hL.bind (h x List.mem_cons_self) fun a => ?_
    refine hL.bind (hL.weaken (ih fun y hy => h y (List.mem_cons_of_mem x hy)) And.left) fun as => ?_
    exact hL.success fun h => List.forall_mem_cons.2 ⟨h.1.2, h.2⟩

theorem discard (hL : L.Lawful) {m : Evaluation α} (hm : L.Accords d c P m) :
    L.Accords d c (fun _ => True) (Functor.discard m) := by
  have h : L.Accords d c (fun _ => True) (m >>= fun _ => pure PUnit.unit) :=
    hL.bind hm fun _ => hL.success fun _ => trivial
  simpa only [Functor.discard, LawfulFunctor.map_const, Function.comp_apply, map_eq_pure_bind,
    Function.const_apply] using h

theorem uninit (hL : L.Lawful) : L.Value .uninit := .leaf (hL.own _ (by decide) _)

end Lawful

structure Plain (L : Logic) : Prop extends L.Composes where
  accords {α : Type} {d : Nat} {c : Prop} {P : α → Prop} {m : Evaluation α} :
    L.Accords d c P m ↔ L.Triple d c (Ended L.Value P) m.run
  looks {d : Nat} {c : Prop} : L.Triple d c (· = L.world) read
  absorb {d : Nat} {c : Prop} {f : Fault} : (c → ∀ t, f.cause = .propagated t → L.Value t) →
    L.Triple d c (fun _ => L.Value f.toTree) (modify (·.absorb f))

namespace Plain

variable {L : Logic} {d : Nat} {c : Prop} {P : α → Prop}

theorem carries (hL : L.Plain) : L.Carries where
  ended h := hL.accords.2 (hL.returns h)
  bind {_ β _ _ _ _ _ f} hm hf := by
    refine hL.accords.2 (hL.chain (f := ExceptT.bindCont f) (hL.accords.1 hm) fun r => ?_)
    cases r with
    | ok a => exact hL.accords.1 (hf a)
    | error e => exact hL.returns (a := (Except.error e : Except Fault β)) fun h => h.2
  weaken hm h := hL.accords.2 (hL.mono (hL.accords.1 hm) h fun _ _ => id)
  lift {α d c P m} hm := by
    refine hL.accords.2 ?_
    rw [run_lift]
    exact hL.chain hm fun a => hL.returns fun h => h.2
  inContext {_ d c P m} name hm := by
    refine hL.accords.2 ?_
    rw [run_inContext]
    refine hL.chain (hL.accords.1 hm) fun r => hL.returns fun h => ?_
    cases r with
    | ok a => exact h.2
    | error e => exact h.2
  absorbing hm := by
    refine hL.chain (hL.accords.1 hm) fun r => ?_
    cases r with
    | ok v => exact hL.returns fun h => h.2
    | error f => exact hL.chain (hL.absorb fun h => h.2) fun _ => hL.returns fun h => h.2

theorem settings (hL : L.Plain) {k : Settings → Evaluation α}
    (h : ∀ settings, L.Accords d (c ∧ settings = L.world.settings) P (k settings)) :
    L.Accords d c P (liftM Execution.settings >>= k) := by
  refine hL.accords.2 (hL.chain (f := fun w => (k w.settings).run) hL.looks fun w => ?_)
  refine hL.mono (hL.accords.1 (h w.settings)) (fun hc => ?_) fun _ _ => id
  exact ⟨hc.1, congrArg World.settings hc.2⟩

theorem reading (hL : L.Plain) {k : World → Evaluation α}
    (h : ∀ w, L.Accords d (c ∧ w = L.world) P (k w)) : L.Accords d c P (read >>= k) :=
  hL.accords.2 (hL.chain (f := fun w => (k w).run) hL.looks fun w => hL.accords.1 (h w))

end Plain

end Logic

end Typesetter

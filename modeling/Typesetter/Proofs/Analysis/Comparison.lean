import Typesetter.Proofs.Derived.Alike
import Typesetter.Proofs.Evaluation.Preservation
import Typesetter.Proofs.Logic.Basic
/-!
Two runs from states that are alike but for one variable. Computations match if they end alike in both
runs, with states that are alike again. Where macros may be applied, what values put off is evaluated
later, and so it is known beforehand.
-/

namespace Typesetter

open Execution Evaluation

namespace Tree

/-- Only these trees are put off, and nothing is in templates. -/
def Defers (late : Tree → Prop) : Tag → List Tree → Prop
  | .prim .delay, cs => ∀ c ∈ cs, late c
  | .prim .quasiquote, cs => ∀ c ∈ cs, late c ∧ c.Template Tag.IsPrompt
  | _, _ => True

namespace Defers

variable {late : Tree → Prop} {tag : Tag} {cs ds : List Tree} {v b : Tree}

theorem of_isPrompt (h : tag.IsPrompt) (cs : List Tree) : Defers late tag cs := by
  unfold Defers
  split
  · exact absurd rfl h.1
  · exact absurd rfl h.2
  · trivial

theorem fewer (h : Defers late tag cs) (hds : ds ⊆ cs) : Defers late tag ds := by
  unfold Defers at h ⊢
  split
  · exact fun d hd => h d (hds hd)
  · exact fun d hd => h d (hds hd)
  · trivial

theorem delayed (h : v.Every (Defers late)) (hv : v.isDelayed) (hb : b ∈ v.children) : late b := by
  cases v with
  | atom s => cases hb
  | node tag cs =>
    have hhere : Defers late tag cs := h.here
    rcases tag_of_isDelayed hv with rfl | rfl
    · exact hhere b hb
    · exact (hhere b hb).1

theorem stable (hlate : ∀ t, ¬ late t) : Expansion.Stable (Defers late) where
  uninit := trivial
  tuple _ := trivial
  substituted frame {tag cs} h := by
    unfold Defers at h ⊢
    split
    · cases cs with
      | nil => exact List.forall_mem_nil _
      | cons c cs => exact (hlate c (h c List.mem_cons_self)).elim
    · cases cs with
      | nil => exact List.forall_mem_nil _
      | cons c cs => exact (hlate c (h c List.mem_cons_self).1).elim
    · trivial

end Defers

end Tree

namespace State

/-- Updates are not compared: they tell what the variable held. -/
structure AlikeBut (n : String) (s s' : State) : Prop where
  stored (x : String) : x ≠ n → s'.store.get? x = s.store.get? x
  derived : s.derived.AlikeBut n s'.derived
  scope : s'.scope = s.scope
  depth : s'.depth = s.depth
  diagnostics : s'.diagnostics = s.diagnostics

namespace AlikeBut

variable {n x : String} {s s' s'' : State} {store store' : Store}

theorem refl (n : String) (s : State) : AlikeBut n s s :=
  ⟨fun _ _ => rfl, .refl n s.derived, rfl, rfl, rfl⟩

theorem symm (h : AlikeBut n s s') : AlikeBut n s' s :=
  ⟨fun x hx => (h.stored x hx).symm, h.derived.symm, h.scope.symm, h.depth.symm, h.diagnostics.symm⟩

theorem trans (h : AlikeBut n s s') (h' : AlikeBut n s' s'') : AlikeBut n s s'' :=
  ⟨fun x hx => (h'.stored x hx).trans (h.stored x hx), h.derived.trans h'.derived,
    h'.scope.trans h.scope, h'.depth.trans h.depth, h'.diagnostics.trans h.diagnostics⟩

theorem read (h : AlikeBut n s s') (hx : x ≠ n) : s'.store.read x = s.store.read x := by
  simp only [Store.read, h.stored x hx]

theorem provides (h : AlikeBut n s s') (hx : x ≠ n) : s'.store.provides x = s.store.provides x := by
  simp only [Store.provides, Std.TreeMap.contains_eq_isSome_getElem?]
  exact congrArg Option.isSome (h.stored x hx)

theorem report (h : AlikeBut n s s') (d : Diagnostic) : AlikeBut n (s.report d) (s'.report d) :=
  ⟨h.stored, h.derived, h.scope, h.depth, congrArg (·.push d) h.diagnostics⟩

theorem absorb (h : AlikeBut n s s') (f : Fault) : AlikeBut n (s.absorb f) (s'.absorb f) := by
  simp only [State.absorb]
  cases f.diagnostic? with
  | none => exact h
  | some d => exact h.report d

theorem update (h : AlikeBut n s s') (hs : ∀ y, y ≠ n → store'.get? y = store.get? y) (x : String) :
    AlikeBut n (State.update { s with store } x) (State.update { s' with store := store' } x) := by
  refine ⟨hs, h.derived.update (fun m hm => ?_) x, h.scope, h.depth, h.diagnostics⟩
  simp only [Store.read, hs m hm]

theorem touch (hs : ∀ y, y ≠ n → store.get? y = s.store.get? y) :
    AlikeBut n s (State.update { s with store } n) :=
  ⟨hs, .touch n s.derived _, rfl, rfl, rfl⟩

theorem writeUpdate (s : State) (n : String) (v : Tree) : AlikeBut n s (s.writeUpdate n v) :=
  touch fun y hy => by simp [Ne.symm hy]

theorem write (h : AlikeBut n s s') (x : String) (v : Tree) :
    AlikeBut n (s.writeLoggedUpdate x v) (s'.writeLoggedUpdate x v) := by
  refine h.update (fun y hy => ?_) x
  by_cases hx : x = y
  · simp [hx]
  · simp [hx, h.stored y hy]

theorem putBack (h : AlikeBut n s s') {old old' : Option Tree} (ho : x ≠ n → old' = old) :
    AlikeBut n (s.putBack x old) (s'.putBack x old') := by
  refine h.update (fun y hy => ?_) x
  by_cases hx : x = y
  · subst hx
    simp [ho hy]
  · simp [hx, h.stored y hy]

theorem assign (h : AlikeBut n s s') (x : String) (v : Tree) :
    AlikeBut n (s.assign x v) (s'.assign x v) := by
  by_cases hx : x = n
  · subst hx
    have hself (s : State) : AlikeBut x s (s.assign x v) := by
      simp only [State.assign]
      split
      · exact .refl x s
      · exact touch fun y hy => by simp [Ne.symm hy]
    exact (hself s).symm.trans (h.trans (hself s'))
  · simp only [State.assign, h.stored x hx]
    split
    · exact h
    · exact h.write x v

end AlikeBut

end State

structure Comparison where
  name : String
  macros : String → Prop
  late : Tree → Prop
  store : Store
  world : World

namespace Comparison

variable {C : Comparison} {d e : Nat} {s s' t t' : State} {α β : Type}

def Node (C : Comparison) (tag : Tag) (cs : List Tree) : Prop :=
  (∃ m, C.macros m) → Tree.Defers C.late tag cs

abbrev Value (C : Comparison) : Tree → Prop := Tree.Every C.Node

def Argument (C : Comparison) (v : Tree) : Prop := (∃ m, C.macros m) ∧ C.Value v

theorem always_node {tag : Tag} (h : tag.IsPrompt) : Tree.Always C.Node tag :=
  fun cs _ => .of_isPrompt h cs

theorem value_of {t : Tree} (h : (∃ m, C.macros m) → t.Every (Tree.Defers C.late)) : C.Value t := by
  by_cases hm : ∃ m, C.macros m
  · exact (h hm).mono fun _ _ hdefers _ => hdefers
  · exact .of_forall (fun _ _ hm' => absurd hm' hm) t

theorem every_defers {t : Tree} (h : C.Value t) (hm : ∃ m, C.macros m) : t.Every (Tree.Defers C.late) :=
  h.mono fun _ _ hnode => hnode hm

structure Fits (C : Comparison) (d : Nat) (s : State) : Prop where
  depth : s.depth = d
  scope : ∀ f ∈ s.scope, f.Holds C.Argument
  stored (x : String) : x ≠ C.name → ∀ v, s.store.get? x = some v → C.Value v
  defined (m : String) : C.macros m → m ≠ C.name → s.store.read m = C.store.read m

theorem Fits.update (h : C.Fits d s) {store : Store} {x : String}
    (hold : ∀ y, y ≠ x → store.get? y = s.store.get? y) (hx : ¬ C.macros x)
    (hv : x ≠ C.name → ∀ v, store.get? x = some v → C.Value v) :
    C.Fits d (State.update { s with store } x) := by
  refine ⟨h.depth, h.scope, fun y hy v hget => ?_, fun m hm hn => ?_⟩
  · by_cases hyx : y = x
    · subst hyx
      exact hv hy v hget
    · exact h.stored y hy v ((hold y hyx).symm.trans hget)
  · have hmx : m ≠ x := by
      rintro rfl
      exact hx hm
    have hread : store.read m = s.store.read m := by simp only [Store.read, hold m hmx]
    exact hread.trans (h.defined m hm hn)

structure Twins (C : Comparison) (d : Nat) (s s' : State) : Prop where
  alike : s.AlikeBut C.name s'
  fits : C.Fits d s

namespace Twins

variable {x : String} {v : Tree}

theorem value_read (h : C.Twins d s s') (hx : x ≠ C.name) : C.Value (s.store.read x) :=
  Store.read_of (.leaf (always_node (by decide) _)) (h.fits.stored x hx)

theorem lookup (h : C.Twins d s s') {level : Nat} (hv : s.scope.lookup? x = some (level, v)) :
    C.Argument v :=
  Scope.lookup?_of h.fits.scope hv

theorem report (h : C.Twins d s s') (r : Diagnostic) : C.Twins d (s.report r) (s'.report r) :=
  ⟨h.alike.report r, h.fits.depth, h.fits.scope, h.fits.stored, h.fits.defined⟩

theorem absorb (h : C.Twins d s s') (f : Fault) : C.Twins d (s.absorb f) (s'.absorb f) := by
  refine ⟨h.alike.absorb f, ?_⟩
  simp only [State.absorb]
  cases f.diagnostic? with
  | none => exact h.fits
  | some r => exact (h.report r).fits

theorem write (h : C.Twins d s s') (hx : ¬ C.macros x) (hv : C.Value v) :
    C.Twins d (s.writeLoggedUpdate x v) (s'.writeLoggedUpdate x v) := by
  refine ⟨h.alike.write x v, h.fits.update (fun y hy => by simp [Ne.symm hy]) hx fun _ u hu => ?_⟩
  simp only [Store.get?_writeLogged, if_true, Option.some.injEq] at hu
  exact hu ▸ hv

theorem assign (h : C.Twins d s s') (hx : ¬ C.macros x) (hv : C.Value v) :
    C.Twins d (s.assign x v) (s'.assign x v) := by
  refine ⟨h.alike.assign x v, ?_⟩
  unfold State.assign
  split
  · exact h.fits
  · exact (h.write hx hv).fits

theorem putBack (h : C.Twins d s s') (h' : C.Twins d t t') (hx : ¬ C.macros x) :
    C.Twins d (t.putBack x (s.store.get? x)) (t'.putBack x (s'.store.get? x)) := by
  refine ⟨h'.alike.putBack (h.alike.stored x), ?_⟩
  refine h'.fits.update (fun y hy => by simp [Ne.symm hy]) hx fun hn u hu => ?_
  simp only [Store.get?_put, if_true] at hu
  exact h.fits.stored x hn u hu

theorem enter (h : C.Twins d s s') {f : ArgumentFrame} (hf : f.Holds C.Argument) :
    C.Twins (d + 1) (s.enter f) (s'.enter f) := by
  have ha := h.alike
  refine ⟨⟨ha.stored, ha.derived, congrArg (f :: ·) ha.scope, congrArg (· + 1) ha.depth,
    ha.diagnostics⟩, congrArg (· + 1) h.fits.depth, fun g hg => ?_, h.fits.stored, h.fits.defined⟩
  rcases List.mem_cons.1 hg with rfl | hg
  · exact hf
  · exact h.fits.scope g hg

theorem suspend (h : C.Twins d s s') (level : Nat) : C.Twins d (s.suspend level) (s'.suspend level) := by
  have ha := h.alike
  exact ⟨⟨ha.stored, ha.derived, congrArg (·.below level) ha.scope, ha.depth, ha.diagnostics⟩, h.fits.depth,
    fun f hf => h.fits.scope f (List.mem_of_mem_drop hf), h.fits.stored, h.fits.defined⟩

theorem resume (h : C.Twins d s s') (h' : C.Twins d t t') (level : Nat) :
    C.Twins d (t.resume (s.scope.above level)) (t'.resume (s'.scope.above level)) := by
  have ha := h'.alike
  refine ⟨⟨ha.stored, ha.derived, ?_, ha.depth, ha.diagnostics⟩, h'.fits.depth, ?_, h'.fits.stored,
    h'.fits.defined⟩
  · simp only [State.resume, h.alike.scope, ha.scope]
  · exact List.forall_mem_append.2 ⟨fun f hf => h.fits.scope f (List.mem_of_mem_take hf), h'.fits.scope⟩

theorem descend (h : C.Twins d s s') : C.Twins (d + 1) s.descend s'.descend := by
  have ha := h.alike
  exact ⟨⟨ha.stored, ha.derived, ha.scope, congrArg (· + 1) ha.depth, ha.diagnostics⟩,
    congrArg (· + 1) h.fits.depth, h.fits.scope, h.fits.stored, h.fits.defined⟩

theorem ascend (h : C.Twins (d + 1) s s') : C.Twins d s.ascend s'.ascend := by
  have ha := h.alike
  exact ⟨⟨ha.stored, ha.derived, ha.scope, congrArg (· - 1) ha.depth, ha.diagnostics⟩,
    congrArg (· - 1) h.fits.depth, h.fits.scope, h.fits.stored, h.fits.defined⟩

theorem leave (h : C.Twins (d + 1) s s') : C.Twins d s.leave s'.leave := by
  have ha := h.alike
  exact ⟨⟨ha.stored, ha.derived, congrArg List.tail ha.scope, congrArg (· - 1) ha.depth,
    ha.diagnostics⟩, congrArg (· - 1) h.fits.depth,
    fun g hg => h.fits.scope g (List.mem_of_mem_tail hg), h.fits.stored, h.fits.defined⟩

end Twins

inductive Agree (R : State → State → Prop) (P : α → Prop) :
    Except Halt (α × State) → Except Halt (α × State) → Prop
  | halted (h : Halt) : Agree R P (.error h) (.error h)
  | ended {a : α} {s s' : State} : P a → R s s' → Agree R P (.ok (a, s)) (.ok (a, s'))

def Parallel (w : World) (R : State → State → Prop) (P : α → Prop) (m : Execution α) : Prop :=
  ∀ s s', R s s' → Agree R P (m w s) (m w s')

def Matches (C : Comparison) (d : Nat) (P : α → Prop) (m : Execution α) : Prop :=
  ∀ s s', C.Twins d s s' → Agree (C.Twins d) P (m C.world s) (m C.world s')

def Accords (C : Comparison) (d : Nat) (P : α → Prop) (m : Evaluation α) : Prop :=
  C.Matches d (Logic.Ended C.Value P) m.run

def Evaluates (C : Comparison) (d : Nat) (eval : Evaluator) (t : Tree) : Prop :=
  C.Accords d C.Value (eval t)

variable {P P' : α → Prop} {Q : β → Prop}

namespace Parallel

variable {w : World} {R R' : State → State → Prop} {m : Execution α} {f : α → Execution β}

theorem pure {a : α} (ha : P a) : Parallel w R P (pure a) := fun _ _ h => .ended ha h

theorem halt (h : Halt) : Parallel w R P (Execution.halt h) := fun _ _ _ => .halted h

theorem bind (hm : Parallel w R P m) (hf : ∀ a, P a → Parallel w R Q (f a)) :
    Parallel w R Q (m >>= f) := by
  intro s s' h
  have hfirst := hm s s' h
  rw [bind_apply, bind_apply]
  generalize m w s = r at hfirst
  generalize m w s' = r' at hfirst
  cases hfirst with
  | halted e => exact .halted e
  | ended ha ht => exact hf _ ha _ _ ht

theorem mono (hm : Parallel w R P m) (h : ∀ a, P a → P' a) : Parallel w R P' m := by
  intro s s' hs
  have hrun := hm s s' hs
  generalize m w s = r at hrun
  generalize m w s' = r' at hrun
  cases hrun with
  | halted e => exact .halted e
  | ended ha ht => exact .ended (h _ ha) ht

theorem observe {g : State → α} (hm : ∀ s, m w s = .ok (g s, s))
    (hg : ∀ s s', R s s' → P (g s) ∧ g s' = g s) : Parallel w R P m := by
  intro s s' h
  obtain ⟨ha, he⟩ := hg s s' h
  rw [hm s, hm s', he]
  exact .ended ha h

theorem change {m : Execution Unit} {g : State → State} (hm : ∀ s, m w s = .ok ((), g s))
    (hg : ∀ s s', R s s' → R (g s) (g s')) : Parallel w R (fun _ => True) m := by
  intro s s' h
  rw [hm s, hm s']
  exact .ended trivial (hg s s' h)

theorem bracket {n : Execution α} (before : State → State) (after : State → State → State)
    (hn : ∀ s, n w s = (m w (before s)).map fun r => (r.1, after s r.2))
    (hb : ∀ s s', R s s' → R' (before s) (before s'))
    (ha : ∀ s s' t t', R s s' → R' t t' → R (after s t) (after s' t'))
    (hm : Parallel w R' P m) : Parallel w R P n := by
  intro s s' h
  have hrun := hm _ _ (hb s s' h)
  rw [hn s, hn s']
  generalize m w (before s) = r at hrun
  generalize m w (before s') = r' at hrun
  cases hrun with
  | halted e => exact .halted e
  | ended hp ht => exact .ended hp (ha s s' _ _ h ht)

end Parallel

namespace Matches

variable {m : Execution α} {f : α → Execution β}

theorem pure {a : α} (ha : P a) : C.Matches d P (pure a) := Parallel.pure ha

theorem halt (h : Halt) : C.Matches d P (Execution.halt h) := Parallel.halt h

theorem bind (hm : C.Matches d P m) (hf : ∀ a, P a → C.Matches d Q (f a)) :
    C.Matches d Q (m >>= f) :=
  Parallel.bind hm hf

theorem mono (hm : C.Matches d P m) (h : ∀ a, P a → P' a) : C.Matches d P' m := Parallel.mono hm h

theorem observe {g : State → α} (hm : ∀ s, m C.world s = .ok (g s, s))
    (hg : ∀ s s', C.Twins d s s' → P (g s) ∧ g s' = g s) : C.Matches d P m :=
  Parallel.observe hm hg

theorem change {m : Execution Unit} {g : State → State} (hm : ∀ s, m C.world s = .ok ((), g s))
    (hg : ∀ s s', C.Twins d s s' → C.Twins d (g s) (g s')) : C.Matches d (fun _ => True) m :=
  Parallel.change hm hg

theorem bracket {n : Execution α} (before : State → State) (after : State → State → State)
    (hn : ∀ s, n C.world s = (m C.world (before s)).map fun r => (r.1, after s r.2))
    (hb : ∀ s s', C.Twins d s s' → C.Twins e (before s) (before s'))
    (ha : ∀ s s' t t', C.Twins d s s' → C.Twins e t t' → C.Twins d (after s t) (after s' t'))
    (hm : C.Matches e P m) : C.Matches d P n :=
  Parallel.bracket before after hn hb ha hm

theorem discard (hm : C.Matches d P m) : C.Matches d (fun _ => True) (Functor.discard m) := by
  have h : C.Matches d (fun _ => True) (m >>= fun _ => Pure.pure PUnit.unit) :=
    bind hm fun _ _ => pure trivial
  simpa only [Functor.discard, Functor.mapConst, map_eq_pure_bind] using! h

theorem readVariable {x : String} (hx : x ≠ C.name) : C.Matches d C.Value (readVariable x) :=
  observe (g := fun s => s.store.read x) (fun _ => rfl) fun _ _ h => ⟨h.value_read hx, h.alike.read hx⟩

theorem providesVariable {x : String} (hx : x ≠ C.name) :
    C.Matches d (fun _ => True) (providesVariable x) :=
  observe (g := fun s => s.store.provides x) (fun _ => rfl) fun _ _ h => ⟨trivial, h.alike.provides hx⟩

theorem lookupArgument (x : String) :
    C.Matches d (fun r => ∀ level v, r = some (level, v) → C.Argument v) (lookupArgument? x) := by
  refine observe (g := fun s => s.scope.lookup? x) (fun _ => rfl) fun s s' h => ⟨?_, ?_⟩
  · exact fun level v hv => h.lookup hv
  · rw [h.alike.scope]

theorem units (hn : ¬ Dependency.isUnitVariable C.name) : C.Matches d (fun _ => True) units :=
  observe (g := fun s => s.derived.units) (fun _ => rfl) fun _ _ h =>
    ⟨trivial, h.alike.derived.units hn⟩

theorem world : C.Matches d (· = C.world) read :=
  observe (g := fun _ => C.world) (fun _ => rfl) fun _ _ _ => ⟨rfl, rfl⟩

theorem consult (question : FileSystem → String → Option α) (path : String) :
    C.Matches d (fun r => question C.world.files path = some r) (consult question path) := by
  intro s s' h
  rw [consult_apply, consult_apply]
  cases hfile : question C.world.files path with
  | none => exact .halted _
  | some answer => exact .ended rfl h

theorem report (r : Diagnostic) : C.Matches d (fun _ => True) (report r) :=
  change (g := fun s => s.report r) (fun _ => rfl) fun _ _ h => h.report r

theorem assign {x : String} {v : Tree} (hx : ¬ C.macros x) (hv : C.Value v) :
    C.Matches d (fun _ => True) (Execution.assign x v) :=
  change (g := fun s => s.assign x v) (fun _ => rfl) fun _ _ h => h.assign hx hv

theorem write {x : String} {v : Tree} (hx : ¬ C.macros x) (hv : C.Value v) :
    C.Matches d (fun _ => True) (modify (·.writeLoggedUpdate x v)) :=
  change (g := fun s => s.writeLoggedUpdate x v) (fun _ => rfl) fun _ _ h => h.write hx hv

theorem absorb {f : Fault} (h : ∀ t, f.cause = .propagated t → C.Value t) :
    C.Matches d (fun _ => C.Value f.toTree) (modify (·.absorb f)) := by
  have hchange : C.Matches d (fun _ => True) (modify (·.absorb f)) :=
    change (g := fun s => s.absorb f) (fun _ => rfl) fun _ _ h => h.absorb f
  refine hchange.mono fun _ _ => ?_
  by_cases hp : ∃ t, f.cause = .propagated t
  · obtain ⟨t, ht⟩ := hp
    rw [Fault.toTree_propagated ht]
    exact h t ht
  · rw [Fault.toTree_fresh fun t ht => hp ⟨t, ht⟩]
    exact .node (always_node (by decide) _) (List.forall_mem_singleton.2 (.atom _))

theorem absorbing {m : Evaluation Tree} (hm : C.Accords d C.Value m) :
    C.Matches d C.Value (absorbing m) := by
  refine bind hm fun r hr => ?_
  cases r with
  | ok v => exact pure hr
  | error f => exact bind (absorb hr) fun _ hv => pure hv

end Matches

theorem Accords.exec {eval : Evaluator} {t : Tree} (h : C.Evaluates d eval t) :
    C.Matches d C.Value (Rule.exec eval t) :=
  .absorbing h

end Comparison

end Typesetter

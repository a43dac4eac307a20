import Typesetter.Evaluation.Position
import Typesetter.Proofs.Evaluation.Preservation

namespace Typesetter

open Execution

variable {ι α β : Type} {eval unguarded : ι → Evaluator} {Calls : Place → Tree → Prop} {p : Place}

namespace Routine

theorem observe {o : Execution α} {g : World → State → α} {f : ι → α → Execution β}
    (ho : ∀ w s, o w s = .ok (g w s, s))
    (hf : ∀ w s, p.Holds w s → Routine eval unguarded Calls p fun i => f i (g w s)) :
    Routine eval unguarded Calls p fun i => o >>= f i :=
  .act (g := fun w s => (g w s, s)) ho (fun _ _ => .none) hf

theorem discard {m : ι → Execution α} (hm : Routine eval unguarded Calls p m) :
    Routine eval unguarded Calls p fun i => Functor.discard (m i) := by
  have h : Routine eval unguarded Calls p fun i => m i >>= fun _ => Pure.pure PUnit.unit :=
    .bind hm fun _ => .pure _
  simpa only [Functor.discard, Functor.mapConst, map_eq_pure_bind] using! h

theorem execString {t : Tree} (h : Calls p t) :
    Routine eval unguarded Calls p fun i => Rule.execString (eval i) t := by
  refine .bind (.exec h) fun v => ?_
  cases v with
  | atom s => exact .pure (Except.ok s : Except Fault String)
  | node tag cs =>
    dsimp only
    by_cases hv : (Tree.node tag cs).isError
    · simpa only [if_pos hv] using .pure _
    · simpa only [if_neg hv] using .bind (.report _) fun _ => .pure _

variable (watch : Option Position.Watch)

theorem passBy {ts : List Tree} (h : ∀ t ∈ ts, Calls p t) :
    Routine eval unguarded Calls p fun i => Position.passBy (eval i) watch ts := by
  induction ts with
  | nil => exact .pure false
  | cons t ts ih =>
    refine .observe (g := fun _ s => s) (fun _ _ => rfl) fun w s _ => ?_
    refine .bind (.discard (.exec (h t List.mem_cons_self))) fun _ => ?_
    exact .bind (ih fun u hu => h u (List.mem_cons_of_mem t hu)) fun b => .pure _

theorem bindings {bs : List (Tree × Tree)} (h : ∀ b ∈ bs, Calls p b.1 ∧ Calls p b.2) :
    Routine eval unguarded Calls p fun i => Position.bind (eval i) watch bs := by
  induction bs with
  | nil => exact .pure false
  | cons b rest ih =>
    obtain ⟨x, v⟩ := b
    obtain ⟨hx, hv⟩ := h (x, v) List.mem_cons_self
    have hrest := ih fun c hc => h c (List.mem_cons_of_mem _ hc)
    refine .observe (g := fun _ s => s) (fun _ _ => rfl) fun w s _ => ?_
    refine .bind (.execString hx) fun r => ?_
    cases r with
    | error e => exact .bind (.pure false) fun _ => .bind hrest fun _ => .pure _
    | ok x =>
      refine .bind (.exec hv) fun v => .bind (.write x v) fun _ => .bind (.pure _) fun _ => ?_
      exact .bind hrest fun _ => .pure _

theorem stage (hcalls : ∀ t, Calls p t) (t : Tree) (index : Nat) :
    Routine eval unguarded Calls p fun i => Position.stage (eval i) watch t index := by
  unfold Position.stage
  split
  · exact .passBy watch fun u _ => hcalls u
  · exact .passBy watch fun u _ => hcalls u
  · split
    · exact .bindings watch fun b _ => ⟨hcalls b.1, hcalls b.2⟩
    · exact .pure false
  · exact .observe (g := fun _ s => s) (fun _ _ => rfl) fun _ _ _ => .pure _
  · exact .pure false

theorem along (hcalls : ∀ t, Calls p t) (path : List Nat) (t : Tree) :
    Routine eval unguarded Calls p fun i => Position.along (eval i) watch t path := by
  induction path generalizing t with
  | nil =>
    simp only [Position.along]
    exact .pure false
  | cons index path ih =>
    simp only [Position.along]
    cases t.child? index with
    | none => exact .pure false
    | some c => exact .bind (.stage watch hcalls t index) fun _ => .bind (ih c) fun _ => .pure _

end Routine

variable {R : State → State → Prop} {fuel : Nat} {t : Tree} {w : World} {s s' : State} {a : α}

theorem Kept.routine (hR : Kept R) (fuel : Nat) {m : Unit → Execution α}
    (h : ∀ p, Routine (fun _ => Typesetter.eval fuel) (fun _ => Typesetter.eval fuel)
      (fun _ _ => True) p m) (hrun : m () w s = .ok (a, s')) : R s s' :=
  (Routine.kept hR (fun _ => eval_keeps hR fuel) (fun _ => eval_keeps hR fuel)
    (h (Place.ofState w s)) () w s a s' (Place.holds_ofState w s) hrun).1

theorem Kept.exec (hR : Kept R) {v : Tree} (h : (exec fuel t).run w s = .ok (v, s')) : R s s' :=
  hR.routine fuel (fun _ => .exec trivial) h

theorem Kept.assign (hR : Kept R) {x : String} {v : Tree}
    (h : (assign fuel x t).run w s = .ok (v, s')) : R s s' :=
  hR.routine fuel (fun _ => .bind (.exec trivial) fun v => .bind (.assign x v) fun _ => .pure v) h

theorem Kept.execUntil (hR : Kept R) {path : List Nat} {u : Unit}
    (h : (execUntil fuel t path).run w s = .ok (u, s')) : R s s' :=
  hR.routine fuel (fun _ => .discard (.along none (fun _ => trivial) path t)) h

theorem Kept.execUntilVariable (hR : Kept R) {path : List Nat} {watch : Position.Watch} {b : Bool}
    (h : (execUntilVariable fuel t path watch).run w s = .ok (b, s')) : R s s' := by
  refine hR.routine (m := fun _ => Typesetter.execUntilVariable fuel t path watch) fuel (fun p => ?_) h
  refine .observe (g := fun _ s => s) (fun _ _ => rfl) fun w s _ => ?_
  refine .bind (.along (some watch) (fun _ => trivial) path t) fun involved => ?_
  cases involved with
  | true => exact .pure true
  | false => exact .observe (g := fun _ s => s) (fun _ _ => rfl) fun _ _ _ => .pure _

end Typesetter

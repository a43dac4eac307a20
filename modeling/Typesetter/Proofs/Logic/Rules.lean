import Typesetter.Evaluation.Run
import Typesetter.Proofs.Logic.Operands
import Typesetter.Proofs.Operation.Sequence

namespace Typesetter

open Execution Evaluation

namespace Logic

variable {L : Logic} {d : Nat} {c : Prop} {eval unguarded : Evaluator}

namespace Lawful

theorem truth (b : Bool) : L.Value (.truth b) := .atom _

theorem empty : L.Value .empty := .atom _

/-! Variables -/

theorem value (hL : L.Lawful) {x : Tree} (hx : L.Evaluates d c eval x)
    (hr : c → ∀ y, x.MayName y → L.Reads y) : L.Accords d c L.Value (Rule.value eval x) :=
  hL.bind (hL.name hx) fun y => hL.lift (hL.readVariable fun h => hr h.1 y h.2)

theorem assign (hL : L.Lawful) {x v : Tree} (htag : c → L.Tags Primitive.assign)
    (hx : L.Evaluates d c eval x) (hv : L.Evaluates d c eval v)
    (ha : c → ∀ y, x.MayName y → L.Assigns y) : L.Accords d c L.Value (Rule.assign eval x v) := by
  refine hL.bind (hL.name hx) fun y => hL.bind (hL.operand (hL.weaken hv And.left)) fun u => ?_
  refine hL.bind (hL.lift (hL.assigning (fun h => ha h.1.1 y h.1.2) And.right)) fun _ => ?_
  refine hL.success fun h => .node (htag h.1.1.1 _) ?_
  have hquote : L.Value (.node Primitive.quote [u]) :=
    .node (hL.own _ (by decide) _) (List.forall_mem_singleton.2 h.1.2)
  exact List.forall_mem_cons.2 ⟨.atom y, List.forall_mem_singleton.2 hquote⟩

theorem bindingsThen (hL : L.Lawful) {body : Tree} {bindings : List (Tree × Tree)}
    (hbody : L.Evaluates d c eval body)
    (h : ∀ b ∈ bindings, L.Evaluates d c eval b.1 ∧ L.Evaluates d c eval b.2)
    (hb : c → ∀ b ∈ bindings, ∀ y, b.1.MayName y → L.Binds y) :
    L.Accords d c (fun out => ∀ v ∈ out, L.Value v) (Rule.bindingsThen eval body bindings) := by
  induction bindings generalizing c with
  | nil =>
    refine hL.bind (hL.lift (hL.exec hbody)) fun v => ?_
    exact hL.success fun hv => List.forall_mem_singleton.2 hv.2
  | cons b rest ih =>
    obtain ⟨⟨hx, hv⟩, hrest⟩ := List.forall_mem_cons.1 h
    refine hL.bind (hL.name hx) fun y => ?_
    refine hL.bind (hL.lift (hL.exec (hL.weaken hv And.left))) fun v => ?_
    have hinner := ih (c := (c ∧ b.1.MayName y) ∧ L.Value v) (hL.weaken hbody fun h => h.1.1)
      (fun e he => ⟨hL.weaken (hrest e he).1 fun h => h.1.1, hL.weaken (hrest e he).2 fun h => h.1.1⟩)
      fun h e he => hb h.1.1 e (List.mem_cons_of_mem b he)
    refine hL.bind (hL.binding (fun h => hb h.1.1 b List.mem_cons_self y h.1.2) And.right hinner)
      fun out => ?_
    exact hL.success fun h => List.forall_mem_cons.2 ⟨.atom y, List.forall_mem_cons.2 ⟨h.1.2, h.2⟩⟩

theorem withVars (hL : L.Lawful) {bindings : List (Tree × Tree)} {body : Option Tree}
    (htag : c → L.Tags Primitive.withVars) (hbody : ∀ t ∈ body, L.Evaluates d c eval t)
    (h : ∀ b ∈ bindings, L.Evaluates d c eval b.1 ∧ L.Evaluates d c eval b.2)
    (hb : c → ∀ b ∈ bindings, ∀ y, b.1.MayName y → L.Binds y) :
    L.Accords d c L.Value (Rule.withVars eval bindings body) := by
  cases body with
  | none => exact hL.refuse rfl
  | some body =>
    refine hL.bind (hL.bindingsThen (hbody body rfl) h hb) fun out => ?_
    exact hL.success fun h => .node (htag h.1 _) h.2

/-! Queries -/

theorem provides (hL : L.Lawful) {x : Tree} (hx : L.Evaluates d c eval x)
    (hr : c → ∀ y, x.MayName y → L.Reads y) : L.Accords d c L.Value (Rule.provides eval x) :=
  hL.bind (hL.name hx) fun y => hL.bind (hL.lift (hL.providesVariable fun h => hr h.1 y h.2)) fun b =>
    hL.success fun _ => truth b

theorem registryProperty (hL : L.Lawful) {tag property : Tree} (ht : L.Evaluates d c eval tag)
    (hp : L.Evaluates d c eval property) :
    L.Accords d c L.Value (Rule.registryProperty eval tag property) := by
  refine hL.bind (hL.name ht) fun x => hL.bind (hL.name (hL.weaken hp And.left)) fun y => ?_
  refine hL.reading (fun _ _ => rfl) fun w => hL.success fun h => ?_
  rw [h.2]
  cases hv : L.world.registry.property? x y with
  | none => exact hL.uninit
  | some v => exact hL.property hv

theorem entry (hL : L.Lawful) {value : Tree} (hv : c → L.Value value) {index : Option Tree}
    (h : ∀ t ∈ index, L.Evaluates d c eval t) : L.Accords d c L.Value (Rule.entry eval value index) := by
  cases index with
  | some t => exact hL.childOf .getBinding hv (h t rfl)
  | none =>
    refine hL.success fun hc => ?_
    by_cases htuple : value.isTuple
    · rw [if_pos htuple]
      cases hchild : value.child? 0 with
      | none => exact empty
      | some v => exact (hv hc).of_child? hchild
    · rw [if_neg htuple]
      exact hv hc

theorem getBinding (hL : L.Lawful) {key : Tree} {index : Option Tree} (hk : L.Evaluates d c eval key)
    (h : ∀ t ∈ index, L.Evaluates d c eval t) :
    L.Accords d c L.Value (Rule.getBinding eval key index) := by
  refine hL.bind (hL.name hk) fun key => hL.reading (fun _ _ => rfl) fun w => ?_
  cases hv : w.references.binding? key with
  | none => exact hL.success fun _ => .atom _
  | some value =>
    refine hL.entry (fun hc => hL.reference (hc.2 ▸ hv)) fun t ht => ?_
    exact hL.weaken (h t ht) fun hc => hc.1.1

theorem getAttachment (hL : L.Lawful) {key : Tree} {index : Option Tree}
    (hk : L.Evaluates d c eval key) (h : ∀ t ∈ index, L.Evaluates d c eval t) :
    L.Accords d c L.Value (Rule.getAttachment eval key index) := by
  refine hL.bind (hL.name hk) fun key => hL.reading (fun _ _ => rfl) fun w => ?_
  cases hv : w.references.attachment? key with
  | none => exact hL.success fun _ => hL.uninit
  | some value =>
    cases index with
    | none => exact hL.success fun hc => hL.attachment (hc.2 ▸ hv)
    | some t =>
      refine hL.childOf .getBinding (fun hc => hL.attachment (hc.2 ▸ hv)) ?_
      exact hL.weaken (h t rfl) fun hc => hc.1.1

/-! Logic -/

theorem anyOf (hL : L.Lawful) {ts : List Tree} (h : ∀ t ∈ ts, L.Evaluates d c eval t) :
    L.Accords d c L.Value (Rule.anyOf eval ts) := by
  induction ts generalizing c with
  | nil => exact hL.success fun _ => truth false
  | cons t ts ih =>
    obtain ⟨ht, hts⟩ := List.forall_mem_cons.1 h
    refine hL.bind (hL.operand ht) fun v => ?_
    by_cases hv : v.isTrue
    · simp only [if_pos hv]
      exact hL.success fun _ => truth true
    · simp only [if_neg hv]
      exact ih fun u hu => hL.weaken (hts u hu) And.left

theorem allOf (hL : L.Lawful) {ts : List Tree} (h : ∀ t ∈ ts, L.Evaluates d c eval t) :
    L.Accords d c L.Value (Rule.allOf eval ts) := by
  induction ts generalizing c with
  | nil => exact hL.success fun _ => truth true
  | cons t ts ih =>
    obtain ⟨ht, hts⟩ := List.forall_mem_cons.1 h
    refine hL.bind (hL.operand ht) fun v => ?_
    by_cases hv : v.isTrue
    · simp only [if_pos hv]
      exact ih fun u hu => hL.weaken (hts u hu) And.left
    · simp only [if_neg hv]
      exact hL.success fun _ => truth false

theorem negation (hL : L.Lawful) {t : Tree} (ht : L.Evaluates d c eval t) :
    L.Accords d c L.Value (Rule.negation eval t) :=
  hL.bind (hL.operand ht) fun _ => hL.success fun _ => truth _

/-! Arithmetic and comparison -/

theorem answer (hL : L.Lawful) {α : Type} {e : Except Fault α} (he : Fresh e) :
    L.Accords d c (fun _ => True) (Evaluation.ofResult e) :=
  hL.ofResult he fun _ _ _ => trivial

theorem quantity (hL : L.Lawful) {f : Units → Except Fault Quantity} (hm : c → L.Measures)
    (hf : ∀ u, Fresh (f u)) : L.Accords d c L.Value (Rule.quantity f) :=
  hL.bind (hL.lift (hL.units hm)) fun u => hL.bind (hL.answer (hf u)) fun _ =>
    hL.success fun _ => .atom _

theorem quantity_unitless (hL : L.Lawful) {e : Except Fault Quantity} (he : Fresh e) :
    L.Accords d c L.Value (Rule.quantity fun _ => e) := by
  have h : L.Accords d c L.Value (Evaluation.ofResult e >>= fun q => pure q.toTree) :=
    hL.bind (hL.answer he) fun _ => hL.success fun _ => .atom _
  exact h

theorem plus (hL : L.Lawful) (hm : c → L.Measures) {first : Tree} {rest : List Tree}
    (hf : L.Evaluates d c eval first) (h : ∀ t ∈ rest, L.Evaluates d c eval t) :
    L.Accords d c L.Value (Rule.plus eval first rest) := by
  refine hL.bind (hL.operand hf) fun x => ?_
  refine hL.bind (hL.operands fun t ht => hL.weaken (h t ht) And.left) fun xs => ?_
  exact hL.quantity (fun h => hm h.1.1) fun u => Quantity.fresh_plus u x xs

theorem times (hL : L.Lawful) (hm : c → L.Measures) {first : Tree} {rest : List Tree}
    (hf : L.Evaluates d c eval first) (h : ∀ t ∈ rest, L.Evaluates d c eval t) :
    L.Accords d c L.Value (Rule.times eval first rest) := by
  refine hL.bind (hL.operand hf) fun x => ?_
  refine hL.bind (hL.operands fun t ht => hL.weaken (h t ht) And.left) fun xs => ?_
  exact hL.quantity (fun h => hm h.1.1) fun u => Quantity.fresh_times u x xs

theorem minus (hL : L.Lawful) (hm : c → L.Measures) {a : Tree} {b : Option Tree}
    (ha : L.Evaluates d c eval a) (h : ∀ t ∈ b, L.Evaluates d c eval t) :
    L.Accords d c L.Value (Rule.minus eval a b) := by
  refine hL.bind (hL.operand ha) fun x => ?_
  have hb : L.Accords d (c ∧ L.Value x) (fun _ => True) (b.mapM (Rule.operand eval)) := by
    cases b with
    | none => exact hL.success fun _ => trivial
    | some t =>
      simp only [Option.mapM_some, map_eq_pure_bind]
      refine hL.bind (hL.operand (hL.weaken (h t rfl) And.left)) fun v => ?_
      exact hL.success fun _ => trivial
  exact hL.bind hb fun y => hL.quantity (fun h => hm h.1.1) fun u => Quantity.fresh_minus u x y

section Two

variable {a b : Tree} (ha : L.Evaluates d c eval a) (hb : L.Evaluates d c eval b)

include ha hb

theorem both (hL : L.Lawful) {α : Type} {P : α → Prop} {f : Tree → Tree → Evaluation α}
    (hf : ∀ x y, L.Accords d c P (f x y)) :
    L.Accords d c P (Rule.operand eval a >>= fun x => Rule.operand eval b >>= fun y => f x y) :=
  hL.bind (hL.operand ha) fun x => hL.bind (hL.operand (hL.weaken hb And.left)) fun y =>
    hL.weaken (hf x y) fun h => h.1.1

theorem oneOf (hL : L.Lawful) : L.Accords d c L.Value (Rule.oneOf eval a b) :=
  hL.both ha hb fun _ _ => hL.success fun _ => truth _

theorem ratio (hL : L.Lawful) (hm : c → L.Measures) :
    L.Accords d c L.Value (Rule.binary eval Quantity.ratio a b) :=
  hL.both ha hb fun x y => hL.quantity hm fun u => Quantity.fresh_ratio u x y

theorem divide (hL : L.Lawful) : L.Accords d c L.Value (Rule.binary eval Quantity.divide a b) := by
  refine hL.both ha hb fun x y => ?_
  simp only [Quantity.divide_units x y _ (Units.ofDpi 0)]
  exact hL.quantity_unitless (Quantity.fresh_divide _ x y)

theorem modulo (hL : L.Lawful) : L.Accords d c L.Value (Rule.binary eval Quantity.modulo a b) := by
  refine hL.both ha hb fun x y => ?_
  simp only [Quantity.modulo_units x y _ (Units.ofDpi 0)]
  exact hL.quantity_unitless (Quantity.fresh_modulo _ x y)

theorem equality (hL : L.Lawful) (hm : c → L.Measures) (wanted : Bool) :
    L.Accords d c L.Value (Rule.equality eval wanted a b) :=
  hL.both ha hb fun _ _ => hL.bind (hL.lift (hL.units hm)) fun _ => hL.success fun _ => truth _

theorem comparison (hL : L.Lawful) (hm : c → L.Measures) (r : Relation) :
    L.Accords d c L.Value (Rule.comparison eval r a b) :=
  hL.both ha hb fun x y => hL.bind (hL.lift (hL.units hm)) fun u =>
    hL.bind (hL.answer (Tree.fresh_relate u r x y)) fun _ => hL.success fun _ => truth _

end Two

/-! Strings and tuples -/

theorem merge (hL : L.Lawful) {ts : List Tree} (h : ∀ t ∈ ts, L.Evaluates d c eval t) :
    L.Accords d c L.Value (Rule.merge eval ts) :=
  hL.bind (hL.operands h) fun vs => hL.ofResult (Tree.fresh_merge vs) fun _ hvs hv =>
    .merge (hL.own _ (by decide)) hvs.2 hv

theorem range (hL : L.Lawful) {t start stop : Tree} (ht : L.Evaluates d c eval t)
    (hi : L.Evaluates d c eval start) (hj : L.Evaluates d c eval stop) :
    L.Accords d c L.Value (Rule.range eval t start stop) := by
  refine hL.bind (hL.operand ht) fun v => ?_
  refine hL.bind (hL.integer .range (hL.weaken hi And.left)) fun i => ?_
  refine hL.bind (hL.integer .range (hL.weaken hj fun h => h.1.1)) fun j => ?_
  exact hL.success fun h => h.1.1.2.range hL.fewer i j

theorem lookup (hL : L.Lawful) {t index : Tree} (ht : L.Evaluates d c eval t)
    (hi : L.Evaluates d c eval index) : L.Accords d c L.Value (Rule.lookup eval t index) := by
  refine hL.bind (hL.operand ht) fun v => ?_
  refine hL.bind (hL.integer .lookup (hL.weaken hi And.left)) fun i => ?_
  exact hL.ofResult (Tree.fresh_lookup v i) fun _ h hitem => h.1.2.lookup hitem

theorem number (hL : L.Lawful) {n style : Tree} (hn : L.Evaluates d c eval n)
    (hs : L.Evaluates d c eval style) : L.Accords d c L.Value (Rule.number eval n style) := by
  refine hL.bind (hL.integer .number hn) fun i => hL.bind (hL.name (hL.weaken hs And.left)) fun x => ?_
  exact hL.bind (hL.answer (Numbering.fresh_number i x)) fun _ => hL.success fun _ => .atom _

theorem date (hL : L.Lawful) {format language : Option Tree}
    (hf : ∀ t ∈ format, L.Evaluates d c eval t) (hl : ∀ t ∈ language, L.Evaluates d c eval t) :
    L.Accords d c L.Value (Rule.date eval format language) := by
  have hnow (c' : Prop) (format : String) : L.Accords d c' L.Value (do
      return Tree.atom (← Evaluation.ofResult (Date.text (← read).today format))) := by
    refine hL.reading (fun _ _ => rfl) fun w => ?_
    exact hL.bind (hL.answer (Date.fresh_text w.today format)) fun _ => hL.success fun _ => .atom _
  cases language with
  | none =>
    cases format with
    | none => exact hnow c Date.usualFormat
    | some t => exact hL.bind (hL.name (hf t rfl)) fun x => hnow _ x
  | some u =>
    have hspoken (c' : Prop) (hc : c' → c) (format : String) : L.Accords d c' L.Value (do
        Functor.discard (Rule.name eval u)
        return Tree.atom (← Evaluation.ofResult (Date.text (← read).today format))) :=
      hL.bind (hL.discard (hL.name (hL.weaken (hl u rfl) hc))) fun _ => hnow _ format
    cases format with
    | none => exact hspoken c id Date.usualFormat
    | some t => exact hL.bind (hL.name (hf t rfl)) fun x => hspoken _ And.left x

theorem translate (hL : L.Lawful) {text source target : Tree} (ht : L.Evaluates d c eval text)
    (hs : L.Evaluates d c eval source) (hu : L.Evaluates d c eval target) :
    L.Accords d c L.Value (Rule.translate eval text source target) :=
  hL.bind (hL.name ht) fun _ => hL.bind (hL.name (hL.weaken hs And.left)) fun _ =>
    hL.bind (hL.name (hL.weaken hu fun h => h.1.1)) fun _ => hL.reading (fun _ _ => rfl) fun _ =>
      hL.success fun _ => .atom _

/-! Files -/

theorem findFile (hL : L.Lawful) {names : List Tree} (h : ∀ t ∈ names, L.Evaluates d c eval t) :
    L.Accords d c L.Value (Rule.findFile eval names) := by
  induction names generalizing c with
  | nil => exact hL.success fun _ => empty
  | cons t ts ih =>
    obtain ⟨ht, hts⟩ := List.forall_mem_cons.1 h
    refine hL.bind (hL.name ht) fun x => hL.reading (fun _ _ => rfl) fun w => ?_
    refine hL.bind (hL.lift (hL.consult FileSystem.hasFile _)) fun r => ?_
    cases r with
    | true => exact hL.success fun _ => .atom _
    | false => exact ih fun u hu => hL.weaken (hts u hu) fun h => h.1.1.1

theorem includeFile (hL : L.Lawful) (heval : L.Runs eval) {x : Tree} (hx : L.Evaluates d c eval x)
    (hf : c → L.Formed d (.includeFile x)) : L.Accords d c L.Value (Rule.includeFile eval x) := by
  refine hL.bind (hL.name hx) fun name => hL.reading (fun _ _ => rfl) fun w => ?_
  refine hL.bind (hL.lift (hL.consult FileSystem.text _)) fun r => ?_
  cases r with
  | error e =>
    exact hL.bind (hL.lift (hL.report _)) fun _ => hL.success fun _ => empty
  | ok text =>
    cases hread : Tree.read text with
    | error e =>
      simp only [hread]
      exact hL.refuse rfl
    | ok tree =>
      simp only [hread]
      refine hL.bind (hL.checkDepth name) fun _ => hL.deeper (heval (d + 1) _ tree fun h => ?_)
      exact hL.included (hf h.1.1.1.1) h.1.2 hread

/-! Control -/

theorem ifThen (hL : L.Lawful) {condition yes : Tree} {no : Option Tree}
    (hc : L.Evaluates d c eval condition) (hy : L.Evaluates d c eval yes)
    (hn : ∀ t ∈ no, L.Evaluates d c eval t) :
    L.Accords d c L.Value (Rule.ifThen eval condition yes no) := by
  refine hL.bind (hL.operand hc) fun v => ?_
  by_cases hv : v.isTrue
  · simp only [if_pos hv]
    exact hL.weaken hy And.left
  · simp only [if_neg hv]
    cases no with
    | none => exact hL.success fun _ => empty
    | some t => exact hL.weaken (hn t rfl) And.left

theorem caseOf (hL : L.Lawful) {otherwise : Option Tree} (ho : ∀ t ∈ otherwise, L.Evaluates d c eval t)
    {branches : List (Tree × Tree)}
    (h : ∀ b ∈ branches, L.Evaluates d c eval b.1 ∧ L.Evaluates d c eval b.2) :
    L.Accords d c L.Value (Rule.caseOf eval otherwise branches) := by
  induction branches generalizing c with
  | nil =>
    cases otherwise with
    | none => exact hL.success fun _ => hL.uninit
    | some t => exact ho t rfl
  | cons b rest ih =>
    obtain ⟨⟨hcondition, hresult⟩, hrest⟩ := List.forall_mem_cons.1 h
    refine hL.bind (hL.operand hcondition) fun v => ?_
    by_cases hv : v.isTrue
    · simp only [if_pos hv]
      exact hL.weaken hresult And.left
    · simp only [if_neg hv]
      refine ih (fun t ht => hL.weaken (ho t ht) And.left) fun e he => ?_
      exact ⟨hL.weaken (hrest e he).1 And.left, hL.weaken (hrest e he).2 And.left⟩

theorem rounds (hL : L.Lawful) (limit : Nat) {condition body : Tree}
    (hc : L.Evaluates d c eval condition) (hb : L.Evaluates d c eval body) (left : Nat)
    {results : List Tree} (hr : c → ∀ v ∈ results, L.Value v) :
    L.Accords d c (fun vs => ∀ v ∈ vs, L.Value v)
      (Rule.rounds eval limit condition body left results) := by
  have hdone (h : c) : ∀ v ∈ results.reverse, L.Value v := fun v hv => hr h v (List.mem_reverse.1 hv)
  induction left generalizing c results with
  | zero =>
    refine hL.bind (hL.operand hc) fun v => ?_
    by_cases hv : v.isTrue
    · simp only [if_pos hv]
      exact hL.refuse rfl
    · simp only [if_neg hv]
      exact hL.success fun h => hdone h.1
  | succ left ih =>
    refine hL.bind (hL.operand hc) fun v => ?_
    by_cases hv : v.isTrue
    · simp only [if_pos hv]
      refine hL.bind (hL.lift (hL.exec (hL.weaken hb And.left))) fun u => ?_
      have hnext (h : (c ∧ L.Value v) ∧ L.Value u) : ∀ w ∈ u :: results, L.Value w :=
        List.forall_mem_cons.2 ⟨h.2, hr h.1.1⟩
      exact ih (hL.weaken hc fun h => h.1.1) (hL.weaken hb fun h => h.1.1) hnext fun h w hw =>
        hnext h w (List.mem_reverse.1 hw)
    · simp only [if_neg hv]
      exact hL.success fun h => hdone h.1

theorem whileLoop (hL : L.Lawful) {condition body : Tree} (hc : L.Evaluates d c eval condition)
    (hb : L.Evaluates d c eval body) : L.Accords d c L.Value (Rule.whileLoop eval condition body) := by
  refine hL.settings (fun _ _ h => (Within.rounds eval h.iterations condition body []).bind fun _ =>
    .refl _) fun settings => ?_
  refine hL.bind (hL.rounds settings.maxIterations (hL.weaken hc And.left) (hL.weaken hb And.left)
    settings.maxIterations fun _ => List.forall_mem_nil _) fun vs => ?_
  exact hL.success fun h => .node (hL.own _ (by decide) _) h.2

theorem point (hL : L.Lawful) {coordinates : List Tree} (htag : c → L.Tags Primitive.point)
    (h : ∀ t ∈ coordinates, L.Evaluates d c eval t) :
    L.Accords d c L.Value (Rule.point eval coordinates) :=
  hL.bind (hL.operands h) fun _ => hL.success fun hv => .node (htag hv.1 _) hv.2

theorem question (hL : L.Lawful) {t : Tree} (ht : L.Evaluates d c eval t) (f : Tree → String) :
    L.Accords d c L.Value (do return .atom (f (← Rule.operand eval t))) :=
  hL.bind (hL.operand ht) fun _ => hL.success fun _ => .atom _

/-! Evaluation -/

theorem form (hL : L.Lawful) (heval : L.Runs eval) (hunguarded : L.Runs unguarded) {q : Primitive}
    {cs : List Tree} (h : c → L.Code d (.node q cs)) {f : Form} (hf : Form.ofPrimitive? q cs = some f) :
    L.Accords d c L.Value (Rule.form eval unguarded q cs f) := by
  have hformed (hc : c) : L.Formed d f := ⟨q, cs, h hc, hf⟩
  have hpermits (hc : c) : L.Permits f := hL.permits (hformed hc)
  have htag (hq : Tag.IsPrompt q) (hc : c) : L.Tags q := hL.tag (h hc) hq Bool.noConfusion
  have hroot {p : Primitive} (hp : f.root? = some p) (hprompt : Tag.IsPrompt p) (hc : c) : L.Tags p := by
    obtain rfl := Form.root?_ofPrimitive? hf hp
    exact htag hprompt hc
  have hcs : ∀ t ∈ cs, L.Evaluates d c eval t := fun t ht =>
    heval d c t fun hc => (hL.part (h hc) ht).1
  -- The operands of a form are children of its node, and so they are code.
  have hmem : ∀ t ∈ f.parts, t ∈ cs := Form.mem_of_parts hf
  have hparts : ∀ t ∈ f.parts, L.Evaluates d c eval t := fun t ht => hcs t (hmem t ht)
  have hshown : ∀ t ∈ f.shown, c → L.Value t := fun t ht hc =>
    (hL.part (h hc) (Form.shown_ofPrimitive? hf t ht)).2
  have hpairs (bs : List (Tree × Tree)) (last : Option Tree)
      (h : ∀ t ∈ bs.flatMap (fun b => [b.1, b.2]) ++ last.toList, L.Evaluates d c eval t) :
      (∀ b ∈ bs, L.Evaluates d c eval b.1 ∧ L.Evaluates d c eval b.2) ∧
        ∀ t ∈ last, L.Evaluates d c eval t := by
    refine ⟨fun b hb => ⟨h b.1 ?_, h b.2 ?_⟩, fun t ht => h t ?_⟩
    · exact List.mem_append_left _ (List.mem_flatMap.2 ⟨b, hb, .head _⟩)
    · exact List.mem_append_left _ (List.mem_flatMap.2 ⟨b, hb, .tail _ (.head _)⟩)
    · exact List.mem_append_right _ (Option.mem_toList.2 ht)
  cases f with
  | itself => exact hL.success fun hc => hL.itself (h hc)
  | rebuilt =>
    have hprompt : Tag.IsPrompt q := Form.isPrompt_of_rebuilt hf
    refine hL.bind (hL.lift (hL.execAll hcs)) fun vs => hL.success fun hv => ?_
    exact .node (htag hprompt hv.1 vs) hv.2
  | value x => exact hL.value (hparts x (.head _)) hpermits
  | arg x indices =>
    exact hL.arg heval (hparts x (.head _)) hpermits fun t ht => hparts t (.tail _ ht)
  | evalArgs x => exact hL.evalArgs hunguarded (hparts x (.head _)) hformed
  | quote body => exact hL.success (hshown body (.head _))
  | quasiquote body =>
    obtain rfl := Form.root?_ofPrimitive? hf rfl
    refine (hL.quasiquote_both heval).1 body c fun hc => ?_
    have hbody : body ∈ cs := hmem body (.head _)
    exact ⟨(hL.part (h hc) hbody).1, hL.template (hL.itself (h hc)) hbody⟩
  | unquote body => exact hparts body (.head _)
  | apply name args => exact (Form.ofPrimitive?_ne_apply hf).elim
  | compound head args =>
    refine hL.compound heval hunguarded hformed (hparts head (.head _)) fun t ht => ?_
    exact ⟨fun hc => (hL.part (h hc) (hmem t (.tail _ ht))).2, hparts t (.tail _ ht)⟩
  | assign x v =>
    exact hL.assign (hroot rfl (by decide)) (hparts x (.head _)) (hparts v (.tail _ (.head _))) hpermits
  | withVars bindings body =>
    exact hL.withVars (hroot rfl (by decide)) (hpairs bindings body hparts).2 (hpairs bindings body hparts).1
      hpermits
  | provides x => exact hL.provides (hparts x (.head _)) hpermits
  | registryProperty t q => exact hL.registryProperty (hparts t (.head _)) (hparts q (.tail _ (.head _)))
  | getLabel t => exact hL.question (hparts t (.head _)) _
  | getArity t => exact hL.question (hparts t (.head _)) fun v => toString v.arity
  | getBinding key index =>
    exact hL.getBinding (hparts key (.head _)) fun t ht => hparts t (.tail _ (Option.mem_toList.2 ht))
  | getAttachment key index =>
    exact hL.getAttachment (hparts key (.head _)) fun t ht =>
      hparts t (.tail _ (Option.mem_toList.2 ht))
  | anyOf ts => exact hL.anyOf hparts
  | allOf ts => exact hL.allOf hparts
  | oneOf a b => exact hL.oneOf (hparts a (.head _)) (hparts b (.tail _ (.head _)))
  | negation t => exact hL.negation (hparts t (.head _))
  | plus first rest => exact hL.plus hpermits (hparts first (.head _)) fun t ht => hparts t (.tail _ ht)
  | minus a b =>
    exact hL.minus hpermits (hparts a (.head _)) fun t ht => hparts t (.tail _ (Option.mem_toList.2 ht))
  | times first rest =>
    exact hL.times hpermits (hparts first (.head _)) fun t ht => hparts t (.tail _ ht)
  | ratio a b => exact hL.ratio (hparts a (.head _)) (hparts b (.tail _ (.head _))) hpermits
  | divide a b => exact hL.divide (hparts a (.head _)) (hparts b (.tail _ (.head _)))
  | modulo a b => exact hL.modulo (hparts a (.head _)) (hparts b (.tail _ (.head _)))
  | merge ts => exact hL.merge hparts
  | length t => exact hL.question (hparts t (.head _)) fun v => toString v.length
  | range t start stop =>
    exact hL.range (hparts t (.head _)) (hparts start (.tail _ (.head _)))
      (hparts stop (.tail _ (.tail _ (.head _))))
  | lookup t index => exact hL.lookup (hparts t (.head _)) (hparts index (.tail _ (.head _)))
  | isTuple t => exact hL.bind (hL.operand (hparts t (.head _))) fun _ => hL.success fun _ => truth _
  | number n style => exact hL.number (hparts n (.head _)) (hparts style (.tail _ (.head _)))
  | date format language =>
    exact hL.date (fun t ht => hparts t (List.mem_append_left _ (Option.mem_toList.2 ht)))
      fun t ht => hparts t (List.mem_append_right _ (Option.mem_toList.2 ht))
  | translate text source target =>
    exact hL.translate (hparts text (.head _)) (hparts source (.tail _ (.head _)))
      (hparts target (.tail _ (.tail _ (.head _))))
  | findFile names => exact hL.findFile hparts
  | includeFile x => exact hL.includeFile heval (hparts x (.head _)) hformed
  | equality wanted a b =>
    exact hL.equality (hparts a (.head _)) (hparts b (.tail _ (.head _))) hpermits wanted
  | comparison r a b =>
    exact hL.comparison (hparts a (.head _)) (hparts b (.tail _ (.head _))) hpermits r
  | ifThen condition yes no =>
    exact hL.ifThen (hparts condition (.head _)) (hparts yes (.tail _ (.head _)))
      fun t ht => hparts t (.tail _ (.tail _ (Option.mem_toList.2 ht)))
  | caseOf branches otherwise =>
    exact hL.caseOf (hpairs branches otherwise hparts).2 (hpairs branches otherwise hparts).1
  | whileLoop condition body =>
    exact hL.whileLoop (hparts condition (.head _)) (hparts body (.tail _ (.head _)))
  | point coordinates => exact hL.point (hroot rfl (by decide)) hparts
  | viewInactive t target => exact hL.viewInactive hformed

theorem step (hL : L.Lawful) (heval : L.Runs eval) (hunguarded : L.Runs unguarded) :
    L.Runs (Rule.step eval unguarded) := by
  intro d c t h
  cases t with
  | atom s => exact hL.success fun _ => .atom s
  | node tag cs =>
    refine hL.inContext tag.name ?_
    cases tag with
    | user m => exact hL.apply heval hunguarded h
    | prim q =>
      cases hf : Form.ofPrimitive? q cs with
      | none =>
        simp only [Form.ofNode, hf]
        exact hL.refuse rfl
      | some f =>
        simp only [Form.ofNode, hf]
        exact hL.form heval hunguarded h hf

theorem runs_eval (hL : L.Lawful) (fuel : Nat) : L.Runs (Typesetter.eval fuel) := by
  induction fuel with
  | zero => exact fun _ _ _ _ => hL.lift (hL.halt .outOfFuel)
  | succ fuel ih => exact hL.step ih ih

end Lawful

end Logic

end Typesetter

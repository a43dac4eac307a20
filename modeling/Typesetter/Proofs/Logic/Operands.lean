import Typesetter.Proofs.Logic.Basic

namespace Typesetter

open Execution Evaluation

namespace Logic

def Runs (L : Logic) (eval : Evaluator) : Prop :=
  ∀ d c t, (c → L.Code d t) → L.Evaluates d c eval t

namespace Lawful

variable {L : Logic} {d : Nat} {c : Prop} {eval unguarded : Evaluator}

theorem exec (hL : L.Lawful) {t : Tree} (h : L.Evaluates d c eval t) :
    L.Triple d c L.Value (Rule.exec eval t) :=
  hL.absorbing h

theorem execAll (hL : L.Lawful) {ts : List Tree} (h : ∀ t ∈ ts, L.Evaluates d c eval t) :
    L.Triple d c (fun vs => ∀ v ∈ vs, L.Value v) (Rule.execAll eval ts) := by
  unfold Rule.execAll
  induction ts with
  | nil => simpa only [List.mapM_nil] using! hL.returns fun _ => List.forall_mem_nil _
  | cons t ts ih =>
    simp only [List.mapM_cons]
    refine hL.chain (hL.exec (h t List.mem_cons_self)) fun v => ?_
    have hrest := hL.mono (ih fun u hu => h u (List.mem_cons_of_mem t hu)) (And.left (b := L.Value v)) fun _ _ => id
    refine hL.chain hrest fun vs => ?_
    exact hL.returns fun h => List.forall_mem_cons.2 ⟨h.1.2, h.2⟩

theorem operand (hL : L.Lawful) {t : Tree} (h : L.Evaluates d c eval t) :
    L.Accords d c L.Value (Rule.operand eval t) := by
  refine hL.bind h fun v => ?_
  by_cases he : v.isError
  · simp only [if_pos he]
    refine hL.fault fun h u hu => ?_
    cases hu
    exact h.2
  · simp only [if_neg he]
    exact hL.success fun h => h.2

theorem operands (hL : L.Lawful) {ts : List Tree} (h : ∀ t ∈ ts, L.Evaluates d c eval t) :
    L.Accords d c (fun vs => ∀ v ∈ vs, L.Value v) (Rule.operands eval ts) :=
  hL.each ts fun t ht => hL.operand (h t ht)

theorem name (hL : L.Lawful) {t : Tree} (h : L.Evaluates d c eval t) :
    L.Accords d c t.MayName (Rule.name eval t) := by
  cases t with
  | atom s => exact hL.success fun _ => rfl
  | node tag cs =>
    refine hL.bind (hL.operand h) fun v => ?_
    cases v with
    | atom s => exact hL.success fun _ => trivial
    | node tag' ds => exact hL.refuse rfl

theorem integer (hL : L.Lawful) (op : Primitive) {t : Tree} (h : L.Evaluates d c eval t) :
    L.Accords d c (fun _ => True) (Rule.integer eval op t) := by
  refine hL.bind (hL.operand h) fun v => ?_
  cases v.label?.bind fun s => Text.readInteger? (Text.trim s.toList) with
  | some n => exact hL.success fun _ => trivial
  | none => exact hL.refuse rfl

theorem childOf (hL : L.Lawful) (op : Primitive) {value index : Tree} (hv : c → L.Value value)
    (h : L.Evaluates d c eval index) : L.Accords d c L.Value (Rule.childOf eval op value index) := by
  refine hL.bind (hL.integer op h) fun n => ?_
  cases hchild : value.childAt? n with
  | some v => exact hL.success fun h => (hv h.1).of_childAt? hchild
  | none => exact hL.refuse rfl

theorem descend (hL : L.Lawful) (op : Primitive) {indices : List Tree}
    (h : ∀ t ∈ indices, L.Evaluates d c eval t) {value : Tree} (hv : c → L.Value value) :
    L.Accords d c L.Value (Rule.descend eval op value indices) := by
  induction indices generalizing c value with
  | nil => exact hL.success hv
  | cons index rest ih =>
    refine hL.bind (hL.childOf op hv (h index List.mem_cons_self)) fun v => ?_
    exact ih (fun t ht => hL.weaken (h t (List.mem_cons_of_mem index ht)) And.left) And.right

theorem quasiquote_both (hL : L.Lawful) (heval : L.Runs eval) :
    (∀ t c, (c → L.Code d t ∧ t.Template L.Tags) → L.Accords d c L.Value (Rule.quasiquote eval t)) ∧
      ∀ ts c, (c → ∀ t ∈ ts, L.Code d t ∧ (¬ t.IsSplice → t.Template L.Tags)) →
        L.Accords d c (fun vs => ∀ v ∈ vs, L.Value v) (Rule.quasiquoteList eval ts) := by
  refine Rule.quasiquote.mutual_induct _ _ ?atom ?unquoted ?node ?nil ?spliced ?cons
  case atom =>
    intro s c _
    exact hL.success fun _ => .atom s
  case unquoted =>
    intro body rest c h
    exact heval d c body fun hc => (hL.part (h hc).1 List.mem_cons_self).1
  case node =>
    intro tag cs hne ih c h
    simp only [Rule.quasiquote.eq_3 _ tag cs hne]
    have hnode (hc : c) : L.Tags tag ∧ ∀ t ∈ cs, ¬ t.IsSplice → t.Template L.Tags := by
      cases (h hc).2 with
      | unquote body rest => exact (hne body rest rfl rfl).elim
      | node htag hcs => exact ⟨htag, hcs⟩
    refine hL.bind (ih c fun hc t ht => ⟨(hL.part (h hc).1 ht).1, (hnode hc).2 t ht⟩) fun vs => ?_
    exact hL.success fun hv => .node ((hnode hv.1).1 vs) hv.2
  case nil =>
    intro c _
    exact hL.success fun _ => List.forall_mem_nil _
  case spliced =>
    intro body rest cs ih c h
    have hbody : L.Evaluates d c eval body :=
      heval d c body fun hc => (hL.part (h hc _ List.mem_cons_self).1 List.mem_cons_self).1
    refine hL.bind (hL.operand hbody) fun v => ?_
    have hrest (spliced : List Tree) (hspliced : L.Value v → ∀ u ∈ spliced, L.Value u) :
        L.Accords d (c ∧ L.Value v) (fun vs => ∀ u ∈ vs, L.Value u)
          (pure spliced >>= fun spliced => Rule.quasiquoteList eval cs >>= fun vs =>
            pure (spliced ++ vs)) := by
      refine hL.bind (P := fun us => us = spliced) (hL.success fun _ => rfl) fun us => ?_
      refine hL.bind (ih _ fun hc t ht => h hc.1.1 t (List.mem_cons_of_mem _ ht)) fun vs => ?_
      refine hL.success fun hv => List.forall_mem_append.2 ⟨?_, hv.2⟩
      rw [hv.1.2]
      exact hspliced hv.1.1.2
    cases v with
    | atom s => exact hrest [.atom s] fun _ => List.forall_mem_singleton.2 (.atom s)
    | node tag ds => exact hrest ds fun hv u hu => hv.child hu
  case cons =>
    intro t ts hne iht ih c h
    simp only [Rule.quasiquoteList.eq_3 _ t ts hne]
    have htemplate (hc : c) : t.Template L.Tags := by
      refine (h hc t List.mem_cons_self).2 ?_
      rintro ⟨body, rest, rfl⟩
      exact hne body rest rfl
    refine hL.bind (iht c fun hc => ⟨(h hc t List.mem_cons_self).1, htemplate hc⟩) fun v => ?_
    refine hL.bind (ih _ fun hc u hu => h hc.1 u (List.mem_cons_of_mem t hu)) fun vs => ?_
    exact hL.success fun hv => List.forall_mem_cons.2 ⟨hv.1.2, hv.2⟩

theorem force (hL : L.Lawful) (heval : L.Runs eval) (level : Nat) {bound : Tree}
    (h : c → L.Argument bound ∧ bound.isDelayed) :
    L.Accords d c L.Value (Rule.force eval level bound) := by
  have hbody {body : Tree} (hb : body ∈ bound.children) (hc : c) : L.Code d body :=
    hL.delayed (h hc).1 (h hc).2 hb
  have hbelow {body : Tree} (hb : body ∈ bound.children) (hc : c) :
      ∃ v, L.Argument v ∧ v.isDelayed ∧ v.children ≠ [] :=
    ⟨bound, (h hc).1, (h hc).2, List.ne_nil_of_mem hb⟩
  cases bound with
  | atom s => exact hL.success fun _ => hL.uninit
  | node tag cs =>
    cases cs with
    | nil =>
      rw [Rule.force_leaf]
      exact hL.success fun _ => hL.uninit
    | cons body rest =>
      have hmem : body ∈ (Tree.node tag (body :: rest)).children := List.mem_cons_self
      by_cases hdelay : tag = Primitive.delay
      · subst hdelay
        exact hL.below (hbelow hmem) (heval d c body (hbody hmem))
      · have htemplate (hc : c) : body.Template L.Tags := by
          obtain rfl : tag = Primitive.quasiquote := (Tree.tag_of_isDelayed (h hc).2).resolve_left hdelay
          exact hL.template (hL.argument (h hc).1) hmem
        have hquasi : L.Accords d c L.Value (Rule.quasiquote eval body) :=
          (hL.quasiquote_both heval).1 body c fun hc => ⟨hbody hmem hc, htemplate hc⟩
        simpa only [Rule.force.eq_2 _ _ _ _ _ hdelay] using hL.below (hbelow hmem) hquasi

theorem argumentValue (hL : L.Lawful) (heval : L.Runs eval) {x : String} (hx : c → L.Reads x) :
    L.Accords d c L.Value (Rule.argumentValue eval x) := by
  refine hL.bind (hL.lift (hL.lookupArgument x)) fun r => ?_
  match r with
  | none => exact hL.lift (hL.readVariable fun h => hx h.1)
  | some (level, bound) =>
    by_cases hb : bound.isDelayed
    · simp only [if_pos hb]
      exact hL.force heval level fun h => ⟨h.2 level bound rfl, hb⟩
    · simp only [if_neg hb]
      exact hL.success fun h => hL.argument (h.2 level bound rfl)

theorem arg (hL : L.Lawful) (heval : L.Runs eval) {x : Tree} {indices : List Tree}
    (hx : L.Evaluates d c eval x) (hr : c → ∀ y, x.MayName y → L.Reads y)
    (hi : ∀ t ∈ indices, L.Evaluates d c eval t) : L.Accords d c L.Value (Rule.arg eval x indices) := by
  refine hL.bind (hL.name hx) fun y => ?_
  refine hL.bind (hL.argumentValue heval fun h => hr h.1 y h.2) fun v => ?_
  exact hL.descend .arg (fun t ht => hL.weaken (hi t ht) fun h => h.1.1) And.right

theorem evalArgs_eq (eval unguarded : Evaluator) (x : Tree) : Rule.evalArgs eval unguarded x =
    Rule.name eval x >>= fun y => liftM (boundTo y) >>= fun bound =>
      liftM (Rule.execChildren unguarded bound) := by
  refine bind_congr fun y => funext fun w => funext fun s => ?_
  have hlookup (k : Option (Nat × Tree) → Evaluation Tree) :
      (liftM (lookupArgument? y) >>= k) w s = k (s.scope.lookup? y) w s := rfl
  have hbound (k : Tree → Evaluation Tree) : (liftM (boundTo y) >>= k) w s = k (s.bound y) w s := rfl
  rw [hlookup, hbound, State.bound]
  cases s.scope.lookup? y with
  | none => rfl
  | some found => rfl

theorem evalArgs (hL : L.Lawful) (hunguarded : L.Runs unguarded) {x : Tree}
    (hx : L.Evaluates d c eval x) (hf : c → L.Formed d (.evalArgs x)) :
    L.Accords d c L.Value (Rule.evalArgs eval unguarded x) := by
  rw [evalArgs_eq]
  refine hL.bind (hL.name hx) fun y => ?_
  refine hL.bind (hL.lift (hL.rerun (fun h => hf h.1) And.right)) fun bound => hL.lift ?_
  cases bound with
  | atom s => exact hL.returns fun _ => .atom s
  | node tag cs =>
    refine hL.chain (hL.execAll fun t ht => hunguarded d _ t fun h => h.2.2 t ht) fun vs => ?_
    exact hL.returns fun h => .node (h.1.2.1 tag cs rfl vs) h.2

theorem formalName (hL : L.Lawful) (op : Primitive) (t : Tree) :
    L.Accords d c (fun _ => True) (Rule.formalName op t) := by
  cases t with
  | atom s => exact hL.success fun _ => trivial
  | node tag cs => exact hL.refuse rfl

theorem actual (hL : L.Lawful) {t : Tree} (ht : c → L.Value t) (h : L.Evaluates d c eval t) :
    L.Triple d c L.Value (Rule.actual eval t) := by
  unfold Rule.actual
  by_cases hd : t.isDelayed
  · rw [if_pos hd]
    exact hL.returns ht
  · rw [if_neg hd]
    exact hL.exec h

theorem defaultArgument (hL : L.Lawful) (hunguarded : L.Runs unguarded) {macroName : String} (i : Nat)
    (formal : String)
    (h : c → ∀ t, L.world.registry.default? macroName i = some t → L.Code d t) :
    L.Triple d c L.Value (Rule.defaultArgument unguarded macroName i formal) := by
  refine hL.world (fun _ _ => rfl) fun w => ?_
  cases hdefault : w.registry.default? macroName i with
  | some t => exact hL.exec (hunguarded d _ t fun hc => h hc.1 t (hc.2 ▸ hdefault))
  | none => exact hL.chain (hL.report _) fun _ => hL.returns fun _ => hL.uninit

variable {macroName : String} {definition : Tree} {args : List Tree}

theorem bindFormals (hL : L.Lawful) (hunguarded : L.Runs unguarded)
    (happlies : c → L.Applies d macroName definition) (formals : List Tree) (i : Nat)
    (hargs : ∀ t ∈ args, (c → L.Value t) ∧ L.Evaluates d c eval t) {frame : ArgumentFrame}
    (hf : c → frame.Holds L.Argument) : L.Accords d c (fun f => f.Holds L.Argument)
      (Rule.bindFormals eval unguarded macroName i formals args frame) := by
  induction formals generalizing c i args frame with
  | nil => exact hL.success hf
  | cons formal formals ih =>
    refine hL.bind (hL.formalName .macroDef formal) fun x => ?_
    have hnext {v : Tree} {rest : List Tree}
        (hrest : ∀ t ∈ rest, (c → L.Value t) ∧ L.Evaluates d c eval t) :
        L.Accords d ((c ∧ True) ∧ L.Value v) (fun f => f.Holds L.Argument)
          (Rule.bindFormals eval unguarded macroName (i + 1) formals rest (frame.bindAt x v [i])) := by
      refine ih (fun h => happlies h.1.1) (i + 1) (fun t ht => ?_) fun h => ?_
      · exact ⟨fun h => (hrest t ht).1 h.1.1, hL.weaken (hrest t ht).2 fun h => h.1.1⟩
      · exact (hf h.1.1).bindAt x ((happlies h.1.1).argument v h.2) [i]
    cases args with
    | nil =>
      have hdefault := hL.defaultArgument (c := c ∧ True) hunguarded i x fun h => (happlies h.1).default i
      exact hL.bind (hL.lift hdefault) fun v => hnext (List.forall_mem_nil _)
    | cons t args =>
      obtain ⟨⟨hvalue, ht⟩, hrest⟩ := List.forall_mem_cons.1 hargs
      have hactual := hL.actual (c := c ∧ True) (fun h => hvalue h.1) (hL.weaken ht And.left)
      exact hL.bind (hL.lift hactual) fun v => hnext hrest

theorem bindVariadic (hL : L.Lawful) (happlies : c → L.Applies d macroName definition)
    (formals : List Tree) (hargs : ∀ t ∈ args, (c → L.Value t) ∧ L.Evaluates d c eval t) :
    L.Accords d c (fun f => f.Holds L.Argument) (Rule.bindVariadic eval formals args) := by
  cases formals with
  | nil => exact hL.success fun _ => .nil
  | cons formal rest =>
    refine hL.bind (hL.formalName .variadicDef formal) fun x => ?_
    refine hL.bind (P := fun vs => ∀ v ∈ vs, L.Value v) (hL.each args fun t ht => ?_) fun vs => ?_
    · exact hL.lift (hL.actual (fun h => (hargs t ht).1 h.1) (hL.weaken (hargs t ht).2 And.left))
    · refine hL.success fun h => ArgumentFrame.Holds.nil.bind x ?_
      exact (happlies h.1.1).argument _ (.node (hL.own _ (by decide) _) h.2)

theorem checkDepth (hL : L.Lawful) (macroName : String) :
    L.Accords d c (fun _ => d < L.world.settings.maxRecursionDepth) (Rule.checkDepth macroName) := by
  refine hL.settings (fun _ _ h => .after fun depth => .refusal rfl (Nat.le_trans h.recursionDepth) _)
    fun settings => hL.bind (hL.lift hL.depth) fun depth => ?_
  by_cases hlimit : settings.maxRecursionDepth ≤ depth
  · simp only [if_pos hlimit]
    exact hL.refuse rfl
  · simp only [if_neg hlimit]
    refine hL.success fun h => ?_
    rw [← h.1.2, ← h.2]
    exact Nat.lt_of_not_le hlimit

theorem applyDefinition (hL : L.Lawful) (heval : L.Runs eval) (hunguarded : L.Runs unguarded)
    (hdefined : definition.isMacroDef) (happlies : c → L.Applies d macroName definition)
    (hargs : ∀ t ∈ args, (c → L.Value t) ∧ L.Evaluates d c eval t) :
    L.Accords d c L.Value (Rule.applyDefinition eval unguarded macroName definition args) := by
  refine hL.bind (hL.checkDepth macroName) fun _ => ?_
  match hparts : definition.definitionParts? with
  | none => exact hL.success fun _ => hL.uninit
  | some (formals, body) =>
    obtain ⟨last, hlast, hp⟩ := Option.map_eq_some_iff.1 hparts
    cases hp
    have happlies' (h : c ∧ d < L.world.settings.maxRecursionDepth) := happlies h.1
    have hargs' : ∀ t ∈ args, (c ∧ d < L.world.settings.maxRecursionDepth → L.Value t) ∧
        L.Evaluates d (c ∧ d < L.world.settings.maxRecursionDepth) eval t := fun t ht =>
      ⟨fun h => (hargs t ht).1 h.1, hL.weaken (hargs t ht).2 And.left⟩
    have hframe (f : ArgumentFrame) : L.Accords d
        ((c ∧ d < L.world.settings.maxRecursionDepth) ∧ f.Holds L.Argument) L.Value
        (Evaluation.withFrame f (eval body)) :=
      hL.withFrame And.right (heval (d + 1) _ body fun h => (happlies h.1.1).body body hdefined h.1.2 hlast)
    by_cases hv : definition.hasTag Primitive.variadicDef
    · simp only [if_pos hv]
      exact hL.bind (hL.bindVariadic happlies' _ hargs') hframe
    · simp only [if_neg hv]
      exact hL.bind (hL.bindFormals hunguarded happlies' _ 0 hargs' fun _ => .nil) hframe

theorem apply (hL : L.Lawful) (heval : L.Runs eval) (hunguarded : L.Runs unguarded)
    (h : c → L.Code d (.node (.user macroName) args)) :
    L.Accords d c L.Value (Rule.apply eval unguarded macroName args) := by
  have hargs (c' : Prop) (hc : c' → c) (t : Tree) (ht : t ∈ args) :
      (c' → L.Value t) ∧ L.Evaluates d c' eval t :=
    ⟨fun h' => (hL.part (h (hc h')) ht).2, heval d c' t fun h' => (hL.part (h (hc h')) ht).1⟩
  refine hL.bind (hL.lift (hL.application h)) fun definition => ?_
  by_cases hdefined : definition.isMacroDef
  · simp only [if_pos hdefined]
    exact hL.applyDefinition heval hunguarded hdefined And.right (hargs _ And.left)
  · simp only [if_neg hdefined]
    refine hL.settings (fun _ _ h => .refusal rfl h.strict _) fun settings => ?_
    by_cases hstrict : settings.strict
    · simp only [if_pos hstrict]
      exact hL.refuse rfl
    · simp only [if_neg hstrict]
      refine hL.bind (hL.lift (hL.execAll fun t ht => (hargs _ (fun h => h.1.1) t ht).2)) fun vs => ?_
      refine hL.success fun hv => .node (hL.tag (h hv.1.1.1) (.user macroName) (fun _ => ?_) vs) hv.2
      rw [← hv.1.2]
      exact Bool.eq_false_iff.2 hstrict

theorem compound (hL : L.Lawful) (heval : L.Runs eval) (hunguarded : L.Runs unguarded) {head : Tree}
    (h : c → L.Formed d (.compound head args)) (hhead : L.Evaluates d c eval head)
    (hargs : ∀ t ∈ args, (c → L.Value t) ∧ L.Evaluates d c eval t) :
    L.Accords d c L.Value (Rule.compound eval unguarded head args) := by
  refine hL.bind (hL.operand hhead) fun v => ?_
  cases v with
  | atom s => exact heval d _ _ fun hc => (hL.computed (h hc.1)).1 s
  | node tag cs =>
    dsimp only
    by_cases hdefined : (Tree.node tag cs).isMacroDef
    · simp only [if_pos hdefined]
      refine hL.applyDefinition heval hunguarded hdefined (fun hc => (hL.computed (h hc.1)).2 _ hc.2)
        fun t ht => ?_
      exact ⟨fun hc => (hargs t ht).1 hc.1, hL.weaken (hargs t ht).2 And.left⟩
    · simp only [if_neg hdefined]
      exact hL.refuse rfl

end Lawful

end Logic

end Typesetter

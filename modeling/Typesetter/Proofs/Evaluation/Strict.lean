import Typesetter.Proofs.Evaluation.EarlierBindings
/-!
Strict operands. A rule asks for the operands of its node one after the other: an operand that fails ends the
rule, and one that is accepted is followed by the next.
-/

namespace Typesetter

open Execution Evaluation

inductive Ask where
  | value
  | truth (b : Bool)
  | name
  | integer (op : Primitive)
  | missingFile
  deriving DecidableEq

variable {α β : Type} {fuel : Nat} {w : World} {s s₁ s₂ : State} {t : Tree} {f : Fault} {a : Ask}
  {fetched earlier later : List (Ask × Tree)}

def Ask.Accepts (fuel : Nat) (w : World) (t : Tree) (s s' : State) : Ask → Prop
  | value => ∃ v, (Rule.operand (eval fuel) t).run w s = .ok (.ok v, s')
  | truth b => ∃ v, (Rule.operand (eval fuel) t).run w s = .ok (.ok v, s') ∧ v.isTrue = b
  | name => ∃ x, (Rule.name (eval fuel) t).run w s = .ok (.ok x, s')
  | integer op => ∃ n, (Rule.integer (eval fuel) op t).run w s = .ok (.ok n, s')
  | missingFile => ∃ x, (Rule.name (eval fuel) t).run w s = .ok (.ok x, s') ∧
      w.files.hasFile (Path.resolve w.base x) = some false

namespace Form

/-- The operands in the order in which the rule asks for them. Indices, conditions in later rounds and the
names of bindings are asked for after more than operands. -/
def asks : Form → List (Ask × Tree)
  | itself | rebuilt | quote _ | quasiquote _ | unquote _ | apply .. | withVars .. | viewInactive .. => []
  | value x | evalArgs x | provides x | includeFile x | arg x _ | getBinding x _ | getAttachment x _ =>
    [(.name, x)]
  | compound t _ | getLabel t | getArity t | negation t | length t | isTuple t | ifThen t _ _
  | whileLoop t _ => [(.value, t)]
  | registryProperty a b => [(.name, a), (.name, b)]
  | assign x v => [(.name, x), (.value, v)]
  | oneOf a b | ratio a b | divide a b | modulo a b | equality _ a b | comparison _ a b =>
    [(.value, a), (.value, b)]
  | lookup t i => [(.value, t), (.integer .lookup, i)]
  | number n style => [(.integer .number, n), (.name, style)]
  | range t i j => [(.value, t), (.integer .range, i), (.integer .range, j)]
  | translate a b c => [(.name, a), (.name, b), (.name, c)]
  | minus a b => (.value, a) :: b.toList.map (Ask.value, ·)
  | plus t ts | times t ts => (t :: ts).map (Ask.value, ·)
  | merge ts | point ts => ts.map (Ask.value, ·)
  | anyOf ts => ts.map (Ask.truth false, ·)
  | allOf ts => ts.map (Ask.truth true, ·)
  | findFile ts => ts.map (Ask.missingFile, ·)
  | caseOf bs _ => bs.map fun b => (Ask.truth false, b.1)
  | date format language => format.toList.map (Ask.name, ·) ++ language.toList.map (Ask.name, ·)

end Form

theorem name_fails (h : (Rule.operand (eval fuel) t).run w s = .ok (.error f, s₁)) :
    (Rule.name (eval fuel) t).run w s = .ok (.error f, s₁) := by
  cases t with
  -- A label is a name as it is, and never fails as an operand.
  | atom x => cases fuel <;> cases h
  | node tag cs => exact bind_run_error h

theorem integer_fails (op : Primitive) (h : (Rule.operand (eval fuel) t).run w s = .ok (.error f, s₁)) :
    (Rule.integer (eval fuel) op t).run w s = .ok (.error f, s₁) :=
  bind_run_error h

theorem childOf_fails (op : Primitive) (v : Tree)
    (h : (Rule.operand (eval fuel) t).run w s = .ok (.error f, s₁)) :
    (Rule.childOf (eval fuel) op v t).run w s = .ok (.error f, s₁) :=
  bind_run_error (integer_fails op h)

theorem whileLoop_run (condition body : Tree) (w : World) (s : State) :
    (Rule.whileLoop (eval fuel) condition body).run w s =
      (Rule.rounds (eval fuel) w.settings.maxIterations condition body w.settings.maxIterations [] >>=
        fun vs => pure (Tree.node Primitive.concat vs)).run w s := rfl

/-- The evaluation fetches these operands first: one that fails ends it, and behind one that is accepted it goes
on with the rest. -/
def Fetches (fuel : Nat) (w : World) : List (Ask × Tree) → Evaluation α → Prop
  | [], _ => True
  | (a, t) :: later, m =>
    (∀ s f s₁, (Rule.operand (eval fuel) t).run w s = .ok (.error f, s₁) → m.run w s = .ok (.error f, s₁)) ∧
      ∀ s s₁, a.Accepts fuel w t s s₁ → ∃ m', Fetches fuel w later m' ∧ m.run w s = m'.run w s₁

namespace Fetches

theorem none (m : Evaluation α) : Fetches fuel w [] m := trivial

theorem value {g : Tree → Evaluation α} (h : ∀ v, Fetches fuel w later (g v)) :
    Fetches fuel w ((.value, t) :: later) (Rule.operand (eval fuel) t >>= g) :=
  ⟨fun _ _ _ hfail => bind_run_error hfail, fun _ _ ⟨v, hv⟩ => ⟨g v, h v, bind_run_ok hv⟩⟩

theorem truth {b : Bool} {g : Tree → Evaluation α} (h : ∀ v, v.isTrue = b → Fetches fuel w later (g v)) :
    Fetches fuel w ((.truth b, t) :: later) (Rule.operand (eval fuel) t >>= g) :=
  ⟨fun _ _ _ hfail => bind_run_error hfail, fun _ _ ⟨v, hv, hb⟩ => ⟨g v, h v hb, bind_run_ok hv⟩⟩

theorem name {g : String → Evaluation α} (h : ∀ x, Fetches fuel w later (g x)) :
    Fetches fuel w ((.name, t) :: later) (Rule.name (eval fuel) t >>= g) :=
  ⟨fun _ _ _ hfail => bind_run_error (name_fails hfail), fun _ _ ⟨x, hx⟩ => ⟨g x, h x, bind_run_ok hx⟩⟩

theorem integer {op : Primitive} {g : Int → Evaluation α} (h : ∀ n, Fetches fuel w later (g n)) :
    Fetches fuel w ((.integer op, t) :: later) (Rule.integer (eval fuel) op t >>= g) :=
  ⟨fun _ _ _ hfail => bind_run_error (integer_fails op hfail), fun _ _ ⟨n, hn⟩ => ⟨g n, h n, bind_run_ok hn⟩⟩

theorem bind {m : Evaluation α} (hm : Fetches fuel w fetched m) (g : α → Evaluation β) :
    Fetches fuel w fetched (m >>= g) := by
  induction fetched generalizing m with
  | nil => trivial
  | cons ask later ih =>
    obtain ⟨hfails, hgoes⟩ := hm
    refine ⟨fun s f s₁ hfail => bind_run_error (hfails s f s₁ hfail), fun s s₁ haccepts => ?_⟩
    obtain ⟨m', hm', hrun⟩ := hgoes s s₁ haccepts
    refine ⟨m' >>= g, ih hm', ?_⟩
    rw [ExceptT.run_bind, ExceptT.run_bind]
    change Except.bind (m.run w s) _ = Except.bind (m'.run w s₁) _
    rw [hrun]

theorem of_run {m m' : Evaluation α} (h : ∀ s, m.run w s = m'.run w s) (hm : Fetches fuel w fetched m') :
    Fetches fuel w fetched m := by
  cases fetched with
  | nil => trivial
  | cons ask later =>
    refine ⟨fun s f s₁ hfail => (h s).trans (hm.1 s f s₁ hfail), fun s s₁ haccepts => ?_⟩
    obtain ⟨m'', hm'', hrun⟩ := hm.2 s s₁ haccepts
    exact ⟨m'', hm'', (h s).trans hrun⟩

theorem operands (ts : List Tree) :
    Fetches fuel w (ts.map (Ask.value, ·)) (Rule.operands (eval fuel) ts) := by
  induction ts with
  | nil => trivial
  | cons t ts ih =>
    rw [Rule.operands, List.mapM_cons]
    exact .value fun v => .bind ih _

theorem anyOf (ts : List Tree) :
    Fetches fuel w (ts.map (Ask.truth false, ·)) (Rule.anyOf (eval fuel) ts) := by
  induction ts with
  | nil => trivial
  | cons t ts ih =>
    rw [Rule.anyOf]
    refine .truth fun v hv => ?_
    simpa only [hv, Bool.false_eq_true, if_false] using ih

theorem allOf (ts : List Tree) :
    Fetches fuel w (ts.map (Ask.truth true, ·)) (Rule.allOf (eval fuel) ts) := by
  induction ts with
  | nil => trivial
  | cons t ts ih =>
    rw [Rule.allOf]
    refine .truth fun v hv => ?_
    simpa only [hv, if_true] using ih

theorem caseOf (otherwise : Option Tree) (bs : List (Tree × Tree)) :
    Fetches fuel w (bs.map fun b => (Ask.truth false, b.1)) (Rule.caseOf (eval fuel) otherwise bs) := by
  induction bs with
  | nil => trivial
  | cons b bs ih =>
    rw [Rule.caseOf]
    refine .truth fun v hv => ?_
    simpa only [hv, Bool.false_eq_true, if_false] using ih

theorem findFile (ts : List Tree) :
    Fetches fuel w (ts.map (Ask.missingFile, ·)) (Rule.findFile (eval fuel) ts) := by
  induction ts with
  | nil => trivial
  | cons t ts ih =>
    refine ⟨fun s f s₁ hfail => bind_run_error (name_fails hfail), fun s s₁ ⟨x, hx, hfile⟩ => ?_⟩
    refine ⟨_, ih, ?_⟩
    have hread (k : World → Evaluation Tree) : (read >>= k).run w s₁ = (k w).run w s₁ := rfl
    have hmissing : (Execution.fileExists (Path.resolve w.base x)).run w s₁ = .ok (false, s₁) :=
      Execution.consult_eq_ok.2 ⟨hfile, rfl⟩
    rw [Rule.findFile, bind_run_ok hx, hread, lift_bind_run_ok hmissing]
    rfl

theorem discard (m : Evaluation α) (g : PUnit → Evaluation β) :
    Functor.discard m >>= g = m >>= fun _ => g ⟨⟩ := by
  simp only [Functor.discard, LawfulFunctor.map_const, Function.comp_apply, map_eq_pure_bind,
    Function.const_apply, bind_assoc, pure_bind]

theorem date (format language : Option Tree) :
    Fetches fuel w (format.toList.map (Ask.name, ·) ++ language.toList.map (Ask.name, ·))
      (Rule.date (eval fuel) format language) := by
  cases format with
  | none =>
    cases language with
    | none => exact .none _
    | some language =>
      simp only [Rule.date, discard, pure_bind]
      exact .name fun _ => .none _
  | some format =>
    refine .name fun x => ?_
    cases language with
    | none => exact .none _
    | some language =>
      simp only [discard]
      exact .name fun _ => .none _

end Fetches

theorem Form.fetches (unguarded : Evaluator) (tag : Tag) (cs : List Tree) (f : Form) :
    Fetches fuel w f.asks (Rule.form (eval fuel) unguarded tag cs f) := by
  cases f with
  | itself | rebuilt | quote _ | quasiquote _ | unquote _ | apply _ _ | withVars _ _ | viewInactive _ _ =>
    trivial
  | value x => exact .name fun _ => .none _
  | evalArgs x => exact .name fun _ => .none _
  | provides x => exact .name fun _ => .none _
  | includeFile x => exact .name fun _ => .none _
  | arg x indices => exact .name fun _ => .none _
  | getBinding key index => exact .name fun _ => .none _
  | getAttachment key index => exact .name fun _ => .none _
  | compound t args => exact .value fun _ => .none _
  | getLabel t => exact .value fun _ => .none _
  | getArity t => exact .value fun _ => .none _
  | negation t => exact .value fun _ => .none _
  | length t => exact .value fun _ => .none _
  | isTuple t => exact .value fun _ => .none _
  | ifThen condition yes no => exact .value fun _ => .none _
  | whileLoop condition body =>
    have hrounds (limit left : Nat) : Fetches fuel w [(.value, condition)]
        (Rule.rounds (eval fuel) limit condition body left []) := by
      cases left with
      | zero => exact .value fun _ => .none _
      | succ left => exact .value fun _ => .none _
    exact .of_run (whileLoop_run condition body w) (.bind (hrounds _ _) _)
  | registryProperty a b => exact .name fun _ => .name fun _ => .none _
  | assign x v => exact .name fun _ => .value fun _ => .none _
  | oneOf a b => exact .value fun _ => .value fun _ => .none _
  | ratio a b => exact .value fun _ => .value fun _ => .none _
  | divide a b => exact .value fun _ => .value fun _ => .none _
  | modulo a b => exact .value fun _ => .value fun _ => .none _
  | equality wanted a b => exact .value fun _ => .value fun _ => .none _
  | comparison r a b => exact .value fun _ => .value fun _ => .none _
  | lookup t i => exact .value fun _ => .integer fun _ => .none _
  | number n style => exact .integer fun _ => .name fun _ => .none _
  | range t i j => exact .value fun _ => .integer fun _ => .integer fun _ => .none _
  | translate a b c => exact .name fun _ => .name fun _ => .name fun _ => .none _
  | minus a b =>
    refine .value fun _ => .bind ?_ _
    cases b with
    | none => exact .none _
    | some b =>
      rw [Option.mapM_some, map_eq_pure_bind]
      exact .value fun _ => .none _
  | plus t ts => exact .value fun _ => .bind (.operands ts) _
  | times t ts => exact .value fun _ => .bind (.operands ts) _
  | merge ts => exact .bind (.operands ts) _
  | point ts => exact .bind (.operands ts) _
  | anyOf ts => exact .anyOf ts
  | allOf ts => exact .allOf ts
  | findFile ts => exact .findFile ts
  | caseOf bs otherwise => exact .caseOf otherwise bs
  | date format language => exact .date format language

inductive Passes (fuel : Nat) (w : World) : List (Ask × Tree) → State → State → Prop
  | nil (s : State) : Passes fuel w [] s s
  | cons {a : Ask} {t : Tree} {later : List (Ask × Tree)} {s s₁ s₂ : State} :
      a.Accepts fuel w t s s₁ → Passes fuel w later s₁ s₂ → Passes fuel w ((a, t) :: later) s s₂

theorem Fetches.fails {m : Evaluation α} (hm : Fetches fuel w (earlier ++ (a, t) :: later) m)
    (hearlier : Passes fuel w earlier s s₁)
    (h : (Rule.operand (eval fuel) t).run w s₁ = .ok (.error f, s₂)) :
    m.run w s = .ok (.error f, s₂) := by
  induction hearlier generalizing m with
  | nil s => exact hm.1 s f s₂ h
  | cons haccepts _ ih =>
    obtain ⟨m', hm', hrun⟩ := hm.2 _ _ haccepts
    exact hrun.trans (ih hm' h)

namespace Primitive

def isStrict : Primitive → Bool
  | point | includeFile | value | evalArgs | assign | provides | registryProperty | getLabel | getArity
  | or | and | xor | not | plus | minus | times | ratio | divide | modulo
  | merge | length | range | lookup | isTuple | number | date | translate | findFile
  | equal | unequal | less | lesseq | greater | greatereq => true
  | _ => false

def isLed : Primitive → Bool
  | arg | compound | getBinding | getAttachment | ifThen | whileLoop => true
  | _ => false

def ask : Primitive → Nat → Ask
  | value, _ | evalArgs, _ | provides, _ | includeFile, _ | registryProperty, _ | translate, _ | date, _
  | assign, 0 | number, _ + 1 => .name
  | or, _ => .truth false
  | and, _ => .truth true
  | findFile, _ => .missingFile
  | range, _ + 1 => .integer .range
  | lookup, _ + 1 => .integer .lookup
  | number, 0 => .integer .number
  | _, _ => .value

end Primitive

namespace Form

theorem mapIdx_const (g : Tree → Ask × Tree) (ts : List Tree) : (ts.mapIdx fun _ t => g t) = ts.map g := by
  induction ts with
  | nil => rfl
  | cons t ts ih => rw [List.mapIdx_cons, ih]; rfl

theorem asks_ofPrimitive? {q : Primitive} {cs : List Tree} {f : Form} (hq : q.isStrict)
    (h : ofPrimitive? q cs = some f) : f.asks = cs.mapIdx fun i t => (q.ask i, t) := by
  revert h hq
  rcases cs with _ | ⟨a, _ | ⟨b, _ | ⟨c, _ | ⟨d, rest⟩⟩⟩⟩ <;> cases q
  all_goals
    intro hq h
    first
    | exact absurd hq Bool.false_ne_true
    | exact absurd h.symm (Option.some_ne_none f)
    | (cases Option.some.inj h; first | rfl | exact (mapIdx_const _ _).symm)

def Strict (tag : Tag) (before : List Tree) (n : Nat) (earlier : List (Ask × Tree)) : Prop :=
  ∀ t after, after.length = n → ∃ f a later, ofNode tag (before ++ t :: after) = .ok f ∧
    f.asks = earlier ++ (a, t) :: later

theorem strict_of_isStrict {q : Primitive} (hq : q.isStrict) {before : List Tree} {n : Nat}
    (harity : q.arity?.all (·.admits (before.length + (n + 1)))) :
    Strict q before n (before.mapIdx fun i t => (q.ask i, t)) := by
  intro t after hafter
  have hlength : (before ++ t :: after).length = before.length + (n + 1) := by
    rw [List.length_append, List.length_cons, hafter]
  have hform := isSome_ofPrimitive? q (before ++ t :: after)
  rw [hlength, harity] at hform
  obtain ⟨f, hf⟩ := Option.isSome_iff_exists.1 hform
  have hnode : ofNode q (before ++ t :: after) = .ok f := by simp only [ofNode, hf]
  have hasks := asks_ofPrimitive? hq hf
  rw [List.mapIdx_append, List.mapIdx_cons, Nat.zero_add] at hasks
  exact ⟨f, _, _, hnode, hasks⟩

theorem strict_condition (passed : List (Tree × Tree)) (n : Nat) :
    Strict Primitive.caseOf (unpaired passed) (n + 1) (passed.map fun b => (Ask.truth false, b.1)) := by
  intro t after hafter
  obtain ⟨result, rest, rfl⟩ := List.exists_cons_of_length_eq_add_one hafter
  have hpairs := pairs_unpaired_append passed (t :: result :: rest)
  have hnode : ofNode Primitive.caseOf (unpaired passed ++ t :: result :: rest) =
      .ok (caseOf (pairs (unpaired passed ++ t :: result :: rest)).1
        (pairs (unpaired passed ++ t :: result :: rest)).2) := by
    cases passed <;> rfl
  rw [hpairs] at hnode
  exact ⟨_, _, _, hnode, List.map_append⟩

theorem strict_first {q : Primitive} (hq : q.isLed) {n : Nat} (harity : q.arity?.all (·.admits (n + 1))) :
    Strict q [] n [] := by
  intro t after hafter
  have hform := isSome_ofPrimitive? q (t :: after)
  rw [List.length_cons, hafter, harity] at hform
  clear harity hafter
  revert hq hform
  rcases after with _ | ⟨a, _ | ⟨b, _ | ⟨c, rest⟩⟩⟩ <;> cases q
  all_goals
    intro hq hform
    first
    | exact absurd hq Bool.false_ne_true
    | exact absurd hform Bool.false_ne_true
    | exact ⟨_, _, _, rfl, rfl⟩

end Form

end Typesetter

import Typesetter.Operation.Arithmetic
import Typesetter.Operation.Comparison
import Typesetter.Operation.Date
import Typesetter.Operation.Numbering
import Typesetter.Operation.Sequence

namespace Typesetter

variable {α β : Type}

def Fresh (e : Except Fault α) : Prop := ∀ f, e = .error f → f.isPropagated = false

namespace Fresh

theorem ok (a : α) : Fresh (.ok a) := by
  intro f h
  cases h

theorem error {f : Fault} (h : f.isPropagated = false) : Fresh (.error f : Except Fault α) := by
  intro g hg
  cases hg
  exact h

theorem bind {e : Except Fault α} {f : α → Except Fault β} (he : Fresh e) (hf : ∀ a, Fresh (f a)) :
    Fresh (e >>= f) := by
  cases e with
  | error g => exact error (he g rfl)
  | ok a => exact hf a

theorem map {e : Except Fault α} (f : α → β) (he : Fresh e) : Fresh (e.map f) := by
  cases e with
  | error g => exact error (he g rfl)
  | ok a => exact ok (f a)

end Fresh

namespace Quantity

variable (u : Units) (op : Primitive) (a b t : Tree)

theorem fresh_exact (n : Int) : Fresh (exact op n) := by
  unfold Quantity.exact
  cases inRange? n with
  | none => exact .error rfl
  | some n => exact .ok n

theorem fresh_operand : Fresh (operand u op t) := by
  unfold operand
  cases ofTree? u t with
  | none => exact .error rfl
  | some q => exact .ok q

theorem fresh_add (x y : Quantity) : Fresh (add op x y t) := by
  cases x <;> cases y <;> first
    | exact (fresh_exact op _).map _
    | exact .ok _
    | exact .error rfl

theorem fresh_negate (x : Quantity) : Fresh (negate x) := by
  cases x with
  | integer n => exact (fresh_exact .minus _).map _
  | real x => exact .ok _
  | length n => exact (fresh_exact .minus _).map _

theorem fresh_multiply (x y : Quantity) : Fresh (multiply x y t) := by
  cases x <;> cases y <;> first
    | exact (fresh_exact .times _).map _
    | exact .ok _
    | exact .error rfl

theorem fresh_combine {f : Quantity → Quantity → Tree → Except Fault Quantity}
    (hf : ∀ x y t, Fresh (f x y t)) (acc : Quantity) (ts : List Tree) :
    Fresh (combine u op f acc ts) := by
  induction ts generalizing acc with
  | nil => exact .ok acc
  | cons t ts ih =>
    refine .bind (fresh_operand u op t) fun q => ?_
    exact .bind (hf acc q t) fun acc => ih acc

theorem fresh_plus (rest : List Tree) : Fresh (plus u a rest) :=
  .bind (fresh_operand u .plus a) fun x => fresh_combine u .plus (fun x y t => fresh_add .plus t x y) x rest

theorem fresh_times (rest : List Tree) : Fresh (times u a rest) :=
  .bind (fresh_operand u .times a) fun x => fresh_combine u .times (fun x y t => fresh_multiply t x y) x rest

theorem fresh_minus (o : Option Tree) : Fresh (minus u a o) := by
  refine .bind (fresh_operand u .minus a) fun x => ?_
  cases o with
  | none => exact fresh_negate x
  | some b =>
    refine .bind (fresh_operand u .minus b) fun y => ?_
    exact .bind (fresh_negate y) fun y => fresh_add .minus b x y

theorem fresh_ratio : Fresh (ratio u a b) := by
  refine .bind (fresh_operand u .ratio a) fun x => .bind (fresh_operand u .ratio b) fun y => ?_
  by_cases hy : y.toFloat == 0.0
  · simp only [if_pos hy]
    exact .error rfl
  · simp only [if_neg hy]
    cases x <;> cases y <;> first
      | exact .ok _
      | exact .error rfl

theorem fresh_integerOperand : Fresh (integerOperand u op t) := by
  unfold integerOperand
  cases ofTree? u t with
  | none => exact .error rfl
  | some q =>
    cases q with
    | integer n => exact .ok n
    | real x => exact .error rfl
    | length n => exact .error rfl

theorem fresh_quotient (x y : Int) : Fresh (quotient x y) := by
  unfold quotient
  by_cases hy : y = 0
  · simp only [if_pos hy]
    exact .error rfl
  · simp only [if_neg hy]
    exact fresh_exact .divide _

theorem fresh_remainder (x y : Int) : Fresh (remainder x y) := by
  unfold remainder
  by_cases hy : y = 0
  · simp only [if_pos hy]
    exact .error rfl
  · simp only [if_neg hy]
    exact .bind ((fresh_exact .modulo _).map _) fun _ => .ok _

theorem fresh_divide : Fresh (divide u a b) :=
  .bind (fresh_integerOperand u .divide a) fun x => .bind (fresh_integerOperand u .divide b) fun y =>
    (fresh_quotient x y).map integer

theorem fresh_modulo : Fresh (modulo u a b) :=
  .bind (fresh_integerOperand u .modulo a) fun x => .bind (fresh_integerOperand u .modulo b) fun y =>
    (fresh_remainder x y).map integer

theorem integerOperand_units (u u' : Units) : integerOperand u op t = integerOperand u' op t := by
  unfold integerOperand ofTree?
  cases t.label? with
  | none => rfl
  | some s =>
    simp only [Option.bind_some, read?]
    cases Text.readInteger? (Text.trim s.toList) with
    | some n => rfl
    | none =>
      cases (Decimal.readFloat? (Text.trim s.toList)).filter Decimal.isFinite with
      | some x => rfl
      | none =>
        by_cases hl : Length.isLength (Text.trim s.toList)
        · simp only [if_pos hl]
          cases u.length? (Text.trim s.toList) <;> cases u'.length? (Text.trim s.toList) <;> rfl
        · simp only [if_neg hl]

theorem divide_units (u u' : Units) : divide u a b = divide u' a b := by
  simp only [divide, integerOperand_units _ _ u u']

theorem modulo_units (u u' : Units) : modulo u a b = modulo u' a b := by
  simp only [modulo, integerOperand_units _ _ u u']

end Quantity

theorem Tree.fresh_lookup (t : Tree) (i : Int) : Fresh (t.lookup i) := by
  unfold Tree.lookup
  cases t.item? i with
  | none => exact .error rfl
  | some item => exact .ok item

theorem Tree.fresh_merge (ts : List Tree) : Fresh (Tree.merge ts) := by
  unfold Tree.merge
  by_cases hts : ts.all isAtom
  · simp only [if_pos hts]
    exact .ok _
  · simp only [if_neg hts]
    cases ts.find? (!·.isTuple) with
    | none => exact .ok _
    | some bad => exact .error rfl

theorem Tree.fresh_relate (u : Units) (r : Relation) (a b : Tree) : Fresh (a.relate u r b) := by
  unfold Tree.relate
  cases a.order u b with
  | none => exact .error rfl
  | some o => exact .ok _

theorem Numbering.fresh_footnoteMark (n : Int) : Fresh (footnoteMark n) := by
  unfold footnoteMark
  split
  · exact .ok _
  · simp only
    split
    · exact .error rfl
    · exact .ok _

theorem Numbering.fresh_number (n : Int) (style : String) : Fresh (number n style) := by
  unfold number
  split
  · exact .ok _
  · exact .ok _
  · exact .ok _
  · exact .ok _
  · exact .ok _
  · exact fresh_footnoteMark n
  · exact .error rfl

theorem Date.fresh_text (today : String → Option String) (format : String) :
    Fresh (Date.text today format) := by
  unfold Date.text
  cases today format with
  | none => exact .error rfl
  | some text => exact .ok _

end Typesetter

import Mathlib.Data.List.Induction
import Typesetter.Document.Scope
/-!
Where bound arguments come from. A frame holds the value of the last call that bound a name, and the last
path that came with a call for it. They are of one call unless a call without a path follows one with a path;
then the path that is found for an argument is that of an earlier one.
-/

namespace Typesetter

namespace ArgumentFrame

inductive Call where
  | bind (name : String) (value : Tree)
  | bindAt (name : String) (value : Tree) (path : List Nat)
  deriving DecidableEq

namespace Call

def name : Call → String
  | bind name _ | bindAt name _ _ => name

def value : Call → Tree
  | bind _ value | bindAt _ value _ => value

def path? : Call → Option (List Nat)
  | bind .. => none
  | bindAt _ _ path => some path

def perform (f : ArgumentFrame) : Call → ArgumentFrame
  | bind name value => f.bind name value
  | bindAt name value path => f.bindAt name value path

end Call

def built (calls : List Call) : ArgumentFrame := calls.foldl Call.perform []

def latest? (calls : List Call) (name : String) : Option Call := calls.reverse.find? (·.name = name)

def origin? (calls : List Call) (name : String) : Option (List Nat) :=
  calls.reverse.findSome? fun call => if call.name = name then call.path? else none

def innermost? (stack : List (List Call)) (name : String) : Option (List Call) :=
  stack.find? fun calls => (latest? calls name).isSome

def binding? (stack : List (List Call)) (name : String) : Option Call :=
  (innermost? stack name).bind (latest? · name)

/-- If the last call for a name has no path, no call for it has one. -/
def InStep (calls : List Call) (name : String) : Prop :=
  ∀ call, latest? calls name = some call → call.path? = none →
    ∀ earlier ∈ calls, earlier.name = name → earlier.path? = none

variable {call : Call} {calls : List Call} {name : String} {path : List Nat}

section Calls

theorem latest?_concat (calls : List Call) (call : Call) (name : String) :
    latest? (calls ++ [call]) name = if call.name = name then some call else latest? calls name := by
  rw [latest?, List.reverse_concat, List.find?_cons]
  by_cases h : call.name = name <;> simp [h, latest?]

theorem origin?_concat (calls : List Call) (call : Call) (name : String) :
    origin? (calls ++ [call]) name =
      if call.name = name then call.path?.or (origin? calls name) else origin? calls name := by
  rw [origin?, List.reverse_concat, List.findSome?_cons]
  by_cases h : call.name = name
  · cases hpath : call.path? <;> simp [h, origin?]
  · simp [h, origin?]

theorem origin?_eq_none :
    origin? calls name = none ↔ ∀ call ∈ calls, call.name = name → call.path? = none := by
  simp [origin?, List.findSome?_eq_none_iff]

theorem latest?_eq_none : latest? calls name = none ↔ ∀ call ∈ calls, call.name ≠ name := by
  simp [latest?]

theorem origin?_of_path (h : latest? calls name = some call) (hpath : call.path? = some path) :
    origin? calls name = some path := by
  induction calls using List.reverseRecOn with
  | nil => cases h
  | append_singleton calls last ih =>
    rw [latest?_concat] at h
    rw [origin?_concat]
    by_cases hname : last.name = name
    · rw [if_pos hname] at h ⊢
      cases h
      rw [hpath, Option.some_or]
    · rw [if_neg hname] at h ⊢
      exact ih h

theorem origin?_eq_iff :
    origin? calls name = (latest? calls name).bind Call.path? ↔ InStep calls name := by
  cases hlatest : latest? calls name with
  | none =>
    have hnone : origin? calls name = none :=
      origin?_eq_none.2 fun call hcall hname => absurd hname (latest?_eq_none.1 hlatest call hcall)
    exact ⟨fun _ _ hcall => (nomatch hlatest.symm.trans hcall), fun _ => hnone⟩
  | some call =>
    rw [Option.bind_some]
    cases hpath : call.path? with
    | some path =>
      have horigin : origin? calls name = some path := origin?_of_path hlatest hpath
      refine ⟨fun _ call' hcall' hnone => ?_, fun _ => horigin⟩
      obtain rfl : call = call' := Option.some.inj (hlatest.symm.trans hcall')
      exact nomatch hpath.symm.trans hnone
    | none =>
      rw [origin?_eq_none]
      exact ⟨fun h _ _ _ => h, fun h => h call hlatest hpath⟩

end Calls

section Frames

theorem get?_perform (f : ArgumentFrame) (call : Call) (name : String) :
    (call.perform f).get? name =
      if name = call.name then some ⟨call.value, call.path?.or (f.path? name)⟩ else f.get? name := by
  cases call with
  | bind x v =>
    rw [Call.perform, bind, Listing.get?_insert]
    by_cases h : name = x
    · subst h
      simp [Call.name, Call.value, Call.path?]
    · simp [Call.name, h]
  | bindAt x v path => exact Listing.get?_insert f x name _

theorem value?_perform (f : ArgumentFrame) (call : Call) (name : String) :
    (call.perform f).value? name = if call.name = name then some call.value else f.value? name := by
  rw [value?, get?_perform]
  by_cases h : name = call.name
  · rw [if_pos h, if_pos h.symm]
    rfl
  · rw [if_neg h, if_neg (Ne.symm h)]
    rfl

theorem path?_perform (f : ArgumentFrame) (call : Call) (name : String) :
    (call.perform f).path? name =
      if call.name = name then call.path?.or (f.path? name) else f.path? name := by
  rw [path?, get?_perform]
  by_cases h : name = call.name
  · rw [if_pos h, if_pos h.symm]
    rfl
  · rw [if_neg h, if_neg (Ne.symm h)]
    rfl

theorem value?_built (calls : List Call) (name : String) :
    (built calls).value? name = (latest? calls name).map Call.value := by
  induction calls using List.reverseRecOn with
  | nil => rfl
  | append_singleton calls call ih =>
    rw [built, List.foldl_append, List.foldl_cons, List.foldl_nil, ← built, value?_perform, latest?_concat, ih]
    split <;> rfl

theorem path?_built (calls : List Call) (name : String) :
    (built calls).path? name = origin? calls name := by
  induction calls using List.reverseRecOn with
  | nil => rfl
  | append_singleton calls call ih =>
    rw [built, List.foldl_append, List.foldl_cons, List.foldl_nil, ← built, path?_perform, origin?_concat, ih]

theorem contains_built (calls : List Call) (name : String) :
    (built calls).contains name = (latest? calls name).isSome := by
  rw [contains, ← Option.isSome_map (f := Binding.value)]
  exact (congrArg Option.isSome (value?_built calls name)).trans Option.isSome_map

end Frames

end ArgumentFrame

namespace Scope

open ArgumentFrame

variable {calls : List Call} {call : Call} {name : String}

theorem innermost?_cons_of_none (h : latest? calls name = none) (below : List (List Call)) :
    innermost? (calls :: below) name = innermost? below name := by
  rw [innermost?, List.find?_cons, h]
  rfl

theorem innermost?_cons_of_some (h : latest? calls name = some call) (below : List (List Call)) :
    innermost? (calls :: below) name = some calls := by
  rw [innermost?, List.find?_cons, h]
  rfl

theorem value?_cons (f : ArgumentFrame) (below : Scope) (name : String) :
    value? (f :: below) name = (f.value? name).or (value? below name) := by
  rw [value?, lookup?]
  cases f.value? name <;> rfl

theorem sourcePath?_cons (f : ArgumentFrame) (below : Scope) (name : String) :
    sourcePath? (f :: below) name = if f.contains name then f.path? name else sourcePath? below name := by
  rw [sourcePath?, List.find?_cons]
  cases f.contains name <;> rfl

theorem value?_built (stack : List (List Call)) (name : String) :
    value? (stack.map built) name = (binding? stack name).map Call.value := by
  induction stack with
  | nil => rfl
  | cons calls below ih =>
    rw [List.map_cons, value?_cons, ArgumentFrame.value?_built, ih, binding?, binding?]
    cases hlatest : latest? calls name with
    | none => rw [innermost?_cons_of_none hlatest, Option.map_none, Option.none_or]
    | some call =>
      rw [innermost?_cons_of_some hlatest, Option.bind_some, hlatest, Option.map_some, Option.some_or]

theorem sourcePath?_built_iff (stack : List (List Call)) (name : String) :
    sourcePath? (stack.map built) name = (binding? stack name).bind Call.path? ↔
      ∀ calls, innermost? stack name = some calls → InStep calls name := by
  induction stack with
  | nil => exact ⟨fun _ _ h => (nomatch h), fun _ => rfl⟩
  | cons calls below ih =>
    rw [List.map_cons, sourcePath?_cons, contains_built, binding?]
    cases hlatest : latest? calls name with
    | none => rwa [innermost?_cons_of_none hlatest, Option.isSome_none, if_neg Bool.false_ne_true]
    | some call =>
      rw [innermost?_cons_of_some hlatest, Option.isSome_some, if_pos rfl, Option.bind_some, path?_built,
        origin?_eq_iff]
      simp

theorem built_inStep_iff (name : String) :
    (∀ calls, (built calls).value? name = (latest? calls name).map Call.value ∧
      ((built calls).path? name = (latest? calls name).bind Call.path? ↔ InStep calls name)) ∧
    ∀ stack : List (List Call),
      value? (stack.map built) name = (binding? stack name).map Call.value ∧
      (sourcePath? (stack.map built) name = (binding? stack name).bind Call.path? ↔
        ∀ calls, innermost? stack name = some calls → InStep calls name) := by
  refine ⟨fun calls => ⟨ArgumentFrame.value?_built calls name, ?_⟩, fun stack =>
    ⟨value?_built stack name, sourcePath?_built_iff stack name⟩⟩
  rw [path?_built, origin?_eq_iff]

theorem not_inStep_rebound :
    let calls := [.bindAt "x" (.atom "1") [0], .bind "x" (.atom "2")]
    latest? calls "x" = some (.bind "x" (.atom "2")) ∧ (built calls).value? "x" = some (.atom "2") ∧
    (built calls).path? "x" = some [0] ∧ sourcePath? [built calls] "x" = some [0] := by
  decide

end Scope

end Typesetter

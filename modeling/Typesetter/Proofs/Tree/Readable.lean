import Typesetter.Proofs.Tree.Every
import Typesetter.Proofs.Tree.Steps

namespace Typesetter

open Typesetter.Tree Text

def IsWord (s : List Char) : Prop := s ≠ [] ∧ ∀ c ∈ s, isDelimiter c = false

instance (s : List Char) : Decidable (IsWord s) :=
  decidable_of_iff (s.isEmpty = false ∧ s.all (!isDelimiter ·)) (by simp [IsWord])

namespace Tag

def IsReadable : Tag → Prop
  | prim _ => True
  | user name => IsWord name.toList ∧ Primitive.ofName? name = none

instance : DecidablePred IsReadable
  | prim _ => .isTrue trivial
  | user _ => inferInstanceAs (Decidable (_ ∧ _))

variable {tag : Tag} {s : String}

theorem ofName?_primitive (p : Primitive) : Primitive.ofName? p.name = some p := by
  cases p <;> decide

theorem IsReadable.ofName_name (h : tag.IsReadable) : ofName tag.name = tag := by
  cases tag with
  | prim p => simp only [ofName, name, ofName?_primitive]
  | user name => simp only [ofName, Tag.name, h.2]

theorem IsReadable.isWord (h : tag.IsReadable) : IsWord tag.name.toList := by
  cases tag with
  | prim p => cases p <;> decide
  | user name => exact h.1

theorem isReadable_ofName (h : IsWord s.toList) : (ofName s).IsReadable := by
  unfold ofName
  split
  · trivial
  · exact ⟨h, ‹_›⟩

end Tag

namespace Tree

mutual

def nesting : Tree → Nat
  | atom _ => 0
  | node _ cs => 1 + nestingList cs

def nestingList : List Tree → Nat
  | [] => 0
  | c :: cs => max c.nesting (nestingList cs)

end

theorem nestingList_le {n : Nat} {cs : List Tree} :
    nestingList cs ≤ n ↔ ∀ c ∈ cs, c.nesting ≤ n := by
  induction cs with
  | nil => simp [nestingList]
  | cons c cs ih => simp only [nestingList, Nat.max_le, ih, List.forall_mem_cons]

abbrev Readable : Tree → Prop := Every fun tag _ => tag.IsReadable

namespace Reader

def Fits (depth : Nat) (t : Tree) : Prop := t.Readable ∧ depth + t.nesting ≤ maxNesting

def StackFits : List OpenNode → Prop
  | [] => True
  | n :: below => n.tag.IsReadable ∧ below.length < maxNesting ∧
      (∀ c ∈ n.children, Fits (below.length + 1) c) ∧ StackFits below

def FocusFits (depth : Nat) : Focus → Prop
  | .head .. => depth < maxNesting
  | .tagName _ word => depth < maxNesting ∧ IsWord word
  | .gap _ | .bare _ | .string .. => True

structure State.Fits (s : State) : Prop where
  stack : StackFits s.stack
  result : ∀ t ∈ s.result, Reader.Fits 0 t
  focus : FocusFits s.stack.length s.focus

variable {s s' : State} {t : Tree} {n : OpenNode} {below : List OpenNode} {c : Char} {w : List Char}
  {start : Nat}

theorem StackFits.close (h : StackFits (n :: below)) : Fits below.length n.close := by
  obtain ⟨htag, hroom, hcs, _⟩ := h
  refine ⟨.node htag fun c hc => (hcs c (List.mem_reverse.1 hc)).1, ?_⟩
  have hnesting : nestingList n.children.reverse ≤ maxNesting - (below.length + 1) := by
    refine nestingList_le.2 fun c hc => ?_
    have := (hcs c (List.mem_reverse.1 hc)).2
    omega
  simp only [OpenNode.close, nesting]
  omega

theorem StackFits.length_le {stack : List OpenNode} (h : StackFits stack) :
    stack.length ≤ maxNesting := by
  cases stack with
  | nil => exact Nat.zero_le _
  | cons n below => exact h.2.1

namespace State.Fits

theorem initial : State.initial.Fits := ⟨trivial, nofun, trivial⟩

theorem complete (hstack : StackFits s.stack) (hresult : ∀ u ∈ s.result, Reader.Fits 0 u)
    (ht : Reader.Fits s.stack.length t) : (s.complete t).Fits := by
  obtain ⟨o, stack, result, focus⟩ := s
  cases stack with
  | nil => exact ⟨trivial, fun u hu => Option.some.inj hu ▸ ht, trivial⟩
  | cons n below =>
    obtain ⟨htag, hroom, hcs, hbelow⟩ := hstack
    exact ⟨⟨htag, hroom, List.forall_mem_cons.2 ⟨ht, hcs⟩, hbelow⟩, hresult, trivial⟩

theorem finishWord (h : s.Fits) (w : List Char) : (s.finishWord w).Fits :=
  complete h.stack h.result ⟨.atom _, h.stack.length_le⟩

theorem openNode (h : s.Fits) (hroom : s.stack.length < maxNesting) (hw : IsWord w) :
    (s.openNode start w).Fits := by
  have hname : IsWord (String.ofList w.reverse).toList := by
    rw [String.toList_ofList]
    exact ⟨List.reverse_ne_nil_iff.2 hw.1, fun c hc => hw.2 c (List.mem_reverse.1 hc)⟩
  exact ⟨⟨Tag.isReadable_ofName hname, hroom, List.forall_mem_nil _, h.stack⟩, h.result, trivial⟩

theorem refocus (h : s.Fits) {f : Focus} (hf : FocusFits s.stack.length f) :
    Fits { s with focus := f } :=
  ⟨h.stack, h.result, hf⟩

theorem atGap (h : s.Fits) (hs : AtGap s c s') : s'.Fits := by
  cases hs with
  | blank _ | comment | quote _ | word _ _ => exact h.refocus trivial
  | opening _ hroom => exact h.refocus hroom
  | closing _ hopen =>
    have hstack := h.stack
    rw [hopen] at hstack
    exact complete hstack.2.2.2 h.result hstack.close

theorem accept (h : s.Fits) (hs : Accepts s c s') : s'.Fits := by
  have hfocus := h.focus
  cases hs with
  | gap _ hs => exact h.atGap hs
  | headBlank _ _ => exact h
  | headOpen hf _ | headComment hf =>
    rw [hf] at hfocus
    exact h.refocus hfocus
  | nameStart hf hc =>
    rw [hf] at hfocus
    exact h.refocus ⟨hfocus, List.cons_ne_nil c [], List.forall_mem_singleton.2 hc⟩
  | @name _ word hf hc =>
    rw [hf] at hfocus
    exact h.refocus ⟨hfocus.1, List.cons_ne_nil c word, List.forall_mem_cons.2 ⟨hc, hfocus.2.2⟩⟩
  | nameEnd hf _ hs =>
    rw [hf] at hfocus
    exact (h.openNode hfocus.1 hfocus.2).atGap hs
  | bareEnd _ _ hs => exact (h.finishWord _).atGap hs
  | stringEnd _ _ => exact h.finishWord _
  | comment _ | bare _ _ | plain _ _ _ | escape _ _ | escaped _ => exact h.refocus trivial

theorem steps {cs : List Char} (h : s.Fits) (hs : s.steps cs = .ok s') : s'.Fits :=
  steps_preserve (fun _ _ _ h hs => h.accept hs) (fun _ _ h => ⟨h.stack, h.result, h.focus⟩) h hs

theorem settle (h : s.Fits) (hs : s.settle = .ok t) : Reader.Fits 0 t := by
  unfold State.settle at hs
  split at hs
  · cases hs
  · cases hs
    exact h.result t ‹_›
  · cases hs

theorem finish (h : s.Fits) (hs : s.finish = .ok t) : Reader.Fits 0 t := by
  have hfocus := h.focus
  unfold State.finish at hs
  split at hs
  case h_1 => exact h.settle hs
  case h_2 => cases hs
  case h_3 start word hf =>
    rw [hf] at hfocus
    exact (h.openNode hfocus.1 hfocus.2).settle hs
  case h_4 word hf => exact (h.finishWord word).settle hs
  case h_5 => cases hs

end State.Fits

end Reader

open Reader

theorem readable_of_read {s : String} {t : Tree} (h : Tree.read s = .ok t) :
    t.Readable ∧ t.nesting ≤ maxNesting := by
  rw [Tree.read, readChars] at h
  cases hs : State.initial.steps s.toList with
  | error e =>
    rw [hs] at h
    cases h
  | ok s' =>
    rw [hs] at h
    obtain ⟨hreadable, hdeep⟩ := (State.Fits.initial.steps hs).finish h
    exact ⟨hreadable, by omega⟩

end Tree

end Typesetter

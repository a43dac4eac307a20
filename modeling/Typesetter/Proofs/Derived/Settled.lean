import Typesetter.Proofs.Derived.Field

namespace Typesetter

open SystemVariable

def SystemVariable.Anchored (v : SystemVariable) (read : String → Tree) : Prop :=
  ∀ u : SystemVariable, u.Supports v → u.Orderly (read u.name)

theorem SystemVariable.Anchored.of_supports {u v : SystemVariable} {read : String → Tree}
    (h : v.Anchored read) (hu : u.Supports v) : u.Anchored read :=
  fun x hx => h x (hx.trans hu)

namespace Derived

variable {d : Derived} {read read' : String → Tree} {u v w : SystemVariable} {vs : List SystemVariable}
  {n : String} {names stale : List String}

def Settled (d : Derived) (read : String → Tree) (v : SystemVariable) : Prop :=
  d.field v = d.decode v (read v.name)

def Grounded (d : Derived) (read : String → Tree) (v : SystemVariable) : Prop :=
  ∀ u : SystemVariable, u.Supports v → d.Settled read u

def SettledBut (stale : List String) (d : Derived) (read : String → Tree) : Prop :=
  ∀ v : SystemVariable, (∀ u : SystemVariable, u.Supports v → u.name ∉ stale) → d.Grounded read v

/-- Nothing is said of variables that are not anchored: what they mean depends on the order of changes. -/
def AnchoredSettledBut (stale : List String) (d : Derived) (read : String → Tree) : Prop :=
  ∀ v : SystemVariable, v.Anchored read → (∀ u : SystemVariable, u.Supports v → u.name ∉ stale) →
    d.Grounded read v

theorem Grounded.settled (h : d.Grounded read v) : d.Settled read v := h v (.refl v)

theorem SettledBut.settled (h : SettledBut [] d read) (v : SystemVariable) : d.Settled read v :=
  (h v fun _ _ => List.not_mem_nil).settled

theorem settledBut_nil (h : ∀ v, d.Settled read v) : SettledBut [] d read := fun _ _ u _ => h u

theorem AnchoredSettledBut.settled (h : AnchoredSettledBut [] d read) {v : SystemVariable}
    (hv : v.Anchored read) : d.Settled read v :=
  (h v hv fun _ _ => List.not_mem_nil).settled

theorem AnchoredSettledBut.write (h : AnchoredSettledBut [] d read)
    (hread : ∀ m, m ∉ names → read' m = read m) : AnchoredSettledBut names d read' := by
  intro v hv hnames u hu
  have hanchored : v.Anchored read := fun x hx => hread x.name (hnames x hx) ▸ hv x hx
  rw [Settled, hread u.name (hnames u hu)]
  exact h.settled (hanchored.of_supports hu)

theorem fresh_settled (dpi : Int) (mode : InactiveMode) (v : SystemVariable) :
    (fresh dpi mode).Settled (fun _ => .uninit) v := by
  cases v <;> rfl

theorem SettledBut.withMode (h : SettledBut [] d read) (mode : InactiveMode) :
    SettledBut [SystemVariable.inactiveMode.name] { d with defaultInactiveMode := mode } read := by
  intro v hv u hu
  have hne : u ≠ .inactiveMode := fun e => hv u hu (e ▸ List.mem_singleton_self _)
  have hu := h.settled u
  cases u <;> first | exact hu | exact absurd rfl hne

theorem apply_settled (h : d.Settled read v) : d.apply v (read v.name) = d := by
  unfold apply
  rw [← h, setField_field]

theorem decode_apply (hv : v.Orderly (read v.name)) (d : Derived) (value : Tree)
    (h : w.affectsUnits → v.rank ≤ w.rank) :
    (d.apply w value).decode v (read v.name) = d.decode v (read v.name) := by
  refine decode_congr (dpi_setField d w _) (defaultInactiveMode_setField d w _) hv ?_
  intro unit hunit
  exact size_setField d w _ unit fun hw => Nat.lt_of_lt_of_le hunit (h hw)

theorem Settled.apply (hv : v.Orderly (read v.name)) (h : d.Settled read v) (hw : ¬ w.Supports v)
    (value : Tree) : (d.apply w value).Settled read v := by
  obtain ⟨hne, hrank⟩ := not_or.1 hw
  have hfield : (d.apply w value).field v = d.field v := field_setField_ne d (Ne.symm hne) _
  rw [Settled, hfield, decode_apply hv d value fun ha => Nat.le_of_not_lt fun hlt => hrank ⟨ha, hlt⟩]
  exact h

section Anchored

variable (hv : v.Anchored read)

include hv

theorem Grounded.apply (h : d.Grounded read v) (w : SystemVariable) :
    (d.apply w (read w.name)).Grounded read v := by
  by_cases hw : w.Supports v
  · rw [apply_settled (h w hw)]
    exact h
  · exact fun u hu => (h u hu).apply (hv u hu) (fun hwu => hw (hwu.trans hu)) _

theorem Grounded.applyAll (h : d.Grounded read v) (vs : List SystemVariable) :
    (d.applyAll vs read).Grounded read v := by
  induction vs generalizing d with
  | nil => exact h
  | cons w vs ih => exact ih (h.apply hv w)

theorem grounded_apply (h : ∀ u, u.Supports v → u ≠ v → d.Settled read u) :
    (d.apply v (read v.name)).Grounded read v := by
  intro u hu
  by_cases hne : u = v
  · subst hne
    have hfield : (d.apply u (read u.name)).field u = d.decode u (read u.name) := field_setField d u _
    rw [Settled, hfield, decode_apply (hv u hu) d _ fun _ => Nat.le_refl _]
  · exact (h u hu hne).apply (hv u hu) (fun hvu => hne (hu.antisymm hvu)) _

theorem grounded_applyAll (hvs : vs.Pairwise (·.rank ≤ ·.rank))
    (h : ∀ u, u.Supports v → u ∈ vs ∨ d.Grounded read u) : (d.applyAll vs read).Grounded read v := by
  -- The variables that remain are taken over with the lowest in rank first.
  induction vs generalizing d with
  | nil => exact (h v (.refl v)).resolve_left List.not_mem_nil
  | cons w vs ih =>
    obtain ⟨hw, hvs⟩ := List.pairwise_cons.1 hvs
    refine ih hvs fun u hu => ?_
    rcases h u hu with hmem | hground
    · rcases List.mem_cons.1 hmem with rfl | hmem
      · -- Nothing that supports the first variable can come later.
        refine .inr (grounded_apply (hv.of_supports hu) fun x hx hne => ?_)
        refine ((h x (hx.trans hu)).resolve_left fun hmem => ?_).settled
        obtain hlt := (hx.resolve_left hne).2
        rcases List.mem_cons.1 hmem with rfl | hmem
        · exact hne rfl
        · exact Nat.not_le_of_lt hlt (hw x hmem)
      · exact .inl hmem
    · exact .inr (hground.apply (hv.of_supports hu) w)

theorem settled_applyAll_of_mem (hrank : v.rank = 0) (hmem : v ∈ vs) :
    (d.applyAll vs read).Grounded read v := by
  induction vs generalizing d with
  | nil => cases hmem
  | cons w vs ih =>
    rcases List.mem_cons.1 hmem with rfl | hmem
    · refine Grounded.applyAll hv (grounded_apply hv fun u hu hne => ?_) vs
      exact absurd (hu.resolve_left hne).2 (hrank ▸ Nat.not_lt_zero _)
    · exact ih hmem

theorem updateAll_grounded (d : Derived) (order : Order) : (d.updateAll order read).Grounded read v := by
  refine grounded_applyAll hv unitDependent_ordered fun u hu => ?_
  by_cases hrank : u.rank = 0
  · exact .inr (settled_applyAll_of_mem (hv.of_supports hu) hrank (order.mem u))
  · exact .inl (mem_unitDependent (Nat.pos_of_ne_zero hrank))

end Anchored

theorem AnchoredSettledBut.update (h : AnchoredSettledBut (n :: stale) d read) :
    AnchoredSettledBut stale (d.update n read) read := by
  intro v hanchored hv
  cases hn : ofName? n with
  | none =>
    rw [show d.update n read = d by simp only [Derived.update, hn]]
    refine h v hanchored fun u hu => List.not_mem_cons_of_ne_of_not_mem (fun e => ?_) (hv u hu)
    rw [← e, ofName?_name] at hn
    cases hn
  | some w =>
    obtain rfl := name_of_ofName? hn
    let vs := if w.affectsUnits then unitDependent.filter (· ≠ w) else []
    have hupdate : d.update w.name read = (d.apply w (read w.name)).applyAll vs read := by
      simp only [Derived.update, hn, vs]
      by_cases hw : w.affectsUnits
      · simp only [if_pos hw]
      · simp only [if_neg hw]
        rfl
    have hvs : vs.Pairwise (·.rank ≤ ·.rank) := by
      by_cases hw : w.affectsUnits
      · simpa only [vs, if_pos hw] using unitDependent_ordered.filter _
      · simp only [vs, if_neg hw, List.Pairwise.nil]
    -- What the variable does not support was grounded before.
    have hother (u : SystemVariable) (hu : u.Supports v) (hw : ¬ w.Supports u) : d.Grounded read u := by
      refine h u (hanchored.of_supports hu) fun x hx =>
        List.not_mem_cons_of_ne_of_not_mem (fun e => ?_) (hv x (hx.trans hu))
      exact hw (name_injective e ▸ hx)
    rw [hupdate]
    refine grounded_applyAll hanchored hvs fun u hu => ?_
    by_cases hw : w.Supports u
    · rcases hw with rfl | ⟨ha, hlt⟩
      · refine .inr (grounded_apply (hanchored.of_supports hu) fun x hx hne => ?_)
        exact (hother x (hx.trans hu) fun hwx => hne (hx.antisymm hwx)).settled
      · left
        have hu' : u ∈ unitDependent := mem_unitDependent (Nat.zero_lt_of_lt hlt)
        have hne : u ≠ w := fun e => Nat.lt_irrefl _ (e ▸ hlt)
        simp only [vs, if_pos ha, List.mem_filter]
        exact ⟨hu', decide_eq_true hne⟩
    · exact .inr ((hother u hu hw).apply (hanchored.of_supports hu) w)

theorem updateAll_anchored (d : Derived) (order : Order) :
    AnchoredSettledBut [] (d.updateAll order read) read :=
  fun _ hv _ => updateAll_grounded hv d order

variable (hr : ∀ v : SystemVariable, v.Orderly (read v.name))

include hr

theorem SettledBut.update (h : SettledBut (n :: stale) d read) :
    SettledBut stale (d.update n read) read := by
  have hanchored : AnchoredSettledBut (n :: stale) d read := fun v _ hv => h v hv
  exact fun v hv => hanchored.update v (fun u _ => hr u) hv

theorem eq_of_settled {d' : Derived} (hdpi : d'.dpi = d.dpi)
    (hmode : d'.defaultInactiveMode = d.defaultInactiveMode) (h : ∀ v, d.Settled read v)
    (h' : ∀ v, d'.Settled read v) : d' = d := by
  have hfield (n : Nat) : ∀ v : SystemVariable, v.rank = n → d'.field v = d.field v := by
    induction n using Nat.strongRecOn with
    | ind n ih =>
      intro v hv
      rw [h v, h' v]
      refine decode_congr hdpi hmode (hr v) fun unit hunit => ?_
      refine size_eq_of_field hdpi unit fun u _ hu => ih u.rank ?_ u rfl
      omega
  exact ext_field hdpi hmode fun v => hfield v.rank v rfl

end Derived

end Typesetter

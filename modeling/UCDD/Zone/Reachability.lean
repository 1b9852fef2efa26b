import UCDD.Lib.SymbolicRun
import UCDD.Zone.TransitionBack

/-!
# Reachability

`cdd_delay_invariant` and `cdd_transition_back_past` of `cppext.cpp:275–280, 658–664`, and what
the symbolic operations compute along a path of transitions and delays: forward from a state, the
valuations that runs of the path lead to; backward from a target, those from which they do.
-/

namespace UCDD

open DdNode Loop SymbolicRun

/-- `cdd_delay_invariant`. -/
def cddDelayInvariant (L : Library) (U : Udbm) (fuel : ℕ) (state invar : DdNode) : Run DdNode := do
  let res ← cddDelay L U fuel state
  return cddAnd L res invar

/-- `cdd_transition_back_past`. -/
def cddTransitionBackPast (L : Library) (U : Udbm) (E : OpCaches) (fuel : ℕ)
    (state guard update : DdNode) (clockResets boolResets : List ℕ) : Run DdNode := do
  let result ← cddTransitionBack L U E fuel state guard update clockResets boolResets
  cddPast L U fuel result

/-- A transition, or a delay that ends in an invariant. -/
inductive Move where
  | transition (guard : DdNode) (clockResets boolResets : List (ℕ × ℤ))
  | delay (invar : DdNode)

namespace Move

/-- At the valuation `v` the move leads to `w`. -/
def Takes (L : Library) : Move → Valuation → Valuation → Prop
  | transition guard clockResets boolResets, v, w => L.Steps guard clockResets boolResets v w
  | delay invar, v, w =>
    v.NonNegative L ∧ Delays v.clock w.clock ∧ w.bool = v.bool ∧ Holds L w invar

/-- The operation that follows the move forward. -/
def forward (L : Library) (U : Udbm) (E : OpCaches) : Move → ℕ → DdNode → Run DdNode
  | transition guard clockResets boolResets, fuel, state =>
    cddTransition L U E fuel state guard clockResets boolResets
  | delay invar, fuel, state => cddDelayInvariant L U fuel state invar

/-- The operation that follows the move backward. -/
def backward (L : Library) (U : Udbm) (E : OpCaches) : Move → ℕ → DdNode → Run DdNode
  | transition guard clockResets boolResets, fuel, state =>
    cddTransitionBack L U E fuel state guard (updateCdd L clockResets boolResets)
      (clockResets.map (·.1)) (boolResets.map (·.1))
  | delay invar, fuel, state => cddPast L U fuel (cddAnd L state invar)

/-- The diagrams are proper, and the resets are of distinct clocks, to values that are not
negative, and of distinct Booleans. -/
def Legal (L : Library) : Move → Prop
  | transition guard clockResets boolResets => L.Proper guard ∧ L.ClockResets clockResets ∧
      (∀ r ∈ clockResets, 0 ≤ r.2) ∧ (clockResets.map (·.1)).Nodup ∧ L.BoolResets boolResets
  | delay invar => L.Proper invar

end Move

/-- A proper diagram that holds at non-negative valuations only. -/
structure Library.State (L : Library) (d : DdNode) : Prop where
  proper : L.Proper d
  nonNegative : NonNegativeOnly L d

/-- The valuations of a diagram. -/
abbrev Library.HoldsAt (L : Library) (d : DdNode) (v : Valuation) : Prop := Holds L v d

/-- The diagram bounds the clocks. -/
def Library.Bounded (L : Library) (d : DdNode) : Prop := ∃ M, BoundedBy L M d

/-- The invariant of a delay bounds the clocks. -/
def Move.InvarBounded (L : Library) : Move → Prop
  | .transition .. => True
  | .delay invar => L.Bounded invar

/-- The guard of a transition bounds the clocks. -/
def Move.GuardBounded (L : Library) : Move → Prop
  | .transition guard _ _ => L.Bounded guard
  | .delay _ => True

section

variable {L : Library} {U : Udbm} {E : OpCaches} {op : Dbm → Dbm} {d guard invar copy : DdNode}
  {clockResets boolResets : List (ℕ × ℤ)} {v w : Valuation}

/-! ### Larger bounds -/

theorem splitLoop_le {n m : ℕ} (h : n ≤ m) (d : DdNode) :
    Run.Le (splitLoop L U op n d) (splitLoop L U op m d) := by
  unfold splitLoop
  exact (iterate_le (fun s ↦ Run.Le.refl _) h _).bind fun s ↦ Run.Le.refl _

theorem delayWith_le {n m : ℕ} (h : n ≤ m) (d : DdNode) :
    Run.Le (delayWith L U op n d) (delayWith L U op m d) := by
  unfold delayWith
  split
  · exact Run.Le.refl _
  · split
    · exact Run.Le.refl _
    · exact splitLoop_le h d

theorem cddTransition_le {n m : ℕ} (h : n ≤ m) (d : DdNode) :
    Run.Le (cddTransition L U E n d guard clockResets boolResets)
      (cddTransition L U E m d guard clockResets boolResets) := by
  unfold cddTransition cddApplyReset
  apply (Run.Le.refl _).bind
  intro copy
  split
  · exact Run.Le.refl _
  · split
    · exact Run.Le.refl _
    · split
      · exact Run.Le.refl _
      · exact splitLoop_le h copy

theorem cddTransitionBack_le {n m : ℕ} (h : n ≤ m) (d update : DdNode) (ks ls : List ℕ) :
    Run.Le (cddTransitionBack L U E n d guard update ks ls)
      (cddTransitionBack L U E m d guard update ks ls) := by
  unfold cddTransitionBack
  simp only
  split
  · exact Run.Le.refl _
  · apply (Run.Le.refl _).bind
    intro copy
    split
    · exact Run.Le.refl _
    · split
      · exact Run.Le.refl _
      · exact (splitLoop_le h _).bind fun r ↦ Run.Le.refl _

/-! ### Valuations -/

theorem BoundedBy.and_left {M : ℕ} {e : DdNode} (hd : L.WF d) (he : L.WF e)
    (h : BoundedBy L M d) : BoundedBy L M (cddAnd L d e) :=
  fun v hv ↦ h v ((holds_cddAnd hd he).mp hv).1

theorem resetAll_le {dim M : ℕ} {resets : List (ℕ × ℤ)} {x : ℕ → ℝ}
    (h0 : ∀ r ∈ resets, r.1 ≠ 0) (h : ∀ i < dim, x i ≤ x 0 + M) :
    ∀ i < dim, resetAll x resets i ≤ x 0 + (M + (resets.map fun r ↦ r.2.toNat).sum : ℕ) := by
  induction resets generalizing x M with
  | nil =>
    intro i hi
    show x i ≤ _
    simpa using h i hi
  | cons r resets ih =>
    obtain ⟨hr, h0⟩ := List.forall_mem_cons.mp h0
    intro i hi
    have hzero : resetTo x r.1 r.2 0 = x 0 := Function.update_of_ne hr.symm _ _
    have hle : (r.2 : ℝ) ≤ (r.2.toNat : ℝ) := by exact_mod_cast Int.self_le_toNat r.2
    have hone : ∀ j < dim, resetTo x r.1 r.2 j ≤ resetTo x r.1 r.2 0 + (M + r.2.toNat : ℕ) := by
      intro j hj
      rw [hzero]
      push_cast
      by_cases hjr : j = r.1
      · rw [hjr, resetTo, Function.update_self]
        have hM : (0 : ℝ) ≤ M := Nat.cast_nonneg M
        linarith
      · rw [resetTo, Function.update_of_ne hjr]
        have hpos : (0 : ℝ) ≤ r.2.toNat := Nat.cast_nonneg _
        linarith [h j hj]
    have hrest := ih h0 hone i hi
    rw [hzero] at hrest
    rw [List.map_cons, List.sum_cons, ← add_assoc]
    exact hrest

theorem nonNegative_of_steps (hclock : L.ClockResets clockResets)
    (hvalue : ∀ r ∈ clockResets, 0 ≤ r.2) (h : L.Steps guard clockResets boolResets v w) :
    w.NonNegative L := by
  have horth : resetAll v.clock clockResets ∈ orthant L.clocknum :=
    resetAll_mem_orthant (fun r hr ↦ ⟨(hclock r hr).1, hvalue r hr⟩) h.nonNegative
  intro i hi
  rw [h.clock i hi, h.clock 0 (by omega)]
  exact horth i hi

theorem nonNegative_of_delays {x y : ℕ → ℝ} {dim : ℕ} (hx : x ∈ orthant dim) (h : Delays x y) :
    y ∈ orthant dim := by
  obtain ⟨t, ht, rfl⟩ := h
  intro i hi
  have hle := hx i hi
  simp only [delayBy, if_true]
  split
  · exact le_rfl
  · linarith

/-! ### Forward -/

variable (hL : L.Declared) (hlen : L.levelinfo.length ≤ maxLevel) (hCF : L.ClocksFirst)
  (hclocks : 2 ≤ L.clocknum) (hU : U.Exact L.clocknum)

include hL hlen hCF hclocks hU

/-- The loop on a state that holds somewhere. -/
theorem splitLoop_posts {R : (ℕ → ℝ) → (ℕ → ℝ) → Prop} (hop : U.Maps L.clocknum op R)
    (hd : L.State d) (hsat : Satisfiable L d) (fuel : ℕ) :
    Run.Safe (fun r ↦ L.Proper r ∧ IsImage L R d r) (splitLoop L U op fuel d) :=
  (splitLoop_spec hL hlen hCF hU hop hclocks hd.proper hd.nonNegative fun _ ↦ hsat).1 fuel

theorem delayWith_posts {R : (ℕ → ℝ) → (ℕ → ℝ) → Prop} (hop : U.Maps L.clocknum op R)
    (hd : L.State d) (hsat : Satisfiable L d) :
    (∀ fuel, Run.Safe (fun r ↦ L.Proper r ∧ IsImage L R d r) (delayWith L U op fuel d)) ∧
      (L.Bounded d → ∃ fuel r, delayWith L U op fuel d = .done r) := by
  have htop := isCdd_of_satisfiable hCF hclocks hd.proper.wf hd.nonNegative hsat
  have heq (fuel : ℕ) : delayWith L U op fuel d = splitLoop L U op fuel d :=
    delayWith_eq hd.proper.wf (isCddNode_of_isCdd hlen hd.proper.wf htop) fuel
  obtain ⟨hsafe, hreturns⟩ := splitLoop_spec hL hlen hCF hU hop hclocks hd.proper hd.nonNegative
    fun _ ↦ hsat
  constructor
  · intro fuel
    rw [heq]
    exact hsafe fuel
  · rintro ⟨M, hM⟩
    obtain ⟨fuel, r, hr⟩ := hreturns M hM
    exact ⟨fuel, r, (heq fuel).trans hr⟩

theorem cddTransition_proper (hd : L.State d) (hg : L.Proper guard)
    (hclock : L.ClockResets clockResets) (hvalue : ∀ r ∈ clockResets, 0 ≤ r.2)
    (hbool : L.BoolResets boolResets) (hsat : Satisfiable L (cddAnd L d guard)) (fuel : ℕ) :
    Run.Safe L.Proper (cddTransition L U E fuel d guard clockResets boolResets) := by
  obtain ⟨copy, hrun, hcopy⟩ := resetBools_spec hL hlen E (hd.proper.and hg) hbool
  rw [cddTransition, cddApplyReset_eq hrun]
  split
  · have hop := maps_updateValue hU fun r hr ↦ ⟨hclock r hr, hvalue r hr⟩
    have hcopysat : Satisfiable L copy := by
      obtain ⟨v, hv⟩ := hsat
      apply hcopy.satisfiable.mpr
      exact ⟨v, hv, hd.nonNegative v ((holds_cddAnd hd.proper.wf hg.wf).mp hv).1⟩
    apply (splitLoop_posts hL hlen hCF hclocks hU hop ⟨hcopy.proper, hcopy.nonNegativeOnly⟩
      hcopysat fuel).mono
    intro r hr
    exact hr.1
  · exact hcopy.proper

/-- A transition forward from a state where it can be taken. -/
theorem cddTransition_posts (hd : L.State d) (hg : L.Proper guard)
    (hclock : L.ClockResets clockResets) (hvalue : ∀ r ∈ clockResets, 0 ≤ r.2)
    (hbool : L.BoolResets boolResets)
    (hfeasible : Feasible L.HoldsAt (L.Steps guard clockResets boolResets) d) :
    (∀ fuel, Run.Safe
        (fun r ↦ L.State r ∧ Post L.HoldsAt (L.Steps guard clockResets boolResets) d r)
        (cddTransition L U E fuel d guard clockResets boolResets)) ∧
      (L.Bounded d → ∃ fuel r, cddTransition L U E fuel d guard clockResets boolResets = .done r ∧
        L.Bounded r) := by
  obtain ⟨copy, hrun, hcopy⟩ := resetBools_spec hL hlen E (hd.proper.and hg) hbool
  obtain ⟨v₀, w₀, hv₀, hstep⟩ := hfeasible
  have hand : Holds L v₀ (cddAnd L d guard) :=
    (holds_cddAnd hd.proper.wf hg.wf).mpr ⟨hv₀, hstep.guard⟩
  have hdelivers := cddApplyReset_delivers hL hlen hCF hU hrun hcopy hclock hvalue
    (Or.inr (Or.inl ⟨v₀, hand, hstep.nonNegative⟩))
  have hsafe (fuel : ℕ) : Run.Safe
      (fun r ↦ L.State r ∧ Post L.HoldsAt (L.Steps guard clockResets boolResets) d r)
      (cddTransition L U E fuel d guard clockResets boolResets) := by
    have hproper := cddTransition_proper (E := E) hL hlen hCF hclocks hU hd hg hclock hvalue hbool
      ⟨v₀, hand⟩ fuel
    apply (hproper.and (hdelivers.safe fuel)).mono
    rintro r ⟨hr, himage⟩
    have hpost : Post L.HoldsAt (L.Steps guard clockResets boolResets) d r := by
      intro w
      exact (himage w).trans (image_steps hd.proper.wf hg.wf hcopy w).symm
    refine ⟨⟨hr, ?_⟩, hpost⟩
    intro w hw
    obtain ⟨v, -, hvw⟩ := (hpost w).mp hw
    exact nonNegative_of_steps hclock hvalue hvw
  refine ⟨hsafe, ?_⟩
  rintro ⟨M, hM⟩
  obtain ⟨fuel, r, hr⟩ := hdelivers.returns M (hM.and_left hd.proper.wf hg.wf)
  refine ⟨fuel, r, hr, M + (clockResets.map fun r ↦ r.2.toNat).sum, ?_⟩
  have hpost := hsafe fuel
  rw [cddTransition, hr] at hpost
  intro w hw i hi
  obtain ⟨v, hv, hvw⟩ := (hpost.2 w).mp hw
  have h0 : ∀ r ∈ clockResets, r.1 ≠ 0 := fun r hr ↦ (hclock r hr).1
  rw [hvw.clock i hi, hvw.clock 0 (by omega), resetAll_zero h0]
  exact resetAll_le h0 (hM v hv) i hi

/-- A delay forward into an invariant. -/
theorem cddDelayInvariant_posts (hd : L.State d) (hi : L.Proper invar)
    (hsat : Satisfiable L d) :
    (∀ fuel, Run.Safe
        (fun r ↦ L.State r ∧ Post L.HoldsAt ((Move.delay invar).Takes L) d r)
        (cddDelayInvariant L U fuel d invar)) ∧
      (L.Bounded d → ∃ fuel r, cddDelayInvariant L U fuel d invar = .done r) := by
  obtain ⟨hsafe, hreturns⟩ := delayWith_posts hL hlen hCF hclocks hU hU.up hd hsat
  constructor
  · intro fuel
    apply (hsafe fuel).bind
    rintro r ⟨hr, himage⟩
    have hpost : Post L.HoldsAt ((Move.delay invar).Takes L) d (cddAnd L r invar) := by
      intro w
      rw [Library.HoldsAt, holds_cddAnd hr.wf hi.wf, himage]
      constructor
      · rintro ⟨⟨x, hx, hdelay⟩, hw⟩
        exact ⟨⟨x, w.bool⟩, hx, hd.nonNegative _ hx, hdelay, rfl, hw⟩
      · rintro ⟨v, hv, -, hdelay, hbool, hw⟩
        refine ⟨⟨v.clock, ?_, hdelay⟩, hw⟩
        rw [hbool]
        exact hv
    refine ⟨⟨hr.and hi, ?_⟩, hpost⟩
    intro w hw
    obtain ⟨v, -, hnn, hdelay, -⟩ := (hpost w).mp hw
    exact nonNegative_of_delays hnn hdelay
  · intro hM
    obtain ⟨fuel, r, hr⟩ := hreturns hM
    refine ⟨fuel, cddAnd L r invar, ?_⟩
    rw [cddDelayInvariant, cddDelay, hr]
    rfl

/-! ### Backward -/

/-- What `cdd_transition_back` returns, where the loop starts from a diagram that holds
somewhere. -/
theorem cddTransitionBack_state (hd : L.State d) (hg : L.Proper guard)
    (hclock : L.ClockResets clockResets) (hbool : L.BoolResets boolResets)
    (hsat : NonNegativeSatisfiable L (cddAnd L d (updateCdd L clockResets boolResets)))
    (fuel : ℕ) :
    Run.Safe L.State (cddTransitionBack L U E fuel d guard (updateCdd L clockResets boolResets)
      (clockResets.map (·.1)) (boolResets.map (·.1))) := by
  obtain ⟨hpu, -⟩ := eval_updateCdd hL hlen hclock hbool
  have hne : cddAnd L d (updateCdd L clockResets boolResets) ≠ cddfalse := by
    intro h
    obtain ⟨v, hv, -⟩ := hsat
    rw [h] at hv
    exact not_holds_cddfalse hv
  have hstate {r : DdNode} (hr : L.State r) : L.State (cddAnd L r guard) :=
    ⟨hr.proper.and hg, fun v hv ↦ hr.nonNegative v ((holds_cddAnd hr.proper.wf hg.wf).mp hv).1⟩
  by_cases hnil : clockResets = []
  · obtain ⟨copy, hexist, hq⟩ := existBools_spec hL E (hd.proper.and hpu) (boolResets.map (·.1))
    have hcopy : L.State copy := by
      refine ⟨hq.proper, ?_⟩
      intro v hv
      obtain ⟨b, -, hb⟩ := (hq.holds_iff v).mp hv
      exact hd.nonNegative ⟨v.clock, b⟩ ((holds_cddAnd hd.proper.wf hpu.wf).mp hb).1
    have hlength : (clockResets.map (·.1)).length = 0 := by
      rw [hnil]
      rfl
    rw [cddTransitionBack, if_neg hne, hexist, Run.done_bind, if_pos hlength]
    exact hstate hcopy
  · obtain ⟨copy, hcopy, hrun⟩ :=
      exists_backCopy U E guard hL hlen hd.proper hclock hbool hnil hne hCF
    have hcopysat : Satisfiable L copy := by
      apply (hcopy.satisfiable hL hlen hclock hbool _).mpr hsat
      intro w hw
      exact ((holds_cddAnd hd.proper.wf hpu.wf).mp hw).2
    rw [hrun fuel]
    apply (splitLoop_posts hL hlen hCF hclocks hU (maps_freeResets hU hclock)
      ⟨hcopy.proper, hcopy.nonNegativeOnly⟩ hcopysat fuel).bind
    rintro r ⟨hr, himage⟩
    apply hstate
    refine ⟨hr, ?_⟩
    intro v hv
    obtain ⟨x, hx, hfree⟩ := (himage v).mp hv
    apply hfree.mem_orthant _ (hcopy.nonNegativeOnly _ hx)
    intro h0
    obtain ⟨r, hr, hr0⟩ := List.mem_map.mp h0
    exact (hclock r hr).1 hr0

/-- A transition backward from a state that it leads to. -/
theorem cddTransitionBack_posts (hd : L.State d) (hg : L.Proper guard)
    (hclock : L.ClockResets clockResets) (hnodup : (clockResets.map (·.1)).Nodup)
    (hbool : L.BoolResets boolResets)
    (hfeasible : Feasible L.HoldsAt (fun w v ↦ L.Steps guard clockResets boolResets v w) d) :
    (∀ fuel, Run.Safe (fun r ↦ L.State r ∧
          Post L.HoldsAt (fun w v ↦ L.Steps guard clockResets boolResets v w) d r)
        (cddTransitionBack L U E fuel d guard (updateCdd L clockResets boolResets)
          (clockResets.map (·.1)) (boolResets.map (·.1)))) ∧
      (L.Bounded d → ∃ fuel r, cddTransitionBack L U E fuel d guard
        (updateCdd L clockResets boolResets) (clockResets.map (·.1)) (boolResets.map (·.1)) =
          .done r) := by
  obtain ⟨hpu, -⟩ := eval_updateCdd hL hlen hclock hbool
  obtain ⟨w₀, v₀, hw₀, hstep⟩ := hfeasible
  obtain ⟨-, -, hreset⟩ := (exists_steps_iff hL).mp ⟨w₀, hstep, hw₀⟩
  have hsat : NonNegativeSatisfiable L (cddAnd L d (updateCdd L clockResets boolResets)) :=
    ⟨_, (holds_cddAnd hd.proper.wf hpu.wf).mpr
      ⟨hreset, holds_updateCdd_reset hL hlen hclock hnodup hbool v₀⟩, hd.nonNegative _ hreset⟩
  have hne : cddAnd L d (updateCdd L clockResets boolResets) ≠ cddfalse := by
    intro h
    obtain ⟨v, hv, -⟩ := hsat
    rw [h] at hv
    exact not_holds_cddfalse hv
  have hdelivers : Delivers L (cddAnd L d (updateCdd L clockResets boolResets))
      (IsPreimage L d guard clockResets boolResets)
      (cddTransitionBack L U E · d guard (updateCdd L clockResets boolResets)
        (clockResets.map (·.1)) (boolResets.map (·.1))) := by
    by_cases hnil : clockResets = []
    · exact cddTransitionBack_nil hL hlen hd.proper hg hclock hnodup hbool hne hnil
    · exact (cddTransitionBack_loop hL hlen hCF hU hd.proper hg hclock hnodup hbool hne
        hnil).mpr (Or.inl hsat)
  constructor
  · intro fuel
    have hstate := cddTransitionBack_state (E := E) hL hlen hCF hclocks hU hd hg hclock hbool hsat
      fuel
    apply (hstate.and (hdelivers.safe fuel)).mono
    rintro r ⟨hr, hpre⟩
    refine ⟨hr, ?_⟩
    intro v
    constructor
    · intro hv
      obtain ⟨w, hvw, hw⟩ := (hpre v (hr.nonNegative v hv)).mp hv
      exact ⟨w, hw, hvw⟩
    · rintro ⟨w, hw, hvw⟩
      exact (hpre v hvw.nonNegative).mpr ⟨w, hvw, hw⟩
  · rintro ⟨M, hM⟩
    exact hdelivers.returns M (hM.and_left hd.proper.wf hpu.wf)

/-- A delay backward from an invariant. -/
theorem cddPast_posts (hd : L.State d) (hi : L.Proper invar)
    (hsat : Satisfiable L (cddAnd L d invar)) :
    (∀ fuel, Run.Safe
        (fun r ↦ L.State r ∧ Post L.HoldsAt (fun w v ↦ (Move.delay invar).Takes L v w) d r)
        (cddPast L U fuel (cddAnd L d invar))) ∧
      (L.Bounded d → ∃ fuel r, cddPast L U fuel (cddAnd L d invar) = .done r ∧ L.Bounded r) := by
  have hand : L.State (cddAnd L d invar) :=
    ⟨hd.proper.and hi, fun v hv ↦ hd.nonNegative v ((holds_cddAnd hd.proper.wf hi.wf).mp hv).1⟩
  obtain ⟨hsafe, hreturns⟩ := delayWith_posts hL hlen hCF hclocks hU hU.down hand hsat
  have hposts (fuel : ℕ) : Run.Safe
      (fun r ↦ L.State r ∧ Post L.HoldsAt (fun w v ↦ (Move.delay invar).Takes L v w) d r)
      (cddPast L U fuel (cddAnd L d invar)) := by
    apply (hsafe fuel).mono
    rintro r ⟨hr, himage⟩
    have hpost : Post L.HoldsAt (fun w v ↦ (Move.delay invar).Takes L v w) d r := by
      intro v
      rw [Library.HoldsAt, himage]
      constructor
      · rintro ⟨x, hx, hv, hdelay⟩
        obtain ⟨hx, hinvar⟩ := (holds_cddAnd hd.proper.wf hi.wf).mp hx
        exact ⟨⟨x, v.bool⟩, hx, hv, hdelay, rfl, hinvar⟩
      · rintro ⟨w, hw, hv, hdelay, hbool, hinvar⟩
        refine ⟨w.clock, ?_, hv, hdelay⟩
        rw [← hbool]
        exact (holds_cddAnd hd.proper.wf hi.wf).mpr ⟨hw, hinvar⟩
    refine ⟨⟨hr, ?_⟩, hpost⟩
    intro v hv
    obtain ⟨w, -, hnn, -⟩ := (hpost v).mp hv
    exact hnn
  refine ⟨hposts, ?_⟩
  rintro ⟨M, hM⟩
  obtain ⟨fuel, r, hr⟩ := hreturns ⟨M, hM.and_left hd.proper.wf hi.wf⟩
  refine ⟨fuel, r, hr, M, ?_⟩
  have hpost := hposts fuel
  rw [cddPast, hr] at hpost
  intro v hv i hi
  obtain ⟨w, hw, -, ⟨t, ht, hdelay⟩, -⟩ := (hpost.2 v).mp hv
  have hle := hM w hw i hi
  rw [hdelay] at hle
  simp only [delayBy, if_true] at hle
  split at hle
  · next h0 =>
    rw [h0]
    exact hle
  · linarith

end

/-! ### Paths -/

section

variable {L : Library} {U : Udbm} {E : OpCaches}
  (hL : L.Declared) (hlen : L.levelinfo.length ≤ maxLevel) (hCF : L.ClocksFirst)
  (hclocks : 2 ≤ L.clocknum) (hU : U.Exact L.clocknum)

include hL hlen hCF hclocks hU

/-- A move forward is exact. -/
theorem forward_posts {move : Move} (hmove : move.Legal L) :
    Posts L.HoldsAt L.State (move.Takes L) (move.forward L U E) := by
  cases move with
  | transition guard clockResets boolResets =>
    obtain ⟨hg, hclock, hvalue, -, hbool⟩ := hmove
    constructor
    · intro d hd hfeasible
      exact (cddTransition_posts hL hlen hCF hclocks hU hd hg hclock hvalue hbool hfeasible).1
    · intro n m h d
      exact cddTransition_le h d
  | delay invar =>
    constructor
    · intro d hd hfeasible
      obtain ⟨v, -, hv, -⟩ := hfeasible
      exact (cddDelayInvariant_posts hL hlen hCF hclocks hU hd hmove ⟨v, hv⟩).1
    · intro n m h d
      exact (delayWith_le h d).bind fun r ↦ Run.Le.refl _

theorem forward_returns {move : Move} (hmove : move.Legal L) (hinvar : move.InvarBounded L) :
    Returns L.HoldsAt L.State L.Bounded (move.Takes L) (move.forward L U E) := by
  cases move with
  | transition guard clockResets boolResets =>
    obtain ⟨hg, hclock, hvalue, -, hbool⟩ := hmove
    intro d hd hM hfeasible
    exact (cddTransition_posts hL hlen hCF hclocks hU hd hg hclock hvalue hbool hfeasible).2 hM
  | delay invar =>
    intro d hd hM hfeasible
    obtain ⟨v, -, hv, -⟩ := hfeasible
    obtain ⟨hsafe, hreturns⟩ :=
      cddDelayInvariant_posts hL hlen hCF hclocks hU hd hmove ⟨v, hv⟩
    obtain ⟨fuel, r, hr⟩ := hreturns hM
    refine ⟨fuel, r, hr, ?_⟩
    have hpost := hsafe fuel
    rw [hr] at hpost
    obtain ⟨M, hinvar⟩ := hinvar
    refine ⟨M, fun w hw ↦ hinvar w ?_⟩
    obtain ⟨v, -, -, -, -, hw⟩ := (hpost.2 w).mp hw
    exact hw

/-- A move backward is exact. -/
theorem backward_posts {move : Move} (hmove : move.Legal L) :
    Posts L.HoldsAt L.State (fun w v ↦ move.Takes L v w) (move.backward L U E) := by
  cases move with
  | transition guard clockResets boolResets =>
    obtain ⟨hg, hclock, -, hnodup, hbool⟩ := hmove
    constructor
    · intro d hd hfeasible
      exact (cddTransitionBack_posts hL hlen hCF hclocks hU hd hg hclock hnodup hbool
        hfeasible).1
    · intro n m h d
      exact cddTransitionBack_le h d _ _ _
  | delay invar =>
    constructor
    · intro d hd hfeasible
      obtain ⟨w, v, hw, hvw⟩ := hfeasible
      apply (cddPast_posts hL hlen hCF hclocks hU hd hmove ⟨w, ?_⟩).1
      exact (holds_cddAnd hd.proper.wf hmove.wf).mpr ⟨hw, hvw.2.2.2⟩
    · intro n m h d
      exact delayWith_le h _

theorem backward_returns {move : Move} (hmove : move.Legal L) (hguard : move.GuardBounded L) :
    Returns L.HoldsAt L.State L.Bounded (fun w v ↦ move.Takes L v w)
      (move.backward L U E) := by
  cases move with
  | transition guard clockResets boolResets =>
    obtain ⟨hg, hclock, -, hnodup, hbool⟩ := hmove
    intro d hd hM hfeasible
    obtain ⟨hsafe, hreturns⟩ := cddTransitionBack_posts (E := E) hL hlen hCF hclocks hU hd hg
      hclock hnodup hbool hfeasible
    obtain ⟨fuel, r, hr⟩ := hreturns hM
    refine ⟨fuel, r, hr, ?_⟩
    have hpost := hsafe fuel
    rw [hr] at hpost
    obtain ⟨M, hguard⟩ := hguard
    refine ⟨M, fun v hv ↦ hguard v ?_⟩
    obtain ⟨w, -, hvw⟩ := (hpost.2 v).mp hv
    exact hvw.guard
  | delay invar =>
    intro d hd hM hfeasible
    obtain ⟨w, v, hw, hvw⟩ := hfeasible
    apply (cddPast_posts hL hlen hCF hclocks hU hd hmove ⟨w, ?_⟩).2 hM
    exact (holds_cddAnd hd.proper.wf hmove.wf).mpr ⟨hw, hvw.2.2.2⟩

end

/-! ### A path in the sample library -/

theorem holds_sampleGuard (v : Valuation) :
    Holds sampleLibrary v sampleGuard ↔ 2 ≤ v.clock 1 - v.clock 0 ∧ v.bool 1 = true := by
  have hproper : sampleLibrary.Proper sampleGuard := ⟨by decide, inRange_sampleGuard⟩
  have hk : sampleLibrary.levelinfo[0]? = some (.cdd 1 0) := by decide
  have hb : sampleLibrary.levelinfo[1]? = some .bdd := by decide
  have hbelow : Below (v.clock 1 - v.clock 0) 4 ↔ v.clock 1 - v.clock 0 < ((2 : ℤ) : ℝ) :=
    upperSat_even _ 2
  push_cast at hbelow
  rw [sampleGuard, holds_pieces hproper hk]
  simp only [pieces, List.mem_cons, List.not_mem_nil, or_false, exists_eq_or_imp, exists_eq_left,
    hbelow, cddNegCond_false, not_holds_cddfalse, and_false, false_or, below_INF, and_true, not_lt]
  apply and_congr_right'
  exact holds_cddBddvar hb (by decide)

theorem state_sampleGuard : sampleLibrary.State sampleGuard :=
  ⟨⟨by decide, inRange_sampleGuard⟩, nonNegativeOnly_sampleGuard⟩

/-- The clock and the Boolean are reset, and a delay leads back into the guard. -/
def sampleMoves : List Move := [.transition sampleGuard [(1, 0)] [(1, 1)], .delay sampleGuard]

theorem legal_sampleMoves : ∀ move ∈ sampleMoves, move.Legal sampleLibrary := by
  intro move hmove
  simp only [sampleMoves, List.mem_cons, List.not_mem_nil, or_false] at hmove
  cases hmove with
  | inl h =>
    subst h
    exact ⟨state_sampleGuard.proper, clockResets_sample, by simp, by decide, boolResets_sample⟩
  | inr h =>
    subst h
    exact state_sampleGuard.proper

/-- The clocks at `t`, and the Booleans set. -/
def sampleValuation (t : ℝ) : Valuation := ⟨fun i ↦ if i = 0 then 0 else t, fun _ ↦ true⟩

theorem holds_sampleValuation {t : ℝ} (ht : 2 ≤ t) :
    Holds sampleLibrary (sampleValuation t) sampleGuard := by
  rw [holds_sampleGuard]
  simp [sampleValuation, ht]

theorem nonNegative_sampleValuation {t : ℝ} (ht : 0 ≤ t) :
    (sampleValuation t).NonNegative sampleLibrary := by
  intro i _
  show 0 ≤ if i = 0 then 0 else t
  split
  · exact le_rfl
  · exact ht

theorem clockResets_sampleGuard (value : ℤ) : sampleLibrary.ClockResets [(1, value)] := by
  intro r hr
  rw [List.mem_singleton.mp hr]
  show 1 ≠ 0 ∧ 1 < 2
  decide

theorem steps_sampleGuard (value : ℤ) :
    sampleLibrary.Steps sampleGuard [(1, value)] [(1, 1)] (sampleValuation 2)
      (sampleValuation value) := by
  refine ⟨nonNegative_sampleValuation (by norm_num), holds_sampleValuation le_rfl, ?_, ?_⟩
  · intro i hi
    have hi : i < 2 := hi
    show _ = resetTo (sampleValuation 2).clock 1 value i
    rw [resetTo, Function.update_apply]
    split
    · next h => simp [sampleValuation, h]
    · next h =>
      have h0 : i = 0 := by omega
      simp [sampleValuation, h0]
  · ext i
    show true = Function.update (fun _ ↦ true) 1 (decide ((1 : ℤ) = 1)) i
    rw [Function.update_apply]
    split <;> rfl

theorem path_sampleMoves :
    Path (Move.Takes sampleLibrary) sampleMoves (sampleValuation 2) (sampleValuation 2) := by
  refine ⟨sampleValuation 0, by exact_mod_cast steps_sampleGuard 0, sampleValuation 2, ?_, rfl⟩
  refine ⟨nonNegative_sampleValuation le_rfl, ⟨2, by norm_num, ?_⟩, rfl,
    holds_sampleValuation le_rfl⟩
  ext i
  show (if i = 0 then 0 else 2) = delayBy (sampleValuation 0).clock 2 i
  rw [delayBy]
  split
  · rfl
  · simp [sampleValuation]

/-- The valuation after a delay; the Booleans stay. -/
noncomputable def Valuation.delay (v : Valuation) (t : ℝ) : Valuation := ⟨delayBy v.clock t, v.bool⟩

/-- Between two valuations of the diagram that a delay leads through, it holds all the way. -/
def DelayConvex (L : Library) (d : DdNode) : Prop :=
  ∀ v s t, 0 ≤ s → s ≤ t → Holds L v d → Holds L (v.delay t) d → Holds L (v.delay s) d

theorem delay_zero (v : Valuation) : v.delay 0 = v := by
  show (⟨delayBy v.clock 0, v.bool⟩ : Valuation) = v
  congr 1
  ext i
  rw [delayBy, add_zero]
  split
  · next h => rw [h]
  · rfl

theorem delayConvex_sampleGuard : DelayConvex sampleLibrary sampleGuard := by
  intro v s t hs _ hv _
  rw [holds_sampleGuard] at hv ⊢
  refine ⟨?_, hv.2⟩
  show 2 ≤ delayBy v.clock s 1 - delayBy v.clock s 0
  simp only [delayBy, one_ne_zero, if_false, if_true]
  linarith

theorem cddAnd_cddtrue {L : Library} {d : DdNode} (hd : L.WF d) : cddAnd L d cddtrue = d := by
  have hbuilds := cddAnd_builds hd wf_cddtrue
  apply eq_of_eval_eq hbuilds.wf hd
  intro a
  rw [hbuilds.eval_eq, eval_cddtrue, Bool.and_true]

end UCDD

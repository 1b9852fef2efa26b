import UCDD.Zone.Transition

/-!
# Transitions backwards

`cdd_transition_back`, `cppext.cpp:599–635`: the valuations of the target that the update allows,
with the Booleans quantified and the clocks freed zone by zone, and the guard.
-/

namespace UCDD

open IntervalMap DdNode Loop

/-- `cdd_transition_back`. -/
def cddTransitionBack (L : Library) (U : Udbm) (E : OpCaches) (fuel : ℕ)
    (state guard update : DdNode) (clockResets boolResets : List ℕ) : Run DdNode :=
  let copy := cddAnd L state update
  if copy = cddfalse then .done copy
  else do
    let copy ← existBools L E copy boolResets
    if clockResets.length = 0 then return cddAnd L copy guard
    else if !cddIsterminal copy && decide (L.levelinfo[copy.level]? = some .bdd) then
      return cddAnd L copy guard
    else
      let res ← splitLoop L U
        (fun dbm ↦ clockResets.foldl (fun dbm k ↦ U.dbmFreeClock L.clocknum k dbm) dbm)
        fuel (cddRemoveNegative L copy)
      return cddAnd L res guard

/-- The loop of `cdd_transition_back`, and the conjunction with the guard. -/
def backLoop (L : Library) (U : Udbm) (clockResets : List (ℕ × ℤ)) (guard copy : DdNode)
    (fuel : ℕ) : Run DdNode :=
  splitLoop L U (fun dbm ↦ (clockResets.map (·.1)).foldl
    (fun dbm k ↦ U.dbmFreeClock L.clocknum k dbm) dbm) fuel copy >>=
      fun res ↦ .done (cddAnd L res guard)

/-- The conjunction of the values that are assigned. -/
def updateCdd (L : Library) (clockResets boolResets : List (ℕ × ℤ)) : DdNode :=
  boolResets.foldl (fun update r ↦ cddAnd L update (resetLiteral r))
    (clockResets.foldl
      (fun update r ↦ cddAnd L update (cddInterval L r.1 0 (.fin (2 * r.2)) (.fin (2 * r.2 + 1))))
      cddtrue)

/-! ### Freeing clocks -/

section

variable {U : Udbm} {dim : ℕ}

/-- `y` is `x` with any non-negative values of the clocks. -/
def FreesAll (ks : List ℕ) (x y : ℕ → ℝ) : Prop :=
  (∀ k ∈ ks, y 0 ≤ y k) ∧ ∀ i ∉ ks, x i = y i

theorem FreesAll.mem_orthant {ks : List ℕ} {x y : ℕ → ℝ} (h : FreesAll ks x y) (h0 : 0 ∉ ks)
    (hx : x ∈ orthant dim) : y ∈ orthant dim := by
  intro i hi
  by_cases hik : i ∈ ks
  · exact h.1 i hik
  · rw [← h.2 i hik, ← h.2 0 h0]
    exact hx i hi

/-- `dbm_freeClock` for each clock. -/
theorem maps_freeClock (hU : U.Exact dim) {ks : List ℕ} (h : ∀ k ∈ ks, k ≠ 0 ∧ k < dim) :
    U.Maps dim (fun dbm ↦ ks.foldl (fun dbm k ↦ U.dbmFreeClock dim k dbm) dbm) (FreesAll ks) := by
  induction ks with
  | nil =>
    intro dbm hdbm _
    refine ⟨hdbm, ?_⟩
    ext y
    constructor
    · intro hy
      exact ⟨y, hy, by simp, fun _ _ ↦ rfl⟩
    · rintro ⟨x, hx, -, hxy⟩
      exact mem_zone_congr hx fun i _ ↦ (hxy i List.not_mem_nil).symm
  | cons k ks ih =>
    obtain ⟨⟨h0, hk⟩, h⟩ := List.forall_mem_cons.mp h
    have hzero : 0 ∉ ks := fun hmem ↦ (h 0 hmem).1 rfl
    have horth (x y : ℕ → ℝ) (hx : x ∈ orthant dim) (hy : Frees k x y) : y ∈ orthant dim := by
      obtain ⟨hle, t, rfl⟩ := hy
      intro i hi
      by_cases hik : i = k
      · rw [hik]
        exact hle
      · have := hx i hi
        rwa [Function.update_of_ne h0.symm, Function.update_of_ne hik] at this
    apply ((hU.freeClock k h0 hk).comp (ih h) horth).congr
    intro x z
    constructor
    · rintro ⟨y, ⟨hle, t, rfl⟩, hpos, hsame⟩
      constructor
      · intro i hi
        by_cases hik : i ∈ ks
        · exact hpos i hik
        · have heq : i = k := (List.mem_cons.mp hi).resolve_right hik
          subst heq
          rw [← hsame 0 hzero, ← hsame i hik]
          exact hle
      · intro i hi
        rw [List.mem_cons, not_or] at hi
        rw [Function.update_of_ne hi.1]
        exact hsame i hi.2
    · rintro ⟨hpos, hsame⟩
      have hsame0 : x 0 = z 0 := hsame 0 (by simp [h0.symm, hzero])
      refine ⟨Function.update x k (z k), ⟨?_, x k, by simp⟩,
        fun i hi ↦ hpos i (List.mem_cons_of_mem k hi), ?_⟩
      · rw [Function.update_of_ne h0.symm, Function.update_self, hsame0]
        exact hpos k List.mem_cons_self
      · intro i hi
        by_cases hik : i = k
        · rw [hik, Function.update_self]
        · rw [Function.update_of_ne hik]
          exact hsame i (by simp [hik, hi])

end

/-! ### The update -/

section

variable {L : Library} {clockResets boolResets : List (ℕ × ℤ)}

/-- The update over independent values of the levels. -/
theorem eval_updateCdd (hL : L.Declared) (hlen : L.levelinfo.length ≤ maxLevel)
    (hclock : L.ClockResets clockResets) (hbool : L.BoolResets boolResets) :
    L.Proper (updateCdd L clockResets boolResets) ∧
      ∀ a, eval a (updateCdd L clockResets boolResets) = true ↔
        (∀ r ∈ clockResets, inPiece (a.diff (L.diff2level (cddDifference r.1 0))) (.fin (2 * r.2))
          (.fin (2 * r.2 + 1)) = true) ∧ ∀ r ∈ boolResets, a.bool r.1 = decide (r.2 = 1) := by
  have hvalue (r : ℕ × ℤ) (hr : r ∈ clockResets) :
      L.Proper (cddInterval L r.1 0 (.fin (2 * r.2)) (.fin (2 * r.2 + 1))) ∧ ∀ a : Assignment,
        eval a (cddInterval L r.1 0 (.fin (2 * r.2)) (.fin (2 * r.2 + 1))) =
          inPiece (a.diff (L.diff2level (cddDifference r.1 0))) (.fin (2 * r.2))
            (.fin (2 * r.2 + 1)) := by
    have h0 : 0 < r.1 := Nat.pos_of_ne_zero (hclock r hr).1
    have hk := hL.covers.level_of_pair r.1 0 ⟨h0, (hclock r hr).2⟩
    have hlt : L.diff2level (cddDifference r.1 0) < maxLevel :=
      lt_of_lt_of_le (List.getElem?_eq_some_iff.mp hk).1 hlen
    have hint : Interval (.fin (2 * r.2)) (.fin (2 * r.2 + 1)) :=
      ⟨Raw.fin_lt_fin.mpr (by omega), Or.inl nofun⟩
    rw [cddInterval, if_pos h0]
    exact cddIntervalFromLevel_spec ⟨r.1, 0, hk⟩ hlt hint
  have hlit (r : ℕ × ℤ) (h : r ∈ boolResets) := resetLiteral_spec hlen (hbool.level r h)
  obtain ⟨hp, h⟩ := foldl_cddAnd_spec (fun r : ℕ × ℤ ↦ cddInterval L r.1 0 (.fin (2 * r.2))
    (.fin (2 * r.2 + 1))) (fun r hr ↦ (hvalue r hr).1) proper_cddtrue
  obtain ⟨hp', h'⟩ := foldl_cddAnd_spec resetLiteral (fun r hr ↦ (hlit r hr).1) hp
  refine ⟨hp', ?_⟩
  intro a
  rw [updateCdd, h', h, eval_cddtrue, and_iff_right rfl]
  apply and_congr
  · exact forall₂_congr fun r hr ↦ by rw [(hvalue r hr).2]
  · exact forall₂_congr fun r hr ↦ (hlit r hr).2 a

theorem below_value {t : ℝ} {value : ℤ} :
    ¬ Below t (.fin (2 * value)) ∧ Below t (.fin (2 * value + 1)) ↔ t = value := by
  have h1 : Below t (.fin (2 * value)) ↔ t < value := upperSat_even t value
  have h2 : Below t (.fin (2 * value + 1)) ↔ t ≤ value := upperSat_odd t value
  rw [h1, h2, not_lt]
  exact ⟨fun h ↦ le_antisymm h.2 h.1, fun h ↦ ⟨le_of_eq h.symm, le_of_eq h⟩⟩

/-- The update holds where the clocks and the Booleans have the values. -/
theorem holds_updateCdd (hL : L.Declared) (hlen : L.levelinfo.length ≤ maxLevel)
    (hclock : L.ClockResets clockResets) (hbool : L.BoolResets boolResets) (v : Valuation) :
    Holds L v (updateCdd L clockResets boolResets) ↔
      (∀ r ∈ clockResets, v.clock r.1 = v.clock 0 + r.2) ∧
        ∀ r ∈ boolResets, v.bool r.1 = decide (r.2 = 1) := by
  rw [Holds, (eval_updateCdd hL hlen hclock hbool).2]
  apply and_congr_left'
  apply forall₂_congr
  intro r hr
  have hk := hL.covers.level_of_pair r.1 0 ⟨Nat.pos_of_ne_zero (hclock r hr).1, (hclock r hr).2⟩
  have hdiff : (v.assignment L).diff (L.diff2level (cddDifference r.1 0)) =
      realCut (v.clock r.1 - v.clock 0) := by
    rw [← diff_of_levelinfo hk]
    rfl
  rw [hdiff, inPiece_realCut, below_value, sub_eq_iff_eq_add']

/-- The valuation after the resets. -/
noncomputable def Valuation.reset (v : Valuation) (clockResets boolResets : List (ℕ × ℤ)) :
    Valuation :=
  ⟨resetAll v.clock clockResets, setBools v.bool boolResets⟩

theorem holds_updateCdd_reset (hL : L.Declared) (hlen : L.levelinfo.length ≤ maxLevel)
    (hclock : L.ClockResets clockResets) (hnodup : (clockResets.map (·.1)).Nodup)
    (hbool : L.BoolResets boolResets) (v : Valuation) :
    Holds L (v.reset clockResets boolResets) (updateCdd L clockResets boolResets) := by
  have h0 : ∀ r ∈ clockResets, r.1 ≠ 0 := fun r hr ↦ (hclock r hr).1
  rw [holds_updateCdd hL hlen hclock hbool]
  constructor
  · intro r hr
    show resetAll v.clock clockResets r.1 = resetAll v.clock clockResets 0 + r.2
    rw [resetAll_of_mem hnodup h0 hr, resetAll_zero h0]
  · intro r hr
    exact setBools_of_mem hbool.nodup hr

/-- What the transition leads to satisfies the diagram just when the valuation after the resets
does. -/
theorem exists_steps_iff (hL : L.Declared) {state guard : DdNode} {v : Valuation} :
    (∃ w, L.Steps guard clockResets boolResets v w ∧ Holds L w state) ↔
      v.NonNegative L ∧ Holds L v guard ∧ Holds L (v.reset clockResets boolResets) state := by
  constructor
  · rintro ⟨⟨x, b⟩, ⟨hnn, hguard, hclock, hbool⟩, hstate⟩
    have hbool : b = setBools v.bool boolResets := hbool
    subst hbool
    exact ⟨hnn, hguard, (holds_congr_clock hL hclock).mp hstate⟩
  · rintro ⟨hnn, hguard, hstate⟩
    exact ⟨_, ⟨hnn, hguard, fun _ _ ↦ rfl, rfl⟩, hstate⟩

/-- Quantifying the Booleans that the update gives values to. -/
theorem BoolsQuantified.holds_reset {d copy : DdNode}
    (hq : BoolsQuantified L (boolResets.map (·.1)) d copy) (hbool : L.BoolResets boolResets)
    (hd : ∀ w, Holds L w d → ∀ r ∈ boolResets, w.bool r.1 = decide (r.2 = 1)) (w : Valuation) :
    Holds L w copy ↔ Holds L ⟨w.clock, setBools w.bool boolResets⟩ d := by
  rw [hq.holds_iff]
  constructor
  · rintro ⟨b, hb, h⟩
    have heq : b = setBools w.bool boolResets :=
      (eq_setBools_iff hbool.nodup).mpr ⟨hd _ h, fun ℓ hℓ ↦ (hb ℓ hℓ).symm⟩
    rw [← heq]
    exact h
  · intro h
    exact ⟨_, fun ℓ hℓ ↦ (setBools_of_notMem hℓ).symm, h⟩

/-- Freeing the clocks that have their values leads back to all valuations before the resets. -/
theorem eq_resetAll_of_freesAll (h0 : ∀ r ∈ clockResets, r.1 ≠ 0)
    (hnodup : (clockResets.map (·.1)).Nodup) {x y : ℕ → ℝ}
    (hx : ∀ r ∈ clockResets, x r.1 = x 0 + r.2) (h : FreesAll (clockResets.map (·.1)) x y) :
    x = resetAll y clockResets := by
  have hzero : 0 ∉ clockResets.map (·.1) := by
    intro hmem
    obtain ⟨r, hr, hr0⟩ := List.mem_map.mp hmem
    exact h0 r hr hr0
  ext i
  by_cases hi : i ∈ clockResets.map (·.1)
  · obtain ⟨r, hr, rfl⟩ := List.mem_map.mp hi
    rw [hx r hr, resetAll_of_mem hnodup h0 hr, h.2 0 hzero]
  · rw [h.2 i hi, resetAll_of_notMem hi]

theorem freesAll_resetAll {x : ℕ → ℝ} (hclock : L.ClockResets clockResets)
    (hx : x ∈ orthant L.clocknum) : FreesAll (clockResets.map (·.1)) (resetAll x clockResets) x := by
  constructor
  · intro k hk
    obtain ⟨r, hr, rfl⟩ := List.mem_map.mp hk
    exact hx _ (hclock r hr).2
  · intro i hi
    exact resetAll_of_notMem hi

end

/-! ### The loop -/

section

variable {L : Library} {U : Udbm} {E : OpCaches} {clockResets boolResets : List (ℕ × ℤ)}
  {state guard : DdNode}

/-- What `cdd_transition_back` is to deliver. -/
def IsPreimage (L : Library) (state guard : DdNode) (clockResets boolResets : List (ℕ × ℤ))
    (r : DdNode) : Prop :=
  ∀ v : Valuation, v.NonNegative L →
    (Holds L v r ↔ ∃ w, L.Steps guard clockResets boolResets v w ∧ Holds L w state)

/-- No valuation takes the transition into the state. -/
def NoSource (L : Library) (state guard : DdNode) (clockResets boolResets : List (ℕ × ℤ)) : Prop :=
  ∀ v w, L.Steps guard clockResets boolResets v w → ¬ Holds L w state

/-- The valuations that satisfy the guard, and `d` after the resets. -/
def AfterReset (L : Library) (clockResets boolResets : List (ℕ × ℤ)) (guard d : DdNode)
    (v : Valuation) : Prop :=
  Holds L v guard ∧ Holds L (v.reset clockResets boolResets) d

variable (hL : L.Declared) (hlen : L.levelinfo.length ≤ maxLevel) (hCF : L.ClocksFirst)
  (hU : U.Exact L.clocknum) (hs : L.Proper state) (hg : L.Proper guard)
  (hclock : L.ClockResets clockResets) (hnodup : (clockResets.map (·.1)).Nodup)
  (hbool : L.BoolResets boolResets)

include hL hlen hs hclock hnodup hbool in
/-- The preimage, over the conjunction of state and update. -/
theorem isPreimage_eq : IsPreimage L state guard clockResets boolResets = fun r ↦
    ∀ v : Valuation, v.NonNegative L → (Holds L v r ↔
      AfterReset L clockResets boolResets guard
        (cddAnd L state (updateCdd L clockResets boolResets)) v) := by
  obtain ⟨hpu, -⟩ := eval_updateCdd hL hlen hclock hbool
  ext r
  unfold IsPreimage AfterReset
  apply forall₂_congr
  intro v hv
  rw [exists_steps_iff hL, and_iff_right hv, holds_cddAnd hs.wf hpu.wf,
    and_iff_left (holds_updateCdd_reset hL hlen hclock hnodup hbool v)]

include hL hlen hs hclock hnodup hbool in
theorem noSource_iff : NoSource L state guard clockResets boolResets ↔
    ∀ v : Valuation, v.NonNegative L → ¬ AfterReset L clockResets boolResets guard
      (cddAnd L state (updateCdd L clockResets boolResets)) v := by
  obtain ⟨hpu, -⟩ := eval_updateCdd hL hlen hclock hbool
  have hreset (v : Valuation) := holds_updateCdd_reset hL hlen hclock hnodup hbool v
  constructor
  · rintro h v hv ⟨hvg, hd⟩
    obtain ⟨w, hw, hstate⟩ := (exists_steps_iff hL).mpr
      ⟨hv, hvg, ((holds_cddAnd hs.wf hpu.wf).mp hd).1⟩
    exact h v w hw hstate
  · intro h v w hw hstate
    obtain ⟨hv, hvg, hd⟩ := (exists_steps_iff hL).mp ⟨w, hw, hstate⟩
    exact h v hv ⟨hvg, (holds_cddAnd hs.wf hpu.wf).mpr ⟨hd, hreset v⟩⟩

include hL hlen hclock hbool in
/-- A reset to a negative value leaves no non-negative levels. -/
theorem nonneg_of_levelSatisfiable (hs : L.Proper state)
    (h : LevelSatisfiable L (cddAnd L state (updateCdd L clockResets boolResets))) :
    ∀ r ∈ clockResets, 0 ≤ r.2 := by
  obtain ⟨a, ha, hnn⟩ := h
  obtain ⟨hpu, heval⟩ := eval_updateCdd hL hlen hclock hbool
  rw [(cddAnd_builds hs.wf hpu.wf).eval_eq, Bool.and_eq_true, heval] at ha
  intro r hr
  have hpiece := ha.2.1 r hr
  rw [inPiece, Bool.and_eq_true] at hpiece
  by_contra hneg
  have hle : Raw.fin (2 * r.2 + 1) ≤ 0 := Raw.fin_le_fin.mpr (by omega)
  have hbelow := (a.diff _).mono hle hpiece.2
  rw [hnn r.1 (Nat.pos_of_ne_zero (hclock r hr).1) (hclock r hr).2] at hbelow
  cases hbelow

/-- The diagram that the loop of `cdd_transition_back` starts from. -/
structure BackCopy (L : Library) (clockResets boolResets : List (ℕ × ℤ)) (d copy : DdNode) :
    Prop where
  proper : L.Proper copy
  holds_iff : ∀ w, Holds L w copy ↔
    w.NonNegative L ∧ Holds L ⟨w.clock, setBools w.bool boolResets⟩ d
  eq_cddfalse : copy = cddfalse ↔ ¬ LevelSatisfiable L d

variable (U E guard) in
include hL hlen hs hclock hbool in
/-- With clock resets the loop is reached, unless the update contradicts the state. -/
theorem exists_backCopy (hnil : clockResets ≠ [])
    (hne : cddAnd L state (updateCdd L clockResets boolResets) ≠ cddfalse) (hCF : L.ClocksFirst) :
    ∃ copy, BackCopy L clockResets boolResets
        (cddAnd L state (updateCdd L clockResets boolResets)) copy ∧
      ∀ fuel, cddTransitionBack L U E fuel state guard (updateCdd L clockResets boolResets)
        (clockResets.map (·.1)) (boolResets.map (·.1)) =
          backLoop L U clockResets guard copy fuel := by
  obtain ⟨hpu, heval⟩ := eval_updateCdd hL hlen hclock hbool
  have hd := hs.and hpu
  have hupdate (w : Valuation) (hw : Holds L w (cddAnd L state (updateCdd L clockResets boolResets))) :
      (∀ r ∈ clockResets, w.clock r.1 = w.clock 0 + r.2) ∧
        ∀ r ∈ boolResets, w.bool r.1 = decide (r.2 = 1) := by
    rw [← holds_updateCdd hL hlen hclock hbool]
    exact ((holds_cddAnd hs.wf hpu.wf).mp hw).2
  obtain ⟨q, hrun, hq⟩ := existBools_spec hL E hd (boolResets.map (·.1))
  have hqholds := hq.holds_reset hbool fun w hw ↦ (hupdate w hw).2
  obtain ⟨hp, hrem⟩ := eval_cddRemoveNegative hL hlen hq.proper
  obtain ⟨-, hremh⟩ := cddRemoveNegative_spec hL hlen hq.proper
  have hqne : q ≠ cddfalse := by
    rintro rfl
    obtain ⟨a, ha⟩ := exists_eval_true hd.wf hne
    have := (hq.eval_iff a).mpr ⟨a, fun _ _ ↦ ⟨rfl, rfl⟩, ha⟩
    rw [eval_cddfalse] at this
    cases this
  -- the update bounds a clock, so the root is on a clock level
  have hcdd : isCddNode q = true := by
    by_contra hcdd
    obtain ⟨b, hb⟩ := exists_holds_bool hq.proper.wf
      (booleanOnly_of_not_cdd hCF hq.proper.wf (Bool.eq_false_iff.mpr hcdd)) hqne
    obtain ⟨r, hr⟩ := List.exists_mem_of_ne_nil _ hnil
    let x : ℕ → ℝ := fun i ↦ if i = 0 then 0 else r.2 + 1
    have hval := (hupdate _ ((hqholds _).mp (hb x))).1 r hr
    have hval : x r.1 = x 0 + r.2 := hval
    simp only [x, if_neg (hclock r hr).1, if_true] at hval
    linarith
  have hroot : isCddRoot L q = true := (isCddRoot_eq hq.proper.wf).trans hcdd
  rw [isCddRoot, Bool.and_eq_true, Bool.not_eq_true', decide_eq_true_eq] at hroot
  refine ⟨cddRemoveNegative L q, ⟨hp, ?_, ?_⟩, ?_⟩
  · intro w
    rw [hremh, hqholds, and_comm]
  · rw [← not_iff_not, not_not]
    constructor
    · intro hne
      obtain ⟨a, ha⟩ := exists_eval_true hp.wf hne
      obtain ⟨hqa, hnn⟩ := (hrem a).mp ha
      obtain ⟨a', hagree, ha'⟩ := (hq.eval_iff a).mp hqa
      exact ⟨a', ha', (quantifiedAt_nonNegative hL hagree).mpr hnn⟩
    · rintro ⟨a, ha, hnn⟩ hfalse
      have htrue := (hrem a).mpr ⟨(hq.eval_iff a).mpr ⟨a, fun _ _ ↦ ⟨rfl, rfl⟩, ha⟩, hnn⟩
      rw [hfalse, eval_cddfalse] at htrue
      cases htrue
  · intro fuel
    have hlength : (clockResets.map (·.1)).length ≠ 0 := by
      simpa using hnil
    rw [cddTransitionBack, if_neg hne, hrun, Run.done_bind, if_neg hlength]
    rw [if_neg (by simp [hroot.1, hroot.2])]
    rfl

end

section

variable {L : Library} {U : Udbm} {E : OpCaches} {clockResets boolResets : List (ℕ × ℤ)}
  {guard d copy : DdNode}
  (hL : L.Declared) (hlen : L.levelinfo.length ≤ maxLevel) (hCF : L.ClocksFirst)
  (hU : U.Exact L.clocknum) (hg : L.Proper guard) (hnil : clockResets ≠ [])
  (hclock : L.ClockResets clockResets) (hnodup : (clockResets.map (·.1)).Nodup)
  (hbool : L.BoolResets boolResets) (hcopy : BackCopy L clockResets boolResets d copy)
  (hupdate : ∀ w, Holds L w d → Holds L w (updateCdd L clockResets boolResets))

include hL hlen hclock hbool hcopy hupdate in
theorem BackCopy.satisfiable : Satisfiable L copy ↔ NonNegativeSatisfiable L d := by
  constructor
  · rintro ⟨w, hw⟩
    obtain ⟨hw, hd⟩ := (hcopy.holds_iff w).mp hw
    exact ⟨_, hd, hw⟩
  · rintro ⟨w, hd, hw⟩
    have hset := ((holds_updateCdd hL hlen hclock hbool w).mp (hupdate w hd)).2
    have heq : w.bool = setBools w.bool boolResets :=
      (eq_setBools_iff hbool.nodup).mpr ⟨hset, fun _ _ ↦ rfl⟩
    refine ⟨w, (hcopy.holds_iff w).mpr ⟨hw, ?_⟩⟩
    rw [← heq]
    exact hd

theorem BackCopy.nonNegativeOnly (hcopy : BackCopy L clockResets boolResets d copy) :
    NonNegativeOnly L copy :=
  fun w hw ↦ ((hcopy.holds_iff w).mp hw).1

theorem BackCopy.bounded (hcopy : BackCopy L clockResets boolResets d copy) {M : ℕ}
    (hM : BoundedBy L M d) : BoundedBy L M copy :=
  fun w hw i hi ↦ hM _ ((hcopy.holds_iff w).mp hw).2 i hi

include hL hlen hclock hnodup hbool hcopy hupdate in
/-- Freeing the clocks of the copy leads to the valuations before the resets. -/
theorem BackCopy.image {v : Valuation} (hv : v.NonNegative L) :
    L.Image (FreesAll (clockResets.map (·.1))) copy v ↔
      (v.reset clockResets boolResets).NonNegative L ∧
        Holds L (v.reset clockResets boolResets) d := by
  have h0 : ∀ r ∈ clockResets, r.1 ≠ 0 := fun r hr ↦ (hclock r hr).1
  constructor
  · rintro ⟨x, hx, hfree⟩
    obtain ⟨hxnn, hd⟩ := (hcopy.holds_iff _).mp hx
    have hval := ((holds_updateCdd hL hlen hclock hbool _).mp (hupdate _ hd)).1
    have heq := eq_resetAll_of_freesAll h0 hnodup hval hfree
    subst heq
    exact ⟨hxnn, hd⟩
  · rintro ⟨hxnn, hd⟩
    exact ⟨_, (hcopy.holds_iff _).mpr ⟨hxnn, hd⟩, freesAll_resetAll hclock hv⟩

theorem reset_nonNegative (hclock : L.ClockResets clockResets)
    (hvalue : ∀ r ∈ clockResets, 0 ≤ r.2) {v : Valuation} (hv : v.NonNegative L) :
    (v.reset clockResets boolResets).NonNegative L :=
  resetAll_mem_orthant (fun r hr ↦ ⟨(hclock r hr).1, hvalue r hr⟩) hv

theorem maps_freeResets (hU : U.Exact L.clocknum) (hclock : L.ClockResets clockResets) :
    U.Maps L.clocknum (fun dbm ↦ (clockResets.map (·.1)).foldl
      (fun dbm k ↦ U.dbmFreeClock L.clocknum k dbm) dbm) (FreesAll (clockResets.map (·.1))) := by
  apply maps_freeClock hU
  intro k hk
  obtain ⟨r, hr, rfl⟩ := List.mem_map.mp hk
  exact hclock r hr

include hL hlen hCF hU hg hnil hclock hnodup hbool hcopy hupdate

/-- The loop on a copy that holds somewhere or has no clock level at its root. -/
theorem backLoop_delivers (hcdd : isCddNode copy = true → Satisfiable L copy)
    (hafter : ∀ v : Valuation, v.NonNegative L → AfterReset L clockResets boolResets guard d v →
      (v.reset clockResets boolResets).NonNegative L) :
    Delivers L d (fun r ↦ ∀ v : Valuation, v.NonNegative L →
      (Holds L v r ↔ AfterReset L clockResets boolResets guard d v))
      (backLoop L U clockResets guard copy) := by
  obtain ⟨r₀, hr₀⟩ := List.exists_mem_of_ne_nil _ hnil
  have hclocks : 2 ≤ L.clocknum := two_le_clocknum_of_reset (hclock r₀ hr₀)
  obtain ⟨hsafe, hreturns⟩ := splitLoop_spec hL hlen hCF hU (maps_freeResets hU hclock) hclocks
    hcopy.proper hcopy.nonNegativeOnly hcdd
  constructor
  · intro fuel
    apply (hsafe fuel).bind
    rintro r ⟨hpr, himage⟩ v hv
    rw [holds_cddAnd hpr.wf hg.wf, himage, hcopy.image hL hlen hclock hnodup hbool hupdate hv]
    constructor
    · rintro ⟨⟨-, hd⟩, hguard⟩
      exact ⟨hguard, hd⟩
    · intro h
      exact ⟨⟨hafter v hv h, h.2⟩, h.1⟩
  · intro M hM
    obtain ⟨fuel, r, hr⟩ := hreturns M (hcopy.bounded hM)
    exact ⟨fuel, cddAnd L r guard, by rw [backLoop, hr]; rfl⟩

omit hnil hnodup hbool hupdate in
/-- The loop on a copy with a clock level at its root that holds nowhere: the result is the
guard. -/
theorem backLoop_unsatisfiable (hcdd : isCddNode copy = true) (hunsat : ¬ Satisfiable L copy) :
    ∃ r, (∀ v : Valuation, v.NonNegative L → (Holds L v r ↔ Holds L v guard)) ∧
      ∀ fuel, backLoop L U clockResets guard copy fuel =
        if 2 ≤ fuel then .done r else .unfinished := by
  obtain ⟨r, hpr, hr, hloop⟩ := splitLoop_unsatisfiable hL hlen hCF hU (maps_freeResets hU hclock)
    hcopy.proper hcdd hunsat
  refine ⟨cddAnd L r guard, ?_, ?_⟩
  · intro v hv
    rw [holds_cddAnd hpr.wf hg.wf, hr, and_iff_right_iff_imp]
    intro _
    refine ⟨v.clock, hv, ?_, fun _ _ ↦ rfl⟩
    intro k hk
    obtain ⟨r, hr, rfl⟩ := List.mem_map.mp hk
    exact hv _ (hclock r hr).2
  · intro fuel
    rw [backLoop, hloop fuel]
    split <;> rfl

/-- The loop delivers the preimage just when the copy holds somewhere, or nothing is to be
delivered and the loop adds nothing. -/
theorem backLoop_delivers_iff (hvalue : LevelSatisfiable L d → ∀ r ∈ clockResets, 0 ≤ r.2) :
    Delivers L d (fun r ↦ ∀ v : Valuation, v.NonNegative L →
        (Holds L v r ↔ AfterReset L clockResets boolResets guard d v))
        (backLoop L U clockResets guard copy) ↔
      NonNegativeSatisfiable L d ∨
        (∀ v : Valuation, v.NonNegative L → ¬ AfterReset L clockResets boolResets guard d v) ∧
          (¬ LevelSatisfiable L d ∨ ¬ NonNegativeSatisfiable L guard) := by
  have hdelivers := backLoop_delivers hL hlen hCF hU hg hnil hclock hnodup hbool hcopy hupdate
  have hsatisfiable := hcopy.satisfiable hL hlen hclock hbool hupdate
  obtain ⟨r₀, hr₀⟩ := List.exists_mem_of_ne_nil _ hnil
  have hclocks : 2 ≤ L.clocknum := two_le_clocknum_of_reset (hclock r₀ hr₀)
  by_cases hsat : NonNegativeSatisfiable L d
  · rw [iff_true_right (Or.inl hsat)]
    apply hdelivers fun _ ↦ hsatisfiable.mpr hsat
    intro v hv _
    obtain ⟨w, hw, hwnn⟩ := hsat
    have hval := ((holds_updateCdd hL hlen hclock hbool w).mp (hupdate w hw)).1
    apply reset_nonNegative hclock _ hv
    intro r hr
    have h1 := hval r hr
    have h2 := hwnn r.1 (hclock r hr).2
    have : (0 : ℝ) ≤ r.2 := by linarith
    exact_mod_cast this
  · rw [or_iff_right hsat]
    have hunsat : ¬ Satisfiable L copy := mt hsatisfiable.mp hsat
    cases hcdd : isCddNode copy with
    | false =>
      have hfalse : copy = cddfalse := eq_cddfalse_of_booleanOnly hclocks hcopy.proper.wf
        (booleanOnly_of_not_cdd hCF hcopy.proper.wf hcdd) hcopy.nonNegativeOnly
      rw [and_iff_left (Or.inl (hcopy.eq_cddfalse.mp hfalse))]
      constructor
      · intro h v hv hafter
        have hsafe := h.safe 1
        rw [hfalse] at hsafe
        have hiff : Holds L v (cddAnd L cddfalse guard) ↔
            AfterReset L clockResets boolResets guard d v := hsafe v hv
        have hand := hiff.mpr hafter
        rw [holds_cddAnd wf_cddfalse hg.wf] at hand
        exact not_holds_cddfalse hand.1
      · intro hnone
        apply hdelivers
        · intro h
          rw [hcdd] at h
          cases h
        · intro v hv hafter
          exact absurd hafter (hnone v hv)
    | true =>
      have hne : copy ≠ cddfalse := by
        rintro rfl
        cases hcdd
      have hlevel : LevelSatisfiable L d := not_not.mp (mt hcopy.eq_cddfalse.mpr hne)
      obtain ⟨r, hr, hloop⟩ := backLoop_unsatisfiable hL hlen hCF hU hg hclock hcopy hcdd hunsat
      rw [or_iff_right (not_not.mpr hlevel)]
      constructor
      · intro h
        have hsafe := h.safe 2
        rw [hloop 2, if_pos le_rfl] at hsafe
        have hguard : ¬ NonNegativeSatisfiable L guard := by
          rintro ⟨v, hvg, hv⟩
          have hiff : Holds L v r ↔ AfterReset L clockResets boolResets guard d v := hsafe v hv
          obtain ⟨-, hd⟩ := hiff.mp ((hr v hv).mpr hvg)
          exact hsat ⟨_, hd, reset_nonNegative hclock (hvalue hlevel) hv⟩
        exact ⟨fun v hv hafter ↦ hguard ⟨v, hafter.1, hv⟩, hguard⟩
      · rintro ⟨hnone, hguard⟩
        constructor
        · intro fuel
          rw [hloop fuel]
          split
          · intro v hv
            rw [hr v hv, iff_false_right (hnone v hv)]
            intro hvg
            exact hguard ⟨v, hvg, hv⟩
          · exact trivial
        · intro M _
          exact ⟨2, r, by rw [hloop 2, if_pos le_rfl]⟩

end

section

variable {L : Library} {U : Udbm} {E : OpCaches} {clockResets boolResets : List (ℕ × ℤ)}
  {state guard : DdNode}
  (hL : L.Declared) (hlen : L.levelinfo.length ≤ maxLevel) (hCF : L.ClocksFirst)
  (hU : U.Exact L.clocknum) (hs : L.Proper state) (hg : L.Proper guard)
  (hclock : L.ClockResets clockResets) (hnodup : (clockResets.map (·.1)).Nodup)
  (hbool : L.BoolResets boolResets)

include hL hlen hs hclock hnodup hbool

/-- The exit for an update that contradicts the state. -/
theorem cddTransitionBack_cddfalse
    (hfalse : cddAnd L state (updateCdd L clockResets boolResets) = cddfalse) :
    Delivers L (cddAnd L state (updateCdd L clockResets boolResets))
        (IsPreimage L state guard clockResets boolResets)
        (cddTransitionBack L U E · state guard (updateCdd L clockResets boolResets)
          (clockResets.map (·.1)) (boolResets.map (·.1))) ∧
      NoSource L state guard clockResets boolResets ∧
      ¬ LevelSatisfiable L (cddAnd L state (updateCdd L clockResets boolResets)) := by
  rw [isPreimage_eq hL hlen hs hclock hnodup hbool, noSource_iff hL hlen hs hclock hnodup hbool]
  have hnone (v : Valuation) : ¬ AfterReset L clockResets boolResets guard
      (cddAnd L state (updateCdd L clockResets boolResets)) v := by
    rw [hfalse]
    exact fun h ↦ not_holds_cddfalse h.2
  refine ⟨?_, fun v _ ↦ hnone v, ?_⟩
  · have hrun (fuel : ℕ) : cddTransitionBack L U E fuel state guard
        (updateCdd L clockResets boolResets) (clockResets.map (·.1)) (boolResets.map (·.1)) =
          .done (cddAnd L state (updateCdd L clockResets boolResets)) := by
      rw [cddTransitionBack, if_pos hfalse]
    simp only [hrun]
    rw [delivers_done]
    intro v _
    rw [iff_false_right (hnone v), hfalse]
    exact not_holds_cddfalse
  · rintro ⟨a, ha, -⟩
    rw [hfalse, eval_cddfalse] at ha
    cases ha

include hg in
/-- The exit without clock resets. -/
theorem cddTransitionBack_nil
    (hne : cddAnd L state (updateCdd L clockResets boolResets) ≠ cddfalse)
    (hnil : clockResets = []) :
    Delivers L (cddAnd L state (updateCdd L clockResets boolResets))
      (IsPreimage L state guard clockResets boolResets)
      (cddTransitionBack L U E · state guard (updateCdd L clockResets boolResets)
        (clockResets.map (·.1)) (boolResets.map (·.1))) := by
  obtain ⟨hpu, -⟩ := eval_updateCdd hL hlen hclock hbool
  obtain ⟨copy, hexist, hq⟩ := existBools_spec hL E (hs.and hpu) (boolResets.map (·.1))
  have hqholds := hq.holds_reset hbool fun w hw ↦
    ((holds_updateCdd hL hlen hclock hbool w).mp ((holds_cddAnd hs.wf hpu.wf).mp hw).2).2
  have hrun (fuel : ℕ) : cddTransitionBack L U E fuel state guard
      (updateCdd L clockResets boolResets) (clockResets.map (·.1)) (boolResets.map (·.1)) =
        .done (cddAnd L copy guard) := by
    have hlength : (clockResets.map (·.1)).length = 0 := by
      rw [hnil]
      rfl
    rw [cddTransitionBack, if_neg hne, hexist, Run.done_bind, if_pos hlength, Run.pure_eq]
  rw [isPreimage_eq hL hlen hs hclock hnodup hbool]
  simp only [hrun]
  rw [delivers_done]
  intro v _
  have hsame : resetAll v.clock clockResets = v.clock := by
    rw [hnil]
    rfl
  rw [holds_cddAnd hq.proper.wf hg.wf, hqholds, and_comm, AfterReset, Valuation.reset, hsame]

include hCF hU hg in
/-- The loop, for a state that the update does not contradict. -/
theorem cddTransitionBack_loop
    (hne : cddAnd L state (updateCdd L clockResets boolResets) ≠ cddfalse)
    (hnil : clockResets ≠ []) :
    Delivers L (cddAnd L state (updateCdd L clockResets boolResets))
        (IsPreimage L state guard clockResets boolResets)
        (cddTransitionBack L U E · state guard (updateCdd L clockResets boolResets)
          (clockResets.map (·.1)) (boolResets.map (·.1))) ↔
      NonNegativeSatisfiable L (cddAnd L state (updateCdd L clockResets boolResets)) ∨
        (NoSource L state guard clockResets boolResets ∧
          (¬ LevelSatisfiable L (cddAnd L state (updateCdd L clockResets boolResets)) ∨
            ¬ NonNegativeSatisfiable L guard)) := by
  obtain ⟨hpu, -⟩ := eval_updateCdd hL hlen hclock hbool
  obtain ⟨copy, hcopy, hrun⟩ := exists_backCopy U E guard hL hlen hs hclock hbool hnil hne hCF
  rw [isPreimage_eq hL hlen hs hclock hnodup hbool, noSource_iff hL hlen hs hclock hnodup hbool]
  simp only [hrun]
  exact backLoop_delivers_iff hL hlen hCF hU hg hnil hclock hnodup hbool hcopy
    (fun w hw ↦ ((holds_cddAnd hs.wf hpu.wf).mp hw).2)
    (nonneg_of_levelSatisfiable hL hlen hclock hbool hs)

end

end UCDD

import UCDD.Zone.Delay

/-!
# Transitions

`cdd_apply_reset` and `cdd_transition`, `cppext.cpp:515–579`. The Booleans are reset by
quantification, the clocks zone by zone. Where the diagram to be split has a clock level at its
root and no non-negative valuation satisfies it, the zone extracted from it is the whole orthant.
-/

namespace UCDD

open IntervalMap DdNode Loop

/-- `cdd_bddvarpp` or `cdd_bddnvarpp` on the level of a reset, `cppext.cpp:525–529`. -/
def resetLiteral (r : ℕ × ℤ) : DdNode :=
  if r.2 = 1 then cddBddvar r.1 else cddNeg (cddBddvar r.1)

/-- The quantification of the Booleans, if there are any. The height of the diagram is fuel
enough. -/
def existBools (L : Library) (E : OpCaches) (copy : DdNode) (levels : List ℕ) : Run DdNode :=
  if 0 < levels.length then .ofOption (cddExist L E (copy.height + 1) copy levels [])
  else .done copy

/-- The resets of the Booleans, `cppext.cpp:518–531`. A reset is a clock or a Boolean level and
its value. -/
def resetBools (L : Library) (E : OpCaches) (state : DdNode) (boolResets : List (ℕ × ℤ)) :
    Run DdNode := do
  let copy ← existBools L E state (boolResets.map (·.1))
  let copy := boolResets.foldl (fun copy r ↦ cddAnd L copy (resetLiteral r)) copy
  return cddRemoveNegative L copy

/-- `cdd_apply_reset`. -/
def cddApplyReset (L : Library) (U : Udbm) (E : OpCaches) (fuel : ℕ) (state : DdNode)
    (clockResets boolResets : List (ℕ × ℤ)) : Run DdNode := do
  let copy ← resetBools L E state boolResets
  if clockResets.length = 0 then return copy
  else if cddIsterminal copy then return copy
  else if L.levelinfo[copy.level]? = some .bdd then return copy
  else
    splitLoop L U
      (fun dbm ↦ clockResets.foldl (fun dbm r ↦ U.dbmUpdateValue L.clocknum r.1 r.2 dbm) dbm)
      fuel copy

/-- `cdd_transition`. -/
def cddTransition (L : Library) (U : Udbm) (E : OpCaches) (fuel : ℕ) (state guard : DdNode)
    (clockResets boolResets : List (ℕ × ℤ)) : Run DdNode :=
  cddApplyReset L U E fuel (cddAnd L state guard) clockResets boolResets

/-! ### The transition -/

/-- The clocks after the resets, in their order. -/
noncomputable def resetAll (x : ℕ → ℝ) (resets : List (ℕ × ℤ)) : ℕ → ℝ :=
  resets.foldl (fun x r ↦ resetTo x r.1 r.2) x

/-- The Booleans after the resets. -/
def setBools (b : ℕ → Bool) (resets : List (ℕ × ℤ)) : ℕ → Bool :=
  resets.foldl (fun b r ↦ Function.update b r.1 (decide (r.2 = 1))) b

/-- At the valuation `v` the transition can be taken, to `w`. -/
structure Library.Steps (L : Library) (guard : DdNode) (clockResets boolResets : List (ℕ × ℤ))
    (v w : Valuation) : Prop where
  nonNegative : v.NonNegative L
  guard : Holds L v guard
  clock : ∀ i < L.clocknum, w.clock i = resetAll v.clock clockResets i
  bool : w.bool = setBools v.bool boolResets

/-- Each reset is of a clock other than clock 0. -/
def Library.ClockResets (L : Library) (resets : List (ℕ × ℤ)) : Prop :=
  ∀ r ∈ resets, r.1 ≠ 0 ∧ r.1 < L.clocknum

/-- The resets are of distinct Booleans. -/
structure Library.BoolResets (L : Library) (resets : List (ℕ × ℤ)) : Prop where
  level : ∀ r ∈ resets, L.levelinfo[r.1]? = some .bdd
  nodup : (resets.map (·.1)).Nodup

section

variable {x y : ℕ → ℝ} {b b' : ℕ → Bool} {resets : List (ℕ × ℤ)} {i k : ℕ}

theorem resetAll_of_notMem (h : i ∉ resets.map (·.1)) : resetAll x resets i = x i := by
  induction resets generalizing x with
  | nil => rfl
  | cons r resets ih =>
    rw [List.map_cons, List.mem_cons, not_or] at h
    show resetAll (resetTo x r.1 r.2) resets i = x i
    rw [ih h.2, resetTo, Function.update_of_ne h.1]

/-- A clock that is reset once has its value. -/
theorem resetAll_of_mem (hnodup : (resets.map (·.1)).Nodup) (h0 : ∀ r ∈ resets, r.1 ≠ 0)
    {r : ℕ × ℤ} (hr : r ∈ resets) : resetAll x resets r.1 = x 0 + r.2 := by
  induction resets generalizing x with
  | nil => cases hr
  | cons s resets ih =>
    rw [List.map_cons, List.nodup_cons] at hnodup
    obtain ⟨hs0, h0⟩ := List.forall_mem_cons.mp h0
    show resetAll (resetTo x s.1 s.2) resets r.1 = _
    cases List.mem_cons.mp hr with
    | inl h =>
      rw [h, resetAll_of_notMem hnodup.1, resetTo, Function.update_self]
    | inr h =>
      rw [ih hnodup.2 h0 h, resetTo, Function.update_of_ne hs0.symm]

theorem resetAll_zero (h0 : ∀ r ∈ resets, r.1 ≠ 0) : resetAll x resets 0 = x 0 := by
  apply resetAll_of_notMem
  intro h
  obtain ⟨r, hr, h⟩ := List.mem_map.mp h
  exact h0 r hr h

theorem setBools_of_notMem (h : i ∉ resets.map (·.1)) : setBools b resets i = b i := by
  induction resets generalizing b with
  | nil => rfl
  | cons r resets ih =>
    rw [List.map_cons, List.mem_cons, not_or] at h
    show setBools (Function.update b r.1 _) resets i = b i
    rw [ih h.2, Function.update_of_ne h.1]

theorem setBools_of_mem (hnodup : (resets.map (·.1)).Nodup) {r : ℕ × ℤ} (hr : r ∈ resets) :
    setBools b resets r.1 = decide (r.2 = 1) := by
  induction resets generalizing b with
  | nil => cases hr
  | cons s resets ih =>
    rw [List.map_cons, List.nodup_cons] at hnodup
    show setBools (Function.update b s.1 _) resets r.1 = _
    cases List.mem_cons.mp hr with
    | inl h => rw [h, setBools_of_notMem hnodup.1, Function.update_self]
    | inr h => exact ih hnodup.2 h

/-- The Booleans that are not reset stay. -/
theorem eq_setBools_iff (hnodup : (resets.map (·.1)).Nodup) :
    b' = setBools b resets ↔ (∀ r ∈ resets, b' r.1 = decide (r.2 = 1)) ∧
      ∀ ℓ ∉ resets.map (·.1), b' ℓ = b ℓ := by
  constructor
  · rintro rfl
    exact ⟨fun r hr ↦ setBools_of_mem hnodup hr, fun ℓ hℓ ↦ setBools_of_notMem hℓ⟩
  · rintro ⟨hset, hkeep⟩
    ext ℓ
    by_cases hℓ : ℓ ∈ resets.map (·.1)
    · obtain ⟨r, hr, rfl⟩ := List.mem_map.mp hℓ
      rw [hset r hr, setBools_of_mem hnodup hr]
    · rw [hkeep ℓ hℓ, setBools_of_notMem hℓ]

end

/-! ### Operations one after the other -/

section

variable {U : Udbm} {dim : ℕ}

/-- `y` is `x` with the clocks set. -/
def ResetsAll (dim : ℕ) (resets : List (ℕ × ℤ)) (x y : ℕ → ℝ) : Prop :=
  ∀ i < dim, y i = resetAll x resets i

theorem resetAll_mem_orthant {resets : List (ℕ × ℤ)} (h : ∀ r ∈ resets, r.1 ≠ 0 ∧ 0 ≤ r.2)
    {x : ℕ → ℝ} (hx : x ∈ orthant dim) : resetAll x resets ∈ orthant dim := by
  induction resets generalizing x with
  | nil => exact hx
  | cons r resets ih =>
    obtain ⟨⟨h0, hr⟩, h⟩ := List.forall_mem_cons.mp h
    exact ih h (resetTo_mem_orthant hx hr h0)

/-- The operations compose as long as the valuations stay non-negative. -/
theorem Udbm.Maps.comp {op op' : Dbm → Dbm} {R R' : (ℕ → ℝ) → (ℕ → ℝ) → Prop}
    (h : U.Maps dim op R) (h' : U.Maps dim op' R')
    (horth : ∀ x y, x ∈ orthant dim → R x y → y ∈ orthant dim) :
    U.Maps dim (fun dbm ↦ op' (op dbm)) fun x z ↦ ∃ y, R x y ∧ R' y z := by
  intro dbm hdbm hsub
  obtain ⟨hv, hz⟩ := h dbm hdbm hsub
  have hsub' : (op dbm).zone dim ⊆ orthant dim := by
    rw [hz]
    rintro y ⟨x, hx, hR⟩
    exact horth x y (hsub hx) hR
  obtain ⟨hv', hz'⟩ := h' (op dbm) hv hsub'
  refine ⟨hv', ?_⟩
  ext z
  rw [hz', hz]
  constructor
  · rintro ⟨y, ⟨x, hx, hR⟩, hR'⟩
    exact ⟨x, hx, y, hR, hR'⟩
  · rintro ⟨x, hx, y, hR, hR'⟩
    exact ⟨y, ⟨x, hx, hR⟩, hR'⟩

theorem Udbm.Maps.congr {op : Dbm → Dbm} {R R' : (ℕ → ℝ) → (ℕ → ℝ) → Prop}
    (h : U.Maps dim op R) (hR : ∀ x y, R x y ↔ R' x y) : U.Maps dim op R' := by
  intro dbm hdbm hsub
  obtain ⟨hv, hz⟩ := h dbm hdbm hsub
  refine ⟨hv, ?_⟩
  rw [hz]
  ext y
  exact exists_congr fun x ↦ and_congr_right' (hR x y)

theorem resetAll_congr {resets : List (ℕ × ℤ)} {x y : ℕ → ℝ} (hdim : 0 < dim)
    (h : ∀ i < dim, y i = x i) : ∀ i < dim, resetAll y resets i = resetAll x resets i := by
  induction resets generalizing x y with
  | nil => exact h
  | cons r resets ih =>
    apply ih
    intro i hi
    show resetTo y r.1 r.2 i = resetTo x r.1 r.2 i
    unfold resetTo
    rw [h 0 hdim]
    by_cases hir : i = r.1
    · rw [hir, Function.update_self, Function.update_self]
    · rw [Function.update_of_ne hir, Function.update_of_ne hir]
      exact h i hi

/-- `dbm_updateValue` for each reset. -/
theorem maps_updateValue (hU : U.Exact dim) {resets : List (ℕ × ℤ)}
    (h : ∀ r ∈ resets, (r.1 ≠ 0 ∧ r.1 < dim) ∧ 0 ≤ r.2) :
    U.Maps dim (fun dbm ↦ resets.foldl (fun dbm r ↦ U.dbmUpdateValue dim r.1 r.2 dbm) dbm)
      (ResetsAll dim resets) := by
  induction resets with
  | nil =>
    intro dbm hdbm _
    refine ⟨hdbm, ?_⟩
    ext y
    constructor
    · intro hy
      exact ⟨y, hy, fun _ _ ↦ rfl⟩
    · rintro ⟨x, hx, hxy⟩
      exact mem_zone_congr hx hxy
  | cons r resets ih =>
    obtain ⟨⟨⟨h0, hr⟩, hval⟩, h⟩ := List.forall_mem_cons.mp h
    have hone := hU.updateValue r.1 r.2 h0 hr hval
    have horth (x y : ℕ → ℝ) (hx : x ∈ orthant dim) (hy : Resets dim r.1 r.2 x y) :
        y ∈ orthant dim := by
      have hreset := resetTo_mem_orthant hx hval h0
      intro i hi
      rw [hy i hi, hy 0 (by omega)]
      exact hreset i hi
    apply (hone.comp (ih h) horth).congr
    intro x z
    constructor
    · rintro ⟨y, hy, hz⟩ i hi
      rw [hz i hi]
      exact resetAll_congr (by omega) hy i hi
    · intro hz
      exact ⟨resetTo x r.1 r.2, fun _ _ ↦ rfl, hz⟩

end

/-! ### The Booleans -/

section

variable {L : Library} {d : DdNode}

/-- The diagram is true of independent values of the levels without a negative clock. -/
def LevelSatisfiable (L : Library) (d : DdNode) : Prop :=
  ∃ a : Assignment, eval a d = true ∧ a.NonNegative L

/-- A non-negative valuation satisfies the diagram. -/
def NonNegativeSatisfiable (L : Library) (d : DdNode) : Prop :=
  ∃ v : Valuation, Holds L v d ∧ v.NonNegative L

theorem resetLiteral_spec (hlen : L.levelinfo.length ≤ maxLevel) {r : ℕ × ℤ}
    (hr : L.levelinfo[r.1]? = some .bdd) :
    L.Proper (resetLiteral r) ∧
      ∀ a, eval a (resetLiteral r) = true ↔ a.bool r.1 = decide (r.2 = 1) := by
  have hlit : resetLiteral r = boolLiteral r.1 (decide (r.2 = 1)) := by
    simp only [resetLiteral, boolLiteral, decide_eq_true_eq]
  rw [hlit]
  exact boolLiteral_spec hlen hr _

/-- What the quantification of Booleans returns. -/
structure BoolsQuantified (L : Library) (levels : List ℕ) (d r : DdNode) : Prop where
  proper : L.Proper r
  holds_iff : ∀ w, Holds L w r ↔
    ∃ b, (∀ ℓ ∉ levels, w.bool ℓ = b ℓ) ∧ Holds L ⟨w.clock, b⟩ d
  eval_iff : ∀ a, eval a r = true ↔ L.QuantifiedAt levels [] d a

theorem existBools_spec (hL : L.Declared) (E : OpCaches) (hd : L.Proper d) (levels : List ℕ) :
    ∃ r, existBools L E d levels = .done r ∧ BoolsQuantified L levels d r := by
  cases levels with
  | nil =>
    refine ⟨d, rfl, hd, ?_, ?_⟩
    · intro w
      constructor
      · intro h
        exact ⟨w.bool, fun _ _ ↦ rfl, h⟩
      · rintro ⟨b, hb, h⟩
        have : w.bool = b := funext fun ℓ ↦ hb ℓ List.not_mem_nil
        rw [← this] at h
        exact h
    · intro a
      constructor
      · intro h
        exact ⟨a, fun _ _ ↦ ⟨rfl, rfl⟩, h⟩
      · rintro ⟨a', ha', h⟩
        have hnot (ℓ : ℕ) : ¬ L.Affected [] [] ℓ := by
          simp [Library.Affected]
        have hb : a'.bool = a.bool := funext fun ℓ ↦ (ha' ℓ (hnot ℓ)).1
        have hdiff : a'.diff = a.diff := funext fun ℓ ↦ (ha' ℓ (hnot ℓ)).2
        have heq : a' = a := by
          cases a
          cases a'
          simp_all
        rw [← heq]
        exact h
  | cons level levels =>
    obtain ⟨r, hproj, hrun⟩ := cddExist_spec hL E hd (level :: levels) (untangled_nil d)
    refine ⟨r, ?_, hproj.proper, ?_, hproj.eval_iff⟩
    · rw [existBools, if_pos (by simp), hrun _ (Nat.lt_succ_self _)]
      rfl
    · intro w
      rw [hproj.holds_iff]
      constructor
      · rintro ⟨⟨x, b⟩, ⟨hx, hb⟩, h⟩
        have hclock : x = w.clock := funext fun c ↦ hx c List.not_mem_nil
        rw [hclock] at h
        exact ⟨b, fun ℓ hℓ ↦ (hb ℓ hℓ).symm, h⟩
      · rintro ⟨b, hb, h⟩
        exact ⟨⟨w.clock, b⟩, ⟨fun _ _ ↦ rfl, fun ℓ hℓ ↦ (hb ℓ hℓ).symm⟩, h⟩

/-- A diagram reads the declared clocks. -/
theorem holds_congr_clock (hL : L.Declared) {x y : ℕ → ℝ} {b : ℕ → Bool}
    (h : ∀ i < L.clocknum, x i = y i) : Holds L ⟨x, b⟩ d ↔ Holds L ⟨y, b⟩ d := by
  have hdiff : L.diff x = L.diff y := by
    ext level
    unfold Library.diff
    split
    · next i j hk =>
      obtain ⟨⟨hji, hi⟩, -⟩ := hL.covers.pair_of_level level i j hk
      rw [h i hi, h j (lt_trans hji hi)]
    · rfl
  have : (⟨x, b⟩ : Valuation).assignment L = (⟨y, b⟩ : Valuation).assignment L := by
    unfold Valuation.assignment
    rw [hdiff]
  unfold Holds
  rw [this]

/-- The Boolean levels are not read by a difference, so they can be quantified on their own. -/
theorem quantifiedAt_nonNegative {levels : List ℕ} {a a' : Assignment} (hL : L.Declared)
    (h : L.AgreesAt levels [] a a') : a'.NonNegative L ↔ a.NonNegative L := by
  have hlevel {i : ℕ} (h0 : 0 < i) (hi : i < L.clocknum) :
      a'.diff (L.diff2level (cddDifference i 0)) = a.diff (L.diff2level (cddDifference i 0)) := by
    have hk := hL.covers.level_of_pair i 0 ⟨h0, hi⟩
    apply (h _ _).2
    rintro (⟨i', j', -, hc⟩ | ⟨hb, -⟩)
    · simp at hc
    · rw [hk] at hb
      cases hb
  constructor
  · intro ha i h0 hi
    rw [← hlevel h0 hi]
    exact ha i h0 hi
  · intro ha i h0 hi
    rw [hlevel h0 hi]
    exact ha i h0 hi

/-- What the resets of the Booleans return, and when nothing is left. -/
structure BoolsReset (L : Library) (boolResets : List (ℕ × ℤ)) (d copy : DdNode) : Prop where
  proper : L.Proper copy
  holds_iff : ∀ w, Holds L w copy ↔ w.NonNegative L ∧
    ∃ b, Holds L ⟨w.clock, b⟩ d ∧ w.bool = setBools b boolResets
  eq_cddfalse : copy = cddfalse ↔ ¬ LevelSatisfiable L d

theorem BoolsReset.nonNegativeOnly {boolResets : List (ℕ × ℤ)} {copy : DdNode}
    (h : BoolsReset L boolResets d copy) : NonNegativeOnly L copy :=
  fun w hw ↦ ((h.holds_iff w).mp hw).1

theorem BoolsReset.satisfiable {boolResets : List (ℕ × ℤ)} {copy : DdNode}
    (h : BoolsReset L boolResets d copy) : Satisfiable L copy ↔ NonNegativeSatisfiable L d := by
  constructor
  · rintro ⟨w, hw⟩
    obtain ⟨hnn, b, hb, -⟩ := (h.holds_iff w).mp hw
    exact ⟨_, hb, hnn⟩
  · rintro ⟨v, hv, hnn⟩
    exact ⟨⟨v.clock, setBools v.bool boolResets⟩, (h.holds_iff _).mpr ⟨hnn, v.bool, hv, rfl⟩⟩

theorem BoolsReset.bounded {boolResets : List (ℕ × ℤ)} {copy : DdNode} {M : ℕ}
    (h : BoolsReset L boolResets d copy) (hM : BoundedBy L M d) : BoundedBy L M copy := by
  intro w hw i hi
  obtain ⟨-, b, hb, -⟩ := (h.holds_iff w).mp hw
  exact hM _ hb i hi

theorem resetBools_spec (hL : L.Declared) (hlen : L.levelinfo.length ≤ maxLevel) (E : OpCaches)
    (hd : L.Proper d) {boolResets : List (ℕ × ℤ)} (hbr : L.BoolResets boolResets) :
    ∃ copy, resetBools L E d boolResets = .done copy ∧ BoolsReset L boolResets d copy := by
  obtain ⟨r, hr, hq⟩ := existBools_spec hL E hd (boolResets.map (·.1))
  have hlit (r : ℕ × ℤ) (h : r ∈ boolResets) := resetLiteral_spec hlen (hbr.level r h)
  obtain ⟨hpf, heval⟩ := foldl_cddAnd_spec resetLiteral (fun r h ↦ (hlit r h).1) hq.proper
  obtain ⟨hp, hrem⟩ := eval_cddRemoveNegative hL hlen hpf
  have hcopy (a : Assignment) : eval a (cddRemoveNegative L
      (boolResets.foldl (fun copy r ↦ cddAnd L copy (resetLiteral r)) r)) = true ↔
      (eval a r = true ∧ ∀ r ∈ boolResets, a.bool r.1 = decide (r.2 = 1)) ∧ a.NonNegative L := by
    rw [hrem, heval]
    apply and_congr_left'
    apply and_congr_right'
    exact forall₂_congr fun r h ↦ (hlit r h).2 a
  refine ⟨_, ?_, hp, ?_, ?_⟩
  · rw [resetBools, hr]
    rfl
  · intro w
    have hw : Holds L w r ↔ eval (w.assignment L) r = true := Iff.rfl
    rw [Holds, hcopy, nonNegative_assignment hL, ← hw, hq.holds_iff, and_comm]
    apply and_congr_right'
    show (_ ∧ ∀ r ∈ boolResets, w.bool r.1 = decide (r.2 = 1)) ↔ _
    constructor
    · rintro ⟨⟨b, hb, h⟩, hset⟩
      exact ⟨b, h, (eq_setBools_iff hbr.nodup).mpr ⟨hset, hb⟩⟩
    · rintro ⟨b, h, hset⟩
      obtain ⟨hset, hb⟩ := (eq_setBools_iff hbr.nodup).mp hset
      exact ⟨⟨b, hb, h⟩, hset⟩
  · rw [← not_iff_not, not_not]
    constructor
    · intro hne
      obtain ⟨a, ha⟩ := exists_eval_true hp.wf hne
      obtain ⟨⟨hra, -⟩, hnn⟩ := (hcopy a).mp ha
      obtain ⟨a', hagree, ha'⟩ := (hq.eval_iff a).mp hra
      exact ⟨a', ha', (quantifiedAt_nonNegative hL hagree).mpr hnn⟩
    · rintro ⟨a', ha', hnn⟩ hfalse
      let a : Assignment := ⟨setBools a'.bool boolResets, a'.diff⟩
      have hagree : L.AgreesAt (boolResets.map (·.1)) [] a a' := by
        intro ℓ hℓ
        refine ⟨?_, rfl⟩
        by_cases hmem : ℓ ∈ boolResets.map (·.1)
        · obtain ⟨r, hr, rfl⟩ := List.mem_map.mp hmem
          exact absurd (Or.inr ⟨hbr.level r hr, hmem⟩) hℓ
        · exact (setBools_of_notMem hmem).symm
      have htrue : eval a cddfalse = true := by
        rw [← hfalse, hcopy]
        refine ⟨⟨(hq.eval_iff a).mpr ⟨a', hagree, ha'⟩, ?_⟩,
          (quantifiedAt_nonNegative hL hagree).mp hnn⟩
        intro r hr
        exact setBools_of_mem hbr.nodup hr
      rw [eval_cddfalse] at htrue
      cases htrue

end

/-! ### The forward transition -/

/-- The runs on the diagram deliver what is specified: they do not fail, what they return
satisfies the specification, and with bounded clocks they return. -/
structure Delivers (L : Library) (d : DdNode) (spec : DdNode → Prop) (run : ℕ → Run DdNode) :
    Prop where
  safe : ∀ fuel, Run.Safe spec (run fuel)
  returns : ∀ M, BoundedBy L M d → ∃ fuel r, run fuel = .done r

section

variable {L : Library} {d : DdNode}

/-- A run without the loop. -/
theorem delivers_done {spec : DdNode → Prop} {r : DdNode} :
    Delivers L d spec (fun _ ↦ .done r) ↔ spec r := by
  constructor
  · intro h
    exact h.safe 0
  · intro h
    exact ⟨fun _ ↦ h, fun _ _ ↦ ⟨0, r, rfl⟩⟩

theorem two_le_clocknum_of_reset {k : ℕ} (h : k ≠ 0 ∧ k < L.clocknum) : 2 ≤ L.clocknum := by
  omega

theorem isCddRoot_false {copy : DdNode} (h : isCddRoot L copy = false) :
    cddIsterminal copy = true ∨ L.levelinfo[copy.level]? = some .bdd := by
  unfold isCddRoot at h
  cases hterm : cddIsterminal copy with
  | true => exact Or.inl rfl
  | false =>
    right
    simpa [hterm] using h

variable {U : Udbm} {E : OpCaches} {clockResets boolResets : List (ℕ × ℤ)}

/-- The exits of `cdd_apply_reset`. -/
theorem cddApplyReset_eq {copy : DdNode} (hrun : resetBools L E d boolResets = .done copy)
    (fuel : ℕ) : cddApplyReset L U E fuel d clockResets boolResets =
      if clockResets ≠ [] ∧ isCddRoot L copy = true then
        splitLoop L U
          (fun dbm ↦ clockResets.foldl (fun dbm r ↦ U.dbmUpdateValue L.clocknum r.1 r.2 dbm) dbm)
          fuel copy
      else .done copy := by
  rw [cddApplyReset, hrun, Run.done_bind]
  cases clockResets with
  | nil => simp
  | cons r clockResets =>
    have hlength : (r :: clockResets).length ≠ 0 := Nat.succ_ne_zero _
    rw [if_neg hlength]
    cases hroot : isCddRoot L copy with
    | true =>
      have hroot' : (!cddIsterminal copy && decide (L.levelinfo[copy.level]? ≠ some .bdd)) = true :=
        hroot
      rw [Bool.and_eq_true, Bool.not_eq_true', decide_eq_true_eq] at hroot'
      rw [if_neg (by simp [hroot'.1]), if_neg hroot'.2, if_pos (by simp)]
    | false =>
      rw [if_neg (by simp : ¬ (r :: clockResets ≠ [] ∧ false = true))]
      cases isCddRoot_false hroot with
      | inl h => rw [if_pos h, Run.pure_eq]
      | inr h => rw [if_pos h, Run.pure_eq, ite_self]

/-- The image of a transition is that of the clock resets after the resets of the Booleans. -/
theorem image_steps {copy state guard : DdNode} (hs : L.WF state) (hg : L.WF guard)
    (hcopy : BoolsReset L boolResets (cddAnd L state guard) copy) (w : Valuation) :
    (∃ v, Holds L v state ∧ L.Steps guard clockResets boolResets v w) ↔
      L.Image (ResetsAll L.clocknum clockResets) copy w := by
  constructor
  · rintro ⟨v, hstate, hnn, hguard, hclock, hbool⟩
    refine ⟨v.clock, (hcopy.holds_iff _).mpr ⟨hnn, v.bool, ?_, hbool⟩, hclock⟩
    exact (holds_cddAnd hs hg).mpr ⟨hstate, hguard⟩
  · rintro ⟨x, hx, hclock⟩
    obtain ⟨hnn, b, hb, hbool⟩ := (hcopy.holds_iff _).mp hx
    obtain ⟨hstate, hguard⟩ := (holds_cddAnd hs hg).mp hb
    exact ⟨⟨x, b⟩, hstate, hnn, hguard, hclock, hbool⟩

variable (hL : L.Declared) (hlen : L.levelinfo.length ≤ maxLevel) (hCF : L.ClocksFirst)
  (hU : U.Exact L.clocknum) {copy : DdNode} (hrun : resetBools L E d boolResets = .done copy)
  (hcopy : BoolsReset L boolResets d copy) (hclock : L.ClockResets clockResets)
  (hvalue : ∀ r ∈ clockResets, 0 ≤ r.2)

include hL hlen hCF hU hrun hcopy hclock hvalue

/-- `cdd_apply_reset` where the diagram to be split holds somewhere or has no clock level at its
root. -/
theorem cddApplyReset_delivers
    (h : clockResets = [] ∨ NonNegativeSatisfiable L d ∨ ¬ LevelSatisfiable L d) :
    Delivers L d (IsImage L (ResetsAll L.clocknum clockResets) copy)
      (cddApplyReset L U E · d clockResets boolResets) := by
  simp only [cddApplyReset_eq hrun]
  by_cases hnil : clockResets = []
  · -- without clock resets the diagram itself is the result
    simp only [hnil, ne_eq, not_true_eq_false, false_and, if_false]
    rw [delivers_done]
    intro w
    constructor
    · intro h
      exact ⟨w.clock, h, fun _ _ ↦ rfl⟩
    · rintro ⟨x, hx, hsame⟩
      exact (holds_congr_clock hL hsame).mpr hx
  · rw [or_iff_right hnil, ← hcopy.eq_cddfalse, ← hcopy.satisfiable] at h
    obtain ⟨r, hr⟩ := List.exists_mem_of_ne_nil _ hnil
    have hclocks : 2 ≤ L.clocknum := two_le_clocknum_of_reset (hclock r hr)
    cases hcdd : isCddNode copy with
    | false =>
      have hroot : isCddRoot L copy = false := (isCddRoot_eq hcopy.proper.wf).trans hcdd
      have hfalse := eq_cddfalse_of_booleanOnly hclocks hcopy.proper.wf
        (booleanOnly_of_not_cdd hCF hcopy.proper.wf hcdd) hcopy.nonNegativeOnly
      simp only [hroot, Bool.false_eq_true, and_false, if_false]
      rw [delivers_done, hfalse]
      intro w
      constructor
      · intro h
        exact absurd h not_holds_cddfalse
      · rintro ⟨x, hx, -⟩
        exact absurd hx not_holds_cddfalse
    | true =>
      have hroot : isCddRoot L copy = true := (isCddRoot_eq hcopy.proper.wf).trans hcdd
      have hsat : Satisfiable L copy := by
        apply h.resolve_right
        rintro rfl
        cases hcdd
      have hop := maps_updateValue hU fun r hr ↦ ⟨hclock r hr, hvalue r hr⟩
      simp only [hnil, hroot, ne_eq, not_false_eq_true, and_self, if_true]
      obtain ⟨h1, h2⟩ := splitLoop_spec hL hlen hCF hU hop hclocks hcopy.proper
        hcopy.nonNegativeOnly fun _ ↦ hsat
      exact ⟨fun fuel ↦ (h1 fuel).mono fun r hr ↦ hr.2, fun M hM ↦ h2 M (hcopy.bounded hM)⟩

/-- `cdd_apply_reset` where it splits a diagram that holds nowhere. -/
theorem cddApplyReset_unsatisfiable (hnil : clockResets ≠ []) (hunsat : ¬ NonNegativeSatisfiable L d)
    (hlevel : LevelSatisfiable L d) :
    ¬ Delivers L d (IsImage L (ResetsAll L.clocknum clockResets) copy)
      (cddApplyReset L U E · d clockResets boolResets) := by
  intro h
  obtain ⟨r, hr⟩ := List.exists_mem_of_ne_nil _ hnil
  have hclocks : 2 ≤ L.clocknum := two_le_clocknum_of_reset (hclock r hr)
  have hne : copy ≠ cddfalse := fun h ↦ hcopy.eq_cddfalse.mp h hlevel
  have hcdd : isCddNode copy = true := by
    by_contra hcdd
    exact hne (eq_cddfalse_of_booleanOnly hclocks hcopy.proper.wf
      (booleanOnly_of_not_cdd hCF hcopy.proper.wf (Bool.eq_false_iff.mpr hcdd))
      hcopy.nonNegativeOnly)
  have hroot : isCddRoot L copy = true := (isCddRoot_eq hcopy.proper.wf).trans hcdd
  have hunsat' : ¬ Satisfiable L copy := mt hcopy.satisfiable.mp hunsat
  have hop := maps_updateValue hU fun r hr ↦ ⟨hclock r hr, hvalue r hr⟩
  obtain ⟨r, -, hr, hloop⟩ := splitLoop_unsatisfiable hL hlen hCF hU hop hcopy.proper hcdd hunsat'
  have hsafe := h.safe 2
  rw [cddApplyReset_eq hrun, if_pos ⟨hnil, hroot⟩, hloop 2, if_pos le_rfl] at hsafe
  have hsafe : IsImage L (ResetsAll L.clocknum clockResets) copy r := hsafe
  obtain ⟨x, hx, -⟩ := (hsafe ⟨resetAll 0 clockResets, fun _ ↦ false⟩).mp
    ((hr _).mpr ⟨0, fun _ _ ↦ le_rfl, fun _ _ ↦ rfl⟩)
  exact hunsat' ⟨_, hx⟩

end

theorem clockResets_sample : sampleLibrary.ClockResets [(1, 0)] := by
  intro r hr
  rw [List.mem_singleton.mp hr]
  decide

theorem boolResets_sample : sampleLibrary.BoolResets [(1, 1)] := by
  constructor
  · intro r hr
    rw [List.mem_singleton.mp hr]
    decide
  · decide

/-- Values of the three levels that no clocks have: `x1 = x0`, `x2 = x0 + 2` and `x2 = x1`. -/
noncomputable def levelValues : Assignment :=
  ⟨fun _ ↦ false, fun ℓ ↦ realCut (if ℓ = 1 then 2 else 0)⟩

theorem nonNegative_levelValues : levelValues.NonNegative clockLibrary := by
  intro i _ _
  show (realCut _).below 0 = false
  rw [← Bool.not_eq_true, realCut_below, not_below_zero]
  split <;> norm_num

theorem eval_contradiction : eval levelValues contradiction = true := by
  have h0 : (levelValues.diff 0).below 3 = true :=
    (realCut_below _ _).mpr ((upperSat_odd _ 1).mpr (by norm_num))
  have h1 : (levelValues.diff 1).below 4 = false := by
    rw [← Bool.not_eq_true]
    intro h
    have := (upperSat_even _ 2).mp ((realCut_below _ _).mp h)
    norm_num at this
  have h2 : (levelValues.diff 2).below 2 = true :=
    (realCut_below _ _).mpr ((upperSat_even _ 1).mpr (by norm_num))
  rw [contradiction, eval, evalElem_of_below _ h0, eval, evalElem_of_not_below _ h1,
    evalElem_of_below _ (levelValues.diff 1).top_below, eval, evalElem_of_below _ h2]
  decide

theorem clockResets_clockLibrary : clockLibrary.ClockResets [(1, 0)] := by
  intro r hr
  rw [List.mem_singleton.mp hr]
  decide

theorem boolResets_nil {L : Library} : L.BoolResets [] := ⟨by simp, by simp⟩

end UCDD

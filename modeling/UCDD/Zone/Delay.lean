import UCDD.Quantify.Correct
import UCDD.Zone.Reference
import UCDD.Zone.Split

/-!
# Delay and past

`cdd_delay` and `cdd_past`, `cppext.cpp:96–119, 293–314`: each zone of the diagram is delayed on
its own. Both are exact on a diagram that holds somewhere. On one that holds nowhere the first
zone extracted is the orthant, and so is the result.
-/

namespace UCDD

open DdNode Loop

/-- The trivial cases of `cdd_delay` and `cdd_past`, and the loop. -/
def delayWith (L : Library) (U : Udbm) (op : Dbm → Dbm) (fuel : ℕ) (state : DdNode) : Run DdNode :=
  if cddIsterminal state then .done state
  else if L.levelinfo[state.level]? = some .bdd then .done state
  else splitLoop L U op fuel state

/-- `cdd_delay`. -/
def cddDelay (L : Library) (U : Udbm) (fuel : ℕ) (state : DdNode) : Run DdNode :=
  delayWith L U (U.dbmUp L.clocknum) fuel state

/-- `cdd_past`. -/
def cddPast (L : Library) (U : Udbm) (fuel : ℕ) (state : DdNode) : Run DdNode :=
  delayWith L U (U.dbmDown L.clocknum) fuel state

section

variable {L : Library} {U : Udbm} {op : Dbm → Dbm} {R : (ℕ → ℝ) → (ℕ → ℝ) → Prop} {f g : DdNode}

theorem isCddNode_of_isCdd (hlen : L.levelinfo.length ≤ maxLevel) (h : L.WF f)
    (htop : L.isCdd f.level) : isCddNode f = true := by
  obtain ⟨i, j, hij⟩ := htop
  have hlt : f.level < maxLevel := lt_of_lt_of_le (List.getElem?_eq_some_iff.mp hij).1 hlen
  rw [h.eq_cdd ⟨i, j, hij⟩ hlt]
  rfl

theorem two_le_clocknum (hL : L.Declared) {level : ℕ} (h : L.isCdd level) : 2 ≤ L.clocknum := by
  obtain ⟨i, j, hij⟩ := h
  obtain ⟨⟨hji, hi⟩, -⟩ := hL.covers.pair_of_level level i j hij
  omega

theorem delayWith_eq (h : L.WF f) (hcdd : isCddNode f = true) (fuel : ℕ) :
    delayWith L U op fuel f = splitLoop L U op fuel f := by
  have hroot : isCddRoot L f = true := (isCddRoot_eq h).trans hcdd
  rw [isCddRoot, Bool.and_eq_true, Bool.not_eq_true', decide_eq_true_eq] at hroot
  rw [delayWith, if_neg (by simp [hroot.1]), if_neg hroot.2]

variable (hL : L.Declared) (hlen : L.levelinfo.length ≤ maxLevel) (hCF : L.ClocksFirst)
  (hU : U.Exact L.clocknum) (hop : U.Maps L.clocknum op R)

include hL hlen hCF hU hop

theorem delayWith_computes_iff (hrefl : R 0 0) (hf : L.Proper f) (htop : L.isCdd f.level)
    (hnn : NonNegativeOnly L f) :
    Computes L R f (fun fuel ↦ delayWith L U op fuel f) ↔ Satisfiable L f := by
  have hcdd := isCddNode_of_isCdd hlen hf.wf htop
  have heq : (fun fuel ↦ delayWith L U op fuel f) = fun fuel ↦ splitLoop L U op fuel f :=
    funext (delayWith_eq hf.wf hcdd)
  rw [heq]
  constructor
  · intro h
    by_contra hunsat
    obtain ⟨r, -, hr, hrun⟩ := splitLoop_unsatisfiable hL hlen hCF hU hop hf hcdd hunsat
    have hsafe := h.safe 2
    rw [hrun 2, if_pos le_rfl] at hsafe
    have hsafe : IsImage L R f r := hsafe
    have hzero : Holds L ⟨0, fun _ ↦ false⟩ r := (hr _).mpr ⟨0, fun i _ ↦ le_rfl, hrefl⟩
    obtain ⟨x, hx, -⟩ := (hsafe _).mp hzero
    exact hunsat ⟨_, hx⟩
  · intro hsat
    obtain ⟨h1, h2⟩ := splitLoop_spec hL hlen hCF hU hop (two_le_clocknum hL htop) hf hnn
      fun _ ↦ hsat
    exact ⟨fun fuel ↦ (h1 fuel).mono fun r hr ↦ hr.2, h2⟩

end

/-- Two runs of an operation and its run on the union. -/
def DistributesOr (L : Library) (run : ℕ → DdNode → Run DdNode) (f g : DdNode) : Prop :=
  ∀ n m k r s t, run n f = .done r → run m g = .done s → run k (cddOr L f g) = .done t →
    ∀ w, Holds L w t ↔ Holds L w r ∨ Holds L w s

/-- A run of an operation and its run on the conjunction with `b`. -/
def CommutesAnd (L : Library) (run : ℕ → DdNode → Run DdNode) (f b : DdNode) : Prop :=
  ∀ n m r s, run n f = .done r → run m (cddAnd L f b) = .done s →
    ∀ w, Holds L w s ↔ Holds L w r ∧ Holds L w b

section

variable {L : Library} {R : (ℕ → ℝ) → (ℕ → ℝ) → Prop} {run : ℕ → DdNode → Run DdNode}
  {f g b : DdNode}

theorem Computes.of_done (h : Computes L R f (run · f)) {n : ℕ} {r : DdNode}
    (hr : run n f = .done r) : IsImage L R f r := by
  have hsafe := h.safe n
  rw [hr] at hsafe
  exact hsafe

theorem distributesOr_of_computes (hwf : L.WF f) (hwg : L.WF g) (hf : Computes L R f (run · f))
    (hg : Computes L R g (run · g)) (hfg : Computes L R (cddOr L f g) (run · (cddOr L f g))) :
    DistributesOr L run f g := by
  intro n m k r s t hr hs ht w
  rw [hfg.of_done ht, image_or hwf hwg, hf.of_done hr, hg.of_done hs]

theorem commutesAnd_of_computes (hwf : L.WF f) (hwb : L.WF b) (hb : BooleanOnly L b)
    (hf : Computes L R f (run · f)) (hfb : Computes L R (cddAnd L f b) (run · (cddAnd L f b))) :
    CommutesAnd L run f b := by
  intro n m r s hr hs w
  rw [hfb.of_done hs, image_and hwf hwb hb, hf.of_done hr]

/-- A diagram that holds somewhere, and at non-negative valuations only, has a clock level at its
root. -/
theorem isCdd_of_satisfiable (hCF : L.ClocksFirst) (hclocks : 2 ≤ L.clocknum) (hf : L.WF f)
    (hnn : NonNegativeOnly L f) (hsat : Satisfiable L f) : L.isCdd f.level := by
  cases hcdd : isCddNode f with
  | true =>
    cases hf with
    | terminal | xterm | bdd => cases hcdd
    | cdd _ hk => exact hk
  | false =>
    have hfalse := eq_cddfalse_of_booleanOnly hclocks hf (booleanOnly_of_not_cdd hCF hf hcdd) hnn
    rw [hfalse] at hsat
    exact absurd hsat not_satisfiable_cddfalse

end

theorem clocksFirst_sampleLibrary : sampleLibrary.ClocksFirst := by
  intro ℓ ℓ' i j h h'
  have hℓ : ℓ < 2 := (List.getElem?_eq_some_iff.mp h).1
  have hℓ' : ℓ' < 2 := (List.getElem?_eq_some_iff.mp h').1
  have h1 : ℓ ≠ 1 := by
    rintro rfl
    cases h
  have h0 : ℓ' ≠ 0 := by
    rintro rfl
    cases h'
  omega

theorem nonNegativeOnly_sampleGuard : NonNegativeOnly sampleLibrary sampleGuard := by
  intro v hv i hi
  have hi : i < 2 := hi
  have hproper : sampleLibrary.Proper sampleGuard := ⟨by decide, inRange_sampleGuard⟩
  have hk : sampleLibrary.levelinfo[0]? = some (.cdd 1 0) := by decide
  obtain ⟨p, hp, ⟨hlow, -⟩, hchild⟩ := (holds_pieces hproper hk).mp hv
  simp only [pieces, List.mem_cons, List.not_mem_nil, or_false] at hp
  cases hp with
  | inl h =>
    rw [h] at hchild
    exact absurd hchild not_holds_cddfalse
  | inr h =>
    rw [h] at hlow
    have h4 : ¬ v.clock 1 - v.clock 0 < ((2 : ℤ) : ℝ) := mt (upperSat_even _ 2).mpr hlow
    push_cast at h4
    by_cases h0 : i = 0
    · rw [h0]
    · have h1 : i = 1 := by omega
      rw [h1]
      linarith

theorem satisfiable_sampleGuard : Satisfiable sampleLibrary sampleGuard := by
  have hproper : sampleLibrary.Proper sampleGuard := ⟨by decide, inRange_sampleGuard⟩
  have hk : sampleLibrary.levelinfo[0]? = some (.cdd 1 0) := by decide
  have hb : sampleLibrary.levelinfo[1]? = some .bdd := by decide
  refine ⟨⟨fun i ↦ if i = 1 then 2 else 0, fun _ ↦ true⟩, ?_⟩
  rw [sampleGuard, holds_pieces hproper hk]
  refine ⟨(4, .bdd false 1 cddfalse cddtrue, INF), by simp [pieces], ⟨?_, below_INF _⟩, ?_⟩
  · intro h
    have := (upperSat_even _ 2).mp h
    norm_num at this
  · exact (holds_cddBddvar hb (by decide)).mpr rfl

/-- The conjunction of `x1 - x0 ≤ 1`, `x2 - x0 ≥ 2` and `x2 - x1 < 1`. -/
def contradiction : DdNode :=
  .cdd false 0 [(.cdd false 1 [(cddfalse, 4),
    (.cdd true 2 [(cddfalse, 2), (cddtrue, INF)], INF)], 3), (cddfalse, INF)]

theorem inRange_contradiction : InRange contradiction := by
  apply All.cdd _ trivial
  · decide
  · simp only [List.mem_cons, List.not_mem_nil, or_false, forall_eq_or_imp, forall_eq]
    refine ⟨.cdd _ trivial (by decide) ?_, .terminal _⟩
    simp only [List.mem_cons, List.not_mem_nil, or_false, forall_eq_or_imp, forall_eq]
    refine ⟨.terminal _, .cdd _ trivial (by decide) ?_⟩
    simp only [List.mem_cons, List.not_mem_nil, or_false, forall_eq_or_imp, forall_eq]
    exact ⟨.terminal _, .terminal _⟩

theorem clocksFirst_clockLibrary : clockLibrary.ClocksFirst := by
  intro ℓ ℓ' i j _ h'
  have hℓ' : ℓ' < 3 := (List.getElem?_eq_some_iff.mp h').1
  have h0 : ℓ' ≠ 0 := by
    rintro rfl
    cases h'
  have h1 : ℓ' ≠ 1 := by
    rintro rfl
    cases h'
  have h2 : ℓ' ≠ 2 := by
    rintro rfl
    cases h'
  omega

theorem not_satisfiable_contradiction : ¬ Satisfiable clockLibrary contradiction := by
  rintro ⟨v, hv⟩
  have hk0 : clockLibrary.levelinfo[0]? = some (.cdd 1 0) := by decide
  have hk1 : clockLibrary.levelinfo[1]? = some (.cdd 2 0) := by decide
  have hk2 : clockLibrary.levelinfo[2]? = some (.cdd 2 1) := by decide
  have hr0 := inRange_contradiction
  obtain ⟨-, -, hr⟩ := hr0.of_cdd
  have hr1 := hr _ List.mem_cons_self
  obtain ⟨-, -, hr⟩ := hr1.of_cdd
  have hr2 := hr _ (List.mem_cons_of_mem _ List.mem_cons_self)
  obtain ⟨p, hp, ⟨-, h1⟩, hp'⟩ := (holds_pieces ⟨by decide, hr0⟩ hk0).mp hv
  simp only [pieces, List.mem_cons, List.not_mem_nil, or_false] at hp
  cases hp with
  | inr h =>
    rw [h] at hp'
    exact not_holds_cddfalse hp'
  | inl h =>
    rw [h] at h1 hp'
    rw [cddNegCond_false] at hp'
    obtain ⟨q, hq, ⟨h2, -⟩, hq'⟩ := (holds_pieces ⟨by decide, hr1⟩ hk1).mp hp'
    simp only [pieces, List.mem_cons, List.not_mem_nil, or_false] at hq
    cases hq with
    | inl h =>
      rw [h] at hq'
      exact not_holds_cddfalse hq'
    | inr h =>
      rw [h] at h2 hq'
      rw [cddNegCond_false] at hq'
      obtain ⟨s, hs, ⟨-, h3⟩, hs'⟩ := (holds_pieces ⟨by decide, hr2⟩ hk2).mp hq'
      simp only [pieces, List.mem_cons, List.not_mem_nil, or_false] at hs
      cases hs with
      | inr h =>
        rw [h] at hs'
        exact not_holds_cddfalse hs'
      | inl h =>
        rw [h] at h3
        have h1' : v.clock 1 - v.clock 0 ≤ ((1 : ℤ) : ℝ) := (upperSat_odd _ 1).mp h1
        have h2' : ¬ v.clock 2 - v.clock 0 < ((2 : ℤ) : ℝ) := mt (upperSat_even _ 2).mpr h2
        have h3' : v.clock 2 - v.clock 1 < ((1 : ℤ) : ℝ) := (upperSat_even _ 1).mp h3
        push_cast at h1' h2' h3'
        linarith

end UCDD

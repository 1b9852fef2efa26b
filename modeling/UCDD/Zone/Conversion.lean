import UCDD.Reduce.InZone
import UCDD.Zone.Contains
import UCDD.Zone.Delay
import UCDD.Zone.Predt

/-!
# Diagrams and matrices

`cdd_extract_bdd_and_dbm`, `cppext.cpp:73–83`, and the way from a matrix to a diagram and back,
`cdd_from_dbm`, `cdd_contains` and `cdd_extract_dbm`. A closed matrix is the only one of its zone.
-/

namespace UCDD

open IntervalMap DdNode Loop

/-! ### Closed matrices -/

/-- Closed matrices with one zone are equal. -/
theorem Dbm.Canonical.eq_of_zone_eq {dim : ℕ} {D E : Dbm} (hD : D.Canonical dim)
    (hE : E.Canonical dim) (hzone : D.zone dim = E.zone dim) {i j : ℕ} (hi : i < dim)
    (hj : j < dim) : D i j = E i j := by
  by_cases hij : i = j
  · rw [hij, hD.diagonal j hj, hE.diagonal j hj]
  · have hle {D E : Dbm} (hE : E.Canonical dim) (hzone : E.zone dim ⊆ D.zone dim) :
        E i j ≤ D i j := by
      have hsub := (Dbm.closedOn_iff.mp hE.closed).sat_subset (Set.finite_lt_nat dim) hzone hi hj hij
      apply le_of_not_gt
      intro hlt
      obtain ⟨t, htD, htE⟩ := exists_between_cuts hlt
      exact htD (hsub htE)
    exact le_antisymm (hle hD hzone.le) (hle hE hzone.ge)

/-- `dbm_closex` is exact: the closed matrix of the constraints is valid when they are met. -/
def Udbm.Closes (U : Udbm) (dim : ℕ) : Prop :=
  ∀ s Z, U.Constrained dim s Z → Z.Nonempty → U.Valid dim (U.dbmClosex dim s) ∧
    (U.dbmClosex dim s).Canonical dim ∧ (U.dbmClosex dim s).zone dim = Z

section

variable {L : Library} {U : Udbm}

/-- The matrix that is extracted is closed. -/
theorem canonical_of_extractDbm {dim : ℕ} (hcl : U.Closes dim) {d n : DdNode}
    {cs : List Constraint} (hwalk : firstPath L dim d.height d = some (cs, n))
    (hcs : ∀ c ∈ cs, c.Proper L ∧ c.clock1 < dim) (hne : (orthant dim ∩ pathZone cs).Nonempty) :
    ∃ dbm, cddExtractDbm L U d dim = some (cddAnd L d (cddNeg (cddFromDbm L U dbm dim)), dbm) ∧
      dbm.Canonical dim ∧ dbm.zone dim = orthant dim ∩ pathZone cs := by
  obtain ⟨hvalid, hcan, hzone⟩ := hcl _ _ (constrained_path .init hcs) hne
  refine ⟨_, ?_, hcan, hzone⟩
  rw [cddExtractDbm, hwalk]
  exact if_pos hvalid

/-! ### Splitting off a zone -/

/-- The diagram is split into the zone of a closed matrix with a Boolean part, and a rest that is
false on the zone. -/
structure SplitsExactly (L : Library) (f bddPart cddPart : DdNode) (dbm : Dbm) : Prop where
  canonical : dbm.Canonical L.clocknum
  nonempty : (dbm.zone L.clocknum).Nonempty
  boolean : L.Proper bddPart ∧ BooleanOnly L bddPart
  ne_cddfalse : bddPart ≠ cddfalse
  rest : L.Proper cddPart
  holds_iff : ∀ v, Holds L v f ↔
    (v.clock ∈ dbm.zone L.clocknum ∧ Holds L v bddPart) ∨ Holds L v cddPart
  rest_false : ∀ v, v.clock ∈ dbm.zone L.clocknum → ¬ Holds L v cddPart
  boolean_iff : ∀ x ∈ dbm.zone L.clocknum, ∀ b y, Holds L ⟨x, b⟩ f ↔ Holds L ⟨y, b⟩ bddPart

/-- A reduced diagram that is true somewhere, at non-negative valuations only, is split. -/
theorem extractBddAndDbm_splits (hL : L.Declared) (hlen : L.levelinfo.length ≤ maxLevel)
    (hCF : L.ClocksFirst) (hU : U.Exact L.clocknum) (hcl : U.Closes L.clocknum) {f : DdNode}
    (hf : L.Proper f) (hpaths : L.PathsSat f) (hne : f ≠ cddfalse) (hnn : NonNegativeOnly L f) :
    ∃ bddPart cddPart dbm, cddExtractBddAndDbm L U f = some (bddPart, cddPart, dbm) ∧
      SplitsExactly L f bddPart cddPart dbm := by
  have hzone := firstZone_nonempty hL hf hpaths hnn hne
  obtain ⟨bddPart, cddPart, dbm, h⟩ := (extract_spec hL hlen hCF hU hf).1 hzone
  use bddPart, cddPart, dbm
  have hcan : dbm.Canonical L.clocknum := by
    obtain ⟨cs, n, hwalk, hpath⟩ := firstPath_spec hL hf le_rfl
    obtain ⟨x, hx, p, hp, hxp⟩ := hzone
    rw [hwalk] at hp
    cases hp
    obtain ⟨dbm', hdbm', hcan, -⟩ := canonical_of_extractDbm hcl hwalk
      (fun c hc ↦ ⟨hpath.constraints c hc, (hpath.constraints c hc).clock1_lt⟩) ⟨x, hx, hxp⟩
    rw [h.extractDbm] at hdbm'
    cases hdbm'
    exact hcan
  have hiff (v : Valuation) (hv : v.clock ∈ dbm.zone L.clocknum) :
      Holds L v f ↔ Holds L v bddPart := h.bottom_iff hne v (h.zone_eq ▸ hv)
  constructor
  · rw [cddExtractBddAndDbm, h.extractBdd, h.extractDbm]
    rfl
  · constructor
    · exact hcan
    · exact hcan.zone_nonempty
    · exact ⟨h.bottom_proper, h.bottom_bool⟩
    · exact h.bottom_ne
    · exact h.rest_proper
    · intro v
      rw [h.rest_iff, ← h.zone_eq]
      by_cases hv : v.clock ∈ dbm.zone L.clocknum
      · simp [hv, hiff v hv]
      · simp [hv]
    · intro v hv hrest
      rw [h.rest_iff, ← h.zone_eq] at hrest
      exact hrest.2 hv
    · intro x hx b y
      rw [hiff ⟨x, b⟩ hx]
      exact holds_congr_bool h.bottom_proper.wf h.bottom_bool rfl

end

/-- The reference operations close. -/
theorem referenceUdbm_closes {dim : ℕ} : referenceUdbm.Closes dim := by
  intro s Z hs hne
  obtain ⟨hp, hz⟩ := referenceUdbm_constrained hs
  obtain ⟨hzone, hclosed⟩ := Dbm.close_spec hp
  have hcl : (s.1.close dim).ClosedOn dim := hclosed.mpr (hz ▸ hne)
  have hdiag (i : ℕ) : s.1 i i = .fin 1 := by
    clear hp hz hzone hclosed hcl
    induction hs with
    | init => simp [referenceUdbm, refInit]
    | constrain hs hi hj hij hb ih =>
      have hentry : ∀ i j k b D, i ≠ j → Dbm.meet i j b D k k = D k k :=
        fun i j k b D hij ↦ Dbm.meet_of_ne (by omega)
      exact (hentry _ _ _ _ _ hij).trans (ih ⟨_, hne.some_mem.1⟩)
  refine ⟨referenceUdbm_valid.mpr hcl, ⟨hcl, ?_⟩, hzone.trans hz⟩
  intro i hi
  apply le_antisymm _ (hcl.2.1 i hi)
  rw [← hdiag i]
  exact DifferenceBounds.close_le (C := rawBounds) _ i i

/-- The walk passes the constraints and ends in `cddtrue`. -/
structure WalksTo (L : Library) (dim : ℕ) (d : DdNode) (cs : List Constraint) : Prop where
  walk : ∀ fuel, d.height ≤ fuel → firstPath L dim fuel d = some (cs, cddtrue)
  constraints : ∀ c ∈ cs, c.Proper L ∧ c.clock1 < dim

section

variable {L : Library} {dim : ℕ} {d c : DdNode} {cs : List Constraint}

/-- One step of the walk. -/
theorem WalksTo.step (hL : L.Declared) {neg : Bool} {level i j : ℕ} {elem : List (DdNode × Raw)}
    {lower upper : Raw} (hk : L.levelinfo[level]? = some (.cdd i j)) (hi : i < dim)
    (hlow : lower < INF) (hup : -INF < upper) (hc : WalksTo L dim c cs) (hne : c ≠ cddfalse)
    (hmem : ∃ e ∈ elem, e.1.height = c.height) (hedge : firstEdge neg elem = some (lower, c, upper)) :
    WalksTo L dim (.cdd neg level elem) (⟨i, j, lower, upper⟩ :: cs) := by
  obtain ⟨⟨hji, hiL⟩, -⟩ := hL.covers.pair_of_level level i j hk
  constructor
  · intro fuel hfuel
    obtain ⟨e, he, heq⟩ := hmem
    have hlt : e.1.height < (DdNode.cdd neg level elem).height := height_lt_of_mem e he
    cases fuel with
    | zero => omega
    | succ fuel =>
      have hdim : i < dim ∧ j < dim := ⟨hi, by omega⟩
      rw [firstPath]
      simp only [hk, if_pos hdim, hedge, if_neg hne, hc.walk fuel (by omega), Option.map_some]
  · exact List.forall_mem_cons.mpr ⟨⟨⟨hiL, hji, hlow, hup⟩, hi⟩, hc.constraints⟩

/-- The node of a level passes the bounds that it keeps. -/
theorem walksTo_fromDbmNode (hL : L.Declared) {k i j : ℕ} (lo hi : Bool) {lower upper : Raw}
    (hk : L.levelinfo[k]? = some (.cdd i j)) (hi' : i < dim)
    (hlo : lo = true → -INF < lower ∧ lower < INF) (hhi : hi = true → -INF < upper ∧ upper < INF)
    (hc : WalksTo L dim c cs) (hwf : L.WF c) (hne : c ≠ cddfalse) :
    ∃ cs', WalksTo L dim (fromDbmNode k lo hi lower upper c) cs' ∧
      pathZone cs' = {x | (lo = true → Below (x j - x i) lower) ∧
        (hi = true → Below (x i - x j) upper)} ∩ pathZone cs := by
  have hfalse := cddEvalFalse_iff hwf
  have hzone (low up : Raw) (x : ℕ → ℝ) : x ∈ pathZone (⟨i, j, low, up⟩ :: cs) ↔
      (¬ Below (x i - x j) low ∧ Below (x i - x j) up) ∧ x ∈ pathZone cs :=
    List.forall_mem_cons
  cases hcl : lo with
  | true =>
    have hu := (bndU2l_finite (hlo hcl).1 (hlo hcl).2).2
    cases hch : hi with
    | true =>
      rw [fromDbmNode_both]
      use ⟨i, j, bndU2l lower, upper⟩ :: cs
      constructor
      · apply hc.step hL hk hi' hu (hhi hch).1 hne ⟨(c, upper), by simp, rfl⟩
        simp [firstEdge, cddEvalFalse]
      · ext x
        rw [hzone, below_lower]
        simp
    | false =>
      rw [fromDbmNode_lower]
      use ⟨i, j, bndU2l lower, INF⟩ :: cs
      constructor
      · apply hc.step hL hk hi' hu neg_INF_lt hne ⟨(c, INF), by simp, rfl⟩
        simp [firstEdge, cddEvalFalse]
      · ext x
        rw [hzone, below_lower]
        simp
  | false =>
    cases hch : hi with
    | true =>
      rw [fromDbmNode_upper]
      use ⟨i, j, -INF, upper⟩ :: cs
      constructor
      · apply hc.step hL hk hi' neg_INF_lt (hhi hch).1 hne
          ⟨(cddRglr c, upper), by simp, height_negCond c _⟩
        simp [firstEdge, mt hfalse.mp hne]
      · ext x
        rw [hzone]
        simp
    | false =>
      refine ⟨cs, hc, ?_⟩
      ext x
      simp

variable {dbm : Dbm} {ok : ℕ → ℕ → Bool}

theorem walksTo_fromDbmLevels (hL : L.Declared) (hlen : L.levelinfo.length ≤ maxLevel)
    (hfin : ∀ i < dim, ∀ j < dim, ok i j = true → -INF < dbm i j ∧ dbm i j < INF)
    {x : ℕ → ℝ} (hx : ∀ i < dim, ∀ j < dim, ok i j = true → Below (x i - x j) (dbm i j))
    {ks : List ℕ} (hks : ks.Pairwise (· < ·)) (hbound : ∀ k ∈ ks, k < L.levelinfo.length) :
    ∃ cs, WalksTo L dim (ks.foldr (fromDbmLevel L dim dbm ok) cddtrue) cs ∧
      pathZone cs = {x | ∀ k ∈ ks, L.KeptAt dim dbm ok x k} := by
  induction ks with
  | nil =>
    refine ⟨[], ⟨?_, by simp⟩, ?_⟩
    · intro fuel _
      cases fuel <;> rfl
    · ext x
      simp [pathZone]
  | cons k ks ih =>
    obtain ⟨hk, hks⟩ := List.pairwise_cons.mp hks
    obtain ⟨hkl, hbound⟩ := List.forall_mem_cons.mp hbound
    obtain ⟨hp, -, hholds⟩ := fromDbmLevels_spec hlen hfin hx hks hbound
    obtain ⟨cs, hwalk, hzone⟩ := ih hks hbound
    rw [List.foldr_cons]
    set c := ks.foldr (fromDbmLevel L dim dbm ok) cddtrue
    obtain ⟨hsame, hkept⟩ | ⟨i, j, hinfo, hi, hj, hstep, hkept⟩ := fromDbmLevel_cases hkl c
    · rw [hsame]
      refine ⟨cs, hwalk, ?_⟩
      rw [hzone]
      ext x
      exact ⟨fun h ↦ List.forall_mem_cons.mpr ⟨hkept x, h⟩, fun h ↦ (List.forall_mem_cons.mp h).2⟩
    · have hne : c ≠ cddfalse := by
        intro h
        have htrue := (hholds ⟨x, fun _ ↦ false⟩).mpr fun l _ i j _ hi hj ↦
          ⟨hx j hj i hi, hx i hi j hj⟩
        rw [h] at htrue
        exact not_holds_cddfalse htrue
      obtain ⟨cs', hwalk', hzone'⟩ := walksTo_fromDbmNode hL (ok j i) (ok i j) hinfo hi
        (hfin j hj i hi) (hfin i hi j hj) hwalk hp.wf hne
      use cs'
      rw [hstep]
      use hwalk'
      rw [hzone', hzone]
      ext y
      rw [Set.mem_ofPred_eq, List.forall_mem_cons, hkept]
      rfl

/-! ### A matrix and back -/

/-- What `cdd_from_dbm` gives for a matrix, and what the two ways back make of it. -/
structure ConvertsBack (L : Library) (U : Udbm) (constrainN : ConstrainN) (dim : ℕ) (D : Dbm) :
    Prop where
  wf : L.WF (cddFromDbm L U D dim)
  holds_iff : ∀ v, Holds L v (cddFromDbm L U D dim) ↔ v.clock ∈ D.zone dim
  contains : cddContains L constrainN (cddFromDbm L U D dim) D dim = true
  /-- No clock of a matrix that is extracted is negative. -/
  extract : D.zone dim ⊆ orthant dim → ∃ rest D',
    cddExtractDbm L U (cddFromDbm L U D dim) dim = some (rest, D') ∧
      (∀ i < dim, ∀ j < dim, D' i j = D i j) ∧ cddReduce L rest = some cddfalse

theorem convertsBack (hL : L.Declared) (hlen : L.levelinfo.length ≤ maxLevel)
    (hdim : dim ≤ L.clocknum) {U : Udbm} (hmin : ∀ D : Dbm, D.Canonical dim → U.MarksZone dim D)
    (hcl : U.Closes dim) {constrainN : ConstrainN} (hex : ExactConstrainN dim constrainN) {D : Dbm}
    (hD : D.Canonical dim) : ConvertsBack L U constrainN dim D := by
  obtain ⟨hproper, hholds⟩ := cddFromDbm_holds hL hlen hdim (hmin D hD) hD.zone_nonempty
  have hrange (k : ℕ) (hk : k ∈ List.range L.levelinfo.length) : k < L.levelinfo.length :=
    List.mem_range.mp hk
  constructor
  · exact hproper.wf
  · exact hholds
  · have hclocks : ClocksOnly L (cddFromDbm L U D dim) :=
      all_fromDbmLevels hrange fun k i j hij _ _ ↦ ⟨i, j, hij⟩
    have hbelow : ClocksBelow L dim (cddFromDbm L U D dim) := by
      apply all_fromDbmLevels hrange
      intro k i j hij hi hj i' j' hij'
      rw [hij] at hij'
      cases hij'
      exact ⟨hi, hj⟩
    rw [cddContains, containsRec_iff hL hex hproper
      (booleansLast_of_clocksOnly hproper.wf hclocks) hbelow hD, cddNegCond_false]
    intro x hx
    exact ⟨fun _ ↦ false, (hholds _).mpr hx⟩
  · intro hnn
    have hmarks := hmin D hD
    obtain ⟨x, hx⟩ := hD.zone_nonempty
    have hx' := hx
    rw [hmarks.zone_eq] at hx'
    obtain ⟨cs, hwalk, hzone⟩ := walksTo_fromDbmLevels hL hlen
      (fun i hi j hj h ↦ (hmarks.finite i hi j hj h).2) hx' List.pairwise_lt_range hrange
    change WalksTo L dim (cddFromDbm L U D dim) cs at hwalk
    have hpath : orthant dim ∩ pathZone cs = D.zone dim := by
      rw [hzone]
      ext y
      rw [Set.mem_inter_iff, Set.mem_ofPred_eq, keptAt_iff_mem_zone hL hdim hmarks]
      exact ⟨fun h ↦ h.2, fun h ↦ ⟨hnn h, h⟩⟩
    obtain ⟨D', hextract, hD', hzone'⟩ := canonical_of_extractDbm hcl (hwalk.walk _ le_rfl)
      hwalk.constraints (hpath ▸ ⟨x, hx⟩)
    rw [hpath] at hzone'
    refine ⟨_, D', hextract, fun i hi j hj ↦ hD'.eq_of_zone_eq hD hzone' hi hj, ?_⟩
    -- both diagrams hold on the zone
    obtain ⟨hproper', hholds'⟩ := cddFromDbm_holds hL hlen hdim (hmin D' hD') hD'.zone_nonempty
    obtain ⟨g, hg, hred⟩ := cddReduce_spec hL (hproper.and hproper'.neg)
    rw [hg, Option.some_inj, hred.eq_cddfalse]
    intro v hv
    have hnot := (holds_cddAnd hproper.wf hproper'.neg.wf).mp hv
    rw [holds_cddNeg, hholds, hholds', hzone'] at hnot
    exact hnot.2 hnot.1

end

/-- A closed matrix goes to a diagram of its zone, and comes back when no clock is negative. -/
theorem cddFromDbm_correct (L : Library) (hL : L.Declared) (hlen : L.levelinfo.length ≤ maxLevel)
    (U : Udbm) (dim : ℕ) (hdim : dim ≤ L.clocknum)
    (hmin : ∀ D : Dbm, D.Canonical dim → U.MarksZone dim D) (hcl : U.Closes dim)
    (constrainN : ConstrainN) (hex : ExactConstrainN dim constrainN) (D : Dbm)
    (hD : D.Canonical dim) : ConvertsBack L U constrainN dim D :=
  convertsBack hL hlen hdim hmin hcl hex hD

/-- The matrix of `x 1 - x 0 ≥ -1`. -/
def negativeDbm : Dbm := fun i j ↦ if i = j then .fin 1 else if i = 0 then .fin 3 else INF

/-- It comes back as that of `x 1 - x 0 ≥ 0`. -/
theorem cddFromDbm_negative :
    negativeDbm.Canonical 2 ∧
      ¬ ∃ rest D', cddExtractDbm sampleLibrary referenceUdbm
          (cddFromDbm sampleLibrary referenceUdbm negativeDbm 2) 2 = some (rest, D') ∧
        ∀ i < 2, ∀ j < 2, D' i j = negativeDbm i j := by
  refine ⟨⟨by decide, by decide⟩, ?_⟩
  rintro ⟨rest, D', hextract, heq⟩
  have hentry : (cddExtractDbm sampleLibrary referenceUdbm
      (cddFromDbm sampleLibrary referenceUdbm negativeDbm 2) 2).map (fun r ↦ r.2 0 1) =
        some (.fin 1) := by decide
  rw [hextract, Option.map_some, Option.some_inj] at hentry
  exact absurd ((heq 0 (by omega) 1 (by omega)).symm.trans hentry) (by decide)

/-- The matrix of `x 1 - x 0 ≥ 2` comes back. -/
theorem cddFromDbm_correct_sample :
    ConvertsBack sampleLibrary referenceUdbm refConstrainN 2 lowerDbm :=
  cddFromDbm_correct sampleLibrary declared_sampleLibrary (by decide) referenceUdbm 2 (by decide)
    (fun _ h ↦ (referenceUdbm_exact (by decide)).marksZone (referenceUdbm_valid.mpr h.closed))
    referenceUdbm_closes refConstrainN
    (exactConstrainN_refConstrainN 2) lowerDbm lowerDbm_canonical

end UCDD

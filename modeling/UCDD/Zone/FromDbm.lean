import UCDD.Diagram.Ops
import UCDD.Zone.Dbm

/-!
# Diagrams from matrices

`cdd_from_dbm`, `cddop.c:981–1052`. The diagram is built from the last level up, with a node
for each difference on which the minimal graph keeps a bound. A node with an upper bound only
takes over the negation bit of what follows.
-/

namespace UCDD

open IntervalMap DdNode

/-- The node for level `k` over the diagram `c` of the later levels, `cddop.c:1006–1046`. -/
def fromDbmNode (k : ℕ) (lo hi : Bool) (lower upper : Raw) (c : DdNode) : DdNode :=
  if lo then
    (cddMakeCddNode ⊤ k ((cddfalse, bndU2l lower) ::
      if hi then [(c, upper), (cddfalse, INF)] else [(c, INF)])).getD cddfalse
  else if hi then
    cddNegCond ((cddMakeCddNode ⊤ k [(cddRglr c, upper),
      (cddNegCond cddfalse (cddMask c), INF)]).getD cddfalse) (cddMask c)
  else c

/-- One level of `cdd_from_dbm`; `ok` marks the bounds to keep. -/
def fromDbmLevel (L : Library) (dim : ℕ) (dbm : Dbm) (ok : ℕ → ℕ → Bool) (k : ℕ) (c : DdNode) :
    DdNode :=
  match L.levelinfo[k]? with
  | some (.cdd i j) =>
    if i ≥ dim ∨ j ≥ dim then c else fromDbmNode k (ok j i) (ok i j) (dbm j i) (dbm i j) c
  | _ => c

/-- `cdd_from_dbm`. -/
def cddFromDbm (L : Library) (U : Udbm) (dbm : Dbm) (dim : ℕ) : DdNode :=
  (List.range L.levelinfo.length).foldr
    (fromDbmLevel L dim dbm (U.dbmAnalyzeForMinDBM dim dbm)) cddtrue

section

variable {L : Library}

/-! ### One node -/

section Node

variable {k i j : ℕ} {lower upper : Raw} {c : DdNode}

/-! The three shapes of the node. -/

theorem fromDbmNode_both : fromDbmNode k true true lower upper c =
    .cdd false k [(cddfalse, bndU2l lower), (c, upper), (cddfalse, INF)] :=
  cddMakeCddNode_top k

theorem fromDbmNode_lower : fromDbmNode k true false lower upper c =
    .cdd false k [(cddfalse, bndU2l lower), (c, INF)] :=
  cddMakeCddNode_top k

theorem fromDbmNode_upper : fromDbmNode k false true lower upper c =
    .cdd (cddMask c) k [(cddRglr c, upper), (cddNegCond cddfalse (cddMask c), INF)] := by
  rw [fromDbmNode, if_neg Bool.false_ne_true, if_pos rfl, cddMakeCddNode_top, cddNegCond,
    Bool.false_xor]

theorem below_lower {x : ℕ → ℝ} :
    ¬ Below (x i - x j) (bndU2l lower) ↔ Below (x j - x i) lower := by
  rw [← neg_sub, below_bndU2l, not_not]

/-- The lower bound of an interval that contains a point. -/
private theorem bndU2l_lt {t : ℝ} (hlow : Below (-t) lower) (hup : Below t upper) :
    bndU2l lower < upper := by
  have hnot : ¬ Below t (bndU2l lower) := by
    have := below_bndU2l (-t) lower
    rw [neg_neg] at this
    rw [this]
    exact not_not.mpr hlow
  apply lt_of_not_ge
  intro hle
  exact hnot (hup.mono hle)

theorem bndU2l_finite (hl : -INF < lower) (hu : lower < INF) :
    -INF < bndU2l lower ∧ bndU2l lower < INF := by
  obtain ⟨a, rfl⟩ := Raw.exists_fin hl hu
  exact ⟨Raw.negInf_lt_fin _, Raw.fin_lt_inf _⟩

variable (hk : L.levelinfo[k]? = some (.cdd i j)) (hc : L.Proper c) (hlevel : k < c.level)
  (hne : c ≠ cddfalse)

include hk hc hlevel hne

private theorem fromDbm_both (hl : -INF < bndU2l lower) (hlt : bndU2l lower < upper)
    (hu : upper < INF) :
    L.Proper (.cdd false k [(cddfalse, bndU2l lower), (c, upper), (cddfalse, INF)]) := by
  have hkm : k < maxLevel := lt_of_lt_of_le hlevel hc.wf.level_le
  constructor
  · apply Library.WellFormed.cdd false ⟨i, j, hk⟩
    · simp only [List.mem_cons, List.not_mem_nil, or_false, forall_eq_or_imp, forall_eq]
      exact ⟨hkm, hlevel, hkm⟩
    · exact ⟨hlt, hu, rfl⟩
    · simp [Alternating, hne, hne.symm]
    · simp
    · simp [cddMask, cddfalse]
    · simp only [List.mem_cons, List.not_mem_nil, or_false, forall_eq_or_imp, forall_eq]
      exact ⟨wf_cddfalse, hc.wf, wf_cddfalse⟩
  · apply All.cdd _ trivial
    · simp only [List.mem_cons, List.not_mem_nil, or_false, forall_eq_or_imp, forall_eq]
      exact ⟨hl, lt_trans hl hlt, neg_INF_lt⟩
    · simp only [List.mem_cons, List.not_mem_nil, or_false, forall_eq_or_imp, forall_eq]
      exact ⟨.terminal _, hc.inRange, .terminal _⟩

private theorem fromDbm_lower (hl : -INF < bndU2l lower) (hu : bndU2l lower < INF) :
    L.Proper (.cdd false k [(cddfalse, bndU2l lower), (c, INF)]) := by
  have hkm : k < maxLevel := lt_of_lt_of_le hlevel hc.wf.level_le
  constructor
  · apply Library.WellFormed.cdd false ⟨i, j, hk⟩
    · simp only [List.mem_cons, List.not_mem_nil, or_false, forall_eq_or_imp, forall_eq]
      exact ⟨hkm, hlevel⟩
    · exact ⟨hu, rfl⟩
    · simp [Alternating, hne.symm]
    · simp
    · simp [cddMask, cddfalse]
    · simp only [List.mem_cons, List.not_mem_nil, or_false, forall_eq_or_imp, forall_eq]
      exact ⟨wf_cddfalse, hc.wf⟩
  · apply All.cdd _ trivial
    · simp only [List.mem_cons, List.not_mem_nil, or_false, forall_eq_or_imp, forall_eq]
      exact ⟨hl, neg_INF_lt⟩
    · simp only [List.mem_cons, List.not_mem_nil, or_false, forall_eq_or_imp, forall_eq]
      exact ⟨.terminal _, hc.inRange⟩

private theorem fromDbm_upper (hl : -INF < upper) (hu : upper < INF) (neg : Bool) :
    L.Proper (.cdd neg k [(cddRglr c, upper), (cddNegCond cddfalse (cddMask c), INF)]) := by
  have hkm : k < maxLevel := lt_of_lt_of_le hlevel hc.wf.level_le
  have hdiff : cddRglr c ≠ cddNegCond cddfalse (cddMask c) := by
    intro h
    apply hne
    rw [← cddNegCond_rglr c, h, cddNegCond_negCond, Bool.xor_self, cddNegCond_false]
  constructor
  · apply Library.WellFormed.cdd neg ⟨i, j, hk⟩
    · simp only [List.mem_cons, List.not_mem_nil, or_false, forall_eq_or_imp, forall_eq]
      rw [cddRglr, level_negCond, level_negCond]
      exact ⟨hlevel, hkm⟩
    · exact ⟨hu, rfl⟩
    · simp [Alternating, hdiff]
    · simp
    · simp
    · simp only [List.mem_cons, List.not_mem_nil, or_false, forall_eq_or_imp, forall_eq]
      exact ⟨hc.wf.rglr, wf_cddfalse.negCond _⟩
  · apply All.cdd _ trivial
    · simp only [List.mem_cons, List.not_mem_nil, or_false, forall_eq_or_imp, forall_eq]
      exact ⟨hl, neg_INF_lt⟩
    · simp only [List.mem_cons, List.not_mem_nil, or_false, forall_eq_or_imp, forall_eq]
      exact ⟨hc.inRange.negCond _, .terminal _⟩

/-- The node adds the bounds that are kept. -/
theorem fromDbmNode_spec {lo hi : Bool} (hlo : lo = true → -INF < lower ∧ lower < INF)
    (hhi : hi = true → -INF < upper ∧ upper < INF)
    (hmeet : ∃ t : ℝ, (lo = true → Below (-t) lower) ∧ (hi = true → Below t upper)) :
    L.Proper (fromDbmNode k lo hi lower upper c) ∧
      (∀ m < k, m < (fromDbmNode k lo hi lower upper c).level) ∧
      ∀ v, Holds L v (fromDbmNode k lo hi lower upper c) ↔
        (lo = true → Below (v.clock j - v.clock i) lower) ∧
        (hi = true → Below (v.clock i - v.clock j) upper) ∧ Holds L v c := by
  obtain ⟨t, htl, hth⟩ := hmeet
  cases hcl : lo with
  | true =>
    obtain ⟨hl, hu⟩ := hlo hcl
    obtain ⟨hl', hu'⟩ := bndU2l_finite hl hu
    cases hch : hi with
    | true =>
      have hp := fromDbm_both hk hc hlevel hne hl' (bndU2l_lt (htl hcl) (hth hch)) (hhi hch).2
      rw [fromDbmNode_both]
      refine ⟨hp, fun m hm ↦ hm, ?_⟩
      intro v
      rw [holds_pieces hp hk]
      simp [pieces, below_lower]
      tauto
    | false =>
      have hp := fromDbm_lower hk hc hlevel hne hl' hu'
      rw [fromDbmNode_lower]
      refine ⟨hp, fun m hm ↦ hm, ?_⟩
      intro v
      rw [holds_pieces hp hk]
      simp [pieces, below_lower]
  | false =>
    cases hch : hi with
    | true =>
      obtain ⟨hl, hu⟩ := hhi hch
      have hp := fromDbm_upper hk hc hlevel hne hl hu (cddMask c)
      rw [fromDbmNode_upper]
      refine ⟨hp, fun m hm ↦ hm, ?_⟩
      intro v
      rw [holds_pieces hp hk]
      simp [pieces]
    | false =>
      refine ⟨hc, fun m hm ↦ lt_trans hm hlevel, ?_⟩
      intro v
      simp [fromDbmNode]

end Node

/-! ### All levels -/

/-- The bounds that level `k` keeps. -/
def Library.KeptAt (L : Library) (dim : ℕ) (dbm : Dbm) (ok : ℕ → ℕ → Bool) (x : ℕ → ℝ) (k : ℕ) :
    Prop :=
  ∀ i j, L.levelinfo[k]? = some (.cdd i j) → i < dim → j < dim →
    (ok j i = true → Below (x j - x i) (dbm j i)) ∧ (ok i j = true → Below (x i - x j) (dbm i j))

variable {dim : ℕ} {dbm : Dbm} {ok : ℕ → ℕ → Bool}

/-- A level is passed over, and keeps no bound, or it gets the node of its difference. -/
theorem fromDbmLevel_cases {k : ℕ} (hk : k < L.levelinfo.length) (c : DdNode) :
    (fromDbmLevel L dim dbm ok k c = c ∧ ∀ x, L.KeptAt dim dbm ok x k) ∨
      ∃ i j, L.levelinfo[k]? = some (.cdd i j) ∧ i < dim ∧ j < dim ∧
        fromDbmLevel L dim dbm ok k c = fromDbmNode k (ok j i) (ok i j) (dbm j i) (dbm i j) c ∧
        ∀ x, L.KeptAt dim dbm ok x k ↔ (ok j i = true → Below (x j - x i) (dbm j i)) ∧
          (ok i j = true → Below (x i - x j) (dbm i j)) := by
  cases hinfo : L.levelinfo[k]? with
  | none =>
    rw [List.getElem?_eq_none_iff] at hinfo
    omega
  | some info =>
    cases info with
    | bdd =>
      left
      constructor
      · rw [fromDbmLevel, hinfo]
      · intro x i j hij
        rw [hinfo] at hij
        cases hij
    | cdd i j =>
      by_cases hd : i ≥ dim ∨ j ≥ dim
      · left
        constructor
        · simp only [fromDbmLevel, hinfo, if_pos hd]
        · intro x i' j' hij hi hj
          rw [hinfo] at hij
          cases hij
          omega
      · right
        use i, j, rfl, by omega, by omega
        constructor
        · simp only [fromDbmLevel, hinfo, if_neg hd]
        · intro x
          constructor
          · exact fun h ↦ h i j hinfo (by omega) (by omega)
          · intro h i' j' hij _ _
            rw [hinfo] at hij
            cases hij
            exact h

theorem fromDbmLevels_spec (hlen : L.levelinfo.length ≤ maxLevel)
    (hfin : ∀ i < dim, ∀ j < dim, ok i j = true → -INF < dbm i j ∧ dbm i j < INF)
    {x : ℕ → ℝ} (hx : ∀ i < dim, ∀ j < dim, ok i j = true → Below (x i - x j) (dbm i j))
    {ks : List ℕ} (hks : ks.Pairwise (· < ·)) (hbound : ∀ k ∈ ks, k < L.levelinfo.length) :
    L.Proper (ks.foldr (fromDbmLevel L dim dbm ok) cddtrue) ∧
      (∀ m < maxLevel, (∀ k ∈ ks, m < k) →
        m < (ks.foldr (fromDbmLevel L dim dbm ok) cddtrue).level) ∧
      ∀ v, Holds L v (ks.foldr (fromDbmLevel L dim dbm ok) cddtrue) ↔
        ∀ k ∈ ks, L.KeptAt dim dbm ok v.clock k := by
  induction ks with
  | nil =>
    refine ⟨proper_cddtrue, fun m hm _ ↦ hm, ?_⟩
    intro v
    simp
  | cons k ks ih =>
    obtain ⟨hk, hks⟩ := List.pairwise_cons.mp hks
    obtain ⟨hkl, hbound⟩ := List.forall_mem_cons.mp hbound
    obtain ⟨hp, hlevel, hholds⟩ := ih hks hbound
    rw [List.foldr_cons]
    set c := ks.foldr (fromDbmLevel L dim dbm ok) cddtrue with hcdef
    obtain ⟨hsame, hkept⟩ | ⟨i, j, hinfo, hi, hj, hstep, hkept⟩ := fromDbmLevel_cases hkl c
    · rw [hsame]
      refine ⟨hp, fun m hm h ↦ hlevel m hm (List.forall_mem_cons.mp h).2, ?_⟩
      intro v
      rw [hholds, List.forall_mem_cons]
      exact ⟨fun h ↦ ⟨hkept v.clock, h⟩, fun h ↦ h.2⟩
    · have hne : c ≠ cddfalse := by
        intro h
        have htrue := (hholds ⟨x, fun _ ↦ false⟩).mpr fun l _ i j _ hi hj ↦
          ⟨hx j hj i hi, hx i hi j hj⟩
        rw [h] at htrue
        exact not_holds_cddfalse htrue
      have hkc : k < c.level := hlevel k (by omega) hk
      obtain ⟨hp', hlevel', hholds'⟩ := fromDbmNode_spec hinfo hp hkc hne
        (hfin j hj i hi) (hfin i hi j hj)
        ⟨x i - x j, by rw [neg_sub]; exact hx j hj i hi, hx i hi j hj⟩
      rw [hstep]
      refine ⟨hp', fun m hm h ↦ hlevel' m (List.forall_mem_cons.mp h).1, ?_⟩
      intro v
      rw [hholds', hholds, List.forall_mem_cons, hkept, and_assoc]

/-- Every node is on the level of a difference of clocks below `dim`. -/
theorem all_fromDbmLevels {P : ℕ → Prop} {ks : List ℕ} (hbound : ∀ k ∈ ks, k < L.levelinfo.length)
    (hP : ∀ k i j, L.levelinfo[k]? = some (.cdd i j) → i < dim → j < dim → P k) :
    All P (fun _ ↦ True) (ks.foldr (fromDbmLevel L dim dbm ok) cddtrue) := by
  induction ks with
  | nil => exact .terminal _
  | cons k ks ih =>
    obtain ⟨hkl, hbound⟩ := List.forall_mem_cons.mp hbound
    have hc := ih hbound
    rw [List.foldr_cons]
    set c := ks.foldr (fromDbmLevel L dim dbm ok) cddtrue
    obtain ⟨hsame, -⟩ | ⟨i, j, hinfo, hi, hj, hstep, -⟩ := fromDbmLevel_cases hkl c
    · rw [hsame]
      exact hc
    · rw [hstep]
      have hk := hP k i j hinfo hi hj
      cases ok j i <;> cases ok i j
      · exact hc
      · rw [fromDbmNode_upper]
        apply All.cdd _ hk fun _ _ ↦ trivial
        simp only [List.mem_cons, List.not_mem_nil, or_false, forall_eq_or_imp, forall_eq]
        exact ⟨hc.negCond _, .terminal _⟩
      · rw [fromDbmNode_lower]
        apply All.cdd _ hk fun _ _ ↦ trivial
        simp only [List.mem_cons, List.not_mem_nil, or_false, forall_eq_or_imp, forall_eq]
        exact ⟨.terminal _, hc⟩
      · rw [fromDbmNode_both]
        apply All.cdd _ hk fun _ _ ↦ trivial
        simp only [List.mem_cons, List.not_mem_nil, or_false, forall_eq_or_imp, forall_eq]
        exact ⟨.terminal _, hc, .terminal _⟩

/-- The marked bounds are finite, and they give the zone. -/
structure Udbm.MarksZone (U : Udbm) (dim : ℕ) (dbm : Dbm) : Prop where
  finite : ∀ i < dim, ∀ j < dim, U.dbmAnalyzeForMinDBM dim dbm i j = true →
    i ≠ j ∧ -INF < dbm i j ∧ dbm i j < INF
  zone_eq : dbm.zone dim = {x | ∀ i < dim, ∀ j < dim, U.dbmAnalyzeForMinDBM dim dbm i j = true →
    Below (x i - x j) (dbm i j)}

/-- Every pair of declared clocks has a level, so the levels keep every marked bound. -/
theorem keptAt_iff_mem_zone {U : Udbm} (hL : L.Declared) (hdim : dim ≤ L.clocknum)
    (hU : U.MarksZone dim dbm) (x : ℕ → ℝ) :
    (∀ k ∈ List.range L.levelinfo.length, L.KeptAt dim dbm (U.dbmAnalyzeForMinDBM dim dbm) x k) ↔
      x ∈ dbm.zone dim := by
  rw [hU.zone_eq]
  constructor
  · intro h i hi j hj hok
    have hlevel (a b : ℕ) (hba : b < a) (ha : a < dim) :
        L.KeptAt dim dbm (U.dbmAnalyzeForMinDBM dim dbm) x (L.diff2level (cddDifference a b)) ∧
        L.levelinfo[L.diff2level (cddDifference a b)]? = some (.cdd a b) := by
      have hab := hL.covers.level_of_pair a b ⟨hba, by omega⟩
      exact ⟨h _ (List.mem_range.mpr (List.getElem?_eq_some_iff.mp hab).1), hab⟩
    cases lt_or_gt_of_ne (hU.finite i hi j hj hok).1 with
    | inl hlt =>
      obtain ⟨hkept, hab⟩ := hlevel j i hlt hj
      exact (hkept j i hab hj hi).1 hok
    | inr hgt =>
      obtain ⟨hkept, hab⟩ := hlevel i j hgt hi
      exact (hkept i j hab hi hj).2 hok
  · intro h k _ i j _ hi hj
    exact ⟨h j hj i hi, h i hi j hj⟩

/-- The diagram holds on the zone. -/
theorem cddFromDbm_holds {U : Udbm} (hL : L.Declared) (hlen : L.levelinfo.length ≤ maxLevel)
    (hdim : dim ≤ L.clocknum) (hU : U.MarksZone dim dbm) (hne : (dbm.zone dim).Nonempty) :
    L.Proper (cddFromDbm L U dbm dim) ∧
      ∀ v, Holds L v (cddFromDbm L U dbm dim) ↔ v.clock ∈ dbm.zone dim := by
  obtain ⟨x, hx⟩ := hne
  rw [hU.zone_eq] at hx
  obtain ⟨hp, -, hholds⟩ := fromDbmLevels_spec hlen
    (fun i hi j hj h ↦ (hU.finite i hi j hj h).2) hx List.pairwise_lt_range
    (fun k (hk : k ∈ List.range L.levelinfo.length) ↦ List.mem_range.mp hk)
  refine ⟨hp, ?_⟩
  intro v
  rw [cddFromDbm, hholds, keptAt_iff_mem_zone hL hdim hU]

theorem Udbm.Exact.marksZone {U : Udbm} (hU : U.Exact dim) (hv : U.Valid dim dbm) :
    U.MarksZone dim dbm :=
  ⟨hU.minDBM_finite dbm hv, hU.minDBM dbm hv⟩

theorem cddFromDbm_spec {U : Udbm} (hL : L.Declared) (hlen : L.levelinfo.length ≤ maxLevel)
    (hU : U.Exact L.clocknum) (hv : U.Valid L.clocknum dbm) :
    L.Proper (cddFromDbm L U dbm L.clocknum) ∧
      ∀ v, Holds L v (cddFromDbm L U dbm L.clocknum) ↔ v.clock ∈ dbm.zone L.clocknum :=
  cddFromDbm_holds hL hlen le_rfl (hU.marksZone hv) (hU.valid_nonempty dbm hv)

end

end UCDD

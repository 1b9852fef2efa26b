import Mathlib.Tactic.Ring
import UCDD.Zone.Matrix

/-!
# A reference for the matrix operations

The operations of the DBM library, each as a change of some bounds followed by closing the
matrix at every clock. They are exact, in every dimension.
-/

namespace UCDD

open DifferenceBounds

/-! ### The operations -/

/-- `dbm_init`: every clock is non-negative. -/
def refInit (_dim : ℕ) : Dbm := fun i j ↦ if i = 0 ∨ i = j then .fin 1 else INF

/-- `dbm_updateValue`. -/
def refUpdateValue (dim k : ℕ) (value : ℤ) (D : Dbm) : Dbm :=
  (((D.forget k).meet k 0 (.fin (2 * value + 1))).meet 0 k (.fin (2 * -value + 1))).close dim

/-- `dbm_freeClock`. -/
def refFreeClock (dim k : ℕ) (D : Dbm) : Dbm := ((D.forget k).meet 0 k (.fin 1)).close dim

/-- The matrices of the list closed, without the empty ones. -/
def refNormalize (dim : ℕ) (Ds : List Dbm) : List Dbm :=
  (Ds.map (Dbm.close dim)).filter fun D ↦ decide (D.ClosedOn dim)

/-- The pairs of clocks. -/
def clockPairs (dim : ℕ) : List (ℕ × ℕ) :=
  (List.range dim).flatMap fun i ↦ (List.range dim).map fun j ↦ (i, j)

/-- The entrywise minimum. -/
def Dbm.inter (D E : Dbm) : Dbm := fun i j ↦ min (D i j) (E i j)

/-- `D` without the zone of `E`: each bound of `E` is violated in turn. -/
def refMinus (dim : ℕ) (D E : Dbm) : List Dbm :=
  refNormalize dim (((clockPairs dim).filter fun p ↦ decide (E p.1 p.2 < INF)).map fun p ↦
    D.meet p.2 p.1 (bndL2u (E p.1 p.2)))

/-- The predecessors of one zone that avoid another one. -/
def refPredtOne (dim : ℕ) (B G : Dbm) : List Dbm :=
  refMinus dim (B.zeroLower.close dim) (G.zeroLower.close dim) ++
    ((refNormalize dim [B.inter (G.zeroLower.close dim)]).flatMap fun C ↦ refMinus dim C G).map
      fun C ↦ C.zeroLower.close dim

/-- `fed_t::predt`. -/
def refPredt (dim : ℕ) (bad good : List Dbm) : List Dbm :=
  bad.flatMap fun B ↦ good.foldl
    (fun acc G ↦ refNormalize dim (acc.flatMap fun C ↦ (refPredtOne dim B G).map C.inter))
    [B.zeroLower.close dim]

/-- The reference operations; the minimal graph keeps every finite bound. -/
def referenceUdbm : Udbm where
  dbmInit := refInit
  dbmConstrain _ i j constraint s :=
    (s.1.meet i j constraint, fun k ↦ s.2 k || decide (k = i) || decide (k = j))
  dbmClosex dim s := s.1.close dim
  dbmIsValid dim dbm := decide (dbm.ClosedOn dim)
  dbmAnalyzeForMinDBM _ dbm i j := decide (i ≠ j) && decide (dbm i j < INF)
  dbmUp dim dbm := dbm.forgetUpper.close dim
  dbmDown dim dbm := dbm.zeroLower.close dim
  dbmUpdateValue := refUpdateValue
  dbmFreeClock := refFreeClock
  fedPredt := refPredt

theorem referenceUdbm_valid {dim : ℕ} {D : Dbm} :
    referenceUdbm.Valid dim D ↔ D.ClosedOn dim := decide_eq_true_iff

/-! ### Their zones -/

section

variable {dim : ℕ} {D : Dbm} {k : ℕ}

theorem refInit_proper : (refInit dim).ProperOn dim := by
  intro i _ j _
  unfold refInit
  split
  · exact Raw.negInf_lt_fin 1
  · exact neg_INF_lt

/-- A weak upper bound. -/
private theorem below_weak {t : ℝ} {c : ℤ} : Below t (.fin (2 * c + 1)) ↔ t ≤ c := upperSat_odd t c

private theorem below_one {t : ℝ} : Below t (.fin 1) ↔ t ≤ 0 := by
  have := upperSat_odd t 0
  rw [Int.cast_zero] at this
  exact this

theorem zone_refInit : (refInit dim).zone dim = orthant dim := by
  ext x
  constructor
  · intro hx i hi
    have h := hx 0 (by omega) i hi
    rw [refInit, if_pos (Or.inl rfl), below_one] at h
    linarith
  · intro hx i hi j hj
    unfold refInit
    split
    · next h =>
      rw [below_one]
      cases h with
      | inl h =>
        rw [h]
        linarith [hx j hj]
      | inr h => rw [h, sub_self]
    · exact below_INF _

theorem Dbm.ClosedOn.proper (h : D.ClosedOn dim) : D.ProperOn dim := h.1

/-- The clocks below `dim` other than `k`. -/
private def others (dim k : ℕ) : Set ℕ := {i | i < dim ∧ i ≠ k}

private theorem insert_others (hk : k < dim) : insert k (others dim k) = {i | i < dim} := by
  ext i
  constructor
  · rintro (rfl | h)
    · exact hk
    · exact h.1
  · intro hi
    by_cases h : i = k
    · exact Or.inl h
    · exact Or.inr ⟨hi, h⟩

private theorem finite_others : (others dim k).Finite :=
  (Set.finite_lt_nat dim).subset fun _ h ↦ h.1

private theorem not_mem_others : k ∉ others dim k := fun h ↦ h.2 rfl

theorem Dbm.ProperOn.forget (h : D.ProperOn dim) : (D.forget k).ProperOn dim := by
  intro i hi j hj
  unfold Dbm.forget
  split
  · exact neg_INF_lt
  · exact h i hi j hj

/-- A point between the other clocks extends to clock `k`. -/
theorem Dbm.ClosedOn.exists_update (h : D.ClosedOn dim) (hk : k < dim) {x : ℕ → ℝ}
    (hx : ∀ i < dim, ∀ j < dim, i ≠ k → j ≠ k → Below (x i - x j) (D i j)) :
    ∃ t, Function.update x k t ∈ D.zone dim := by
  have hclosed := Dbm.closedOn_iff.mp h
  rw [← insert_others hk] at hclosed
  obtain ⟨t, ht⟩ := exists_update_mem_zone finite_others not_mem_others hclosed
    (fun i hi j hj ↦ hx i hi.1 j hj.1 hi.2 hj.2)
  rw [insert_others hk] at ht
  exact ⟨t, ht⟩

/-- Without the bounds on clock `k` the clock can have any value. -/
theorem mem_zone_forget (h : D.ClosedOn dim) (hk : k < dim) {y : ℕ → ℝ} :
    y ∈ (D.forget k).zone dim ↔ ∃ t, Function.update y k t ∈ D.zone dim := by
  constructor
  · intro hy
    apply h.exists_update hk
    intro i hi j hj hik hjk
    have hij := hy i hi j hj
    rwa [Dbm.forget, if_neg (by tauto)] at hij
  · rintro ⟨t, ht⟩ i hi j hj
    unfold Dbm.forget
    split
    · exact below_INF _
    · next hne =>
      have hij := ht i hi j hj
      by_cases heq : i = j
      · subst heq
        rw [sub_self] at hij ⊢
        exact hij
      · rwa [Function.update_of_ne (by tauto), Function.update_of_ne (by tauto)] at hij

theorem zone_refUpdateValue_aux (h : D.ClosedOn dim) (hk0 : k ≠ 0) (hk : k < dim) (value : ℤ) :
    (((D.forget k).meet k 0 (.fin (2 * value + 1))).meet 0 k (.fin (2 * -value + 1))).zone dim =
      {y | ∃ x ∈ D.zone dim, Resets dim k value x y} := by
  have h0 : 0 < dim := by omega
  ext y
  rw [Dbm.mem_zone_meet h0 hk, Dbm.mem_zone_meet hk h0, mem_zone_forget h hk, below_weak,
    below_weak]
  constructor
  · rintro ⟨⟨⟨t, ht⟩, hle⟩, hge⟩
    refine ⟨_, ht, ?_⟩
    intro i hi
    unfold resetTo
    by_cases hik : i = k
    · rw [hik, Function.update_self, Function.update_of_ne hk0.symm]
      push_cast at hge
      linarith
    · rw [Function.update_of_ne hik, Function.update_of_ne hik]
  · rintro ⟨x, hx, hy⟩
    have hyk : y k = y 0 + value := by
      rw [hy k hk, hy 0 h0, resetTo, Function.update_self, Function.update_of_ne hk0.symm]
    refine ⟨⟨⟨x k, ?_⟩, ?_⟩, ?_⟩
    · apply mem_zone_congr hx
      intro i hi
      by_cases hik : i = k
      · rw [hik, Function.update_self]
      · rw [Function.update_of_ne hik, hy i hi, resetTo, Function.update_of_ne hik]
    · linarith
    · push_cast
      linarith

theorem zone_refFreeClock_aux (h : D.ClosedOn dim) (hk : k < dim) :
    ((D.forget k).meet 0 k (.fin 1)).zone dim = {y | ∃ x ∈ D.zone dim, Frees k x y} := by
  have h0 : 0 < dim := by omega
  ext y
  rw [Dbm.mem_zone_meet h0 hk, mem_zone_forget h hk, below_one]
  constructor
  · rintro ⟨⟨t, ht⟩, hle⟩
    exact ⟨_, ht, by linarith, t, rfl⟩
  · rintro ⟨x, hx, hle, t, rfl⟩
    exact ⟨⟨t, hx⟩, by linarith⟩

/-- The zone of the delayed matrix. -/
theorem zone_forgetUpper (h : D.ClosedOn dim) (hdim : 0 < dim) :
    D.forgetUpper.zone dim = {y | ∃ x ∈ D.zone dim, Delays x y} := by
  ext y
  constructor
  · intro hy
    have hclosed := Dbm.closedOn_iff.mp h
    rw [← insert_others hdim] at hclosed
    obtain ⟨t, -, hty, ht⟩ := exists_extension (x := y) (A := Set.univ) (U := Set.Ici (y 0))
      finite_others not_mem_others hclosed (by
        intro i hi j hj
        have hij := hy i hi.1 j hj.1
        rw [Dbm.forgetUpper, if_neg (fun hne ↦ hj.2 hne.2)] at hij
        exact hij)
      isLowerSet_univ (isUpperSet_Ici _) ⟨y 0, trivial, Set.mem_Ici.mpr le_rfl⟩
      (by
        intro j hj
        have h0j := hy 0 hdim j hj.1
        rw [Dbm.forgetUpper, if_neg (fun hne ↦ hne.1 rfl)] at h0j
        exact ⟨y 0, Set.mem_Ici.mpr le_rfl, h0j⟩)
      (by
        intro i hi
        obtain ⟨s, hs⟩ := rawBounds.sat_nonempty (h.proper i hi.1 0 hdim)
        exact ⟨y i - s, trivial, by rwa [sub_sub_cancel]⟩)
    rw [insert_others hdim] at ht
    have hle : y 0 ≤ t := hty
    refine ⟨fun i ↦ Function.update y 0 t i - (t - y 0), ?_, t - y 0, by linarith, ?_⟩
    · apply Dbm.mem_zone_shift (-(t - y 0)) ht
      intro i _
      ring
    · ext i
      unfold delayBy
      by_cases hi : i = 0
      · rw [if_pos hi, hi]
        show y 0 = Function.update y 0 t 0 - (t - y 0)
        rw [Function.update_self]
        ring
      · rw [if_neg hi]
        show y i = Function.update y 0 t i - (t - y 0) + (t - y 0)
        rw [Function.update_of_ne hi]
        ring
  · rintro ⟨x, hx, d, hd, rfl⟩ i hi j hj
    unfold Dbm.forgetUpper
    split
    · exact below_INF _
    · next hne =>
      apply (hx i hi j hj).anti
      by_cases h0i : i = 0
      · by_cases h0j : j = 0
        · rw [h0i, h0j]
          simp
        · rw [h0i, delayBy_zero, delayBy_of_ne h0j]
          linarith
      · have h0j : j ≠ 0 := fun h ↦ hne ⟨h0i, h⟩
        rw [delayBy_of_ne h0i, delayBy_of_ne h0j]
        linarith

/-- The zone of the matrix of the past. -/
theorem zone_zeroLower (h : D.ClosedOn dim) (hdim : 0 < dim) :
    D.zeroLower.zone dim = {y | ∃ x ∈ D.zone dim, DelaysFrom dim x y} := by
  ext y
  constructor
  · intro hy
    have hclosed := Dbm.closedOn_iff.mp h
    rw [← insert_others hdim] at hclosed
    obtain ⟨t, hty, -, ht⟩ := exists_extension (x := y) (A := Set.Iic (y 0)) (U := Set.univ)
      finite_others not_mem_others hclosed (by
        intro i hi j hj
        have hij := hy i hi.1 j hj.1
        rw [Dbm.zeroLower, if_neg (fun hne ↦ hi.2 hne.1)] at hij
        exact hij)
      (isLowerSet_Iic _) isUpperSet_univ ⟨y 0, Set.mem_Iic.mpr le_rfl, trivial⟩
      (by
        intro j hj
        obtain ⟨s, hs⟩ := rawBounds.sat_nonempty (h.proper 0 hdim j hj.1)
        exact ⟨s + y j, trivial, by rwa [add_sub_cancel_right]⟩)
      (by
        intro i hi
        have hi0 := hy i hi.1 0 hdim
        rw [Dbm.zeroLower, if_neg (fun hne ↦ hi.2 hne.1)] at hi0
        exact ⟨y 0, Set.mem_Iic.mpr le_rfl, hi0⟩)
    rw [insert_others hdim] at ht
    have hle : t ≤ y 0 := hty
    have hyo : y ∈ orthant dim := by
      intro i hi
      by_cases h0 : i = 0
      · rw [h0]
      · have h0i := hy 0 hdim i hi
        rw [Dbm.zeroLower, if_pos ⟨rfl, h0⟩, below_one] at h0i
        linarith
    refine ⟨delayBy y (y 0 - t), ?_, hyo, y 0 - t, by linarith, rfl⟩
    apply Dbm.mem_zone_shift (y 0 - t) ht
    intro i _
    by_cases h0 : i = 0
    · rw [h0, delayBy_zero, Function.update_self]
      ring
    · rw [delayBy_of_ne h0, Function.update_of_ne h0]
  · rintro ⟨x, hx, hy, d, hd, rfl⟩ i hi j hj
    unfold Dbm.zeroLower
    split
    · next hne =>
      rw [below_one, hne.1]
      linarith [hy j hj]
    · next hne =>
      apply (hx i hi j hj).anti
      by_cases h0i : i = 0
      · have h0j : j = 0 := by
          by_contra h
          exact hne ⟨h0i, h⟩
        rw [h0i, h0j]
        simp
      · by_cases h0j : j = 0
        · rw [h0j, delayBy_zero, delayBy_of_ne h0i]
          linarith
        · rw [delayBy_of_ne h0i, delayBy_of_ne h0j]
          linarith

/-- A closed result with the wanted zone. -/
private theorem closed_of_zone {E : Dbm} {Z : Set (ℕ → ℝ)} (hE : E.ProperOn dim)
    (hzone : E.zone dim = Z) (hne : Z.Nonempty) :
    referenceUdbm.Valid dim (E.close dim) ∧ (E.close dim).zone dim = Z := by
  obtain ⟨h1, h2⟩ := Dbm.close_spec hE
  rw [referenceUdbm_valid, h2, h1, hzone]
  exact ⟨hne, rfl⟩

theorem referenceUdbm_constrained {s : Dbm × (ℕ → Bool)} {Z : Set (ℕ → ℝ)}
    (h : referenceUdbm.Constrained dim s Z) : s.1.ProperOn dim ∧ s.1.zone dim = Z := by
  induction h with
  | init => exact ⟨refInit_proper, zone_refInit⟩
  | constrain _ hi hj _ hb ih =>
    refine ⟨ih.1.meet hb, ?_⟩
    ext x
    rw [← ih.2]
    exact Dbm.mem_zone_meet hi hj

/-- The reference operations are exact. -/
theorem referenceUdbm_exact (hdim : 0 < dim) : referenceUdbm.Exact dim := by
  have hnonempty {D : Dbm} (hD : referenceUdbm.Valid dim D) : (D.zone dim).Nonempty := by
    rw [referenceUdbm_valid] at hD
    exact (Dbm.closedOn_iff.mp hD).zone_nonempty (Set.finite_lt_nat dim)
  constructor
  · intro s Z hs
    obtain ⟨hp, hz⟩ := referenceUdbm_constrained hs
    obtain ⟨h1, h2⟩ := Dbm.close_spec hp
    rw [hz] at h1 h2
    exact ⟨referenceUdbm_valid.trans h2, fun _ ↦ h1⟩
  · intro D hD
    exact hnonempty hD
  · refine ⟨?_, zone_refInit⟩
    apply referenceUdbm_valid.mpr
    have hfin : ∀ i < dim, ∀ j < dim, ∀ k < dim,
        refInit dim i j ≤ bndAdd (refInit dim i k) (refInit dim k j) := by
      intro i _ j _ k _
      unfold refInit
      split
      · next hij =>
        split
        · split
          · decide
          · decide
        · exact le_INF _
      · next hij =>
        split
        · next hik =>
          rw [if_neg]
          · decide
          · rintro (h | h)
            · exact hij (hik.elim Or.inl fun hik ↦ Or.inl (hik.trans h))
            · exact hij (hik.elim Or.inl fun hik ↦ Or.inr (hik.trans h))
        · exact le_INF _
    refine ⟨refInit_proper, ?_, hfin⟩
    intro i _
    show Raw.fin 1 ≤ refInit dim i i
    rw [refInit, if_pos (Or.inr rfl)]
  · intro D hD i hi j hj hok
    rw [referenceUdbm_valid] at hD
    have hok' : (decide (i ≠ j) && decide (D i j < INF)) = true := hok
    rw [Bool.and_eq_true, decide_eq_true_eq, decide_eq_true_eq] at hok'
    exact ⟨hok'.1, hD.proper i hi j hj, hok'.2⟩
  · intro D hD
    rw [referenceUdbm_valid] at hD
    ext x
    constructor
    · intro hx i hi j hj _
      exact hx i hi j hj
    · intro hx i hi j hj
      by_cases hij : i = j
      · rw [hij, sub_self]
        exact rawBounds.zero_mem_sat.mpr (hD.2.1 j hj)
      · by_cases hfin : D i j < INF
        · apply hx i hi j hj
          show (decide (i ≠ j) && decide (D i j < INF)) = true
          rw [Bool.and_eq_true, decide_eq_true_eq, decide_eq_true_eq]
          exact ⟨hij, hfin⟩
        · have hinf : D i j = INF := not_not.mp (mt Raw.lt_inf_iff.mpr hfin)
          rw [hinf]
          exact below_INF _
  · intro D hD _
    obtain ⟨x, hx⟩ := hnonempty hD
    rw [referenceUdbm_valid] at hD
    apply closed_of_zone _ (zone_forgetUpper hD hdim) ⟨x, x, hx, 0, le_rfl, by simp⟩
    intro i hi j hj
    unfold Dbm.forgetUpper
    split
    · exact neg_INF_lt
    · exact hD.proper i hi j hj
  · intro D hD horth
    obtain ⟨x, hx⟩ := hnonempty hD
    rw [referenceUdbm_valid] at hD
    apply closed_of_zone _ (zone_zeroLower hD hdim) ⟨x, x, hx, horth hx, 0, le_rfl, by simp⟩
    intro i hi j hj
    unfold Dbm.zeroLower
    split
    · exact Raw.negInf_lt_fin 1
    · exact hD.proper i hi j hj
  · intro k value hk0 hk _ D hD _
    obtain ⟨x, hx⟩ := hnonempty hD
    rw [referenceUdbm_valid] at hD
    exact closed_of_zone ((hD.proper.forget.meet (Raw.negInf_lt_fin _)).meet (Raw.negInf_lt_fin _))
      (zone_refUpdateValue_aux hD hk0 hk value) ⟨_, x, hx, fun i _ ↦ rfl⟩
  · intro k _ hk D hD horth
    obtain ⟨x, hx⟩ := hnonempty hD
    rw [referenceUdbm_valid] at hD
    exact closed_of_zone (hD.proper.forget.meet (Raw.negInf_lt_fin _))
      (zone_refFreeClock_aux hD hk)
      ⟨x, x, hx, horth hx k hk, x k, (Function.update_eq_self k x).symm⟩

end

end UCDD

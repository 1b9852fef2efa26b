import Mathlib.Analysis.Convex.Basic
import UCDD.Reduce.Tarjan

/-!
# Solutions of the constraint graph

An edge from `u` to `v` with bound `b` asks that the difference of the two clocks lies below
`b`. The graph has a solution exactly when it has no negative cycle, and the solutions are a
convex set.
-/

namespace UCDD

open ConstraintGraph

/-- The clock valuations that meet every edge. -/
def Tarjan.zone (graph : Tarjan) : Set (ℕ → ℝ) :=
  {x | ∀ u, ∀ e ∈ graph.edges u, UpperSat (x u - x e.1) e.2}

theorem mem_zone_push {graph : Tarjan} {i j : ℕ} {value : ℤ} {x : ℕ → ℝ} :
    x ∈ (cddTarjanPush graph i j value).zone ↔ x ∈ graph.zone ∧ UpperSat (x i - x j) value := by
  constructor
  · intro h
    exact ⟨fun u e he ↦ h u e ((cddTarjanPush_edges ..).mpr (Or.inl he)),
      h i (j, value) ((cddTarjanPush_edges ..).mpr (Or.inr ⟨rfl, rfl⟩))⟩
  · rintro ⟨h, hij⟩ u e he
    rcases (cddTarjanPush_edges ..).mp he with he | ⟨rfl, rfl⟩
    · exact h u e he
    · exact hij

/-! ### Solutions exclude negative cycles -/

/-- The real `r` meets the weight `w`: it is less than the limit, or equal to it and the bound
is not strict. -/
def Meets (r : ℝ) (w : ℤ ×ₗ ℤ) : Prop :=
  r < (ofLex w).1 ∨ (r = (ofLex w).1 ∧ 0 ≤ (ofLex w).2)

theorem meets_weight {r : ℝ} {b : ℤ} : Meets r (weight b) ↔ UpperSat r b := by
  unfold Meets weight UpperSat
  cases bndIsUpperStrict b
  · simp [le_iff_lt_or_eq]
  · simp

theorem Meets.add {r r' : ℝ} {w w' : ℤ ×ₗ ℤ} (h : Meets r w) (h' : Meets r' w') :
    Meets (r + r') (w + w') := by
  unfold Meets at h h' ⊢
  rw [ofLex_add, Prod.fst_add, Prod.snd_add]
  push_cast
  rcases h with h | ⟨h, hs⟩ <;> rcases h' with h' | ⟨h', hs'⟩
  · left
    linarith
  · left
    linarith
  · left
    linarith
  · right
    exact ⟨by linarith, by omega⟩

theorem meets_walk {graph : Tarjan} {x : ℕ → ℝ} (hx : x ∈ graph.zone) {u v : ℕ} {w : ℤ ×ₗ ℤ}
    (h : Walk graph.Edge u v w) : Meets (x u - x v) w := by
  induction h with
  | single he =>
    obtain ⟨b, hb, rfl⟩ := he
    exact meets_weight.mpr (hx _ _ hb)
  | snoc _ he ih =>
    obtain ⟨b, hb, rfl⟩ := he
    have := ih.add (meets_weight.mpr (hx _ _ hb))
    simpa using this

theorem not_negativeCycle_of_mem_zone {graph : Tarjan} {x : ℕ → ℝ} (hx : x ∈ graph.zone) :
    ¬ NegativeCycle graph.Edge := by
  rintro ⟨v, w, hw, hneg⟩
  have hmeets := meets_walk hx hw
  have hneg' : (ofLex w).1 < 0 ∨ ((ofLex w).1 = 0 ∧ (ofLex w).2 < 0) := Prod.Lex.lt_iff.mp hneg
  rw [sub_self] at hmeets
  rcases hmeets with h | ⟨h, hs⟩
  · have : 0 < (ofLex w).1 := by exact_mod_cast h
    omega
  · have : 0 = (ofLex w).1 := by exact_mod_cast h
    omega

/-! ### A potential gives a solution -/

private theorem exists_bound (f : ℕ → ℤ) (n : ℕ) : ∃ m : ℤ, 0 ≤ m ∧ ∀ u < n, |f u| ≤ m := by
  induction n with
  | zero => exact ⟨0, le_rfl, by simp⟩
  | succ n ih =>
    obtain ⟨m, hm, hf⟩ := ih
    refine ⟨max m |f n|, le_trans hm (le_max_left _ _), fun u hu ↦ ?_⟩
    rcases Nat.lt_succ_iff_lt_or_eq.mp hu with hu | rfl
    · exact le_trans (hf u hu) (le_max_left _ _)
    · exact le_max_right _ _

/-- Distances that are a potential give a solution: the strict bounds are met by a small
multiple of the number of strict bounds on the way to a vertex. -/
theorem zone_nonempty_of_potential {graph : Tarjan} (hvalid : graph.Valid) {dist : ℕ → Distance}
    (h : Potential graph.Edge fun x ↦ (dist x).label) : graph.zone.Nonempty := by
  obtain ⟨m, hm, hs⟩ := exists_bound (fun u ↦ (dist u).strictness) graph.dim
  have hm' : (0 : ℝ) ≤ m := by exact_mod_cast hm
  let ε : ℝ := 1 / (2 * m + 1)
  have hε : 0 < ε := by positivity
  have hmul : ε * (2 * m + 1) = 1 := one_div_mul_cancel (by positivity)
  refine ⟨fun u ↦ -(dist u).value + ε * (dist u).strictness, fun u e he ↦ ?_⟩
  obtain ⟨hu, hv, -⟩ := hvalid.edge u e he
  have hpot := h u e.1 _ ⟨e.2, he, rfl⟩
  -- the two strictness counts differ by less than `1 / ε`
  have hsmall : ε * (((dist u).strictness : ℝ) - (dist e.1).strictness) < 1 := by
    have h1 := abs_le.mp (hs u hu)
    have h2 := abs_le.mp (hs e.1 hv)
    have h3 : ((dist u).strictness : ℝ) - (dist e.1).strictness ≤ 2 * m := by
      have : (dist u).strictness - (dist e.1).strictness ≤ 2 * m := by omega
      exact_mod_cast this
    calc ε * (((dist u).strictness : ℝ) - (dist e.1).strictness) ≤ ε * (2 * m) :=
          mul_le_mul_of_nonneg_left h3 (le_of_lt hε)
      _ < 1 := by linarith
  rw [← meets_weight]
  simp only [Distance.label, weight, ← toLex_add, Prod.mk_add_mk] at hpot
  rw [Prod.Lex.toLex_le_toLex] at hpot
  have hdiff : -((dist u).value : ℝ) + ε * (dist u).strictness -
      (-((dist e.1).value : ℝ) + ε * (dist e.1).strictness) =
      ((dist e.1).value - (dist u).value) +
        ε * (((dist u).strictness : ℝ) - (dist e.1).strictness) := by ring
  rw [hdiff]
  rcases hpot with hlt | ⟨heq, hle⟩
  · left
    have : ((dist e.1).value : ℝ) + 1 ≤ (dist u).value + bndGetLimit e.2 := by exact_mod_cast hlt
    simp only [weight, ofLex_toLex]
    linarith
  · have heq' : ((dist e.1).value : ℝ) = (dist u).value + bndGetLimit e.2 := by exact_mod_cast heq
    cases hst : bndIsUpperStrict e.2 with
    | true =>
      left
      rw [hst] at hle
      have : ((dist u).strictness : ℝ) + 1 ≤ (dist e.1).strictness := by
        simp only [cond_true] at hle
        exact_mod_cast (by omega : (dist u).strictness + 1 ≤ (dist e.1).strictness)
      simp only [weight, ofLex_toLex]
      nlinarith
    | false =>
      rw [hst] at hle
      have : ((dist u).strictness : ℝ) ≤ (dist e.1).strictness := by
        simp only [cond_false] at hle
        exact_mod_cast (by omega : (dist u).strictness ≤ (dist e.1).strictness)
      rw [meets_weight, UpperSat, hst]
      simp only [Bool.false_eq_true, ↓reduceIte]
      nlinarith

/-- The consistency test answers whether the graph has a solution. -/
theorem cddTarjanConsistent_zone {graph : Tarjan} (h : graph.Valid) :
    ∃ b graph', cddTarjanConsistent graph = some (b, graph') ∧ graph'.Valid ∧
      graph'.edges = graph.edges ∧ graph'.dim = graph.dim ∧
      (b = true ↔ graph.zone.Nonempty) := by
  obtain ⟨b, graph', hb, hvalid, hedges, hdim, hpot, hneg⟩ := cddTarjanConsistent_spec h
  refine ⟨b, graph', hb, hvalid, hedges, hdim, fun ht ↦ ?_, fun hz ↦ ?_⟩
  · exact zone_nonempty_of_potential h (hpot ht)
  · by_contra hf
    obtain ⟨x, hx⟩ := hz
    exact not_negativeCycle_of_mem_zone hx (hneg (Bool.of_not_eq_true hf))

/-! ### Convexity -/

theorem convex_upperSat (u v : ℕ) (b : ℤ) :
    Convex ℝ {x : ℕ → ℝ | UpperSat (x u - x v) b} := by
  have hlin : IsLinearMap ℝ fun x : ℕ → ℝ ↦ x u - x v :=
    ⟨fun x y ↦ by simp only [Pi.add_apply]; ring, fun c x ↦ by
      simp only [Pi.smul_apply, smul_eq_mul]; ring⟩
  unfold UpperSat
  cases bndIsUpperStrict b
  · simpa using convex_halfSpace_le hlin (bndGetLimit b : ℝ)
  · simpa using convex_halfSpace_lt hlin (bndGetLimit b : ℝ)

theorem convex_zone (graph : Tarjan) : Convex ℝ graph.zone := by
  have : graph.zone = ⋂ u, ⋂ e ∈ graph.edges u, {x | UpperSat (x u - x e.1) e.2} := by
    ext x
    simp [Tarjan.zone]
  rw [this]
  exact convex_iInter fun u ↦ convex_iInter fun e ↦ convex_iInter fun _ ↦ convex_upperSat _ _ _

/-- Between two points of a convex set a difference takes every value. -/
theorem exists_diff_eq {Z : Set (ℕ → ℝ)} (hZ : Convex ℝ Z) {x y : ℕ → ℝ} (hx : x ∈ Z) (hy : y ∈ Z)
    (i j : ℕ) {r : ℝ} (hxr : x i - x j ≤ r) (hry : r ≤ y i - y j) :
    ∃ z ∈ Z, z i - z j = r := by
  have hlin : IsLinearMap ℝ fun x : ℕ → ℝ ↦ x i - x j :=
    ⟨fun x y ↦ by simp only [Pi.add_apply]; ring, fun c x ↦ by
      simp only [Pi.smul_apply, smul_eq_mul]; ring⟩
  have hconv := (hZ.is_linear_image hlin).ordConnected
  exact hconv.out (Set.mem_image_of_mem _ hx) (Set.mem_image_of_mem _ hy) ⟨hxr, hry⟩

/-- An interval between a point of a convex set below it and one above it contains a point of the
set. -/
theorem exists_mem_between {Z : Set (ℕ → ℝ)} (hZ : Convex ℝ Z) {i j : ℕ} {lower upper : Raw}
    (hlt : lower < upper) (hx : ∃ x ∈ Z, Below (x i - x j) lower)
    (hy : ∃ y ∈ Z, ¬ Below (y i - y j) lower) :
    ∃ z ∈ Z, ¬ Below (z i - z j) lower ∧ Below (z i - z j) upper := by
  obtain ⟨x, hx, hxl⟩ := hx
  obtain ⟨y, hy, hyl⟩ := hy
  by_cases hyu : Below (y i - y j) upper
  · exact ⟨y, hy, hyl, hyu⟩
  obtain ⟨r, hrl, hru⟩ := exists_between_cuts hlt
  have hle {s t : ℝ} {b : Raw} (hs : Below s b) (ht : ¬ Below t b) : s ≤ t := by
    by_contra hlt
    exact ht (hs.anti (le_of_lt (not_le.mp hlt)))
  obtain ⟨z, hz, hzr⟩ := exists_diff_eq hZ hx hy i j (hle hxl hrl) (hle hru hyu)
  exact ⟨z, hz, hzr ▸ hrl, hzr ▸ hru⟩

/-- The points of a convex set whose difference is below a bound. -/
theorem convex_below (i j : ℕ) (b : Raw) : Convex ℝ {x : ℕ → ℝ | Below (x i - x j) b} := by
  cases b with
  | negInf => exact convex_empty
  | fin b => exact convex_upperSat i j b
  | inf => exact convex_univ

theorem convex_not_below (i j : ℕ) (b : Raw) : Convex ℝ {x : ℕ → ℝ | ¬ Below (x i - x j) b} := by
  have hset : {x : ℕ → ℝ | ¬ Below (x i - x j) b} =
      {x : ℕ → ℝ | Below (x j - x i) (bndL2u b)} := by
    ext x
    rw [Set.mem_ofPred_eq, Set.mem_ofPred_eq, ← neg_sub (x i) (x j), below_bndL2u]
  rw [hset]
  exact convex_below j i _

end UCDD

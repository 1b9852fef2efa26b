import Mathlib.Data.Set.Finite.Range
import Mathlib.Data.Fintype.Pi
import Mathlib.Data.Int.Interval
import UCDD.Diagram.Bound

/-!
# Difference bound matrices

The matrices of the DBM library and the operations of it that the zone operations call:
`dbm_init`, `dbm_constrain`, `dbm_closex`, `dbm_isValid`, `dbm_analyzeForMinDBM`, `dbm_up`,
`dbm_down`, `dbm_updateValue`, `dbm_freeClock` and `fed_t::predt`. That library is not part of
the repository: its operations are parameters here, with what their documentation says of them.
-/

namespace UCDD

/-- `raw_t* dbm`: entry `(i, j)` bounds `x_i - x_j`. -/
abbrev Dbm : Type := ℕ → ℕ → Raw

/-- The clock valuations that meet every bound of the matrix. -/
def Dbm.zone (dim : ℕ) (dbm : Dbm) : Set (ℕ → ℝ) :=
  {x | ∀ i < dim, ∀ j < dim, Below (x i - x j) (dbm i j)}

/-- The clock valuations without a negative clock; clock 0 is the reference. -/
def orthant (dim : ℕ) : Set (ℕ → ℝ) := {x | ∀ i < dim, x 0 ≤ x i}

/-- The valuation after a delay. -/
def delayBy (x : ℕ → ℝ) (d : ℝ) (i : ℕ) : ℝ := if i = 0 then x 0 else x i + d

/-- The valuation after clock `k` has been set. -/
noncomputable def resetTo (x : ℕ → ℝ) (k : ℕ) (value : ℤ) : ℕ → ℝ :=
  Function.update x k (x 0 + value)

section

variable {x : ℕ → ℝ} {d e : ℝ} {dim i k : ℕ}

@[simp] theorem delayBy_zero : delayBy x d 0 = x 0 := rfl

theorem delayBy_of_ne (hi : i ≠ 0) : delayBy x d i = x i + d := if_neg hi

@[simp] theorem delayBy_self : delayBy x 0 = x := by
  ext i
  unfold delayBy
  split
  · next h => rw [h]
  · exact add_zero _

theorem resetTo_mem_orthant (hx : x ∈ orthant dim) {value : ℤ} (hv : 0 ≤ value) (hk : k ≠ 0) :
    resetTo x k value ∈ orthant dim := by
  intro i hi
  have hv' : (0 : ℝ) ≤ value := by exact_mod_cast hv
  unfold resetTo
  rw [Function.update_of_ne hk.symm]
  by_cases hik : i = k
  · rw [hik, Function.update_self]
    linarith
  · rw [Function.update_of_ne hik]
    exact hx i hi

end

/-- A zone reads the differences of the clocks below `dim`. -/
theorem mem_zone_congr {dbm : Dbm} {dim : ℕ} {x y : ℕ → ℝ} (hx : x ∈ dbm.zone dim)
    (h : ∀ i < dim, y i = x i) : y ∈ dbm.zone dim := by
  intro i hi j hj
  rw [h i hi, h j hj]
  exact hx i hi j hj

/-! ### The zones in a box -/

/-- The valuations with no clock above `M`. -/
def box (dim M : ℕ) : Set (ℕ → ℝ) := {x | ∀ i < dim, x 0 ≤ x i ∧ x i ≤ x 0 + M}

/-- The bound, or an infinite one if no two clocks in the box can tell it from that. -/
def clampRaw (M : ℕ) : Raw → Raw
  | .fin b => if 2 * M + 1 ≤ b then .inf else if b ≤ -(2 * M + 1) then .negInf else .fin b
  | b => b

theorem below_clampRaw {M : ℕ} {t : ℝ} (hl : -M ≤ t) (hu : t ≤ M) (b : Raw) :
    Below t (clampRaw M b) ↔ Below t b := by
  cases b with
  | negInf => exact Iff.rfl
  | inf => exact Iff.rfl
  | fin b =>
    rw [clampRaw]
    by_cases hb : 2 * (M : ℤ) + 1 ≤ b
    · rw [if_pos hb]
      have : UpperSat t b := UpperSat.mono hb ((upperSat_odd t M).mpr (by exact_mod_cast hu))
      exact ⟨fun _ ↦ this, fun _ ↦ trivial⟩
    · rw [if_neg hb]
      by_cases hb' : b ≤ -(2 * (M : ℤ) + 1)
      · rw [if_pos hb']
        have : ¬ UpperSat t b := by
          intro h
          have hle : b ≤ 2 * (-(M : ℤ)) := by omega
          have := (upperSat_even t (-(M : ℤ))).mp (UpperSat.mono hle h)
          push_cast at this
          linarith
        exact ⟨fun h ↦ absurd h id, fun h ↦ absurd h this⟩
      · rw [if_neg hb']

/-- The bounds that `clampRaw` returns. -/
def clampedBounds (M : ℕ) : Finset Raw :=
  {.negInf, .inf} ∪ (Finset.range (4 * M + 1)).image fun k : ℕ ↦ .fin (k - 2 * M)

theorem clampRaw_mem (M : ℕ) (b : Raw) : clampRaw M b ∈ clampedBounds M := by
  unfold clampedBounds
  cases b with
  | negInf => simp [clampRaw]
  | inf => simp [clampRaw]
  | fin b =>
    rw [clampRaw]
    split
    · simp
    · split
      · simp
      · apply Finset.mem_union_right
        rw [Finset.mem_image]
        refine ⟨(b + 2 * M).toNat, ?_, ?_⟩
        · rw [Finset.mem_range]
          omega
        · congr 1
          omega

/-- A box contains finitely many zones. -/
theorem finite_zones (dim M : ℕ) :
    {Z | (∃ dbm : Dbm, dbm.zone dim = Z) ∧ Z ⊆ box dim M}.Finite := by
  let cut (F : Fin dim → Fin dim → clampedBounds M) : Set (ℕ → ℝ) :=
    {x | x ∈ box dim M ∧ ∀ i j : Fin dim, Below (x i - x j) (F i j).1}
  apply (Set.finite_range cut).subset
  rintro Z ⟨⟨dbm, rfl⟩, hsub⟩
  use fun i j ↦ ⟨clampRaw M (dbm i j), clampRaw_mem M _⟩
  have hdiff {x : ℕ → ℝ} (hx : x ∈ box dim M) {i j : ℕ} (hi : i < dim) (hj : j < dim) :
      Below (x i - x j) (clampRaw M (dbm i j)) ↔ Below (x i - x j) (dbm i j) := by
    have h1 := hx i hi
    have h2 := hx j hj
    apply below_clampRaw
    · linarith [h1.1, h2.2]
    · linarith [h1.2, h2.1]
  ext x
  constructor
  · rintro ⟨hx, h⟩ i hi j hj
    exact (hdiff hx hi hj).mp (h ⟨i, hi⟩ ⟨j, hj⟩)
  · intro hx
    refine ⟨hsub hx, ?_⟩
    intro i j
    exact (hdiff (hsub hx) i.2 j.2).mpr (hx i i.2 j j.2)

/-! ### The operations of the library -/

/-- `y` is a time successor of `x`. -/
def Delays (x y : ℕ → ℝ) : Prop := ∃ d : ℝ, 0 ≤ d ∧ y = delayBy x d

/-- `y` is a non-negative time predecessor of `x`. -/
def DelaysFrom (dim : ℕ) (x y : ℕ → ℝ) : Prop :=
  y ∈ orthant dim ∧ ∃ d : ℝ, 0 ≤ d ∧ x = delayBy y d

/-- `y` is `x` with clock `k` set. -/
def Resets (dim k : ℕ) (value : ℤ) (x y : ℕ → ℝ) : Prop := ∀ i < dim, y i = resetTo x k value i

/-- `y` is `x` with any non-negative value of clock `k`. -/
def Frees (k : ℕ) (x y : ℕ → ℝ) : Prop := y 0 ≤ y k ∧ ∃ t : ℝ, x = Function.update y k t

/-- The valuations that can delay into `bad` without meeting `good`. -/
def predecessors (bad good : Set (ℕ → ℝ)) : Set (ℕ → ℝ) :=
  {x | ∃ d : ℝ, 0 ≤ d ∧ delayBy x d ∈ bad ∧ ∀ e : ℝ, 0 ≤ e → e ≤ d → delayBy x e ∉ good}

/-- The clock valuations of a federation. -/
def fedZone (dim : ℕ) (fed : List Dbm) : Set (ℕ → ℝ) := {x | ∃ dbm ∈ fed, x ∈ dbm.zone dim}

/-- The operations of the DBM library. -/
structure Udbm where
  dbmInit (dim : ℕ) : Dbm
  dbmConstrain (dim i j : ℕ) (constraint : Raw) : Dbm × (ℕ → Bool) → Dbm × (ℕ → Bool)
  dbmClosex (dim : ℕ) : Dbm × (ℕ → Bool) → Dbm
  dbmIsValid (dim : ℕ) (dbm : Dbm) : Bool
  dbmAnalyzeForMinDBM (dim : ℕ) (dbm : Dbm) : ℕ → ℕ → Bool
  dbmUp (dim : ℕ) (dbm : Dbm) : Dbm
  dbmDown (dim : ℕ) (dbm : Dbm) : Dbm
  dbmUpdateValue (dim k : ℕ) (value : ℤ) (dbm : Dbm) : Dbm
  dbmFreeClock (dim k : ℕ) (dbm : Dbm) : Dbm
  fedPredt (dim : ℕ) (bad good : List Dbm) : List Dbm

namespace Udbm

variable (U : Udbm) (dim : ℕ)

/-- Constraining the initial matrix, before it is closed; `Z` are the valuations left. -/
inductive Constrained : Dbm × (ℕ → Bool) → Set (ℕ → ℝ) → Prop
  | init : Constrained (U.dbmInit dim, fun _ ↦ false) (orthant dim)
  | constrain {s Z} {i j : ℕ} {constraint : Raw} : Constrained s Z → i < dim → j < dim → i ≠ j →
      -INF < constraint →
      Constrained (U.dbmConstrain dim i j constraint s) {x | x ∈ Z ∧ Below (x i - x j) constraint}

/-- A matrix that `dbm_isValid` accepts. -/
def Valid (dbm : Dbm) : Prop := U.dbmIsValid dim dbm = true

/-- The operation turns a valid matrix into one of the valuations that `R` leads to. -/
def Maps (op : Dbm → Dbm) (R : (ℕ → ℝ) → (ℕ → ℝ) → Prop) : Prop :=
  ∀ dbm, U.Valid dim dbm → dbm.zone dim ⊆ orthant dim →
    U.Valid dim (op dbm) ∧ (op dbm).zone dim = {y | ∃ x ∈ dbm.zone dim, R x y}

/-- The DBM operations are exact. A valid matrix is a closed matrix of a zone that is not empty. -/
structure Exact : Prop where
  /-- Closing the constrained matrix gives a valid one, unless the constraints contradict. -/
  closex : ∀ s Z, U.Constrained dim s Z →
    (U.Valid dim (U.dbmClosex dim s) ↔ Z.Nonempty) ∧
      (Z.Nonempty → (U.dbmClosex dim s).zone dim = Z)
  valid_nonempty : ∀ dbm, U.Valid dim dbm → (dbm.zone dim).Nonempty
  /-- The initial matrix needs no closing. -/
  init : U.Valid dim (U.dbmInit dim) ∧ (U.dbmInit dim).zone dim = orthant dim
  /-- The constraints that are marked are finite and give the zone. -/
  minDBM_finite : ∀ dbm, U.Valid dim dbm → ∀ i < dim, ∀ j < dim,
    U.dbmAnalyzeForMinDBM dim dbm i j = true → i ≠ j ∧ -INF < dbm i j ∧ dbm i j < INF
  minDBM : ∀ dbm, U.Valid dim dbm → dbm.zone dim =
    {x | ∀ i < dim, ∀ j < dim, U.dbmAnalyzeForMinDBM dim dbm i j = true →
      Below (x i - x j) (dbm i j)}
  up : U.Maps dim (U.dbmUp dim) Delays
  down : U.Maps dim (U.dbmDown dim) (DelaysFrom dim)
  updateValue : ∀ k value, k ≠ 0 → k < dim → 0 ≤ value →
    U.Maps dim (U.dbmUpdateValue dim k value) (Resets dim k value)
  freeClock : ∀ k, k ≠ 0 → k < dim → U.Maps dim (U.dbmFreeClock dim k) (Frees k)

/-- `fed_t::predt` is exact: it gives the non-negative valuations that can delay into `bad`
without meeting `good`. -/
def ExactPredt : Prop :=
  ∀ bad good, (∀ dbm ∈ bad ++ good, U.Valid dim dbm ∧ dbm.zone dim ⊆ orthant dim) →
    (∀ dbm ∈ U.fedPredt dim bad good, U.Valid dim dbm) ∧
      fedZone dim (U.fedPredt dim bad good) =
        orthant dim ∩ predecessors (fedZone dim bad) (fedZone dim good)

end Udbm

end UCDD

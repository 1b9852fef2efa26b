import Mathlib.Data.Real.Basic
import Mathlib.Tactic.Linarith
import Mathlib.Tactic.NormNum
import Mathlib.Tactic.Push
import UCDD.Lib.IntervalMap

/-!
# Raw bounds

The `raw_t` bounds of `include/cdd/kernel.h:27–38`. A finite bound packs an integer limit with
a strictness bit: as an upper bound `2c` reads `< c` and `2c + 1` reads `≤ c`; as a lower bound
`2c` reads `≥ c` and `2c + 1` reads `> c`, so the lower bound is the complement of the upper
bound with the same code and both are cuts of the real line. `INF` is no upper bound, `-INF`
no lower bound. Finite codes are integers here, with the two infinite ones on either side of
them: the code keeps all in 32 bits.
-/

namespace UCDD

/-- `raw_t`. -/
inductive Raw where
  | negInf
  | fin (code : ℤ)
  | inf
  deriving DecidableEq, Repr

namespace Raw

/-- The order of the codes. -/
def le : Raw → Raw → Prop
  | negInf, _ => True
  | _, inf => True
  | fin a, fin b => a ≤ b
  | _, _ => False

instance : LE Raw := ⟨le⟩

instance decidableLe : (a b : Raw) → Decidable (le a b)
  | negInf, _ => isTrue trivial
  | fin _, inf => isTrue trivial
  | inf, inf => isTrue trivial
  | fin a, fin b => inferInstanceAs (Decidable (a ≤ b))
  | fin _, negInf => isFalse id
  | inf, negInf => isFalse id
  | inf, fin _ => isFalse id

@[simp] theorem negInf_le (b : Raw) : negInf ≤ b := by
  cases b <;> exact trivial

@[simp] theorem le_inf (b : Raw) : b ≤ inf := by
  cases b <;> exact trivial

@[simp] theorem fin_le_fin {a b : ℤ} : fin a ≤ fin b ↔ a ≤ b := Iff.rfl

@[simp] theorem not_inf_le_fin (a : ℤ) : ¬ inf ≤ fin a := id

@[simp] theorem not_fin_le_negInf (a : ℤ) : ¬ fin a ≤ negInf := id

@[simp] theorem not_inf_le_negInf : ¬ inf ≤ negInf := id

instance : LinearOrder Raw where
  le_refl a := by
    cases a with
    | negInf | inf => exact trivial
    | fin a => exact le_refl a
  le_trans a b c hab hbc := by
    cases a <;> cases b <;> cases c <;> simp_all
    omega
  le_antisymm a b hab hba := by
    cases a <;> cases b <;> simp_all
    omega
  le_total a b := by
    cases a <;> cases b <;> simp
    omega
  toDecidableLE := decidableLe

@[simp] theorem fin_lt_fin {a b : ℤ} : fin a < fin b ↔ a < b := by
  rw [lt_iff_le_not_ge, fin_le_fin, fin_le_fin]
  omega

@[simp] theorem fin_lt_inf (a : ℤ) : fin a < inf := by
  rw [lt_iff_le_not_ge]
  exact ⟨trivial, id⟩

@[simp] theorem negInf_lt_fin (a : ℤ) : negInf < fin a := by
  rw [lt_iff_le_not_ge]
  exact ⟨trivial, id⟩

@[simp] theorem negInf_lt_inf : negInf < inf := by
  rw [lt_iff_le_not_ge]
  exact ⟨trivial, id⟩

theorem lt_inf_iff {b : Raw} : b < inf ↔ b ≠ inf := by
  constructor
  · exact ne_of_lt
  · exact lt_of_le_of_ne (le_inf b)

theorem negInf_lt_iff {b : Raw} : negInf < b ↔ b ≠ negInf := by
  constructor
  · exact ne_of_gt
  · intro h
    exact lt_of_le_of_ne (negInf_le b) h.symm

/-- A bound between the infinite ones is finite. -/
theorem exists_fin {b : Raw} (hl : negInf < b) (hu : b < inf) : ∃ a, b = fin a := by
  cases b with
  | fin a => exact ⟨a, rfl⟩
  | negInf => exact absurd hl (lt_irrefl _)
  | inf => exact absurd hu (lt_irrefl _)

instance : Neg Raw where
  neg
    | negInf => inf
    | fin a => fin (-a)
    | inf => negInf

instance (n : ℕ) : OfNat Raw n := ⟨fin n⟩

end Raw

/-- `INF` of `include/cdd/kernel.h:29`. -/
def INF : Raw := .inf

theorem neg_INF_lt : -INF < INF := Raw.negInf_lt_inf

theorem le_INF (b : Raw) : b ≤ INF := Raw.le_inf b

theorem neg_INF_le (b : Raw) : -INF ≤ b := Raw.negInf_le b

/-- The integer that stands for the bound, with `INF` and `-INF` as `dbm_LS_INFINITY` and its
negation. -/
def Raw.code : Raw → ℤ
  | negInf => -0x7FFFFFFE
  | fin a => a
  | inf => 0x7FFFFFFE

/-- `bnd_get_limit`, and UDBM's `dbm_raw2bound`. -/
def bndGetLimit (b : ℤ) : ℤ := b / 2

/-- `bnd_is_upper_strict`, and UDBM's `dbm_rawIsStrict`. -/
def bndIsUpperStrict (b : ℤ) : Bool := b % 2 == 0

/-- `bnd_add`: the sum of two upper bounds. -/
def bndAdd : Raw → Raw → Raw
  | .inf, _ | _, .inf => INF
  | .fin a, .fin b => .fin (2 * (a / 2) + 2 * (b / 2) + a % 2 * (b % 2))
  | _, _ => -INF

/-- The negation of the limit with the strictness bit toggled. -/
def flipCode (b : ℤ) : ℤ := -(2 * (b / 2)) + (1 - b % 2)

/-- `bnd_l2u`: the lower bound `b` on a difference as an upper bound on its negation. -/
def bndL2u : Raw → Raw
  | .negInf => INF
  | .fin b => .fin (flipCode b)
  | .inf => -INF

/-- `bnd_u2l`: the upper bound `b` on a difference as a lower bound on its negation. -/
def bndU2l : Raw → Raw
  | .negInf => INF
  | .fin b => .fin (flipCode b)
  | .inf => -INF

/-- The real `x` satisfies the finite upper bound with code `b`. -/
def UpperSat (x : ℝ) (b : ℤ) : Prop :=
  if bndIsUpperStrict b then x < bndGetLimit b else x ≤ bndGetLimit b

/-- The real `x` lies below the cut `b`; `INF` is above every real. -/
def Below (x : ℝ) : Raw → Prop
  | .negInf => False
  | .fin b => UpperSat x b
  | .inf => True

@[simp] theorem below_INF (x : ℝ) : Below x INF := trivial

@[simp] theorem not_below_neg_INF (x : ℝ) : ¬ Below x (-INF) := id

@[simp] theorem below_fin {x : ℝ} {b : ℤ} : Below x (.fin b) ↔ UpperSat x b := Iff.rfl

/-- A strict upper bound reads `<`. -/
theorem upperSat_even (x : ℝ) (c : ℤ) : UpperSat x (2 * c) ↔ x < c := by
  simp [UpperSat, bndIsUpperStrict, bndGetLimit]

/-- A weak upper bound reads `≤`. -/
theorem upperSat_odd (x : ℝ) (c : ℤ) : UpperSat x (2 * c + 1) ↔ x ≤ c := by
  have h1 : (2 * c + 1) % 2 = 1 := by omega
  have h2 : (2 * c + 1) / 2 = c := by omega
  simp [UpperSat, bndIsUpperStrict, bndGetLimit, h1, h2]

private theorem raw_cases (b : ℤ) : (∃ c, b = 2 * c) ∨ ∃ c, b = 2 * c + 1 := by
  rcases Int.even_or_odd b with ⟨c, hc⟩ | ⟨c, hc⟩
  · exact Or.inl ⟨c, by omega⟩
  · exact Or.inr ⟨c, hc⟩

/-- A larger raw bound is a weaker upper bound. -/
theorem UpperSat.mono {x : ℝ} {a b : ℤ} (hab : a ≤ b) (h : UpperSat x a) : UpperSat x b := by
  rcases raw_cases a with ⟨c, rfl⟩ | ⟨c, rfl⟩ <;> rcases raw_cases b with ⟨d, rfl⟩ | ⟨d, rfl⟩
  · rw [upperSat_even] at h ⊢
    have : (c : ℝ) ≤ d := by exact_mod_cast (by omega : c ≤ d)
    linarith
  · rw [upperSat_even] at h
    rw [upperSat_odd]
    have : (c : ℝ) ≤ d := by exact_mod_cast (by omega : c ≤ d)
    linarith
  · rw [upperSat_odd] at h
    rw [upperSat_even]
    have : (c : ℝ) < d := by exact_mod_cast (by omega : c < d)
    linarith
  · rw [upperSat_odd] at h ⊢
    have : (c : ℝ) ≤ d := by exact_mod_cast (by omega : c ≤ d)
    linarith

theorem Below.mono {x : ℝ} {a b : Raw} (hab : a ≤ b) (h : Below x a) : Below x b := by
  cases a with
  | negInf => exact absurd h id
  | inf =>
    cases b with
    | inf => exact trivial
    | negInf | fin => exact absurd hab id
  | fin a =>
    cases b with
    | negInf => exact absurd hab id
    | inf => exact trivial
    | fin b => exact UpperSat.mono hab h

/-- The bounds a smaller real lies below are more. -/
theorem UpperSat.anti {x y : ℝ} {b : ℤ} (hxy : x ≤ y) (h : UpperSat y b) : UpperSat x b := by
  rcases raw_cases b with ⟨c, rfl⟩ | ⟨c, rfl⟩
  · rw [upperSat_even] at h ⊢
    linarith
  · rw [upperSat_odd] at h ⊢
    linarith

theorem Below.anti {x y : ℝ} {b : Raw} (hxy : x ≤ y) (h : Below y b) : Below x b := by
  cases b with
  | negInf => exact h
  | fin b => exact UpperSat.anti hxy h
  | inf => exact trivial

/-- The point `x` of the real line, as the diagrams see it. -/
noncomputable def realCut (x : ℝ) : IntervalMap.Cut INF where
  below b := open Classical in decide (Below x b)
  mono hab h := by
    simp only [decide_eq_true_eq] at h ⊢
    exact h.mono hab
  top_below := by simp

@[simp] theorem realCut_below (x : ℝ) (b : Raw) : (realCut x).below b = true ↔ Below x b := by
  simp [realCut]

/-- A lower bound on `x` is an upper bound on `-x`. -/
theorem upperSat_flipCode (x : ℝ) (b : ℤ) : UpperSat (-x) (flipCode b) ↔ ¬ UpperSat x b := by
  unfold flipCode
  rcases raw_cases b with ⟨c, rfl⟩ | ⟨c, rfl⟩
  · have : -(2 * (2 * c / 2)) + (1 - 2 * c % 2) = 2 * (-c) + 1 := by omega
    rw [this, upperSat_odd, upperSat_even]
    push_cast
    constructor
    · intro h
      linarith
    · intro h
      linarith [not_lt.mp h]
  · have : -(2 * ((2 * c + 1) / 2)) + (1 - (2 * c + 1) % 2) = 2 * (-c) := by omega
    rw [this, upperSat_odd, upperSat_even]
    push_cast
    constructor
    · intro h
      linarith
    · intro h
      linarith [not_le.mp h]

theorem below_bndL2u (x : ℝ) (b : Raw) : Below (-x) (bndL2u b) ↔ ¬ Below x b := by
  cases b with
  | negInf => exact ⟨fun _ ↦ id, fun _ ↦ trivial⟩
  | inf => exact ⟨fun h ↦ absurd h id, fun h ↦ absurd trivial h⟩
  | fin b => exact upperSat_flipCode x b

theorem below_bndU2l (x : ℝ) (b : Raw) : Below (-x) (bndU2l b) ↔ ¬ Below x b := by
  cases b with
  | negInf => exact ⟨fun _ ↦ id, fun _ ↦ trivial⟩
  | inf => exact ⟨fun h ↦ absurd h id, fun h ↦ absurd trivial h⟩
  | fin b => exact upperSat_flipCode x b

/-- A finite bound is the bound its code stands for. -/
theorem below_iff_upperSat {x : ℝ} {b : Raw} (hl : -INF < b) (hu : b < INF) :
    Below x b ↔ UpperSat x b.code := by
  obtain ⟨a, rfl⟩ := Raw.exists_fin hl hu
  exact Iff.rfl

theorem bndL2u_lt_INF {b : Raw} (hl : -INF < b) (hu : b < INF) : bndL2u b < INF := by
  obtain ⟨a, rfl⟩ := Raw.exists_fin hl hu
  exact Raw.fin_lt_inf _

theorem upperSat_bndL2u {x : ℝ} {b : Raw} (hl : -INF < b) (hu : b < INF) :
    UpperSat (-x) (bndL2u b).code ↔ ¬ Below x b := by
  obtain ⟨a, rfl⟩ := Raw.exists_fin hl hu
  exact upperSat_flipCode x a

/-- An interval between two cuts is not empty. -/
theorem exists_between_cuts {a b : Raw} (hab : a < b) : ∃ t : ℝ, ¬ Below t a ∧ Below t b := by
  have hfin (a : ℤ) : ∃ t : ℝ, ¬ UpperSat t a ∧ ∀ b > a, UpperSat t b := by
    rcases raw_cases a with ⟨c, rfl⟩ | ⟨c, rfl⟩
    · refine ⟨c, ?_, ?_⟩
      · rw [upperSat_even]
        exact lt_irrefl _
      · intro b hb
        exact UpperSat.mono (by omega : 2 * c + 1 ≤ b) ((upperSat_odd _ _).mpr le_rfl)
    · refine ⟨c + 1 / 2, ?_, ?_⟩
      · rw [upperSat_odd]
        norm_num
      · intro b hb
        refine UpperSat.mono (by omega : 2 * (c + 1) ≤ b) ((upperSat_even _ _).mpr ?_)
        push_cast
        norm_num
  cases b with
  | negInf => exact absurd hab (not_lt.mpr (Raw.negInf_le a))
  | inf =>
    cases a with
    | negInf => exact ⟨0, id, trivial⟩
    | fin a =>
      obtain ⟨t, ht, -⟩ := hfin a
      exact ⟨t, ht, trivial⟩
    | inf => exact absurd hab (lt_irrefl _)
  | fin b =>
    cases a with
    | inf => exact absurd hab (not_lt.mpr (Raw.le_inf _))
    | negInf =>
      obtain ⟨t, -, ht⟩ := hfin (b - 1)
      exact ⟨t, id, ht b (by omega)⟩
    | fin a =>
      obtain ⟨t, ht, hb⟩ := hfin a
      exact ⟨t, ht, hb b (Raw.fin_lt_fin.mp hab)⟩

end UCDD

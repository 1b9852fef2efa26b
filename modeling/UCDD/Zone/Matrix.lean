import UCDD.Lib.DifferenceBounds
import UCDD.Zone.Dbm

/-!
# Matrices of raw bounds

Raw bounds with `bnd_add` are bounds on the reals in the sense of the general library, so a
matrix of them is closed by pivoting at every clock, and is closed exactly when its zone is not
empty.
-/

namespace UCDD

open DifferenceBounds

/-! ### Raw bounds -/

private theorem bndAdd_even_even (c d : ℤ) :
    bndAdd (.fin (2 * c)) (.fin (2 * d)) = .fin (2 * (c + d)) := by
  show Raw.fin _ = _
  congr 1
  have h1 : 2 * c % 2 = 0 := by omega
  rw [h1]
  omega

private theorem bndAdd_even_odd (c d : ℤ) :
    bndAdd (.fin (2 * c)) (.fin (2 * d + 1)) = .fin (2 * (c + d)) := by
  show Raw.fin _ = _
  congr 1
  have h1 : 2 * c % 2 = 0 := by omega
  rw [h1]
  omega

private theorem bndAdd_odd_even (c d : ℤ) :
    bndAdd (.fin (2 * c + 1)) (.fin (2 * d)) = .fin (2 * (c + d)) := by
  show Raw.fin _ = _
  congr 1
  have h1 : 2 * d % 2 = 0 := by omega
  rw [h1]
  omega

private theorem bndAdd_odd_odd (c d : ℤ) :
    bndAdd (.fin (2 * c + 1)) (.fin (2 * d + 1)) = .fin (2 * (c + d) + 1) := by
  show Raw.fin _ = _
  congr 1
  have h1 : (2 * c + 1) % 2 = 1 := by omega
  have h2 : (2 * d + 1) % 2 = 1 := by omega
  rw [h1, h2]
  omega

/-- A finite bound is strict or weak. -/
private theorem fin_cases (a : ℤ) : (∃ c, a = 2 * c) ∨ ∃ c, a = 2 * c + 1 := by
  cases Int.even_or_odd a with
  | inl h =>
    obtain ⟨c, hc⟩ := h
    exact Or.inl ⟨c, by omega⟩
  | inr h => exact Or.inr h

@[simp] private theorem bndAdd_inf_left (b : Raw) : bndAdd .inf b = .inf := by
  cases b <;> rfl

@[simp] private theorem bndAdd_inf_right (b : Raw) : bndAdd b .inf = .inf := by
  cases b <;> rfl

private theorem below_bndAdd {a b : Raw} {s t : ℝ} (hs : Below s a) (ht : Below t b) :
    Below (s + t) (bndAdd a b) := by
  cases a with
  | negInf => exact absurd hs id
  | inf => simp [Below]
  | fin a =>
    cases b with
    | negInf => exact absurd ht id
    | inf => simp [Below]
    | fin b =>
      rw [below_fin] at hs ht
      obtain ⟨c, rfl⟩ | ⟨c, rfl⟩ := fin_cases a
      · obtain ⟨d, rfl⟩ | ⟨d, rfl⟩ := fin_cases b
        · rw [upperSat_even] at hs ht
          rw [bndAdd_even_even, below_fin, upperSat_even]
          push_cast
          linarith
        · rw [upperSat_even] at hs
          rw [upperSat_odd] at ht
          rw [bndAdd_even_odd, below_fin, upperSat_even]
          push_cast
          linarith
      · obtain ⟨d, rfl⟩ | ⟨d, rfl⟩ := fin_cases b
        · rw [upperSat_odd] at hs
          rw [upperSat_even] at ht
          rw [bndAdd_odd_even, below_fin, upperSat_even]
          push_cast
          linarith
        · rw [upperSat_odd] at hs ht
          rw [bndAdd_odd_odd, below_fin, upperSat_odd]
          push_cast
          linarith

/-- A bound that is not `-INF` has a real below it. -/
private theorem exists_below {a : Raw} (ha : -INF < a) : ∃ t, Below t a := by
  obtain ⟨t, -, ht⟩ := exists_between_cuts ha
  exact ⟨t, ht⟩

private theorem below_split {a b : Raw} {r : ℝ} (ha : -INF < a) (hb : -INF < b)
    (hr : Below r (bndAdd a b)) : ∃ s, Below s a ∧ Below (r - s) b := by
  cases a with
  | negInf => exact absurd ha (lt_irrefl _)
  | inf =>
    obtain ⟨t, ht⟩ := exists_below hb
    exact ⟨r - t, trivial, by rwa [sub_sub_cancel]⟩
  | fin a =>
    cases b with
    | negInf => exact absurd hb (lt_irrefl _)
    | inf =>
      obtain ⟨t, ht⟩ := exists_below ha
      exact ⟨t, ht, trivial⟩
    | fin b =>
      obtain ⟨c, rfl⟩ | ⟨c, rfl⟩ := fin_cases a
      · obtain ⟨d, rfl⟩ | ⟨d, rfl⟩ := fin_cases b
        · rw [bndAdd_even_even, below_fin, upperSat_even] at hr
          push_cast at hr
          use c - (c + d - r) / 2
          rw [below_fin, below_fin, upperSat_even, upperSat_even]
          constructor
          · linarith
          · linarith
        · rw [bndAdd_even_odd, below_fin, upperSat_even] at hr
          push_cast at hr
          use r - d
          rw [below_fin, below_fin, upperSat_even, upperSat_odd]
          constructor
          · linarith
          · linarith
      · obtain ⟨d, rfl⟩ | ⟨d, rfl⟩ := fin_cases b
        · rw [bndAdd_odd_even, below_fin, upperSat_even] at hr
          push_cast at hr
          use c
          rw [below_fin, below_fin, upperSat_odd, upperSat_even]
          constructor
          · linarith
          · linarith
        · rw [bndAdd_odd_odd, below_fin, upperSat_odd] at hr
          push_cast at hr
          use c
          rw [below_fin, below_fin, upperSat_odd, upperSat_odd]
          constructor
          · linarith
          · linarith

private theorem below_zero_iff {b : Raw} : Below 0 b ↔ .fin 1 ≤ b := by
  cases b with
  | negInf => exact ⟨fun h ↦ absurd h id, fun h ↦ absurd h id⟩
  | inf => exact ⟨fun _ ↦ trivial, fun _ ↦ trivial⟩
  | fin b =>
    rw [below_fin, Raw.fin_le_fin]
    obtain ⟨c, rfl⟩ | ⟨c, rfl⟩ := fin_cases b
    · rw [upperSat_even]
      constructor
      · intro h
        have : 0 < c := by exact_mod_cast h
        omega
      · intro h
        have : 0 < c := by omega
        exact_mod_cast this
    · rw [upperSat_odd]
      constructor
      · intro h
        have : 0 ≤ c := by exact_mod_cast h
        omega
      · intro h
        have : 0 ≤ c := by omega
        exact_mod_cast this

private theorem bndAdd_assoc (a b c : Raw) : bndAdd (bndAdd a b) c = bndAdd a (bndAdd b c) := by
  cases a with
  | inf => simp
  | negInf =>
    cases b <;> cases c <;> rfl
  | fin a =>
    cases b with
    | inf => simp
    | negInf => cases c <;> rfl
    | fin b =>
      cases c with
      | inf => simp
      | negInf => rfl
      | fin c =>
        obtain ⟨a, rfl⟩ | ⟨a, rfl⟩ := fin_cases a <;> obtain ⟨b, rfl⟩ | ⟨b, rfl⟩ := fin_cases b <;>
          obtain ⟨c, rfl⟩ | ⟨c, rfl⟩ := fin_cases c <;>
          simp only [bndAdd_even_even, bndAdd_even_odd, bndAdd_odd_even, bndAdd_odd_odd, add_assoc]

private theorem bndAdd_le_bndAdd {a a' b b' : Raw} (ha : a ≤ a') (hb : b ≤ b') :
    bndAdd a b ≤ bndAdd a' b' := by
  cases a' with
  | inf => simp
  | negInf =>
    have : a = .negInf := le_antisymm ha (Raw.negInf_le a)
    subst this
    cases b' with
    | inf => simp
    | negInf =>
      have : b = .negInf := le_antisymm hb (Raw.negInf_le b)
      subst this
      exact le_rfl
    | fin b' =>
      cases b with
      | inf => exact absurd hb id
      | negInf | fin => exact le_rfl
  | fin a' =>
    cases b' with
    | inf => simp
    | negInf =>
      have : b = .negInf := le_antisymm hb (Raw.negInf_le b)
      subst this
      cases a with
      | inf => exact absurd ha id
      | negInf | fin => exact le_rfl
    | fin b' =>
      cases a with
      | inf => exact absurd ha id
      | negInf =>
        cases b with
        | inf => exact absurd hb id
        | negInf | fin => exact Raw.negInf_le _
      | fin a =>
        cases b with
        | inf => exact absurd hb id
        | negInf => exact Raw.negInf_le _
        | fin b =>
          rw [Raw.fin_le_fin] at ha hb
          obtain ⟨a, rfl⟩ | ⟨a, rfl⟩ := fin_cases a <;>
            obtain ⟨a', rfl⟩ | ⟨a', rfl⟩ := fin_cases a' <;>
            obtain ⟨b, rfl⟩ | ⟨b, rfl⟩ := fin_cases b <;>
            obtain ⟨b', rfl⟩ | ⟨b', rfl⟩ := fin_cases b' <;>
            simp only [bndAdd_even_even, bndAdd_even_odd, bndAdd_odd_even, bndAdd_odd_odd,
              Raw.fin_le_fin] <;>
            omega

private theorem zero_bndAdd (a : Raw) : bndAdd (.fin 1) a = a := by
  cases a with
  | negInf | inf => rfl
  | fin a =>
    obtain ⟨c, rfl⟩ | ⟨c, rfl⟩ := fin_cases a
    · simpa using bndAdd_odd_even 0 c
    · simpa using bndAdd_odd_odd 0 c

private theorem bndAdd_zero (a : Raw) : bndAdd a (.fin 1) = a := by
  cases a with
  | negInf | inf => rfl
  | fin a =>
    obtain ⟨c, rfl⟩ | ⟨c, rfl⟩ := fin_cases a
    · simpa using bndAdd_even_odd c 0
    · simpa using bndAdd_odd_odd c 0

private theorem bndAdd_proper {a b : Raw} (ha : -INF < a) (hb : -INF < b) : -INF < bndAdd a b := by
  cases a with
  | negInf => exact absurd ha (lt_irrefl _)
  | inf =>
    rw [bndAdd_inf_left]
    exact neg_INF_lt
  | fin a =>
    cases b with
    | negInf => exact absurd hb (lt_irrefl _)
    | inf => exact neg_INF_lt
    | fin b => exact Raw.negInf_lt_fin _

/-- Raw bounds as bounds on the reals. -/
def rawBounds : Bounds ℝ Raw where
  sat b := {t | Below t b}
  proper := {b | -INF < b}
  zero := .fin 1
  add := bndAdd
  isLowerSet _ _ _ hle hs := hs.anti hle
  sat_nonempty hb := exists_below hb
  sat_mono hab _ ht := ht.mono hab
  zero_mem_sat := below_zero_iff
  add_mem_sat := below_bndAdd
  split := below_split
  add_proper := bndAdd_proper
  proper_of_zero_le hb := lt_of_lt_of_le (Raw.negInf_lt_fin 1) hb
  add_assoc := bndAdd_assoc
  add_le_add := bndAdd_le_bndAdd
  zero_add := zero_bndAdd
  add_zero := bndAdd_zero

/-! ### Matrices -/

section

variable {dim : ℕ} {D E : Dbm} {x y : ℕ → ℝ} {i j k : ℕ} {b : Raw}

/-- The matrix with one entry bounded by `b`. -/
def Dbm.meet (i j : ℕ) (b : Raw) (D : Dbm) : Dbm :=
  Function.update D i (Function.update (D i) j (min (D i j) b))

/-- The matrix without the bounds on clock `k`. -/
def Dbm.forget (k : ℕ) (D : Dbm) : Dbm :=
  fun i j ↦ if (i = k ∨ j = k) ∧ i ≠ j then INF else D i j

/-- The matrix without the upper bounds of the clocks. -/
def Dbm.forgetUpper (D : Dbm) : Dbm := fun i j ↦ if i ≠ 0 ∧ j = 0 then INF else D i j

/-- The matrix with zero as the lower bound of every clock. -/
def Dbm.zeroLower (D : Dbm) : Dbm := fun i j ↦ if i = 0 ∧ j ≠ 0 then .fin 1 else D i j

/-- The matrix closed at every clock. -/
def Dbm.close (dim : ℕ) (D : Dbm) : Dbm := DifferenceBounds.close bndAdd (List.range dim) D

/-- No entry is `-INF`. -/
def Dbm.ProperOn (dim : ℕ) (D : Dbm) : Prop := ∀ i < dim, ∀ j < dim, -INF < D i j

/-- The matrix is closed. -/
def Dbm.ClosedOn (dim : ℕ) (D : Dbm) : Prop :=
  (∀ i < dim, ∀ j < dim, -INF < D i j) ∧ (∀ i < dim, .fin 1 ≤ D i i) ∧
    ∀ i < dim, ∀ j < dim, ∀ k < dim, D i j ≤ bndAdd (D i k) (D k j)

instance : Decidable (D.ClosedOn dim) := inferInstanceAs (Decidable (_ ∧ _ ∧ _))

theorem Dbm.zone_eq : D.zone dim = DifferenceBounds.zone rawBounds {i | i < dim} D := rfl

theorem Dbm.closedOn_iff : D.ClosedOn dim ↔ Closed rawBounds {i | i < dim} D := by
  constructor
  · rintro ⟨h1, h2, h3⟩
    exact ⟨h1, h2, h3⟩
  · intro h
    exact ⟨h.proper, h.zero_le, h.le_add⟩

/-- Closing a matrix whose zone is not empty. -/
theorem Dbm.close_spec (hD : D.ProperOn dim) :
    (D.close dim).zone dim = D.zone dim ∧ ((D.close dim).ClosedOn dim ↔ (D.zone dim).Nonempty) := by
  have hmem : ∀ k, k ∈ List.range dim ↔ k ∈ {i | i < dim} := fun k ↦ List.mem_range
  have hzone : DifferenceBounds.zone rawBounds {i | i < dim} (D.close dim) =
      DifferenceBounds.zone rawBounds {i | i < dim} D :=
    zone_close fun k hk ↦ (hmem k).mp hk
  refine ⟨hzone, ?_⟩
  constructor
  · intro h
    rw [Dbm.zone_eq, ← hzone]
    exact (Dbm.closedOn_iff.mp h).zone_nonempty (Set.finite_lt_nat dim)
  · intro hne
    apply Dbm.closedOn_iff.mpr
    have hdiag : ∀ k ∈ {i | i < dim}, rawBounds.zero ≤ D.close dim k k := by
      intro k hk
      by_contra hdiag
      have hempty := zone_eq_empty_of_diag (C := rawBounds) hk hdiag
      rw [hzone] at hempty
      exact Set.not_nonempty_iff_eq_empty.mpr hempty hne
    exact closed_close (C := rawBounds) hmem hD hdiag

/-! ### What the changes do to the zone -/

theorem Dbm.meet_of_ne {i' j' : ℕ} (h : i' ≠ i ∨ j' ≠ j) : D.meet i j b i' j' = D i' j' := by
  by_cases h' : i' = i
  · subst h'
    rw [Dbm.meet, Function.update_self, Function.update_of_ne (h.resolve_left (not_not.mpr rfl))]
  · rw [Dbm.meet, Function.update_of_ne h']

theorem Dbm.mem_zone_meet (hi : i < dim) (hj : j < dim) :
    x ∈ (D.meet i j b).zone dim ↔ x ∈ D.zone dim ∧ Below (x i - x j) b := by
  have hentry : D.meet i j b i j = min (D i j) b := by
    rw [Dbm.meet, Function.update_self, Function.update_self]
  constructor
  · intro hx
    have hij := hx i hi j hj
    rw [hentry] at hij
    refine ⟨?_, hij.mono (min_le_right _ _)⟩
    intro i' hi' j' hj'
    by_cases h : i' = i ∧ j' = j
    · rw [h.1, h.2]
      exact hij.mono (min_le_left _ _)
    · rw [← Dbm.meet_of_ne (D := D) (b := b) (show i' ≠ i ∨ j' ≠ j by tauto)]
      exact hx i' hi' j' hj'
  · rintro ⟨hx, hb⟩ i' hi' j' hj'
    by_cases h : i' = i ∧ j' = j
    · rw [h.1, h.2, hentry]
      cases min_choice (D i j) b with
      | inl hm =>
        rw [hm]
        exact hx i hi j hj
      | inr hm =>
        rw [hm]
        exact hb
    · rw [Dbm.meet_of_ne (show i' ≠ i ∨ j' ≠ j by tauto)]
      exact hx i' hi' j' hj'

theorem Dbm.ProperOn.meet (hD : D.ProperOn dim) (hb : -INF < b) : (D.meet i j b).ProperOn dim := by
  intro i' hi' j' hj'
  unfold Dbm.meet
  by_cases hi : i' = i
  · subst hi
    rw [Function.update_self]
    by_cases hj : j' = j
    · subst hj
      rw [Function.update_self]
      exact lt_min (hD i' hi' j' hj') hb
    · rw [Function.update_of_ne hj]
      exact hD i' hi' j' hj'
  · rw [Function.update_of_ne hi]
    exact hD i' hi' j' hj'

/-- A zone does not see a shift of all clocks. -/
theorem Dbm.mem_zone_shift (d : ℝ) (h : x ∈ D.zone dim) (hy : ∀ i < dim, y i = x i + d) :
    y ∈ D.zone dim := by
  intro i hi j hj
  rw [hy i hi, hy j hj, add_sub_add_right_eq_sub]
  exact h i hi j hj

end

end UCDD

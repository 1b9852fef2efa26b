import Mathlib.Algebra.Order.Group.Defs
import Mathlib.Data.Set.Finite.Lemmas
import Mathlib.Logic.Function.Basic
import Mathlib.Order.Preorder.Finite
import Mathlib.Order.UpperLower.Basic
import Mathlib.Tactic.Abel

/-!
# Matrices of difference bounds

A matrix bounds the differences of the coordinates of a point; its zone is the set of points
that meet every bound. Bounds are abstract: each stands for a lower set of an ordered group,
and a sum of bounds for the sums of what they admit. Pivoting at every index closes the matrix
under composition. In a closed matrix a point that meets the bounds between some coordinates
extends to any further coordinate, so closed matrices are projected by dropping bounds.
-/

namespace DifferenceBounds

/-! ### Lower and upper sets that meet in pairs -/

section Families

variable {R : Type*} [LinearOrder R] {𝒜 ℬ : Set (Set R)}

theorem exists_least_lower (hf : 𝒜.Finite) (hne : 𝒜.Nonempty) (h : ∀ A ∈ 𝒜, IsLowerSet A) :
    ∃ A ∈ 𝒜, ∀ A' ∈ 𝒜, A ⊆ A' := by
  obtain ⟨A, hA⟩ := hf.exists_minimal hne
  use A, hA.prop
  intro A' hA'
  cases (h A hA.prop).total (h A' hA') with
  | inl hle => exact hle
  | inr hle => exact hA.le_of_le hA' hle

theorem exists_least_upper (hf : ℬ.Finite) (hne : ℬ.Nonempty) (h : ∀ B ∈ ℬ, IsUpperSet B) :
    ∃ B ∈ ℬ, ∀ B' ∈ ℬ, B ⊆ B' := by
  obtain ⟨B, hB⟩ := hf.exists_minimal hne
  use B, hB.prop
  intro B' hB'
  cases (h B hB.prop).total (h B' hB') with
  | inl hle => exact hle
  | inr hle => exact hB.le_of_le hB' hle

/-- Finitely many lower sets and finitely many upper sets, each lower set meeting each upper
set, have a common point. -/
theorem exists_mem_lower_upper (hfA : 𝒜.Finite) (hfB : ℬ.Finite) (hA : ∀ A ∈ 𝒜, IsLowerSet A)
    (hB : ∀ B ∈ ℬ, IsUpperSet B) (hneA : 𝒜.Nonempty) (hneB : ℬ.Nonempty)
    (h : ∀ A ∈ 𝒜, ∀ B ∈ ℬ, (A ∩ B).Nonempty) : ∃ x, (∀ A ∈ 𝒜, x ∈ A) ∧ ∀ B ∈ ℬ, x ∈ B := by
  obtain ⟨A, hmA, hleA⟩ := exists_least_lower hfA hneA hA
  obtain ⟨B, hmB, hleB⟩ := exists_least_upper hfB hneB hB
  obtain ⟨x, hxA, hxB⟩ := h A hmA B hmB
  use x
  constructor
  · intro A' hA'
    exact hleA A' hA' hxA
  · intro B' hB'
    exact hleB B' hB' hxB

end Families

/-! ### Bounds -/

/-- Bounds on the elements of an ordered group. A proper bound admits some element. -/
structure Bounds (R B : Type*) [AddCommGroup R] [LinearOrder R] [LinearOrder B] where
  sat : B → Set R
  proper : Set B
  zero : B
  add : B → B → B
  isLowerSet (b : B) : IsLowerSet (sat b)
  sat_nonempty {b : B} : b ∈ proper → (sat b).Nonempty
  sat_mono {a b : B} : a ≤ b → sat a ⊆ sat b
  zero_mem_sat {b : B} : 0 ∈ sat b ↔ zero ≤ b
  add_mem_sat {a b : B} {s t : R} : s ∈ sat a → t ∈ sat b → s + t ∈ sat (add a b)
  split {a b : B} {r : R} : a ∈ proper → b ∈ proper → r ∈ sat (add a b) →
    ∃ s ∈ sat a, r - s ∈ sat b
  add_proper {a b : B} : a ∈ proper → b ∈ proper → add a b ∈ proper
  proper_of_zero_le {b : B} : zero ≤ b → b ∈ proper
  add_assoc (a b c : B) : add (add a b) c = add a (add b c)
  add_le_add {a a' b b' : B} : a ≤ a' → b ≤ b' → add a b ≤ add a' b'
  zero_add (a : B) : add zero a = a
  add_zero (a : B) : add a zero = a

variable {R B ι : Type*} [AddCommGroup R] [LinearOrder R] [LinearOrder B] (C : Bounds R B)
  {D : ι → ι → B} {S : Set ι} {x : ι → R}

/-- The points that meet the bounds between the indices in `S`. -/
def zone (S : Set ι) (D : ι → ι → B) : Set (ι → R) :=
  {x | ∀ i ∈ S, ∀ j ∈ S, x i - x j ∈ C.sat (D i j)}

/-- No bound is greater than a sum of two bounds that compose to it. -/
structure Closed (S : Set ι) (D : ι → ι → B) : Prop where
  proper : ∀ i ∈ S, ∀ j ∈ S, D i j ∈ C.proper
  zero_le : ∀ i ∈ S, C.zero ≤ D i i
  le_add : ∀ i ∈ S, ∀ j ∈ S, ∀ k ∈ S, D i j ≤ C.add (D i k) (D k j)

section

variable {C}

theorem Closed.mono {T : Set ι} (hD : Closed C S D) (hTS : T ⊆ S) : Closed C T D :=
  ⟨fun i hi j hj ↦ hD.proper i (hTS hi) j (hTS hj), fun i hi ↦ hD.zero_le i (hTS hi),
    fun i hi j hj k hk ↦ hD.le_add i (hTS hi) j (hTS hj) k (hTS hk)⟩

end

/-! ### Extending points -/

section Extend

variable [DecidableEq ι] {C}

theorem mem_zone_update {k : ι} (hk : k ∉ S) (hx : x ∈ zone C S D) {t : R}
    (hkk : C.zero ≤ D k k) (hup : ∀ j ∈ S, t - x j ∈ C.sat (D k j))
    (hlow : ∀ i ∈ S, x i - t ∈ C.sat (D i k)) :
    Function.update x k t ∈ zone C (insert k S) D := by
  intro i hi j hj
  cases hi with
  | inl hik =>
    subst hik
    cases hj with
    | inl hjk =>
      subst hjk
      rw [sub_self]
      exact C.zero_mem_sat.mpr hkk
    | inr hj =>
      have hne : j ≠ i := fun h ↦ hk (h ▸ hj)
      rw [Function.update_self, Function.update_of_ne hne]
      exact hup j hj
  | inr hi =>
    have hik : i ≠ k := fun h ↦ hk (h ▸ hi)
    cases hj with
    | inl hjk =>
      subst hjk
      rw [Function.update_self, Function.update_of_ne hik]
      exact hlow i hi
    | inr hj =>
      have hne : j ≠ k := fun h ↦ hk (h ▸ hj)
      rw [Function.update_of_ne hik, Function.update_of_ne hne]
      exact hx i hi j hj

variable [IsOrderedAddMonoid R]

theorem isLowerSet_sub (b : B) (r : R) : IsLowerSet {t | t - r ∈ C.sat b} := by
  intro t t' h ht
  exact C.isLowerSet b (sub_le_sub_right h r) ht

theorem isUpperSet_sub (b : B) (r : R) : IsUpperSet {t | r - t ∈ C.sat b} := by
  intro t t' h ht
  exact C.isLowerSet b (sub_le_sub_left h r) ht

/-- A point of a closed matrix extends to another coordinate. The new coordinate can be kept in
a lower set `A` and an upper set `U` that meet, each meeting the bounds of the other side. -/
theorem exists_extension (hS : S.Finite) {k : ι} (hk : k ∉ S) (hD : Closed C (insert k S) D)
    (hx : x ∈ zone C S D) {A U : Set R} (hA : IsLowerSet A) (hU : IsUpperSet U)
    (hAU : (A ∩ U).Nonempty) (hup : ∀ j ∈ S, ∃ t ∈ U, t - x j ∈ C.sat (D k j))
    (hlow : ∀ i ∈ S, ∃ t ∈ A, x i - t ∈ C.sat (D i k)) :
    ∃ t, t ∈ A ∧ t ∈ U ∧ Function.update x k t ∈ zone C (insert k S) D := by
  have hmem {i : ι} (hi : i ∈ S) : i ∈ insert k S := Set.mem_insert_of_mem k hi
  have hkm : k ∈ insert k S := Set.mem_insert k S
  have hpair : ∀ i ∈ S, ∀ j ∈ S, ∃ t, t - x j ∈ C.sat (D k j) ∧ x i - t ∈ C.sat (D i k) := by
    intro i hi j hj
    have hle := hD.le_add i (hmem hi) j (hmem hj) k hkm
    obtain ⟨s, hs, hs'⟩ := C.split (hD.proper i (hmem hi) k hkm) (hD.proper k hkm j (hmem hj))
      (C.sat_mono hle (hx i hi j hj))
    use x i - s
    constructor
    · have : x i - s - x j = x i - x j - s := by abel
      rwa [this]
    · rwa [sub_sub_cancel]
  obtain ⟨t, htA, htU⟩ := exists_mem_lower_upper
    (𝒜 := insert A ((fun j ↦ {t | t - x j ∈ C.sat (D k j)}) '' S))
    (ℬ := insert U ((fun i ↦ {t | x i - t ∈ C.sat (D i k)}) '' S))
    ((hS.image _).insert _) ((hS.image _).insert _)
    (by
      rintro _ (rfl | ⟨j, -, rfl⟩)
      · exact hA
      · exact isLowerSet_sub _ _)
    (by
      rintro _ (rfl | ⟨i, -, rfl⟩)
      · exact hU
      · exact isUpperSet_sub _ _)
    (Set.insert_nonempty _ _) (Set.insert_nonempty _ _)
    (by
      rintro _ (rfl | ⟨j, hj, rfl⟩) _ (rfl | ⟨i, hi, rfl⟩)
      · exact hAU
      · exact hlow i hi
      · obtain ⟨t, ht, htj⟩ := hup j hj
        exact ⟨t, htj, ht⟩
      · obtain ⟨t, htj, hti⟩ := hpair i hi j hj
        exact ⟨t, htj, hti⟩)
  refine ⟨t, htA A (Set.mem_insert _ _), htU U (Set.mem_insert _ _), ?_⟩
  apply mem_zone_update hk hx (hD.zero_le k hkm)
  · intro j hj
    exact htA _ (Set.mem_insert_of_mem _ ⟨j, hj, rfl⟩)
  · intro i hi
    exact htU _ (Set.mem_insert_of_mem _ ⟨i, hi, rfl⟩)

/-- A point of a closed matrix extends to another coordinate. -/
theorem exists_update_mem_zone (hS : S.Finite) {k : ι} (hk : k ∉ S)
    (hD : Closed C (insert k S) D) (hx : x ∈ zone C S D) :
    ∃ t, Function.update x k t ∈ zone C (insert k S) D := by
  have hkm : k ∈ insert k S := Set.mem_insert k S
  obtain ⟨t, -, -, ht⟩ := exists_extension hS hk hD hx (A := Set.univ) (U := Set.univ)
    isLowerSet_univ isUpperSet_univ ⟨0, trivial, trivial⟩
    (by
      intro j hj
      obtain ⟨s, hs⟩ := C.sat_nonempty (hD.proper k hkm j (Set.mem_insert_of_mem k hj))
      exact ⟨s + x j, trivial, by rwa [add_sub_cancel_right]⟩)
    (by
      intro i hi
      obtain ⟨s, hs⟩ := C.sat_nonempty (hD.proper i (Set.mem_insert_of_mem k hi) k hkm)
      exact ⟨x i - s, trivial, by rwa [sub_sub_cancel]⟩)
  exact ⟨t, ht⟩

/-- A point of some coordinates of a closed matrix extends to all of them. -/
theorem exists_extend_mem_zone {T : Set ι} (hS : S.Finite) (hT : T.Finite)
    (hD : Closed C (S ∪ T) D) (hx : x ∈ zone C S D) :
    ∃ y ∈ zone C (S ∪ T) D, ∀ i ∈ S, y i = x i := by
  induction T, hT using Set.Finite.induction_on with
  | empty =>
    rw [Set.union_empty]
    exact ⟨x, hx, fun _ _ ↦ rfl⟩
  | @insert k T _ hT ih =>
    rw [Set.union_insert] at hD ⊢
    obtain ⟨y, hy, hyx⟩ := ih (hD.mono (Set.subset_insert k _))
    by_cases hk : k ∈ S ∪ T
    · rw [Set.insert_eq_of_mem hk]
      exact ⟨y, hy, hyx⟩
    · obtain ⟨t, ht⟩ := exists_update_mem_zone (hS.union hT) hk hD hy
      refine ⟨_, ht, ?_⟩
      intro i hi
      have hne : i ≠ k := fun h ↦ hk (h ▸ Or.inl hi)
      rw [Function.update_of_ne hne]
      exact hyx i hi

/-- A closed matrix has a point. -/
theorem Closed.zone_nonempty (hS : S.Finite) (hD : Closed C S D) : (zone C S D).Nonempty := by
  have hx : (0 : ι → R) ∈ zone C ∅ D := fun i hi ↦ absurd hi (Set.notMem_empty i)
  rw [← Set.empty_union S] at hD ⊢
  obtain ⟨y, hy, -⟩ := exists_extend_mem_zone Set.finite_empty hS hD hx
  exact ⟨y, hy⟩

/-- A bound of a closed matrix is attained: what satisfies it and the bound of the other direction
is a difference of some point. -/
theorem Closed.exists_sub_eq (hS : S.Finite) (hD : Closed C S D) {i j : ι} (hi : i ∈ S) (hj : j ∈ S)
    (hij : i ≠ j) {t : R} (ht : t ∈ C.sat (D i j)) (ht' : -t ∈ C.sat (D j i)) :
    ∃ y ∈ zone C S D, y i - y j = t := by
  have hsub : ({i, j} : Set ι) ∪ S = S := by
    rw [Set.union_eq_right]
    rintro _ (rfl | rfl)
    · exact hi
    · exact hj
  have hx : Function.update (0 : ι → R) i t ∈ zone C {i, j} D := by
    have hji : (Function.update 0 i t : ι → R) j = 0 := Function.update_of_ne hij.symm _ _
    rintro _ (rfl | rfl) _ (rfl | rfl)
    · rw [sub_self]
      exact C.zero_mem_sat.mpr (hD.zero_le _ hi)
    · rw [Function.update_self, hji, sub_zero]
      exact ht
    · rw [Function.update_self, hji, zero_sub]
      exact ht'
    · rw [sub_self]
      exact C.zero_mem_sat.mpr (hD.zero_le _ hj)
  rw [← hsub] at hD ⊢
  obtain ⟨y, hy, hyx⟩ := exists_extend_mem_zone ((Set.finite_singleton j).insert i) hS hD hx
  use y, hy
  rw [hyx i (Or.inl rfl), hyx j (Or.inr rfl), Function.update_self,
    Function.update_of_ne hij.symm]
  exact sub_zero t

/-- The bounds of a closed matrix are the tightest ones of its zone. -/
theorem Closed.sat_subset (hS : S.Finite) {E : ι → ι → B} (hE : Closed C S E)
    (hzone : zone C S E ⊆ zone C S D) {i j : ι} (hi : i ∈ S) (hj : j ∈ S) (hij : i ≠ j) :
    C.sat (E i j) ⊆ C.sat (D i j) := by
  intro t ht
  by_cases ht' : -t ∈ C.sat (E j i)
  · obtain ⟨y, hy, rfl⟩ := hE.exists_sub_eq hS hi hj hij ht ht'
    exact hzone hy i hi j hj
  · -- every point of the zone has a greater difference
    obtain ⟨y, hy⟩ := hE.zone_nonempty hS
    have hlt : -(y i - y j) < -t := by
      apply lt_of_not_ge
      intro hle
      apply ht'
      apply C.isLowerSet _ hle
      rw [neg_sub]
      exact hy j hj i hi
    exact C.isLowerSet _ (neg_lt_neg_iff.mp hlt).le (hzone hy i hi j hj)

end Extend

/-! ### Closing a matrix -/

/-- Compose the bounds through the index `k`. -/
def pivot (add : B → B → B) (k : ι) (D : ι → ι → B) (i j : ι) : B :=
  min (D i j) (add (D i k) (D k j))

/-- Pivot at each index of the list. -/
def close (add : B → B → B) (ks : List ι) (D : ι → ι → B) : ι → ι → B :=
  ks.foldl (fun D k ↦ pivot add k D) D

section Close

variable {C}

theorem pivot_le (k i j : ι) : pivot C.add k D i j ≤ D i j := min_le_left _ _

theorem zone_pivot {k : ι} (hk : k ∈ S) : zone C S (pivot C.add k D) = zone C S D := by
  ext x
  constructor
  · intro hx i hi j hj
    exact C.sat_mono (pivot_le k i j) (hx i hi j hj)
  · intro hx i hi j hj
    unfold pivot
    cases min_choice (D i j) (C.add (D i k) (D k j)) with
    | inl h =>
      rw [h]
      exact hx i hi j hj
    | inr h =>
      rw [h, ← sub_add_sub_cancel (x i) (x k) (x j)]
      exact C.add_mem_sat (hx i hi k hk) (hx k hk j hj)

theorem zone_close {ks : List ι} (hks : ∀ k ∈ ks, k ∈ S) : zone C S (close C.add ks D) = zone C S D := by
  induction ks generalizing D with
  | nil => rfl
  | cons k ks ih =>
    have hk := List.forall_mem_cons.mp hks
    exact (ih hk.2).trans (zone_pivot hk.1)

theorem close_le (ks : List ι) (i j : ι) : close C.add ks D i j ≤ D i j := by
  induction ks generalizing D with
  | nil => exact le_rfl
  | cons k ks ih => exact (ih (D := pivot C.add k D)).trans (pivot_le k i j)

theorem close_proper {ks : List ι} (hks : ∀ k ∈ ks, k ∈ S)
    (hD : ∀ i ∈ S, ∀ j ∈ S, D i j ∈ C.proper) :
    ∀ i ∈ S, ∀ j ∈ S, close C.add ks D i j ∈ C.proper := by
  induction ks generalizing D with
  | nil => exact hD
  | cons k ks ih =>
    have hk := List.forall_mem_cons.mp hks
    apply ih (D := pivot C.add k D) hk.2
    intro i hi j hj
    cases min_choice (D i j) (C.add (D i k) (D k j)) with
    | inl h =>
      rw [pivot, h]
      exact hD i hi j hj
    | inr h =>
      rw [pivot, h]
      exact C.add_proper (hD i hi k hk.1) (hD k hk.1 j hj)

/-- The matrix is closed under composition through `k`. -/
def ClosedAt (C : Bounds R B) (k : ι) (D : ι → ι → B) : Prop :=
  ∀ i j, D i j ≤ C.add (D i k) (D k j)

theorem le_add_right {a b : B} (h : C.zero ≤ b) : a ≤ C.add a b :=
  calc a = C.add a C.zero := (C.add_zero a).symm
    _ ≤ C.add a b := C.add_le_add le_rfl h

theorem le_add_left {a b : B} (h : C.zero ≤ b) : a ≤ C.add b a :=
  calc a = C.add C.zero a := (C.zero_add a).symm
    _ ≤ C.add b a := C.add_le_add h le_rfl

/-- Pivoting at `k` closes the matrix under composition through `k`. -/
theorem closedAt_pivot {k : ι} (hk : C.zero ≤ D k k) : ClosedAt C k (pivot C.add k D) := by
  intro i j
  have hik : pivot C.add k D i k = D i k := min_eq_left (le_add_right hk)
  have hkj : pivot C.add k D k j = D k j := min_eq_left (le_add_left hk)
  rw [hik, hkj]
  exact min_le_right _ _

/-- Pivoting at `k` keeps the matrix closed under composition through `l`. -/
theorem ClosedAt.pivot {k l : ι} (h : ClosedAt C l D) (hk : C.zero ≤ D k k) :
    ClosedAt C l (pivot C.add k D) := by
  intro i j
  have hdirect : DifferenceBounds.pivot C.add k D i j ≤ D i j := pivot_le k i j
  have hthrough : DifferenceBounds.pivot C.add k D i j ≤ C.add (D i k) (D k j) := min_le_right _ _
  cases min_choice (D i l) (C.add (D i k) (D k l)) with
  | inl hil =>
    cases min_choice (D l j) (C.add (D l k) (D k j)) with
    | inl hlj =>
      rw [DifferenceBounds.pivot, DifferenceBounds.pivot, DifferenceBounds.pivot, hil, hlj]
      exact hdirect.trans (h i j)
    | inr hlj =>
      rw [DifferenceBounds.pivot, DifferenceBounds.pivot, DifferenceBounds.pivot, hil, hlj]
      calc min (D i j) (C.add (D i k) (D k j)) ≤ C.add (D i k) (D k j) := hthrough
        _ ≤ C.add (C.add (D i l) (D l k)) (D k j) := C.add_le_add (h i k) le_rfl
        _ = C.add (D i l) (C.add (D l k) (D k j)) := C.add_assoc _ _ _
  | inr hil =>
    cases min_choice (D l j) (C.add (D l k) (D k j)) with
    | inl hlj =>
      rw [DifferenceBounds.pivot, DifferenceBounds.pivot, DifferenceBounds.pivot, hil, hlj]
      calc min (D i j) (C.add (D i k) (D k j)) ≤ C.add (D i k) (D k j) := hthrough
        _ ≤ C.add (D i k) (C.add (D k l) (D l j)) := C.add_le_add le_rfl (h k j)
        _ = C.add (C.add (D i k) (D k l)) (D l j) := (C.add_assoc _ _ _).symm
    | inr hlj =>
      rw [DifferenceBounds.pivot, DifferenceBounds.pivot, DifferenceBounds.pivot, hil, hlj]
      calc min (D i j) (C.add (D i k) (D k j)) ≤ C.add (D i k) (D k j) := hthrough
        _ ≤ C.add (D i k) (C.add (D k k) (D k j)) := C.add_le_add le_rfl (le_add_left hk)
        _ ≤ C.add (D i k) (C.add (C.add (D k l) (D l k)) (D k j)) :=
            C.add_le_add le_rfl (C.add_le_add (h k k) le_rfl)
        _ = C.add (C.add (D i k) (D k l)) (C.add (D l k) (D k j)) := by
            simp only [C.add_assoc]

/-- With no negative bound left on the diagonal, every index has been closed. -/
theorem closedAt_close {ks : List ι} (hdiag : ∀ k ∈ ks, C.zero ≤ close C.add ks D k k) :
    (∀ k ∈ ks, ClosedAt C k (close C.add ks D)) ∧ ∀ l, ClosedAt C l D → ClosedAt C l (close C.add ks D) := by
  induction ks generalizing D with
  | nil => exact ⟨by simp, fun l h ↦ h⟩
  | cons k ks ih =>
    have hk : C.zero ≤ D k k :=
      (hdiag k List.mem_cons_self).trans (close_le (k :: ks) k k)
    obtain ⟨hks, hkeep⟩ := ih (D := pivot C.add k D) fun l hl ↦ hdiag l (List.mem_cons_of_mem k hl)
    constructor
    · intro l hl
      cases List.mem_cons.mp hl with
      | inl h =>
        subst h
        exact hkeep l (closedAt_pivot hk)
      | inr h => exact hks l h
    · intro l hl
      exact hkeep l (hl.pivot hk)

/-- Closing at every index of `S` gives a closed matrix, or the zone is empty. -/
theorem closed_close {ks : List ι} (hks : ∀ k, k ∈ ks ↔ k ∈ S)
    (hD : ∀ i ∈ S, ∀ j ∈ S, D i j ∈ C.proper) (hdiag : ∀ k ∈ S, C.zero ≤ close C.add ks D k k) :
    Closed C S (close C.add ks D) := by
  constructor
  · exact close_proper (fun k hk ↦ (hks k).mp hk) hD
  · exact hdiag
  · intro i _ j _ k hk
    have := (closedAt_close (D := D) fun l hl ↦ hdiag l ((hks l).mp hl)).1
    exact this k ((hks k).mpr hk) i j

theorem zone_eq_empty_of_diag {k : ι} (hk : k ∈ S) (h : ¬ C.zero ≤ D k k) : zone C S D = ∅ := by
  ext x
  constructor
  · intro hx
    have := hx k hk k hk
    rw [sub_self] at this
    exact absurd (C.zero_mem_sat.mp this) h
  · intro hx
    exact absurd hx (Set.notMem_empty x)

end Close

end DifferenceBounds

import Mathlib.Algebra.BigOperators.Intervals
import Mathlib.Logic.Function.Basic

/-!
# Levels

The declaration of levels, `kernel.c:1040–1090`. A level tests the difference of two clocks or
one Boolean variable; new clocks get one level for each difference with an earlier clock.
-/

namespace UCDD

/-- `LevelInfo` of `include/cdd/cdd.h:220–227`. -/
inductive LevelInfo where
  | cdd (clock1 clock2 : ℕ)
  | bdd
  deriving DecidableEq, Repr

/-- The declared levels: `cdd_levelinfo`, `cdd_diff2level`, `cdd_clocknum`, `cdd_varnum` and
`bdd_start_level`. -/
structure Levels where
  levelinfo : List LevelInfo
  diff2level : ℕ → ℕ
  clocknum : ℕ
  varnum : ℕ
  bddStartLevel : ℕ

/-- `cdd_difference_count` of `include/cdd/cdd.h:229`. -/
def cddDifferenceCount (n : ℕ) : ℕ := n * (n - 1) / 2

/-- `cdd_difference` of `include/cdd/cdd.h:230`. -/
def cddDifference (c d : ℕ) : ℕ := cddDifferenceCount c + d

namespace Levels

/-- The levels after `cdd_init`. -/
def init : Levels := ⟨[], fun _ ↦ 0, 0, 0, 0⟩

/-- One level of `cdd_add_clocks`, `kernel.c:1055–1061`. -/
def addDiff (i j : ℕ) (L : Levels) : Levels :=
  { L with
    levelinfo := L.levelinfo ++ [.cdd i j]
    diff2level := Function.update L.diff2level (cddDifference i j) L.levelinfo.length }

/-- The inner loop of `cdd_add_clocks`: the differences of clock `i` with the first `j` clocks. -/
def addDiffs (i : ℕ) : ℕ → Levels → Levels
  | 0, L => L
  | j + 1, L => (addDiffs i j L).addDiff i j

/-- The outer loop of `cdd_add_clocks`. -/
def addClockDiffs (clocknum : ℕ) : ℕ → Levels → Levels
  | 0, L => L
  | n + 1, L => addDiffs (clocknum + n) (clocknum + n) (addClockDiffs clocknum n L)

/-- `cdd_add_clocks`. -/
def cddAddClocks (n : ℕ) (L : Levels) : Levels :=
  { addClockDiffs L.clocknum n L with clocknum := L.clocknum + n }

/-- `cdd_add_bddvar`. -/
def cddAddBddvar (n : ℕ) (L : Levels) : Levels :=
  { L with
    levelinfo := L.levelinfo ++ List.replicate n .bdd
    varnum := L.varnum + n
    bddStartLevel := L.levelinfo.length }

/-- The levels that some sequence of declarations gives. -/
inductive Declared : Levels → Prop
  | init : Declared init
  | addClocks {L} (n : ℕ) : Declared L → Declared (L.cddAddClocks n)
  | addBddvar {L} (n : ℕ) : Declared L → Declared (L.cddAddBddvar n)

/-- Every clock level comes before every Boolean level. -/
def ClocksFirst (L : Levels) : Prop :=
  ∀ ℓ ℓ' i j : ℕ, L.levelinfo[ℓ]? = some (.cdd i j) → L.levelinfo[ℓ']? = some .bdd → ℓ < ℓ'

/-! ### Differences have one level each -/

theorem cddDifferenceCount_succ (n : ℕ) :
    cddDifferenceCount (n + 1) = cddDifferenceCount n + n := by
  unfold cddDifferenceCount
  exact Nat.triangle_succ n

theorem cddDifferenceCount_mono {m n : ℕ} (h : m ≤ n) :
    cddDifferenceCount m ≤ cddDifferenceCount n := by
  induction h with
  | refl => exact le_rfl
  | step _ ih =>
    rw [Nat.succ_eq_add_one, cddDifferenceCount_succ]
    omega

/-- Two pairs of clocks with the same difference index are the same pair. -/
theorem cddDifference_injective {i j i' j' : ℕ} (hj : j < i) (hj' : j' < i')
    (h : cddDifference i j = cddDifference i' j') : i = i' ∧ j = j' := by
  have hlt {a b a' b' : ℕ} (hb : b < a) (haa : a < a') :
      cddDifference a b < cddDifference a' b' := by
    unfold cddDifference
    have h1 := cddDifferenceCount_succ a
    have h2 := cddDifferenceCount_mono (Nat.succ_le_of_lt haa)
    rw [Nat.succ_eq_add_one] at h2
    omega
  rcases lt_trichotomy i i' with hi | rfl | hi
  · exact absurd h (ne_of_lt (hlt hj hi))
  · exact ⟨rfl, Nat.add_left_cancel h⟩
  · exact absurd h.symm (ne_of_lt (hlt hj' hi))

/-- The clock levels are those of the pairs in `P`, one for each pair. -/
structure Covers (L : Levels) (P : ℕ → ℕ → Prop) : Prop where
  pair_of_level : ∀ ℓ i j, L.levelinfo[ℓ]? = some (.cdd i j) →
    P i j ∧ L.diff2level (cddDifference i j) = ℓ
  level_of_pair : ∀ i j, P i j → L.levelinfo[L.diff2level (cddDifference i j)]? = some (.cdd i j)

theorem Covers.congr {L : Levels} {P Q : ℕ → ℕ → Prop} (h : L.Covers P)
    (hPQ : ∀ i j, P i j ↔ Q i j) : L.Covers Q :=
  ⟨fun ℓ i j hℓ ↦ ⟨(hPQ i j).mp (h.pair_of_level ℓ i j hℓ).1, (h.pair_of_level ℓ i j hℓ).2⟩,
    fun i j hij ↦ h.level_of_pair i j ((hPQ i j).mpr hij)⟩

theorem addDiff_diff2level {L : Levels} {i j a b : ℕ}
    (h : cddDifference a b ≠ cddDifference i j) :
    (L.addDiff i j).diff2level (cddDifference a b) = L.diff2level (cddDifference a b) :=
  Function.update_of_ne h _ _

/-- One more difference takes the next level. -/
theorem Covers.addDiff {L : Levels} {P : ℕ → ℕ → Prop} (h : L.Covers P)
    (hlt : ∀ i j, P i j → j < i) {i j : ℕ} (hj : j < i) (hnew : ¬ P i j) :
    (L.addDiff i j).Covers fun a b ↦ P a b ∨ (a = i ∧ b = j) := by
  have hne {a b : ℕ} (hab : P a b) : cddDifference a b ≠ cddDifference i j := by
    intro he
    obtain ⟨rfl, rfl⟩ := cddDifference_injective (hlt a b hab) hj he
    exact hnew hab
  constructor
  · intro ℓ a b hℓ
    rcases lt_trichotomy ℓ L.levelinfo.length with hlen | rfl | hlen
    · have hℓ' : L.levelinfo[ℓ]? = some (.cdd a b) := by
        rwa [Levels.addDiff, List.getElem?_append_left hlen] at hℓ
      obtain ⟨hab, hd⟩ := h.pair_of_level ℓ a b hℓ'
      refine ⟨Or.inl hab, ?_⟩
      rw [addDiff_diff2level (hne hab), hd]
    · have : LevelInfo.cdd i j = .cdd a b := by simpa [Levels.addDiff] using hℓ
      cases this
      exact ⟨Or.inr ⟨rfl, rfl⟩, by simp [Levels.addDiff]⟩
    · have : (L.levelinfo ++ [LevelInfo.cdd i j])[ℓ]? = none := by
        apply List.getElem?_eq_none
        simp only [List.length_append, List.length_singleton]
        omega
      rw [Levels.addDiff, this] at hℓ
      cases hℓ
  · rintro a b (hab | ⟨rfl, rfl⟩)
    · have hold := h.level_of_pair a b hab
      obtain ⟨hlen, -⟩ := List.getElem?_eq_some_iff.mp hold
      rw [addDiff_diff2level (hne hab)]
      exact (List.getElem?_append_left hlen).trans hold
    · simp [Levels.addDiff]

theorem addDiffs_spec {L : Levels} {i : ℕ} (h : L.Covers fun a b ↦ b < a ∧ a < i) (j : ℕ)
    (hj : j ≤ i) :
    (addDiffs i j L).Covers fun a b ↦ b < a ∧ (a < i ∨ (a = i ∧ b < j)) := by
  induction j with
  | zero => exact h.congr fun a b ↦ by omega
  | succ j ih =>
    refine ((ih (by omega)).addDiff (fun a b h ↦ h.1) (i := i) (j := j) (by omega)
      (by omega)).congr fun a b ↦ ?_
    omega

theorem addClockDiffs_spec {L : Levels} {c : ℕ} (h : L.Covers fun a b ↦ b < a ∧ a < c) (n : ℕ) :
    (addClockDiffs c n L).Covers fun a b ↦ b < a ∧ a < c + n := by
  induction n with
  | zero => exact h
  | succ n ih => exact (addDiffs_spec ih (c + n) le_rfl).congr fun a b ↦ by omega

/-- Whatever the order of the declarations, the clock levels are those of the pairs of declared
clocks. -/
theorem Declared.covers {L : Levels} (h : L.Declared) :
    L.Covers fun i j ↦ j < i ∧ i < L.clocknum := by
  induction h with
  | init =>
    constructor
    · intro ℓ i j hℓ
      simp [Levels.init] at hℓ
    · intro i j hij
      simp [Levels.init] at hij
  | @addClocks L n _ ih => exact ⟨(addClockDiffs_spec ih n).1, (addClockDiffs_spec ih n).2⟩
  | @addBddvar L n _ ih =>
    constructor
    · intro ℓ i j hℓ
      apply ih.pair_of_level
      by_cases hlen : ℓ < L.levelinfo.length
      · rwa [cddAddBddvar, List.getElem?_append_left hlen] at hℓ
      · rw [cddAddBddvar, List.getElem?_append_right (by omega), List.getElem?_replicate] at hℓ
        split at hℓ <;> cases hℓ
    · intro i j hij
      have hold := ih.level_of_pair i j hij
      obtain ⟨hlen, -⟩ := List.getElem?_eq_some_iff.mp hold
      rw [cddAddBddvar]
      rwa [List.getElem?_append_left hlen]

/-! ### The order of the levels -/

theorem addDiffs_levelinfo (i j : ℕ) (L : Levels) :
    (addDiffs i j L).levelinfo = L.levelinfo ++ (List.range j).map fun b ↦ .cdd i b := by
  induction j with
  | zero => simp [addDiffs]
  | succ j ih =>
    show (addDiffs i j L).levelinfo ++ [.cdd i j] = _
    rw [ih, List.range_succ, List.map_append, List.append_assoc]
    rfl

/-- The differences in the order in which they are declared. -/
def DeclaredBefore : LevelInfo → LevelInfo → Prop
  | .cdd i j, .cdd i' j' => i < i' ∨ (i = i' ∧ j < j')
  | _, _ => True

theorem addDiffs_pairwise {L : Levels} {i : ℕ} (h : L.levelinfo.Pairwise DeclaredBefore)
    (hlt : ∀ a b, .cdd a b ∈ L.levelinfo → a < i) (j : ℕ) :
    (addDiffs i j L).levelinfo.Pairwise DeclaredBefore := by
  rw [addDiffs_levelinfo, List.pairwise_append]
  refine ⟨h, ?_, ?_⟩
  · rw [List.pairwise_map]
    exact (List.pairwise_lt_range (n := j)).imp fun hab ↦ Or.inr ⟨rfl, hab⟩
  · intro a ha e he
    obtain ⟨b, -, rfl⟩ := List.mem_map.mp he
    cases a with
    | bdd => trivial
    | cdd a b => exact Or.inl (hlt a b ha)

theorem addClockDiffs_pairwise {L : Levels} {c : ℕ} (h : L.levelinfo.Pairwise DeclaredBefore)
    (hcov : L.Covers fun a b ↦ b < a ∧ a < c) (n : ℕ) :
    (addClockDiffs c n L).levelinfo.Pairwise DeclaredBefore := by
  induction n with
  | zero => exact h
  | succ n ih =>
    apply addDiffs_pairwise ih
    intro a b hab
    obtain ⟨ℓ, hℓ⟩ := List.mem_iff_getElem?.mp hab
    exact ((addClockDiffs_spec hcov n).pair_of_level ℓ a b hℓ).1.2

theorem Declared.pairwise {L : Levels} (h : L.Declared) :
    L.levelinfo.Pairwise DeclaredBefore := by
  induction h with
  | init => exact List.Pairwise.nil
  | @addClocks L n hL ih => exact addClockDiffs_pairwise ih hL.covers n
  | @addBddvar L n _ ih =>
    show (L.levelinfo ++ List.replicate n LevelInfo.bdd).Pairwise DeclaredBefore
    rw [List.pairwise_append]
    refine ⟨ih, ?_, ?_⟩
    · exact List.pairwise_replicate.mpr (Or.inr trivial)
    · intro a _ b hb
      rw [List.eq_of_mem_replicate hb]
      cases a <;> trivial

/-- A level comes before those of the differences with later clocks. -/
theorem Declared.level_lt {L : Levels} (h : L.Declared) {ℓ ℓ' i j i' j' : ℕ}
    (hℓ : L.levelinfo[ℓ]? = some (.cdd i j)) (hℓ' : L.levelinfo[ℓ']? = some (.cdd i' j'))
    (hlt : i < i' ∨ (i = i' ∧ j < j')) : ℓ < ℓ' := by
  obtain ⟨hlen, hget⟩ := List.getElem?_eq_some_iff.mp hℓ
  obtain ⟨hlen', hget'⟩ := List.getElem?_eq_some_iff.mp hℓ'
  rcases lt_trichotomy ℓ ℓ' with hlev | rfl | hlev
  · exact hlev
  · rw [hget] at hget'
    cases hget'
    omega
  · have hbefore := List.pairwise_iff_getElem.mp h.pairwise ℓ' ℓ hlen' hlen hlev
    rw [hget, hget'] at hbefore
    have : i' < i ∨ (i' = i ∧ j' < j) := hbefore
    omega

/-! ### Sequences of declarations -/

theorem addDiffs_clocknum (i j : ℕ) (L : Levels) :
    (addDiffs i j L).clocknum = L.clocknum ∧ (addDiffs i j L).varnum = L.varnum ∧
      (addDiffs i j L).bddStartLevel = L.bddStartLevel := by
  induction j with
  | zero => exact ⟨rfl, rfl, rfl⟩
  | succ j ih => exact ih

/-- The new clocks only add clock levels. -/
theorem addClockDiffs_levelinfo (c n : ℕ) (L : Levels) :
    ∃ new : List LevelInfo, (addClockDiffs c n L).levelinfo = L.levelinfo ++ new ∧
      LevelInfo.bdd ∉ new := by
  induction n with
  | zero => exact ⟨[], by simp [addClockDiffs]⟩
  | succ n ih =>
    obtain ⟨new, hnew, hbdd⟩ := ih
    use new ++ (List.range (c + n)).map fun b ↦ .cdd (c + n) b
    constructor
    · rw [addClockDiffs, addDiffs_levelinfo, hnew, List.append_assoc]
    · simp [hbdd]

theorem addClockDiffs_varnum (c n : ℕ) (L : Levels) :
    (addClockDiffs c n L).varnum = L.varnum ∧
      (addClockDiffs c n L).bddStartLevel = L.bddStartLevel := by
  induction n with
  | zero => exact ⟨rfl, rfl⟩
  | succ n ih =>
    obtain ⟨-, hv, hs⟩ := addDiffs_clocknum (c + n) (c + n) (addClockDiffs c n L)
    rw [addClockDiffs, hv, hs]
    exact ih

/-- A call that declares levels. -/
inductive Declaration where
  | cddAddClocks (n : ℕ)
  | cddAddBddvar (n : ℕ)

/-- The levels after a call. -/
def declare (L : Levels) : Declaration → Levels
  | .cddAddClocks n => L.cddAddClocks n
  | .cddAddBddvar n => L.cddAddBddvar n

/-- The levels after `cdd_init` and a sequence of calls. -/
def declareAll (ds : List Declaration) : Levels := ds.foldl declare init

theorem declareAll_append_singleton (ds : List Declaration) (d : Declaration) :
    declareAll (ds ++ [d]) = (declareAll ds).declare d := by
  rw [declareAll, List.foldl_append]
  rfl

theorem declared_declareAll (ds : List Declaration) : (declareAll ds).Declared := by
  induction ds using List.reverseRecOn with
  | nil => exact .init
  | append_singleton ds d ih =>
    rw [declareAll_append_singleton]
    cases d with
    | cddAddClocks n => exact ih.addClocks n
    | cddAddBddvar n => exact ih.addBddvar n

theorem clocknum_le_declare (L : Levels) (d : Declaration) :
    L.clocknum ≤ (L.declare d).clocknum := by
  cases d with
  | cddAddClocks n => exact Nat.le_add_right _ _
  | cddAddBddvar n => exact le_rfl

/-- A call keeps the levels there are. -/
theorem prefix_declare (L : Levels) (d : Declaration) :
    L.levelinfo <+: (L.declare d).levelinfo := by
  cases d with
  | cddAddClocks n =>
    obtain ⟨new, hnew, -⟩ := addClockDiffs_levelinfo L.clocknum n L
    exact ⟨new, hnew.symm⟩
  | cddAddBddvar n => exact List.prefix_append _ _

theorem prefix_declareAll (ds es : List Declaration) :
    (declareAll ds).levelinfo <+: (declareAll (ds ++ es)).levelinfo ∧
      (declareAll ds).clocknum ≤ (declareAll (ds ++ es)).clocknum := by
  induction es using List.reverseRecOn with
  | nil => simp
  | append_singleton es d ih =>
    rw [← List.append_assoc, declareAll_append_singleton]
    exact ⟨ih.1.trans (prefix_declare _ d), ih.2.trans (clocknum_le_declare _ d)⟩

/-- Each Boolean variable has a level. -/
theorem Declared.count_bdd {L : Levels} (h : L.Declared) : L.levelinfo.count .bdd = L.varnum := by
  induction h with
  | init => rfl
  | @addClocks L n _ ih =>
    obtain ⟨new, hnew, hbdd⟩ := addClockDiffs_levelinfo L.clocknum n L
    obtain ⟨hv, -⟩ := addClockDiffs_varnum L.clocknum n L
    show (addClockDiffs _ n L).levelinfo.count .bdd = (addClockDiffs _ n L).varnum
    rw [hnew, hv, List.count_append, List.count_eq_zero.mpr hbdd, ih, Nat.add_zero]
  | @addBddvar L n _ ih =>
    show (L.levelinfo ++ List.replicate n LevelInfo.bdd).count LevelInfo.bdd = L.varnum + n
    rw [List.count_append, ih, List.count_replicate_self]

theorem count_bdd_declareAll (ds : List Declaration) :
    (declareAll ds).levelinfo.count .bdd = (declareAll ds).varnum :=
  (declared_declareAll ds).count_bdd

/-- What the declarations `ds` keep: one level for each pair of clocks and each Boolean variable,
the table of the pairs, and the levels that were declared before. -/
structure Numbering (ds : List Declaration) : Prop where
  level : ∀ ℓ < (declareAll ds).levelinfo.length,
    (declareAll ds).levelinfo[ℓ]? = some LevelInfo.bdd ∨
      ∃ i j, (j < i ∧ i < (declareAll ds).clocknum) ∧
        (declareAll ds).levelinfo[ℓ]? = some (LevelInfo.cdd i j)
  pair : ∀ i j, j < i → i < (declareAll ds).clocknum →
    ∃! ℓ : ℕ, (declareAll ds).levelinfo[ℓ]? = some (LevelInfo.cdd i j)
  booleans : (declareAll ds).levelinfo.count .bdd = (declareAll ds).varnum
  table : ∀ i j, j < i → i < (declareAll ds).clocknum →
    (declareAll ds).levelinfo[(declareAll ds).diff2level (cddDifference i j)]? =
      some (LevelInfo.cdd i j)
  keeps : ∀ earlier, earlier <+: ds → (declareAll earlier).levelinfo <+: (declareAll ds).levelinfo ∧
    ∀ i j, j < i → i < (declareAll earlier).clocknum →
      (declareAll ds).diff2level (cddDifference i j) =
        (declareAll earlier).diff2level (cddDifference i j)

theorem numbering (ds : List Declaration) : Numbering ds := by
  have hcov := (declared_declareAll ds).covers
  constructor
  · intro ℓ hℓ
    cases hk : (declareAll ds).levelinfo[ℓ] with
    | bdd =>
      left
      rw [List.getElem?_eq_getElem hℓ, hk]
    | cdd i j =>
      right
      have hk' : (declareAll ds).levelinfo[ℓ]? = some (.cdd i j) := by
        rw [List.getElem?_eq_getElem hℓ, hk]
      exact ⟨i, j, (hcov.pair_of_level ℓ i j hk').1, hk'⟩
  · intro i j hj hi
    use (declareAll ds).diff2level (cddDifference i j)
    constructor
    · exact hcov.level_of_pair i j ⟨hj, hi⟩
    · intro ℓ hℓ
      exact (hcov.pair_of_level ℓ i j hℓ).2.symm
  · exact count_bdd_declareAll ds
  · intro i j hj hi
    exact hcov.level_of_pair i j ⟨hj, hi⟩
  · rintro earlier ⟨later, rfl⟩
    obtain ⟨hpre, hclocks⟩ := prefix_declareAll earlier later
    refine ⟨hpre, ?_⟩
    intro i j hj hi
    have hold := (declared_declareAll earlier).covers.level_of_pair i j ⟨hj, hi⟩
    obtain ⟨hlen, hget⟩ := List.getElem?_eq_some_iff.mp hold
    have hnew := (List.prefix_iff_getElem?.mp hpre _ hlen).trans (congrArg some hget)
    exact (hcov.pair_of_level _ i j hnew).2

/-- The Boolean levels are the `cdd_varnum` levels from `bdd_start_level` on. -/
def BooleansFromStart (L : Levels) : Prop :=
  ∀ ℓ, L.levelinfo[ℓ]? = some .bdd ↔ L.bddStartLevel ≤ ℓ ∧ ℓ < L.bddStartLevel + L.varnum

/-- The number of Boolean variables that a call declares. -/
def Declaration.newBooleans : Declaration → ℕ
  | .cddAddClocks _ => 0
  | .cddAddBddvar n => n

/-- The call is one of `cdd_add_bddvar`. -/
def Declaration.isAddBddvar : Declaration → Bool
  | .cddAddClocks _ => false
  | .cddAddBddvar _ => true

/-- Once Boolean variables are declared, `cdd_add_bddvar` is not called again. -/
def OneBatch (ds : List Declaration) : Prop :=
  ds.Pairwise fun d e ↦ d.newBooleans = 0 ∨ e.isAddBddvar = false

theorem varnum_declareAll_eq_zero (ds : List Declaration) :
    (declareAll ds).varnum = 0 ↔ ∀ d ∈ ds, d.newBooleans = 0 := by
  induction ds using List.reverseRecOn with
  | nil => simp [declareAll, init]
  | append_singleton ds d ih =>
    have hvar : ((declareAll ds).declare d).varnum = (declareAll ds).varnum + d.newBooleans := by
      cases d with
      | cddAddClocks n => exact (addClockDiffs_varnum _ n _).1
      | cddAddBddvar n => rfl
    rw [declareAll_append_singleton, hvar, Nat.add_eq_zero_iff, ih, List.forall_mem_append,
      List.forall_mem_singleton]

theorem booleansFromStart_addClocks (L : Levels) (n : ℕ) :
    (L.cddAddClocks n).BooleansFromStart ↔ L.BooleansFromStart := by
  obtain ⟨new, hnew, hbdd⟩ := addClockDiffs_levelinfo L.clocknum n L
  obtain ⟨hv, hs⟩ := addClockDiffs_varnum L.clocknum n L
  have hlevel (ℓ : ℕ) : (L.cddAddClocks n).levelinfo[ℓ]? = some .bdd ↔
      L.levelinfo[ℓ]? = some .bdd := by
    show (addClockDiffs _ n L).levelinfo[ℓ]? = some .bdd ↔ _
    rw [hnew]
    by_cases hlen : ℓ < L.levelinfo.length
    · rw [List.getElem?_append_left hlen]
    · rw [List.getElem?_append_right (by omega), List.getElem?_eq_none (by omega : _ ≤ ℓ)]
      constructor
      · intro h
        exact absurd (List.mem_of_getElem? h) hbdd
      · intro h
        cases h
  unfold BooleansFromStart
  simp only [hlevel]
  show (∀ ℓ, _ ↔ (addClockDiffs _ n L).bddStartLevel ≤ ℓ ∧
    ℓ < (addClockDiffs _ n L).bddStartLevel + (addClockDiffs _ n L).varnum) ↔ _
  rw [hv, hs]

/-- A call of `cdd_add_bddvar` moves the start to the new levels. -/
theorem booleansFromStart_addBddvar {L : Levels} (hcount : L.levelinfo.count .bdd = L.varnum)
    (n : ℕ) : (L.cddAddBddvar n).BooleansFromStart ↔ L.varnum = 0 := by
  have hmem : LevelInfo.bdd ∈ L.levelinfo ↔ L.varnum ≠ 0 := by
    rw [← hcount, ← List.count_pos_iff, Nat.pos_iff_ne_zero]
  constructor
  · intro h
    by_contra hvar
    obtain ⟨ℓ, hlen, hℓ⟩ := List.mem_iff_getElem.mp (hmem.mpr hvar)
    have hbdd : (L.cddAddBddvar n).levelinfo[ℓ]? = some .bdd := by
      show (L.levelinfo ++ _)[ℓ]? = _
      rw [List.getElem?_append_left hlen, List.getElem?_eq_getElem hlen, hℓ]
    have hle : L.levelinfo.length ≤ ℓ := ((h ℓ).mp hbdd).1
    omega
  · intro hvar ℓ
    show (L.levelinfo ++ List.replicate n .bdd)[ℓ]? = some .bdd ↔
      L.levelinfo.length ≤ ℓ ∧ ℓ < L.levelinfo.length + (L.varnum + n)
    by_cases hlen : ℓ < L.levelinfo.length
    · rw [List.getElem?_append_left hlen]
      constructor
      · intro h
        exact absurd hvar (hmem.mp (List.mem_of_getElem? h))
      · intro h
        omega
    · rw [List.getElem?_append_right (by omega), List.getElem?_replicate]
      split
      · simp only [true_iff]
        omega
      · simp only [reduceCtorEq, false_iff]
        omega

/-- Whatever the order of the declarations, each pair of clocks and each Boolean variable has its
level. The levels from `bdd_start_level` on are the Boolean ones just when one call declares
them. -/
theorem declareAll_correct (ds : List Declaration) :
    Numbering ds ∧ ((declareAll ds).BooleansFromStart ↔ OneBatch ds) := by
  refine ⟨numbering ds, ?_⟩
  induction ds using List.reverseRecOn with
  | nil => simp [BooleansFromStart, OneBatch, declareAll, init]
  | append_singleton ds d ih =>
    rw [declareAll_append_singleton, OneBatch, List.pairwise_append, ← OneBatch, ← ih]
    cases d with
    | cddAddClocks n =>
      show (cddAddClocks n _).BooleansFromStart ↔ _
      rw [booleansFromStart_addClocks]
      simp [Declaration.isAddBddvar]
    | cddAddBddvar n =>
      show (cddAddBddvar n _).BooleansFromStart ↔ _
      rw [booleansFromStart_addBddvar (count_bdd_declareAll ds), varnum_declareAll_eq_zero]
      constructor
      · intro h
        refine ⟨?_, by simp, fun d hd e _ ↦ Or.inl (h d hd)⟩
        rw [ih]
        exact List.pairwise_of_forall_mem_list fun d hd e _ ↦ Or.inl (h d hd)
      · rintro ⟨-, -, h⟩ d hd
        exact (h d hd _ (List.mem_singleton_self _)).resolve_right (by simp [Declaration.isAddBddvar])

/-- Two calls for one variable each: the range from `bdd_start_level` misses the first one. -/
theorem declareAll_twoBatches :
    ¬ (Numbering [.cddAddBddvar 1, .cddAddBddvar 1] ∧
      (declareAll [.cddAddBddvar 1, .cddAddBddvar 1]).BooleansFromStart) := by
  rintro ⟨-, h⟩
  have hle : 1 ≤ 0 := ((h 0).mp rfl).1
  omega

end Levels

end UCDD

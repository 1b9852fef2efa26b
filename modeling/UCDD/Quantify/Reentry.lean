import Mathlib.Data.Finset.Card
import UCDD.Quantify.Exist
import UCDD.Quantify.Within

/-!
# Re-entering quantification

`cdd_exist_rec` goes on with a relaxed child, which may test levels above the one just removed, and
even that one again. Here `relax` has an array of its own that tells which clocks are quantified.
Where no two quantified clocks come after a third clock, each re-entry is left with less to remove.
-/

namespace UCDD

open IntervalMap DdNode

/-- The body of `cdd_exist_rec` after a cache miss, where `relax` reads the array `told`. -/
def existNodeTold (L : Library) (C : ExistCall) (told : List ℕ) (rec : ExistRec) (rc : ℕ → Raw) :
    DdNode → ExistCaches → Option (DdNode × ExistCaches)
  | .cdd neg level elem, caches =>
    match L.levelinfo[level]? with
    | some (.cdd i j) =>
      if i ∈ C.clocks ∨ j ∈ C.clocks then
        existRemoved L { C with clocks := told } rec rc neg i j (-INF) elem cddfalse caches
      else existKept L rec rc neg level (-INF) elem cddfalse caches
    | _ => none
  | .bdd neg level low high, caches => do
    let (tmp1, caches) ← rec rc (cddNegCond low neg) caches
    let (tmp2, caches) ← rec rc (cddNegCond high neg) caches
    let res := if level ∈ C.levels then cddOr L tmp1 tmp2 else cddIte L (cddBddvar level) tmp2 tmp1
    return (res, caches)
  | node, caches => some (node, caches)

/-- `cdd_exist_rec`, where `relax` reads the array `told`. -/
def cddExistRecTold (L : Library) (C : ExistCall) (told : List ℕ) : ℕ → ExistRec
  | 0, _, _, _ => none
  | fuel + 1, rc, node, caches =>
    if cddIsterminal node then some (node, caches)
    else match C.existLookup caches node with
      | some res => some (res, caches)
      | none => do
        let (res, caches) ← existNodeTold L C told (cddExistRecTold L C told fuel) rc node caches
        return (res, C.existStore caches node res)

/-- Some depth of the recursion is enough for the call. -/
def ExistEnds (L : Library) (E : OpCaches) (node : DdNode) (levels clocks told : List ℕ) : Prop :=
  ∃ fuel, (cddExistRecTold L (E.call levels clocks) told fuel (fun _ ↦ INF) node
    E.toExistCaches).isSome

/-- The array tells of each clock whether it is quantified. -/
def Library.Tells (L : Library) (clocks told : List ℕ) : Prop :=
  ∀ c < L.clocknum, ∃ t, told[c]? = some t ∧ (t ≠ 0 ↔ c ∈ clocks)

/-! ### What a removal leaves to remove -/

/-- The level tests the difference of the two clocks. -/
def Library.Tests (L : Library) (ℓ x y : ℕ) : Prop :=
  L.levelinfo[ℓ]? = some (.cdd x y) ∨ L.levelinfo[ℓ]? = some (.cdd y x)

/-- A constraint on the difference of clocks `i` and `j` has a consequence on the difference of `x`
and `y` with the level `s`: the two differences share a quantified clock. -/
def Library.Shortens (L : Library) (clocks : List ℕ) (i j s x y : ℕ) : Prop :=
  ∃ q ∈ clocks, (q = i ∧ x = j ∨ q = j ∧ x = i) ∧ L.Tests s q y

/-- The levels of the consequences of a constraint on the difference of clocks `i` and `j` with the
levels in `S`. -/
def Library.Derived (L : Library) (clocks : List ℕ) (i j : ℕ) (S : Set ℕ) : Set ℕ :=
  {ℓ | ∃ s ∈ S, ∃ x y, L.Shortens clocks i j s x y ∧ L.Tests ℓ x y}

/-- The level is removed. -/
def Library.Removes (L : Library) (clocks : List ℕ) (ℓ : ℕ) : Prop :=
  ∃ i j, L.levelinfo[ℓ]? = some (.cdd i j) ∧ (i ∈ clocks ∨ j ∈ clocks)

/-- The level tests two quantified clocks. -/
def Library.Pivot (L : Library) (clocks : List ℕ) (ℓ : ℕ) : Prop :=
  ∃ i j, L.levelinfo[ℓ]? = some (.cdd i j) ∧ i ∈ clocks ∧ j ∈ clocks

/-- No two quantified clocks come after a third clock. -/
def AtMostOneAfter (K : Set ℕ) (clocks : List ℕ) : Prop :=
  ∀ j ∈ K, ∀ c ∈ K, ∀ d ∈ K, j < c → c < d → c ∈ clocks → d ∉ clocks

/-- The levels test clocks in `K` only. -/
def Library.Over (L : Library) (K S : Set ℕ) : Prop :=
  ∀ ℓ ∈ S, ∀ i j, L.levelinfo[ℓ]? = some (.cdd i j) → i ∈ K ∧ j ∈ K

/-- The diagram tests clocks in `K` only. -/
def Library.TestsOnly (L : Library) (K : Set ℕ) (d : DdNode) : Prop :=
  All (fun ℓ ↦ ∀ i j, L.levelinfo[ℓ]? = some (.cdd i j) → i ∈ K ∧ j ∈ K) (fun _ ↦ True) d

open Classical in
/-- The levels to remove that are above every level of two quantified clocks. -/
noncomputable def Library.front (L : Library) (clocks : List ℕ) (S : Finset ℕ) : Finset ℕ :=
  S.filter fun ℓ ↦ L.Removes clocks ℓ ∧ ∀ P ∈ S, L.Pivot clocks P → ℓ < P

open Classical in
/-- How much there is to do on the levels in `S`. -/
noncomputable def Library.rank (L : Library) (clocks : List ℕ) (S : Finset ℕ) : ℕ :=
  ((S.filter (L.Pivot clocks)).card * (L.levelinfo.length + 1) + (L.front clocks S).card) *
    (L.levelinfo.length + 1) + S.card

theorem digits_lt {a a' b b' n : ℕ} (hb : b' ≤ n) (h : a' < a ∨ (a' = a ∧ b' < b)) :
    a' * (n + 1) + b' < a * (n + 1) + b := by
  cases h with
  | inl h =>
    have hle : (a' + 1) * (n + 1) ≤ a * (n + 1) := Nat.mul_le_mul_right _ h
    rw [Nat.succ_mul] at hle
    omega
  | inr h =>
    rw [h.1]
    omega

section

variable {L : Library} {clocks : List ℕ} {K : Set ℕ} {S T : Finset ℕ} {ℓ i j : ℕ}

theorem Library.Tests.level_lt (hL : L.Declared) {ℓ ℓ' x y x' y' : ℕ} (h : L.Tests ℓ x y)
    (h' : L.Tests ℓ' x' y') (hlt : max x y < max x' y' ∨
      (max x y = max x' y' ∧ min x y < min x' y')) : ℓ < ℓ' := by
  have hpair {ℓ x y : ℕ} (h : L.Tests ℓ x y) : L.levelinfo[ℓ]? = some (.cdd (max x y) (min x y)) := by
    cases h with
    | inl h =>
      have hle := (hL.covers.pair_of_level ℓ x y h).1.1
      rw [max_eq_left (le_of_lt hle), min_eq_right (le_of_lt hle), h]
    | inr h =>
      have hle := (hL.covers.pair_of_level ℓ y x h).1.1
      rw [max_eq_right (le_of_lt hle), min_eq_left (le_of_lt hle), h]
  exact hL.level_lt (hpair h) (hpair h') hlt

theorem Library.Tests.ne (hL : L.Declared) {ℓ x y : ℕ} (h : L.Tests ℓ x y) : x ≠ y := by
  cases h with
  | inl h => exact ne_of_gt (hL.covers.pair_of_level ℓ x y h).1.1
  | inr h => exact ne_of_lt (hL.covers.pair_of_level ℓ y x h).1.1

theorem Library.Tests.over {S : Set ℕ} {x y : ℕ} (h : L.Tests ℓ x y) (hS : L.Over K S)
    (hℓ : ℓ ∈ S) : x ∈ K ∧ y ∈ K := by
  cases h with
  | inl h => exact hS ℓ hℓ x y h
  | inr h => exact (hS ℓ hℓ y x h).symm

theorem Library.Tests.pivot {x y : ℕ} (h : L.Tests ℓ x y) (hx : x ∈ clocks) (hy : y ∈ clocks) :
    L.Pivot clocks ℓ := by
  cases h with
  | inl h => exact ⟨x, y, h, hx, hy⟩
  | inr h => exact ⟨y, x, h, hy, hx⟩

theorem Library.Removes.tests (h : L.Removes clocks ℓ) {x y : ℕ} (ht : L.Tests ℓ x y) :
    x ∈ clocks ∨ y ∈ clocks := by
  obtain ⟨i, j, hij, hmem⟩ := h
  cases ht with
  | inl h =>
    rw [hij] at h
    cases h
    exact hmem
  | inr h =>
    rw [hij] at h
    cases h
    exact hmem.symm

/-- A consequence of a removal is on a level with fewer quantified clocks, or behind a level of two
quantified clocks. -/
theorem derived_spec (hL : L.Declared) (hK : AtMostOneAfter K clocks) {S : Set ℕ} (hS : L.Over K S)
    (hij : L.Tests ℓ i j) (hi : i ∈ K) (hj : j ∈ K) (hlt : ∀ s ∈ S, ℓ < s) {ℓ' : ℕ}
    (h : ℓ' ∈ L.Derived clocks i j S) :
    ¬ L.Pivot clocks ℓ' ∧ L.Over K {ℓ'} ∧
      (L.Removes clocks ℓ' → L.Pivot clocks ℓ ∨ ∃ P ∈ S, L.Pivot clocks P ∧ P < ℓ') := by
  obtain ⟨s, hs, x, y, ⟨q, hq, hqx, hsy⟩, hxy⟩ := h
  have hℓ : L.Tests ℓ q x := by
    rcases hqx with ⟨rfl, rfl⟩ | ⟨rfl, rfl⟩
    · exact hij
    · exact hij.symm
  obtain ⟨hqK, hxK⟩ : q ∈ K ∧ x ∈ K := by
    rcases hqx with ⟨rfl, rfl⟩ | ⟨rfl, rfl⟩
    · exact ⟨hi, hj⟩
    · exact ⟨hj, hi⟩
  obtain ⟨-, hyK⟩ := hsy.over hS hs
  have hqx := hℓ.ne hL
  have hqy := hsy.ne hL
  have hne := hxy.ne hL
  have hbefore (j c d : ℕ) (hj : j ∈ K) (hc : c ∈ K) (hd : d ∈ K) (hcq : c ∈ clocks)
      (hdq : d ∈ clocks) (hcd : c ≠ d) : ¬ (j < c ∧ j < d) := by
    rintro ⟨h, h'⟩
    rcases Nat.lt_or_gt_of_ne hcd with hlt | hlt
    · exact hK j hj c hc d hd h hlt hcq hdq
    · exact hK j hj d hd c hc h' hlt hdq hcq
  refine ⟨?_, ?_, ?_⟩
  · -- three quantified clocks
    rintro ⟨a, b, hab, ha, hb⟩
    obtain ⟨hx, hy⟩ : x ∈ clocks ∧ y ∈ clocks := by
      cases hxy with
      | inl h =>
        rw [hab] at h
        cases h
        exact ⟨ha, hb⟩
      | inr h =>
        rw [hab] at h
        cases h
        exact ⟨hb, ha⟩
    have h1 := hbefore q x y hqK hxK hyK hx hy hne
    have h2 := hbefore x q y hxK hqK hyK hq hy hqy
    have h3 := hbefore y q x hyK hqK hxK hq hx hqx
    omega
  · intro m hm a b hab
    obtain rfl : m = ℓ' := hm
    cases hxy with
    | inl h =>
      rw [hab] at h
      cases h
      exact ⟨hxK, hyK⟩
    | inr h =>
      rw [hab] at h
      cases h
      exact ⟨hyK, hxK⟩
  · intro hrem
    cases hrem.tests hxy with
    | inl hx => exact Or.inl (hℓ.pivot hq hx)
    | inr hy =>
      by_cases hx : x ∈ clocks
      · exact Or.inl (hℓ.pivot hq hx)
      · refine Or.inr ⟨s, hs, hsy.pivot hq hy, ?_⟩
        -- the third clock is not before both
        have hthird := hbefore x q y hxK hqK hyK hq hy hqy
        have hbelow := hlt s hs
        have hnot : ¬ (max q y < max q x ∨ (max q y = max q x ∧ min q y < min q x)) :=
          fun h ↦ absurd (hsy.level_lt hL hℓ h) (not_lt.mpr (le_of_lt hbelow))
        apply hsy.level_lt hL hxy
        omega

theorem card_le_length (hS : ∀ s ∈ S, s < L.levelinfo.length) : S.card ≤ L.levelinfo.length := by
  have hsub : S ⊆ Finset.range L.levelinfo.length := fun s hs ↦ Finset.mem_range.mpr (hS s hs)
  have hcard := Finset.card_le_card hsub
  rwa [Finset.card_range] at hcard

theorem mem_front : ℓ ∈ L.front clocks S ↔
    ℓ ∈ S ∧ L.Removes clocks ℓ ∧ ∀ P ∈ S, L.Pivot clocks P → ℓ < P := by
  simp only [Library.front, Finset.mem_filter]

/-- Fewer levels of two quantified clocks, or as many and less in front of them, or as much and
fewer levels. -/
theorem rank_lt (hT : ∀ s ∈ T, s < L.levelinfo.length)
    (hpivot : ∀ P ∈ T, L.Pivot clocks P → P ∈ S)
    (hrest : (∀ P, L.Pivot clocks P → (P ∈ T ↔ P ∈ S)) →
      (L.front clocks T).card < (L.front clocks S).card ∨
        ((L.front clocks T).card = (L.front clocks S).card ∧ T.card < S.card)) :
    L.rank clocks T < L.rank clocks S := by
  classical
  have hfront : (L.front clocks T).card ≤ L.levelinfo.length :=
    card_le_length fun ℓ h ↦ hT ℓ (mem_front.mp h).1
  have hsub : T.filter (L.Pivot clocks) ⊆ S.filter (L.Pivot clocks) := by
    intro P hP
    rw [Finset.mem_filter] at hP ⊢
    exact ⟨hpivot P hP.1 hP.2, hP.2⟩
  unfold Library.rank
  apply digits_lt (card_le_length hT)
  rcases Nat.lt_or_ge (T.filter (L.Pivot clocks)).card (S.filter (L.Pivot clocks)).card
    with hlt | hge
  · exact Or.inl (digits_lt hfront (Or.inl hlt))
  · have heq := Finset.eq_of_subset_of_card_le hsub hge
    have hsame (P : ℕ) (hP : L.Pivot clocks P) : P ∈ T ↔ P ∈ S := by
      have hiff : P ∈ T.filter (L.Pivot clocks) ↔ P ∈ S.filter (L.Pivot clocks) := by rw [heq]
      rw [Finset.mem_filter, Finset.mem_filter] at hiff
      exact ⟨fun h ↦ (hiff.mp ⟨h, hP⟩).1, fun h ↦ (hiff.mpr ⟨h, hP⟩).1⟩
    rcases hrest hsame with hlt | ⟨hfr, hcard⟩
    · exact Or.inl (digits_lt hfront (Or.inr ⟨by rw [heq], hlt⟩))
    · rw [heq, hfr]
      exact Or.inr ⟨rfl, hcard⟩

/-- Going on below a level. -/
theorem rank_below (hS : ∀ s ∈ S, s < L.levelinfo.length) (hℓ : ℓ ∈ S)
    (hT : ∀ s ∈ T, s ∈ S ∧ ℓ < s) : L.rank clocks T < L.rank clocks S := by
  apply rank_lt fun s hs ↦ hS s (hT s hs).1
  · exact fun P hP _ ↦ (hT P hP).1
  · intro hsame
    have hfront : L.front clocks T ⊆ L.front clocks S := by
      intro m hm
      obtain ⟨hmem, hrem, hall⟩ := mem_front.mp hm
      exact mem_front.mpr ⟨(hT m hmem).1, hrem, fun P hP hpiv ↦ hall P ((hsame P hpiv).mpr hP) hpiv⟩
    have hcard : T.card < S.card := by
      apply Finset.card_lt_card
      refine ⟨fun s hs ↦ (hT s hs).1, fun hsub ↦ ?_⟩
      exact lt_irrefl ℓ (hT ℓ (hsub hℓ)).2
    have := Finset.card_le_card hfront
    omega

/-- Going on after the removal of a level. -/
theorem rank_removed (hL : L.Declared) (hK : AtMostOneAfter K clocks) (hover : L.Over K S)
    (hℓ : ℓ ∈ S) (hij : L.levelinfo[ℓ]? = some (.cdd i j)) (hrem : i ∈ clocks ∨ j ∈ clocks) (hlen : ∀ s ∈ T, s < L.levelinfo.length)
    (hT : ∀ s ∈ T, (s ∈ S ∧ ℓ < s) ∨ s ∈ L.Derived clocks i j {s | s ∈ S ∧ ℓ < s}) :
    L.rank clocks T < L.rank clocks S := by
  obtain ⟨hi, hj⟩ := hover ℓ hℓ i j hij
  have hover' : L.Over K {s | s ∈ S ∧ ℓ < s} := fun s hs ↦ hover s hs.1
  have hderived {s : ℕ} (hs : s ∈ L.Derived clocks i j {s | s ∈ S ∧ ℓ < s}) :=
    derived_spec hL hK hover' (Or.inl hij) hi hj (fun s h ↦ h.2) hs
  have hpivot (P : ℕ) (hP : P ∈ T) (hpiv : L.Pivot clocks P) : P ∈ S ∧ ℓ < P := by
    cases hT P hP with
    | inl h => exact h
    | inr h => exact absurd hpiv (hderived h).1
  apply rank_lt hlen fun P hP hpiv ↦ (hpivot P hP hpiv).1
  intro hsame
  left
  have hbelow (P : ℕ) (hP : P ∈ S) (hpiv : L.Pivot clocks P) : ℓ < P :=
    (hpivot P ((hsame P hpiv).mpr hP) hpiv).2
  apply Finset.card_lt_card
  rw [Finset.ssubset_iff_of_subset]
  · refine ⟨ℓ, mem_front.mpr ⟨hℓ, ⟨i, j, hij, hrem⟩, hbelow⟩, fun h ↦ ?_⟩
    cases hT ℓ (mem_front.mp h).1 with
    | inl h => exact lt_irrefl ℓ h.2
    | inr h =>
      rcases (hderived h).2.2 ⟨i, j, hij, hrem⟩ with hpiv | ⟨P, hP, -, hlt⟩
      · exact (hderived h).1 hpiv
      · exact lt_irrefl ℓ (lt_trans hP.2 hlt)
  · intro m hm
    obtain ⟨hmem, hmrem, hall⟩ := mem_front.mp hm
    cases hT m hmem with
    | inl h =>
      exact mem_front.mpr ⟨h.1, hmrem, fun P hP hpiv ↦ hall P ((hsame P hpiv).mpr hP) hpiv⟩
    | inr h =>
      rcases (hderived h).2.2 hmrem with hpiv | ⟨P, hP, hpiv, hlt⟩
      · exact absurd (hbelow ℓ hℓ hpiv) (lt_irrefl ℓ)
      · exact absurd (hall P ((hsame P hpiv).mpr hP.1) hpiv) (not_lt.mpr (le_of_lt hlt))

/-! ### Relaxing -/

variable {U : Set ℕ} {C : ExistCall} {told : List ℕ} {R : Removed}

/-- An interval on the difference of two clocks in either order. -/
theorem within_cddInterval (hL : L.Declared) (hlen : L.levelinfo.length ≤ maxLevel)
    (hi : i < L.clocknum) (hj : j < L.clocknum) (hij : i ≠ j)
    (hU : ∀ ℓ, L.Tests ℓ i j → ℓ ∈ U) (low high : Raw) :
    L.Within U (cddInterval L i j low high) := by
  have hlevel {a b : ℕ} (hba : b < a) (ha : a < L.clocknum) :
      L.levelinfo[L.diff2level (cddDifference a b)]? = some (.cdd a b) ∧
        L.diff2level (cddDifference a b) < maxLevel := by
    have hab := hL.covers.level_of_pair a b ⟨hba, ha⟩
    exact ⟨hab, lt_of_lt_of_le (List.getElem?_eq_some_iff.mp hab).1 hlen⟩
  unfold cddInterval
  split
  · next hgt =>
    obtain ⟨hk, hlt⟩ := hlevel hgt hi
    exact within_cddIntervalFromLevel (hU _ (Or.inl hk)) hlt ⟨i, j, hk⟩ _ _
  · obtain ⟨hk, hlt⟩ := hlevel (lt_of_le_of_ne (by omega) hij) hj
    exact within_cddIntervalFromLevel (hU _ (Or.inr hk)) hlt ⟨j, i, hk⟩ _ _

theorem readClocks_told (h : L.Tells clocks told) {c : ℕ} (hc : c < L.clocknum) (shared : Bool) :
    readClocks told shared c = some (decide (shared = true ∧ c ∈ clocks)) := by
  obtain ⟨t, ht, hiff⟩ := h c hc
  cases shared with
  | false => simp [readClocks]
  | true => simp [readClocks, ht, ← hiff]

/-- `relax` adds consequences only. -/
theorem relaxConsequence_told (h : L.Tells clocks told) {s : ℕ}
    (hs : L.levelinfo[s]? = some (.cdd i j)) (h1 : R.clock1 < L.clocknum)
    (h2 : R.clock2 < L.clocknum) (low bnd : Raw) :
    ∃ c, relaxConsequence told R i j low bnd = some c ∧ ∀ p ∈ c,
      L.Shortens clocks R.clock1 R.clock2 s p.1 p.2.1 ∨
        L.Shortens clocks R.clock1 R.clock2 s p.2.1 p.1 := by
  unfold relaxConsequence
  simp only [readClocks_told h h1, readClocks_told h h2, Option.bind_eq_bind, Option.bind_some,
    decide_eq_true_eq]
  split_ifs with hi1 hi2 hj1 hj2
  · refine ⟨_, rfl, ?_⟩
    rintro p ⟨⟩
    exact Or.inr ⟨R.clock1, hi1.2, Or.inl ⟨rfl, rfl⟩, Or.inl (hi1.1 ▸ hs)⟩
  · refine ⟨_, rfl, ?_⟩
    rintro p ⟨⟩
    exact Or.inl ⟨R.clock2, hi2.2, Or.inr ⟨rfl, rfl⟩, Or.inl (hi2.1 ▸ hs)⟩
  · refine ⟨_, rfl, ?_⟩
    rintro p ⟨⟩
    exact Or.inr ⟨R.clock1, hj1.2, Or.inl ⟨rfl, rfl⟩, Or.inr (hj1.1 ▸ hs)⟩
  · refine ⟨_, rfl, ?_⟩
    rintro p ⟨⟩
    exact Or.inr ⟨R.clock2, hj2.2, Or.inr ⟨rfl, rfl⟩, Or.inr (hj2.1 ▸ hs)⟩
  · exact ⟨none, rfl, nofun⟩

/-- The levels that relaxing a constraint leaves. -/
def Library.Relaxed (L : Library) (clocks : List ℕ) (i j : ℕ) (S : Set ℕ) : Set ℕ :=
  S ∪ L.Derived clocks i j S

theorem relaxed_mono {V : Set ℕ} (h : U ⊆ V) :
    L.Relaxed clocks i j U ⊆ L.Relaxed clocks i j V := by
  apply Set.union_subset_union h
  rintro ℓ ⟨s, hs, hℓ⟩
  exact ⟨s, h hs, hℓ⟩

/-- No level in the set tests the difference of the two clocks. -/
def Library.Untested (L : Library) (i j : ℕ) (U : Set ℕ) : Prop := ∀ ℓ ∈ U, ¬ L.Tests ℓ i j

theorem Library.Untested.mono {V : Set ℕ} (hV : L.Untested i j V) (h : U ⊆ V) : L.Untested i j U :=
  fun ℓ hℓ ↦ hV ℓ (h hℓ)

/-- The two clocks of a consequence. -/
theorem Library.Shortens.lt_clocknum (hL : L.Declared) {s x y : ℕ} (hi : i < L.clocknum)
    (hj : j < L.clocknum) (hs : ¬ L.Tests s i j) (h : L.Shortens clocks i j s x y) :
    x < L.clocknum ∧ y < L.clocknum ∧ x ≠ y := by
  obtain ⟨q, -, hqx, hsy⟩ := h
  have hy : y < L.clocknum := by
    cases hsy with
    | inl h =>
      have := (hL.covers.pair_of_level s q y h).1
      omega
    | inr h => exact (hL.covers.pair_of_level s y q h).1.2
  rcases hqx with ⟨rfl, rfl⟩ | ⟨rfl, rfl⟩
  · refine ⟨hj, hy, ?_⟩
    rintro rfl
    exact hs hsy
  · refine ⟨hi, hy, ?_⟩
    rintro rfl
    exact hs hsy.symm

theorem within_relaxAdd (hL : L.Declared) (hlen : L.levelinfo.length ≤ maxLevel) {s : ℕ}
    (hs : s ∈ U) (hU : L.Untested i j U) (hi : i < L.clocknum) (hj : j < L.clocknum)
    (rc : ℕ → Raw) {tmp2 : DdNode} (htmp : L.Within (L.Relaxed clocks i j U) tmp2)
    {c : Option (ℕ × ℕ × Raw × Raw)} (hc : ∀ p ∈ c, L.Shortens clocks i j s p.1 p.2.1 ∨
      L.Shortens clocks i j s p.2.1 p.1) :
    L.Within (L.Relaxed clocks i j U) (relaxAdd L rc tmp2 c) := by
  cases c with
  | none => exact htmp
  | some p =>
    obtain ⟨pos, neg, l, u⟩ := p
    rw [relaxAdd]
    split
    · apply within_cddAnd htmp
      cases hc _ rfl with
      | inl h =>
        obtain ⟨hpos, hneg, hne⟩ := h.lt_clocknum hL hi hj (hU s hs)
        exact within_cddInterval hL hlen hpos hneg hne
          (fun ℓ hℓ ↦ Or.inr ⟨s, hs, pos, neg, h, hℓ⟩) _ _
      | inr h =>
        obtain ⟨hneg, hpos, hne⟩ := h.lt_clocknum hL hi hj (hU s hs)
        exact within_cddInterval hL hlen hpos hneg hne.symm
          (fun ℓ hℓ ↦ Or.inr ⟨s, hs, neg, pos, h, hℓ.symm⟩) _ _
    · exact htmp

/-- The entries of the running operation in the relax cache test levels that relaxing leaves. -/
def ExistCall.RelaxWithin (C : ExistCall) (L : Library) (clocks : List ℕ) (caches : ExistCaches) :
    Prop :=
  ∀ s entry, caches.relaxcache s = some entry → entry.op = C.opid → ∀ U : Set ℕ,
    L.Within U entry.node → L.Untested entry.clock1 entry.clock2 U →
    L.Within (L.Relaxed clocks entry.clock1 entry.clock2 U) entry.res

theorem relaxLookup_within {caches : ExistCaches} (h : C.RelaxWithin L clocks caches)
    {node res : DdNode} (hl : C.relaxLookup caches node R = some res) (hnode : L.Within U node)
    (hU : L.Untested R.clock1 R.clock2 U) :
    L.Within (L.Relaxed clocks R.clock1 R.clock2 U) res := by
  unfold ExistCall.relaxLookup at hl
  split at hl
  · next entry hentry =>
    split at hl
    · next hkey =>
      cases hl
      obtain ⟨hn, -, -, h1, h2, hop⟩ := hkey
      have hres := h _ entry hentry hop U
      rw [hn, h1, h2] at hres
      exact hres hnode hU
    · cases hl
  · cases hl

theorem relaxStore_within {caches : ExistCaches} (h : C.RelaxWithin L clocks caches)
    {node res : DdNode} (hres : ∀ U : Set ℕ, L.Within U node → L.Untested R.clock1 R.clock2 U →
      L.Within (L.Relaxed clocks R.clock1 R.clock2 U) res) :
    C.RelaxWithin L clocks (C.relaxStore caches node R res) := by
  intro s entry hs hop
  unfold ExistCall.relaxStore at hs
  simp only [Function.update_apply] at hs
  split at hs
  · cases hs
    exact hres
  · exact h s entry hs hop

/-- `relax` returns and leaves the levels of the diagram and of the consequences. -/
def RelaxEnds (L : Library) (C : ExistCall) (clocks : List ℕ) (R : Removed) (mask : Bool)
    (d : DdNode) : Prop :=
  ∀ caches, C.RelaxWithin L clocks caches → ∃ r caches', relax L C R mask d caches =
    some (r, caches') ∧ C.RelaxWithin L clocks caches' ∧ ∀ U : Set ℕ, L.Within U d →
      L.Untested R.clock1 R.clock2 U → L.Within (L.Relaxed clocks R.clock1 R.clock2 U) r

private theorem relaxElem_within (hL : L.Declared) (hlen : L.levelinfo.length ≤ maxLevel)
    (htells : L.Tells clocks C.clocks) (h1 : R.clock1 < L.clocknum) (h2 : R.clock2 < L.clocknum)
    {mask : Bool} {level : ℕ} (hk : L.levelinfo[level]? = some (.cdd i j)) (low : Raw)
    {es : List (DdNode × Raw)} (hes : ∀ e ∈ es, RelaxEnds L C clocks R mask e.1) (res : DdNode)
    {caches : ExistCaches} (hc : C.RelaxWithin L clocks caches) :
    ∃ r caches', relaxElem L C R mask level i j low es res caches = some (r, caches') ∧
      C.RelaxWithin L clocks caches' ∧ ∀ U : Set ℕ, level ∈ U →
        (∀ e ∈ es, L.Within {ℓ ∈ U | level < ℓ} e.1) → L.Untested R.clock1 R.clock2 U →
        L.Within (L.Relaxed clocks R.clock1 R.clock2 U) res →
        L.Within (L.Relaxed clocks R.clock1 R.clock2 U) r := by
  induction es generalizing low res caches with
  | nil => exact ⟨res, caches, rfl, hc, fun U _ _ _ hres ↦ hres⟩
  | cons e es ih =>
    obtain ⟨child, bnd⟩ := e
    obtain ⟨c, hcons, hshort⟩ := relaxConsequence_told (R := R) htells hk h1 h2 low bnd
    obtain ⟨tmp2, caches₁, hrelax, hc₁, hw₁⟩ := hes (child, bnd) List.mem_cons_self caches hc
    have hlt : level < maxLevel := lt_of_lt_of_le (List.getElem?_eq_some_iff.mp hk).1 hlen
    obtain ⟨r, caches₂, hr, hc₂, hw₂⟩ := ih bnd (fun e he ↦ hes e (List.mem_cons_of_mem _ he))
      (cddOr L res (cddAnd L (relaxAdd L R.rc tmp2 c) (cddIntervalFromLevel level low bnd))) hc₁
    refine ⟨r, caches₂, ?_, hc₂, ?_⟩
    · simp only [relaxElem, hcons, hrelax, Option.bind_eq_bind, Option.bind_some, hr]
    · intro U hlevel hU hunt hres
      apply hw₂ U hlevel (fun e he ↦ hU e (List.mem_cons_of_mem _ he)) hunt
      have hsub : {ℓ ∈ U | level < ℓ} ⊆ U := fun ℓ h ↦ h.1
      have htmp := (hw₁ _ (hU (child, bnd) List.mem_cons_self) (hunt.mono hsub)).mono
        (relaxed_mono hsub)
      apply within_cddOr hres
      apply within_cddAnd (within_relaxAdd hL hlen hlevel hunt h1 h2 R.rc htmp hshort)
      exact within_cddIntervalFromLevel (Or.inl hlevel) hlt ⟨i, j, hk⟩ low bnd

/-- Relaxing a constraint into a diagram whose levels are declared. -/
theorem relax_within (hL : L.Declared) (hlen : L.levelinfo.length ≤ maxLevel)
    (htells : L.Tells clocks C.clocks) (h1 : R.clock1 < L.clocknum) (h2 : R.clock2 < L.clocknum)
    {d : DdNode} (hd : L.Within U d) (mask : Bool) : RelaxEnds L C clocks R mask d := by
  induction hd generalizing mask with
  | terminal neg => exact fun caches hc ↦ ⟨_, caches, rfl, hc, fun U _ _ ↦ .terminal _⟩
  | xterm neg id => exact fun caches hc ↦ ⟨_, caches, rfl, hc, fun U _ _ ↦ .xterm _ _⟩
  | @bdd _ neg level low high hmem hlt hk _ _ ihl ihh =>
    intro caches hc
    have hnode {U : Set ℕ} (h : L.Within U (.bdd neg level low high)) :
        L.Within U (.bdd (neg ^^ mask) level low high) := h.negCond mask
    rw [relax]
    cases hlook : C.relaxLookup caches (.bdd (neg ^^ mask) level low high) R with
    | some res =>
      exact ⟨res, caches, rfl, hc, fun U hU hunt ↦ relaxLookup_within hc hlook (hnode hU) hunt⟩
    | none =>
      obtain ⟨tmp1, caches₁, h₁, hc₁, hw₁⟩ := ihl (neg ^^ mask) caches hc
      obtain ⟨tmp2, caches₂, h₂, hc₂, hw₂⟩ := ihh (neg ^^ mask) caches₁ hc₁
      have hres {U : Set ℕ} {neg : Bool} (hU : L.Within U (.bdd neg level low high))
          (hunt : L.Untested R.clock1 R.clock2 U) :
          L.Within (L.Relaxed clocks R.clock1 R.clock2 U) (cddIte L (cddBddvar level) tmp2 tmp1) := by
        cases hU with
        | bdd _ hmem hlt hk hl hh =>
          have hsub : {ℓ ∈ U | level < ℓ} ⊆ U := fun ℓ h ↦ h.1
          apply within_cddIte (within_cddBddvar (Or.inl hmem) hlt hk)
          · exact (hw₂ _ hh (hunt.mono hsub)).mono (relaxed_mono hsub)
          · exact (hw₁ _ hl (hunt.mono hsub)).mono (relaxed_mono hsub)
      refine ⟨_, C.relaxStore caches₂ (.bdd (neg ^^ mask) level low high) R
        (cddIte L (cddBddvar level) tmp2 tmp1), ?_, relaxStore_within hc₂ fun U ↦ hres,
        fun U ↦ hres⟩
      simp only [h₁, h₂, Option.bind_eq_bind, Option.bind_some, Option.pure_def]
  | @cdd _ neg level elem hmem hlt hk hend _ ih =>
    intro caches hc
    have hnode {U : Set ℕ} (h : L.Within U (.cdd neg level elem)) :
        L.Within U (.cdd (neg ^^ mask) level elem) := h.negCond mask
    rw [relax]
    cases hlook : C.relaxLookup caches (.cdd (neg ^^ mask) level elem) R with
    | some res =>
      exact ⟨res, caches, rfl, hc, fun U hU hunt ↦ relaxLookup_within hc hlook (hnode hU) hunt⟩
    | none =>
      obtain ⟨i, j, hij⟩ := hk
      obtain ⟨r, caches₁, h₁, hc₁, hw₁⟩ := relaxElem_within (R := R) hL hlen htells h1 h2 hij (-INF)
        (fun e he ↦ ih e he (neg ^^ mask)) cddfalse hc
      have hres {U : Set ℕ} {neg : Bool} (hU : L.Within U (.cdd neg level elem))
          (hunt : L.Untested R.clock1 R.clock2 U) :
          L.Within (L.Relaxed clocks R.clock1 R.clock2 U) r := by
        cases hU with
        | cdd _ hmem _ _ _ he => exact hw₁ U hmem he hunt (.terminal false)
      refine ⟨r, C.relaxStore caches₁ (.cdd (neg ^^ mask) level elem) R r, ?_,
        relaxStore_within hc₁ fun U ↦ hres, fun U ↦ hres⟩
      simp only [hij, h₁, Option.bind_eq_bind, Option.bind_some, Option.pure_def]

/-! ### The recursion -/

/-- The recursive call returns for the diagrams on the levels. -/
def ExistRec.EndsOn (rec : ExistRec) (L : Library) (C : ExistCall) (clocks : List ℕ) (U : Set ℕ) :
    Prop :=
  ∀ rc d caches, L.Within U d → C.RelaxWithin L clocks caches →
    ∃ r caches', rec rc d caches = some (r, caches') ∧ C.RelaxWithin L clocks caches'

private theorem existRemoved_ends (hL : L.Declared) (hlen : L.levelinfo.length ≤ maxLevel)
    (htells : L.Tells clocks C.clocks) (hi : i < L.clocknum) (hj : j < L.clocknum)
    (hU : L.Untested i j U) {rec : ExistRec}
    (hrec : rec.EndsOn L C clocks (L.Relaxed clocks i j U)) (rc : ℕ → Raw) {mask : Bool}
    (low : Raw) {es : List (DdNode × Raw)} (hes : ∀ e ∈ es, L.Within U e.1) (res : DdNode)
    {caches : ExistCaches} (hc : C.RelaxWithin L clocks caches) :
    ∃ r caches', existRemoved L C rec rc mask i j low es res caches = some (r, caches') ∧
      C.RelaxWithin L clocks caches' := by
  induction es generalizing low res caches with
  | nil => exact ⟨res, caches, rfl, hc⟩
  | cons e es ih =>
    obtain ⟨child, bnd⟩ := e
    let rc' := Function.update (Function.update rc (j * L.clocknum + i) (bndL2u low))
      (i * L.clocknum + j) bnd
    have hchild := hes (child, bnd) List.mem_cons_self
    obtain ⟨tmp1, caches₁, h₁, hc₁, hw₁⟩ := relax_within (R := ⟨low, i, j, bnd, rc'⟩) hL hlen
      htells hi hj hchild mask caches hc
    obtain ⟨tmp2, caches₂, h₂, hc₂⟩ := hrec rc' tmp1 caches₁ (hw₁ U hchild hU) hc₁
    obtain ⟨r, caches₃, h₃, hc₃⟩ := ih bnd (fun e he ↦ hes e (List.mem_cons_of_mem _ he))
      (cddOr L res tmp2) hc₂
    refine ⟨r, caches₃, ?_, hc₃⟩
    rw [existRemoved]
    simp only [Option.bind_eq_bind]
    rw [h₁, Option.bind_some, h₂, Option.bind_some, h₃]

private theorem existKept_ends {rec : ExistRec} (hrec : rec.EndsOn L C clocks U) (rc : ℕ → Raw)
    {mask : Bool} {level : ℕ} (low : Raw) {es : List (DdNode × Raw)}
    (hes : ∀ e ∈ es, L.Within U e.1) (res : DdNode) {caches : ExistCaches}
    (hc : C.RelaxWithin L clocks caches) :
    ∃ r caches', existKept L rec rc mask level low es res caches = some (r, caches') ∧
      C.RelaxWithin L clocks caches' := by
  induction es generalizing low res caches with
  | nil => exact ⟨res, caches, rfl, hc⟩
  | cons e es ih =>
    obtain ⟨child, bnd⟩ := e
    obtain ⟨tmp2, caches₁, h₁, hc₁⟩ := hrec rc (cddNegCond child mask) caches
      ((hes (child, bnd) List.mem_cons_self).negCond mask) hc
    obtain ⟨r, caches₂, h₂, hc₂⟩ := ih bnd (fun e he ↦ hes e (List.mem_cons_of_mem _ he))
      (cddOr L res (cddAnd L (cddIntervalFromLevel level low bnd) tmp2)) hc₁
    refine ⟨r, caches₂, ?_, hc₂⟩
    rw [existKept]
    simp only [Option.bind_eq_bind]
    rw [h₁, Option.bind_some, h₂]

theorem level_lt_of_derived {ℓ : ℕ} (h : ℓ ∈ L.Derived clocks i j U) :
    ℓ < L.levelinfo.length := by
  obtain ⟨s, -, x, y, -, hℓ⟩ := h
  cases hℓ with
  | inl h => exact (List.getElem?_eq_some_iff.mp h).1
  | inr h => exact (List.getElem?_eq_some_iff.mp h).1

/-- A level tests one pair of clocks, which no other level does. -/
theorem untested_above (hL : L.Declared) (hij : L.levelinfo[ℓ]? = some (.cdd i j)) :
    L.Untested i j {s ∈ U | ℓ < s} := by
  rintro s ⟨-, hlt⟩ htests
  have hℓ := hL.covers.pair_of_level ℓ i j hij
  cases htests with
  | inl h =>
    have := (hL.covers.pair_of_level s i j h).2
    omega
  | inr h =>
    have := (hL.covers.pair_of_level s j i h).1.1
    omega

/-- A call returns if the recursive calls return on the levels below its node, and on those that a
removal leaves. -/
private theorem existNodeTold_ends (hL : L.Declared) (hlen : L.levelinfo.length ≤ maxLevel)
    (htells : L.Tells clocks told) (hC : C.clocks = clocks) {rec : ExistRec}
    (hbelow : ∀ ℓ ∈ U, rec.EndsOn L C clocks {s ∈ U | ℓ < s})
    (hremoved : ∀ ℓ ∈ U, ∀ i j, L.levelinfo[ℓ]? = some (.cdd i j) → i ∈ clocks ∨ j ∈ clocks →
      rec.EndsOn L C clocks (L.Relaxed clocks i j {s ∈ U | ℓ < s})) (rc : ℕ → Raw) {d : DdNode}
    (hd : L.Within U d) {caches : ExistCaches} (hc : C.RelaxWithin L clocks caches) :
    ∃ r caches', existNodeTold L C told rec rc d caches = some (r, caches') ∧
      C.RelaxWithin L clocks caches' := by
  cases hd with
  | terminal | xterm => exact ⟨_, caches, rfl, hc⟩
  | @bdd _ neg level low high hmem hlt hk hl hh =>
    obtain ⟨tmp1, caches₁, h₁, hc₁⟩ := hbelow level hmem rc _ caches (hl.negCond neg) hc
    obtain ⟨tmp2, caches₂, h₂, hc₂⟩ := hbelow level hmem rc _ caches₁ (hh.negCond neg) hc₁
    refine ⟨if level ∈ C.levels then cddOr L tmp1 tmp2
      else cddIte L (cddBddvar level) tmp2 tmp1, caches₂, ?_, hc₂⟩
    simp only [existNodeTold, h₁, h₂, Option.bind_eq_bind, Option.bind_some, Option.pure_def]
  | @cdd _ neg level elem hmem hlt hk hend he =>
    obtain ⟨i, j, hij⟩ := hk
    simp only [existNodeTold, hij]
    have hpair := (hL.covers.pair_of_level level i j hij).1
    split
    · next hquant =>
      exact existRemoved_ends (C := { C with clocks := told }) hL hlen htells hpair.2
        (lt_trans hpair.1 hpair.2) (untested_above hL hij)
        (hremoved level hmem i j hij (hC ▸ hquant)) rc (-INF) he cddfalse hc
    · exact existKept_ends (hbelow level hmem) rc (-INF) he cddfalse hc

/-- With fuel above the rank of its levels the recursion returns. -/
theorem cddExistRecTold_endsOn (hL : L.Declared) (hlen : L.levelinfo.length ≤ maxLevel)
    (htells : L.Tells clocks told) (hC : C.clocks = clocks) (hK : AtMostOneAfter K clocks)
    {fuel : ℕ} (hover : L.Over K S) (hS : ∀ s ∈ S, s < L.levelinfo.length)
    (hfuel : L.rank clocks S < fuel) :
    (cddExistRecTold L C told fuel).EndsOn L C clocks S := by
  classical
  induction fuel generalizing S with
  | zero => exact absurd hfuel (Nat.not_lt_zero _)
  | succ fuel ih =>
    -- a set of levels of lower rank is a finite set that the hypothesis is about
    have hless {V : Set ℕ} (hV : ∀ s ∈ V, s < L.levelinfo.length) (hover : L.Over K V)
        (hrank : ∀ T : Finset ℕ, (∀ s, s ∈ T ↔ s ∈ V) → L.rank clocks T < L.rank clocks S) :
        (cddExistRecTold L C told fuel).EndsOn L C clocks V := by
      have hmem (s : ℕ) : s ∈ (Finset.range L.levelinfo.length).filter (· ∈ V) ↔ s ∈ V := by
        rw [Finset.mem_filter, Finset.mem_range]
        exact and_iff_right_of_imp (hV s)
      have hcoe : ((Finset.range L.levelinfo.length).filter (· ∈ V) : Set ℕ) = V := by
        ext s
        exact hmem s
      have hends := ih (S := (Finset.range L.levelinfo.length).filter (· ∈ V)) (by rwa [hcoe])
        (fun s hs ↦ hV s ((hmem s).mp hs)) (lt_of_lt_of_le (hrank _ hmem) (Nat.lt_succ_iff.mp hfuel))
      rwa [hcoe] at hends
    intro rc d caches hd hc
    rw [cddExistRecTold]
    split
    · exact ⟨d, caches, rfl, hc⟩
    · cases hlook : C.existLookup caches d with
      | some res => exact ⟨res, caches, rfl, hc⟩
      | none =>
        have hbelow : ∀ ℓ ∈ (S : Set ℕ), (cddExistRecTold L C told fuel).EndsOn L C clocks
            {s ∈ (S : Set ℕ) | ℓ < s} := by
          intro ℓ hℓ
          apply hless fun s hs ↦ hS s hs.1
          · exact fun s hs ↦ hover s hs.1
          · exact fun T hT ↦ rank_below hS hℓ fun s hs ↦ (hT s).mp hs
        have hremoved : ∀ ℓ ∈ (S : Set ℕ), ∀ i j, L.levelinfo[ℓ]? = some (.cdd i j) →
            i ∈ clocks ∨ j ∈ clocks → (cddExistRecTold L C told fuel).EndsOn L C clocks
              (L.Relaxed clocks i j {s ∈ (S : Set ℕ) | ℓ < s}) := by
          intro ℓ hℓ i j hij hquant
          have hrel {s : ℕ} (hs : s ∈ L.Relaxed clocks i j {s ∈ (S : Set ℕ) | ℓ < s}) :
              s < L.levelinfo.length := by
            cases hs with
            | inl h => exact hS s h.1
            | inr h => exact level_lt_of_derived h
          apply hless fun s hs ↦ hrel hs
          · intro s hs
            cases hs with
            | inl h => exact hover s h.1
            | inr h =>
              obtain ⟨hi, hj⟩ := hover ℓ hℓ i j hij
              exact (derived_spec hL hK (fun s h ↦ hover s h.1) (Or.inl hij) hi hj
                (fun s h ↦ h.2) h).2.1 s rfl
          · exact fun T hT ↦ rank_removed hL hK hover hℓ hij hquant
              (fun s hs ↦ hrel ((hT s).mp hs)) fun s hs ↦ (hT s).mp hs
        obtain ⟨r, caches', h, hc'⟩ := existNodeTold_ends hL hlen htells hC hbelow hremoved rc hd hc
        refine ⟨r, C.existStore caches' d r, ?_, hc'⟩
        simp only [h, Option.bind_eq_bind, Option.bind_some, Option.pure_def]

/-- Quantification ends where no two quantified clocks come after a third clock. -/
theorem existEnds_of_atMostOneAfter (hL : L.Declared) (hlen : L.levelinfo.length ≤ maxLevel)
    (htells : L.Tells clocks told) (hK : AtMostOneAfter K clocks) (E : OpCaches)
    (levels : List ℕ) {f : DdNode} (hf : L.WF f) (hover : L.TestsOnly K f) :
    ExistEnds L E f levels clocks told := by
  classical
  let S : Finset ℕ := (Finset.range L.levelinfo.length).filter fun ℓ ↦
    ∀ i j, L.levelinfo[ℓ]? = some (.cdd i j) → i ∈ K ∧ j ∈ K
  have hS : (S : Set ℕ) = {ℓ | (∀ i j, L.levelinfo[ℓ]? = some (.cdd i j) → i ∈ K ∧ j ∈ K) ∧
      ℓ < L.levelinfo.length} := by
    ext ℓ
    simp only [S, Finset.coe_filter, Finset.mem_range, Set.mem_ofPred_eq, and_comm]
  have hmem (ℓ : ℕ) (h : ℓ ∈ S) := Finset.mem_filter.mp h
  have hends := cddExistRecTold_endsOn (C := E.call levels clocks) (S := S) hL hlen htells rfl hK
    (fun ℓ h ↦ (hmem ℓ h).2) (fun ℓ h ↦ Finset.mem_range.mp (hmem ℓ h).1) (Nat.lt_succ_self _)
  have hcaches : (E.call levels clocks).RelaxWithin L clocks E.toExistCaches := by
    intro s entry hs hop
    have hle := E.relax_op s entry hs
    have hcall : entry.op = E.opid + 1 := hop
    omega
  obtain ⟨r, caches', h, -⟩ := hends (fun _ ↦ INF) f E.toExistCaches
    (by rw [hS]; exact within_of_wf hf hover) hcaches
  exact ⟨_, Option.isSome_iff_exists.mpr ⟨_, h⟩⟩

end

end UCDD

import Mathlib.Tactic.IntervalCases
import UCDD.Quantify.Correct
import UCDD.Quantify.Reentry

/-!
# Quantification that does not end

Two quantified clocks `c` and `d` that come after a third clock `j`. A diagram that splits on
`d - c` turns a lower bound on `c - j` into one on `d - j` that is larger by one, and that bound into
the same one on `c - j`. `removed_constraint` keeps the bounds that a round before left, so `relax`
takes each bound for a tighter one.
-/

namespace UCDD

open IntervalMap DdNode

/-- Two quantified clocks after a third clock. -/
structure Triangle (L : Library) (clocks told : List ℕ) where
  declared : L.Declared
  fits : L.levelinfo.length ≤ maxLevel
  tells : L.Tells clocks told
  j : ℕ
  c : ℕ
  d : ℕ
  j_lt : j < c
  c_lt : c < d
  d_lt : d < L.clocknum
  c_mem : c ∈ clocks
  d_mem : d ∈ clocks

namespace Triangle

variable {L : Library} {clocks told : List ℕ}

/-! ### The diagrams -/

/-- The level of `c - j`. -/
def levelA (T : Triangle L clocks told) : ℕ := L.diff2level (cddDifference T.c T.j)

/-- The level of `d - j`. -/
def levelB (T : Triangle L clocks told) : ℕ := L.diff2level (cddDifference T.d T.j)

/-- The level of `d - c`. -/
def levelP (T : Triangle L clocks told) : ℕ := L.diff2level (cddDifference T.d T.c)

/-- `d - c ≤ 0`. -/
def below (T : Triangle L clocks told) : DdNode :=
  .cdd true T.levelP [(cddfalse, .fin 1), (cddtrue, INF)]

/-- `d - c ≥ 1`. -/
def above (T : Triangle L clocks told) : DdNode :=
  .cdd false T.levelP [(cddfalse, .fin 2), (cddtrue, INF)]

/-- `d - c ≤ 0` or `d - c ≥ 1`. -/
def split (T : Triangle L clocks told) : DdNode :=
  .cdd true T.levelP [(cddfalse, .fin 1), (cddtrue, .fin 2), (cddfalse, INF)]

/-- `split` from `n` on for `c - j`, and `low` before. -/
def onA (T : Triangle L clocks told) (low : DdNode) (n : ℤ) : DdNode :=
  .cdd false T.levelA [(low, .fin (2 * n)), (T.split, INF)]

/-- `split` from `n` on for `d - j`, and `below` before. -/
def onB (T : Triangle L clocks told) (n : ℤ) : DdNode :=
  .cdd true T.levelB [(cddNeg T.below, .fin (2 * n)), (cddNeg T.split, INF)]

variable (T : Triangle L clocks told)

theorem levelinfo_A : L.levelinfo[T.levelA]? = some (.cdd T.c T.j) :=
  T.declared.covers.level_of_pair T.c T.j ⟨T.j_lt, lt_trans T.c_lt T.d_lt⟩

theorem levelinfo_B : L.levelinfo[T.levelB]? = some (.cdd T.d T.j) :=
  T.declared.covers.level_of_pair T.d T.j ⟨lt_trans T.j_lt T.c_lt, T.d_lt⟩

theorem levelinfo_P : L.levelinfo[T.levelP]? = some (.cdd T.d T.c) :=
  T.declared.covers.level_of_pair T.d T.c ⟨T.c_lt, T.d_lt⟩

theorem levelA_lt : T.levelA < T.levelP :=
  T.declared.level_lt T.levelinfo_A T.levelinfo_P (Or.inl T.c_lt)

theorem levelB_lt : T.levelB < T.levelP :=
  T.declared.level_lt T.levelinfo_B T.levelinfo_P (Or.inr ⟨rfl, T.j_lt⟩)

theorem level_lt_maxLevel (T : Triangle L clocks told) {ℓ : ℕ} {info : LevelInfo}
    (h : L.levelinfo[ℓ]? = some info) : ℓ < maxLevel :=
  lt_of_lt_of_le (List.getElem?_eq_some_iff.mp h).1 T.fits

theorem proper_below : L.Proper T.below := by
  have h : L.Proper (.cdd false T.levelP [(cddfalse, .fin 1), (cddtrue, INF)]) := by
    apply proper_terminals [(false, .fin 1), (true, INF)] ⟨_, _, T.levelinfo_P⟩
      (T.level_lt_maxLevel T.levelinfo_P) ⟨Raw.fin_lt_inf 1, rfl⟩
    · simp [Alternating]
    · simp
    · simp
    · rw [List.forall_mem_cons, List.forall_mem_singleton]
      exact ⟨Raw.negInf_lt_fin 1, neg_INF_lt⟩
  exact h.negCond true

theorem proper_above : L.Proper T.above := by
  apply proper_terminals [(false, .fin 2), (true, INF)] ⟨_, _, T.levelinfo_P⟩
    (T.level_lt_maxLevel T.levelinfo_P) ⟨Raw.fin_lt_inf 2, rfl⟩
  · simp [Alternating]
  · simp
  · simp
  · rw [List.forall_mem_cons, List.forall_mem_singleton]
    exact ⟨Raw.negInf_lt_fin 2, neg_INF_lt⟩

theorem proper_split : L.Proper T.split := by
  have h : L.Proper (.cdd false T.levelP [(cddfalse, .fin 1), (cddtrue, .fin 2), (cddfalse, INF)]) := by
    apply proper_terminals [(false, .fin 1), (true, .fin 2), (false, INF)] ⟨_, _, T.levelinfo_P⟩
      (T.level_lt_maxLevel T.levelinfo_P) ⟨Raw.fin_lt_fin.mpr (by decide), Raw.fin_lt_inf 2, rfl⟩
    · simp [Alternating]
    · simp
    · simp
    · rw [List.forall_mem_cons, List.forall_mem_cons, List.forall_mem_singleton]
      exact ⟨Raw.negInf_lt_fin 1, Raw.negInf_lt_fin 2, neg_INF_lt⟩
  exact h.negCond true

/-- A node with one bound over two diagrams below its level. -/
theorem proper_pair {level : ℕ} {x y : DdNode} (hk : L.isCdd level) (hx : L.Proper x)
    (hy : L.Proper y) (hne : x ≠ y) (hm : cddMask x = false) (hlx : level < x.level)
    (hly : level < y.level) (b : ℤ) : L.Proper (.cdd false level [(x, .fin b), (y, INF)]) := by
  constructor
  · have hp : Partition INF [(x, Raw.fin b), (y, INF)] := ⟨Raw.fin_lt_inf b, rfl⟩
    apply Library.WellFormed.cdd false hk _ hp
    · simpa [Alternating] using hne
    · simp
    · simpa using hm
    · rw [List.forall_mem_cons, List.forall_mem_singleton]
      exact ⟨hx.wf, hy.wf⟩
    · rw [List.forall_mem_cons, List.forall_mem_singleton]
      exact ⟨hlx, hly⟩
  · apply All.cdd _ trivial
    · rw [List.forall_mem_cons, List.forall_mem_singleton]
      exact ⟨Raw.negInf_lt_fin b, neg_INF_lt⟩
    · rw [List.forall_mem_cons, List.forall_mem_singleton]
      exact ⟨hx.inRange, hy.inRange⟩

theorem proper_onA {low : DdNode} (hlow : low = cddfalse ∨ low = T.above) (n : ℤ) :
    L.Proper (T.onA low n) := by
  cases hlow with
  | inl h =>
    rw [h]
    apply proper_pair ⟨_, _, T.levelinfo_A⟩ proper_cddfalse T.proper_split
    · nofun
    · rfl
    · exact T.level_lt_maxLevel T.levelinfo_A
    · exact T.levelA_lt
  | inr h =>
    rw [h]
    apply proper_pair ⟨_, _, T.levelinfo_A⟩ T.proper_above T.proper_split
    · simp [above, split]
    · rfl
    · exact T.levelA_lt
    · exact T.levelA_lt

theorem proper_onB (n : ℤ) : L.Proper (T.onB n) := by
  have h : L.Proper (.cdd false T.levelB [(cddNeg T.below, .fin (2 * n)), (cddNeg T.split, INF)]) := by
    apply proper_pair ⟨_, _, T.levelinfo_B⟩ T.proper_below.neg T.proper_split.neg
    · simp [below, split, cddNeg, cddNegCond]
    · rfl
    · exact T.levelB_lt
    · exact T.levelB_lt
  exact h.negCond true

/-! ### Relaxing them -/

/-- What relaxing a bound on `c - j` or `d - j` into one of the three diagrams returns. -/
def Relaxes (node : DdNode) (lower : Raw) (clock1 : ℕ) (res : DdNode) : Prop :=
  (node = T.below ∨ node = T.above → res = node) ∧
    ∀ n : ℤ, node = T.split → lower = .fin (2 * n) →
      (clock1 = T.c → res = T.onB (n + 1)) ∧ (clock1 = T.d → res = T.onA T.above n)

/-- The entries of the running operation are results that the runs below expect. -/
structure Valid (opid : ℕ) (caches : ExistCaches) : Prop where
  relax : ∀ s entry, caches.relaxcache s = some entry → entry.op = opid →
    T.Relaxes entry.node entry.lower entry.clock1 entry.res
  quant : ∀ s entry, caches.quantcache s = some entry → entry.c = opid →
    entry.a.level = T.levelP

variable {C : ExistCall} {R : Removed} {caches : ExistCaches}

theorem relaxLookup_spec {node res : DdNode} (h : T.Valid C.opid caches)
    (hl : C.relaxLookup caches node R = some res) : T.Relaxes node R.lower R.clock1 res := by
  unfold ExistCall.relaxLookup at hl
  split at hl
  · next entry hentry =>
    split at hl
    · next hkey =>
      cases hl
      obtain ⟨hn, hlow, -, h1, -, hop⟩ := hkey
      have hres := h.relax _ entry hentry hop
      rwa [hn, hlow, h1] at hres
    · cases hl
  · cases hl

theorem relaxStore_valid {node res : DdNode} (h : T.Valid C.opid caches)
    (hres : T.Relaxes node R.lower R.clock1 res) : T.Valid C.opid (C.relaxStore caches node R res) := by
  refine ⟨?_, h.quant⟩
  intro s entry hs hop
  unfold ExistCall.relaxStore at hs
  simp only [Function.update_apply] at hs
  split at hs
  · cases hs
    exact hres
  · exact h.relax s entry hs hop

theorem existLookup_spec {node res : DdNode} (h : T.Valid C.opid caches)
    (hl : C.existLookup caches node = some res) : node.level = T.levelP := by
  unfold ExistCall.existLookup at hl
  split at hl
  · next entry hentry =>
    split at hl
    · next hkey =>
      rw [← hkey.1]
      exact h.quant _ entry hentry hkey.2
    · cases hl
  · cases hl

theorem existStore_valid {node : DdNode} (h : T.Valid C.opid caches) (hnode : node.level = T.levelP)
    (res : DdNode) : T.Valid C.opid (C.existStore caches node res) := by
  refine ⟨h.relax, ?_⟩
  intro s entry hs hop
  unfold ExistCall.existStore at hs
  simp only [Function.update_apply] at hs
  split at hs
  · cases hs
    exact hnode
  · exact h.quant s entry hs hop

/-- `relax` on one of the diagrams, over its loop. -/
theorem relax_eq {neg mask : Bool} {es : List (DdNode × Raw)} {res : DdNode}
    (hc : T.Valid C.opid caches)
    (hres : ∀ r, T.Relaxes (.cdd (neg ^^ mask) T.levelP es) R.lower R.clock1 r ↔ r = res)
    (hloop : relaxElem L C R (neg ^^ mask) T.levelP T.d T.c (-INF) es cddfalse caches =
      some (res, caches)) :
    ∃ caches', relax L C R mask (.cdd neg T.levelP es) caches = some (res, caches') ∧
      T.Valid C.opid caches' := by
  rw [relax]
  cases hlook : C.relaxLookup caches (.cdd (neg ^^ mask) T.levelP es) R with
  | some r => exact ⟨caches, by rw [(hres r).mp (T.relaxLookup_spec hc hlook)], hc⟩
  | none =>
    refine ⟨C.relaxStore caches (.cdd (neg ^^ mask) T.levelP es) R res, ?_,
      T.relaxStore_valid hc ((hres res).mpr rfl)⟩
    simp only [T.levelinfo_P, hloop, Option.bind_eq_bind, Option.bind_some, Option.pure_def]

theorem ne_clocks : T.j ≠ T.c ∧ T.j ≠ T.d ∧ T.c ≠ T.d := by
  have h1 := T.j_lt
  have h2 := T.c_lt
  omega

theorem c_lt_clocknum : T.c < L.clocknum := lt_trans T.c_lt T.d_lt

/-- The consequence of a bound on `c - j` on the difference `d - j`. -/
theorem relaxConsequence_c (h1 : R.clock1 = T.c) (h2 : R.clock2 = T.j) (low bnd : Raw) :
    relaxConsequence told R T.d T.c low bnd = some (some (T.d, T.j,
      bndU2l (bndAdd (bndL2u R.lower) (bndL2u low)), bndAdd R.upper bnd)) := by
  obtain ⟨hjc, hjd, hcd⟩ := T.ne_clocks
  have hread (shared : Bool) := readClocks_told T.tells T.c_lt_clocknum shared
  have hoff (x : ℕ) : readClocks told (decide (T.d = T.j)) x = some false := by
    simp [readClocks, hjd.symm]
  unfold relaxConsequence
  simp [h1, h2, hread, hoff, T.c_mem, hcd.symm]

/-- The consequence of a bound on `d - j` on the difference `c - j`. -/
theorem relaxConsequence_d (h1 : R.clock1 = T.d) (h2 : R.clock2 = T.j) (low bnd : Raw) :
    relaxConsequence told R T.d T.c low bnd = some (some (T.c, T.j,
      bndU2l (bndAdd bnd (bndL2u R.lower)), bndAdd R.upper (bndL2u low))) := by
  have hread (shared : Bool) := readClocks_told T.tells T.d_lt shared
  unfold relaxConsequence
  simp [h1, h2, hread, T.d_mem]

theorem bndAdd_INF_left (b : Raw) : bndAdd INF b = INF := by
  cases b <;> rfl

theorem bndAdd_INF_right (b : Raw) : bndAdd b INF = INF := by
  cases b <;> rfl

/-- A consequence without bounds adds nothing. -/
theorem relaxAdd_unbounded (rc : ℕ → Raw) (tmp2 : DdNode) (pos neg : ℕ) :
    relaxAdd L rc tmp2 (some (pos, neg, -INF, INF)) = tmp2 := by
  rw [relaxAdd, if_neg]
  rintro (h | h)
  · exact absurd h (not_lt.mpr (neg_INF_le _))
  · exact absurd h (not_lt.mpr (le_INF _))

theorem cddAnd_cddfalse (x : DdNode) : cddAnd L cddfalse x = cddfalse := by
  have hterm : cddApplyTerminal .and cddfalse x = some cddfalse := by
    simp only [cddApplyTerminal]
    split_ifs with h1 h2 h3
    · rfl
    · rfl
    · exact absurd (Or.inl trivial) h2
    · exact absurd (Or.inl trivial) h2
  rw [cddAnd, cddApply, cddApplyRec, hterm, Option.getD_some]

theorem relaxAdd_cddfalse (rc : ℕ → Raw) (c : Option (ℕ × ℕ × Raw × Raw)) :
    relaxAdd L rc cddfalse c = cddfalse := by
  cases c with
  | none => rfl
  | some p =>
    obtain ⟨pos, neg, l, u⟩ := p
    rw [relaxAdd]
    split
    · exact cddAnd_cddfalse _
    · rfl

/-- A lower bound that is tighter than the one removed before. -/
theorem relaxAdd_lower {rc : ℕ → Raw} {pos neg : ℕ} (hlt : neg < pos) {l : Raw}
    (hl : bndU2l (rc (neg * L.clocknum + pos)) < l) (hu : rc (pos * L.clocknum + neg) = INF) :
    relaxAdd L rc cddtrue (some (pos, neg, l, INF)) =
      cddAnd L cddtrue (cddIntervalFromLevel (L.diff2level (cddDifference pos neg)) l INF) := by
  rw [relaxAdd, if_pos (Or.inl hl), hu, max_eq_left (le_of_lt hl), min_self, cddInterval,
    if_pos hlt]

/-- The diagram stands for a Boolean function of the values of the levels. -/
structure Denotes (L : Library) (x : DdNode) (φ : Assignment → Bool) : Prop where
  proper : L.Proper x
  eval_eq : ∀ a, eval a x = φ a

variable {x y : DdNode} {φ ψ : Assignment → Bool}

theorem Denotes.or (hx : Denotes L x φ) (hy : Denotes L y ψ) :
    Denotes L (cddOr L x y) fun a ↦ φ a || ψ a := by
  refine ⟨hx.proper.or hy.proper, ?_⟩
  intro a
  rw [eval_cddOr hx.proper.wf hy.proper.wf, hx.eval_eq, hy.eval_eq]

theorem Denotes.and (hx : Denotes L x φ) (hy : Denotes L y ψ) :
    Denotes L (cddAnd L x y) fun a ↦ φ a && ψ a := by
  refine ⟨hx.proper.and hy.proper, ?_⟩
  intro a
  rw [(cddAnd_builds hx.proper.wf hy.proper.wf).eval_eq, hx.eval_eq, hy.eval_eq]

/-- Diagrams for the same function are the same. -/
theorem Denotes.unique (hx : Denotes L x φ) (hy : L.Proper y) (h : ∀ a, φ a = eval a y) :
    x = y := by
  apply eq_of_eval_eq hx.proper.wf hy.wf
  intro a
  rw [hx.eval_eq, h]

theorem denotes_cddfalse : Denotes L cddfalse fun _ ↦ false := ⟨proper_cddfalse, eval_cddfalse⟩

theorem denotes_cddtrue : Denotes L cddtrue fun _ ↦ true := ⟨proper_cddtrue, eval_cddtrue⟩

theorem denotes_interval (T : Triangle L clocks told) {ℓ i j : ℕ}
    (hk : L.levelinfo[ℓ]? = some (.cdd i j)) {low high : Raw} (h : Interval low high) :
    Denotes L (cddIntervalFromLevel ℓ low high) fun a ↦ inPiece (a.diff ℓ) low high := by
  have hspec := cddIntervalFromLevel_spec ⟨i, j, hk⟩ (T.level_lt_maxLevel hk) h
  exact ⟨hspec.1, hspec.2⟩

/-- The three intervals of `split`. -/
theorem intervals_P : Interval (-INF) (.fin 1) ∧ Interval (.fin 1) (.fin 2) ∧
    Interval (.fin 2) INF := by
  refine ⟨⟨Raw.negInf_lt_fin 1, ?_⟩, ⟨Raw.fin_lt_fin.mpr (by decide), ?_⟩, ⟨Raw.fin_lt_inf 2, ?_⟩⟩
  · exact Or.inr nofun
  · exact Or.inl nofun
  · exact Or.inl nofun

theorem eval_below (a : Assignment) : eval a T.below = (a.diff T.levelP).below (.fin 1) := by
  rw [below, eval, evalElem, evalElem, (a.diff _).top_below]
  cases (a.diff T.levelP).below (.fin 1) <;> simp

theorem eval_above (a : Assignment) : eval a T.above = !(a.diff T.levelP).below (.fin 2) := by
  rw [above, eval, evalElem, evalElem, (a.diff _).top_below]
  cases (a.diff T.levelP).below (.fin 2) <;> simp

theorem eval_split (a : Assignment) : eval a T.split =
    ((a.diff T.levelP).below (.fin 1) || !(a.diff T.levelP).below (.fin 2)) := by
  rw [split, eval, evalElem, evalElem, evalElem, (a.diff _).top_below]
  cases (a.diff T.levelP).below (.fin 1) <;> cases (a.diff T.levelP).below (.fin 2) <;> simp

theorem eval_onA (low : DdNode) (n : ℤ) (a : Assignment) : eval a (T.onA low n) =
    bif (a.diff T.levelA).below (.fin (2 * n)) then eval a low else eval a T.split := by
  rw [onA, eval, evalElem, evalElem, (a.diff _).top_below]
  cases (a.diff T.levelA).below (.fin (2 * n)) <;> simp

theorem eval_onB (n : ℤ) (a : Assignment) : eval a (T.onB n) =
    bif (a.diff T.levelB).below (.fin (2 * n)) then eval a T.below else eval a T.split := by
  rw [onB, eval, evalElem, evalElem, (a.diff _).top_below, eval_neg, eval_neg]
  cases (a.diff T.levelB).below (.fin (2 * n)) <;> simp

theorem split_ne : T.split ≠ T.below ∧ T.split ≠ T.above := by
  simp [split, below, above]

theorem relaxes_below_iff {lower : Raw} {clock1 : ℕ} {r : DdNode} :
    T.Relaxes T.below lower clock1 r ↔ r = T.below := by
  constructor
  · exact fun h ↦ h.1 (Or.inl rfl)
  · rintro rfl
    exact ⟨fun _ ↦ rfl, fun n h ↦ absurd h.symm T.split_ne.1⟩

theorem relaxes_above_iff {lower : Raw} {clock1 : ℕ} {r : DdNode} :
    T.Relaxes T.above lower clock1 r ↔ r = T.above := by
  constructor
  · exact fun h ↦ h.1 (Or.inr rfl)
  · rintro rfl
    exact ⟨fun _ ↦ rfl, fun n h ↦ absurd h.symm T.split_ne.2⟩

theorem relaxes_split_c_iff {n : ℤ} {r : DdNode} :
    T.Relaxes T.split (.fin (2 * n)) T.c r ↔ r = T.onB (n + 1) := by
  constructor
  · exact fun h ↦ (h.2 n rfl rfl).1 rfl
  · rintro rfl
    refine ⟨?_, ?_⟩
    · rintro (h | h)
      · exact absurd h T.split_ne.1
      · exact absurd h T.split_ne.2
    · intro m _ hm
      have hnm : m = n := by
        have := Raw.fin.inj hm
        omega
      rw [hnm]
      exact ⟨fun _ ↦ rfl, fun h ↦ absurd h T.ne_clocks.2.2⟩

theorem relaxes_split_d_iff {n : ℤ} {r : DdNode} :
    T.Relaxes T.split (.fin (2 * n)) T.d r ↔ r = T.onA T.above n := by
  constructor
  · exact fun h ↦ (h.2 n rfl rfl).2 rfl
  · rintro rfl
    refine ⟨?_, ?_⟩
    · rintro (h | h)
      · exact absurd h T.split_ne.1
      · exact absurd h T.split_ne.2
    · intro m _ hm
      have hnm : m = n := by
        have := Raw.fin.inj hm
        omega
      rw [hnm]
      exact ⟨fun h ↦ absurd h.symm T.ne_clocks.2.2, fun _ ↦ rfl⟩

/-- The consequences of the lower bound `n` on the other side of `split`. -/
theorem lower_codes (n : ℤ) : bndU2l (bndAdd (.fin 1) (bndL2u (.fin (2 * n)))) = .fin (2 * n) ∧
    bndU2l (bndAdd (bndL2u (.fin (2 * n))) (bndL2u (.fin 2))) = .fin (2 * (n + 1)) := by
  have hflip : flipCode (2 * n) = 1 - 2 * n := by
    unfold flipCode
    omega
  have hmod : (1 - 2 * n) % 2 = 1 := by omega
  have hdiv : (1 - 2 * n) / 2 = -n := by omega
  have h2 : flipCode 2 = -1 := by decide
  simp only [bndL2u, bndAdd, bndU2l, hflip, h2, hmod, hdiv, Raw.fin.injEq]
  unfold flipCode
  omega

variable {rc : ℕ → Raw}

theorem inPiece_first (x : Cut INF) (b : Raw) : inPiece x (-INF) b = x.below b := by
  simp [inPiece]

theorem inPiece_last (x : Cut INF) (b : ℤ) : inPiece x (.fin b) INF = !x.below (.fin b) := by
  have hne : Raw.fin b ≠ -INF := nofun
  simp [inPiece, hne, x.top_below]

theorem relax_cddfalse : relax L C R true cddfalse caches = some (cddtrue, caches) ∧
    relax L C R false cddfalse caches = some (cddfalse, caches) := by
  exact ⟨rfl, rfl⟩

theorem relax_cddtrue : relax L C R true cddtrue caches = some (cddfalse, caches) ∧
    relax L C R false cddtrue caches = some (cddtrue, caches) := by
  exact ⟨rfl, rfl⟩

theorem neg_INF_codes : bndL2u (-INF) = INF ∧ bndU2l INF = -INF := by
  exact ⟨rfl, rfl⟩

/-- A bound on `d - j` leaves `below` as it is. -/
theorem relax_below (htold : C.clocks = told) (hc : T.Valid C.opid caches) (b : Raw) :
    ∃ caches', relax L C ⟨-INF, T.d, T.j, b, rc⟩ true (cddNeg T.below) caches =
      some (T.below, caches') ∧ T.Valid C.opid caches' := by
  show ∃ caches', relax L C ⟨-INF, T.d, T.j, b, rc⟩ true
    (.cdd false T.levelP [(cddfalse, .fin 1), (cddtrue, INF)]) caches = _ ∧ _
  apply T.relax_eq hc
  · exact fun r ↦ T.relaxes_below_iff
  · have h2 : Interval (.fin 1) INF := ⟨Raw.fin_lt_inf 1, Or.inl nofun⟩
    have hr := (denotes_cddfalse.or (denotes_cddtrue.and
      (T.denotes_interval T.levelinfo_P intervals_P.1))).or
      (denotes_cddfalse.and (T.denotes_interval T.levelinfo_P h2))
    have heq := hr.unique T.proper_below fun a ↦ by
      rw [eval_below]
      simp [inPiece_first]
    have hcons := T.relaxConsequence_d (R := ⟨-INF, T.d, T.j, b, rc⟩) rfl rfl
    show relaxElem L C _ true T.levelP T.d T.c (-INF) [(cddfalse, .fin 1), (cddtrue, INF)] cddfalse
      caches = _
    simp only [relaxElem, htold, hcons, Option.bind_eq_bind, Option.bind_some,
      relax_cddfalse, relax_cddtrue, neg_INF_codes, bndAdd_INF_right, relaxAdd_unbounded,
      relaxAdd_cddfalse, heq]

/-- A bound on `c - j` leaves `above` as it is. -/
theorem relax_above (htold : C.clocks = told) (hc : T.Valid C.opid caches) (b : Raw) :
    ∃ caches', relax L C ⟨-INF, T.c, T.j, b, rc⟩ false T.above caches =
      some (T.above, caches') ∧ T.Valid C.opid caches' := by
  apply T.relax_eq hc
  · exact fun r ↦ T.relaxes_above_iff
  · have h2 : Interval (-INF) (.fin 2) := ⟨Raw.negInf_lt_fin 2, Or.inr nofun⟩
    have hr := (denotes_cddfalse.or (denotes_cddfalse.and (T.denotes_interval T.levelinfo_P h2))).or
      (denotes_cddtrue.and (T.denotes_interval T.levelinfo_P intervals_P.2.2))
    have heq := hr.unique T.proper_above fun a ↦ by
      rw [eval_above]
      simp [inPiece_last]
    have hcons := T.relaxConsequence_c (R := ⟨-INF, T.c, T.j, b, rc⟩) rfl rfl
    show relaxElem L C _ false T.levelP T.d T.c (-INF) [(cddfalse, .fin 2), (cddtrue, INF)] cddfalse
      caches = _
    simp only [relaxElem, htold, hcons, Option.bind_eq_bind, Option.bind_some,
      relax_cddfalse, relax_cddtrue, neg_INF_codes, bndAdd_INF_left, bndAdd_INF_right,
      relaxAdd_unbounded, relaxAdd_cddfalse, heq]

/-- A lower bound on `c - j` becomes a larger one on `d - j`. -/
theorem relax_split_c (htold : C.clocks = told) (hc : T.Valid C.opid caches) {n : ℤ}
    (hl : bndU2l (rc (T.j * L.clocknum + T.d)) < .fin (2 * (n + 1)))
    (hu : rc (T.d * L.clocknum + T.j) = INF) :
    ∃ caches', relax L C ⟨.fin (2 * n), T.c, T.j, INF, rc⟩ false T.split caches =
      some (T.onB (n + 1), caches') ∧ T.Valid C.opid caches' := by
  apply T.relax_eq hc
  · exact fun r ↦ T.relaxes_split_c_iff
  · obtain ⟨h1, h2, h3⟩ := intervals_P
    have hB : Interval (.fin (2 * (n + 1))) INF := ⟨Raw.fin_lt_inf _, Or.inl nofun⟩
    have hr := ((denotes_cddfalse.or (denotes_cddtrue.and
      (T.denotes_interval T.levelinfo_P h1))).or
      (denotes_cddfalse.and (T.denotes_interval T.levelinfo_P h2))).or
      ((denotes_cddtrue.and (T.denotes_interval T.levelinfo_B hB)).and (T.denotes_interval T.levelinfo_P h3))
    have heq := hr.unique (T.proper_onB (n + 1)) fun a ↦ by
      rw [eval_onB, eval_below, eval_split]
      cases hb : (a.diff T.levelB).below (.fin (2 * (n + 1))) <;>
        simp [inPiece_first, inPiece_last, hb]
    have hcons := T.relaxConsequence_c (R := ⟨.fin (2 * n), T.c, T.j, INF, rc⟩) rfl rfl
    have hadd := relaxAdd_lower (lt_trans T.j_lt T.c_lt) hl hu
    show relaxElem L C _ true T.levelP T.d T.c (-INF) [(cddfalse, .fin 1), (cddtrue, .fin 2),
      (cddfalse, INF)] cddfalse caches = _
    simp only [relaxElem, htold, hcons, Option.bind_eq_bind, Option.bind_some,
      relax_cddfalse, relax_cddtrue, neg_INF_codes, bndAdd_INF_left, bndAdd_INF_right,
      relaxAdd_unbounded, relaxAdd_cddfalse, (lower_codes n).2, hadd]
    rw [← heq]
    rfl

/-- A lower bound on `d - j` becomes the same one on `c - j`. -/
theorem relax_split_d (htold : C.clocks = told) (hc : T.Valid C.opid caches) {n : ℤ}
    (hl : bndU2l (rc (T.j * L.clocknum + T.c)) < .fin (2 * n))
    (hu : rc (T.c * L.clocknum + T.j) = INF) :
    ∃ caches', relax L C ⟨.fin (2 * n), T.d, T.j, INF, rc⟩ true (cddNeg T.split) caches =
      some (T.onA T.above n, caches') ∧ T.Valid C.opid caches' := by
  show ∃ caches', relax L C ⟨.fin (2 * n), T.d, T.j, INF, rc⟩ true
    (.cdd false T.levelP [(cddfalse, .fin 1), (cddtrue, .fin 2), (cddfalse, INF)]) caches = _ ∧ _
  apply T.relax_eq hc
  · exact fun r ↦ T.relaxes_split_d_iff
  · obtain ⟨h1, h2, h3⟩ := intervals_P
    have hA : Interval (.fin (2 * n)) INF := ⟨Raw.fin_lt_inf _, Or.inl nofun⟩
    have hr := ((denotes_cddfalse.or ((denotes_cddtrue.and
      (T.denotes_interval T.levelinfo_A hA)).and (T.denotes_interval T.levelinfo_P h1))).or
      (denotes_cddfalse.and (T.denotes_interval T.levelinfo_P h2))).or
      (denotes_cddtrue.and (T.denotes_interval T.levelinfo_P h3))
    have heq := hr.unique (T.proper_onA (Or.inr rfl) n) fun a ↦ by
      rw [eval_onA, eval_above, eval_split]
      cases hb : (a.diff T.levelA).below (.fin (2 * n)) <;>
        simp [inPiece_first, inPiece_last, hb]
    have hcons := T.relaxConsequence_d (R := ⟨.fin (2 * n), T.d, T.j, INF, rc⟩) rfl rfl
    have hadd := relaxAdd_lower T.j_lt hl hu
    show relaxElem L C _ true T.levelP T.d T.c (-INF) [(cddfalse, .fin 1), (cddtrue, .fin 2),
      (cddfalse, INF)] cddfalse caches = _
    simp only [relaxElem, htold, hcons, Option.bind_eq_bind, Option.bind_some, relax_cddfalse,
      relax_cddtrue, neg_INF_codes, bndAdd_INF_left, relaxAdd_unbounded, relaxAdd_cddfalse,
      (lower_codes n).1, hadd]
    rw [← heq]
    rfl

/-! ### The run -/

/-- The call fails for want of fuel, or it returns and leaves the caches valid. -/
def Returns (opid : ℕ) : Option (DdNode × ExistCaches) → Prop
  | none => True
  | some x => T.Valid opid x.2

theorem returns_terminal (h : T.Valid C.opid caches) (fuel : ℕ) {x : DdNode}
    (hx : cddIsterminal x = true) :
    T.Returns C.opid (cddExistRecTold L C told fuel rc x caches) := by
  cases fuel with
  | zero => exact trivial
  | succ fuel =>
    rw [cddExistRecTold, if_pos hx]
    exact h

/-- Removing a level above terminals only. -/
theorem returns_existRemoved (rc : ℕ → Raw) (fuel : ℕ) (mask : Bool) (i j : ℕ) (es : List (Bool × Raw)) (low : Raw)
    (res : DdNode) (h : T.Valid C.opid caches) :
    T.Returns C.opid (existRemoved L { C with clocks := told } (cddExistRecTold L C told fuel) rc mask i j
      low (es.map fun e ↦ (.terminal e.1, e.2)) res caches) := by
  induction es generalizing low res caches with
  | nil => exact h
  | cons e es ih =>
    simp only [List.map_cons, existRemoved, relax, Option.bind_eq_bind, Option.bind_some]
    have hrec : T.Returns C.opid (cddExistRecTold L C told fuel (Function.update (Function.update rc
        (j * L.clocknum + i) (bndL2u low)) (i * L.clocknum + j) e.2) (.terminal (e.1 ^^ mask))
        caches) := T.returns_terminal h fuel rfl
    cases hx : cddExistRecTold L C told fuel (Function.update (Function.update rc
      (j * L.clocknum + i) (bndL2u low)) (i * L.clocknum + j) e.2) (.terminal (e.1 ^^ mask))
      caches with
    | none => exact trivial
    | some x =>
      rw [hx] at hrec
      exact ih _ _ hrec

/-- The call on a node of level `levelP` above terminals. -/
theorem returns_P (hC : C.clocks = clocks) (fuel : ℕ) (neg : Bool) (es : List (Bool × Raw))
    (h : T.Valid C.opid caches) : T.Returns C.opid (cddExistRecTold L C told fuel rc
      (.cdd neg T.levelP (es.map fun e ↦ (.terminal e.1, e.2))) caches) := by
  cases fuel with
  | zero => exact trivial
  | succ fuel =>
    have hterm : ¬ cddIsterminal (.cdd neg T.levelP (es.map fun e ↦ (.terminal e.1, e.2))) = true :=
      Bool.false_ne_true
    rw [cddExistRecTold, if_neg hterm]
    split
    · exact h
    · have hmem : T.d ∈ C.clocks ∨ T.c ∈ C.clocks := Or.inl (hC ▸ T.d_mem)
      simp only [existNodeTold, T.levelinfo_P, if_pos hmem, Option.bind_eq_bind]
      have hrem := T.returns_existRemoved (C := C) rc fuel neg T.d T.c es (-INF) cddfalse h
      cases hx : existRemoved L { C with clocks := told } (cddExistRecTold L C told fuel) rc neg T.d
        T.c (-INF) (es.map fun e ↦ (.terminal e.1, e.2)) cddfalse caches with
      | none => exact trivial
      | some x =>
        rw [hx] at hrem
        exact T.existStore_valid hrem rfl _

/-- The entries of `removed_constraint` that the run uses are apart. -/
theorem slot_ne {a b x y : ℕ} (hy : y < L.clocknum) (hb : b < L.clocknum)
    (hne : a ≠ x ∨ b ≠ y) : a * L.clocknum + b ≠ x * L.clocknum + y := by
  intro h
  have hy' := Nat.mod_eq_of_lt hy
  have hb' := Nat.mod_eq_of_lt hb
  have hmod : b = y := by
    have := congrArg (· % L.clocknum) h
    simpa [Nat.add_mod, hy', hb'] using this
  rw [hmod, Nat.add_right_cancel_iff] at h
  have hdiv : a = x := Nat.eq_of_mul_eq_mul_right (Nat.zero_lt_of_lt hy) h
  exact hne.elim (fun h ↦ h hdiv) fun h ↦ h hmod

theorem bndU2l_bndL2u (n : ℤ) : bndU2l (bndL2u (.fin (2 * n))) = .fin (2 * n) := by
  simp only [bndL2u, bndU2l, flipCode, Raw.fin.injEq]
  omega

/-- The entries after the removal of the second edge. -/
theorem removed_slots (rc : ℕ → Raw) {rc' : ℕ → Raw} {i k : ℕ} {b : Raw}
    (h : rc' = Function.update (Function.update rc (T.j * L.clocknum + i) (bndL2u b))
      (i * L.clocknum + T.j) INF) (hi : i < L.clocknum) (hj : T.j < L.clocknum)
    (hk : k < L.clocknum) (hij : i ≠ T.j) (hkj : k ≠ T.j) (hki : k ≠ i) :
    rc' (T.j * L.clocknum + k) = rc (T.j * L.clocknum + k) ∧
      rc' (k * L.clocknum + T.j) = rc (k * L.clocknum + T.j) ∧
      rc' (T.j * L.clocknum + i) = bndL2u b ∧ rc' (i * L.clocknum + T.j) = INF := by
  subst h
  refine ⟨?_, ?_, ?_, ?_⟩
  · rw [Function.update_of_ne (slot_ne hj hk (Or.inr hkj)),
      Function.update_of_ne (slot_ne hi hk (Or.inr hki))]
  · rw [Function.update_of_ne (slot_ne hj hj (Or.inl hki)),
      Function.update_of_ne (slot_ne hi hj (Or.inl hkj))]
  · rw [Function.update_of_ne (slot_ne hj hi (Or.inl hij.symm)), Function.update_self]
  · rw [Function.update_self]

/-- A removal over two edges, the second of which never ends. -/
theorem existRemoved_endless {rec : ExistRec} {mask : Bool} {i j : ℕ} {x y : DdNode} (x' y' : DdNode)
    {b : ℤ}
    (hx : ∀ rc', ∃ caches', relax L C ⟨-INF, i, j, .fin b, rc'⟩ mask x caches =
      some (x', caches') ∧ T.Valid C.opid caches')
    (hx' : ∀ rc' caches', T.Valid C.opid caches' → T.Returns C.opid (rec rc' x' caches'))
    (hy : ∀ caches', T.Valid C.opid caches' → ∃ caches'', relax L C ⟨.fin b, i, j, INF,
      Function.update (Function.update rc (j * L.clocknum + i) (bndL2u (.fin b)))
        (i * L.clocknum + j) INF⟩ mask y caches' = some (y', caches'') ∧ T.Valid C.opid caches'')
    (hy' : ∀ caches', T.Valid C.opid caches' → rec (Function.update (Function.update rc
      (j * L.clocknum + i) (bndL2u (.fin b))) (i * L.clocknum + j) INF) y' caches' = none) :
    existRemoved L C rec rc mask i j (-INF) [(x, .fin b), (y, INF)] cddfalse caches = none := by
  let rc₁ := Function.update (Function.update rc (j * L.clocknum + i) (bndL2u (-INF)))
    (i * L.clocknum + j) (.fin b)
  obtain ⟨caches₁, h₁, hc₁⟩ := hx rc₁
  have hret := hx' rc₁ caches₁ hc₁
  simp only [existRemoved, Option.bind_eq_bind]
  rw [h₁, Option.bind_some]
  cases hrec : rec rc₁ x' caches₁ with
  | none => rfl
  | some z =>
    rw [hrec] at hret
    obtain ⟨caches₂, h₂, hc₂⟩ := hy z.2 hret
    rw [Option.bind_some, h₂, Option.bind_some, hy' caches₂ hc₂, Option.bind_none]

/-- No depth of the recursion is enough: each bound is followed by a larger one. -/
theorem endless (hC : C.clocks = clocks) (fuel : ℕ) (n : ℤ) (h : T.Valid C.opid caches) :
    (∀ low, low = cddfalse ∨ low = T.above →
      bndU2l (rc (T.j * L.clocknum + T.d)) < .fin (2 * (n + 1)) →
      rc (T.d * L.clocknum + T.j) = INF →
      cddExistRecTold L C told fuel rc (T.onA low n) caches = none) ∧
    (bndU2l (rc (T.j * L.clocknum + T.c)) < .fin (2 * n) →
      rc (T.c * L.clocknum + T.j) = INF →
      cddExistRecTold L C told fuel rc (T.onB n) caches = none) := by
  obtain ⟨hjc, hjd, hcd⟩ := T.ne_clocks
  have hcN := T.c_lt_clocknum
  have hdN := T.d_lt
  have hjN := lt_trans T.j_lt hcN
  induction fuel generalizing n caches rc with
  | zero => exact ⟨fun _ _ _ _ ↦ rfl, fun _ _ ↦ rfl⟩
  | succ fuel ih =>
    have hnone {x : DdNode} (hx : x.level ≠ T.levelP) : C.existLookup caches x = none := by
      cases hlook : C.existLookup caches x with
      | none => rfl
      | some r => exact absurd (T.existLookup_spec h hlook) hx
    refine ⟨?_, ?_⟩
    · intro low hlow hl hu
      have hterm : ¬ cddIsterminal (T.onA low n) = true := Bool.false_ne_true
      have hmem : T.c ∈ C.clocks ∨ T.j ∈ C.clocks := Or.inl (hC ▸ T.c_mem)
      rw [cddExistRecTold, if_neg hterm, hnone (x := T.onA low n) (ne_of_lt T.levelA_lt)]
      have hrem : existRemoved L { C with clocks := told } (cddExistRecTold L C told fuel) rc false
          T.c T.j (-INF) [(low, .fin (2 * n)), (T.split, INF)] cddfalse caches = none := by
        obtain ⟨hjd', hdj', hjc', hcj'⟩ := T.removed_slots rc (b := .fin (2 * n)) rfl hcN hjN
          hdN hjc.symm hjd.symm hcd.symm
        apply T.existRemoved_endless low (T.onB (n + 1))
        · intro rc'
          cases hlow with
          | inl hlow =>
            rw [hlow]
            exact ⟨caches, rfl, h⟩
          | inr hlow =>
            rw [hlow]
            exact T.relax_above (C := { C with clocks := told }) rfl h (.fin (2 * n))
        · intro rc' caches' h'
          cases hlow with
          | inl hlow =>
            rw [hlow]
            exact T.returns_terminal (C := C) (x := cddfalse) h' fuel rfl
          | inr hlow =>
            rw [hlow]
            exact T.returns_P hC fuel false [(false, .fin 2), (true, INF)] h'
        · intro caches' h'
          exact T.relax_split_c rfl h' (by rwa [hjd']) (by rwa [hdj'])
        · intro caches' h'
          apply (ih (n + 1) h').2 _ hcj'
          rw [hjc', bndU2l_bndL2u, Raw.fin_lt_fin]
          omega
      simp only [onA, existNodeTold, T.levelinfo_A, if_pos hmem, hrem, Option.bind_eq_bind,
        Option.bind_none]
    · intro hl hu
      have hterm : ¬ cddIsterminal (T.onB n) = true := Bool.false_ne_true
      have hmem : T.d ∈ C.clocks ∨ T.j ∈ C.clocks := Or.inl (hC ▸ T.d_mem)
      rw [cddExistRecTold, if_neg hterm, hnone (x := T.onB n) (ne_of_lt T.levelB_lt)]
      have hrem : existRemoved L { C with clocks := told } (cddExistRecTold L C told fuel) rc true
          T.d T.j (-INF) [(cddNeg T.below, .fin (2 * n)), (cddNeg T.split, INF)] cddfalse caches =
          none := by
        obtain ⟨hjc', hcj', hjd', hdj'⟩ := T.removed_slots rc (b := .fin (2 * n)) rfl hdN hjN
          hcN hjd.symm hjc.symm hcd
        apply T.existRemoved_endless T.below (T.onA T.above n)
        · exact fun rc' ↦ T.relax_below (C := { C with clocks := told }) rfl h (.fin (2 * n))
        · intro rc' caches' h'
          exact T.returns_P hC fuel true [(false, .fin 1), (true, INF)] h'
        · intro caches' h'
          exact T.relax_split_d rfl h' (by rwa [hjc']) (by rwa [hcj'])
        · intro caches' h'
          apply (ih n h').1 T.above (Or.inr rfl) _ hdj'
          rw [hjd', bndU2l_bndL2u, Raw.fin_lt_fin]
          omega
      simp only [onB, existNodeTold, T.levelinfo_B, if_pos hmem, hrem, Option.bind_eq_bind,
        Option.bind_none]

/-- Quantifying the two clocks in a diagram that only tests the three clocks. -/
theorem not_existEnds (E : OpCaches) (levels : List ℕ) :
    ¬ ExistEnds L E (T.onA cddfalse 0) levels clocks told := by
  rintro ⟨fuel, hfuel⟩
  have hvalid : T.Valid (E.call levels clocks).opid E.toExistCaches := by
    constructor
    · intro s entry hs hop
      have hle := E.relax_op s entry hs
      have hcall : entry.op = E.opid + 1 := hop
      omega
    · intro s entry hs hop
      have hle := E.quant_op s entry hs
      have hcall : entry.c = E.opid + 1 := hop
      omega
  have hnone : cddExistRecTold L (E.call levels clocks) told fuel (fun _ ↦ INF)
      (T.onA cddfalse 0) _ = none :=
    (T.endless (C := E.call levels clocks) rfl fuel 0 hvalid).1 cddfalse (Or.inl rfl)
      (Raw.negInf_lt_fin _) rfl
  rw [hnone] at hfuel
  exact Bool.false_ne_true hfuel

theorem testsOnly_onA {K : Set ℕ} (hj : T.j ∈ K) (hc : T.c ∈ K) (hd : T.d ∈ K) :
    L.TestsOnly K (T.onA cddfalse 0) := by
  have hA : ∀ i j, L.levelinfo[T.levelA]? = some (.cdd i j) → i ∈ K ∧ j ∈ K := by
    intro i j hij
    rw [T.levelinfo_A] at hij
    cases hij
    exact ⟨hc, hj⟩
  have hP : ∀ i j, L.levelinfo[T.levelP]? = some (.cdd i j) → i ∈ K ∧ j ∈ K := by
    intro i j hij
    rw [T.levelinfo_P] at hij
    cases hij
    exact ⟨hd, hc⟩
  apply All.cdd _ hA fun _ _ ↦ trivial
  rw [List.forall_mem_cons, List.forall_mem_singleton]
  refine ⟨.terminal _, .cdd _ hP (fun _ _ ↦ trivial) ?_⟩
  rw [List.forall_mem_cons, List.forall_mem_cons, List.forall_mem_singleton]
  exact ⟨.terminal _, .terminal _, .terminal _⟩

end Triangle

/-- The clocks 1 and 2 come after clock 0. -/
def clockTriangle : Triangle clockLibrary [1, 2] [0, 1, 1] where
  declared := .addClocks 3 .init
  fits := by decide
  tells c hc := by
    have hc : c < 3 := hc
    interval_cases c
    · exact ⟨0, by decide, by decide⟩
    · exact ⟨1, by decide, by decide⟩
    · exact ⟨1, by decide, by decide⟩
  j := 0
  c := 1
  d := 2
  j_lt := by decide
  c_lt := by decide
  d_lt := by decide
  c_mem := by decide
  d_mem := by decide

/-- The conjunction of `x1 - x0 ≥ 0` and `x2 - x1 ≤ 0 ∨ x2 - x1 ≥ 1`. -/
def drifting : DdNode :=
  .cdd false 0 [(cddfalse, 0), (.cdd true 2 [(cddfalse, 1), (cddtrue, 2), (cddfalse, INF)], INF)]

end UCDD

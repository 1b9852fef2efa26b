import UCDD.Diagram.Ops

/-!
# Interval constructors

`cdd_interval` and `cdd_upper` of `kernel.c:852–897` on `raw_t` codes, with the macros of
`include/cdd/kernel.h:29–37`. A mirrored bound is one minus the code; only the infinite code that a
macro expects is kept apart.
-/

namespace UCDD

open DdNode

/-- `INF` as an integer. -/
def rawINF : ℤ := 0x7FFFFFFE

/-- The cut that a code stands for. -/
def Raw.ofCode (b : ℤ) : Raw := if b = rawINF then INF else if b = -rawINF then -INF else .fin b

/-- `bnd_l2u`. -/
def rawL2u (b : ℤ) : ℤ := if b = -rawINF then rawINF else flipCode b

/-- `bnd_u2l`. -/
def rawU2l (b : ℤ) : ℤ := if b = rawINF then -rawINF else flipCode b

/-- `cdd_interval_from_level`. -/
def rawIntervalFromLevel (level : ℕ) (low high : ℤ) : DdNode :=
  cddIntervalFromLevel level (.ofCode low) (.ofCode high)

/-- `cdd_upper_from_level`. -/
def cddUpperFromLevel (level : ℕ) (bnd : ℤ) : DdNode :=
  if bnd = rawINF then cddtrue
  else if bnd = -rawINF then cddfalse
  else cddNeg ((cddMakeCddNode ⊤ level [(cddfalse, .ofCode bnd), (cddtrue, INF)]).getD cddfalse)

/-- `cdd_interval`. -/
def rawInterval (L : Library) (i j : ℕ) (low high : ℤ) : DdNode :=
  if i > j then rawIntervalFromLevel (L.diff2level (cddDifference i j)) low high
  else rawIntervalFromLevel (L.diff2level (cddDifference j i)) (rawU2l high) (rawL2u low)

/-- `cdd_upper`. -/
def cddUpper (L : Library) (i j : ℕ) (bnd : ℤ) : DdNode :=
  if i > j then cddUpperFromLevel (L.diff2level (cddDifference i j)) bnd
  else cddNeg (cddUpperFromLevel (L.diff2level (cddDifference j i)) (rawU2l bnd))

/-- The constructor gives the interval between two cuts of the difference, the same diagram from
the other side, and the difference of the two upper bounds. -/
structure DenotesInterval (L : Library) (i j : ℕ) (low high : ℤ) : Prop where
  holds_iff : ∀ v, Holds L v (rawInterval L i j low high) ↔
    ¬ Below (v.clock i - v.clock j) (.ofCode low) ∧ Below (v.clock i - v.clock j) (.ofCode high)
  mirror : rawInterval L i j low high = rawInterval L j i (rawU2l high) (rawL2u low)
  upper : ∀ v, Holds L v (rawInterval L i j low high) ↔
    Holds L v (cddUpper L i j high) ∧ ¬ Holds L v (cddUpper L i j low)

/-! ### Codes -/

theorem flipCode_eq (b : ℤ) : flipCode b = 1 - b := by
  unfold flipCode
  omega

/-- No code in the range leaves the 32 bits. -/
theorem raw_mem_int32 {b : ℤ} (h : -rawINF ≤ b ∧ b ≤ rawINF) :
    (-2 ^ 31 ≤ rawL2u b ∧ rawL2u b < 2 ^ 31) ∧ -2 ^ 31 ≤ rawU2l b ∧ rawU2l b < 2 ^ 31 := by
  unfold rawL2u rawU2l rawINF at *
  rw [flipCode_eq]
  split_ifs <;> omega

theorem ofCode_rawINF : Raw.ofCode rawINF = INF := if_pos rfl

theorem ofCode_neg_rawINF : Raw.ofCode (-rawINF) = -INF := by
  rw [Raw.ofCode, if_neg (by decide), if_pos rfl]

theorem ofCode_fin {b : ℤ} (h : b ≠ rawINF) (h' : b ≠ -rawINF) : Raw.ofCode b = .fin b := by
  rw [Raw.ofCode, if_neg h, if_neg h']

theorem ofCode_lt {a b : ℤ} (h : a < b) (ha : -rawINF ≤ a) (hb : b ≤ rawINF) :
    Raw.ofCode a < Raw.ofCode b := by
  have hna : a ≠ rawINF := by omega
  have hnb : b ≠ -rawINF := by omega
  unfold Raw.ofCode
  rw [if_neg hna, if_neg hnb]
  split_ifs
  · exact neg_INF_lt
  · exact Raw.negInf_lt_fin b
  · exact Raw.fin_lt_inf a
  · exact Raw.fin_lt_fin.mpr h

/-- Apart from one code a lower bound becomes the upper bound on the negated difference. -/
theorem ofCode_rawL2u {b : ℤ} (h' : b < rawINF) (hb : b ≠ -rawINF + 1) :
    Raw.ofCode (rawL2u b) = bndL2u (.ofCode b) := by
  unfold rawL2u
  split_ifs with hinf
  · rw [hinf, ofCode_rawINF, ofCode_neg_rawINF]
    rfl
  · rw [ofCode_fin (ne_of_lt h') hinf, flipCode_eq, ofCode_fin (by omega) (by omega)]
    show Raw.fin _ = Raw.fin _
    rw [flipCode_eq]

theorem ofCode_rawU2l {b : ℤ} (h : -rawINF < b) (h' : b ≤ rawINF) (hb : b ≠ -rawINF + 1) :
    Raw.ofCode (rawU2l b) = bndU2l (.ofCode b) := by
  unfold rawU2l
  split_ifs with hinf
  · rw [hinf, ofCode_rawINF, ofCode_neg_rawINF]
    rfl
  · rw [ofCode_fin hinf (ne_of_gt h), flipCode_eq, ofCode_fin (by omega) (by omega)]
    show Raw.fin _ = Raw.fin _
    rw [flipCode_eq]

theorem rawU2l_rawL2u {b : ℤ} (hb : b ≠ -rawINF + 1) :
    rawU2l (rawL2u b) = b := by
  unfold rawU2l rawL2u
  rw [flipCode_eq, flipCode_eq]
  split_ifs <;> omega

theorem rawL2u_rawU2l {b : ℤ} (h' : b ≤ rawINF) : rawL2u (rawU2l b) = b := by
  unfold rawU2l rawL2u
  rw [flipCode_eq, flipCode_eq]
  split_ifs <;> omega

/-! ### The constructors -/

section

variable {L : Library} {v : Valuation} {level i j : ℕ} {low high : ℤ}

/-- An interval between two cuts in order; both may be infinite. -/
theorem holds_cddIntervalFromLevel_of_lt {low high : Raw}
    (hk : L.levelinfo[level]? = some (.cdd i j)) (hlt : level < maxLevel) (h : low < high) :
    Holds L v (cddIntervalFromLevel level low high) ↔
      ¬ Below (v.clock i - v.clock j) low ∧ Below (v.clock i - v.clock j) high := by
  by_cases hinf : low = -INF ∧ high = INF
  · obtain ⟨rfl, rfl⟩ := hinf
    have hnode : cddIntervalFromLevel level (-INF) INF =
        .cdd true level [(cddfalse, INF), (cddtrue, INF)] := rfl
    rw [hnode, Holds, eval, evalElem, ((v.assignment L).diff level).top_below]
    simp
  · apply holds_cddIntervalFromLevel hk hlt ⟨h, ?_⟩
    by_cases hlow : low = -INF
    · exact Or.inr fun hhigh ↦ hinf ⟨hlow, hhigh⟩
    · exact Or.inl hlow

theorem holds_cddUpperFromLevel (hk : L.levelinfo[level]? = some (.cdd i j))
    (hlt : level < maxLevel) (b : ℤ) :
    Holds L v (cddUpperFromLevel level b) ↔ Below (v.clock i - v.clock j) (.ofCode b) := by
  unfold cddUpperFromLevel
  split_ifs with h h'
  · rw [h, ofCode_rawINF]
    simp
  · rw [h', ofCode_neg_rawINF]
    simp
  · have hlow : -INF < Raw.ofCode b := by
      rw [ofCode_fin h h']
      exact Raw.negInf_lt_fin b
    have hnode : cddIntervalFromLevel level (-INF) (.ofCode b) = cddNeg
        ((cddMakeCddNode ⊤ level [(cddfalse, .ofCode b), (cddtrue, INF)]).getD cddfalse) := rfl
    rw [← hnode, holds_cddIntervalFromLevel_of_lt hk hlt hlow]
    simp

/-- The level of two clocks. -/
theorem level_of_clocks (hL : L.Declared) (hlen : L.levelinfo.length ≤ maxLevel) (hi : i < L.clocknum)
    (hji : j < i) : L.levelinfo[L.diff2level (cddDifference i j)]? = some (.cdd i j) ∧
      L.diff2level (cddDifference i j) < maxLevel := by
  have hk := hL.covers.level_of_pair i j ⟨hji, hi⟩
  exact ⟨hk, lt_of_lt_of_le (List.getElem?_eq_some_iff.mp hk).1 hlen⟩

/-- The larger clock comes first. -/
theorem denotesInterval_of_gt (hL : L.Declared) (hlen : L.levelinfo.length ≤ maxLevel)
    (hi : i < L.clocknum) (hji : j < i) (hlow : -rawINF ≤ low) (hlt : low < high)
    (hhigh : high ≤ rawINF) (hb : low ≠ -rawINF + 1) : DenotesInterval L i j low high := by
  obtain ⟨hk, hmax⟩ := level_of_clocks hL hlen hi hji
  have hint : rawInterval L i j low high =
      rawIntervalFromLevel (L.diff2level (cddDifference i j)) low high := if_pos hji
  have hupper (b : ℤ) : cddUpper L i j b =
      cddUpperFromLevel (L.diff2level (cddDifference i j)) b := if_pos hji
  have hholds (v : Valuation) := holds_cddIntervalFromLevel_of_lt (v := v) hk hmax
    (ofCode_lt hlt hlow hhigh)
  refine ⟨?_, ?_, ?_⟩
  · intro v
    rw [hint]
    exact hholds v
  · rw [hint, rawInterval, if_neg (not_lt.mpr (le_of_lt hji)), rawU2l_rawL2u hb, rawL2u_rawU2l hhigh]
  · intro v
    rw [hint, hupper, hupper, holds_cddUpperFromLevel hk hmax, holds_cddUpperFromLevel hk hmax,
      and_comm]
    exact hholds v

/-- The larger clock comes second, and the bounds are mirrored. -/
theorem denotesInterval_of_lt (hL : L.Declared) (hlen : L.levelinfo.length ≤ maxLevel)
    (hj : j < L.clocknum) (hij : i < j) (hlow : -rawINF < low) (hlt : low < high)
    (hhigh : high ≤ rawINF) (hb : low ≠ -rawINF + 1) : DenotesInterval L i j low high := by
  obtain ⟨hk, hmax⟩ := level_of_clocks hL hlen hj hij
  have hnot : ¬ i > j := not_lt.mpr (le_of_lt hij)
  have hint : rawInterval L i j low high =
      rawIntervalFromLevel (L.diff2level (cddDifference j i)) (rawU2l high) (rawL2u low) := if_neg hnot
  have hupper (b : ℤ) : cddUpper L i j b =
      cddNeg (cddUpperFromLevel (L.diff2level (cddDifference j i)) (rawU2l b)) := if_neg hnot
  have hlowU : rawU2l low = rawL2u low := by
    unfold rawU2l rawL2u
    rw [if_neg (by omega), if_neg (by omega)]
  have hLow := ofCode_rawL2u (lt_of_lt_of_le hlt hhigh) hb
  have hHigh := ofCode_rawU2l (lt_trans hlow hlt) hhigh (by omega)
  have horder : Raw.ofCode (rawU2l high) < Raw.ofCode (rawL2u low) := by
    apply ofCode_lt
    · unfold rawU2l rawL2u
      rw [flipCode_eq, flipCode_eq]
      split_ifs <;> omega
    · unfold rawU2l
      rw [flipCode_eq]
      split_ifs <;> omega
    · unfold rawL2u
      rw [flipCode_eq]
      split_ifs <;> omega
  have hholds (v : Valuation) : Holds L v (rawInterval L i j low high) ↔
      ¬ Below (v.clock i - v.clock j) (.ofCode low) ∧
        Below (v.clock i - v.clock j) (.ofCode high) := by
    rw [hint, rawIntervalFromLevel, holds_cddIntervalFromLevel_of_lt hk hmax horder, hLow, hHigh,
      ← neg_sub (v.clock i), below_bndU2l, below_bndL2u, not_not, and_comm]
  refine ⟨hholds, ?_, ?_⟩
  · rw [hint, rawInterval, if_pos hij]
  · intro v
    rw [hholds, hupper, hupper, holds_cddNeg, holds_cddNeg, holds_cddUpperFromLevel hk hmax,
      holds_cddUpperFromLevel hk hmax, hlowU, hLow, hHigh, ← neg_sub (v.clock i), below_bndU2l,
      below_bndL2u, not_not, not_not, and_comm]

/-! ### The codes that go wrong -/

/-- The clock lies behind all others, further than any finite bound. -/
def farBehind (i : ℕ) : Valuation :=
  ⟨fun c ↦ if c = i then ((-2 ^ 31 : ℤ) : ℝ) else 0, fun _ ↦ false⟩

theorem farBehind_diff (hij : i ≠ j) :
    (farBehind i).clock i - (farBehind i).clock j = -2 ^ 31 := by
  norm_num [farBehind, hij.symm]

/-- Every upper bound but `-INF` admits the difference. -/
theorem below_farBehind {b : ℤ} (h : -rawINF < b) : Below (-2 ^ 31) (.ofCode b) := by
  by_cases hinf : b = rawINF
  · rw [hinf, ofCode_rawINF]
    exact below_INF _
  · rw [ofCode_fin hinf (ne_of_gt h)]
    have hle : 2 * (-0x3FFFFFFF) + 1 ≤ b := by
      unfold rawINF at h
      omega
    apply UpperSat.mono hle
    rw [upperSat_odd]
    norm_num

/-- The lower bound after `-INF` is lost when it is mirrored. -/
theorem not_denotesInterval_of_lost (hL : L.Declared) (hlen : L.levelinfo.length ≤ maxLevel)
    (hj : j < L.clocknum) (hij : i ≠ j) (hlt : -rawINF + 1 < high)
    (hhigh : high ≤ rawINF) : ¬ DenotesInterval L i j (-rawINF + 1) high := by
  intro h
  have hlost : rawL2u (-rawINF + 1) = rawINF := by decide
  rcases Nat.lt_or_gt_of_ne hij with hlt' | hgt
  · obtain ⟨hk, hmax⟩ := level_of_clocks hL hlen hj hlt'
    have hHigh := ofCode_rawU2l (lt_trans (by omega) hlt) hhigh (ne_of_gt hlt)
    have hbelow : Below (-2 ^ 31) (.ofCode (-rawINF + 1)) := below_farBehind (by omega)
    have horder : Raw.ofCode (rawU2l high) < INF := by
      rw [← ofCode_rawINF]
      apply ofCode_lt _ _ le_rfl
      · unfold rawU2l
        rw [flipCode_eq]
        split_ifs <;> omega
      · unfold rawU2l
        rw [flipCode_eq]
        split_ifs <;> omega
    have hholds := h.holds_iff (farBehind i)
    rw [rawInterval, if_neg (not_lt.mpr (le_of_lt hlt')), hlost, rawIntervalFromLevel,
      ofCode_rawINF, holds_cddIntervalFromLevel_of_lt hk hmax horder, hHigh,
      ← neg_sub ((farBehind i).clock i), below_bndU2l, farBehind_diff hij] at hholds
    have hin := hholds.mp ⟨not_not.mpr (below_farBehind (by omega)), below_INF _⟩
    exact hin.1 hbelow
  · have hmirror := h.mirror
    rw [rawInterval, if_pos hgt, rawInterval, if_neg (not_lt.mpr (le_of_lt hgt)), hlost,
      rawL2u_rawU2l hhigh] at hmirror
    have hinf : Raw.ofCode (rawU2l rawINF) = -INF := by decide
    have hfin : Raw.ofCode (-rawINF + 1) = .fin (-rawINF + 1) := by decide
    have hpos : Raw.fin (-rawINF + 1) > -INF := Raw.negInf_lt_fin _
    have hmask := congrArg cddMask hmirror
    rw [rawIntervalFromLevel, rawIntervalFromLevel, hinf, hfin, cddIntervalFromLevel, if_pos hpos,
      cddIntervalFromLevel, if_neg (lt_irrefl _)] at hmask
    split_ifs at hmask <;> cases hmask

/-- `cdd_upper` does not test for `-INF` before it mirrors the bound. -/
theorem not_denotesInterval_of_neg_INF (hL : L.Declared) (hlen : L.levelinfo.length ≤ maxLevel)
    (hj : j < L.clocknum) (hij : i < j) (hlt : -rawINF < high) :
    ¬ DenotesInterval L i j (-rawINF) high := by
  intro h
  obtain ⟨hk, hmax⟩ := level_of_clocks hL hlen hj hij
  have hdiff := farBehind_diff (ne_of_lt hij)
  have hholds : Holds L (farBehind i) (rawInterval L i j (-rawINF) high) := by
    rw [h.holds_iff, hdiff, ofCode_neg_rawINF]
    exact ⟨not_below_neg_INF _, below_farBehind hlt⟩
  apply ((h.upper _).mp hholds).2
  have hcode : rawU2l (-rawINF) = 2 * 0x3FFFFFFF + 1 := by decide
  have hfin : Raw.ofCode (2 * 0x3FFFFFFF + 1) = .fin (2 * 0x3FFFFFFF + 1) := by decide
  rw [cddUpper, if_neg (not_lt.mpr (le_of_lt hij)), holds_cddNeg, hcode,
    holds_cddUpperFromLevel hk hmax, hfin, below_fin, upperSat_odd, ← neg_sub, hdiff]
  norm_num

end

end UCDD

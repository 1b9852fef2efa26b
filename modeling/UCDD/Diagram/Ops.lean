import UCDD.Diagram.Apply
import UCDD.Diagram.Valuation

/-!
# Boolean operations and constraints

The macros `cdd_and`, `cdd_xor` and `cdd_or` of `cddop.c:49–51`, `cdd_ite` of `cddop.c:344–355`
and the constraints of `kernel.c:850–888`, with `cdd_maxcddsize` large enough for every node.
Each keeps diagrams well formed and their bounds in range.
-/

namespace UCDD

open IntervalMap DdNode

/-- `cdd_and`. -/
def cddAnd (L : Library) (l r : DdNode) : DdNode := (cddApply L ⊤ .and l r).getD cddfalse

/-- `cdd_xor`. -/
def cddXor (L : Library) (l r : DdNode) : DdNode := (cddApply L ⊤ .xor l r).getD cddfalse

/-- `cdd_or`. -/
def cddOr (L : Library) (l r : DdNode) : DdNode := cddNeg (cddAnd L (cddNeg l) (cddNeg r))

/-- `cdd_ite`. -/
def cddIte (L : Library) (f g h : DdNode) : DdNode :=
  cddOr L (cddAnd L f g) (cddAnd L (cddNeg f) h)

/-- `cdd_bddvar`. -/
def cddBddvar (level : ℕ) : DdNode := cddMakeBddNode level cddfalse cddtrue

/-- `cdd_interval_from_level`. -/
def cddIntervalFromLevel (level : ℕ) (low high : Raw) : DdNode :=
  if low > -INF then
    (cddMakeCddNode ⊤ level
      ((cddfalse, low) :: (cddtrue, high) :: if high < INF then [(cddfalse, INF)] else [])).getD
      cddfalse
  else cddNeg ((cddMakeCddNode ⊤ level [(cddfalse, high), (cddtrue, INF)]).getD cddfalse)

/-- `cdd_interval`. -/
def cddInterval (L : Library) (i j : ℕ) (low high : Raw) : DdNode :=
  if i > j then cddIntervalFromLevel (L.diff2level (cddDifference i j)) low high
  else cddIntervalFromLevel (L.diff2level (cddDifference j i)) (bndU2l high) (bndL2u low)

/-! ### Proper diagrams -/

/-- A well-formed diagram with bounds in range. -/
structure Library.Proper (L : Library) (d : DdNode) : Prop where
  wf : L.WF d
  inRange : InRange d

section

variable {L : Library} {l r d : DdNode} {v : Valuation}

theorem proper_cddfalse : L.Proper cddfalse := ⟨wf_cddfalse, .terminal _⟩

theorem proper_cddtrue : L.Proper cddtrue := ⟨wf_cddtrue, .terminal _⟩

theorem Library.Proper.neg (h : L.Proper d) : L.Proper (cddNeg d) :=
  ⟨h.wf.neg, h.inRange.negCond _⟩

theorem Library.Proper.negCond (h : L.Proper d) (m : Bool) : L.Proper (cddNegCond d m) :=
  ⟨h.wf.negCond _, h.inRange.negCond _⟩

private theorem cddApply_getD (op : CddOp) (hl : L.WF l) (hr : L.WF r) :
    Builds L 0 (min l.level r.level) (fun a ↦ op.eval (eval a l) (eval a r))
        ((cddApply L ⊤ op l r).getD cddfalse) ∧
      Inherits l r ((cddApply L ⊤ op l r).getD cddfalse) := by
  obtain ⟨n, hn, hb⟩ := cddApply_spec op hl hr
  rw [hn]
  exact hb

theorem cddAnd_builds (hl : L.WF l) (hr : L.WF r) :
    Builds L 0 (min l.level r.level) (fun a ↦ eval a l && eval a r) (cddAnd L l r) :=
  (cddApply_getD .and hl hr).1

theorem cddXor_builds (hl : L.WF l) (hr : L.WF r) :
    Builds L 0 (min l.level r.level) (fun a ↦ eval a l ^^ eval a r) (cddXor L l r) :=
  (cddApply_getD .xor hl hr).1

theorem inherits_cddAnd (hl : L.WF l) (hr : L.WF r) : Inherits l r (cddAnd L l r) :=
  (cddApply_getD .and hl hr).2

theorem inherits_cddOr (hl : L.WF l) (hr : L.WF r) : Inherits l r (cddOr L l r) := by
  intro P Q hQ hal har
  exact (inherits_cddAnd hl.neg hr.neg P Q hQ (hal.negCond _) (har.negCond _)).negCond _

theorem Library.Proper.and (hl : L.Proper l) (hr : L.Proper r) : L.Proper (cddAnd L l r) :=
  ⟨(cddAnd_builds hl.wf hr.wf).wf,
    inherits_cddAnd hl.wf hr.wf _ _ neg_INF_lt hl.inRange hr.inRange⟩

theorem Library.Proper.xor (hl : L.Proper l) (hr : L.Proper r) : L.Proper (cddXor L l r) :=
  ⟨(cddXor_builds hl.wf hr.wf).wf,
    (cddApply_getD .xor hl.wf hr.wf).2 _ _ neg_INF_lt hl.inRange hr.inRange⟩

theorem Library.Proper.or (hl : L.Proper l) (hr : L.Proper r) : L.Proper (cddOr L l r) :=
  (hl.neg.and hr.neg).neg

theorem Library.Proper.ite {f : DdNode} (hf : L.Proper f) (hl : L.Proper l) (hr : L.Proper r) :
    L.Proper (cddIte L f l r) :=
  (hf.and hl).or (hf.neg.and hr)

theorem eval_cddOr (hl : L.WF l) (hr : L.WF r) (a : Assignment) :
    eval a (cddOr L l r) = (eval a l || eval a r) := by
  unfold cddOr
  rw [eval_neg, (cddAnd_builds hl.neg hr.neg).eval_eq]
  simp

theorem eval_cddIte {f : DdNode} (hf : L.WF f) (hl : L.WF l) (hr : L.WF r) (a : Assignment) :
    eval a (cddIte L f l r) = bif eval a f then eval a l else eval a r := by
  unfold cddIte
  rw [eval_cddOr (cddAnd_builds hf hl).wf (cddAnd_builds hf.neg hr).wf,
    (cddAnd_builds hf hl).eval_eq, (cddAnd_builds hf.neg hr).eval_eq, eval_neg]
  cases eval a f <;> simp

theorem holds_cddAnd (hl : L.WF l) (hr : L.WF r) :
    Holds L v (cddAnd L l r) ↔ Holds L v l ∧ Holds L v r := by
  unfold Holds
  rw [(cddAnd_builds hl hr).eval_eq, Bool.and_eq_true]

theorem holds_cddOr (hl : L.WF l) (hr : L.WF r) :
    Holds L v (cddOr L l r) ↔ Holds L v l ∨ Holds L v r := by
  unfold Holds
  rw [eval_cddOr hl hr, Bool.or_eq_true]

/-- A conjunction over a list. -/
theorem foldl_cddAnd_spec {α : Type} (f : α → DdNode) {rs : List α} (hrs : ∀ r ∈ rs, L.Proper (f r))
    (hd : L.Proper d) :
    L.Proper (rs.foldl (fun c r ↦ cddAnd L c (f r)) d) ∧
      ∀ a, eval a (rs.foldl (fun c r ↦ cddAnd L c (f r)) d) = true ↔
        eval a d = true ∧ ∀ r ∈ rs, eval a (f r) = true := by
  induction rs generalizing d with
  | nil => exact ⟨hd, by simp⟩
  | cons r rs ih =>
    obtain ⟨hr, hrs⟩ := List.forall_mem_cons.mp hrs
    obtain ⟨hp, h⟩ := ih hrs (hd.and hr)
    refine ⟨hp, ?_⟩
    intro a
    rw [List.foldl_cons, h, (cddAnd_builds hd.wf hr.wf).eval_eq, Bool.and_eq_true,
      List.forall_mem_cons, and_assoc]

/-! ### Constraints -/

theorem cddBddvar_builds {level : ℕ} (hk : L.levelinfo[level]? = some .bdd)
    (hlt : level < maxLevel) : Builds L 0 level (fun a ↦ a.bool level) (cddBddvar level) := by
  have hb : Builds L 0 level _ (cddMakeBddNode level cddfalse cddtrue) :=
    cddMakeBddNode_spec hk hlt hlt wf_cddfalse wf_cddtrue
  apply hb.congr
  intro a
  cases a.bool level <;> simp

theorem proper_cddBddvar {level : ℕ} (hk : L.levelinfo[level]? = some .bdd)
    (hlt : level < maxLevel) : L.Proper (cddBddvar level) :=
  ⟨(cddBddvar_builds hk hlt).wf, all_cddMakeBddNode trivial (.terminal _) (.terminal _)⟩

theorem holds_cddBddvar {level : ℕ} (hk : L.levelinfo[level]? = some .bdd)
    (hlt : level < maxLevel) : Holds L v (cddBddvar level) ↔ v.bool level = true := by
  unfold Holds
  rw [(cddBddvar_builds hk hlt).eval_eq]
  rfl

/-- A node on a Boolean level is built as an if-then-else. -/
theorem holds_cddIte_bddvar {level : ℕ} (hk : L.levelinfo[level]? = some .bdd)
    (hlt : level < maxLevel) (hl : L.WF l) (hr : L.WF r) :
    Holds L v (cddIte L (cddBddvar level) l r) ↔
      Holds L v (bif v.bool level then l else r) := by
  have hvar : Holds L v (cddBddvar level) ↔ v.bool level = true := holds_cddBddvar hk hlt
  unfold Holds at hvar ⊢
  rw [eval_cddIte (proper_cddBddvar hk hlt).wf hl hr]
  cases hb : v.bool level with
  | true =>
    rw [hvar.mpr hb]
    rfl
  | false =>
    have hnot : eval (v.assignment L) (cddBddvar level) = false :=
      Bool.eq_false_iff.mpr fun h ↦ by rw [hvar.mp h] at hb; cases hb
    rw [hnot]
    rfl

/-- A Boolean or its negation. -/
def boolLiteral (level : ℕ) (current : Bool) : DdNode :=
  if current then cddBddvar level else cddNeg (cddBddvar level)

theorem boolLiteral_spec (hlen : L.levelinfo.length ≤ maxLevel) {level : ℕ}
    (hk : L.levelinfo[level]? = some .bdd) (current : Bool) :
    L.Proper (boolLiteral level current) ∧
      ∀ a, eval a (boolLiteral level current) = true ↔ a.bool level = current := by
  have hlt : level < maxLevel := lt_of_lt_of_le (List.getElem?_eq_some_iff.mp hk).1 hlen
  have hp := proper_cddBddvar hk hlt
  have heval := (cddBddvar_builds hk hlt).eval_eq
  cases current with
  | true =>
    refine ⟨hp, ?_⟩
    intro a
    show eval a (cddBddvar level) = true ↔ _
    rw [heval]
  | false =>
    refine ⟨hp.neg, ?_⟩
    intro a
    show eval a (cddNeg (cddBddvar level)) = true ↔ _
    rw [eval_neg, heval, Bool.not_eq_true']

/-- The point lies in the interval from `low` to `high`. -/
def inPiece (c : Cut INF) (low high : Raw) : Bool :=
  (low = -INF || !c.below low) && c.below high

theorem inPiece_realCut {x : ℝ} {low high : Raw} :
    inPiece (realCut x) low high = true ↔ ¬ Below x low ∧ Below x high := by
  unfold inPiece
  simp only [Bool.and_eq_true, Bool.or_eq_true, decide_eq_true_eq, Bool.not_eq_true',
    ← Bool.not_eq_true, realCut_below]
  apply and_congr_left'
  constructor
  · rintro (rfl | hn)
    · exact not_below_neg_INF _
    · exact hn
  · exact Or.inr

/-- A CDD node over terminals. -/
theorem proper_terminals {level : ℕ} (es : List (Bool × Raw)) (hk : L.isCdd level)
    (hlt : level < maxLevel) (hp : Partition INF es) (ha : Alternating es) (h2 : 2 ≤ es.length)
    (hm : ∀ e ∈ es.head?, e.1 = false) (hr : ∀ e ∈ es, -INF < e.2) :
    L.Proper (.cdd false level (es.map fun e ↦ (.terminal e.1, e.2))) := by
  have hinj : Function.Injective DdNode.terminal := by
    intro b c h
    cases h
    rfl
  constructor
  · apply Library.WellFormed.cdd false hk _ (hp.map _) (ha.map hinj)
    · simpa using h2
    · intro e he
      rw [List.head?_map, Option.mem_map] at he
      obtain ⟨x, hx, rfl⟩ := he
      exact hm x hx
    · intro e he
      obtain ⟨x, -, rfl⟩ := List.mem_map.mp he
      exact .terminal _
    · intro e he
      obtain ⟨x, -, rfl⟩ := List.mem_map.mp he
      exact hlt
  · apply All.cdd _ trivial
    · intro e he
      obtain ⟨x, hx, rfl⟩ := List.mem_map.mp he
      exact hr x hx
    · intro e he
      obtain ⟨x, -, rfl⟩ := List.mem_map.mp he
      exact .terminal _

/-- The bounds of an interval that is neither empty nor the whole line. -/
structure Interval (low high : Raw) : Prop where
  lt : low < high
  proper : low ≠ -INF ∨ high ≠ INF

theorem Interval.upper {low high : Raw} (h : Interval low high) : -INF < high :=
  lt_of_le_of_lt (neg_INF_le low) h.lt

theorem cddIntervalFromLevel_spec {level : ℕ} {low high : Raw} (hk : L.isCdd level)
    (hlt : level < maxLevel) (h : Interval low high) :
    L.Proper (cddIntervalFromLevel level low high) ∧
      ∀ a : Assignment, eval a (cddIntervalFromLevel level low high) =
        inPiece (a.diff level) low high := by
  have hsize (n : ℕ) : ¬ (⊤ : ℕ∞) < n := not_lt.mpr le_top
  unfold cddIntervalFromLevel
  by_cases hlow : low = -INF
  · have hh : high < INF := Raw.lt_inf_iff.mpr (h.proper.resolve_left (fun hn ↦ hn hlow))
    rw [if_neg (not_lt.mpr (le_of_eq hlow))]
    have hmk : cddMakeCddNode ⊤ level [(cddfalse, high), (cddtrue, INF)] =
        some (.cdd false level [(cddfalse, high), (cddtrue, INF)]) := if_neg (hsize _)
    rw [hmk, Option.getD_some]
    constructor
    · apply Library.Proper.neg
      apply proper_terminals [(false, high), (true, INF)] hk hlt ⟨hh, rfl⟩
      · simp [Alternating]
      · simp
      · simp
      · simp only [List.mem_cons, List.not_mem_nil, or_false, forall_eq_or_imp, forall_eq]
        exact ⟨h.upper, neg_INF_lt⟩
    · intro a
      rw [eval_neg, eval, evalElem, evalElem, (a.diff level).top_below]
      cases hb : (a.diff level).below high <;> simp [inPiece, hlow, hb]
  · have hlt' : -INF < low := Raw.negInf_lt_iff.mpr hlow
    rw [if_pos hlt']
    by_cases hh : high < INF
    · rw [if_pos hh]
      have hmk : cddMakeCddNode ⊤ level [(cddfalse, low), (cddtrue, high), (cddfalse, INF)] =
          some (.cdd false level [(cddfalse, low), (cddtrue, high), (cddfalse, INF)]) :=
        if_neg (hsize _)
      rw [hmk, Option.getD_some]
      constructor
      · apply proper_terminals [(false, low), (true, high), (false, INF)] hk hlt
          ⟨h.lt, hh, rfl⟩
        · simp [Alternating]
        · simp
        · simp
        · simp only [List.mem_cons, List.not_mem_nil, or_false, forall_eq_or_imp, forall_eq]
          exact ⟨hlt', h.upper, neg_INF_lt⟩
      · intro a
        rw [eval, evalElem, evalElem, evalElem, (a.diff level).top_below]
        cases hb : (a.diff level).below low <;> cases hb' : (a.diff level).below high <;>
          simp [inPiece, hlow, hb, hb']
    · have hh' : high = INF := not_not.mp (mt Raw.lt_inf_iff.mpr hh)
      rw [if_neg hh]
      have hmk : cddMakeCddNode ⊤ level [(cddfalse, low), (cddtrue, high)] =
          some (.cdd false level [(cddfalse, low), (cddtrue, high)]) := if_neg (hsize _)
      rw [hmk, Option.getD_some]
      constructor
      · apply proper_terminals [(false, low), (true, high)] hk hlt ⟨h.lt, hh'⟩
        · simp [Alternating]
        · simp
        · simp
        · simp only [List.mem_cons, List.not_mem_nil, or_false, forall_eq_or_imp, forall_eq]
          exact ⟨hlt', h.upper⟩
      · intro a
        rw [eval, evalElem, evalElem, hh', (a.diff level).top_below]
        cases hb : (a.diff level).below low <;> simp [inPiece, hlow, hb, (a.diff level).top_below]

theorem all_cddIntervalFromLevel {P : ℕ → Prop} {Q : Raw → Prop} {level : ℕ} (hP : P level)
    (hQ : ∀ b, Q b) (low high : Raw) : All P Q (cddIntervalFromLevel level low high) := by
  have hmake (elem : List (DdNode × Raw)) (h : ∀ e ∈ elem, All P Q e.1) :
      All P Q ((cddMakeCddNode ⊤ level elem).getD cddfalse) := by
    cases hn : cddMakeCddNode ⊤ level elem with
    | none => exact .terminal _
    | some n => exact all_cddMakeCddNode hP hn fun e he ↦ ⟨hQ _, h e he⟩
  unfold cddIntervalFromLevel
  split
  · apply hmake
    intro e he
    split at he
    · simp only [List.mem_cons, List.not_mem_nil, or_false] at he
      rcases he with rfl | rfl | rfl <;> exact .terminal _
    · simp only [List.mem_cons, List.not_mem_nil, or_false] at he
      rcases he with rfl | rfl <;> exact .terminal _
  · apply All.negCond
    apply hmake
    intro e he
    simp only [List.mem_cons, List.not_mem_nil, or_false] at he
    rcases he with rfl | rfl <;> exact .terminal _

/-- An interval on the difference of two clocks. -/
theorem holds_cddIntervalFromLevel {level i j : ℕ} {low high : Raw}
    (hk : L.levelinfo[level]? = some (.cdd i j)) (hlt : level < maxLevel) (h : Interval low high) :
    Holds L v (cddIntervalFromLevel level low high) ↔
      ¬ Below (v.clock i - v.clock j) low ∧ Below (v.clock i - v.clock j) high := by
  have hdiff : (v.assignment L).diff level = realCut (v.clock i - v.clock j) := by
    rw [← diff_of_levelinfo hk]
    rfl
  unfold Holds
  rw [(cddIntervalFromLevel_spec ⟨i, j, hk⟩ hlt h).2, hdiff, inPiece_realCut]

/-- The interval of the negated difference. -/
theorem Interval.mirror {low high : Raw} (h : Interval low high) :
    Interval (bndU2l high) (bndL2u low) := by
  constructor
  · obtain ⟨t, hlow, hhigh⟩ := exists_between_cuts h.lt
    apply lt_of_not_ge
    intro hle
    have hup : Below (-t) (bndL2u low) := (below_bndL2u t low).mpr hlow
    exact (below_bndU2l t high).mp (hup.mono hle) hhigh
  · rw [or_comm]
    apply h.proper.imp
    · intro hlow
      cases low with
      | negInf => exact absurd rfl hlow
      | fin | inf => nofun
    · intro hhigh
      cases high with
      | inf => exact absurd rfl hhigh
      | fin | negInf => nofun

/-- The clocks may come in either order. -/
theorem cddInterval_spec (hL : L.Declared) (hlen : L.levelinfo.length ≤ maxLevel) {i j : ℕ}
    {low high : Raw} (hi : i < L.clocknum) (hj : j < L.clocknum) (hij : i ≠ j)
    (h : Interval low high) :
    L.Proper (cddInterval L i j low high) ∧ ∀ v, Holds L v (cddInterval L i j low high) ↔
      ¬ Below (v.clock i - v.clock j) low ∧ Below (v.clock i - v.clock j) high := by
  have hlevel {a b : ℕ} (hba : b < a) (ha : a < L.clocknum) :
      L.levelinfo[L.diff2level (cddDifference a b)]? = some (.cdd a b) ∧
        L.diff2level (cddDifference a b) < maxLevel := by
    have hab := hL.covers.level_of_pair a b ⟨hba, ha⟩
    exact ⟨hab, lt_of_lt_of_le (List.getElem?_eq_some_iff.mp hab).1 hlen⟩
  unfold cddInterval
  split
  · next hgt =>
    obtain ⟨hk, hlt⟩ := hlevel hgt hi
    exact ⟨(cddIntervalFromLevel_spec ⟨i, j, hk⟩ hlt h).1,
      fun _ ↦ holds_cddIntervalFromLevel hk hlt h⟩
  · obtain ⟨hk, hlt⟩ := hlevel (lt_of_le_of_ne (by omega) hij) hj
    refine ⟨(cddIntervalFromLevel_spec ⟨j, i, hk⟩ hlt h.mirror).1, ?_⟩
    intro v
    rw [holds_cddIntervalFromLevel hk hlt h.mirror, ← neg_sub, below_bndU2l, below_bndL2u, not_not,
      and_comm]

/-! ### The edges of a node as intervals -/

/-- The edges from `low` on, each with its lower bound. -/
def pieces : Raw → List (DdNode × Raw) → List (Raw × DdNode × Raw)
  | _, [] => []
  | low, (d, b) :: es => (low, d, b) :: pieces b es

theorem mem_of_mem_pieces {low : Raw} {es : List (DdNode × Raw)} {p : Raw × DdNode × Raw}
    (h : p ∈ pieces low es) : p.2 ∈ es := by
  induction es generalizing low with
  | nil => cases h
  | cons e es ih =>
    rcases List.mem_cons.mp h with rfl | h
    · exact List.mem_cons_self
    · exact List.mem_cons_of_mem _ (ih h)

/-- The edges of a well-formed node are proper intervals. -/
theorem interval_of_mem_pieces {low : Raw} {es : List (DdNode × Raw)} (hp : Partition INF es)
    (hlow : ∀ e ∈ es.head?, low < e.2) (h2 : low = -INF → 2 ≤ es.length) :
    ∀ p ∈ pieces low es, Interval p.1 p.2.2 := by
  induction es generalizing low with
  | nil => exact absurd hp id
  | cons e es ih =>
    obtain ⟨d, b⟩ := e
    have hlb : low < b := hlow (d, b) rfl
    intro p hmem
    rcases List.mem_cons.mp hmem with rfl | hmem
    · refine ⟨hlb, ?_⟩
      by_cases hl : low = -INF
      · right
        cases es with
        | nil => exact absurd (h2 hl) (by simp)
        | cons e' es => exact ne_of_lt (lt_of_lt_of_le hp.1 (le_INF _))
      · exact Or.inl hl
    · cases es with
      | nil => cases hmem
      | cons e' es =>
        apply ih hp.2 _ _ p hmem
        · rintro x ⟨⟩
          exact hp.1
        · intro hb
          exact absurd (hb ▸ hlb) (not_lt.mpr (neg_INF_le low))

/-- The point selects the edge whose interval it lies in. -/
theorem evalElem_pieces {low : Raw} {es : List (DdNode × Raw)} (hp : Partition INF es)
    (hlow : ∀ e ∈ es.head?, low < e.2) (hr : ∀ e ∈ es, -INF < e.2) (a : Assignment) (c : Cut INF)
    (m : Bool) :
    (low = -INF ∨ c.below low = false) ∧ (evalElem a c es ^^ m) = true ↔
      ∃ p ∈ pieces low es, inPiece c p.1 p.2.2 = true ∧ eval a (cddNegCond p.2.1 m) = true := by
  induction es generalizing low with
  | nil => exact absurd hp id
  | cons e es ih =>
    obtain ⟨d, b⟩ := e
    have hlb : low < b := hlow (d, b) rfl
    have hbne : b ≠ -INF := ne_of_gt (hr (d, b) (by simp))
    simp only [pieces, List.mem_cons, exists_eq_or_imp, eval_negCond]
    cases hb : c.below b with
    | true =>
      have htail : ¬ ∃ p ∈ pieces b es, inPiece c p.1 p.2.2 = true ∧ (eval a p.2.1 ^^ m) = true := by
        cases es with
        | nil => simp [pieces]
        | cons e' es =>
          have hhead : ∀ x ∈ (e' :: es).head?, b < x.2 := by
            rintro x ⟨⟩
            exact hp.1
          have hih := ih hp.2 hhead fun x hx ↦ hr x (List.mem_cons_of_mem _ hx)
          simp only [eval_negCond] at hih
          rw [← hih]
          simp [hbne, hb]
      rw [evalElem_of_below es hb, or_iff_left htail]
      simp [inPiece, hb]
    | false =>
      have hlf : c.below low = false := by
        by_contra h
        have := c.mono (le_of_lt hlb) (Bool.of_not_eq_false h)
        rw [hb] at this
        cases this
      have hhead : ¬ (inPiece c low b = true ∧ (eval a d ^^ m) = true) := by
        simp [inPiece, hb]
      rw [evalElem_of_not_below es hb, or_iff_right hhead]
      cases es with
      | nil =>
        have hbi : b = INF := hp
        rw [hbi, c.top_below] at hb
        cases hb
      | cons e' es =>
        have hhead : ∀ x ∈ (e' :: es).head?, b < x.2 := by
          rintro x ⟨⟩
          exact hp.1
        have hih := ih hp.2 hhead fun x hx ↦ hr x (List.mem_cons_of_mem _ hx)
        simp only [eval_negCond] at hih
        rw [← hih]
        simp [hb, hlf]

/-- A CDD node holds where the child of the interval of the difference does. -/
theorem holds_pieces {neg : Bool} {level i j : ℕ} {elem : List (DdNode × Raw)}
    (h : L.Proper (.cdd neg level elem)) (hk : L.levelinfo[level]? = some (.cdd i j)) :
    Holds L v (.cdd neg level elem) ↔ ∃ p ∈ pieces (-INF) elem,
      (¬ Below (v.clock i - v.clock j) p.1 ∧ Below (v.clock i - v.clock j) p.2.2) ∧
        Holds L v (cddNegCond p.2.1 neg) := by
  obtain ⟨-, hr, -⟩ := h.inRange.of_cdd
  have hp : Partition INF elem := by
    cases h.wf with
    | cdd _ _ _ hp => exact hp
  have hhead : ∀ e ∈ elem.head?, -INF < e.2 := fun e he ↦ hr e (List.mem_of_mem_head? he)
  have hpieces := evalElem_pieces hp hhead hr (v.assignment L) ((v.assignment L).diff level) neg
  have hdiff : (v.assignment L).diff level = realCut (v.clock i - v.clock j) := by
    rw [← diff_of_levelinfo hk]
    rfl
  rw [hdiff] at hpieces
  simp only [true_or, true_and, inPiece_realCut] at hpieces
  unfold Holds
  rw [eval, hdiff, Bool.xor_comm]
  exact hpieces

/-- The intervals of the edges cover the line, and the child of each decides on it. -/
theorem holds_pieces_forall {neg : Bool} {level i j : ℕ} {elem : List (DdNode × Raw)}
    (h : L.Proper (.cdd neg level elem)) (hk : L.levelinfo[level]? = some (.cdd i j)) :
    Holds L v (.cdd neg level elem) ↔ ∀ p ∈ pieces (-INF) elem,
      ¬ Below (v.clock i - v.clock j) p.1 → Below (v.clock i - v.clock j) p.2.2 →
        Holds L v (cddNegCond p.2.1 neg) := by
  have hneg : ¬ Holds L v (.cdd neg level elem) ↔ ∃ p ∈ pieces (-INF) elem,
      (¬ Below (v.clock i - v.clock j) p.1 ∧ Below (v.clock i - v.clock j) p.2.2) ∧
        ¬ Holds L v (cddNegCond p.2.1 neg) := by
    have hchild (c : DdNode) : Holds L v (cddNegCond c (neg ^^ true)) ↔
        ¬ Holds L v (cddNegCond c neg) := by
      rw [← cddNegCond_negCond]
      exact holds_cddNeg
    rw [← holds_cddNeg]
    show Holds L v (.cdd (neg ^^ true) level elem) ↔ _
    rw [holds_pieces h.neg hk]
    simp only [hchild]
  constructor
  · intro hd p hp hlow hup
    by_contra hnot
    exact hneg.mpr ⟨p, hp, ⟨hlow, hup⟩, hnot⟩ hd
  · intro hall
    by_contra hd
    obtain ⟨p, hp, ⟨hlow, hup⟩, hnot⟩ := hneg.mp hd
    exact hnot (hall p hp hlow hup)

/-- The difference is in the interval of an edge. -/
theorem exists_piece {neg : Bool} {level i j : ℕ} {elem : List (DdNode × Raw)}
    (h : L.Proper (.cdd neg level elem)) (hk : L.levelinfo[level]? = some (.cdd i j))
    (x : ℕ → ℝ) :
    ∃ p ∈ pieces (-INF) elem, ¬ Below (x i - x j) p.1 ∧ Below (x i - x j) p.2.2 := by
  by_contra hnone
  push Not at hnone
  have hfalse : ¬ Holds L ⟨x, fun _ ↦ false⟩ (.cdd neg level elem) := by
    rw [holds_pieces h hk]
    exact fun ⟨p, hp, hin, _⟩ ↦ hnone p hp hin.1 hin.2
  exact hfalse ((holds_pieces_forall h hk).mpr fun p hp hlow hup ↦ absurd hup (hnone p hp hlow))

end

end UCDD

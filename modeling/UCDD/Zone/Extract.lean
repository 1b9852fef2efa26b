import UCDD.Reduce.Correct
import UCDD.Zone.FromDbm

/-!
# Extracting a zone

`cdd_remove_negative`, `cdd_extract_dbm` and `cdd_extract_bdd`, `cddop.c:1117–1205`. Both
extractions walk down the first edges that are not false. The clock constraints on the way make
a zone; what is below the last of them is its Boolean part. A failed assertion is `none`.
-/

namespace UCDD

open IntervalMap DdNode

/-- `cdd_remove_negative`. -/
def cddRemoveNegative (L : Library) (cdd : DdNode) : DdNode :=
  (List.range' 1 (L.clocknum - 1)).foldl (fun result i ↦ cddAnd L result (cddInterval L i 0 0 INF))
    cdd

/-- The edge that `cdd_it_init`, and `cdd_it_next` when the first child is false, stops at. -/
def firstEdge (neg : Bool) : List (DdNode × Raw) → Option (Raw × DdNode × Raw)
  | [] => none
  | (child, bnd) :: es =>
    if cddEvalFalse (cddNegCond child neg) then
      match es with
      | [] => none
      | (child', bnd') :: _ => some (bnd, cddNegCond child' neg, bnd')
    else some (-INF, cddNegCond child neg, bnd)

/-- A constraint on the way down. -/
structure Constraint where
  clock1 : ℕ
  clock2 : ℕ
  lower : Raw
  upper : Raw

/-- The walk of both extractions: the constraints on the way and where it ends. There is one step
for each node on the way, so the height of the diagram is fuel enough. -/
def firstPath (L : Library) (dim : ℕ) : ℕ → DdNode → Option (List Constraint × DdNode)
  | 0, node => some ([], node)
  | fuel + 1, node =>
    match node with
    | .cdd neg level elem =>
      match L.levelinfo[level]? with
      | some (.cdd i j) =>
        if i < dim ∧ j < dim then
          match firstEdge neg elem with
          | some (lower, child, upper) =>
            if child = cddfalse then none
            else (firstPath L dim fuel child).map fun p ↦ (⟨i, j, lower, upper⟩ :: p.1, p.2)
          | none => none
        else none
      | _ => none
    | _ => some ([], node)

/-- `cdd_extract_bdd`. -/
def cddExtractBdd (L : Library) (cdd : DdNode) (dim : ℕ) : Option DdNode := do
  let (_, node) ← firstPath L dim cdd.height cdd
  return if cddIsterminal node then cddtrue else node

/-- The two calls of `dbm_constrain` for one edge. -/
def constrainBoth (U : Udbm) (dim : ℕ) (s : Dbm × (ℕ → Bool)) (c : Constraint) :
    Dbm × (ℕ → Bool) :=
  U.dbmConstrain dim c.clock1 c.clock2 c.upper
    (U.dbmConstrain dim c.clock2 c.clock1 (bndL2u c.lower) s)

/-- `cdd_extract_dbm`: the rest of the diagram, and the matrix. -/
def cddExtractDbm (L : Library) (U : Udbm) (cdd : DdNode) (dim : ℕ) : Option (DdNode × Dbm) := do
  let (constraints, _) ← firstPath L dim cdd.height cdd
  let dbm := U.dbmClosex dim
    (constraints.foldl (constrainBoth U dim) (U.dbmInit dim, fun _ ↦ false))
  if U.dbmIsValid dim dbm then
    some (cddAnd L cdd (cddNeg (cddFromDbm L U dbm dim)), dbm)
  else none

/-! ### Removing negative clocks -/

/-- No clock is negative. -/
def Valuation.NonNegative (L : Library) (v : Valuation) : Prop := v.clock ∈ orthant L.clocknum

/-- The diagram holds at non-negative valuations only. -/
def NonNegativeOnly (L : Library) (d : DdNode) : Prop := ∀ v, Holds L v d → v.NonNegative L

section

variable {L : Library} {d : DdNode}

/-- The bound `0` as a lower bound. -/
theorem not_below_zero {x : ℝ} : ¬ Below x 0 ↔ 0 ≤ x := by
  have : Below x 0 ↔ x < ((0 : ℤ) : ℝ) := upperSat_even x 0
  rw [this, Int.cast_zero, not_lt]

/-- Each level between a clock and clock 0 has a value that is not negative. -/
def Assignment.NonNegative (L : Library) (a : Assignment) : Prop :=
  ∀ i, 0 < i → i < L.clocknum → (a.diff (L.diff2level (cddDifference i 0))).below 0 = false

theorem nonNegative_assignment (hL : L.Declared) {v : Valuation} :
    (v.assignment L).NonNegative L ↔ v.NonNegative L := by
  have hlevel {i : ℕ} (h0 : 0 < i) (hi : i < L.clocknum) :
      ((v.assignment L).diff (L.diff2level (cddDifference i 0))).below 0 = false ↔
        v.clock 0 ≤ v.clock i := by
    have hk := hL.covers.level_of_pair i 0 ⟨h0, hi⟩
    show (realCut (L.diff v.clock _)).below 0 = false ↔ _
    rw [diff_of_levelinfo hk, ← Bool.not_eq_true, realCut_below, not_below_zero, sub_nonneg]
  constructor
  · intro h i hi
    cases Nat.eq_zero_or_pos i with
    | inl h0 => rw [h0]
    | inr h0 => exact (hlevel h0 hi).mp (h i h0 hi)
  · intro h i h0 hi
    exact (hlevel h0 hi).mpr (h i hi)

/-- `cdd_remove_negative` over independent values of the levels. -/
theorem eval_cddRemoveNegative (hL : L.Declared) (hlen : L.levelinfo.length ≤ maxLevel)
    (hd : L.Proper d) :
    L.Proper (cddRemoveNegative L d) ∧
      ∀ a, eval a (cddRemoveNegative L d) = true ↔ eval a d = true ∧ a.NonNegative L := by
  have hint : Interval 0 INF := ⟨Raw.fin_lt_inf 0, Or.inl (by decide)⟩
  have hclock (i : ℕ) (hi : i ∈ List.range' 1 (L.clocknum - 1)) :
      L.Proper (cddInterval L i 0 0 INF) ∧ ∀ a : Assignment,
        eval a (cddInterval L i 0 0 INF) = true ↔
          (a.diff (L.diff2level (cddDifference i 0))).below 0 = false := by
    rw [List.mem_range'_1] at hi
    have h0 : 0 < i := by omega
    have hk := hL.covers.level_of_pair i 0 ⟨h0, by omega⟩
    have hlt : L.diff2level (cddDifference i 0) < maxLevel :=
      lt_of_lt_of_le (List.getElem?_eq_some_iff.mp hk).1 hlen
    obtain ⟨hp, heval⟩ := cddIntervalFromLevel_spec ⟨i, 0, hk⟩ hlt hint
    rw [cddInterval, if_pos h0]
    refine ⟨hp, ?_⟩
    intro a
    have h0 : (0 : Raw) ≠ -INF := by decide
    rw [heval]
    simp [inPiece, h0, (a.diff _).top_below]
  obtain ⟨hp, h⟩ := foldl_cddAnd_spec (fun i ↦ cddInterval L i 0 0 INF)
    (fun i hi ↦ (hclock i hi).1) hd
  refine ⟨hp, ?_⟩
  intro a
  rw [cddRemoveNegative, h]
  apply and_congr_right'
  constructor
  · intro ha i h0 hi
    have hmem : i ∈ List.range' 1 (L.clocknum - 1) := by
      rw [List.mem_range'_1]
      omega
    exact ((hclock i hmem).2 a).mp (ha i hmem)
  · intro ha i hi
    have hi' := List.mem_range'_1.mp hi
    exact ((hclock i hi).2 a).mpr (ha i (by omega) (by omega))

/-- `cdd_remove_negative` keeps the non-negative valuations. -/
theorem cddRemoveNegative_spec (hL : L.Declared) (hlen : L.levelinfo.length ≤ maxLevel)
    (hd : L.Proper d) :
    L.Proper (cddRemoveNegative L d) ∧
      ∀ v, Holds L v (cddRemoveNegative L d) ↔ Holds L v d ∧ v.NonNegative L := by
  obtain ⟨hp, h⟩ := eval_cddRemoveNegative hL hlen hd
  refine ⟨hp, ?_⟩
  intro v
  rw [← nonNegative_assignment hL]
  exact h (v.assignment L)

end

/-! ### The walk -/

/-- The clock valuations that meet the constraints of a walk. -/
def pathZone (cs : List Constraint) : Set (ℕ → ℝ) :=
  {x | ∀ c ∈ cs, ¬ Below (x c.clock1 - x c.clock2) c.lower ∧
    Below (x c.clock1 - x c.clock2) c.upper}

/-- The constraint is one that `dbm_constrain` takes. -/
structure Constraint.Proper (L : Library) (c : Constraint) : Prop where
  clock1_lt : c.clock1 < L.clocknum
  clock2_lt : c.clock2 < c.clock1
  lower_lt : c.lower < INF
  upper_gt : -INF < c.upper

/-- The root is a node of a clock level. -/
def isCddNode : DdNode → Bool
  | .cdd .. => true
  | _ => false

section

variable {L : Library}

theorem cddEvalFalse_iff {d : DdNode} (h : L.WF d) : cddEvalFalse d = true ↔ d = cddfalse := by
  have : cddIsExtraTerminal d = false := by
    cases h with
    | terminal => rfl
    | xterm _ hid => exact absurd hid (Nat.not_lt_zero _)
    | bdd => rfl
    | cdd => rfl
  rw [cddEvalFalse, this, Bool.false_and, Bool.or_false, decide_eq_true_eq]

/-- The edge the walk takes. -/
private structure FirstEdge (L : Library) (neg : Bool) (level : ℕ) (elem : List (DdNode × Raw))
    (lower : Raw) (e : DdNode) (upper : Raw) : Prop where
  eq : firstEdge neg elem = some (lower, cddNegCond e neg, upper)
  mem : (e, upper) ∈ elem
  ne : cddNegCond e neg ≠ cddfalse
  lt : lower < upper
  steps : ∀ p ∈ paths e, .cdd level lower upper :: p ∈ paths (.cdd neg level elem)
  eval_eq : ∀ a : Assignment, (lower = -INF ∨ (a.diff level).below lower = false) →
    (a.diff level).below upper = true →
    eval a (.cdd neg level elem) = eval a (cddNegCond e neg)

private theorem firstEdge_spec {neg : Bool} {level : ℕ} {elem : List (DdNode × Raw)}
    (hd : L.Proper (.cdd neg level elem)) :
    ∃ lower e upper, FirstEdge L neg level elem lower e upper := by
  obtain ⟨-, hr, -⟩ := hd.inRange.of_cdd
  obtain ⟨hp, ha, h2, hw⟩ : Partition INF elem ∧ Alternating elem ∧ 2 ≤ elem.length ∧
      ∀ e ∈ elem, L.WF e.1 := by
    cases hd.wf with
    | cdd _ _ _ hp ha h2 _ hw => exact ⟨hp, ha, h2, hw⟩
  cases elem with
  | nil => simp at h2
  | cons e elem =>
    obtain ⟨d, b⟩ := e
    have hfalse := cddEvalFalse_iff ((hw (d, b) (by simp)).negCond neg)
    by_cases hd0 : cddNegCond d neg = cddfalse
    · cases elem with
      | nil => simp at h2
      | cons e' elem =>
        obtain ⟨d', b'⟩ := e'
        have hne : d ≠ d' := (List.isChain_cons_cons.mp ha).1
        refine ⟨b, d', b', ?_, by simp, ?_, hp.1, ?_, ?_⟩
        · simp only [firstEdge, if_pos (hfalse.mpr hd0)]
        · intro h
          exact hne (cddNegCond_injective neg (hd0.trans h.symm))
        · intro p hp'
          rw [paths, pathsElem, pathsElem]
          apply List.mem_append_right
          apply List.mem_append_left
          exact List.mem_map_of_mem hp'
        · intro a hlow hup
          have hlow' : (a.diff level).below b = false := by
            cases hlow with
            | inl h => exact absurd h (ne_of_gt (hr (d, b) (by simp)))
            | inr h => exact h
          rw [eval, evalElem_of_not_below _ hlow', evalElem_of_below _ hup, eval_negCond,
            Bool.xor_comm]
    · refine ⟨-INF, d, b, ?_, by simp, hd0, hr (d, b) (by simp), ?_, ?_⟩
      · simp only [firstEdge, if_neg (mt hfalse.mp hd0)]
      · intro p hp'
        rw [paths, pathsElem]
        apply List.mem_append_left
        exact List.mem_map_of_mem hp'
      · intro a _ hup
        rw [eval, evalElem_of_below _ hup, eval_negCond, Bool.xor_comm]

/-- Where the walk ends, and what it passes. -/
structure FirstPath (L : Library) (d : DdNode) (cs : List Constraint) (n : DdNode) : Prop where
  proper : L.Proper n
  not_cdd : isCddNode n = false
  level_le : d.level ≤ n.level
  eq_cddfalse : n = cddfalse → d = cddfalse
  nil_iff : cs = [] ↔ isCddNode d = false
  constraints : ∀ c ∈ cs, c.Proper L
  holds_iff : ∀ v : Valuation, v.clock ∈ pathZone cs → (Holds L v d ↔ Holds L v n)
  path : ∀ q ∈ paths n, ∃ p ∈ paths d, ∀ x, (∀ s ∈ p, L.MeetsStep x s) →
    x ∈ pathZone cs ∧ ∀ s ∈ q, L.MeetsStep x s

private theorem firstPath_stop {d : DdNode} (hd : L.Proper d) (hcdd : isCddNode d = false) :
    FirstPath L d [] d := by
  refine ⟨hd, hcdd, le_rfl, fun h ↦ h, by simp [hcdd], by simp, fun _ _ ↦ Iff.rfl, ?_⟩
  intro q hq
  refine ⟨q, hq, fun x hx ↦ ⟨?_, hx⟩⟩
  intro c hc
  cases hc

theorem firstPath_spec (hL : L.Declared) {d : DdNode} (hd : L.Proper d) {fuel : ℕ}
    (hfuel : d.height ≤ fuel) :
    ∃ cs n, firstPath L L.clocknum fuel d = some (cs, n) ∧ FirstPath L d cs n := by
  induction fuel generalizing d with
  | zero =>
    have hcdd : isCddNode d = false := by
      cases d with
      | cdd => simp [height] at hfuel
      | terminal | xterm | bdd => rfl
    exact ⟨[], d, rfl, firstPath_stop hd hcdd⟩
  | succ fuel ih =>
    cases d with
    | terminal | xterm | bdd => exact ⟨[], _, rfl, firstPath_stop hd rfl⟩
    | cdd neg level elem =>
      obtain ⟨lower, e, upper, hedge⟩ := firstEdge_spec hd
      obtain ⟨⟨i, j, hk⟩, hlev, hw⟩ : L.isCdd level ∧ (∀ e ∈ elem, level < e.1.level) ∧
          ∀ e ∈ elem, L.WF e.1 := by
        cases hd.wf with
        | cdd _ hk hl _ _ _ _ hw => exact ⟨hk, hl, hw⟩
      obtain ⟨-, -, hrs⟩ := hd.inRange.of_cdd
      obtain ⟨⟨hji, hi⟩, -⟩ := hL.covers.pair_of_level level i j hk
      have hpe : L.Proper (cddNegCond e neg) :=
        ⟨(hw _ hedge.mem).negCond neg, (hrs _ hedge.mem).negCond neg⟩
      have hheight : e.height < (DdNode.cdd neg level elem).height := height_lt_of_mem _ hedge.mem
      have hle : (cddNegCond e neg).height ≤ fuel := by
        rw [height_negCond]
        omega
      obtain ⟨cs, n, hwalk, hpath⟩ := ih hpe hle
      refine ⟨⟨i, j, lower, upper⟩ :: cs, n, ?_, hpath.proper, hpath.not_cdd, ?_, ?_, ?_, ?_, ?_, ?_⟩
      · have hdim : i < L.clocknum ∧ j < L.clocknum := ⟨hi, by omega⟩
        rw [firstPath]
        simp only [hk, if_pos hdim, hedge.eq, if_neg hedge.ne, hwalk, Option.map_some]
      · have h1 := hlev _ hedge.mem
        have h2 := hpath.level_le
        rw [level_negCond] at h2
        exact le_of_lt (lt_of_lt_of_le h1 h2)
      · intro h
        exact absurd (hpath.eq_cddfalse h) hedge.ne
      · simp [isCddNode]
      · intro c hc
        cases List.mem_cons.mp hc with
        | inl h =>
          rw [h]
          exact ⟨hi, hji, lt_of_lt_of_le hedge.lt (le_INF _), lt_of_le_of_lt (neg_INF_le _) hedge.lt⟩
        | inr h => exact hpath.constraints c h
      · intro v hv
        obtain ⟨⟨hlow, hup⟩, hrest⟩ := List.forall_mem_cons.mp hv
        rw [← diff_of_levelinfo hk] at hlow hup
        have heval := hedge.eval_eq (v.assignment L) (Or.inr (assignment_not_below.mpr hlow))
          (assignment_below.mpr hup)
        rw [Holds, heval]
        exact hpath.holds_iff v hrest
      · intro q hq
        obtain ⟨p, hp, hmeets⟩ := hpath.path q hq
        rw [paths_negCond] at hp
        refine ⟨_, hedge.steps p hp, ?_⟩
        intro x hx
        obtain ⟨hs, hrest⟩ := List.forall_mem_cons.mp hx
        have hs' : ¬ Below (L.diff x level) lower ∧ Below (L.diff x level) upper := hs
        rw [diff_of_levelinfo hk] at hs'
        obtain ⟨hzone, hq⟩ := hmeets x hrest
        exact ⟨List.forall_mem_cons.mpr ⟨hs', hzone⟩, hq⟩

/-! ### Boolean diagrams -/

/-- Every node is on a Boolean level. -/
abbrev BooleanOnly (L : Library) : DdNode → Prop :=
  All (fun ℓ ↦ L.levelinfo[ℓ]? = some .bdd) fun _ ↦ True

/-- Below a Boolean level there is no clock level. -/
theorem booleanOnly_of_not_cdd (hCF : L.ClocksFirst) {d : DdNode} (h : L.WF d)
    (hd : isCddNode d = false) : BooleanOnly L d := by
  induction h with
  | terminal neg => exact .terminal neg
  | xterm neg _ => exact .xterm neg _
  | cdd => cases hd
  | @bdd neg level low high hk hl hh _ _ hwl hwh ihl ihh =>
    have hchild {c : DdNode} (hc : L.WF c) (hlt : level < c.level) : isCddNode c = false := by
      cases hc with
      | terminal | xterm | bdd => rfl
      | @cdd neg' level' elem' hk' =>
        obtain ⟨i, j, hij⟩ := hk'
        have hlt' : level < level' := hlt
        have := hCF level' level i j hij hk
        omega
    exact .bdd neg hk (ihl (hchild hwl hl)) (ihh (hchild hwh hh))

theorem eval_congr_bool {d : DdNode} (h : L.WF d) (hd : BooleanOnly L d) {a a' : Assignment}
    (ha : a.bool = a'.bool) : eval a d = eval a' d := by
  induction h with
  | terminal | xterm => simp [eval]
  | bdd neg _ _ _ _ _ _ _ ihl ihh =>
    obtain ⟨-, hl, hh⟩ := hd.of_bdd
    rw [eval, eval, ihl hl, ihh hh, ha]
  | cdd neg hk =>
    obtain ⟨hb, -, -⟩ := hd.of_cdd
    obtain ⟨i, j, hij⟩ := hk
    rw [hij] at hb
    cases hb

theorem holds_congr_bool {d : DdNode} (h : L.WF d) (hd : BooleanOnly L d) {v v' : Valuation}
    (hv : v.bool = v'.bool) : Holds L v d ↔ Holds L v' d := by
  have : eval (v.assignment L) d = eval (v'.assignment L) d := eval_congr_bool h hd hv
  rw [Holds, Holds, this]

/-- A well-formed diagram other than `cddfalse` is true under some assignment. -/
theorem exists_eval_true {d : DdNode} (h : L.WF d) (hne : d ≠ cddfalse) :
    ∃ a, eval a d = true := by
  by_contra hnot
  apply hne
  apply eq_of_eval_eq h wf_cddfalse
  intro a
  rw [eval_cddfalse]
  exact Bool.eq_false_iff.mpr fun ha ↦ hnot ⟨a, ha⟩

/-- A Boolean diagram other than `cddfalse` holds with some Booleans, whatever the clocks. -/
theorem exists_holds_bool {d : DdNode} (h : L.WF d) (hd : BooleanOnly L d) (hne : d ≠ cddfalse) :
    ∃ b, ∀ x, Holds L ⟨x, b⟩ d := by
  obtain ⟨a, ha⟩ := exists_eval_true h hne
  use a.bool
  intro x
  rw [Holds, ← ha]
  exact eval_congr_bool h hd rfl

/-! ### Extraction -/

variable {U : Udbm}

private theorem constrained_both {dim : ℕ} {s : Dbm × (ℕ → Bool)} {Z : Set (ℕ → ℝ)}
    {c : Constraint} (hs : U.Constrained dim s Z) (hc : c.Proper L) (h1 : c.clock1 < dim) :
    U.Constrained dim (constrainBoth U dim s c)
      {x | x ∈ Z ∧ ¬ Below (x c.clock1 - x c.clock2) c.lower ∧
        Below (x c.clock1 - x c.clock2) c.upper} := by
  have h2 : c.clock2 < dim := lt_trans hc.clock2_lt h1
  have hne : c.clock1 ≠ c.clock2 := ne_of_gt hc.clock2_lt
  have hlow : -INF < bndL2u c.lower := by
    cases hcl : c.lower with
    | negInf => exact neg_INF_lt
    | fin b => exact Raw.negInf_lt_fin _
    | inf => exact absurd (hcl ▸ hc.lower_lt) (lt_irrefl _)
  have h := (hs.constrain h2 h1 hne.symm hlow).constrain h1 h2 hne hc.upper_gt
  have hset : {x | x ∈ {x | x ∈ Z ∧ Below (x c.clock2 - x c.clock1) (bndL2u c.lower)} ∧
      Below (x c.clock1 - x c.clock2) c.upper} =
      {x | x ∈ Z ∧ ¬ Below (x c.clock1 - x c.clock2) c.lower ∧
        Below (x c.clock1 - x c.clock2) c.upper} := by
    ext x
    have hiff : Below (x c.clock2 - x c.clock1) (bndL2u c.lower) ↔
        ¬ Below (x c.clock1 - x c.clock2) c.lower := by
      rw [← neg_sub, below_bndL2u]
    constructor
    · rintro ⟨⟨hx, hl⟩, hu⟩
      exact ⟨hx, hiff.mp hl, hu⟩
    · rintro ⟨hx, hl, hu⟩
      exact ⟨⟨hx, hiff.mpr hl⟩, hu⟩
  rw [← hset]
  exact h

/-- Constraining along a path. -/
theorem constrained_path {dim : ℕ} {s : Dbm × (ℕ → Bool)} {Z : Set (ℕ → ℝ)} {cs : List Constraint}
    (hs : U.Constrained dim s Z) (hcs : ∀ c ∈ cs, c.Proper L ∧ c.clock1 < dim) :
    U.Constrained dim (cs.foldl (constrainBoth U dim) s) (Z ∩ pathZone cs) := by
  induction cs generalizing s Z with
  | nil =>
    have : Z ∩ pathZone [] = Z := by
      ext x
      simp [pathZone]
    rw [this]
    exact hs
  | cons c cs ih =>
    obtain ⟨hc, hcs⟩ := List.forall_mem_cons.mp hcs
    have h := ih (constrained_both hs hc.1 hc.2) hcs
    have hset : Z ∩ pathZone (c :: cs) =
        {x | x ∈ Z ∧ ¬ Below (x c.clock1 - x c.clock2) c.lower ∧
          Below (x c.clock1 - x c.clock2) c.upper} ∩ pathZone cs := by
      ext x
      constructor
      · rintro ⟨hx, hp⟩
        obtain ⟨h1, h2⟩ := List.forall_mem_cons.mp hp
        exact ⟨⟨hx, h1⟩, h2⟩
      · rintro ⟨⟨hx, h1⟩, h2⟩
        exact ⟨hx, List.forall_mem_cons.mpr ⟨h1, h2⟩⟩
    rw [hset]
    exact h

/-- The non-negative clock valuations that follow the first edges that are not false. -/
def firstZone (L : Library) (d : DdNode) : Set (ℕ → ℝ) :=
  {x | x ∈ orthant L.clocknum ∧
    ∃ p, firstPath L L.clocknum d.height d = some p ∧ x ∈ pathZone p.1}

/-- What the two extractions return. -/
structure Extracted (L : Library) (U : Udbm) (d bottom rest : DdNode) (dbm : Dbm) : Prop where
  extractBdd : cddExtractBdd L d L.clocknum = some bottom
  extractDbm : cddExtractDbm L U d L.clocknum = some (rest, dbm)
  bottom_proper : L.Proper bottom
  bottom_bool : BooleanOnly L bottom
  bottom_ne : bottom ≠ cddfalse
  rest_proper : L.Proper rest
  valid : U.Valid L.clocknum dbm
  zone_eq : dbm.zone L.clocknum = firstZone L d
  rest_iff : ∀ v, Holds L v rest ↔ Holds L v d ∧ v.clock ∉ firstZone L d
  bottom_iff : d ≠ cddfalse → ∀ v, v.clock ∈ firstZone L d → (Holds L v d ↔ Holds L v bottom)

/-- What the two extractions return, whatever the order of the levels. -/
structure Taken (L : Library) (U : Udbm) (d bottom rest : DdNode) (dbm : Dbm) : Prop where
  extractBdd : cddExtractBdd L d L.clocknum = some bottom
  extractDbm : cddExtractDbm L U d L.clocknum = some (rest, dbm)
  bottom_proper : L.Proper bottom
  bottom_not_cdd : isCddNode bottom = false
  bottom_ne : bottom ≠ cddfalse
  rest_proper : L.Proper rest
  valid : U.Valid L.clocknum dbm
  zone_eq : dbm.zone L.clocknum = firstZone L d
  rest_iff : ∀ v, Holds L v rest ↔ Holds L v d ∧ v.clock ∉ firstZone L d
  bottom_iff : d ≠ cddfalse → ∀ v, v.clock ∈ firstZone L d → (Holds L v d ↔ Holds L v bottom)

/-- Extraction succeeds exactly when the first path is met by a non-negative valuation. -/
theorem taken_spec (hL : L.Declared) (hlen : L.levelinfo.length ≤ maxLevel)
    (hU : U.Exact L.clocknum) {d : DdNode} (hd : L.Proper d) :
    ((firstZone L d).Nonempty → ∃ bottom rest dbm, Taken L U d bottom rest dbm) ∧
      (¬ (firstZone L d).Nonempty → cddExtractDbm L U d L.clocknum = none) := by
  obtain ⟨cs, n, hwalk, hpath⟩ := firstPath_spec hL hd le_rfl
  have hzone : firstZone L d = orthant L.clocknum ∩ pathZone cs := by
    ext x
    constructor
    · rintro ⟨hx, p, hp, hxp⟩
      rw [hwalk] at hp
      cases hp
      exact ⟨hx, hxp⟩
    · rintro ⟨hx, hxp⟩
      exact ⟨hx, _, hwalk, hxp⟩
  have hinit : U.Constrained L.clocknum (U.dbmInit L.clocknum, fun _ ↦ false) (orthant L.clocknum) :=
    .init
  have hcon := constrained_path hinit fun c hc ↦
    ⟨hpath.constraints c hc, (hpath.constraints c hc).clock1_lt⟩
  obtain ⟨hvalid, hclose⟩ := hU.closex _ _ hcon
  rw [← hzone] at hvalid hclose
  constructor
  · intro hne
    have hv := hvalid.mpr hne
    obtain ⟨hpz, hholds⟩ := cddFromDbm_spec hL hlen hU hv
    set dbm := U.dbmClosex L.clocknum
      (cs.foldl (constrainBoth U L.clocknum) (U.dbmInit L.clocknum, fun _ ↦ false))
    refine ⟨if cddIsterminal n then cddtrue else n,
      cddAnd L d (cddNeg (cddFromDbm L U dbm L.clocknum)), dbm, ?_, ?_, ?_, ?_, ?_, hd.and hpz.neg,
      hv, hclose hne, ?_, ?_⟩
    · rw [cddExtractBdd, hwalk]
      rfl
    · rw [cddExtractDbm, hwalk]
      exact if_pos hv
    · cases cddIsterminal n with
      | true => exact proper_cddtrue
      | false => exact hpath.proper
    · cases cddIsterminal n with
      | true => rfl
      | false => exact hpath.not_cdd
    · cases hterm : cddIsterminal n with
      | true =>
        intro h
        cases h
      | false =>
        intro h
        have : n = cddfalse := h
        rw [this] at hterm
        cases hterm
    · intro v
      rw [holds_cddAnd hd.wf hpz.neg.wf, holds_cddNeg, hholds, hclose hne]
    · intro hdne v hx
      rw [hzone] at hx
      rw [hpath.holds_iff v hx.2]
      cases hterm : cddIsterminal n with
      | true =>
        have hn : n = cddtrue := by
          cases hpath.proper.wf.eq_terminal hterm with
          | inl h => exact h
          | inr h => exact absurd (hpath.eq_cddfalse h) hdne
        rw [hn]
        rfl
      | false => rfl
  · intro hne
    rw [cddExtractDbm, hwalk]
    exact if_neg (mt hvalid.mp hne)

/-- With the clocks first the Boolean part is Boolean. -/
theorem extract_spec (hL : L.Declared) (hlen : L.levelinfo.length ≤ maxLevel)
    (hCF : L.ClocksFirst) (hU : U.Exact L.clocknum) {d : DdNode} (hd : L.Proper d) :
    ((firstZone L d).Nonempty → ∃ bottom rest dbm, Extracted L U d bottom rest dbm) ∧
      (¬ (firstZone L d).Nonempty → cddExtractDbm L U d L.clocknum = none) := by
  obtain ⟨htaken, hnone⟩ := taken_spec hL hlen hU hd
  refine ⟨fun hne ↦ ?_, hnone⟩
  obtain ⟨bottom, rest, dbm, h⟩ := htaken hne
  exact ⟨bottom, rest, dbm, h.extractBdd, h.extractDbm, h.bottom_proper,
    booleanOnly_of_not_cdd hCF h.bottom_proper.wf h.bottom_not_cdd, h.bottom_ne, h.rest_proper,
    h.valid, h.zone_eq, h.rest_iff, h.bottom_iff⟩

/-- After reduction the first path is met by a non-negative valuation. -/
theorem firstZone_nonempty (hL : L.Declared) {d : DdNode} (hd : L.Proper d) (hs : L.PathsSat d)
    (hnn : NonNegativeOnly L d) (hne : d ≠ cddfalse) : (firstZone L d).Nonempty := by
  obtain ⟨cs, n, hwalk, hpath⟩ := firstPath_spec hL hd le_rfl
  -- a path on to `cddtrue`, and a valuation that takes it
  obtain ⟨a, ha⟩ := exists_eval_true hpath.proper.wf (mt hpath.eq_cddfalse hne)
  obtain ⟨q, hq, haq, hval⟩ := exists_path hpath.proper.wf hpath.proper.inRange a
  obtain ⟨p, hp, hmeets⟩ := hpath.path q hq
  obtain ⟨x, -, hx⟩ := hs p hp
  obtain ⟨hxp, hxq⟩ := hmeets x hx
  have hholds : Holds L ⟨x, a.bool⟩ d := by
    rw [hpath.holds_iff ⟨x, a.bool⟩ hxp, Holds, hval _ (takes_of_meets haq hxq)]
    exact ha
  exact ⟨x, hnn _ hholds, _, hwalk, hxp⟩

end

end UCDD

import UCDD.Reduce.Correct

/-!
# Reduction that joins edges

`add_bound` and `cdd_reduce2`, `cddop.c:1231–1244, 1262–1371`. Neighbouring edges of a node are
replaced by their union as long as no valuation tells the difference. The union is a new diagram,
so the recursion is not on a child of the node.
-/

namespace UCDD

open IntervalMap DdNode

/-- `add_bound`. -/
def addBound (L : Library) (c : DdNode) (level : ℕ) (low up : Raw) : DdNode :=
  if low = -INF ∧ up = INF then c else cddAnd L c (cddIntervalFromLevel level low up)

/-- The loop over the edges of a node and what follows it, `cddop.c:1290–1353`. The edges from
`low` to `lower` are in `prev`. -/
def reduce2Elem (L : Library) (rec : DdNode → Option DdNode) (mask : Bool) (level : ℕ) :
    DdNode → Raw → Raw → List (DdNode × Raw) → DdNode → Option DdNode
  | prev, low, _, [], res => do
    let tmp1 ← rec prev
    return cddOr L res (addBound L tmp1 level low INF)
  | prev, low, lower, (child, upper) :: it, res => do
    let split := cddOr L (addBound L prev level low lower)
      (addBound L (cddNegCond child mask) level lower upper)
    let tmp1 := cddOr L prev (cddNegCond child mask)
    let join := addBound L tmp1 level low upper
    if ← cddEquiv L split join then reduce2Elem L rec mask level tmp1 low upper it res
    else
      let tmp1 ← rec prev
      reduce2Elem L rec mask level (cddNegCond child mask) lower upper it
        (cddOr L res (addBound L tmp1 level low lower))

/-- `cdd_reduce2_rec`, with a recursion no deeper than `fuel`. -/
def cddReduce2Rec (L : Library) : ℕ → DdNode → Option DdNode
  | 0, _ => none
  | fuel + 1, node =>
    match node with
    | .cdd neg level ((child, bnd) :: it) =>
      reduce2Elem L (cddReduce2Rec L fuel) neg level (cddNegCond child neg) (-INF) bnd it cddfalse
    | .cdd _ _ [] => none
    | .bdd neg level low high => do
      let tmp1 ← cddReduce2Rec L fuel (cddNegCond low neg)
      let tmp2 ← cddReduce2Rec L fuel (cddNegCond high neg)
      return cddMakeBddNode level tmp1 tmp2
    | node => some node

/-- `cdd_reduce2`: the recursion goes down at least one level each time. -/
def cddReduce2 (L : Library) (node : DdNode) : Option DdNode :=
  cddReduce2Rec L (maxLevel + 1) node

section

variable {L : Library} {c d : DdNode} {level i j : ℕ} {low up : Raw}

theorem level_le_cddOr (hc : L.WF c) (hd : L.WF d) {ℓ : ℕ} (hlc : ℓ ≤ c.level)
    (hld : ℓ ≤ d.level) : ℓ ≤ (cddOr L c d).level := by
  have h := (cddAnd_builds hc.neg hd.neg).level_le
  simp only [cddNeg, level_negCond] at h
  rw [cddOr]
  simp only [cddNeg, level_negCond]
  exact le_trans (le_min hlc hld) h

theorem DdNode.All.level_le {Q : Raw → Prop} {ℓ : ℕ} (h : All (ℓ ≤ ·) Q d) (hℓ : ℓ ≤ maxLevel) :
    ℓ ≤ d.level := by
  cases h with
  | terminal | xterm => exact hℓ
  | bdd _ hp => exact hp
  | cdd _ hp => exact hp

/-- `d` is `c` within an interval of the difference. -/
structure Bounded (L : Library) (level i j : ℕ) (c : DdNode) (low up : Raw) (d : DdNode) : Prop where
  proper : L.Proper d
  level_le : level ≤ d.level
  holds_iff : ∀ v, Holds L v d ↔
    Holds L v c ∧ ¬ Below (v.clock i - v.clock j) low ∧ Below (v.clock i - v.clock j) up

theorem addBound_spec (hk : L.levelinfo[level]? = some (.cdd i j)) (hlt : level < maxLevel)
    (hc : L.Proper c) (hle : level ≤ c.level) (hlow : low < up) :
    Bounded L level i j c low up (addBound L c level low up) := by
  unfold addBound
  split
  · next h =>
    rw [h.1, h.2]
    exact ⟨hc, hle, by simp⟩
  · next h =>
    have hint : Interval low up := ⟨hlow, by tauto⟩
    have hspec := (cddIntervalFromLevel_spec ⟨i, j, hk⟩ hlt hint).1
    refine ⟨hc.and hspec, ?_, ?_⟩
    · have hlevel : level ≤ (cddIntervalFromLevel level low up).level := by
        have h : All (level ≤ ·) (fun _ ↦ True) (cddIntervalFromLevel level low up) :=
          all_cddIntervalFromLevel (Nat.le_refl level) (fun _ ↦ trivial) low up
        exact DdNode.All.level_le h hlt.le
      exact le_trans (le_min hle hlevel) (cddAnd_builds hc.wf hspec.wf).level_le
    · intro v
      rw [holds_cddAnd hc.wf hspec.wf, holds_cddIntervalFromLevel hk hlt hint]

/-! ### The loop over the edges -/

/-- The recursion returns a diagram of the same valuations, no higher than the one it is given. -/
def Reduce2Spec (L : Library) (rec : DdNode → Option DdNode) (d : DdNode) : Prop :=
  ∃ r, rec d = some r ∧ L.Proper r ∧ d.level ≤ r.level ∧ ∀ v, Holds L v r ↔ Holds L v d

/-- The result, the window `prev` and the edges not read yet make up the node. -/
def Remaining (L : Library) (mask : Bool) (i j : ℕ) (res prev : DdNode) (low lower : Raw)
    (es : List (DdNode × Raw)) (v : Valuation) : Prop :=
  Holds L v res ∨
    (Holds L v prev ∧ ¬ Below (v.clock i - v.clock j) low ∧ Below (v.clock i - v.clock j) lower) ∨
    ∃ p ∈ pieces lower es, (¬ Below (v.clock i - v.clock j) p.1 ∧
      Below (v.clock i - v.clock j) p.2.2) ∧ Holds L v (cddNegCond p.2.1 mask)

theorem reduce2Elem_spec (hL : L.Declared) (hk : L.levelinfo[level]? = some (.cdd i j))
    (hlt : level < maxLevel) {rec : DdNode → Option DdNode}
    (hrec : ∀ c, L.Proper c → level < c.level → Reduce2Spec L rec c) (mask : Bool)
    {es : List (DdNode × Raw)} (hes : ∀ e ∈ es, L.Proper e.1 ∧ level < e.1.level)
    {prev res : DdNode} (hprev : L.Proper prev) (hplevel : level < prev.level)
    (hres : L.Proper res) (hrlevel : level ≤ res.level) {lower : Raw} (hlow : low < lower)
    (hp : (es = [] ∧ lower = INF) ∨ (Partition INF es ∧ ∀ e ∈ es.head?, lower < e.2)) :
    ∃ r, reduce2Elem L rec mask level prev low lower es res = some r ∧ L.Proper r ∧
      level ≤ r.level ∧ ∀ v, Holds L v r ↔ Remaining L mask i j res prev low lower es v := by
  induction es generalizing prev low lower res with
  | nil =>
    have hlower : lower = INF := by
      cases hp with
      | inl h => exact h.2
      | inr h => exact absurd h.1 id
    obtain ⟨tmp1, hrun, htmp, hle, hiff⟩ := hrec prev hprev hplevel
    have hb := addBound_spec hk hlt htmp (le_trans hplevel.le hle) (hlower ▸ hlow)
    refine ⟨_, by rw [reduce2Elem, hrun]; rfl, hres.or hb.proper,
      level_le_cddOr hres.wf hb.proper.wf hrlevel hb.level_le, ?_⟩
    intro v
    rw [holds_cddOr hres.wf hb.proper.wf, hb.holds_iff, hiff, hlower]
    simp [Remaining, pieces]
  | cons e es ih =>
    obtain ⟨child, upper⟩ := e
    obtain ⟨⟨hchild, hclevel⟩, hes⟩ := List.forall_mem_cons.mp hes
    obtain ⟨hpart, hlt'⟩ : Partition INF ((child, upper) :: es) ∧ lower < upper := by
      cases hp with
      | inl h => cases h.1
      | inr h => exact ⟨h.1, h.2 _ rfl⟩
    have hcur : L.Proper (cddNegCond child mask) := hchild.negCond mask
    have hculevel : level < (cddNegCond child mask).level := by rwa [level_negCond]
    have hleft := addBound_spec hk hlt hprev hplevel.le hlow
    have hright := addBound_spec hk hlt hcur hculevel.le hlt'
    have hunion := hprev.or hcur
    have hulevel : level < (cddOr L prev (cddNegCond child mask)).level :=
      Nat.lt_of_succ_le (level_le_cddOr hprev.wf hcur.wf hplevel hculevel)
    have hjoin := addBound_spec hk hlt hunion hulevel.le (lt_trans hlow hlt')
    have hpieces (v : Valuation) : Remaining L mask i j res prev low lower ((child, upper) :: es) v ↔
        Holds L v res ∨ Holds L v (addBound L prev level low lower) ∨
          Holds L v (addBound L (cddNegCond child mask) level lower upper) ∨
            ∃ p ∈ pieces upper es, (¬ Below (v.clock i - v.clock j) p.1 ∧
              Below (v.clock i - v.clock j) p.2.2) ∧ Holds L v (cddNegCond p.2.1 mask) := by
      rw [hleft.holds_iff, hright.holds_iff]
      simp only [Remaining, pieces, List.mem_cons, exists_eq_or_imp]
      rw [and_comm (a := Holds L v (cddNegCond child mask))]
    obtain ⟨b, hequiv, hb⟩ := cddEquiv_spec hL (hleft.proper.or hright.proper) hjoin.proper
    rw [reduce2Elem]
    simp only [hequiv, Option.bind_eq_bind, Option.bind_some]
    cases hbt : b with
    | true =>
      -- the window takes in the edge
      have hsame := hb.mp hbt
      obtain ⟨r, hr, hproper, hle, hiff⟩ := ih hes hunion hulevel hres hrlevel (lt_trans hlow hlt')
        hpart.tail_cases
      refine ⟨r, hr, hproper, hle, ?_⟩
      intro v
      have h := hsame v
      rw [holds_cddOr hleft.proper.wf hright.proper.wf, hjoin.holds_iff] at h
      rw [hiff, hpieces, Remaining, ← h, or_assoc]
    | false =>
      -- the window is reduced, and the edge starts the next one
      obtain ⟨tmp1, hrun, htmp, hle, htiff⟩ := hrec prev hprev hplevel
      have hbound := addBound_spec hk hlt htmp (le_trans hplevel.le hle) hlow
      obtain ⟨r, hr, hproper, hle', hiff⟩ := ih hes hcur hculevel (hres.or hbound.proper)
        (level_le_cddOr hres.wf hbound.proper.wf hrlevel hbound.level_le) hlt'
        hpart.tail_cases
      refine ⟨r, ?_, hproper, hle', ?_⟩
      · rw [hrun]
        exact hr
      · intro v
        rw [hiff, hpieces, Remaining, holds_cddOr hres.wf hbound.proper.wf, hbound.holds_iff, htiff,
          hleft.holds_iff, hright.holds_iff, or_assoc]

/-! ### The recursion -/

theorem cddReduce2Rec_spec (hL : L.Declared) (hd : L.Proper d) (fuel : ℕ)
    (hfuel : maxLevel < fuel + d.level) : Reduce2Spec L (cddReduce2Rec L fuel) d := by
  induction fuel generalizing d with
  | zero =>
    have := hd.wf.level_le
    omega
  | succ fuel ih =>
    have hterminal (h : cddReduce2Rec L (fuel + 1) d = some d) :
        Reduce2Spec L (cddReduce2Rec L (fuel + 1)) d := ⟨d, h, hd, le_rfl, fun _ ↦ Iff.rfl⟩
    cases d with
    | terminal | xterm => exact hterminal rfl
    | bdd neg level low high =>
      have hwf := hd.wf
      obtain ⟨-, hrl, hrh⟩ := hd.inRange.of_bdd
      cases hwf with
      | bdd _ hk hl hh _ _ hwl hwh =>
      have hfuel : maxLevel < fuel + 1 + level := hfuel
      obtain ⟨tmp1, h1, hp1, hle1, hiff1⟩ := ih (d := cddNegCond low neg)
        (Library.Proper.negCond ⟨hwl, hrl⟩ neg) (by rw [level_negCond]; omega)
      obtain ⟨tmp2, h2, hp2, hle2, hiff2⟩ := ih (d := cddNegCond high neg)
        (Library.Proper.negCond ⟨hwh, hrh⟩ neg) (by rw [level_negCond]; omega)
      rw [level_negCond] at hle1 hle2
      have hmake := cddMakeBddNode_spec hk (lt_of_lt_of_le hl hle1) (lt_of_lt_of_le hh hle2) hp1.wf
        hp2.wf
      refine ⟨cddMakeBddNode level tmp1 tmp2, ?_,
        ⟨hmake.wf, all_cddMakeBddNode trivial hp1.inRange hp2.inRange⟩, hmake.level_le, ?_⟩
      · rw [cddReduce2Rec, h1, h2]
        rfl
      · intro v
        rw [holds_bdd, Holds, hmake.eval_eq]
        show (bif v.bool level then eval _ tmp2 else eval _ tmp1) = true ↔ _
        cases v.bool level with
        | true => exact hiff2 v
        | false => exact hiff1 v
    | cdd neg level elem =>
      have hlt : level < maxLevel := hd.wf.level_lt rfl
      obtain ⟨-, hr, hrs⟩ := hd.inRange.of_cdd
      have hfuel : maxLevel < fuel + 1 + level := hfuel
      have hwf := hd.wf
      cases hwf with
      | cdd _ hk hl hp _ _ _ hw =>
      obtain ⟨i, j, hij⟩ := hk
      cases elem with
      | nil => exact absurd hp id
      | cons e it =>
        obtain ⟨child, bnd⟩ := e
        obtain ⟨hlc, hli⟩ := List.forall_mem_cons.mp hl
        obtain ⟨hwc, hwi⟩ := List.forall_mem_cons.mp hw
        obtain ⟨hrc, hri⟩ := List.forall_mem_cons.mp hrs
        have hit : ∀ e ∈ it, L.Proper e.1 ∧ level < e.1.level := fun e he ↦
          ⟨⟨hwi e he, hri e he⟩, hli e he⟩
        obtain ⟨r, hrun, hproper, hle, hiff⟩ := reduce2Elem_spec hL hij hlt
          (fun c hc hlc ↦ ih hc (by omega)) neg hit
          (Library.Proper.negCond ⟨hwc, hrc⟩ neg) (by rw [level_negCond]; exact hlc)
          proper_cddfalse hlt.le (hr _ List.mem_cons_self) hp.tail_cases
        refine ⟨r, hrun, hproper, hle, ?_⟩
        intro v
        rw [hiff, holds_pieces hd hij, Remaining]
        simp only [pieces, List.mem_cons, exists_eq_or_imp, not_holds_cddfalse, false_or]
        rw [and_comm (a := Holds L v (cddNegCond child neg))]

theorem cddReduce2_spec (hL : L.Declared) (hd : L.Proper d) :
    ∃ r, cddReduce2 L d = some r ∧ L.WF r ∧ ∀ v, Holds L v r ↔ Holds L v d := by
  obtain ⟨r, hr, hproper, -, hiff⟩ := cddReduce2Rec_spec hL hd (maxLevel + 1) (by omega)
  exact ⟨r, hr, hproper.wf, hiff⟩

end

/-- The conjunction of `x2 - x0 ≥ 2` and `x2 - x1 ≤ 1`. -/
def twoDifferences : DdNode :=
  .cdd false 1 [(cddfalse, 4), (.cdd true 2 [(cddfalse, 3), (cddtrue, INF)], INF)]

/-- The conjunction with `x1 - x0 ≥ 1`, which the two differences imply. -/
def impliedLower : DdNode := .cdd false 0 [(cddfalse, 2), (twoDifferences, INF)]

theorem inRange_impliedLower : InRange impliedLower := by
  apply All.cdd _ trivial (by decide)
  simp only [List.mem_cons, List.not_mem_nil, or_false, forall_eq_or_imp, forall_eq]
  refine ⟨.terminal _, .cdd _ trivial (by decide) ?_⟩
  simp only [List.mem_cons, List.not_mem_nil, or_false, forall_eq_or_imp, forall_eq]
  refine ⟨.terminal _, .cdd _ trivial (by decide) ?_⟩
  simp only [List.mem_cons, List.not_mem_nil, or_false, forall_eq_or_imp, forall_eq]
  exact ⟨.terminal _, .terminal _⟩

/-- Below 1 on level 0, above 2 on level 1 and below 1 on level 2. -/
def infeasibleLevels : Assignment := Assignment.lowest.setDiff 1 (Cut.lowest.above 4 (by decide))

/-- The implied bound is dropped, and the value at the levels changes. -/
theorem cddReduce2_impliedLower :
    cddReduce2 clockLibrary impliedLower = some twoDifferences ∧
      eval infeasibleLevels twoDifferences ≠ eval infeasibleLevels impliedLower := by
  decide

end UCDD

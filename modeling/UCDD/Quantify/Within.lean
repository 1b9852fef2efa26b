import UCDD.Diagram.Ops

/-!
# The levels that a diagram tests

A bound on the levels of a diagram, for nodes whose intervals may be empty: `cdd_interval` does not
check that its bounds are in order. The operations return a diagram for such operands too, and test
no level that the operands do not test.
-/

namespace UCDD

open IntervalMap DdNode

/-- The levels of the nodes are in `S`, have the kind of their nodes and grow along every edge, and
every array ends at `INF`. -/
inductive Library.Within (L : Library) : Set ℕ → DdNode → Prop
  | terminal {S} neg : L.Within S (.terminal neg)
  | xterm {S} neg id : L.Within S (.xterm neg id)
  | bdd {S} neg {level low high} : level ∈ S → level < maxLevel → L.levelinfo[level]? = some .bdd →
      L.Within {ℓ ∈ S | level < ℓ} low → L.Within {ℓ ∈ S | level < ℓ} high →
      L.Within S (.bdd neg level low high)
  | cdd {S} neg {level elem} : level ∈ S → level < maxLevel → L.isCdd level → EndsAt INF elem →
      (∀ e ∈ elem, L.Within {ℓ ∈ S | level < ℓ} e.1) → L.Within S (.cdd neg level elem)

section

variable {L : Library} {S T : Set ℕ} {d l r n : DdNode} {level : ℕ}

theorem Library.Within.negCond (h : L.Within S d) (m : Bool) : L.Within S (cddNegCond d m) := by
  cases h <;> constructor <;> assumption

theorem Library.Within.mono (h : L.Within S d) (hST : S ⊆ T) : L.Within T d := by
  induction h generalizing T with
  | terminal neg => exact .terminal neg
  | xterm neg id => exact .xterm neg id
  | bdd neg hmem hlt hk _ _ ihl ihh =>
    exact .bdd neg (hST hmem) hlt hk (ihl fun ℓ h ↦ ⟨hST h.1, h.2⟩)
      (ihh fun ℓ h ↦ ⟨hST h.1, h.2⟩)
  | cdd neg hmem hlt hk hend _ ih =>
    exact .cdd neg (hST hmem) hlt hk hend fun e he ↦ ih e he fun ℓ h ↦ ⟨hST h.1, h.2⟩

/-- Below a level that the pointer does not reach. -/
theorem Library.Within.above (h : L.Within S d) (hlt : level < d.level) :
    L.Within {ℓ ∈ S | level < ℓ} d := by
  cases h with
  | terminal neg => exact .terminal neg
  | xterm neg id => exact .xterm neg id
  | bdd neg hmem hmax hk hl hh =>
    exact .bdd neg ⟨hmem, hlt⟩ hmax hk (hl.mono fun ℓ h ↦ ⟨⟨h.1, lt_trans hlt h.2⟩, h.2⟩)
      (hh.mono fun ℓ h ↦ ⟨⟨h.1, lt_trans hlt h.2⟩, h.2⟩)
  | cdd neg hmem hmax hk hend he =>
    exact .cdd neg ⟨hmem, hlt⟩ hmax hk hend fun e h ↦
      (he e h).mono fun ℓ h ↦ ⟨⟨h.1, lt_trans hlt h.2⟩, h.2⟩

/-- The levels of a well-formed diagram are declared. -/
theorem within_of_wf {P : ℕ → Prop} (h : L.WF d) (hP : All P (fun _ ↦ True) d) :
    L.Within {ℓ | P ℓ ∧ ℓ < L.levelinfo.length} d := by
  induction h with
  | terminal neg => exact .terminal neg
  | xterm neg => exact .xterm neg _
  | bdd neg hk hll hlh _ _ hwl hwh ihl ihh =>
    cases hP with
    | bdd _ hmem hal hah =>
      exact .bdd neg ⟨hmem, (List.getElem?_eq_some_iff.mp hk).1⟩ (lt_of_lt_of_le hll hwl.level_le) hk
        ((ihl hal).above hll) ((ihh hah).above hlh)
  | @cdd neg level elem hk hl hp _ _ _ hw ih =>
    cases hP with
    | cdd _ hmem _ hall =>
      obtain ⟨e, es, hes⟩ := List.exists_cons_of_ne_nil hp.ne_nil
      have he : e ∈ elem := hes ▸ List.mem_cons_self
      have hlen : level < L.levelinfo.length := by
        obtain ⟨i, j, hij⟩ := hk
        exact (List.getElem?_eq_some_iff.mp hij).1
      exact .cdd neg ⟨hmem, hlen⟩ (lt_of_lt_of_le (hl e he) (hw e he).level_le) hk hp.endsAt
        fun e he ↦ (ih e he (hall e he)).above (hl e he)

/-! ### The operations -/

/-- The edges of the pointer at a CDD level not below its own. -/
theorem Library.Within.edges (h : L.Within S d) (hk : L.isCdd level) (hlt : level < maxLevel)
    (hle : level ≤ d.level) : EndsAt INF (edgesAt level d) ∧ ∀ e ∈ edgesAt level d,
      L.Within {ℓ ∈ S | level < ℓ} e.1 ∧ e.1.height ≤ d.height ∧
        (d.level = level → e.1.height < d.height) := by
  rcases eq_or_lt_of_le hle with rfl | hle
  · cases h with
    | terminal | xterm => exact absurd hlt (lt_irrefl _)
    | bdd _ _ _ hb =>
      obtain ⟨i, j, hij⟩ := hk
      rw [DdNode.level, hb] at hij
      cases hij
    | @cdd _ neg level es _ _ _ hend he =>
      have hes : edgesAt level (.cdd neg level es) = es := by
        simp [edgesAt, DdNode.level, DdNode.elem]
      rw [DdNode.level, hes]
      exact ⟨hend, fun e hmem ↦ ⟨he e hmem, le_of_lt (height_lt_of_mem e hmem),
        fun _ ↦ height_lt_of_mem e hmem⟩⟩
  · have hes : edgesAt level d = [(cddRglr d, INF)] := by
      simp [edgesAt, not_le.mpr hle]
    rw [hes, endsAt_singleton, List.forall_mem_singleton]
    exact ⟨rfl, (h.above hle).negCond _, le_of_eq (height_negCond d _),
      fun heq ↦ absurd heq (ne_of_gt hle)⟩

/-- The low and the high edge of the pointer at a BDD level not below its own. -/
theorem Library.Within.bddEdges (h : L.Within S d) (hk : L.levelinfo[level]? = some .bdd)
    (hlt : level < maxLevel) (hle : level ≤ d.level) : ∀ c ∈ [lowAt level d, highAt level d],
      L.Within {ℓ ∈ S | level < ℓ} c ∧ c.height ≤ d.height ∧
        (d.level = level → c.height < d.height) := by
  rcases eq_or_lt_of_le hle with rfl | hle
  · cases h with
    | terminal | xterm => exact absurd hlt (lt_irrefl _)
    | cdd _ _ _ hc =>
      obtain ⟨i, j, hij⟩ := hc
      rw [DdNode.level, hij] at hk
      cases hk
    | @bdd _ neg level low high _ _ _ hl hh =>
      have hlow : lowAt level (.bdd neg level low high) = low := by
        simp [lowAt, DdNode.level, DdNode.low]
      have hhigh : highAt level (.bdd neg level low high) = high := by
        simp [highAt, DdNode.level, DdNode.high]
      have hhei : low.height < (DdNode.bdd neg level low high).height ∧
          high.height < (DdNode.bdd neg level low high).height := by
        simp only [height]
        omega
      rw [DdNode.level, hlow, hhigh, List.forall_mem_cons, List.forall_mem_singleton]
      exact ⟨⟨hl, le_of_lt hhei.1, fun _ ↦ hhei.1⟩, hh, le_of_lt hhei.2, fun _ ↦ hhei.2⟩
  · have hlow : lowAt level d = cddRglr d := by simp [lowAt, not_le.mpr hle]
    have hhigh : highAt level d = cddRglr d := by simp [highAt, not_le.mpr hle]
    have hd : L.Within {ℓ ∈ S | level < ℓ} (cddRglr d) ∧ (cddRglr d).height ≤ d.height ∧
        (d.level = level → (cddRglr d).height < d.height) :=
      ⟨(h.above hle).negCond _, le_of_eq (height_negCond d _),
        fun heq ↦ absurd heq (ne_of_gt hle)⟩
    rw [hlow, hhigh, List.forall_mem_cons, List.forall_mem_singleton]
    exact ⟨hd, hd⟩

theorem within_cddMakeBddNode (hmem : level ∈ S) (hlt : level < maxLevel)
    (hk : L.levelinfo[level]? = some .bdd) (hl : L.Within {ℓ ∈ S | level < ℓ} l)
    (hr : L.Within {ℓ ∈ S | level < ℓ} r) : L.Within S (cddMakeBddNode level l r) := by
  unfold cddMakeBddNode
  split
  · exact hl.mono fun ℓ h ↦ h.1
  · exact .bdd _ hmem hlt hk (hl.negCond _) (hr.negCond _)

theorem within_cddMakeCddNode {elem : List (DdNode × Raw)} (hmem : level ∈ S)
    (hlt : level < maxLevel) (hk : L.isCdd level) (hend : EndsAt INF elem)
    (hall : ∀ e ∈ elem, L.Within {ℓ ∈ S | level < ℓ} e.1) :
    ∃ n, cddMakeCddNode ⊤ level elem = some n ∧ L.Within S n := by
  unfold cddMakeCddNode
  rw [if_neg (not_lt.mpr le_top)]
  split
  · next e => exact ⟨e.1, rfl, (hall e (by simp)).mono fun ℓ h ↦ h.1⟩
  · exact ⟨_, rfl, .cdd _ hmem hlt hk hend hall⟩

theorem within_cddApplyTerminal {op : CddOp} (hl : L.Within S l) (hr : L.Within S r)
    (h : cddApplyTerminal op l r = some d) : L.Within S d := by
  have hfalse : L.Within S cddfalse := .terminal false
  have htrue : L.Within S cddtrue := .terminal true
  have hnegl : L.Within S (cddNeg l) := hl.negCond true
  have hnegr : L.Within S (cddNeg r) := hr.negCond true
  cases op <;> unfold cddApplyTerminal at h <;> split_ifs at h <;> cases h <;> assumption

/-- The level of an inner node. -/
theorem Library.Within.inner (h : L.Within S d) (hd : cddIsterminal d = false) :
    d.level ∈ S ∧ d.level < maxLevel ∧ ∃ info, L.levelinfo[d.level]? = some info := by
  cases h with
  | terminal | xterm => cases hd
  | bdd _ hmem hlt hk => exact ⟨hmem, hlt, _, hk⟩
  | cdd _ hmem hlt hk =>
    obtain ⟨i, j, hij⟩ := hk
    exact ⟨hmem, hlt, _, hij⟩

theorem Library.Within.min_level (hl : L.Within S l) (hr : L.Within S r)
    (htt : (cddIsterminal l && cddIsterminal r) = false) : min l.level r.level ∈ S ∧
      min l.level r.level < maxLevel ∧ ∃ info, L.levelinfo[min l.level r.level]? = some info := by
  have hmax {d : DdNode} (hd : L.Within S d) : d.level ≤ maxLevel := by
    cases ht : cddIsterminal d with
    | true => exact le_of_eq (level_of_isterminal ht)
    | false => exact le_of_lt (hd.inner ht).2.1
  have hinner {c d : DdNode} (hd : L.Within S d) (hle : c.level ≤ d.level)
      (h : cddIsterminal c = false ∨ cddIsterminal d = false) : cddIsterminal c = false := by
    by_contra hct
    have hcm := level_of_isterminal (Bool.of_not_eq_false hct)
    have := (hd.inner (h.resolve_left hct)).2.1
    omega
  have htt := Bool.and_eq_false_iff.mp htt
  rcases le_total l.level r.level with hle | hle
  · rw [min_eq_left hle]
    exact hl.inner (hinner hr hle htt)
  · rw [min_eq_right hle]
    exact hr.inner (hinner hl hle htt.symm)

/-- One node, over a recursion that returns diagrams for smaller operands. -/
theorem cddApplyNode_within {rec : DdNode → DdNode → Option DdNode} (hl : L.Within S l)
    (hr : L.Within S r) (htt : (cddIsterminal l && cddIsterminal r) = false)
    (hrec : ∀ T c d, L.Within T c → L.Within T d → c.height + d.height < l.height + r.height →
      ∃ n, rec c d = some n ∧ L.Within T n) :
    ∃ n, cddApplyNode L ⊤ rec l r = some n ∧ L.Within S n := by
  obtain ⟨hmem, hlt, info, hk⟩ := hl.min_level hr htt
  have hll := min_le_left l.level r.level
  have hlr := min_le_right l.level r.level
  rw [cddApplyNode]
  cases info with
  | bdd =>
    have hchild (c d : DdNode) (hc : c ∈ [lowAt (min l.level r.level) l,
        highAt (min l.level r.level) l]) (hd : d ∈ [lowAt (min l.level r.level) r,
        highAt (min l.level r.level) r]) :
        ∃ n, rec (cddNegCond c (cddMask l)) (cddNegCond d (cddMask r)) = some n ∧
          L.Within {ℓ ∈ S | min l.level r.level < ℓ} n := by
      obtain ⟨hcw, hch, hcl⟩ := hl.bddEdges hk hlt hll c hc
      obtain ⟨hdw, hdh, hdl⟩ := hr.bddEdges hk hlt hlr d hd
      apply hrec _ _ _ (hcw.negCond _) (hdw.negCond _)
      rw [height_negCond, height_negCond]
      exact height_add_lt hch hdh hcl hdl
    obtain ⟨low, hlow, hlw⟩ := hchild (lowAt (min l.level r.level) l)
      (lowAt (min l.level r.level) r) (by simp) (by simp)
    obtain ⟨high, hhigh, hhw⟩ := hchild (highAt (min l.level r.level) l)
      (highAt (min l.level r.level) r) (by simp) (by simp)
    simp only [hk, hlow, hhigh, Option.bind_eq_bind, Option.bind_some, Option.pure_def]
    exact ⟨_, rfl, within_cddMakeBddNode hmem hlt hk hlw hhw⟩
  | cdd i j =>
    obtain ⟨hel, hl⟩ := hl.edges ⟨i, j, hk⟩ hlt hll
    obtain ⟨her, hr⟩ := hr.edges ⟨i, j, hk⟩ hlt hlr
    simp only [hk]
    cases hlp : edgesAt (min l.level r.level) l with
    | nil =>
      rw [hlp] at hel
      cases hel
    | cons lp ls =>
    cases hrp : edgesAt (min l.level r.level) r with
    | nil =>
      rw [hrp] at her
      cases her
    | cons rp rs =>
    rw [hlp] at hel hl
    rw [hrp] at her hr
    have hchild : ∀ a ∈ lp :: ls, ∀ b ∈ rp :: rs,
        ∃ n, rec (cddNegCond a.1 (cddMask l)) (cddNegCond b.1 (cddMask r)) = some n ∧
          L.Within {ℓ ∈ S | min l.level r.level < ℓ} n := by
      intro a ha b hb
      obtain ⟨haw, hah, hal⟩ := hl a ha
      obtain ⟨hbw, hbh, hbl⟩ := hr b hb
      apply hrec _ _ _ (haw.negCond _) (hbw.negCond _)
      rw [height_negCond, height_negCond]
      exact height_add_lt hah hbh hal hbl
    obtain ⟨prev, hprev, hpw⟩ := hchild lp (by simp) rp (by simp)
    obtain ⟨out, hout, hend, hall⟩ := mergeLoop_endsAt
      (f := fun a b ↦ rec (cddNegCond a (cddMask l)) (cddNegCond b (cddMask r))) le_rfl hel her
      hchild hpw
    obtain ⟨node, hnode, hnw⟩ := within_cddMakeCddNode hmem hlt ⟨i, j, hk⟩
      (hend.map (cddNegCond · (cddMask prev))) (List.forall_mem_map.mpr fun e he ↦ (hall e he).negCond _)
    simp only [hprev, merge, hout, hnode, Option.bind_eq_bind, Option.bind_some, Option.pure_def]
    exact ⟨_, rfl, hnw.negCond _⟩

/-- `cdd_apply` on operands whose intervals may be empty. -/
theorem cddApply_within (op : CddOp) (hl : L.Within S l) (hr : L.Within S r) :
    ∃ n, cddApply L ⊤ op l r = some n ∧ L.Within S n := by
  have hrec (fuel : ℕ) : ∀ (T : Set ℕ) (c d : DdNode), L.Within T c → L.Within T d →
      c.height + d.height < fuel → ∃ n, cddApplyRec L ⊤ op fuel c d = some n ∧ L.Within T n := by
    induction fuel with
    | zero => exact fun T c d _ _ h ↦ absurd h (Nat.not_lt_zero _)
    | succ fuel ih =>
      intro T c d hc hd hfuel
      rw [cddApplyRec]
      cases hterm : cddApplyTerminal op c d with
      | some n => exact ⟨n, rfl, within_cddApplyTerminal hc hd hterm⟩
      | none =>
        cases htt : cddIsterminal c && cddIsterminal d with
        | true =>
          simp only [if_true]
          split_ifs
          · exact ⟨d, rfl, hd⟩
          · exact ⟨c, rfl, hc⟩
        | false =>
          simp only [Bool.false_eq_true, if_false]
          split_ifs
          · exact cddApplyNode_within hd hc (by rw [Bool.and_comm, htt])
              fun U x y hx hy h ↦ ih U x y hx hy (by omega)
          · exact cddApplyNode_within hc hd htt fun U x y hx hy h ↦ ih U x y hx hy (by omega)
  exact hrec _ S l r hl hr (Nat.lt_succ_self _)

theorem within_cddAnd (hl : L.Within S l) (hr : L.Within S r) : L.Within S (cddAnd L l r) := by
  obtain ⟨n, hn, hw⟩ := cddApply_within .and hl hr
  rw [cddAnd, hn]
  exact hw

theorem within_cddOr (hl : L.Within S l) (hr : L.Within S r) : L.Within S (cddOr L l r) :=
  (within_cddAnd (hl.negCond true) (hr.negCond true)).negCond true

theorem within_cddIte (hd : L.Within S d) (hl : L.Within S l) (hr : L.Within S r) :
    L.Within S (cddIte L d l r) :=
  within_cddOr (within_cddAnd hd hl) (within_cddAnd (hd.negCond true) hr)

theorem within_cddBddvar (hmem : level ∈ S) (hlt : level < maxLevel)
    (hk : L.levelinfo[level]? = some .bdd) : L.Within S (cddBddvar level) :=
  within_cddMakeBddNode hmem hlt hk (.terminal false) (.terminal true)

/-- An interval whose bounds may be in any order. -/
theorem within_cddIntervalFromLevel (hmem : level ∈ S) (hlt : level < maxLevel)
    (hk : L.isCdd level) (low high : Raw) : L.Within S (cddIntervalFromLevel level low high) := by
  have hmake {elem : List (DdNode × Raw)} (hend : EndsAt INF elem)
      (hall : ∀ e ∈ elem, e.1 = cddfalse ∨ e.1 = cddtrue) :
      L.Within S ((cddMakeCddNode ⊤ level elem).getD cddfalse) := by
    obtain ⟨n, hn, hw⟩ := within_cddMakeCddNode hmem hlt hk hend fun e he ↦ by
      cases hall e he with
      | inl h =>
        rw [h]
        exact .terminal false
      | inr h =>
        rw [h]
        exact .terminal true
    rw [hn]
    exact hw
  unfold cddIntervalFromLevel
  split
  · apply hmake
    · rw [endsAt_cons_cons]
      split
      · rw [endsAt_cons_cons, endsAt_singleton]
      · next h => exact endsAt_singleton.mpr (le_antisymm (le_INF high) (not_lt.mp h))
    · split <;> simp
  · apply Library.Within.negCond
    apply hmake
    · rw [endsAt_cons_cons, endsAt_singleton]
    · simp

end

end UCDD

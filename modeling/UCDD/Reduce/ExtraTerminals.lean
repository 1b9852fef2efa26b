import UCDD.Diagram.Tautology
import UCDD.Reduce.ApplyReduce

/-!
# Extra terminals in the fused apply

The conjunction of `cdd_apply_reduce` takes a shortcut at an extra terminal, at whatever depth
the other operand still is: a regular extra terminal is dropped for the other operand, a negated
one is returned for it. Where the other operand ends in a terminal for which `cdd_apply` returns
something else, the label is lost. The exclusive or has no such shortcut: two different extra
terminals go on to the node of their level.
-/

namespace UCDD

open IntervalMap DdNode

mutual

/-- The first level after those that the assignment tests in the diagram, 0 for a terminal. -/
def tested (a : Assignment) : DdNode → ℕ
  | .terminal _ | .xterm _ _ => 0
  | .bdd _ level low high =>
    max (level + 1) (bif a.bool level then tested a high else tested a low)
  | .cdd _ level elem => max (level + 1) (testedElem a (a.diff level) elem)

def testedElem (a : Assignment) (c : Cut INF) : List (DdNode × Raw) → ℕ
  | [] => 0
  | (d, b) :: es => bif c.below b then tested a d else testedElem a c es

end

/-- The operands end in two extra terminals, neither of which is the other or its negation. -/
def Combines (a : Assignment) (l r : DdNode) : Prop :=
  cddIsExtraTerminal (reach a l) = true ∧ cddIsExtraTerminal (reach a r) = true ∧
    reach a l ≠ reach a r ∧ reach a l ≠ cddNeg (reach a r)

/-- The left operand ends in an extra terminal, the right one is tested further and ends in the
negation of that extra terminal, or in `cddtrue` for a regular and in `cddfalse` for a negated
one. -/
def Loses (a : Assignment) (l r : DdNode) : Prop :=
  tested a l < tested a r ∧ cddIsExtraTerminal (reach a l) = true ∧
    (reach a r = cddNeg (reach a l) ∨ reach a r = .terminal (!cddMask (reach a l)))

/-- The conjunction loses a label of one of the operands. -/
def Drops (op : CddOp) (a : Assignment) (l r : DdNode) : Prop :=
  op = .and ∧ (Loses a l r ∨ Loses a r l)

/-- The clock valuations at which the exclusive or combines two different extra terminals. -/
def Clashes (L : Library) (op : CddOp) (l r : DdNode) : Set (ℕ → ℝ) :=
  {x | op = .xor ∧ ∃ v : Valuation, v.clock = x ∧ Combines (v.assignment L) l r}

section

variable {L : Library} {xterms : ℕ} {op : CddOp} {a : Assignment} {l r d : DdNode} {level : ℕ}

theorem Combines.symm (h : Combines a l r) : Combines a r l := by
  obtain ⟨hl, hr, hne, hneg⟩ := h
  refine ⟨hr, hl, hne.symm, ?_⟩
  intro h
  apply hneg
  rw [h]
  simp [cddNeg]

theorem Drops.symm (h : Drops op a l r) : Drops op a r l := ⟨h.1, h.2.symm⟩

theorem Clashes_comm (L : Library) (op : CddOp) (l r : DdNode) :
    Clashes L op l r = Clashes L op r l := by
  ext x
  constructor
  · rintro ⟨hop, v, hv, h⟩
    exact ⟨hop, v, hv, h.symm⟩
  · rintro ⟨hop, v, hv, h⟩
    exact ⟨hop, v, hv, h.symm⟩

@[simp] theorem tested_negCond (a : Assignment) (d : DdNode) (m : Bool) :
    tested a (cddNegCond d m) = tested a d := by
  cases d <;> simp [cddNegCond, tested]

theorem tested_of_isterminal (h : cddIsterminal d = true) (a : Assignment) : tested a d = 0 := by
  cases d with
  | terminal | xterm => rw [tested]
  | bdd | cdd => cases h

theorem level_lt_tested (h : cddIsterminal d = false) (a : Assignment) :
    d.level < tested a d := by
  cases d with
  | terminal | xterm => cases h
  | bdd | cdd =>
    rw [tested]
    exact lt_of_lt_of_le (Nat.lt_succ_self _) (le_max_left _ _)

theorem testedElem_of_select {c : Cut INF} {es : List (DdNode × Raw)}
    (h : select c es = some d) : testedElem a c es = tested a d := by
  induction es with
  | nil => cases h
  | cons e es ih =>
    rw [select_cons] at h
    cases hb : c.below e.2 with
    | true =>
      rw [if_pos hb] at h
      cases h
      rw [testedElem, hb, cond_true]
    | false =>
      rw [if_neg (by simp [hb])] at h
      rw [testedElem, hb, cond_false, ih h]

/-- The child `c` that the assignment selects in the diagram `d` at the level. -/
structure Follows (a : Assignment) (level : ℕ) (d c : DdNode) : Prop where
  reach_eq : reach a d = reach a c
  tested_eq : cddIsterminal d = false → tested a d = max (level + 1) (tested a c)
  tested_child : tested a c = 0 ∨ level + 1 < tested a c

/-- A diagram below the level is its own child there. -/
private theorem follows_self (h : level < d.level) : Follows a level d d := by
  refine ⟨rfl, fun hd ↦ ?_, ?_⟩
  · have := level_lt_tested hd a
    omega
  · cases hd : cddIsterminal d with
    | true => exact .inl (tested_of_isterminal hd a)
    | false =>
      have := level_lt_tested hd a
      omega

theorem follows_edgesAt (h : L.WellFormed xterms d) (hk : L.isCdd level) (hlt : level < maxLevel)
    (hle : level ≤ d.level) {c : DdNode} (hc : select (a.diff level) (edgesAt level d) = some c) :
    Follows a level d (cddNegCond c (cddMask d)) := by
  rcases eq_or_lt_of_le hle with rfl | hle'
  · obtain ⟨e, he, rfl⟩ := mem_of_select hc
    have hchild := follows_self (a := a) ((edgesAt_spec h hk hlt le_rfl).level_lt e he)
    refine ⟨?_, fun hd ↦ ?_, ?_⟩
    · rw [reach_edgesAt h hk hlt le_rfl, reachElem_of_select hc, reach_negCond]
    · rw [tested_negCond]
      rw [edgesAt, if_pos le_rfl] at hc
      nth_rewrite 1 [h.eq_cdd hk hlt]
      rw [tested, testedElem_of_select hc]
    · rw [tested_negCond]
      exact hchild.tested_child
  · rw [edgesAt, if_neg (not_le.mpr hle'), select_cons,
      if_pos (by exact (a.diff level).top_below), Option.some.injEq] at hc
    subst hc
    rw [cddNegCond_rglr]
    exact follows_self hle'

theorem follows_bddEdgesAt (h : L.WellFormed xterms d) (hk : L.levelinfo[level]? = some .bdd)
    (hlt : level < maxLevel) (hle : level ≤ d.level) (a : Assignment) :
    Follows a level d
      (cddNegCond (bif a.bool level then highAt level d else lowAt level d) (cddMask d)) := by
  have hb := bddEdgesAt_spec h hk hlt hle
  rcases eq_or_lt_of_le hle with rfl | hle'
  · refine ⟨?_, fun hd ↦ ?_, ?_⟩
    · rw [reach_bddEdgesAt h hk hlt le_rfl, reach_negCond]
      cases a.bool d.level <;> rfl
    · rw [tested_negCond, lowAt, highAt, if_pos le_rfl, if_pos le_rfl]
      nth_rewrite 1 [h.eq_bdd hk hlt]
      rw [tested]
      cases a.bool d.level <;> rfl
    · rw [tested_negCond]
      cases a.bool d.level
      · exact (follows_self hb.level_low).tested_child
      · exact (follows_self hb.level_high).tested_child
  · rw [lowAt, highAt, if_neg (not_le.mpr hle'), if_neg (not_le.mpr hle'), Bool.cond_self,
      cddNegCond_rglr]
    exact follows_self hle'

/-- Where a label is lost no two different extra terminals are combined. -/
theorem not_combines_of_drops (h : Drops op a l r) : ¬ Combines a l r := by
  have hloses {c e : DdNode} (hc : Loses a c e) : ¬ Combines a c e := by
    rintro ⟨-, hx, -, hneg⟩
    obtain ⟨-, -, he | he⟩ := hc
    · apply hneg
      rw [he]
      simp [cddNeg]
    · rw [he] at hx
      cases hx
  rcases h.2 with h | h
  · exact hloses h
  · exact fun hcomb ↦ hloses h hcomb.symm

/-! ### One level down -/

section Children

variable {c c' : DdNode}

theorem Combines.follows (hl : Follows a level l c) (hr : Follows a level r c') :
    Combines a l r ↔ Combines a c c' := by
  unfold Combines
  rw [hl.reach_eq, hr.reach_eq]

/-- Of two inner nodes the children lose the labels that the nodes lose. -/
private theorem Loses.follows (hl : Follows a level l c) (hr : Follows a level r c')
    (hlt : cddIsterminal l = false) (hrt : cddIsterminal r = false) :
    Loses a l r ↔ Loses a c c' := by
  have hiff : tested a l < tested a r ↔ tested a c < tested a c' := by
    have hc := hl.tested_child
    have hc' := hr.tested_child
    rw [hl.tested_eq hlt, hr.tested_eq hrt]
    omega
  unfold Loses
  rw [hiff, hl.reach_eq, hr.reach_eq]

theorem Drops.follows (hl : Follows a level l c) (hr : Follows a level r c')
    (hinner : op = .and → cddIsterminal l = false ∧ cddIsterminal r = false) :
    Drops op a l r ↔ Drops op a c c' := by
  unfold Drops
  constructor
  · rintro ⟨hop, h⟩
    obtain ⟨hlt, hrt⟩ := hinner hop
    rw [Loses.follows hl hr hlt hrt, Loses.follows hr hl hrt hlt] at h
    exact ⟨hop, h⟩
  · rintro ⟨hop, h⟩
    obtain ⟨hlt, hrt⟩ := hinner hop
    rw [← Loses.follows hl hr hlt hrt, ← Loses.follows hr hl hrt hlt] at h
    exact ⟨hop, h⟩

end Children

/-! ### The shortcuts -/

theorem not_loses_of_isterminal (h : cddIsterminal r = true) : ¬ Loses a l r := by
  rintro ⟨hlt, -⟩
  rw [tested_of_isterminal h] at hlt
  exact Nat.not_lt_zero _ hlt

/-- A termination condition of `cdd_apply` loses no label. -/
theorem not_drops_of_some (h : cddApplyTerminal op l r = some d) (a : Assignment) :
    ¬ Drops op a l r := by
  rintro ⟨rfl, hdrops⟩
  have hsame {c e : DdNode} (h : tested a c = tested a e) : ¬ Loses a c e :=
    fun hc ↦ absurd hc.1 (not_lt.mpr (le_of_eq h.symm))
  have hordinary {neg : Bool} {e : DdNode} : ¬ Loses a (.terminal neg) e := by
    rintro ⟨-, hx, -⟩
    cases hx
  simp only [cddApplyTerminal] at h
  split_ifs at h with h1 h2 h3
  · rcases h1 with rfl | rfl
    · exact hdrops.elim (hsame rfl) (hsame rfl)
    · exact hdrops.elim (not_loses_of_isterminal rfl) hordinary
  · rcases h2 with rfl | rfl | rfl
    · exact hdrops.elim hordinary (not_loses_of_isterminal rfl)
    · exact hdrops.elim (not_loses_of_isterminal rfl) hordinary
    · have heq : tested a (cddNeg r) = tested a r := tested_negCond a r true
      exact hdrops.elim (hsame heq) (hsame heq.symm)
  · subst h3
    exact hdrops.elim hordinary (not_loses_of_isterminal rfl)

/-- The terminals that a conjunction with an extra terminal gives. -/
private theorem cddApplyTerminal_xterm {neg : Bool} {id : ℕ} {t z : DdNode}
    (h : cddApplyTerminal .and (.xterm neg id) t = some z) :
    (z = .xterm neg id ∧ (t = .xterm neg id ∨ t = cddtrue)) ∨
      z = cddfalse ∧ (t = cddfalse ∨ t = cddNeg (.xterm neg id)) := by
  simp only [cddApplyTerminal] at h
  split_ifs at h with h1 h2 h3
  · cases h
    rcases h1 with h1 | h1
    · exact .inl ⟨rfl, .inl h1.symm⟩
    · exact .inl ⟨rfl, .inr h1⟩
  · cases h
    rcases h2 with h2 | h2 | h2
    · cases h2
    · exact .inr ⟨rfl, .inl h2⟩
    · refine .inr ⟨rfl, .inr ?_⟩
      rw [h2]
      simp [cddNeg]
  · cases h3

/-- At an extra terminal the conjunction goes wrong exactly where it loses a label. -/
theorem reach_shortcut_xterm {neg : Bool} {id : ℕ} (hr : cddIsterminal r = false)
    (a : Assignment) {z : DdNode}
    (hz : cddApplyTerminal .and (.xterm neg id) (reach a r) = some z) :
    reach a (if neg then .xterm neg id else r) = z ↔ ¬ Loses a (.xterm neg id) r := by
  have htested : tested a (.xterm neg id) < tested a r := by
    rw [tested]
    exact lt_of_le_of_lt (Nat.zero_le _) (level_lt_tested hr a)
  have hloses : Loses a (.xterm neg id) r ↔
      reach a r = cddNeg (.xterm neg id) ∨ reach a r = .terminal (!neg) := by
    unfold Loses
    rw [show reach a (.xterm neg id) = .xterm neg id from rfl]
    exact ⟨fun h ↦ h.2.2, fun h ↦ ⟨htested, rfl, h⟩⟩
  rw [hloses]
  rcases cddApplyTerminal_xterm hz with ⟨rfl, ht | ht⟩ | ⟨rfl, ht | ht⟩ <;>
    rw [ht] <;> cases neg <;> simp [reach, ht, cddNeg, cddNegCond, cddtrue, cddfalse]

/-- A termination condition of `cdd_apply` is one of the fused recursion. What is returned as it
is is a terminal. -/
theorem cddApplyReduceTerminal_of_some {sc : Shortcut}
    (hsc : cddApplyReduceTerminal op l r = some sc) (h : cddApplyTerminal op l r = some d) :
    sc.diagram = d ∧ ∀ e, sc = .done e → cddIsterminal e = true := by
  cases op with
  | and =>
    simp only [cddApplyReduceTerminal] at hsc
    simp only [cddApplyTerminal] at h
    split_ifs at h hsc <;> cases h <;> cases hsc <;> refine ⟨rfl, fun e he ↦ ?_⟩ <;> cases he
    rfl
  | xor =>
    simp only [cddApplyReduceTerminal] at hsc
    simp only [cddApplyTerminal] at h
    split_ifs at h hsc <;> cases h <;> cases hsc <;> refine ⟨rfl, fun e he ↦ ?_⟩ <;> cases he <;>
      rfl

theorem eq_xterm_of_extraTerminal (h : cddIsExtraTerminal d = true) :
    ∃ id, d = .xterm (cddMask d) id := by
  cases d with
  | xterm neg id => exact ⟨id, rfl⟩
  | terminal | bdd | cdd => cases h

/-- The other shortcuts are those of a conjunction with an extra terminal. -/
theorem cddApplyReduceTerminal_of_none {sc : Shortcut}
    (hsc : cddApplyReduceTerminal op l r = some sc) (h : cddApplyTerminal op l r = none) :
    op = .and ∧ ∃ neg id, (l = .xterm neg id ∧ sc = if neg then .done l else .reduce r) ∨
      r = .xterm neg id ∧ sc = if neg then .done r else .reduce l := by
  cases op with
  | and =>
    refine ⟨rfl, ?_⟩
    simp only [cddApplyReduceTerminal] at hsc
    simp only [cddApplyTerminal] at h
    split_ifs at h with h1 h2 h3
    rw [if_neg h1, if_neg h2, if_neg h3] at hsc
    cases hl : cddIsExtraTerminal l with
    | true =>
      rw [hl, if_pos rfl] at hsc
      obtain ⟨id, hid⟩ := eq_xterm_of_extraTerminal hl
      refine ⟨cddMask l, id, .inl ⟨hid, ?_⟩⟩
      split_ifs at hsc ⊢ <;> exact (Option.some.inj hsc).symm
    | false =>
      cases hr : cddIsExtraTerminal r with
      | true =>
        rw [hl, hr, if_neg Bool.false_ne_true, if_pos rfl] at hsc
        obtain ⟨id, hid⟩ := eq_xterm_of_extraTerminal hr
        refine ⟨cddMask r, id, .inr ⟨hid, ?_⟩⟩
        split_ifs at hsc ⊢ <;> exact (Option.some.inj hsc).symm
      | false =>
        rw [hl, hr, if_neg Bool.false_ne_true, if_neg Bool.false_ne_true] at hsc
        cases hsc
  | xor =>
    simp only [cddApplyReduceTerminal] at hsc
    simp only [cddApplyTerminal] at h
    split_ifs at h hsc

/-- Where a conjunction that takes no shortcut goes on, both operands are inner nodes. -/
theorem inner_of_no_shortcut (h : cddApplyReduceTerminal .and l r = none) :
    cddIsterminal l = false ∧ cddIsterminal r = false := by
  simp only [cddApplyReduceTerminal] at h
  split_ifs at h with h1 h2 h3 h4 h5 
  have hinner {c : DdNode} (hf : c ≠ cddfalse) (ht : c ≠ cddtrue)
      (hx : ¬ cddIsExtraTerminal c = true) : cddIsterminal c = false := by
    cases c with
    | terminal neg =>
      cases neg
      · exact absurd rfl hf
      · exact absurd rfl ht
    | xterm => exact absurd rfl hx
    | bdd | cdd => rfl
  exact ⟨hinner (fun h ↦ h2 (.inl h)) h3 h4, hinner (fun h ↦ h2 (.inr (.inl h)))
    (fun h ↦ h1 (.inr h)) h5⟩

/-- Where an exclusive or of two terminals takes no shortcut they are combined. -/
theorem combines_of_no_shortcut (h : cddApplyReduceTerminal .xor l r = none)
    (hl : cddIsterminal l = true) (hr : cddIsterminal r = true) (a : Assignment) :
    Combines a l r := by
  simp only [cddApplyReduceTerminal] at h
  split_ifs at h with h1 h2 h3 h4 h5 h6
  have hextra {c : DdNode} (hc : cddIsterminal c = true) (hf : c ≠ cddfalse) (ht : c ≠ cddtrue) :
      cddIsExtraTerminal c = true := by
    cases c with
    | terminal neg =>
      cases neg
      · exact absurd rfl hf
      · exact absurd rfl ht
    | xterm => rfl
    | bdd | cdd => cases hc
  rw [Combines, reach_of_isterminal hl, reach_of_isterminal hr]
  exact ⟨hextra hl h3 h5, hextra hr h4 h6, h1, h2⟩

/-- `cdd_apply` has no termination condition for the terminals reached exactly where it combines
two different extra terminals. -/
theorem cddApplyTerminal_reach_eq_none (op : CddOp) (a : Assignment) (l r : DdNode) :
    cddApplyTerminal op (reach a l) (reach a r) = none ↔ Combines a l r := by
  have hord {c : DdNode} (hc : cddIsterminal c = true) :
      cddIsExtraTerminal c = true ↔ c ≠ cddfalse ∧ c ≠ cddtrue := by
    cases c with
    | terminal neg => cases neg <;> simp [cddIsExtraTerminal, cddfalse, cddtrue]
    | xterm => simp [cddIsExtraTerminal, cddfalse, cddtrue]
    | bdd | cdd => cases hc
  rw [Combines, hord (cddIsterminal_reach a l), hord (cddIsterminal_reach a r)]
  cases op <;> simp only [cddApplyTerminal] <;> grind

/-- An exclusive or that takes a shortcut combines nothing. -/
theorem not_combines_of_shortcut {sc : Shortcut} (h : cddApplyReduceTerminal .xor l r = some sc)
    (a : Assignment) : ¬ Combines a l r := by
  have hordinary {neg : Bool} : ¬ cddIsExtraTerminal (reach a (.terminal neg)) = true :=
    Bool.false_ne_true
  rintro ⟨hl, hr, hne, hneg⟩
  simp only [cddApplyReduceTerminal] at h
  split_ifs at h with h1 h2 h3 h4 h5 h6
  · exact hne (congrArg (reach a) h1)
  · rw [h2, reach_neg] at hneg
    exact hneg rfl
  · exact hordinary (h3 ▸ hl)
  · exact hordinary (h4 ▸ hr)
  · exact hordinary (h5 ▸ hl)
  · exact hordinary (h6 ▸ hr)

end

end UCDD

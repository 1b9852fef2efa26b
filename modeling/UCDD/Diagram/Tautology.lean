import UCDD.Diagram.Apply

/-!
# Extra terminals

A guard is labelled by its conjunction with an extra terminal, `cdd_apply_tautology` of
`kernel.c:246–250`, and labelled guards are joined by `cdd_or`, the negated conjunction of the
negated operands. Apply compares extra terminals by their pointers, so what a conjunction
reaches is read off the terminals the operands reach.
-/

namespace UCDD

open IntervalMap DdNode

/-- `cdd_apply_tautology`. -/
def cddApplyTautology (L : Library) (maxcddsize : ℕ∞) (node : DdNode) (t_id : ℕ) :
    Option DdNode :=
  cddApply L maxcddsize .and node (.xterm false t_id)

/-- A disjunction of labelled guards, associated and ordered as its calls of `cdd_or` are. -/
inductive Labelling where
  | empty
  | guard (g : DdNode) (t_id : ℕ)
  | or (s t : Labelling)

/-- The guards with their tautologies. -/
def Labelling.guards : Labelling → List (DdNode × ℕ)
  | .empty => []
  | .guard g t_id => [(g, t_id)]
  | .or s t => s.guards ++ t.guards

/-- The disjunction as the calls compute it. -/
def Labelling.diagram (L : Library) (maxcddsize : ℕ∞) : Labelling → Option DdNode
  | .empty => some cddfalse
  | .guard g t_id => cddApplyTautology L maxcddsize g t_id
  | .or s t => do
    let l ← s.diagram L maxcddsize
    let r ← t.diagram L maxcddsize
    return cddNeg (← cddApply L maxcddsize .and (cddNeg l) (cddNeg r))

/-! ### What a call reaches -/

section

variable {L : Library} {xterms : ℕ} {op : CddOp} {l r d : DdNode}

theorem cddApplyTerminal_comm (op : CddOp) (l r : DdNode) :
    cddApplyTerminal op l r = cddApplyTerminal op r l := by
  have hneg (c d : DdNode) : c = cddNeg d → d = cddNeg c := by
    rintro rfl
    simp [cddNeg]
  have htt : cddNeg cddtrue = cddfalse := rfl
  have htf : cddtrue ≠ cddfalse := by decide
  cases op with
  | and =>
    simp only [cddApplyTerminal]
    grind
  | xor =>
    simp only [cddApplyTerminal]
    grind

/-- A termination condition that holds of two diagrams gives what it gives for any two
terminals they reach. -/
theorem reach_cddApplyTerminal (h : cddApplyTerminal op l r = some d) (a : Assignment)
    {z : DdNode} (hz : cddApplyTerminal op (reach a l) (reach a r) = some z) : reach a d = z := by
  have htrue : reach a cddtrue = cddtrue := rfl
  have hfalse : reach a cddfalse = cddfalse := rfl
  have hneg : reach a (cddNeg r) = cddNeg (reach a r) := reach_neg a r
  have hneg' : reach a (cddNeg l) = cddNeg (reach a l) := reach_neg a l
  have hnn (c : DdNode) : cddNeg (cddNeg c) = c := by simp [cddNeg]
  have htt : cddNeg cddtrue = cddfalse := rfl
  have hff : cddNeg cddfalse = cddtrue := rfl
  have htf : cddtrue ≠ cddfalse := by decide
  have hself (c : DdNode) : c ≠ cddNeg c := by
    intro h
    have := congrArg cddMask h
    simp [cddNeg] at this
  cases op with
  | and =>
    simp only [cddApplyTerminal] at h hz
    split_ifs at h <;> cases h <;> grind
  | xor =>
    simp only [cddApplyTerminal] at h hz
    split_ifs at h <;> cases h <;> grind

/-- Two terminals that no termination condition fits. -/
theorem cddApplyTerminal_reach_of_isterminal
    (hterm : (cddIsterminal l && cddIsterminal r) = true) (a : Assignment) :
    cddApplyTerminal op (reach a l) (reach a r) = cddApplyTerminal op l r := by
  obtain ⟨hl, hr⟩ := Bool.and_eq_true_iff.mp hterm
  rw [reach_of_isterminal hl, reach_of_isterminal hr]

/-- `cdd_apply` reaches the terminal that a termination condition gives for the terminals its
operands reach. -/
theorem cddApply_reach (op : CddOp) (hl : L.WellFormed xterms l) (hr : L.WellFormed xterms r) :
    ∃ n, cddApply L ⊤ op l r = some n ∧ L.WellFormed xterms n ∧
      ∀ a z, cddApplyTerminal op (reach a l) (reach a r) = some z → reach a n = z := by
  obtain ⟨n, hn, hw, -, hreach⟩ := cddApplyRec_induct op
    (R := fun c d m ↦ ∀ a z, cddApplyTerminal op (reach a c) (reach a d) = some z → reach a m = z)
    hl hr (Nat.lt_succ_self _)
    (fun c d m _ _ h a z hz ↦ reach_cddApplyTerminal h a hz)
    (fun c d _ _ h hterm ↦ by
      have hnone (a : Assignment) : cddApplyTerminal op (reach a c) (reach a d) = none := by
        rw [cddApplyTerminal_reach_of_isterminal hterm, h]
      constructor <;> intro a z hz <;> rw [hnone a] at hz <;> cases hz)
    (fun c d m h a z hz ↦ h a z (cddApplyTerminal_comm op _ _ ▸ hz))
    (fun c d m hc hd hlt h a z hz ↦ by
      obtain ⟨x, y, k, ⟨hk, -⟩, hx, hy, hm⟩ :=
        h.reach hc hd hlt (min_le_left _ _) (min_le_right _ _) a
      rw [hx, hy] at hz
      rw [hm, hk a z hz])
  exact ⟨n, hn, hw, hreach⟩

end

/-! ### Negated pointers -/

/-- The pointer and every edge below it are regular, so that `cddtrue` is not reached. -/
inductive Regular : DdNode → Prop
  | terminal : Regular (.terminal false)
  | xterm id : Regular (.xterm false id)
  | bdd level {low high} : Regular low → Regular high → Regular (.bdd false level low high)
  | cdd level {elem} : (∀ e ∈ elem, Regular e.1) → Regular (.cdd false level elem)

section

variable {L : Library} {xterms : ℕ} {l r d : DdNode} {level : ℕ}

theorem Regular.mask (h : Regular d) : cddMask d = false := by
  cases h <;> rfl

theorem Regular.elem (h : Regular d) : ∀ e ∈ d.elem, Regular e.1 := by
  cases h with
  | cdd _ hes => exact hes
  | terminal | xterm | bdd =>
    intro e he
    cases he

theorem regular_cddMakeCddNode {size : ℕ∞} {elem : List (DdNode × Raw)}
    (hd : cddMakeCddNode size level elem = some d) (h : ∀ e ∈ elem, Regular e.1) : Regular d := by
  unfold cddMakeCddNode at hd
  split at hd
  · cases hd
  · split at hd
    · cases hd
      exact h _ (List.mem_singleton_self _)
    · cases hd
      exact .cdd level h

/-- A node made of regular pointers, all negated or none, is regular up to that negation. -/
theorem Applied.regular {n : DdNode} {b : Bool}
    (h : Applied L (fun _ _ m ↦ Regular (cddNegCond m b)) l r level n) :
    Regular (cddNegCond n b) := by
  have hmask {m : DdNode} (hm : Regular (cddNegCond m b)) : cddMask m = b := by
    have := hm.mask
    rwa [cddMask_negCond, bne_eq_false_iff_eq] at this
  cases h with
  | @bdd low high _ hl hh =>
    unfold cddMakeBddNode
    split
    · exact hl
    · rw [cddRglr, hmask hl, cddNegCond, Bool.xor_self]
      exact .bdd _ hl hh
  | @cdd prev out node _ hm hn =>
    obtain ⟨s, es, hout⟩ := hm.head
    have hval : ∀ e ∈ out, Regular (cddNegCond e.1 b) := by
      intro e he
      obtain ⟨x, -, y, -, h⟩ := hm.values e he
      exact h
    have hprev : cddMask prev = b := hmask (hval (prev, s) (by simp [hout]))
    rw [hprev] at hn ⊢
    rw [cddNegCond_negCond, Bool.xor_self, cddNegCond_false]
    refine regular_cddMakeCddNode hn ?_
    intro e he
    obtain ⟨x, hx, rfl⟩ := List.mem_map.mp he
    exact hval x hx

/-- What a call passes down for a regular pointer is regular, and so is the negation of what
it passes down for a negated one. -/
theorem Regular.child {b : Bool} {c : DdNode} (h : Regular (cddNegCond d b))
    (hw : L.WellFormed xterms d) (hlt : level < maxLevel) (hle : level ≤ d.level)
    (hc : Child L level d c) : Regular (cddNegCond c b) := by
  have hmask : cddMask d = b := by
    have := h.mask
    rwa [cddMask_negCond, bne_eq_false_iff_eq] at this
  have hd : Regular (cddRglr d) := by
    rw [cddRglr, hmask]
    exact h
  have hsign {e : DdNode} (he : Regular e) : Regular (cddNegCond (cddNegCond e (cddMask d)) b) := by
    rwa [cddNegCond_negCond, hmask, Bool.xor_self, cddNegCond_false]
  rcases hc with ⟨-, e, he, rfl⟩ | ⟨hk, hc⟩
  · unfold edgesAt at he
    split at he
    · rw [← elem_negCond d (cddMask d)] at he
      exact hsign (hd.elem e he)
    · cases List.mem_singleton.mp he
      exact hsign hd
  · rcases eq_or_lt_of_le hle with rfl | hlt'
    · have hd' := hw.eq_bdd hk hlt
      rw [lowAt, highAt, if_pos le_rfl, if_pos le_rfl] at hc
      rw [hd', cddRglr, cddMask, cddNegCond, Bool.xor_self] at hd
      cases hd with
      | bdd _ hl hh => rcases hc with rfl | rfl <;> apply hsign <;> assumption
    · rw [lowAt, highAt, if_neg (not_le.mpr hlt'), if_neg (not_le.mpr hlt')] at hc
      rcases hc with rfl | rfl <;> exact hsign hd

/-- The operands that conjunctions of labelled guards meet: a guard and a regular diagram, or
with `b` the negations of two regular diagrams. -/
def Conjoins (L : Library) (b : Bool) (l r : DdNode) : Prop :=
  Regular (cddNegCond l b) ∧ Regular (cddNegCond r b) ∨
    b = false ∧ (L.WF l ∧ Regular r ∨ Regular l ∧ L.WF r)

theorem Conjoins.symm {b : Bool} (h : Conjoins L b l r) : Conjoins L b r l := by
  rcases h with ⟨hl, hr⟩ | ⟨hb, ⟨hl, hr⟩ | ⟨hl, hr⟩⟩
  · exact .inl ⟨hr, hl⟩
  · exact .inr ⟨hb, .inr ⟨hr, hl⟩⟩
  · exact .inr ⟨hb, .inl ⟨hr, hl⟩⟩

theorem Conjoins.child {b : Bool} {c c' : DdNode} (h : Conjoins L b l r)
    (hl : L.WellFormed xterms l) (hr : L.WellFormed xterms r) (hlt : level < maxLevel)
    (hll : level ≤ l.level) (hlr : level ≤ r.level) (hc : Child L level l c)
    (hc' : Child L level r c') : Conjoins L b c c' := by
  rcases h with ⟨hl', hr'⟩ | ⟨rfl, ⟨hl', hr'⟩ | ⟨hl', hr'⟩⟩
  · exact .inl ⟨hl'.child hl hlt hll hc, hr'.child hr hlt hlr hc'⟩
  · rw [← cddNegCond_false r] at hr'
    exact .inr ⟨rfl, .inl ⟨hc.wf hl' hlt hll, cddNegCond_false c' ▸ hr'.child hr hlt hlr hc'⟩⟩
  · rw [← cddNegCond_false l] at hl'
    exact .inr ⟨rfl, .inr ⟨cddNegCond_false c ▸ hl'.child hl hlt hll hc, hc'.wf hr' hlt hlr⟩⟩

/-- A termination condition of a conjunction that labelled guards meet gives a regular pointer,
or a negated one of two negated ones. -/
private theorem Conjoins.terminal {b : Bool} (h : Conjoins L b l r)
    (hd : cddApplyTerminal .and l r = some d) : Regular (cddNegCond d b) := by
  have hfalse : Regular cddfalse := .terminal
  have htrue : ¬ Regular cddtrue := by rintro ⟨⟩
  simp only [cddApplyTerminal] at hd
  rcases h with ⟨hl, hr⟩ | ⟨rfl, h⟩
  · split_ifs at hd with h1 h2 h3 <;> cases hd
    · exact hl
    · rcases h2 with rfl | rfl | rfl
      · exact hl
      · exact hr
      · have hml := hl.mask
        have hmr := hr.mask
        rw [cddMask_negCond, bne_eq_false_iff_eq] at hml hmr
        simp [cddNeg, hmr] at hml
    · exact hr
  · rw [cddNegCond_false]
    split_ifs at hd with h1 h2 h3 <;> cases hd
    · rcases h with ⟨-, hr⟩ | ⟨hl, -⟩
      · rcases h1 with rfl | rfl
        · exact hr
        · exact absurd hr htrue
      · exact hl
    · exact hfalse
    · rcases h with ⟨-, hr⟩ | ⟨hl, -⟩
      · exact hr
      · exact absurd (h3 ▸ hl) htrue

/-- An ordinary terminal decides a conjunction. -/
private theorem cddApplyTerminal_ordinary (hl : L.WF l) (hlt : cddIsterminal l = true) :
    cddApplyTerminal .and l r ≠ none := by
  rcases hl.eq_terminal hlt with rfl | rfl <;> simp only [cddApplyTerminal] <;> split_ifs <;>
    simp_all

/-- A guard never meets an extra terminal that it does not decide. -/
private theorem Conjoins.isterminal {b : Bool} (h : Conjoins L b l r)
    (hd : cddApplyTerminal .and l r = none) (hterm : (cddIsterminal l && cddIsterminal r) = true) :
    Regular (cddNegCond l b) ∧ Regular (cddNegCond r b) := by
  obtain ⟨hlt, hrt⟩ := Bool.and_eq_true_iff.mp hterm
  rcases h with h | ⟨rfl, ⟨hl, -⟩ | ⟨-, hr⟩⟩
  · exact h
  · exact absurd hd (cddApplyTerminal_ordinary hl hlt)
  · rw [cddApplyTerminal_comm] at hd
    exact absurd hd (cddApplyTerminal_ordinary hr hrt)

/-- The conjunctions of labelled guards keep all pointers regular, or all negated. -/
theorem cddApply_regular {b : Bool} (hl : L.WellFormed xterms l) (hr : L.WellFormed xterms r)
    (h : Conjoins L b l r) {n : DdNode} (hn : cddApply L ⊤ .and l r = some n) :
    Regular (cddNegCond n b) := by
  obtain ⟨n', hn', -, -, hR⟩ := cddApplyRec_induct .and
    (R := fun c d m ↦ Conjoins L b c d → Regular (cddNegCond m b)) hl hr (Nat.lt_succ_self _)
    (fun c d m _ _ hm hcd ↦ hcd.terminal hm)
    (fun c d _ _ hm hterm ↦
      ⟨fun hcd ↦ (hcd.isterminal hm hterm).1, fun hcd ↦ (hcd.isterminal hm hterm).2⟩)
    (fun c d m hm hcd ↦ hm hcd.symm)
    (fun c d m hc hd hlt hm hcd ↦ by
      refine Applied.regular (hm.mono fun x y z hz ↦ ?_)
      obtain ⟨hR, hx, hy⟩ := hz
      exact hR (hcd.child hc hd hlt (min_le_left _ _) (min_le_right _ _) hx hy))
  have heq : cddApply L ⊤ .and l r = some n' := hn'
  rw [hn, Option.some.injEq] at heq
  exact heq ▸ hR h

end

/-! ### The disjunction -/

section

variable {L : Library} {xterms : ℕ}

/-- No two guards hold at the assignment. -/
def DisjointAt (a : Assignment) (guards : List (DdNode × ℕ)) : Prop :=
  guards.Pairwise fun p q ↦ ¬ (eval a p.1 = true ∧ eval a q.1 = true)

/-- What the disjunction of labelled guards is: regular all over, and where no two guards hold
it reaches the label of the one that does. -/
structure Labels (L : Library) (xterms : ℕ) (guards : List (DdNode × ℕ)) (d : DdNode) : Prop where
  wf : L.WellFormed xterms d
  regular : Regular d
  reach_guard : ∀ a, DisjointAt a guards →
    ∀ p ∈ guards, eval a p.1 = true → reach a d = .xterm false p.2
  reach_none : ∀ a, (∀ p ∈ guards, eval a p.1 = false) → reach a d = cddfalse

theorem cddApplyTautology_labels {g : DdNode} {t_id : ℕ} (hg : L.WF g) (ht : t_id < xterms) :
    ∃ d, cddApplyTautology L ⊤ g t_id = some d ∧ Labels L xterms [(g, t_id)] d := by
  have hgx : L.WellFormed xterms g := hg.mono (Nat.zero_le _)
  obtain ⟨d, hd, hw, hreach⟩ := cddApply_reach .and hgx (.xterm false ht)
  have hreg : Regular (cddNegCond d false) :=
    cddApply_regular hgx (.xterm false ht) (.inr ⟨rfl, .inl ⟨hg, .xterm t_id⟩⟩) hd
  rw [cddNegCond_false] at hreg
  refine ⟨d, hd, hw, hreg, fun a _ p hp h ↦ ?_, fun a h ↦ ?_⟩
  · cases List.mem_singleton.mp hp
    exact hreach a _ (by rw [hg.reach_eq, h]; rfl)
  · have hg' : eval a g = false := h _ (List.mem_singleton_self _)
    exact hreach a _ (by rw [hg.reach_eq, hg']; rfl)

/-- `cdd_or` joins two labelled diagrams. -/
theorem cddOr_labels {ps qs : List (DdNode × ℕ)} {l r : DdNode} (hl : Labels L xterms ps l)
    (hr : Labels L xterms qs r) :
    ∃ d, cddApply L ⊤ .and (cddNeg l) (cddNeg r) = some d ∧
      Labels L xterms (ps ++ qs) (cddNeg d) := by
  obtain ⟨d, hd, hw, hreach⟩ := cddApply_reach .and hl.wf.neg hr.wf.neg
  have hnn (c : DdNode) : cddNegCond (cddNeg c) true = c := by simp [cddNeg]
  have hreg : Regular (cddNeg d) :=
    cddApply_regular hl.wf.neg hr.wf.neg
      (.inl ⟨(hnn l).symm ▸ hl.regular, (hnn r).symm ▸ hr.regular⟩) hd
  refine ⟨d, hd, hw.neg, hreg, fun a hdisj p hp h ↦ ?_, fun a h ↦ ?_⟩
  · -- the other operand reaches `cddfalse`, whose negation is neutral
    obtain ⟨hps, hqs, hpq⟩ := List.pairwise_append.mp hdisj
    rcases List.mem_append.mp hp with hp | hp
    · have hra : reach a r = cddfalse := hr.reach_none a fun q hq ↦
        Bool.eq_false_iff.mpr fun h' ↦ hpq p hp q hq ⟨h, h'⟩
      have hda := hreach a (.xterm true p.2) (by
        rw [reach_neg, reach_neg, hl.reach_guard a hps p hp h, hra]
        rfl)
      rw [reach_neg, hda]
      rfl
    · have hla : reach a l = cddfalse := hl.reach_none a fun q hq ↦
        Bool.eq_false_iff.mpr fun h' ↦ hpq q hq p hp ⟨h', h⟩
      have hda := hreach a (.xterm true p.2) (by
        rw [reach_neg, reach_neg, hr.reach_guard a hqs p hp h, hla]
        rfl)
      rw [reach_neg, hda]
      rfl
  · have hla := hl.reach_none a fun p hp ↦ h p (List.mem_append_left _ hp)
    have hra := hr.reach_none a fun p hp ↦ h p (List.mem_append_right _ hp)
    have hda := hreach a cddtrue (by
      rw [reach_neg, reach_neg, hla, hra]
      rfl)
    rw [reach_neg, hda]
    rfl

/-- A disjunction of labelled guards is built. -/
theorem Labelling.diagram_labels (u : Labelling)
    (hguards : ∀ p ∈ u.guards, L.WF p.1 ∧ p.2 < xterms) :
    ∃ d, u.diagram L ⊤ = some d ∧ Labels L xterms u.guards d := by
  induction u with
  | empty =>
    refine ⟨cddfalse, rfl, wf_cddfalse, .terminal, fun a _ p hp ↦ ?_, fun a _ ↦ rfl⟩
    cases hp
  | guard g t_id =>
    obtain ⟨hg, ht⟩ := hguards (g, t_id) (List.mem_singleton_self _)
    exact cddApplyTautology_labels hg ht
  | or s t ihs iht =>
    obtain ⟨l, hl, hlabl⟩ := ihs fun p hp ↦ hguards p (List.mem_append_left _ hp)
    obtain ⟨r, hr, hlabr⟩ := iht fun p hp ↦ hguards p (List.mem_append_right _ hp)
    obtain ⟨d, hd, hlab⟩ := cddOr_labels hlabl hlabr
    refine ⟨cddNeg d, ?_, hlab⟩
    simp only [Labelling.diagram, hl, hr, hd, Option.bind_eq_bind, Option.bind_some,
      Option.pure_def]

/-- A limit on the width makes the disjunction fail or makes no difference. -/
theorem Labelling.diagram_top {u : Labelling} {maxcddsize : ℕ∞} {d : DdNode}
    (h : u.diagram L maxcddsize = some d) : u.diagram L ⊤ = some d := by
  induction u generalizing d with
  | empty => exact h
  | guard g t_id => exact cddApplyRec_top h
  | or s t ihs iht =>
    simp only [Labelling.diagram, Option.bind_eq_bind, Option.bind_eq_some_iff, Option.pure_def]
      at h ⊢
    obtain ⟨l, hl, r, hr, n, hn, hd⟩ := h
    exact ⟨l, ihs hl, r, iht hr, n, cddApplyRec_top hn, hd⟩

end

/-- The disjunction of labelled guards, associated and ordered in any way, has no negated
pointer, and at an assignment where no two guards hold it reaches the label of the one that
does, or `cddfalse`. A limit on the width makes no difference unless it makes a call fail. -/
theorem Labelling.diagram_correct (L : Library) {xterms : ℕ} (u : Labelling)
    (hguards : ∀ p ∈ u.guards, L.WF p.1 ∧ p.2 < xterms) :
    ∃ d, u.diagram L ⊤ = some d ∧
      (∀ maxcddsize d', u.diagram L maxcddsize = some d' → d' = d) ∧
      L.WellFormed xterms d ∧ Regular d ∧
      ∀ a, DisjointAt a u.guards →
        (∀ p ∈ u.guards, eval a p.1 = true → reach a d = .xterm false p.2) ∧
        ((∀ p ∈ u.guards, eval a p.1 = false) → reach a d = cddfalse) := by
  obtain ⟨d, hd, h⟩ := u.diagram_labels hguards
  refine ⟨d, hd, fun size d' hd' ↦ ?_, h.wf, h.regular,
    fun a ha ↦ ⟨h.reach_guard a ha, h.reach_none a⟩⟩
  have htop := Labelling.diagram_top hd'
  rwa [hd, Option.some.injEq, eq_comm] at htop

/-- The test `x1 - x0 < 2` with one tautology and its negation with another. -/
def sampleLabelling : Labelling :=
  .or (.guard (.cdd true 0 [(cddfalse, 4), (cddtrue, INF)]) 1)
    (.guard (.cdd false 0 [(cddfalse, 4), (cddtrue, INF)]) 0)

theorem Labelling.diagram_correct_sample :
    ∃ d, sampleLabelling.diagram sampleLibrary ⊤ = some d ∧
      (∀ maxcddsize d', sampleLabelling.diagram sampleLibrary maxcddsize = some d' → d' = d) ∧
      sampleLibrary.WellFormed 2 d ∧ Regular d ∧
      ∀ a, DisjointAt a sampleLabelling.guards →
        (∀ p ∈ sampleLabelling.guards, eval a p.1 = true → reach a d = .xterm false p.2) ∧
        ((∀ p ∈ sampleLabelling.guards, eval a p.1 = false) → reach a d = cddfalse) :=
  Labelling.diagram_correct sampleLibrary sampleLabelling (by decide)

end UCDD

import UCDD.Diagram.Node

/-!
# Node creation and apply

`cdd_make_bdd_node` and `cdd_make_cdd_node` of `kernel.c:613–768` on trees, where finding a
stored node and creating it are the same, and `cdd_apply` of `cddop.c:141–332` on them. Apply
walks two diagrams at once; at a CDD level it merges the two partitions of the line. The
result is `none` where the code returns `NULL` because a node gets too wide.
-/

namespace UCDD

open IntervalMap DdNode

/-- `cdd_make_bdd_node`: no node for equal children, and a regular low child. -/
def cddMakeBddNode (level : ℕ) (low high : DdNode) : DdNode :=
  if low = high then low
  else .bdd (cddMask low) level (cddRglr low) (cddNegCond high (cddMask low))

/-- `cdd_make_cdd_node`: no node for one child, none wider than `cdd_maxcddsize`. -/
def cddMakeCddNode (maxcddsize : ℕ∞) (level : ℕ) (elem : List (DdNode × Raw)) : Option DdNode :=
  if maxcddsize < elem.length then none
  else match elem with
    | [e] => some e.1
    | _ => some (.cdd false level elem)

/-- The operators of `cdd_apply`. -/
inductive CddOp where
  | and
  | xor
  deriving DecidableEq, Repr

/-- The operator on truth values. -/
def CddOp.eval : CddOp → Bool → Bool → Bool
  | .and, x, y => x && y
  | .xor, x, y => x ^^ y

/-- The termination conditions of `cdd_apply_rec`, `cddop.c:176–207`. -/
def cddApplyTerminal (op : CddOp) (l r : DdNode) : Option DdNode :=
  match op with
  | .and =>
    if l = r ∨ r = cddtrue then some l
    else if l = cddfalse ∨ r = cddfalse ∨ l = cddNeg r then some cddfalse
    else if l = cddtrue then some r
    else none
  | .xor =>
    if l = r then some cddfalse
    else if l = cddNeg r then some cddtrue
    else if l = cddfalse then some r
    else if r = cddfalse then some l
    else if l = cddtrue then some (cddNeg r)
    else if r = cddtrue then some (cddNeg l)
    else none

/-- One node of `cdd_apply_rec`, `cddop.c:242–324`, over the recursive call `rec`. -/
def cddApplyNode (L : Library) (maxcddsize : ℕ∞) (rec : DdNode → DdNode → Option DdNode)
    (l r : DdNode) : Option DdNode :=
  let lmask := cddMask l
  let rmask := cddMask r
  let level := min l.level r.level
  match L.levelinfo[level]? with
  | some (.cdd _ _) =>
    match edgesAt level l, edgesAt level r with
    | lp :: ls, rp :: rs => do
      let prev ← rec (cddNegCond lp.1 lmask) (cddNegCond rp.1 rmask)
      let mask := cddMask prev
      let elem ← merge (fun a b ↦ rec (cddNegCond a lmask) (cddNegCond b rmask)) INF
        (lp :: ls) (rp :: rs) prev
      let node ← cddMakeCddNode maxcddsize level (elem.map fun e ↦ (cddNegCond e.1 mask, e.2))
      return cddNegCond node mask
    | _, _ => none
  | some .bdd => do
    let low ← rec (cddNegCond (lowAt level l) lmask) (cddNegCond (lowAt level r) rmask)
    let high ← rec (cddNegCond (highAt level l) lmask) (cddNegCond (highAt level r) rmask)
    return cddMakeBddNode level low high
  | none => none

/-- `cdd_apply_rec`. The operation is symmetric, so the operands are put in address order;
two extra terminals give the first of them. -/
def cddApplyRec (L : Library) (maxcddsize : ℕ∞) (op : CddOp) : ℕ → DdNode → DdNode → Option DdNode
  | 0, _, _ => none
  | fuel + 1, l, r =>
    match cddApplyTerminal op l r with
    | some res => some res
    | none =>
      if cddIsterminal l && cddIsterminal r then some (if L.addr l > L.addr r then r else l)
      else if L.addr l > L.addr r then
        cddApplyNode L maxcddsize (cddApplyRec L maxcddsize op fuel) r l
      else cddApplyNode L maxcddsize (cddApplyRec L maxcddsize op fuel) l r

/-- `cdd_apply`. Every call of the recursion goes down in one of the operands. -/
def cddApply (L : Library) (maxcddsize : ℕ∞) (op : CddOp) (l r : DdNode) : Option DdNode :=
  cddApplyRec L maxcddsize op (l.height + r.height + 1) l r

/-! ### Node creation -/

section

variable {L : Library} {xterms : ℕ}

/-- What a function that builds a diagram from `level` on returns: a well-formed diagram with
the values `f`. -/
structure Builds (L : Library) (xterms level : ℕ) (f : Assignment → Bool) (d : DdNode) : Prop where
  wf : L.WellFormed xterms d
  level_le : level ≤ d.level
  eval_eq : ∀ a, eval a d = f a

theorem Builds.congr {level : ℕ} {f g : Assignment → Bool} {d : DdNode}
    (h : Builds L xterms level f d) (hfg : ∀ a, f a = g a) : Builds L xterms level g d :=
  ⟨h.wf, h.level_le, fun a ↦ (h.eval_eq a).trans (hfg a)⟩

theorem cddMakeBddNode_spec {level : ℕ} {low high : DdNode}
    (hk : L.levelinfo[level]? = some .bdd) (hl : level < low.level) (hh : level < high.level)
    (hwl : L.WellFormed xterms low) (hwh : L.WellFormed xterms high) :
    Builds L xterms level (fun a ↦ bif a.bool level then eval a high else eval a low)
      (cddMakeBddNode level low high) := by
  rw [cddMakeBddNode]
  split
  · next h =>
    subst h
    exact ⟨hwl, le_of_lt hl, fun a ↦ by simp⟩
  · next h =>
    have hne : cddRglr low ≠ cddNegCond high (cddMask low) := by
      intro he
      apply h
      have := congrArg (cddNegCond · (cddMask low)) he
      simpa using this
    refine ⟨.bdd _ hk ?_ ?_ hne (cddMask_rglr _) hwl.rglr (hwh.negCond _), le_rfl, ?_⟩
    · simpa [cddRglr] using hl
    · simpa using hh
    · intro a
      rw [eval, eval_negCond, eval_rglr]
      cases a.bool level <;> cases cddMask low <;> simp

theorem cddMakeCddNode_spec {maxcddsize : ℕ∞} {level : ℕ} {elem : List (DdNode × Raw)}
    (hsize : elem.length ≤ maxcddsize) (hk : L.isCdd level) (hp : Partition INF elem)
    (ha : Alternating elem) (hm : ∀ e ∈ elem.head?, cddMask e.1 = false)
    (hl : ∀ e ∈ elem, level < e.1.level) (hw : ∀ e ∈ elem, L.WellFormed xterms e.1) :
    ∃ d, cddMakeCddNode maxcddsize level elem = some d ∧
      Builds L xterms level (fun a ↦ evalElem a (a.diff level) elem) d := by
  have hsize' : ¬ maxcddsize < (elem.length : ℕ∞) := not_lt.mpr hsize
  rcases elem with _ | ⟨e, _ | ⟨e', es⟩⟩
  · exact absurd hp id
  · have he : e.2 = INF := hp
    refine ⟨e.1, if_neg hsize', hw e (by simp), le_of_lt (hl e (by simp)), fun a ↦ ?_⟩
    rw [evalElem, he, (a.diff level).top_below]
    rfl
  · refine ⟨_, if_neg hsize', .cdd false hk hl hp ha (by simp) hm hw, le_rfl, fun a ↦ ?_⟩
    simp [eval]

/-- The elements of a new CDD node with their common mask taken off: the node has the values
of the elements. -/
theorem cddMakeCddNode_negCond {maxcddsize : ℕ∞} {level : ℕ} {elem : List (DdNode × Raw)}
    (mask : Bool) (hsize : elem.length ≤ maxcddsize) (hk : L.isCdd level)
    (hp : Partition INF elem) (ha : Alternating elem)
    (hm : ∀ e ∈ elem.head?, cddMask e.1 = mask)
    (hl : ∀ e ∈ elem, level < e.1.level) (hw : ∀ e ∈ elem, L.WellFormed xterms e.1) :
    ∃ d, cddMakeCddNode maxcddsize level (elem.map fun e ↦ (cddNegCond e.1 mask, e.2)) = some d ∧
      Builds L xterms level (fun a ↦ evalElem a (a.diff level) elem) (cddNegCond d mask) := by
  have hm' : ∀ e ∈ (elem.map fun e ↦ (cddNegCond e.1 mask, e.2)).head?, cddMask e.1 = false := by
    intro e he
    rw [List.head?_map, Option.mem_map] at he
    obtain ⟨x, hx, rfl⟩ := he
    simp [hm x hx]
  obtain ⟨d, hd, hb⟩ := cddMakeCddNode_spec (by simpa using hsize) hk
    (hp.map (cddNegCond · mask)) (ha.map (cddNegCond_injective mask)) hm'
    (List.forall_mem_map.mpr fun e he ↦ by simpa using hl e he)
    (List.forall_mem_map.mpr fun e he ↦ (hw e he).negCond mask)
  refine ⟨d, hd, hb.wf.negCond _, by simpa using hb.level_le, fun a ↦ ?_⟩
  obtain ⟨c, s, hs, -, hc⟩ := Library.WellFormed.select_elem hp a (a.diff level)
  have hs' := select_map (a.diff level) (cddNegCond · mask) elem
  rw [hs] at hs'
  rw [eval_negCond, hb.eval_eq, evalElem_of_select hs', hc, eval_negCond]
  simp

/-- Without a limit on the width every node is made. -/
theorem exists_cddMakeCddNode (level : ℕ) (elem : List (DdNode × Raw)) :
    ∃ d, cddMakeCddNode ⊤ level elem = some d := by
  unfold cddMakeCddNode
  rw [if_neg (not_lt.mpr le_top)]
  split
  · exact ⟨_, rfl⟩
  · exact ⟨_, rfl⟩

theorem cddMakeCddNode_top (level : ℕ) {e e' : DdNode × Raw} {es : List (DdNode × Raw)} :
    (cddMakeCddNode ⊤ level (e :: e' :: es)).getD cddfalse = .cdd false level (e :: e' :: es) := by
  have : ¬ (⊤ : ℕ∞) < (e :: e' :: es).length := not_lt.mpr le_top
  have hmake : cddMakeCddNode ⊤ level (e :: e' :: es) = some (.cdd false level (e :: e' :: es)) :=
    if_neg this
  rw [hmake, Option.getD_some]

theorem cddMakeCddNode_of_size {size : ℕ∞} {level : ℕ} {elem : List (DdNode × Raw)} {d : DdNode}
    (h : cddMakeCddNode size level elem = some d) : cddMakeCddNode ⊤ level elem = some d := by
  unfold cddMakeCddNode at h ⊢
  rw [if_neg (not_lt.mpr le_top)]
  split at h
  · cases h
  · exact h

theorem reach_cddMakeBddNode (a : Assignment) (level : ℕ) (low high : DdNode) :
    reach a (cddMakeBddNode level low high) =
      bif a.bool level then reach a high else reach a low := by
  unfold cddMakeBddNode
  split
  · next h => rw [h, Bool.cond_self]
  · rw [reach, cddRglr, reach_negCond, reach_negCond]
    cases a.bool level <;> simp

theorem reach_cddMakeCddNode {size : ℕ∞} {level : ℕ} {elem : List (DdNode × Raw)} {d : DdNode}
    {a : Assignment} (hp : Partition INF elem) (hd : cddMakeCddNode size level elem = some d) :
    reach a d = reachElem a (a.diff level) elem := by
  unfold cddMakeCddNode at hd
  split at hd
  · cases hd
  · split at hd
    · next e _ =>
      cases hd
      have he : e.2 = INF := hp
      rw [reachElem, he, (a.diff level).top_below]
      rfl
    · cases hd
      rw [reach, cddNegCond_false]

section All

variable {P : ℕ → Prop} {Q : Raw → Prop} {level : ℕ}

theorem all_cddMakeBddNode {low high : DdNode} (hP : P level) (hl : All P Q low)
    (hh : All P Q high) : All P Q (cddMakeBddNode level low high) := by
  unfold cddMakeBddNode
  split
  · exact hl
  · exact .bdd _ hP (hl.negCond _) (hh.negCond _)

theorem all_cddMakeCddNode {size : ℕ∞} {elem : List (DdNode × Raw)} {n : DdNode} (hP : P level)
    (hn : cddMakeCddNode size level elem = some n) (h : ∀ e ∈ elem, Q e.2 ∧ All P Q e.1) :
    All P Q n := by
  unfold cddMakeCddNode at hn
  split at hn
  · cases hn
  · have hcdd : All P Q (.cdd false level elem) :=
      .cdd _ hP (fun e he ↦ (h e he).1) fun e he ↦ (h e he).2
    split at hn
    · cases hn
      exact (h _ (List.mem_singleton_self _)).2
    · cases hn
      exact hcdd

end All

/-! ### Apply -/

/-- Whatever holds of the levels and bounds of `l` and `r` holds of those of `n`. -/
def Inherits (l r n : DdNode) : Prop :=
  ∀ (P : ℕ → Prop) (Q : Raw → Prop), Q INF → All P Q l → All P Q r → All P Q n

/-- Where a termination condition applies it gives the value of the operator. -/
theorem cddApplyTerminal_spec {op : CddOp} {l r d : DdNode} (hl : L.WellFormed xterms l)
    (hr : L.WellFormed xterms r) (h : cddApplyTerminal op l r = some d) :
    Builds L xterms (min l.level r.level) (fun a ↦ op.eval (eval a l) (eval a r)) d := by
  have hlev : min l.level r.level ≤ maxLevel := le_trans (min_le_left _ _) hl.level_le
  have hfalse : min l.level r.level ≤ cddfalse.level := hlev
  have htrue : min l.level r.level ≤ cddtrue.level := hlev
  have hnl : min l.level r.level ≤ (cddNeg l).level := by simp [cddNeg]
  have hnr : min l.level r.level ≤ (cddNeg r).level := by simp [cddNeg]
  cases op with
  | and =>
    simp only [cddApplyTerminal] at h
    split_ifs at h with h1 h2 h3 <;> cases h
    · exact ⟨hl, min_le_left _ _, fun a ↦ by rcases h1 with rfl | rfl <;> simp [CddOp.eval]⟩
    · exact ⟨wf_cddfalse, hfalse, fun a ↦ by rcases h2 with rfl | rfl | rfl <;> simp [CddOp.eval]⟩
    · exact ⟨hr, min_le_right _ _, fun a ↦ by simp [CddOp.eval, h3]⟩
  | xor =>
    simp only [cddApplyTerminal] at h
    split_ifs at h with h1 h2 h3 h4 h5 h6 <;> cases h
    · exact ⟨wf_cddfalse, hfalse, fun a ↦ by simp [CddOp.eval, h1]⟩
    · exact ⟨wf_cddtrue, htrue, fun a ↦ by simp [CddOp.eval, h2]⟩
    · exact ⟨hr, min_le_right _ _, fun a ↦ by simp [CddOp.eval, h3]⟩
    · exact ⟨hl, min_le_left _ _, fun a ↦ by simp [CddOp.eval, h4]⟩
    · exact ⟨hr.neg, hnr, fun a ↦ by simp [CddOp.eval, h5]⟩
    · exact ⟨hl.neg, hnl, fun a ↦ by simp [CddOp.eval, h6]⟩

theorem inherits_cddApplyTerminal {op : CddOp} {l r d : DdNode}
    (h : cddApplyTerminal op l r = some d) : Inherits l r d := by
  intro P Q hQ hl hr
  have hfalse : All P Q cddfalse := .terminal _
  have htrue : All P Q cddtrue := .terminal _
  unfold cddApplyTerminal at h
  cases op with
  | and =>
    simp only at h
    split_ifs at h <;> cases h <;> assumption
  | xor =>
    simp only at h
    split_ifs at h <;> cases h
    · exact hfalse
    · exact htrue
    · exact hr
    · exact hl
    · exact hr.negCond _
    · exact hl.negCond _

section Node

variable {op : CddOp} {rec : DdNode → DdNode → Option DdNode} {l r : DdNode}

/-- The level of the new node is the level of an operand. -/
private theorem level_of_all {P : ℕ → Prop} {Q : Raw → Prop} (hl : All P Q l) (hr : All P Q r)
    (hlt : min l.level r.level < maxLevel) : P (min l.level r.level) := by
  rcases min_choice l.level r.level with h | h
  · rw [h] at hlt ⊢
    exact hl.level (ne_of_lt hlt)
  · rw [h] at hlt ⊢
    exact hr.level (ne_of_lt hlt)

/-- How one node of the recursion is made from the results of the calls below it, each in the
relation `R` to its operands. -/
inductive Applied (L : Library) (R : DdNode → DdNode → DdNode → Prop) (l r : DdNode)
    (level : ℕ) : DdNode → Prop
  | bdd {low high} : L.levelinfo[level]? = some .bdd →
      R (cddNegCond (lowAt level l) (cddMask l)) (cddNegCond (lowAt level r) (cddMask r)) low →
      R (cddNegCond (highAt level l) (cddMask l)) (cddNegCond (highAt level r) (cddMask r)) high →
      Applied L R l r level (cddMakeBddNode level low high)
  | cdd {prev out node} : L.isCdd level →
      Merged INF (fun a b n ↦ R (cddNegCond a (cddMask l)) (cddNegCond b (cddMask r)) n)
        (edgesAt level l) (edgesAt level r) prev out →
      cddMakeCddNode ⊤ level (out.map fun e ↦ (cddNegCond e.1 (cddMask prev), e.2)) = some node →
      Applied L R l r level (cddNegCond node (cddMask prev))

/-- A pointer that a node of the recursion passes down for the operand `d`. -/
def Child (L : Library) (level : ℕ) (d c : DdNode) : Prop :=
  L.isCdd level ∧ (∃ e ∈ edgesAt level d, c = cddNegCond e.1 (cddMask d)) ∨
    L.levelinfo[level]? = some .bdd ∧
      (c = cddNegCond (lowAt level d) (cddMask d) ∨ c = cddNegCond (highAt level d) (cddMask d))

theorem Child.wf {level : ℕ} {d c : DdNode} (hd : L.WellFormed xterms d) (hlt : level < maxLevel)
    (hle : level ≤ d.level) (hc : Child L level d c) : L.WellFormed xterms c := by
  rcases hc with ⟨hk, e, he, rfl⟩ | ⟨hk, rfl | rfl⟩
  · exact ((edgesAt_spec hd hk hlt hle).wf e he).negCond _
  · exact (bddEdgesAt_spec hd hk hlt hle).wf_low.negCond _
  · exact (bddEdgesAt_spec hd hk hlt hle).wf_high.negCond _

theorem Child.height_le {level : ℕ} {d c : DdNode} (hd : L.WellFormed xterms d)
    (hlt : level < maxLevel) (hle : level ≤ d.level) (hc : Child L level d c) :
    c.height ≤ d.height ∧ (d.level = level → c.height < d.height) := by
  rcases hc with ⟨hk, e, he, rfl⟩ | ⟨hk, rfl | rfl⟩
  · have hel := edgesAt_spec hd hk hlt hle
    simp only [height_negCond]
    exact ⟨hel.height_le e he, fun h ↦ hel.height_lt h e he⟩
  · have hel := bddEdgesAt_spec hd hk hlt hle
    simp only [height_negCond]
    exact ⟨hel.height_low, fun h ↦ (hel.height_lt h).1⟩
  · have hel := bddEdgesAt_spec hd hk hlt hle
    simp only [height_negCond]
    exact ⟨hel.height_high, fun h ↦ (hel.height_lt h).2⟩

/-- The calls below a node go down in one of the operands. -/
theorem cddApplyNode_applied {R : DdNode → DdNode → DdNode → Prop} (hl : L.WellFormed xterms l)
    (hr : L.WellFormed xterms r) (hterm : (cddIsterminal l && cddIsterminal r) = false)
    (hrec : ∀ c d, L.WellFormed xterms c → L.WellFormed xterms d →
      Child L (min l.level r.level) l c → Child L (min l.level r.level) r d →
      min l.level r.level < c.level → min l.level r.level < d.level →
      c.height + d.height < l.height + r.height → ∃ n, rec c d = some n ∧ R c d n) :
    min l.level r.level < maxLevel ∧
      ∃ n, cddApplyNode L ⊤ rec l r = some n ∧ Applied L R l r (min l.level r.level) n := by
  obtain ⟨hlt, info, hk⟩ := min_level_declared hl hr hterm
  refine ⟨hlt, ?_⟩
  cases info with
  | bdd =>
    have hel := bddEdgesAt_spec hl hk hlt (min_le_left _ _)
    have her := bddEdgesAt_spec hr hk hlt (min_le_right _ _)
    obtain ⟨low, hlow, hRl⟩ := hrec _ _ (hel.wf_low.negCond (cddMask l))
      (her.wf_low.negCond (cddMask r)) (.inr ⟨hk, .inl rfl⟩) (.inr ⟨hk, .inl rfl⟩)
      (by simpa using hel.level_low)
      (by simpa using her.level_low) (by
        simp only [height_negCond]
        exact height_add_lt hel.height_low her.height_low (fun h ↦ (hel.height_lt h).1)
          fun h ↦ (her.height_lt h).1)
    obtain ⟨high, hhigh, hRh⟩ := hrec _ _ (hel.wf_high.negCond (cddMask l))
      (her.wf_high.negCond (cddMask r)) (.inr ⟨hk, .inr rfl⟩) (.inr ⟨hk, .inr rfl⟩)
      (by simpa using hel.level_high)
      (by simpa using her.level_high) (by
        simp only [height_negCond]
        exact height_add_lt hel.height_high her.height_high (fun h ↦ (hel.height_lt h).2)
          fun h ↦ (her.height_lt h).2)
    refine ⟨_, ?_, .bdd hk hRl hRh⟩
    simp only [cddApplyNode, hk, hlow, hhigh]
    rfl
  | cdd i j =>
    have hel := edgesAt_spec hl ⟨i, j, hk⟩ hlt (min_le_left _ _)
    have her := edgesAt_spec hr ⟨i, j, hk⟩ hlt (min_le_right _ _)
    obtain ⟨lp, ls, hlp⟩ := List.exists_cons_of_ne_nil hel.partition.ne_nil
    obtain ⟨rp, rs, hrp⟩ := List.exists_cons_of_ne_nil her.partition.ne_nil
    have hcall : ∀ a ∈ edgesAt (min l.level r.level) l, ∀ b ∈ edgesAt (min l.level r.level) r,
        ∃ n, rec (cddNegCond a.1 (cddMask l)) (cddNegCond b.1 (cddMask r)) = some n ∧
          R (cddNegCond a.1 (cddMask l)) (cddNegCond b.1 (cddMask r)) n := by
      intro a ha b hb
      apply hrec _ _ ((hel.wf a ha).negCond (cddMask l)) ((her.wf b hb).negCond (cddMask r))
        (.inl ⟨⟨i, j, hk⟩, a, ha, rfl⟩) (.inl ⟨⟨i, j, hk⟩, b, hb, rfl⟩)
      · simpa using hel.level_lt a ha
      · simpa using her.level_lt b hb
      · simp only [height_negCond]
        exact height_add_lt (hel.height_le a ha) (her.height_le b hb)
          (fun h ↦ hel.height_lt h a ha) fun h ↦ her.height_lt h b hb
    obtain ⟨prev, hprev, hRprev⟩ := hcall lp (by simp [hlp]) rp (by simp [hrp])
    obtain ⟨out, hout, hmerged⟩ := merge_spec
      (f := fun a b ↦ rec (cddNegCond a (cddMask l)) (cddNegCond b (cddMask r)))
      (P := fun a b n ↦ R (cddNegCond a (cddMask l)) (cddNegCond b (cddMask r)) n)
      hel.partition her.partition hcall (by
        rw [hlp, hrp]
        rintro a ⟨⟩ b ⟨⟩
        exact hRprev)
    obtain ⟨node, hnode⟩ := exists_cddMakeCddNode (min l.level r.level)
      (out.map fun e ↦ (cddNegCond e.1 (cddMask prev), e.2))
    refine ⟨_, ?_, .cdd ⟨i, j, hk⟩ hmerged hnode⟩
    rw [hlp, hrp] at hout
    simp only [cddApplyNode, hk, hlp, hrp, hprev, hout, hnode, Option.bind_eq_bind,
      Option.bind_some, Option.pure_def]

section Applied

variable {R : DdNode → DdNode → DdNode → Prop} {level : ℕ} {n : DdNode}

theorem Applied.mono {R' : DdNode → DdNode → DdNode → Prop} (h : Applied L R l r level n)
    (hR : ∀ c d m, R c d m → R' c d m) : Applied L R' l r level n := by
  cases h with
  | bdd hk hl hh => exact .bdd hk (hR _ _ _ hl) (hR _ _ _ hh)
  | cdd hk hm hn => exact .cdd hk (hm.mono fun a b c ↦ hR _ _ _) hn

/-- The new node is well formed if the results of the calls are, from below the level on. -/
theorem Applied.wf (h : Applied L R l r level n)
    (hR : ∀ c d m, R c d m → L.WellFormed xterms m ∧ level < m.level) :
    L.WellFormed xterms n ∧ level ≤ n.level := by
  cases h with
  | bdd hk hl hh =>
    obtain ⟨hwl, hll⟩ := hR _ _ _ hl
    obtain ⟨hwh, hlh⟩ := hR _ _ _ hh
    have hb := cddMakeBddNode_spec hk hll hlh hwl hwh
    exact ⟨hb.wf, hb.level_le⟩
  | @cdd prev out node hk hm hn =>
    have hout : ∀ e ∈ out, L.WellFormed xterms e.1 ∧ level < e.1.level := by
      intro e he
      obtain ⟨a, -, b, -, h⟩ := hm.values e he
      exact hR _ _ _ h
    obtain ⟨d, hd, hb⟩ := cddMakeCddNode_negCond (cddMask prev) (le_top (a := (out.length : ℕ∞)))
      hk hm.partition hm.alternating (by obtain ⟨s, es, rfl⟩ := hm.head; rintro e ⟨⟩; rfl)
      (fun e he ↦ (hout e he).2) fun e he ↦ (hout e he).1
    rw [hn] at hd
    cases hd
    exact ⟨hb.wf, hb.level_le⟩

/-- The new node reaches what the call for the selected edges reaches. -/
theorem Applied.reach (h : Applied L R l r level n) (hl : L.WellFormed xterms l)
    (hr : L.WellFormed xterms r) (hlt : level < maxLevel) (hll : level ≤ l.level)
    (hlr : level ≤ r.level) (a : Assignment) :
    ∃ c d m, R c d m ∧ reach a l = reach a c ∧ reach a r = reach a d ∧
      reach a n = reach a m := by
  cases h with
  | bdd hk hRl hRh =>
    rw [reach_bddEdgesAt hl hk hlt hll, reach_bddEdgesAt hr hk hlt hlr, reach_cddMakeBddNode]
    cases a.bool level
    · exact ⟨_, _, _, hRl, (reach_negCond _ _ _).symm, (reach_negCond _ _ _).symm, rfl⟩
    · exact ⟨_, _, _, hRh, (reach_negCond _ _ _).symm, (reach_negCond _ _ _).symm, rfl⟩
  | @cdd prev out node hk hm hn =>
    obtain ⟨x, y, z, hx, hy, hz, hR⟩ := hm.select (a.diff level)
    refine ⟨_, _, z, hR, ?_, ?_, ?_⟩
    · rw [reach_edgesAt hl hk hlt hll, reachElem_of_select hx, reach_negCond]
    · rw [reach_edgesAt hr hk hlt hlr, reachElem_of_select hy, reach_negCond]
    · have hz' := select_map (a.diff level) (cddNegCond · (cddMask prev)) out
      rw [hz] at hz'
      rw [reach_negCond, reach_cddMakeCddNode (hm.partition.map (cddNegCond · (cddMask prev))) hn,
        reachElem_of_select hz', reach_negCond, cddNegCond_negCond, Bool.xor_self,
        cddNegCond_false]

/-- The levels and bounds of the new node come from the operands. -/
theorem Applied.inherits (h : Applied L R l r level n)
    (hR : ∀ c d m, R c d m → Inherits c d m) (hlevel : min l.level r.level = level)
    (hlt : level < maxLevel) : Inherits l r n := by
  intro P Q hQ hal har
  have hP : P level := hlevel ▸ level_of_all hal har (hlevel ▸ hlt)
  cases h with
  | bdd hk hRl hRh =>
    apply all_cddMakeBddNode hP
    · exact hR _ _ _ hRl P Q hQ ((all_lowAt _ hal).negCond _) ((all_lowAt _ har).negCond _)
    · exact hR _ _ _ hRh P Q hQ ((all_highAt _ hal).negCond _) ((all_highAt _ har).negCond _)
  | @cdd prev out node hk hm hn =>
    have hall := all_edgesAt hQ level hal
    have harr := all_edgesAt hQ level har
    apply All.negCond
    apply all_cddMakeCddNode hP hn
    intro e he
    obtain ⟨x, hx, rfl⟩ := List.mem_map.mp he
    obtain ⟨a, ha, b, hb, hab⟩ := hm.values x hx
    refine ⟨?_, (hR _ _ _ hab P Q hQ ((hall a ha).2.negCond _)
      ((harr b hb).2.negCond _)).negCond _⟩
    rcases hm.bounds x hx with ⟨y, hy, hyx⟩ | ⟨y, hy, hyx⟩
    · exact hyx ▸ (hall y hy).1
    · exact hyx ▸ (harr y hy).1

end Applied

end Node

/-- What the recursion returns is in the relation `R` to its operands, if this holds of the
termination conditions and of two extra terminals, and of a node made from such results. -/
theorem cddApplyRec_induct (op : CddOp) {R : DdNode → DdNode → DdNode → Prop} {fuel : ℕ}
    {l r : DdNode} (hl : L.WellFormed xterms l) (hr : L.WellFormed xterms r)
    (hfuel : l.height + r.height < fuel)
    (hterm : ∀ l r d, L.WellFormed xterms l → L.WellFormed xterms r →
      cddApplyTerminal op l r = some d → R l r d)
    (hboth : ∀ l r, L.WellFormed xterms l → L.WellFormed xterms r →
      cddApplyTerminal op l r = none → (cddIsterminal l && cddIsterminal r) = true →
      R l r l ∧ R l r r)
    (hcomm : ∀ l r n, R l r n → R r l n)
    (hnode : ∀ l r n, L.WellFormed xterms l → L.WellFormed xterms r →
      min l.level r.level < maxLevel →
      Applied L (fun c d m ↦ R c d m ∧ Child L (min l.level r.level) l c ∧
        Child L (min l.level r.level) r d) l r (min l.level r.level) n → R l r n) :
    ∃ n, cddApplyRec L ⊤ op fuel l r = some n ∧ L.WellFormed xterms n ∧
      min l.level r.level ≤ n.level ∧ R l r n := by
  induction fuel generalizing l r with
  | zero => exact absurd hfuel (Nat.not_lt_zero _)
  | succ fuel ih =>
    rw [cddApplyRec]
    cases ht : cddApplyTerminal op l r with
    | some d =>
      have hb := cddApplyTerminal_spec hl hr ht
      exact ⟨d, rfl, hb.wf, hb.level_le, hterm l r d hl hr ht⟩
    | none =>
      -- one node, with the operands in either order
      have hcall (l' r' : DdNode) (hl' : L.WellFormed xterms l') (hr' : L.WellFormed xterms r')
          (htt : (cddIsterminal l' && cddIsterminal r') = false)
          (hh : l'.height + r'.height = l.height + r.height) :
          ∃ n, cddApplyNode L ⊤ (cddApplyRec L ⊤ op fuel) l' r' = some n ∧
            L.WellFormed xterms n ∧ min l'.level r'.level ≤ n.level ∧ R l' r' n := by
        obtain ⟨hlt, n, hn, happ⟩ := cddApplyNode_applied
          (R := fun c d m ↦ (L.WellFormed xterms m ∧ min l'.level r'.level < m.level) ∧
            R c d m ∧ Child L (min l'.level r'.level) l' c ∧ Child L (min l'.level r'.level) r' d)
          hl' hr' htt fun c d hc hd hcl hdr hlc hld hcd ↦ by
            obtain ⟨m, hm, hw, hle, hR⟩ := ih hc hd (by omega)
            exact ⟨m, hm, ⟨hw, lt_of_lt_of_le (lt_min hlc hld) hle⟩, hR, hcl, hdr⟩
        obtain ⟨hw, hle⟩ := happ.wf (fun c d m h ↦ h.1)
        exact ⟨n, hn, hw, hle, hnode l' r' n hl' hr' hlt (happ.mono fun c d m h ↦ h.2)⟩
      simp only
      cases htt : cddIsterminal l && cddIsterminal r with
      | true =>
        obtain ⟨hRl, hRr⟩ := hboth l r hl hr ht htt
        rw [if_pos rfl]
        split
        · exact ⟨r, rfl, hr, min_le_right _ _, hRr⟩
        · exact ⟨l, rfl, hl, min_le_left _ _, hRl⟩
      | false =>
        rw [if_neg Bool.false_ne_true]
        split
        · obtain ⟨n, hn, hw, hle, hR⟩ := hcall r l hr hl (by rw [Bool.and_comm, htt])
            (Nat.add_comm _ _)
          exact ⟨n, hn, hw, min_comm r.level l.level ▸ hle, hcomm r l n hR⟩
        · exact hcall l r hl hr htt rfl

end

theorem CddOp.eval_comm (op : CddOp) (x y : Bool) : op.eval x y = op.eval y x := by
  cases op <;> simp [CddOp.eval, Bool.and_comm, Bool.xor_comm]

section

variable {L : Library}

/-- With ordinary terminals, a pair of terminals meets a termination condition. -/
theorem cddApplyTerminal_of_isterminal (op : CddOp) {l r : DdNode} (hl : L.WF l) (hr : L.WF r)
    (hterm : (cddIsterminal l && cddIsterminal r) = true) : cddApplyTerminal op l r ≠ none := by
  obtain ⟨hlt, hrt⟩ := Bool.and_eq_true_iff.mp hterm
  rcases hl.eq_terminal hlt with rfl | rfl <;> rcases hr.eq_terminal hrt with rfl | rfl <;>
    cases op <;> simp [cddApplyTerminal, cddtrue, cddfalse]

/-- The recursion computes the operator once the fuel exceeds the heights. -/
theorem cddApplyRec_spec (op : CddOp) {fuel : ℕ} {l r : DdNode} (hl : L.WF l) (hr : L.WF r)
    (hfuel : l.height + r.height < fuel) :
    ∃ n, cddApplyRec L ⊤ op fuel l r = some n ∧
      Builds L 0 (min l.level r.level) (fun a ↦ op.eval (eval a l) (eval a r)) n ∧
      Inherits l r n := by
  obtain ⟨n, hn, hw, hle, heval, hi⟩ := cddApplyRec_induct op
    (R := fun c d m ↦ (∀ a, eval a m = op.eval (eval a c) (eval a d)) ∧ Inherits c d m)
    hl hr hfuel
    (fun c d m hc hd h ↦ ⟨(cddApplyTerminal_spec hc hd h).eval_eq, inherits_cddApplyTerminal h⟩)
    (fun c d hc hd h htt ↦ absurd h (cddApplyTerminal_of_isterminal op hc hd htt))
    (fun c d m h ↦ ⟨fun a ↦ (h.1 a).trans (op.eval_comm _ _),
      fun P Q hQ hc hd ↦ h.2 P Q hQ hd hc⟩)
    (fun c d m hc hd hlt h ↦ by
      refine ⟨fun a ↦ ?_, h.inherits (fun x y z hz ↦ hz.1.2) rfl hlt⟩
      obtain ⟨x, y, z, ⟨hR, -⟩, hx, hy, hz⟩ :=
        h.reach hc hd hlt (min_le_left _ _) (min_le_right _ _) a
      have hxyz := hR.1 a
      simpa only [eval_eq_cddEvalTrue, hx, hy, hz] using hxyz)
  exact ⟨n, hn, ⟨hw, hle, heval⟩, hi⟩

/-- `cdd_apply` computes the operator when no node is too wide. -/
theorem cddApply_spec (op : CddOp) {l r : DdNode} (hl : L.WF l) (hr : L.WF r) :
    ∃ n, cddApply L ⊤ op l r = some n ∧
      Builds L 0 (min l.level r.level) (fun a ↦ op.eval (eval a l) (eval a r)) n ∧
      Inherits l r n :=
  cddApplyRec_spec op hl hr (Nat.lt_succ_self _)

end

/-! ### The width limit -/

section

variable {L : Library} {size : ℕ∞}

theorem widthLe_cddMakeBddNode {level : ℕ} {low high : DdNode}
    (h : WidthLe size (cddMakeBddNode level low high)) : WidthLe size low ∧ WidthLe size high := by
  rw [cddMakeBddNode] at h
  split at h
  · next he => exact ⟨h, he ▸ h⟩
  · cases h with
    | bdd _ _ hl hh => exact ⟨widthLe_negCond.mp hl, widthLe_negCond.mp hh⟩

theorem widthLe_cddMakeCddNode {level : ℕ} {elem : List (DdNode × Raw)} {n : DdNode}
    (hn : cddMakeCddNode ⊤ level elem = some n) (h : WidthLe size n) (hpos : 1 ≤ size) :
    cddMakeCddNode size level elem = some n ∧ ∀ e ∈ elem, WidthLe size e.1 := by
  have hlen {m : ℕ} : ¬ (⊤ : ℕ∞) < m := not_lt.mpr le_top
  match elem, hn with
  | [], hn =>
    cases hn
    simp [cddMakeCddNode]
  | [e], hn =>
    cases hn
    exact ⟨if_neg (not_lt.mpr (by simpa using hpos)), by simpa using h⟩
  | e :: e' :: es, hn =>
    cases hn
    cases h with
    | cdd _ _ hle hs => exact ⟨if_neg (not_lt.mpr hle), hs⟩

theorem widthLe_edgesAt (level : ℕ) {d : DdNode} (h : WidthLe size d) :
    ∀ e ∈ edgesAt level d, WidthLe size e.1 := by
  rw [edgesAt]
  split
  · cases h with
    | cdd _ _ _ hs => exact hs
    | terminal | xterm | bdd => simp [elem]
  · exact List.forall_mem_singleton.mpr (widthLe_negCond.mpr h)

theorem widthLe_lowAt {level : ℕ} {d : DdNode} (h : WidthLe size d) :
    WidthLe size (lowAt level d) := by
  rw [lowAt]
  split
  · cases h with
    | bdd _ _ hl _ => exact hl
    | terminal | xterm | cdd => constructor <;> assumption
  · exact widthLe_negCond.mpr h

theorem widthLe_highAt {level : ℕ} {d : DdNode} (h : WidthLe size d) :
    WidthLe size (highAt level d) := by
  rw [highAt]
  split
  · cases h with
    | bdd _ _ _ hh => exact hh
    | terminal | xterm | cdd => constructor <;> assumption
  · exact widthLe_negCond.mpr h

/-- A node that has edges of its own at a level is not a terminal. -/
theorem one_le_of_edgesAt {level : ℕ} {d : DdNode} {e : DdNode × Raw}
    {es : List (DdNode × Raw)} (h : WidthLe size d) (hle : d.level ≤ level)
    (hes : edgesAt level d = e :: es) : 1 ≤ size := by
  rw [edgesAt, if_pos hle] at hes
  cases h with
  | cdd _ _ hlen _ =>
    cases hes
    exact le_trans (by simp) hlen
  | terminal | xterm | bdd => cases hes

section Node

variable {rec rec' : DdNode → DdNode → Option DdNode} {l r n : DdNode}

/-- A node that is not too wide is built under the limit too. -/
private theorem applyNode_width (hl : WidthLe size l) (hr : WidthLe size r)
    (hrec : ∀ c d n, WidthLe size c → WidthLe size d → rec c d = some n → WidthLe size n →
      rec' c d = some n)
    (hn : cddApplyNode L ⊤ rec l r = some n) (hw : WidthLe size n) :
    cddApplyNode L size rec' l r = some n := by
  rw [cddApplyNode] at hn ⊢
  cases hk : L.levelinfo[min l.level r.level]? with
  | none => simp [hk] at hn
  | some info =>
    cases info with
    | bdd =>
      simp only [hk, Option.bind_eq_bind, Option.bind_eq_some_iff, Option.pure_def,
        Option.some.injEq] at hn ⊢
      obtain ⟨low, hlow, high, hhigh, rfl⟩ := hn
      obtain ⟨hwl, hwh⟩ := widthLe_cddMakeBddNode hw
      refine ⟨low, hrec _ _ _ ?_ ?_ hlow hwl, high, hrec _ _ _ ?_ ?_ hhigh hwh, rfl⟩
      · exact widthLe_negCond.mpr (widthLe_lowAt hl)
      · exact widthLe_negCond.mpr (widthLe_lowAt hr)
      · exact widthLe_negCond.mpr (widthLe_highAt hl)
      · exact widthLe_negCond.mpr (widthLe_highAt hr)
    | cdd i j =>
      simp only [hk] at hn ⊢
      have hwl := widthLe_edgesAt (min l.level r.level) hl
      have hwr := widthLe_edgesAt (min l.level r.level) hr
      cases hlp : edgesAt (min l.level r.level) l with
      | nil => simp [hlp] at hn
      | cons lp ls =>
        cases hrp : edgesAt (min l.level r.level) r with
        | nil => simp [hlp, hrp] at hn
        | cons rp rs =>
          have hpos : 1 ≤ size := by
            rcases min_choice l.level r.level with h | h
            · exact one_le_of_edgesAt hl (le_of_eq h.symm) hlp
            · exact one_le_of_edgesAt hr (le_of_eq h.symm) hrp
          rw [hlp] at hwl
          rw [hrp] at hwr
          simp only [hlp, hrp, Option.bind_eq_bind, Option.bind_eq_some_iff, Option.pure_def,
            Option.some.injEq] at hn ⊢
          obtain ⟨prev, hprev, out, hout, m, hm, rfl⟩ := hn
          obtain ⟨hm', hwm⟩ := widthLe_cddMakeCddNode hm (widthLe_negCond.mp hw) hpos
          have hwo : ∀ e ∈ out, WidthLe size e.1 := fun e he ↦
            widthLe_negCond.mp (List.forall_mem_map.mp hwm e he)
          have hpair : ∀ a ∈ lp :: ls, ∀ b ∈ rp :: rs, ∀ n,
              rec (cddNegCond a.1 (cddMask l)) (cddNegCond b.1 (cddMask r)) = some n →
              WidthLe size n →
              rec' (cddNegCond a.1 (cddMask l)) (cddNegCond b.1 (cddMask r)) = some n :=
            fun a ha b hb n ↦ hrec _ _ n (widthLe_negCond.mpr (hwl a ha))
              (widthLe_negCond.mpr (hwr b hb))
          obtain ⟨hout', e, he, hep⟩ := merge_congr (Q := WidthLe size)
            (g := fun a b ↦ rec' (cddNegCond a (cddMask l)) (cddNegCond b (cddMask r)))
            hpair hout hwo
          exact ⟨prev, hpair lp (by simp) rp (by simp) prev hprev (hep ▸ hwo e he), out, hout',
            m, hm', rfl⟩

/-- A node that is built under the limit is built without it. -/
private theorem applyNode_top
    (hrec : ∀ c d n, rec c d = some n → rec' c d = some n)
    (hn : cddApplyNode L size rec l r = some n) : cddApplyNode L ⊤ rec' l r = some n := by
  rw [cddApplyNode] at hn ⊢
  cases hk : L.levelinfo[min l.level r.level]? with
  | none => simp [hk] at hn
  | some info =>
    cases info with
    | bdd =>
      simp only [hk, Option.bind_eq_bind, Option.bind_eq_some_iff, Option.pure_def,
        Option.some.injEq] at hn ⊢
      obtain ⟨low, hlow, high, hhigh, rfl⟩ := hn
      exact ⟨low, hrec _ _ _ hlow, high, hrec _ _ _ hhigh, rfl⟩
    | cdd i j =>
      simp only [hk] at hn ⊢
      split at hn
      · next lp ls rp rs hlp hrp =>
        simp only [Option.bind_eq_bind, Option.bind_eq_some_iff, Option.pure_def,
          Option.some.injEq] at hn ⊢
        obtain ⟨prev, hprev, out, hout, m, hm, rfl⟩ := hn
        obtain ⟨hout', -⟩ := merge_congr (Q := fun _ ↦ True)
          (g := fun a b ↦ rec' (cddNegCond a (cddMask l)) (cddNegCond b (cddMask r)))
          (fun a _ b _ n hab _ ↦ hrec _ _ n hab) hout fun _ _ ↦ trivial
        exact ⟨prev, hrec _ _ _ hprev, out, hout', m, cddMakeCddNode_of_size hm, rfl⟩
      · cases hn

end Node

/-- The limit makes no difference to a call whose operands and result obey it. -/
theorem cddApplyRec_width {op : CddOp} {fuel : ℕ} {l r n : DdNode} (hl : WidthLe size l)
    (hr : WidthLe size r) (hn : cddApplyRec L ⊤ op fuel l r = some n) (hw : WidthLe size n) :
    cddApplyRec L size op fuel l r = some n := by
  induction fuel generalizing l r n with
  | zero => cases hn
  | succ fuel ih =>
    rw [cddApplyRec] at hn ⊢
    cases hterm : cddApplyTerminal op l r with
    | some d => simpa [hterm] using hn
    | none =>
      simp only [hterm] at hn ⊢
      split_ifs at hn ⊢
      · exact hn
      · exact hn
      · exact applyNode_width hr hl (fun c d m hc hd ↦ ih hc hd) hn hw
      · exact applyNode_width hl hr (fun c d m hc hd ↦ ih hc hd) hn hw

/-- The limit makes a call fail or makes no difference. -/
theorem cddApplyRec_top {op : CddOp} {fuel : ℕ} {l r n : DdNode}
    (hn : cddApplyRec L size op fuel l r = some n) : cddApplyRec L ⊤ op fuel l r = some n := by
  induction fuel generalizing l r n with
  | zero => cases hn
  | succ fuel ih =>
    rw [cddApplyRec] at hn ⊢
    cases hterm : cddApplyTerminal op l r with
    | some d => simpa only [hterm] using hn
    | none =>
      simp only [hterm] at hn ⊢
      split_ifs at hn ⊢
      · exact hn
      · exact hn
      · exact applyNode_top (fun c d m ↦ ih) hn
      · exact applyNode_top (fun c d m ↦ ih) hn

/-- `cdd_apply` computes the operator and builds a well-formed diagram; it returns it whenever
neither the operands nor the result have a node wider than the limit. -/
theorem cddApply_correct (L : Library) (op : CddOp) {l r : DdNode} (hl : L.WF l) (hr : L.WF r) :
    ∃ n, L.WF n ∧ (∀ a, eval a n = op.eval (eval a l) (eval a r)) ∧
      ∀ maxcddsize : ℕ∞, WidthLe maxcddsize l → WidthLe maxcddsize r → WidthLe maxcddsize n →
        cddApply L maxcddsize op l r = some n := by
  obtain ⟨n, hn, hb, -⟩ := cddApply_spec op hl hr
  exact ⟨n, hb.wf, hb.eval_eq, fun size hwl hwr hwn ↦ cddApplyRec_width hwl hwr hn hwn⟩

end

/-- A library with the difference of two clocks at level 0 and a Boolean at level 1. -/
def sampleLibrary : Library := ⟨(Levels.init.cddAddClocks 2).cddAddBddvar 1, fun d ↦ d.height⟩

theorem declared_sampleLibrary : sampleLibrary.Declared := .addBddvar 1 (.addClocks 2 .init)

/-- Three clocks: `x1 - x0` at level 0, `x2 - x0` at level 1 and `x2 - x1` at level 2. -/
def clockLibrary : Library := ⟨Levels.init.cddAddClocks 3, fun d ↦ d.height⟩

/-- The conjunction of `x1 - x0 < 2` with a negated test of the Boolean. -/
theorem cddApply_correct_sample :
    ∃ n, sampleLibrary.WF n ∧
      (∀ a, eval a n = CddOp.and.eval
        (eval a (.cdd true 0 [(cddfalse, 4), (cddtrue, INF)]))
        (eval a (.bdd true 1 cddfalse cddtrue))) ∧
      ∀ maxcddsize : ℕ∞, WidthLe maxcddsize (.cdd true 0 [(cddfalse, 4), (cddtrue, INF)]) →
        WidthLe maxcddsize (.bdd true 1 cddfalse cddtrue) → WidthLe maxcddsize n →
        cddApply sampleLibrary maxcddsize .and (.cdd true 0 [(cddfalse, 4), (cddtrue, INF)])
          (.bdd true 1 cddfalse cddtrue) = some n :=
  cddApply_correct sampleLibrary .and (by decide) (by decide)

end UCDD

import UCDD.Reduce.ExtraTerminals

/-!
# Correctness of the fused apply and reduce

A call returns the reduction of a diagram that stands for the operator. Without extra terminals
the result agrees with `cdd_apply`. With extra terminals it does where no conjunction drops a
label, and an exclusive or fails where it combines two of them.
-/

namespace UCDD

open IntervalMap DdNode

/-! ### The recursion -/

section

variable {L : Library} {xterms : ℕ} {miss : Prop} {op : CddOp}

/-- A diagram that stands for the operator applied to `l` and `r`. -/
structure Stands (L : Library) (xterms : ℕ) (miss : Prop) (op : CddOp) (level : ℕ)
    (l r d : DdNode) : Prop where
  loose : L.Loose xterms d
  inRange : InRange d
  level_le : level ≤ d.level
  reach_eq : ∀ a z, cddApplyTerminal op (reach a l) (reach a r) = some z → ¬ Drops op a l r →
    reach a d = z
  reach_ne : miss → ∀ a z, cddApplyTerminal op (reach a l) (reach a r) = some z →
    Drops op a l r → reach a d ≠ z

theorem Stands.mono {level level' : ℕ} {l r d : DdNode} (h : Stands L xterms miss op level l r d)
    (hle : level' ≤ level) : Stands L xterms miss op level' l r d :=
  ⟨h.loose, h.inRange, le_trans hle h.level_le, h.reach_eq, h.reach_ne⟩

theorem Stands.symm {level : ℕ} {l r d : DdNode} (h : Stands L xterms miss op level l r d) :
    Stands L xterms miss op level r l d := by
  refine ⟨h.loose, h.inRange, h.level_le, fun a z hz hd ↦ ?_, fun hm a z hz hd ↦ ?_⟩
  · rw [cddApplyTerminal_comm] at hz
    exact h.reach_eq a z hz fun h ↦ hd h.symm
  · rw [cddApplyTerminal_comm] at hz
    exact h.reach_ne hm a z hz hd.symm

/-- An operand: a well-formed diagram, perhaps with extra terminals. -/
structure Operand (L : Library) (xterms : ℕ) (d : DdNode) : Prop where
  wf : L.WellFormed xterms d
  inRange : InRange d

/-- The result of `cdd_apply`, which a lookup finds. -/
theorem cddApply_stands (op : CddOp) {l r : DdNode} (hl : Operand L xterms l)
    (hr : Operand L xterms r) (hmiss : ¬ miss) :
    ∃ n, cddApply L ⊤ op l r = some n ∧ L.WellFormed xterms n ∧
      Stands L xterms miss op (min l.level r.level) l r n := by
  obtain ⟨n, hn, hw, hreach⟩ := cddApply_reach op hl.wf hr.wf
  obtain ⟨m, hm, -, hle, hi⟩ := cddApplyRec_induct op (R := Inherits) hl.wf hr.wf
    (Nat.lt_succ_self _) (fun c d m _ _ h ↦ inherits_cddApplyTerminal h)
    (fun c d _ _ _ _ ↦ ⟨fun P Q _ hc _ ↦ hc, fun P Q _ _ hd ↦ hd⟩)
    (fun c d m h P Q hQ hc hd ↦ h P Q hQ hd hc)
    (fun c d m _ _ hlt h ↦ h.inherits (fun x y z hz ↦ hz.1) rfl hlt)
  have hnm : cddApply L ⊤ op l r = some m := hm
  obtain rfl : n = m := Option.some_injective _ (hn.symm.trans hnm)
  exact ⟨n, hn, hw, hw.loose, hi _ _ neg_INF_lt hl.inRange hr.inRange, hle,
    fun a z hz _ ↦ hreach a z hz, fun h ↦ absurd h hmiss⟩

/-- What the cache holds was stored by `cdd_apply`. -/
def ApplyCache.Valid (L : Library) (cache : ApplyCache) : Prop :=
  ∀ n l r op res, cache n l r op = some res → cddApply L ⊤ op l r = some res

/-- No lookup finds anything. -/
def ApplyCache.Misses (cache : ApplyCache) : Prop := ∀ n l r op, cache n l r op = none

/-- The cache after a flush. -/
def ApplyCache.flushed : ApplyCache := fun _ _ _ _ ↦ none

theorem ApplyCache.valid_flushed (L : Library) : ApplyCache.flushed.Valid L := by
  intro n l r op res h
  cases h

theorem ApplyCache.misses_flushed : ApplyCache.flushed.Misses := fun _ _ _ _ ↦ rfl

/-- The reduction of a diagram that stands for the operator. -/
private theorem Fused.reduce_eq (hL : L.Declared) {d : DdNode} (hd : Operand L xterms d)
    {s : Fused} (hvalid : s.graph.Valid) (hdim : s.graph.dim = L.clocknum) :
    ∃ s', s.reduce L d = some (reduceIn L false d s.graph.zone, s') ∧
      Restores s.graph s'.graph := by
  obtain ⟨g, hg, hrest⟩ :=
    cddTarjanReduceRec_eq hL hd.wf hd.inRange false s.graph hvalid hdim
  refine ⟨{ s with graph := g }, ?_, hrest⟩
  unfold Fused.reduce
  rw [hg, Option.map_some]

variable (miss) in
/-- The shortcut at an extra terminal. -/
private theorem xterm_stands {neg : Bool} {id : ℕ} {r : DdNode}
    (hl : Operand L xterms (.xterm neg id)) (hr : Operand L xterms r)
    (ht : cddApplyTerminal .and (.xterm neg id) r = none) {sc : Shortcut}
    (hsc : sc = if neg then .done (.xterm neg id) else .reduce r) :
    Operand L xterms sc.diagram ∧ (∀ d, sc = .done d → cddIsterminal d = true) ∧
      Stands L xterms miss .and (min (DdNode.xterm neg id).level r.level) (.xterm neg id) r
        sc.diagram := by
  have hdiag : sc.diagram = if neg then .xterm neg id else r := by
    rw [hsc]
    cases neg <;> rfl
  have hreach (a : Assignment) (z : DdNode)
      (hz : cddApplyTerminal .and (reach a (.xterm neg id)) (reach a r) = some z) :
      reach a sc.diagram = z ↔ ¬ Drops .and a (.xterm neg id) r := by
    have hdrops : Drops .and a (.xterm neg id) r ↔ Loses a (.xterm neg id) r :=
      ⟨fun h ↦ h.2.resolve_right (not_loses_of_isterminal rfl), fun h ↦ ⟨rfl, .inl h⟩⟩
    rw [hdiag, hdrops]
    cases hterm : cddIsterminal r with
    | true =>
      -- two different extra terminals
      rw [reach_of_isterminal rfl, reach_of_isterminal hterm, ht] at hz
      cases hz
    | false => exact reach_shortcut_xterm hterm a hz
  have hop : Operand L xterms sc.diagram ∧
      min (DdNode.xterm neg id).level r.level ≤ sc.diagram.level := by
    rw [hdiag]
    cases neg
    · exact ⟨hr, min_le_right _ _⟩
    · exact ⟨hl, min_le_left _ _⟩
  refine ⟨hop.1, fun d hd ↦ ?_, hop.1.wf.loose, hop.1.inRange, hop.2,
    fun a z hz hd ↦ (hreach a z hz).mpr hd, fun _ a z hz hd h ↦ (hreach a z hz).mp h hd⟩
  rw [hsc] at hd
  cases neg
  · cases hd
  · cases hd
    rfl

variable (miss) in
/-- The diagram of a shortcut stands for the operator. -/
private theorem shortcut_stands {l r : DdNode} (hl : Operand L xterms l) (hr : Operand L xterms r)
    {sc : Shortcut} (hsc : cddApplyReduceTerminal op l r = some sc) :
    Operand L xterms sc.diagram ∧ (∀ d, sc = .done d → cddIsterminal d = true) ∧
      Stands L xterms miss op (min l.level r.level) l r sc.diagram := by
  cases ht : cddApplyTerminal op l r with
  | some d =>
    obtain ⟨rfl, hdone⟩ := cddApplyReduceTerminal_of_some hsc ht
    have hb := cddApplyTerminal_spec hl.wf hr.wf ht
    have hi : InRange sc.diagram :=
      inherits_cddApplyTerminal ht _ _ neg_INF_lt hl.inRange hr.inRange
    refine ⟨⟨hb.wf, hi⟩, hdone, hb.wf.loose, hi, hb.level_le,
      fun a z hz _ ↦ reach_cddApplyTerminal ht a hz, fun _ a z hz hd ↦ ?_⟩
    exact absurd hd (not_drops_of_some ht a)
  | none =>
    obtain ⟨rfl, neg, id, ⟨rfl, hsc'⟩ | ⟨rfl, hsc'⟩⟩ := cddApplyReduceTerminal_of_none hsc ht
    · exact xterm_stands miss hl hr ht hsc'
    · rw [cddApplyTerminal_comm] at ht
      obtain ⟨hop, hdone, hstands⟩ := xterm_stands miss hr hl ht hsc'
      refine ⟨hop, hdone, ?_⟩
      rw [min_comm]
      exact hstands.symm

section Node

variable {rec : DdNode → DdNode → Fused → Option (DdNode × Fused)} {l r : DdNode}

/-- What the calls below a node have to do. -/
def RecStands (L : Library) (xterms : ℕ) (miss : Prop) (op : CddOp)
    (rec : DdNode → DdNode → Fused → Option (DdNode × Fused)) (size : ℕ) : Prop :=
  ∀ c d, Operand L xterms c → Operand L xterms d → c.height + d.height < size →
    CallStands L miss (rec c d) (Clashes L op c d) (Stands L xterms miss op (min c.level d.level) c d)

/-- The node of two diagrams that stand for the children. -/
private theorem stands_follows {level : ℕ} {a : Assignment} {c c' d e : DdNode}
    (hl : Follows a level l c) (hr : Follows a level r c')
    (hinner : op = .and → cddIsterminal l = false ∧ cddIsterminal r = false)
    (hd : reach a d = reach a e) {k : ℕ} (h : Stands L xterms miss op k c c' e) (z : DdNode)
    (hz : cddApplyTerminal op (reach a l) (reach a r) = some z) :
    (¬ Drops op a l r → reach a d = z) ∧ (miss → Drops op a l r → reach a d ≠ z) := by
  rw [hl.reach_eq, hr.reach_eq] at hz
  rw [Drops.follows hl hr hinner, hd]
  exact ⟨h.reach_eq a z hz, fun hm ↦ h.reach_ne hm a z hz⟩

variable (op) in
/-- A clash of the children at a Boolean level is one of the node. -/
private theorem clashes_bdd (hl : L.WellFormed xterms l) (hr : L.WellFormed xterms r)
    {level : ℕ} (hlt : level < maxLevel) (hll : level ≤ l.level) (hlr : level ≤ r.level)
    (hk : L.levelinfo[level]? = some .bdd) :
    Clashes L op l r =
      Clashes L op (cddNegCond (lowAt level l) (cddMask l)) (cddNegCond (lowAt level r) (cddMask r)) ∪
      Clashes L op (cddNegCond (highAt level l) (cddMask l))
        (cddNegCond (highAt level r) (cddMask r)) := by
  have hel := bddEdgesAt_spec hl hk hlt hll
  have her := bddEdgesAt_spec hr hk hlt hlr
  have hcongr {d : DdNode} (hd : L.WellFormed xterms d) (hlev : level < d.level) (v : Valuation)
      (b : Bool) : reach ((v.setBool level b).assignment L) d = reach (v.assignment L) d := by
    refine reach_congr hd fun ℓ hℓ ↦ ⟨?_, rfl⟩
    exact Function.update_of_ne (ne_of_gt (lt_of_lt_of_le hlev hℓ)) _ _
  have hbool (v : Valuation) (b : Bool) : ((v.setBool level b).assignment L).bool level = b :=
    Function.update_self ..
  ext x
  constructor
  · rintro ⟨hop, v, hv, h⟩
    have hfl := follows_bddEdgesAt hl hk hlt hll (v.assignment L)
    have hfr := follows_bddEdgesAt hr hk hlt hlr (v.assignment L)
    rw [Combines.follows hfl hfr] at h
    cases hb : (v.assignment L).bool level with
    | false =>
      rw [hb] at h
      exact .inl ⟨hop, v, hv, h⟩
    | true =>
      rw [hb] at h
      exact .inr ⟨hop, v, hv, h⟩
  · rintro (⟨hop, v, hv, h⟩ | ⟨hop, v, hv, h⟩)
    · refine ⟨hop, v.setBool level false, hv, ?_⟩
      rw [Combines.follows (follows_bddEdgesAt hl hk hlt hll _)
        (follows_bddEdgesAt hr hk hlt hlr _), hbool, cond_false, cond_false]
      unfold Combines at h ⊢
      simpa only [reach_negCond, hcongr hel.wf_low hel.level_low,
        hcongr her.wf_low her.level_low] using h
    · refine ⟨hop, v.setBool level true, hv, ?_⟩
      rw [Combines.follows (follows_bddEdgesAt hl hk hlt hll _)
        (follows_bddEdgesAt hr hk hlt hlr _), hbool, cond_true, cond_true]
      unfold Combines at h ⊢
      simpa only [reach_negCond, hcongr hel.wf_high hel.level_high,
        hcongr her.wf_high her.level_high] using h

private theorem applyReduceNode_bdd (hl : Operand L xterms l) (hr : Operand L xterms r)
    (hlt : min l.level r.level < maxLevel) (hk : L.levelinfo[min l.level r.level]? = some .bdd)
    (hinner : op = .and → cddIsterminal l = false ∧ cddIsterminal r = false)
    (hrec : RecStands L xterms miss op rec (l.height + r.height)) :
    CallStands L miss (cddApplyReduceNode L ⊤ rec l r) (Clashes L op l r)
      (Stands L xterms miss op (min l.level r.level) l r) := by
  have hll := min_le_left l.level r.level
  have hlr := min_le_right l.level r.level
  have hel := bddEdgesAt_spec hl.wf hk hlt hll
  have her := bddEdgesAt_spec hr.wf hk hlt hlr
  have hlow := hrec (cddNegCond (lowAt (min l.level r.level) l) (cddMask l))
    (cddNegCond (lowAt (min l.level r.level) r) (cddMask r))
    ⟨hel.wf_low.negCond _, (all_lowAt _ hl.inRange).negCond _⟩
    ⟨her.wf_low.negCond _, (all_lowAt _ hr.inRange).negCond _⟩ (by
      simp only [height_negCond]
      exact height_add_lt hel.height_low her.height_low (fun h ↦ (hel.height_lt h).1)
        fun h ↦ (her.height_lt h).1)
  have hhigh := hrec (cddNegCond (highAt (min l.level r.level) l) (cddMask l))
    (cddNegCond (highAt (min l.level r.level) r) (cddMask r))
    ⟨hel.wf_high.negCond _, (all_highAt _ hl.inRange).negCond _⟩
    ⟨her.wf_high.negCond _, (all_highAt _ hr.inRange).negCond _⟩ (by
      simp only [height_negCond]
      exact height_add_lt hel.height_high her.height_high (fun h ↦ (hel.height_lt h).2)
        fun h ↦ (her.height_lt h).2)
  simp only [level_negCond] at hlow hhigh
  have hclash := clashes_bdd op hl.wf hr.wf hlt hll hlr hk
  -- the node of what the two calls stand for
  have hnode {c d : DdNode}
      (hc : Stands L xterms miss op (min (lowAt (min l.level r.level) l).level
        (lowAt (min l.level r.level) r).level)
        (cddNegCond (lowAt (min l.level r.level) l) (cddMask l))
        (cddNegCond (lowAt (min l.level r.level) r) (cddMask r)) c)
      (hd : Stands L xterms miss op (min (highAt (min l.level r.level) l).level
        (highAt (min l.level r.level) r).level)
        (cddNegCond (highAt (min l.level r.level) l) (cddMask l))
        (cddNegCond (highAt (min l.level r.level) r) (cddMask r)) d) :
      Stands L xterms miss op (min l.level r.level) l r
        (.bdd false (min l.level r.level) c d) := by
    have hreach (a : Assignment) (z : DdNode)
        (hz : cddApplyTerminal op (reach a l) (reach a r) = some z) :
        (¬ Drops op a l r → reach a (.bdd false (min l.level r.level) c d) = z) ∧
          (miss → Drops op a l r → reach a (.bdd false (min l.level r.level) c d) ≠ z) := by
      have hfl := follows_bddEdgesAt hl.wf hk hlt hll a
      have hfr := follows_bddEdgesAt hr.wf hk hlt hlr a
      cases hb : a.bool (min l.level r.level) with
      | false =>
        rw [hb] at hfl hfr
        exact stands_follows hfl hfr hinner (by rw [reach, hb, cddNegCond_false]; rfl) hc z hz
      | true =>
        rw [hb] at hfl hfr
        exact stands_follows hfl hfr hinner (by rw [reach, hb, cddNegCond_false]; rfl) hd z hz
    exact ⟨.bdd false hk (lt_of_lt_of_le (lt_min hel.level_low her.level_low) hc.level_le)
      (lt_of_lt_of_le (lt_min hel.level_high her.level_high) hd.level_le) hc.loose hd.loose,
      .bdd _ trivial hc.inRange hd.inRange, le_rfl, fun a z hz ↦ (hreach a z hz).1,
      fun hm a z hz ↦ (hreach a z hz).2 hm⟩
  constructor
  · obtain ⟨c, hc⟩ := hlow.exists_diagram
    obtain ⟨d, hd⟩ := hhigh.exists_diagram
    exact ⟨_, hnode hc hd⟩
  · intro s hvalid hdim hz hok
    obtain ⟨c, s₁, hs₁, hr₁, hc⟩ := hlow.call_eq s hvalid hdim hz
      fun x hx h ↦ hok x hx (hclash ▸ .inl h)
    obtain ⟨d, s₂, hs₂, hr₂, hd⟩ := hhigh.call_eq s₁ hr₁.valid (hr₁.dim.trans hdim)
      (hr₁.zone ▸ hz) fun x hx h ↦ hok x (hr₁.zone ▸ hx) (hclash ▸ .inr h)
    rw [hr₁.zone] at hs₂
    refine ⟨_, s₂, ?_, hr₁.trans hr₂, hnode hc hd⟩
    rw [reduceIn]
    simp only [cddApplyReduceNode, hk, hs₁, hs₂, Option.bind_eq_bind, Option.bind_some,
      Option.pure_def, Bool.xor_false]
  · rintro hmiss s hvalid hdim ⟨x, hx, hfail⟩
    simp only [cddApplyReduceNode, hk]
    by_cases hall : ∃ y ∈ s.graph.zone, y ∈ Clashes L op
        (cddNegCond (lowAt (min l.level r.level) l) (cddMask l))
        (cddNegCond (lowAt (min l.level r.level) r) (cddMask r))
    · rw [hlow.call_none hmiss s hvalid hdim hall]
      rfl
    · obtain ⟨c, s₁, hs₁, hr₁, -⟩ := hlow.call_eq s hvalid hdim ⟨x, hx⟩
        fun y hy h ↦ hall ⟨y, hy, h⟩
      rw [hclash] at hfail
      have hhere := hfail.resolve_left fun h ↦ hall ⟨x, hx, h⟩
      rw [hs₁, Option.bind_eq_bind, Option.bind_some]
      simp only
      rw [hhigh.call_none hmiss s₁ hr₁.valid (hr₁.dim.trans hdim) ⟨x, hr₁.zone ▸ hx, hhere⟩]
      rfl

variable (op) in
/-- A solution clashes at a clock level where the pair that it selects does. -/
private theorem clashes_cdd (hl : L.WellFormed xterms l) (hr : L.WellFormed xterms r) {level : ℕ}
    (hlt : level < maxLevel) (hll : level ≤ l.level) (hlr : level ≤ r.level)
    (hk : L.isCdd level) :
    Clashes L op l r = L.failsIn level (fun e ↦ Clashes L op (cddNegCond e.1 (cddMask l))
      (cddNegCond e.2 (cddMask r))) (refine INF (edgesAt level l) (edgesAt level r)) := by
  have href := refine_spec (edgesAt_spec hl hk hlt hll).partition
    (edgesAt_spec hr hk hlt hlr).partition
  ext x
  obtain ⟨c, d, hc, hd, hcd⟩ := href.select (realCut (L.diff x level))
  have hiff (v : Valuation) (hv : v.clock = x) : Combines (v.assignment L) l r ↔
      Combines (v.assignment L) (cddNegCond c (cddMask l)) (cddNegCond d (cddMask r)) := by
    subst hv
    exact Combines.follows (follows_edgesAt hl hk hlt hll hc) (follows_edgesAt hr hk hlt hlr hd)
  constructor
  · rintro ⟨hop, v, hv, h⟩
    exact ⟨(c, d), hcd, hop, v, hv, (hiff v hv).mp h⟩
  · rintro ⟨e, he, hop, v, hv, h⟩
    rw [hcd, Option.some.injEq] at he
    subst he
    exact ⟨hop, v, hv, (hiff v hv).mpr h⟩

private theorem applyReduceNode_cdd (hL : L.Declared) (hl : Operand L xterms l)
    (hr : Operand L xterms r) (hlt : min l.level r.level < maxLevel) {i j : ℕ}
    (hk : L.levelinfo[min l.level r.level]? = some (.cdd i j))
    (hinner : op = .and → cddIsterminal l = false ∧ cddIsterminal r = false)
    (hrec : RecStands L xterms miss op rec (l.height + r.height)) :
    CallStands L miss (cddApplyReduceNode L ⊤ rec l r) (Clashes L op l r)
      (Stands L xterms miss op (min l.level r.level) l r) := by
  have hll := min_le_left l.level r.level
  have hlr := min_le_right l.level r.level
  have hel := edgesAt_spec hl.wf ⟨i, j, hk⟩ hlt hll
  have her := edgesAt_spec hr.wf ⟨i, j, hk⟩ hlt hlr
  have hall := all_edgesAt neg_INF_lt (min l.level r.level) hl.inRange
  have harr := all_edgesAt neg_INF_lt (min l.level r.level) hr.inRange
  have href := refine_spec hel.partition her.partition
  have hclash := clashes_cdd op hl.wf hr.wf hlt hll hlr ⟨i, j, hk⟩
  set ps := refine INF (edgesAt (min l.level r.level) l) (edgesAt (min l.level r.level) r)
  obtain ⟨⟨hji, hi⟩, -⟩ := hL.covers.pair_of_level _ i j hk
  let G : DdNode × DdNode → DdNode → Prop := fun e ↦ Stands L xterms miss op
    (min l.level r.level + 1) (cddNegCond e.1 (cddMask l)) (cddNegCond e.2 (cddMask r))
  let F : DdNode × DdNode → Set (ℕ → ℝ) := fun e ↦
    Clashes L op (cddNegCond e.1 (cddMask l)) (cddNegCond e.2 (cddMask r))
  have hcalls : ∀ e ∈ ps, CallStands L miss
      (rec (cddNegCond e.1.1 (cddMask l)) (cddNegCond e.1.2 (cddMask r))) (F e.1) (G e.1) := by
    intro e he
    obtain ⟨⟨a, ha, hae⟩, b, hb, hbe⟩ := href.values e he
    simp only [F, G]
    rw [← hae, ← hbe]
    have hcall := hrec _ _ ⟨(hel.wf a ha).negCond (cddMask l), (hall a ha).2.negCond _⟩
      ⟨(her.wf b hb).negCond (cddMask r), (harr b hb).2.negCond _⟩ (by
        simp only [height_negCond]
        exact height_add_lt (hel.height_le a ha) (her.height_le b hb)
          (fun h ↦ hel.height_lt h a ha) fun h ↦ her.height_lt h b hb)
    have hlev := lt_min (hel.level_lt a ha) (her.level_lt b hb)
    simp only [level_negCond] at hcall
    refine ⟨?_, fun s hvalid hdim hz hok ↦ ?_, hcall.call_none⟩
    · obtain ⟨d, hd⟩ := hcall.exists_diagram
      exact ⟨d, hd.mono (Nat.succ_le_of_lt hlev)⟩
    · obtain ⟨d, s', hs', hrest, hd⟩ := hcall.call_eq s hvalid hdim hz hok
      exact ⟨d, s', hs', hrest, hd.mono (Nat.succ_le_of_lt hlev)⟩
  have hrange : ∀ e ∈ ps, -INF < e.2 := by
    intro e he
    rcases href.bounds e he with ⟨y, hy, hye⟩ | ⟨y, hy, hye⟩
    · exact hye ▸ (hall y hy).1
    · exact hye ▸ (harr y hy).1
  -- the node of what the calls stand for
  have hnode {es : List (DdNode × Raw)} (hes : Children G ps es) :
      Stands L xterms miss op (min l.level r.level) l r
        (.cdd false (min l.level r.level) es) := by
    have hmem : ∀ f ∈ es, ∃ e ∈ ps, G e.1 f.1 ∧ f.2 = e.2 := by
      intro f hf
      obtain ⟨n, hn, rfl⟩ := List.getElem_of_mem hf
      have hlen := hes.length_eq
      exact ⟨ps[n], List.getElem_mem _, (List.forall₂_iff_get.mp hes).2 n (hlen ▸ hn) hn⟩
    have hreach (a : Assignment) (z : DdNode)
        (hz : cddApplyTerminal op (reach a l) (reach a r) = some z) :
        (¬ Drops op a l r → reach a (.cdd false (min l.level r.level) es) = z) ∧
          (miss → Drops op a l r → reach a (.cdd false (min l.level r.level) es) ≠ z) := by
      obtain ⟨x, y, hx, hy, hxy⟩ := href.select (a.diff (min l.level r.level))
      obtain ⟨d, hd, hG⟩ := select_forall₂ hes hxy
      exact stands_follows (follows_edgesAt hl.wf ⟨i, j, hk⟩ hlt hll hx)
        (follows_edgesAt hr.wf ⟨i, j, hk⟩ hlt hlr hy) hinner
        (by rw [reach, reachElem_of_select hd, cddNegCond_false]) hG z hz
    refine ⟨.cdd false ⟨i, j, hk⟩ (fun f hf ↦ ?_) (.of_forall₂ hes href.partition) fun f hf ↦ ?_,
      .cdd _ trivial (fun f hf ↦ ?_) fun f hf ↦ ?_, le_rfl, fun a z hz ↦ (hreach a z hz).1,
      fun hm a z hz ↦ (hreach a z hz).2 hm⟩
    · obtain ⟨e, -, h, -⟩ := hmem f hf
      exact h.level_le
    · obtain ⟨e, -, h, -⟩ := hmem f hf
      exact h.loose
    · obtain ⟨e, he, -, h⟩ := hmem f hf
      rw [h]
      exact hrange e he
    · obtain ⟨e, -, h, -⟩ := hmem f hf
      exact h.inRange
  have h2 : 2 ≤ ps.length := by
    refine href.two_le hel.partition her.partition ?_
    rcases min_choice l.level r.level with h | h
    · exact .inl (hel.two_le h.symm)
    · exact .inr (her.two_le h.symm)
  constructor
  · obtain ⟨es, hes⟩ := exists_children fun e he ↦ (hcalls e he).exists_diagram
    exact ⟨_, hnode hes⟩
  · intro s hvalid hdim hz hok
    obtain ⟨es, s', hes, hs', hrest⟩ := applyReduceFirst_eq
      (fun c d ↦ rec (cddNegCond c (cddMask l)) (cddNegCond d (cddMask r))) hk hcalls
      href.partition hrange false (fun _ ↦ h2) hvalid hdim (by omega) (by omega) (by omega) hz
      (hclash ▸ hok)
    refine ⟨_, s', ?_, hrest, hnode hes⟩
    rw [reduceIn, Bool.xor_false]
    simp only [cddApplyReduceNode, hk]
    exact hs'
  · rintro hmiss s hvalid hdim ⟨x, hx, hfail⟩
    rw [hclash] at hfail
    simp only [cddApplyReduceNode, hk]
    exact applyReduceFirst_none
      (fun c d ↦ rec (cddNegCond c (cddMask l)) (cddNegCond d (cddMask r))) hk hcalls hmiss
      href.partition hrange false (fun _ ↦ h2) hvalid hdim (by omega) (by omega) (by omega) hx
      hfail

/-- One node stands for the operator if the calls below it do. -/
private theorem cddApplyReduceNode_stands (hL : L.Declared) (hl : Operand L xterms l)
    (hr : Operand L xterms r) (hterm : (cddIsterminal l && cddIsterminal r) = false)
    (hinner : op = .and → cddIsterminal l = false ∧ cddIsterminal r = false)
    (hrec : RecStands L xterms miss op rec (l.height + r.height)) :
    CallStands L miss (cddApplyReduceNode L ⊤ rec l r) (Clashes L op l r)
      (Stands L xterms miss op (min l.level r.level) l r) := by
  obtain ⟨hlt, info, hk⟩ := min_level_declared hl.wf hr.wf hterm
  cases info with
  | cdd i j => exact applyReduceNode_cdd hL hl hr hlt hk hinner hrec
  | bdd => exact applyReduceNode_bdd hl hr hlt hk hinner hrec

end Node

/-- Two extra terminals that are combined: the level of the node is not in the table. -/
private theorem combined_stands {L : Library} (hlen : miss → L.levelinfo.length ≤ maxLevel)
    {rec : DdNode → DdNode → Fused → Option (DdNode × Fused)} {l r : DdNode}
    (hl : Operand L xterms l) (hlt : cddIsterminal l = true) (hrt : cddIsterminal r = true)
    (hboth : op = .xor ∧ ∀ a, Combines a l r) :
    CallStands L miss (cddApplyReduceNode L ⊤ rec l r) (Clashes L op l r)
      (Stands L xterms miss op (min l.level r.level) l r) := by
  have hclash (x : ℕ → ℝ) : x ∈ Clashes L op l r := ⟨hboth.1, ⟨x, fun _ ↦ false⟩, rfl, hboth.2 _⟩
  have hnone (a : Assignment) : cddApplyTerminal op (reach a l) (reach a r) = none :=
    (cddApplyTerminal_reach_eq_none op a l r).mpr (hboth.2 a)
  refine ⟨⟨l, hl.wf.loose, hl.inRange, min_le_left _ _, fun a z hz ↦ ?_, fun _ a z hz ↦ ?_⟩,
    fun s _ _ ⟨x, hx⟩ hok ↦ absurd (hclash x) (hok x hx), fun hmiss s _ _ _ ↦ ?_⟩
  · rw [hnone a] at hz
    cases hz
  · rw [hnone a] at hz
    cases hz
  · have hlevel : L.levelinfo[min l.level r.level]? = none := by
      rw [level_of_isterminal hlt, level_of_isterminal hrt, min_self]
      exact List.getElem?_eq_none (hlen hmiss)
    simp only [cddApplyReduceNode, hlevel]

/-- A call that takes no shortcut, on the operands in address order. -/
private theorem lookup_stands (hL : L.Declared) (hlen : miss → L.levelinfo.length ≤ maxLevel)
    {cache : ApplyCache} (hcache : cache.Valid L) (hmiss : miss → cache.Misses)
    {rec : DdNode → DdNode → Fused → Option (DdNode × Fused)} {l r : DdNode}
    (hl : Operand L xterms l) (hr : Operand L xterms r)
    (hinner : op = .and → cddIsterminal l = false ∧ cddIsterminal r = false)
    (hboth : (cddIsterminal l && cddIsterminal r) = true → op = .xor ∧ ∀ a, Combines a l r)
    (hrec : RecStands L xterms miss op rec (l.height + r.height)) :
    CallStands L miss (fun s ↦ match cache s.lookups l r op with
        | some res => Fused.reduce L res { s with lookups := s.lookups + 1 }
        | none => cddApplyReduceNode L ⊤ rec l r { s with lookups := s.lookups + 1 })
      (Clashes L op l r) (Stands L xterms miss op (min l.level r.level) l r) := by
  have hnode : CallStands L miss (cddApplyReduceNode L ⊤ rec l r) (Clashes L op l r)
      (Stands L xterms miss op (min l.level r.level) l r) := by
    cases htt : cddIsterminal l && cddIsterminal r with
    | true =>
      obtain ⟨hlt, hrt⟩ := Bool.and_eq_true_iff.mp htt
      exact combined_stands hlen hl hlt hrt (hboth htt)
    | false => exact cddApplyReduceNode_stands hL hl hr htt hinner hrec
  refine ⟨hnode.exists_diagram, fun s hvalid hdim hz hok ↦ ?_, fun hm s hvalid hdim hx ↦ ?_⟩
  · cases hc : cache s.lookups l r op with
    | some res =>
      have hnot : ¬ miss := fun hm ↦ by
        rw [hmiss hm] at hc
        cases hc
      obtain ⟨n, hn, hw, hstands⟩ := cddApply_stands op hl hr hnot
      obtain rfl : n = res := Option.some_injective _ (hn.symm.trans (hcache _ _ _ _ _ hc))
      have hop : Operand L xterms n := ⟨hw, hstands.inRange⟩
      obtain ⟨s', hs', hrest⟩ := Fused.reduce_eq hL hop
        (s := { s with lookups := s.lookups + 1 }) hvalid hdim
      exact ⟨n, s', hs', hrest, hstands⟩
    | none =>
      exact hnode.call_eq { s with lookups := s.lookups + 1 } hvalid hdim hz hok
  · rw [hmiss hm]
    exact hnode.call_none hm { s with lookups := s.lookups + 1 } hvalid hdim hx

/-- Every call of the recursion returns the reduction of a diagram that stands for the operator,
whatever the cache holds. Where it combines two extra terminals it may fail. -/
theorem cddApplyReduceRec_stands (hL : L.Declared) (hlen : miss → L.levelinfo.length ≤ maxLevel)
    {cache : ApplyCache} (hcache : cache.Valid L) (hmiss : miss → cache.Misses) {fuel : ℕ}
    {l r : DdNode} (hl : Operand L xterms l) (hr : Operand L xterms r)
    (hfuel : l.height + r.height < fuel) :
    CallStands L miss (cddApplyReduceRec L ⊤ cache op fuel l r) (Clashes L op l r)
      (Stands L xterms miss op (min l.level r.level) l r) := by
  induction fuel generalizing l r with
  | zero => exact absurd hfuel (Nat.not_lt_zero _)
  | succ fuel ih =>
    -- the assertion does not fail where the graph has a solution
    have henter (s : Fused) (hvalid : s.graph.Valid) (hz : s.graph.zone.Nonempty) :
        ∃ g, cddTarjanConsistent s.graph = some (true, g) ∧ Restores s.graph g := by
      obtain ⟨b, g, hb, hgv, hedges, hgdim, hiff⟩ := cddTarjanConsistent_zone hvalid
      exact ⟨g, hiff.mpr hz ▸ hb, hedges, hgdim, hgv⟩
    cases hsc : cddApplyReduceTerminal op l r with
    | some sc =>
      obtain ⟨hop, hdone, hstands⟩ := shortcut_stands miss hl hr hsc
      refine ⟨⟨_, hstands⟩, fun s hvalid hdim hz _ ↦ ?_, ?_⟩
      · obtain ⟨g, hg, hrest⟩ := henter s hvalid hz
        rw [cddApplyReduceRec, hg]
        simp only [hsc]
        cases sc with
        | done d =>
          refine ⟨d, { s with graph := g }, ?_, hrest, hstands⟩
          have hd := hdone d rfl
          cases d with
          | terminal | xterm => rw [reduceIn, Bool.xor_false]
          | bdd | cdd => cases hd
        | reduce d =>
          obtain ⟨s', hs', hrest'⟩ := Fused.reduce_eq hL hop (s := { s with graph := g })
            hrest.valid (hrest.dim.trans hdim)
          simp only [hrest.zone] at hs'
          exact ⟨d, s', hs', hrest.trans hrest', hstands⟩
      · rintro - s - - ⟨x, -, hop, v, -, hcomb⟩
        subst hop
        exact absurd hcomb (not_combines_of_shortcut hsc _)
    | none =>
      have hinner (hop : op = .and) : cddIsterminal l = false ∧ cddIsterminal r = false := by
        subst hop
        exact inner_of_no_shortcut hsc
      have hboth (htt : (cddIsterminal l && cddIsterminal r) = true) :
          op = .xor ∧ ∀ a, Combines a l r := by
        obtain ⟨hlt, hrt⟩ := Bool.and_eq_true_iff.mp htt
        cases op with
        | and => exact absurd (hinner rfl).1 (by simp [hlt])
        | xor => exact ⟨rfl, combines_of_no_shortcut hsc hlt hrt⟩
      have hrec {n : ℕ} (hn : n = l.height + r.height) :
          RecStands L xterms miss op (cddApplyReduceRec L ⊤ cache op fuel) n :=
        fun c d hc hd hlt ↦ ih hc hd (by omega)
      -- the operands in address order
      have hcall : CallStands L miss (fun s ↦
          match cache s.lookups (if L.addr l > L.addr r then r else l)
            (if L.addr l > L.addr r then l else r) op with
          | some res => Fused.reduce L res { s with lookups := s.lookups + 1 }
          | none => cddApplyReduceNode L ⊤ (cddApplyReduceRec L ⊤ cache op fuel)
              (if L.addr l > L.addr r then r else l) (if L.addr l > L.addr r then l else r)
              { s with lookups := s.lookups + 1 })
          (Clashes L op l r) (Stands L xterms miss op (min l.level r.level) l r) := by
        by_cases haddr : L.addr l > L.addr r
        · simp only [if_pos haddr]
          have h := lookup_stands hL hlen hcache hmiss hr hl (fun hop ↦ (hinner hop).symm)
            (fun htt ↦ by
              obtain ⟨hop, h⟩ := hboth (by rw [Bool.and_comm, htt])
              exact ⟨hop, fun a ↦ (h a).symm⟩) (hrec (Nat.add_comm _ _))
          refine ⟨?_, fun s hvalid hdim hz hok ↦ ?_, fun hm s hvalid hdim hx ↦ ?_⟩
          · obtain ⟨d, hd⟩ := h.exists_diagram
            exact ⟨d, min_comm r.level l.level ▸ hd.symm⟩
          · obtain ⟨d, s', hs', hrest, hd⟩ :=
              h.call_eq s hvalid hdim hz (Clashes_comm L op l r ▸ hok)
            exact ⟨d, s', hs', hrest, min_comm r.level l.level ▸ hd.symm⟩
          · exact h.call_none hm s hvalid hdim (Clashes_comm L op l r ▸ hx)
        · simp only [if_neg haddr]
          exact lookup_stands hL hlen hcache hmiss hl hr hinner hboth (hrec rfl)
      have heq (s : Fused) (g : Tarjan) (hg : cddTarjanConsistent s.graph = some (true, g)) :
          cddApplyReduceRec L ⊤ cache op (fuel + 1) l r s =
            match cache s.lookups (if L.addr l > L.addr r then r else l)
              (if L.addr l > L.addr r then l else r) op with
            | some res => Fused.reduce L res { graph := g, lookups := s.lookups + 1 }
            | none => cddApplyReduceNode L ⊤ (cddApplyReduceRec L ⊤ cache op fuel)
                (if L.addr l > L.addr r then r else l) (if L.addr l > L.addr r then l else r)
                { graph := g, lookups := s.lookups + 1 } := by
        rw [cddApplyReduceRec, hg]
        simp only [hsc]
        split_ifs <;> rfl
      refine ⟨hcall.exists_diagram, fun s hvalid hdim hz hok ↦ ?_, fun hm s hvalid hdim hx ↦ ?_⟩
      · obtain ⟨g, hg, hrest⟩ := henter s hvalid hz
        obtain ⟨d, s', hs', hrest', hd⟩ := hcall.call_eq { s with graph := g } hrest.valid
          (hrest.dim.trans hdim) (hrest.zone ▸ hz) (hrest.zone ▸ hok)
        simp only [hrest.zone] at hs'
        rw [heq s g hg]
        exact ⟨d, s', hs', hrest.trans hrest', hd⟩
      · obtain ⟨x, hxz, hx⟩ := hx
        obtain ⟨g, hg, hrest⟩ := henter s hvalid ⟨x, hxz⟩
        rw [heq s g hg]
        exact hcall.call_none hm { s with graph := g } hrest.valid (hrest.dim.trans hdim)
          ⟨x, hrest.zone ▸ hxz, hx⟩

/-! ### The width limit -/

/-- The limit makes the later children fail or makes no difference. -/
private theorem applyReduceRest_top {call call' : DdNode → DdNode → Fused → Option (DdNode × Fused)}
    (hcall : ∀ c d s x, call c d s = some x → call' c d s = some x) {mask0 : Bool} {i j : ℕ}
    {ps : List ((DdNode × DdNode) × Raw)} {low : Raw} {m : DdNode} {s : Fused}
    {x : List (DdNode × Raw) × Fused} (h : applyReduceRest call mask0 i j ps low m s = some x) :
    applyReduceRest call' mask0 i j ps low m s = some x := by
  induction ps generalizing low m s x with
  | nil => exact h
  | cons e ps ih =>
    obtain ⟨⟨lp, rp⟩, bnd⟩ := e
    rw [applyReduceRest] at h ⊢
    simp only [Option.bind_eq_bind, Option.bind_eq_some_iff, Option.pure_def] at h ⊢
    obtain ⟨⟨c, g⟩, hc, h⟩ := h
    refine ⟨(c, g), hc, ?_⟩
    cases c with
    | false => exact h
    | true =>
      simp only [↓reduceIte, Option.bind_eq_some_iff] at h ⊢
      obtain ⟨n, hn, y, hy, hxy⟩ := h
      refine ⟨n, ?_, y, ih hy, hxy⟩
      by_cases hb : bnd < INF
      · rw [if_pos hb, Option.map_eq_some_iff] at hn ⊢
        obtain ⟨z, hz, hzn⟩ := hn
        exact ⟨z, hcall _ _ _ _ hz, hzn⟩
      · rw [if_neg hb] at hn ⊢
        exact hcall _ _ _ _ hn

private theorem applyReduceFirst_top {size : ℕ∞}
    {call call' : DdNode → DdNode → Fused → Option (DdNode × Fused)}
    (hcall : ∀ c d s x, call c d s = some x → call' c d s = some x) {level i j : ℕ}
    {ps : List ((DdNode × DdNode) × Raw)} {next : Bool} {s : Fused} {x : DdNode × Fused}
    (h : applyReduceFirst size call level i j ps next s = some x) :
    applyReduceFirst ⊤ call' level i j ps next s = some x := by
  induction ps generalizing next s with
  | nil => cases h
  | cons e ps ih =>
    obtain ⟨⟨lp, rp⟩, bnd⟩ := e
    rw [applyReduceFirst] at h ⊢
    by_cases hearly : (next && decide (bnd = INF)) = true
    · rw [if_pos hearly] at h ⊢
      exact hcall _ _ _ _ h
    · rw [if_neg hearly] at h ⊢
      simp only [Option.bind_eq_bind, Option.bind_eq_some_iff, Option.pure_def] at h ⊢
      obtain ⟨⟨c, g⟩, hc, h⟩ := h
      refine ⟨(c, g), hc, ?_⟩
      cases c with
      | false => exact ih h
      | true =>
        simp only [↓reduceIte, Option.bind_eq_some_iff] at h ⊢
        obtain ⟨m, hm, y, hy, n, hn, hx⟩ := h
        exact ⟨m, hcall _ _ _ _ hm, y, applyReduceRest_top hcall hy, n,
          cddMakeCddNode_of_size hn, hx⟩

private theorem cddApplyReduceNode_top {size : ℕ∞}
    {rec rec' : DdNode → DdNode → Fused → Option (DdNode × Fused)}
    (hrec : ∀ c d s x, rec c d s = some x → rec' c d s = some x) {l r : DdNode} {s : Fused}
    {x : DdNode × Fused} (h : cddApplyReduceNode L size rec l r s = some x) :
    cddApplyReduceNode L ⊤ rec' l r s = some x := by
  unfold cddApplyReduceNode at h ⊢
  simp only at h ⊢
  split at h
  · exact applyReduceFirst_top (fun c d s x ↦ hrec _ _ s x) h
  · simp only [Option.bind_eq_bind, Option.bind_eq_some_iff, Option.pure_def] at h ⊢
    obtain ⟨n, hn, m, hm, hx⟩ := h
    exact ⟨n, hrec _ _ _ _ hn, m, hrec _ _ _ _ hm, hx⟩
  · cases h

theorem cddApplyReduceRec_top {size : ℕ∞} {cache : ApplyCache} {fuel : ℕ} {l r : DdNode}
    {s : Fused} {x : DdNode × Fused}
    (h : cddApplyReduceRec L size cache op fuel l r s = some x) :
    cddApplyReduceRec L ⊤ cache op fuel l r s = some x := by
  induction fuel generalizing l r s x with
  | zero => cases h
  | succ fuel ih =>
    rw [cddApplyReduceRec] at h ⊢
    split at h
    · simp only at h ⊢
      split at h
      · exact h
      · exact h
      · split at h
        · exact h
        · exact cddApplyReduceNode_top (fun c d s x ↦ ih) h
    · cases h

/-! ### The results -/

/-- What `cdd_apply_reduce` returns where nothing is combined: the reduction of a diagram that
stands for the operator, whatever the limit on the width. -/
theorem cddApplyReduce_stands (miss : Prop) (hL : L.Declared)
    (hlen : miss → L.levelinfo.length ≤ maxLevel) {cache : ApplyCache} (hcache : cache.Valid L)
    (hmiss : miss → cache.Misses) {l r : DdNode} (hl : Operand L xterms l)
    (hr : Operand L xterms r) (hok : ∀ x, x ∉ Clashes L op l r) :
    ∃ d, cddApplyReduce L ⊤ cache l r op = some (reduceIn L false d Set.univ) ∧
      (∀ maxcddsize n, cddApplyReduce L maxcddsize cache l r op = some n →
        n = reduceIn L false d Set.univ) ∧
      Stands L xterms miss op (min l.level r.level) l r d := by
  have hz : (cddTarjanInit L.clocknum).zone.Nonempty := by
    rw [zone_cddTarjanInit]
    exact Set.univ_nonempty
  have hstands : CallStands L miss (cddApplyReduceRec L ⊤ cache op (l.height + r.height + 1) l r)
      (Clashes L op l r) (Stands L xterms miss op (min l.level r.level) l r) :=
    cddApplyReduceRec_stands hL hlen hcache hmiss hl hr (Nat.lt_succ_self _)
  obtain ⟨d, s, hs, -, hd⟩ :=
    hstands.call_eq ⟨cddTarjanInit L.clocknum, 0⟩ (cddTarjanInit_valid _) rfl hz fun x _ ↦ hok x
  rw [zone_cddTarjanInit] at hs
  refine ⟨d, ?_, fun size n hn ↦ ?_, hd⟩
  · unfold cddApplyReduce
    rw [hs, Option.map_some]
  · unfold cddApplyReduce at hn
    obtain ⟨x, hx, rfl⟩ := Option.map_eq_some_iff.mp hn
    have htop := cddApplyReduceRec_top hx
    rw [hs, Option.some.injEq] at htop
    rw [← htop]

/-- Without extra terminals nothing is combined and no label is lost. -/
theorem not_combines_of_wf {l r : DdNode} (hl : L.WF l) (a : Assignment) : ¬ Combines a l r := by
  rintro ⟨h, -⟩
  rw [hl.reach_eq] at h
  cases h

theorem not_drops_of_wf {l r : DdNode} (hl : L.WF l) (hr : L.WF r) (a : Assignment) :
    ¬ Drops op a l r := by
  rintro ⟨-, ⟨-, h, -⟩ | ⟨-, h, -⟩⟩
  · rw [hl.reach_eq] at h
    cases h
  · rw [hr.reach_eq] at h
    cases h

/-- Where nothing is combined and no label is lost, the diagram reaches what the result of
`cdd_apply` reaches. -/
private theorem reach_eq_cddApply {l r d m : DdNode} {level : ℕ}
    (hl : L.WellFormed xterms l) (hr : L.WellFormed xterms r)
    (hm : cddApply L ⊤ op l r = some m) (hd : Stands L xterms miss op level l r d)
    {a : Assignment} (hcomb : ¬ Combines a l r) :
    (¬ Drops op a l r → reach a d = reach a m) ∧
      (miss → Drops op a l r → reach a d ≠ reach a m) := by
  obtain ⟨n, hn, -, hreach⟩ := cddApply_reach op hl hr
  obtain rfl : n = m := Option.some_injective _ (hn.symm.trans hm)
  obtain ⟨z, hz⟩ := Option.ne_none_iff_exists'.mp
    (fun h ↦ hcomb ((cddApplyTerminal_reach_eq_none op a l r).mp h))
  rw [hreach a z hz]
  exact ⟨hd.reach_eq a z hz, fun hmiss ↦ hd.reach_ne hmiss a z hz⟩

/-- What `cdd_apply_reduce` returns for diagrams without extra terminals. -/
theorem cddApplyReduce_spec (hL : L.Declared) {cache : ApplyCache} (hcache : cache.Valid L)
    (op : CddOp) {l r : DdNode} (hl : L.Proper l) (hr : L.Proper r) :
    ∃ n, cddApplyReduce L ⊤ cache l r op = some n ∧ L.Proper n ∧ L.PathsSat n ∧
      ∀ v, Holds L v n ↔ op.eval (eval (v.assignment L) l) (eval (v.assignment L) r) = true := by
  obtain ⟨m, hm, hbuilds, -⟩ := cddApply_spec op hl.wf hr.wf
  have hok : ∀ x, x ∉ Clashes L op l r := by
    rintro x ⟨-, v, -, h⟩
    exact not_combines_of_wf hl.wf _ h
  obtain ⟨d, hn, -, hd⟩ := cddApplyReduce_stands False hL False.elim hcache False.elim
    ⟨hl.wf, hl.inRange⟩ ⟨hr.wf, hr.inRange⟩ hok
  have hred : Reduces L Set.univ (cddNegCond d false) (reduceIn L false d Set.univ) :=
    reduceIn_spec hd.loose hd.inRange false Set.univ convex_univ Set.univ_nonempty
  rw [cddNegCond_false] at hred
  refine ⟨_, hn, ⟨hred.wf, hred.inRange⟩, hred.paths, ?_⟩
  intro v
  have hreach : reach (v.assignment L) d = reach (v.assignment L) m :=
    (reach_eq_cddApply hl.wf hr.wf hm hd (not_combines_of_wf hl.wf _)).1
      (not_drops_of_wf hl.wf hr.wf _)
  rw [hred.holds_iff v (Set.mem_univ _), ← hbuilds.eval_eq, Holds, eval_eq_cddEvalTrue, hreach,
    ← eval_eq_cddEvalTrue]

end

/-- The extra terminal 0 where `x1 - x0 < 2`, and `cddtrue` elsewhere. -/
def sampleExtra : DdNode := .cdd false 0 [(.xterm false 0, 4), (cddtrue, INF)]

theorem inRange_sampleExtra : InRange sampleExtra := by
  apply All.cdd _ trivial
  · decide
  · simp only [List.mem_cons, List.not_mem_nil, or_false, forall_eq_or_imp, forall_eq]
    exact ⟨.xterm _ _, .terminal _⟩

end UCDD

import UCDD.Reduce.InZone

/-!
# The fused apply and reduce

`cdd_apply_reduce` of `cddop.c:1495–1760` walks two diagrams as `cdd_apply` does and keeps the
constraints of the path in the incremental graph as `cdd_reduce` does. It reads the cache of
`cdd_apply` and never writes it; what a lookup finds is a parameter. The result is the
reduction of a diagram with the values of the operator, so it is reduced and agrees with
`cdd_apply`.
-/

namespace UCDD

open IntervalMap DdNode

/-- What a shortcut of `cdd_apply_reduce_rec` returns: a pointer as it is, or its reduction. -/
inductive Shortcut where
  | done (d : DdNode)
  | reduce (d : DdNode)

/-- The pointer that the shortcut stands for. -/
def Shortcut.diagram : Shortcut → DdNode
  | .done d | .reduce d => d

/-- The termination conditions of `cdd_apply_reduce_rec`, `cddop.c:1524–1576`. The conditions for
extra terminals of the exclusive or stand behind its `break` and are not reached. -/
def cddApplyReduceTerminal (op : CddOp) (l r : DdNode) : Option Shortcut :=
  match op with
  | .and =>
    if l = r ∨ r = cddtrue then some (.reduce l)
    else if l = cddfalse ∨ r = cddfalse ∨ l = cddNeg r then some (.done cddfalse)
    else if l = cddtrue then some (.reduce r)
    else if cddIsExtraTerminal l then some (if cddMask l then .done l else .reduce r)
    else if cddIsExtraTerminal r then some (if cddMask r then .done r else .reduce l)
    else none
  | .xor =>
    if l = r then some (.done cddfalse)
    else if l = cddNeg r then some (.done cddtrue)
    else if l = cddfalse then some (.reduce r)
    else if r = cddfalse then some (.reduce l)
    else if l = cddtrue then some (.reduce (cddNeg r))
    else if r = cddtrue then some (.reduce (cddNeg l))
    else none

/-- What the lookups in `applycache` find, the `n`-th of a call in the contents of that time:
a collection may drop entries between two lookups. -/
abbrev ApplyCache := ℕ → DdNode → DdNode → CddOp → Option DdNode

/-- The graph, and the number of lookups made. -/
structure Fused where
  graph : Tarjan
  lookups : ℕ

/-- `cdd_tarjan_reduce_rec` on the graph of the state. -/
def Fused.reduce (L : Library) (d : DdNode) (s : Fused) : Option (DdNode × Fused) :=
  (cddTarjanReduceRec L false d s.graph).map fun r ↦ (r.1, { s with graph := r.2 })

/-- The later children, `cddop.c:1664–1702`: `prev` is the last child not pushed yet and `lower`
the bound where it ends; `mask0` is the mask of the first child. -/
def applyReduceRest (call : DdNode → DdNode → Fused → Option (DdNode × Fused)) (mask0 : Bool)
    (i j : ℕ) : List ((DdNode × DdNode) × Raw) → Raw → DdNode → Fused →
      Option (List (DdNode × Raw) × Fused)
  | [], _, prev, s => some ([(cddNegCond prev mask0, INF)], s)
  | ((lp, rp), bnd) :: it, lower, prev, s => do
    let (consistent, graph) ← cddTarjanConsistent (cddTarjanPush s.graph j i (bndL2u lower).code)
    let s := { s with graph }
    if consistent then
      let (n, s) ← (if bnd < INF then
          (call lp rp { s with graph := cddTarjanPush s.graph i j bnd.code }).map fun r ↦
            (r.1, { r.2 with graph := cddTarjanPop r.2.graph i })
        else call lp rp s)
      let (elem, s) ←
        applyReduceRest call mask0 i j it bnd n { s with graph := cddTarjanPop s.graph j }
      return (if n ≠ prev then (cddNegCond prev mask0, lower) :: elem else elem, s)
    else return ([(cddNegCond prev mask0, INF)], { s with graph := cddTarjanPop s.graph j })

/-- The search for the first consistent child, `cddop.c:1634–1662`, and the new node,
`cddop.c:1704–1721`. -/
def applyReduceFirst (maxcddsize : ℕ∞) (call : DdNode → DdNode → Fused → Option (DdNode × Fused))
    (level i j : ℕ) : List ((DdNode × DdNode) × Raw) → Bool → Fused → Option (DdNode × Fused)
  | [], _, _ => none
  | ((lp, rp), bnd) :: it, next, s =>
    if next && bnd = INF then call lp rp s
    else do
      let (consistent, graph) ← cddTarjanConsistent (cddTarjanPush s.graph i j bnd.code)
      if consistent then
        let (prev, s) ← call lp rp { s with graph }
        let (elem, s) ← applyReduceRest call (cddMask prev) i j it bnd prev
          { s with graph := cddTarjanPop s.graph i }
        let node ← cddMakeCddNode maxcddsize level elem
        return (cddNegCond node (cddMask prev), s)
      else
        applyReduceFirst maxcddsize call level i j it true { s with graph := cddTarjanPop graph i }

/-- One node of `cdd_apply_reduce_rec`, `cddop.c:1597–1742`, over the recursive call `rec`. The
pointers `lp` and `rp` walk over the common refinement of the two partitions. -/
def cddApplyReduceNode (L : Library) (maxcddsize : ℕ∞)
    (rec : DdNode → DdNode → Fused → Option (DdNode × Fused)) (l r : DdNode) (s : Fused) :
    Option (DdNode × Fused) :=
  let call (c d : DdNode) := rec (cddNegCond c (cddMask l)) (cddNegCond d (cddMask r))
  let level := min l.level r.level
  match L.levelinfo[level]? with
  | some (.cdd i j) =>
    applyReduceFirst maxcddsize call level i j (refine INF (edgesAt level l) (edgesAt level r))
      false s
  | some .bdd => do
    let (low, s) ← call (lowAt level l) (lowAt level r) s
    let (high, s) ← call (highAt level l) (highAt level r) s
    return (cddMakeBddNode level low high, s)
  | none => none

/-- `cdd_apply_reduce_rec`, with its assertion that the graph is consistent. -/
def cddApplyReduceRec (L : Library) (maxcddsize : ℕ∞) (cache : ApplyCache) (op : CddOp) :
    ℕ → DdNode → DdNode → Fused → Option (DdNode × Fused)
  | 0, _, _, _ => none
  | fuel + 1, l, r, s =>
    match cddTarjanConsistent s.graph with
    | some (true, graph) =>
      let s := { s with graph }
      match cddApplyReduceTerminal op l r with
      | some (.done d) => some (d, s)
      | some (.reduce d) => s.reduce L d
      | none =>
        let (l, r) := if L.addr l > L.addr r then (r, l) else (l, r)
        let next := { s with lookups := s.lookups + 1 }
        match cache s.lookups l r op with
        | some res => next.reduce L res
        | none =>
          cddApplyReduceNode L maxcddsize (cddApplyReduceRec L maxcddsize cache op fuel) l r next
    | _ => none

/-- `cdd_apply_reduce`. Every call of the recursion goes down in one of the operands. -/
def cddApplyReduce (L : Library) (maxcddsize : ℕ∞) (cache : ApplyCache) (l r : DdNode)
    (op : CddOp) : Option DdNode :=
  (cddApplyReduceRec L maxcddsize cache op (l.height + r.height + 1) l r
    ⟨cddTarjanInit L.clocknum, 0⟩).map (·.1)

/-! ### The loops over the children -/

section

variable {L : Library} {miss : Prop} {level i j : ℕ}

/-- A call under a graph with a solution returns the reduction of a diagram with the property
`G`; there is such a diagram in any case. It may fail where a solution is in `F`, and does if
no lookup finds anything. -/
structure CallStands (L : Library) (miss : Prop) (call : Fused → Option (DdNode × Fused))
    (F : Set (ℕ → ℝ)) (G : DdNode → Prop) : Prop where
  exists_diagram : ∃ d, G d
  call_eq : ∀ s : Fused, s.graph.Valid → s.graph.dim = L.clocknum → s.graph.zone.Nonempty →
    (∀ x ∈ s.graph.zone, x ∉ F) →
    ∃ d s', call s = some (reduceIn L false d s.graph.zone, s') ∧
      Restores s.graph s'.graph ∧ G d
  call_none : miss → ∀ s : Fused, s.graph.Valid → s.graph.dim = L.clocknum →
    (∃ x ∈ s.graph.zone, x ∈ F) → call s = none

/-- The children are diagrams with their properties, under the same bounds. -/
abbrev Children (G : DdNode × DdNode → DdNode → Prop) (ps : List ((DdNode × DdNode) × Raw))
    (es : List (DdNode × Raw)) : Prop :=
  List.Forall₂ (fun e f ↦ G e.1 f.1 ∧ f.2 = e.2) ps es

/-- The clock valuations at which the call for the pair that they select may fail. -/
def Library.failsIn (L : Library) (level : ℕ) (F : DdNode × DdNode → Set (ℕ → ℝ))
    (ps : List ((DdNode × DdNode) × Raw)) : Set (ℕ → ℝ) :=
  {x | ∃ e, select (realCut (L.diff x level)) ps = some e ∧ x ∈ F e}

variable {call : DdNode → DdNode → Fused → Option (DdNode × Fused)}
  {F : DdNode × DdNode → Set (ℕ → ℝ)} {G : DdNode × DdNode → DdNode → Prop}
  {ps : List ((DdNode × DdNode) × Raw)}

theorem mem_failsIn_of_below {e : (DdNode × DdNode) × Raw} {x : ℕ → ℝ}
    (h : Below (L.diff x level) e.2) : x ∈ L.failsIn level F (e :: ps) ↔ x ∈ F e.1 := by
  rw [Library.failsIn, Set.mem_ofPred_eq, select_cons, if_pos ((realCut_below _ _).mpr h)]
  simp

theorem mem_failsIn_of_not_below {e : (DdNode × DdNode) × Raw} {x : ℕ → ℝ}
    (h : ¬ Below (L.diff x level) e.2) :
    x ∈ L.failsIn level F (e :: ps) ↔ x ∈ L.failsIn level F ps := by
  rw [Library.failsIn, Set.mem_ofPred_eq, select_cons,
    if_neg (fun hb ↦ h ((realCut_below _ _).mp hb))]
  rfl

theorem exists_children (h : ∀ e ∈ ps, ∃ d, G e.1 d) : ∃ es, Children G ps es := by
  induction ps with
  | nil => exact ⟨[], .nil⟩
  | cons e ps ih =>
    obtain ⟨es, hes⟩ := ih fun x hx ↦ h x (List.mem_cons_of_mem _ hx)
    obtain ⟨d, hd⟩ := h e (List.mem_cons_self ..)
    exact ⟨(d, e.2) :: es, .cons ⟨hd, rfl⟩ hes⟩

section Visit

variable {c : Fused → Option (DdNode × Fused)} {K : Set (ℕ → ℝ)} {H : DdNode → Prop} {s : Fused}
  {b : Raw}

/-- The call for a later child, whose lower bound is in the graph. -/
private theorem visit_stands (hcall : CallStands L miss c K H)
    (hk : L.levelinfo[level]? = some (.cdd i j)) (hvalid : s.graph.Valid)
    (hdim : s.graph.dim = L.clocknum) (hi : i < s.graph.dim) (hj : j < s.graph.dim) (hij : i ≠ j)
    (hl : -INF < b) (hne : (L.below level b s.graph.zone).Nonempty)
    (hok : ∀ x ∈ L.below level b s.graph.zone, x ∉ K) :
    ∃ d s', (if b < INF then
          (c { s with graph := cddTarjanPush s.graph i j b.code }).map fun r ↦
            (r.1, { r.2 with graph := cddTarjanPop r.2.graph i })
        else c s) = some (reduceIn L false d (L.below level b s.graph.zone), s') ∧
      Restores s.graph s'.graph ∧ H d := by
  by_cases hb : b < INF
  · rw [if_pos hb]
    obtain ⟨hzone, -⟩ := push_upper hk hvalid hi hj hij hl hb
    obtain ⟨d, s', hs', hr, hd⟩ := hcall.call_eq
      { s with graph := cddTarjanPush s.graph i j b.code }
      (cddTarjanPush_valid hvalid b.code hi hj hij) hdim (hzone ▸ hne) (hzone ▸ hok)
    refine ⟨d, { s' with graph := cddTarjanPop s'.graph i }, ?_, hr.pop, hd⟩
    rw [hs', ← hzone, Option.map_some]
  · rw [below_of_INF_le hb] at hne hok
    rw [if_neg hb, below_of_INF_le hb]
    exact hcall.call_eq s hvalid hdim hne hok

private theorem visit_none (hcall : CallStands L miss c K H) (hmiss : miss)
    (hk : L.levelinfo[level]? = some (.cdd i j)) (hvalid : s.graph.Valid)
    (hdim : s.graph.dim = L.clocknum) (hi : i < s.graph.dim) (hj : j < s.graph.dim) (hij : i ≠ j)
    (hl : -INF < b) (hx : ∃ x ∈ L.below level b s.graph.zone, x ∈ K) :
    (if b < INF then
          (c { s with graph := cddTarjanPush s.graph i j b.code }).map fun r ↦
            (r.1, { r.2 with graph := cddTarjanPop r.2.graph i })
        else c s) = none := by
  by_cases hb : b < INF
  · obtain ⟨hzone, -⟩ := push_upper hk hvalid hi hj hij hl hb
    rw [if_pos hb, hcall.call_none hmiss { s with graph := cddTarjanPush s.graph i j b.code }
      (cddTarjanPush_valid hvalid b.code hi hj hij) hdim (hzone ▸ hx), Option.map_none]
  · rw [below_of_INF_le hb] at hx
    rw [if_neg hb]
    exact hcall.call_none hmiss s hvalid hdim hx

end Visit

/-- A later child is tested and found consistent. By convexity its interval is met. -/
private theorem rest_enter (hk : L.levelinfo[level]? = some (.cdd i j)) {graph : Tarjan}
    (hvalid : graph.Valid) (hi : i < graph.dim) (hj : j < graph.dim) (hij : i ≠ j) {low bnd : Raw}
    (hlow : -INF < low) (hlb : low < bnd) (hbelow : (L.below level low graph.zone).Nonempty)
    (habove : (L.above level low graph.zone).Nonempty) :
    ∃ g, cddTarjanConsistent (cddTarjanPush graph j i (bndL2u low).code) = some (true, g) ∧
      Restores (cddTarjanPush graph j i (bndL2u low).code) g ∧
      g.zone = L.above level low graph.zone ∧
      (L.below level bnd (L.above level low graph.zone)).Nonempty ∧
      (L.below level bnd graph.zone).Nonempty := by
  obtain ⟨hzone, c, g, hc, hg, hiff⟩ :=
    push_lower hk hvalid hi hj hij hlow (lt_of_lt_of_le hlb (le_INF bnd))
  rw [hiff.mpr habove] at hc
  obtain ⟨x, hx, hxl⟩ := hbelow
  obtain ⟨y, hy, hyl⟩ := habove
  rw [diff_of_levelinfo hk] at hxl hyl
  obtain ⟨z, hz, hzl, hzu⟩ := exists_mem_between (convex_zone graph) hlb ⟨x, hx, hxl⟩ ⟨y, hy, hyl⟩
  refine ⟨g, hc, hg, hg.zone.trans hzone, ⟨z, ⟨hz, ?_⟩, ?_⟩, z, hz, ?_⟩ <;>
    rw [diff_of_levelinfo hk] <;> assumption

private theorem applyReduceRest_eq (hk : L.levelinfo[level]? = some (.cdd i j)) (mask0 : Bool)
    (hcalls : ∀ e ∈ ps, CallStands L miss (call e.1.1 e.1.2) (F e.1) (G e.1))
    {x : DdNode × DdNode} {m : DdNode} {low : Raw} (hpart : Partition INF ((x, low) :: ps))
    (hlow : -INF < low) {s : Fused} (hvalid : s.graph.Valid) (hdim : s.graph.dim = L.clocknum)
    (hi : i < s.graph.dim) (hj : j < s.graph.dim) (hij : i ≠ j)
    (hbelow : (L.below level low s.graph.zone).Nonempty)
    (hok : ∀ x ∈ L.above level low s.graph.zone, x ∉ L.failsIn level F ps) :
    ∃ es s', Children G ps es ∧
      applyReduceRest call mask0 i j ps low m s =
        some (reduceRestIn L false mask0 level es low m s.graph.zone, s') ∧
      Restores s.graph s'.graph := by
  induction ps generalizing x m low s with
  | nil =>
    refine ⟨[], s, .nil, ?_, ⟨rfl, rfl, hvalid⟩⟩
    rw [applyReduceRest, reduceRestIn]
  | cons e ps ih =>
    obtain ⟨⟨lp, rp⟩, bnd⟩ := e
    have hlb : low < bnd := hpart.1
    have hcalls' : ∀ e ∈ ps, CallStands L miss (call e.1.1 e.1.2) (F e.1) (G e.1) :=
      fun e he ↦ hcalls e (List.mem_cons_of_mem _ he)
    rw [applyReduceRest]
    by_cases habove : (L.above level low s.graph.zone).Nonempty
    · obtain ⟨g, hc, hg, hzone, hne, hbelow'⟩ :=
        rest_enter hk hvalid hi hj hij hlow hlb hbelow habove
      rw [hc]
      obtain ⟨d, s', hn, hs', hd⟩ := visit_stands (hcalls ((lp, rp), bnd) (by simp)) hk
        (s := { s with graph := g }) hg.valid (hg.dim.trans hdim) (hg.dim ▸ hi) (hg.dim ▸ hj) hij
        (lt_trans hlow hlb) (hzone ▸ hne) (by
          simp only [hzone]
          intro y hy hyF
          exact hok y hy.1 ((mem_failsIn_of_below hy.2).mpr hyF))
      simp only [hzone] at hn
      have hback : Restores s.graph (cddTarjanPop s'.graph j) := (hg.trans hs').pop
      have hpart' : Partition INF (((lp, rp), bnd) :: ps) := hpart.2
      obtain ⟨es, s'', hes, hrest, hs''⟩ := ih hcalls' hpart' (lt_trans hlow hlb)
        (m := reduceIn L false d (L.below level bnd (L.above level low s.graph.zone)))
        (s := { s' with graph := cddTarjanPop s'.graph j }) hback.valid (hback.dim.trans hdim)
        (hback.dim ▸ hi) (hback.dim ▸ hj) (hback.zone ▸ hbelow') (by
          simp only [hback.zone]
          intro y hy hyF
          refine hok y ⟨hy.1, fun hl ↦ hy.2 (hl.mono (le_of_lt hlb))⟩ ?_
          exact (mem_failsIn_of_not_below hy.2).mpr hyF)
      simp only [hback.zone] at hrest
      refine ⟨(d, bnd) :: es, s'', .cons ⟨hd, rfl⟩ hes, ?_, hback.trans hs''⟩
      rw [reduceRestIn, if_pos habove]
      simp only [Option.bind_eq_bind, Option.bind_some, ↓reduceIte, hn, hrest, Option.pure_def,
        ne_eq, ite_not, eq_comm]
    · -- the children from here on are not called
      obtain ⟨-, c, g, hc, hg, hiff⟩ :=
        push_lower hk hvalid hi hj hij hlow (lt_of_lt_of_le hlb (le_INF bnd))
      obtain rfl : c = false := Bool.eq_false_iff.mpr fun h ↦ habove (hiff.mp h)
      obtain ⟨es, hes⟩ := exists_children fun e he ↦ (hcalls e he).exists_diagram
      obtain ⟨f, es, rfl⟩ := List.exists_cons_of_ne_nil
        (fun h : es = [] ↦ by rw [h] at hes; cases hes)
      refine ⟨f :: es, { s with graph := cddTarjanPop g j }, hes, ?_, hg.pop⟩
      rw [hc, reduceRestIn, if_neg habove]
      rfl

private theorem applyReduceRest_none (hk : L.levelinfo[level]? = some (.cdd i j)) (mask0 : Bool)
    (hcalls : ∀ e ∈ ps, CallStands L miss (call e.1.1 e.1.2) (F e.1) (G e.1)) (hmiss : miss)
    {x : DdNode × DdNode} {m : DdNode} {low : Raw} (hpart : Partition INF ((x, low) :: ps))
    (hlow : -INF < low) {s : Fused} (hvalid : s.graph.Valid) (hdim : s.graph.dim = L.clocknum)
    (hi : i < s.graph.dim) (hj : j < s.graph.dim) (hij : i ≠ j)
    (hbelow : (L.below level low s.graph.zone).Nonempty) {y : ℕ → ℝ}
    (hy : y ∈ L.above level low s.graph.zone) (hfail : y ∈ L.failsIn level F ps) :
    applyReduceRest call mask0 i j ps low m s = none := by
  induction ps generalizing x m low s with
  | nil =>
    obtain ⟨e, he, -⟩ := hfail
    cases he
  | cons e ps ih =>
    obtain ⟨⟨lp, rp⟩, bnd⟩ := e
    have hlb : low < bnd := hpart.1
    have hcalls' : ∀ e ∈ ps, CallStands L miss (call e.1.1 e.1.2) (F e.1) (G e.1) :=
      fun e he ↦ hcalls e (List.mem_cons_of_mem _ he)
    have hcall := hcalls ((lp, rp), bnd) (by simp)
    obtain ⟨g, hc, hg, hzone, hne, hbelow'⟩ :=
      rest_enter hk hvalid hi hj hij hlow hlb hbelow ⟨y, hy⟩
    rw [applyReduceRest, hc]
    by_cases hhere : ∃ z ∈ L.below level bnd (L.above level low s.graph.zone), z ∈ F (lp, rp)
    · have hn := visit_none hcall hmiss hk (s := { s with graph := g }) hg.valid
        (hg.dim.trans hdim) (hg.dim ▸ hi) (hg.dim ▸ hj) hij (lt_trans hlow hlb)
        (by simpa only [hzone] using hhere)
      simp only [Option.bind_eq_bind, Option.bind_some, ↓reduceIte, hn, Option.bind_none]
    · -- the failing solution is above this child
      have hb : ¬ Below (L.diff y level) bnd := fun hb ↦
        hhere ⟨y, ⟨hy, hb⟩, (mem_failsIn_of_below hb).mp hfail⟩
      obtain ⟨d, s', hn, hs', -⟩ := visit_stands hcall hk
        (s := { s with graph := g }) hg.valid (hg.dim.trans hdim) (hg.dim ▸ hi) (hg.dim ▸ hj) hij
        (lt_trans hlow hlb) (hzone ▸ hne) (by
          simp only [hzone]
          exact fun z hz hzF ↦ hhere ⟨z, hz, hzF⟩)
      have hback : Restores s.graph (cddTarjanPop s'.graph j) := (hg.trans hs').pop
      have hpart' : Partition INF (((lp, rp), bnd) :: ps) := hpart.2
      simp only [hzone] at hn
      have hrest := ih hcalls' hpart' (lt_trans hlow hlb)
        (m := reduceIn L false d (L.below level bnd (L.above level low s.graph.zone)))
        (s := { s' with graph := cddTarjanPop s'.graph j }) hback.valid (hback.dim.trans hdim)
        (hback.dim ▸ hi) (hback.dim ▸ hj) (hback.zone ▸ hbelow')
        (hback.zone ▸ ⟨hy.1, hb⟩) ((mem_failsIn_of_not_below hb).mp hfail)
      simp only [Option.bind_eq_bind, Option.bind_some, ↓reduceIte, hn, hrest, Option.bind_none]

variable (call) in
theorem applyReduceFirst_eq (hk : L.levelinfo[level]? = some (.cdd i j))
    (hcalls : ∀ e ∈ ps, CallStands L miss (call e.1.1 e.1.2) (F e.1) (G e.1))
    (hpart : Partition INF ps) (hrange : ∀ e ∈ ps, -INF < e.2) (next : Bool)
    (hnext : next = false → 2 ≤ ps.length) {s : Fused} (hvalid : s.graph.Valid)
    (hdim : s.graph.dim = L.clocknum) (hi : i < s.graph.dim) (hj : j < s.graph.dim) (hij : i ≠ j)
    (hz : s.graph.zone.Nonempty) (hok : ∀ x ∈ s.graph.zone, x ∉ L.failsIn level F ps) :
    ∃ es s', Children G ps es ∧ applyReduceFirst ⊤ call level i j ps next s =
        some (reduceFirstIn L false level es s.graph.zone, s') ∧
      Restores s.graph s'.graph := by
  induction ps generalizing next s with
  | nil => exact absurd hpart id
  | cons e ps ih =>
    obtain ⟨⟨lp, rp⟩, bnd⟩ := e
    have hcalls' : ∀ e ∈ ps, CallStands L miss (call e.1.1 e.1.2) (F e.1) (G e.1) :=
      fun e he ↦ hcalls e (List.mem_cons_of_mem _ he)
    have hhere := hcalls ((lp, rp), bnd) (by simp)
    rw [applyReduceFirst]
    by_cases hbnd : bnd = INF
    · -- the last child is reached only after another one was dropped
      have htrue : next = true := by
        by_contra hn
        have h2 := hnext (Bool.eq_false_iff.mpr hn)
        cases ps with
        | nil => simp at h2
        | cons e' ps => exact not_lt.mpr (le_INF e'.2) (hbnd ▸ hpart.1)
      obtain ⟨d, s', hs', hr, hd⟩ := hhere.call_eq s hvalid hdim hz fun x hx hxF ↦
        hok x hx ((mem_failsIn_of_below (hbnd ▸ below_INF _)).mpr hxF)
      obtain ⟨es, hes⟩ := exists_children fun e he ↦ (hcalls' e he).exists_diagram
      refine ⟨(d, bnd) :: es, s', .cons ⟨hd, rfl⟩ hes, ?_, hr⟩
      rw [htrue, Bool.true_and, if_pos (decide_eq_true hbnd), reduceFirstIn, if_pos hbnd]
      exact hs'
    · have hlt : bnd < INF := lt_of_le_of_ne (le_INF bnd) hbnd
      have hearly : (next && decide (bnd = INF)) = false := by simp [hbnd]
      obtain ⟨e', ps', hps, -, hpart'⟩ := hpart.tail_of_lt hlt
      have hlow : -INF < bnd := hrange ((lp, rp), bnd) (by simp)
      obtain ⟨hzone, c, g, hc, hg, hiff⟩ := push_upper hk hvalid hi hj hij hlow hlt
      rw [hearly, if_neg Bool.false_ne_true, hc]
      cases c with
      | false =>
        have hnone : ¬ (L.below level bnd s.graph.zone).Nonempty :=
          fun h ↦ Bool.noConfusion (hiff.mpr h)
        have hback : Restores s.graph (cddTarjanPop g i) := hg.pop
        obtain ⟨es, s', hes, hs', hr⟩ := ih hcalls' hpart'
          (fun e he ↦ hrange e (List.mem_cons_of_mem _ he)) true (fun h ↦ by cases h)
          (s := { s with graph := cddTarjanPop g i }) hback.valid (hback.dim.trans hdim)
          (hback.dim ▸ hi) (hback.dim ▸ hj) (hback.zone ▸ hz) (by
            simp only [hback.zone]
            intro x hx hxF
            exact hok x hx ((mem_failsIn_of_not_below fun hb ↦ hnone ⟨x, hx, hb⟩).mpr hxF))
        obtain ⟨d, hd⟩ := hhere.exists_diagram
        simp only [hback.zone] at hs'
        refine ⟨(d, bnd) :: es, s', .cons ⟨hd, rfl⟩ hes, ?_, hback.trans hr⟩
        rw [reduceFirstIn, if_neg hbnd, if_neg hnone]
        exact hs'
      | true =>
        have hbelow := hiff.mp rfl
        obtain ⟨d, s₁, hm, hs₁, hd⟩ := hhere.call_eq { s with graph := g } hg.valid
          (hg.dim.trans hdim) (hg.zone.trans hzone ▸ hbelow) (by
            simp only [hg.zone.trans hzone]
            intro x hx hxF
            exact hok x hx.1 ((mem_failsIn_of_below hx.2).mpr hxF))
        simp only [hg.zone.trans hzone] at hm
        have hback : Restores s.graph (cddTarjanPop s₁.graph i) := (hg.trans hs₁).pop
        have hpx : Partition INF (((lp, rp), bnd) :: ps) := hpart
        obtain ⟨es, s', hes, hrest, hr⟩ := applyReduceRest_eq hk
          (cddMask (reduceIn L false d (L.below level bnd s.graph.zone))) hcalls' hpx hlow
          (m := reduceIn L false d (L.below level bnd s.graph.zone))
          (s := { s₁ with graph := cddTarjanPop s₁.graph i }) hback.valid (hback.dim.trans hdim)
          (hback.dim ▸ hi) (hback.dim ▸ hj) hij (hback.zone ▸ hbelow) (by
            simp only [hback.zone]
            intro x hx hxF
            exact hok x hx.1 ((mem_failsIn_of_not_below hx.2).mpr hxF))
        simp only [hback.zone] at hrest
        refine ⟨(d, bnd) :: es, s', .cons ⟨hd, rfl⟩ hes, ?_, hback.trans hr⟩
        rw [reduceFirstIn, if_neg hbnd, if_pos hbelow]
        set m := reduceIn L false d (L.below level bnd s.graph.zone)
        obtain ⟨n, hn⟩ := exists_cddMakeCddNode level
          (reduceRestIn L false (cddMask m) level es bnd m s.graph.zone)
        simp only [Option.bind_eq_bind, Option.bind_some, ↓reduceIte, hm, hrest, hn,
          Option.pure_def, Option.getD_some]

variable (call) in
theorem applyReduceFirst_none (hk : L.levelinfo[level]? = some (.cdd i j))
    (hcalls : ∀ e ∈ ps, CallStands L miss (call e.1.1 e.1.2) (F e.1) (G e.1)) (hmiss : miss)
    (hpart : Partition INF ps) (hrange : ∀ e ∈ ps, -INF < e.2) (next : Bool)
    (hnext : next = false → 2 ≤ ps.length) {s : Fused} (hvalid : s.graph.Valid)
    (hdim : s.graph.dim = L.clocknum) (hi : i < s.graph.dim) (hj : j < s.graph.dim) (hij : i ≠ j)
    {y : ℕ → ℝ} (hy : y ∈ s.graph.zone) (hfail : y ∈ L.failsIn level F ps) :
    applyReduceFirst ⊤ call level i j ps next s = none := by
  induction ps generalizing next s with
  | nil => exact absurd hpart id
  | cons e ps ih =>
    obtain ⟨⟨lp, rp⟩, bnd⟩ := e
    have hcalls' : ∀ e ∈ ps, CallStands L miss (call e.1.1 e.1.2) (F e.1) (G e.1) :=
      fun e he ↦ hcalls e (List.mem_cons_of_mem _ he)
    have hhere := hcalls ((lp, rp), bnd) (by simp)
    rw [applyReduceFirst]
    by_cases hbnd : bnd = INF
    · have htrue : next = true := by
        by_contra hn
        have h2 := hnext (Bool.eq_false_iff.mpr hn)
        cases ps with
        | nil => simp at h2
        | cons e' ps => exact not_lt.mpr (le_INF e'.2) (hbnd ▸ hpart.1)
      rw [htrue, Bool.true_and, if_pos (decide_eq_true hbnd)]
      exact hhere.call_none hmiss s hvalid hdim
        ⟨y, hy, (mem_failsIn_of_below (hbnd ▸ below_INF _)).mp hfail⟩
    · have hlt : bnd < INF := lt_of_le_of_ne (le_INF bnd) hbnd
      have hearly : (next && decide (bnd = INF)) = false := by simp [hbnd]
      obtain ⟨e', ps', hps, -, hpart'⟩ := hpart.tail_of_lt hlt
      have hlow : -INF < bnd := hrange ((lp, rp), bnd) (by simp)
      obtain ⟨hzone, c, g, hc, hg, hiff⟩ := push_upper hk hvalid hi hj hij hlow hlt
      rw [hearly, if_neg Bool.false_ne_true, hc]
      by_cases hall : ∃ z ∈ L.below level bnd s.graph.zone, z ∈ F (lp, rp)
      · obtain rfl : c = true := by
          obtain ⟨z, hz, -⟩ := hall
          exact hiff.mpr ⟨z, hz⟩
        have hn := hhere.call_none hmiss { s with graph := g } hg.valid (hg.dim.trans hdim)
          (by simpa only [hg.zone.trans hzone] using hall)
        simp only [Option.bind_eq_bind, Option.bind_some, ↓reduceIte, hn, Option.bind_none]
      · -- the failing solution is above this child
        have hb : ¬ Below (L.diff y level) bnd := fun hb ↦
          hall ⟨y, ⟨hy, hb⟩, (mem_failsIn_of_below hb).mp hfail⟩
        have hfail' := (mem_failsIn_of_not_below hb).mp hfail
        cases c with
        | false =>
          have hback : Restores s.graph (cddTarjanPop g i) := hg.pop
          exact ih hcalls' hpart' (fun e he ↦ hrange e (List.mem_cons_of_mem _ he)) true
            (fun h ↦ nomatch h) (s := { s with graph := cddTarjanPop g i }) hback.valid
            (hback.dim.trans hdim) (hback.dim ▸ hi) (hback.dim ▸ hj) (hback.zone ▸ hy) hfail'
        | true =>
          have hbelow := hiff.mp rfl
          obtain ⟨d, s₁, hm, hs₁, -⟩ := hhere.call_eq { s with graph := g } hg.valid
            (hg.dim.trans hdim) (hg.zone.trans hzone ▸ hbelow) (by
              simp only [hg.zone.trans hzone]
              exact fun z hz hzF ↦ hall ⟨z, hz, hzF⟩)
          have hback : Restores s.graph (cddTarjanPop s₁.graph i) := (hg.trans hs₁).pop
          have hpx : Partition INF (((lp, rp), bnd) :: ps) := hpart
          have hrest := applyReduceRest_none hk
            (cddMask (reduceIn L false d g.zone)) hcalls' hmiss hpx hlow
            (m := reduceIn L false d g.zone)
            (s := { s₁ with graph := cddTarjanPop s₁.graph i }) hback.valid (hback.dim.trans hdim)
            (hback.dim ▸ hi) (hback.dim ▸ hj) hij (hback.zone ▸ hbelow)
            (hback.zone ▸ ⟨hy, hb⟩) hfail'
          simp only [Option.bind_eq_bind, Option.bind_some, ↓reduceIte, hm, hrest,
            Option.bind_none]

end

end UCDD

import UCDD.Lib.Relaxation
import UCDD.Reduce.InZone

/-!
# The naive reducer

`cdd_bf_reduce` of `debug.c:16–118` and its graph, `bellmanford.c`: one stack of edges, scanned
in passes, and distances that are kept between calls. Pushing an edge twice, or popping none,
fails an assertion. The verdict depends on the edges only, and the reducer computes what
`cdd_reduce` computes.
-/

namespace UCDD

open ConstraintGraph IntervalMap DdNode

/-- `struct bellmanford`: the stack of edges, the top last. -/
structure Bellmanford where
  dim : ℕ
  dist : ℕ → Distance
  edges : List (ℕ × ℕ × ℤ)

/-- `cdd_bf_init`. -/
def cddBfInit (dim : ℕ) : Bellmanford := ⟨dim, fun _ ↦ ⟨0, 0⟩, []⟩

/-- `unique`: the graph does not contain the edge. -/
def bfUnique (graph : Bellmanford) (i j : ℕ) : Bool :=
  graph.edges.all fun e ↦ !(e.1 == i && e.2.1 == j)

/-- `cdd_bf_push`. -/
def cddBfPush (graph : Bellmanford) (i j : ℕ) (c : Raw) : Option Bellmanford :=
  if c < INF ∧ bfUnique graph i j = true ∧ i ≠ j then
    some { graph with edges := graph.edges ++ [(i, j, c.code)] }
  else none

/-- `cdd_bf_pop`. -/
def cddBfPop (graph : Bellmanford) : Option Bellmanford :=
  if 0 < graph.edges.length then some { graph with edges := graph.edges.dropLast } else none

/-- The scan of an edge, `bellmanford.c:104–108`. -/
def bfScanEdge (s : (ℕ → Distance) × Bool) (e : ℕ × ℕ × ℤ) : (ℕ → Distance) × Bool :=
  let sum := (s.1 e.1).add e.2.2
  if sum.less (s.1 e.2.1) then (Function.update s.1 e.2.1 sum, true) else s

/-- The loop of `bellmanford.c:101–110`: at most `v` passes, until one finds nothing. -/
def bfLoop (edges : List (ℕ × ℕ × ℤ)) : ℕ → (ℕ → Distance) → (ℕ → Distance) × Bool
  | 0, dist => (dist, false)
  | v + 1, dist =>
    let s := edges.foldl bfScanEdge (dist, false)
    if v ≠ 0 ∧ s.2 = true then bfLoop edges v s.1 else s

/-- `cdd_bf_consistent`. -/
def cddBfConsistent (graph : Bellmanford) : Bool × Bellmanford :=
  let s := bfLoop graph.edges graph.dim graph.dist
  (!(s.2 && graph.edges.any fun e ↦ ((s.1 e.1).add e.2.2).less (s.1 e.2.1)),
    { graph with dist := s.1 })

mutual

/-- `cdd_bf_reduce_rec` on the pointer `cddNegCond node mask`. -/
def cddBfReduceRec (L : Library) (mask : Bool) :
    DdNode → Bellmanford → Option (DdNode × Bellmanford)
  | .terminal neg, graph => some (.terminal (neg ^^ mask), graph)
  | .xterm neg id, graph => some (.xterm (neg ^^ mask) id, graph)
  | .bdd neg level low high, graph => do
    let (n, graph) ← cddBfReduceRec L (neg ^^ mask) low graph
    let (m, graph) ← cddBfReduceRec L (neg ^^ mask) high graph
    return (cddMakeBddNode level n m, graph)
  | .cdd neg level elem, graph =>
    match L.levelinfo[level]? with
    | some (.cdd i j) => bfReduceFirst L (neg ^^ mask) level i j elem false graph
    | _ => none

/-- The search for the first consistent child, `debug.c:48–66`, and the new node,
`debug.c:99–109`. -/
def bfReduceFirst (L : Library) (mask : Bool) (level i j : ℕ) :
    List (DdNode × Raw) → Bool → Bellmanford → Option (DdNode × Bellmanford)
  | [], _, _ => none
  | (child, bnd) :: it, next, graph =>
    -- all bounds except the last are inconsistent, so the node has no effect
    if next && bnd = INF then cddBfReduceRec L mask child graph
    else do
      let (consistent, graph) := cddBfConsistent (← cddBfPush graph i j bnd)
      if consistent then
        let (prev, graph) ← cddBfReduceRec L mask child graph
        let (elem, graph) ← bfReduceRest L mask (cddMask prev) i j it bnd prev graph
        let n ← cddMakeCddNode ⊤ level elem
        return (cddNegCond n (cddMask prev), graph)
      else bfReduceFirst L mask level i j it true (← cddBfPop graph)

/-- The later children, `debug.c:74–98`: the edge of the bound `low` where `prev` ends, or of
the lower bound of `prev`, is still on the stack. -/
def bfReduceRest (L : Library) (mask mask0 : Bool) (i j : ℕ) :
    List (DdNode × Raw) → Raw → DdNode → Bellmanford → Option (List (DdNode × Raw) × Bellmanford)
  | [], _, prev, graph => do return ([(cddNegCond prev mask0, INF)], ← cddBfPop graph)
  | (child, bnd) :: it, low, prev, graph => do
    let (consistent, graph) := cddBfConsistent (← cddBfPush (← cddBfPop graph) j i (bndL2u low))
    if consistent then
      let (n, graph) ← (if bnd < INF then do
          let (n, graph) ← cddBfReduceRec L mask child (← cddBfPush graph i j bnd)
          return (n, ← cddBfPop graph)
        else cddBfReduceRec L mask child graph)
      let (elem, graph) ← bfReduceRest L mask mask0 i j it bnd n graph
      return (if prev ≠ n then (cddNegCond prev mask0, low) :: elem else elem, graph)
    else return ([(cddNegCond prev mask0, INF)], ← cddBfPop graph)

end

/-- `cdd_bf_reduce`. -/
def cddBfReduce (L : Library) (node : DdNode) : Option DdNode :=
  (cddBfReduceRec L false node (cddBfInit L.clocknum)).map (·.1)

/-! ### The passes -/

/-- The edges with the weights of their bounds. -/
def weighted (edges : List (ℕ × ℕ × ℤ)) : List (ℕ × ℕ × (ℤ ×ₗ ℤ)) :=
  edges.map fun e ↦ (e.1, e.2.1, weight e.2.2)

/-- The labels of all vertices. -/
def labels (dist : ℕ → Distance) (x : ℕ) : ℤ ×ₗ ℤ := (dist x).label

section

variable {edges : List (ℕ × ℕ × ℤ)} {dist : ℕ → Distance}

/-- The scan of an edge relaxes it, and notes whether it lowered a label. -/
theorem bfScanEdge_spec (s : (ℕ → Distance) × Bool) (e : ℕ × ℕ × ℤ) :
    labels (bfScanEdge s e).1 = ConstraintGraph.relax (labels s.1) (e.1, e.2.1, weight e.2.2) ∧
      (s.2 = true → (bfScanEdge s e).2 = true) ∧
      ((bfScanEdge s e).2 = false →
        bfScanEdge s e = s ∧ labels s.1 e.2.1 ≤ labels s.1 e.1 + weight e.2.2) := by
  have hless : ((s.1 e.1).add e.2.2).less (s.1 e.2.1) = true ↔
      labels s.1 e.1 + weight e.2.2 < labels s.1 e.2.1 := by
    rw [Distance.less_iff, Distance.label_add]
    rfl
  by_cases h : ((s.1 e.1).add e.2.2).less (s.1 e.2.1) = true
  · have hscan : bfScanEdge s e =
        (Function.update s.1 e.2.1 ((s.1 e.1).add e.2.2), true) := if_pos h
    rw [hscan]
    refine ⟨?_, fun _ ↦ rfl, fun hf ↦ nomatch hf⟩
    rw [relax_of_lt (hless.mp h)]
    ext x
    unfold labels
    by_cases hx : x = e.2.1
    · subst hx
      simp
    · simp [Function.update_of_ne hx]
  · have hscan : bfScanEdge s e = s := if_neg h
    have hle : labels s.1 e.2.1 ≤ labels s.1 e.1 + weight e.2.2 :=
      not_lt.mp fun hlt ↦ h (hless.mpr hlt)
    rw [hscan]
    exact ⟨(relax_of_le hle).symm, id, fun _ ↦ ⟨rfl, hle⟩⟩

/-- One pass. Where it finds nothing every edge is met. -/
theorem foldl_bfScanEdge (edges : List (ℕ × ℕ × ℤ)) (s : (ℕ → Distance) × Bool) :
    labels (edges.foldl bfScanEdge s).1 = pass (weighted edges) (labels s.1) ∧
      (s.2 = true → (edges.foldl bfScanEdge s).2 = true) ∧
      ((edges.foldl bfScanEdge s).2 = false → edges.foldl bfScanEdge s = s ∧
        Potential (ListEdge (weighted edges)) (labels s.1)) := by
  induction edges generalizing s with
  | nil => exact ⟨rfl, id, fun _ ↦ ⟨rfl, fun u v w h ↦ absurd h List.not_mem_nil⟩⟩
  | cons e edges ih =>
    obtain ⟨hlab, hmono, hstill⟩ := bfScanEdge_spec s e
    obtain ⟨hlab', hmono', hstill'⟩ := ih (bfScanEdge s e)
    rw [List.foldl_cons]
    refine ⟨?_, fun h ↦ hmono' (hmono h), fun h ↦ ?_⟩
    · rw [hlab', hlab]
      rfl
    · obtain ⟨hs, hpot⟩ := hstill' h
      have hf : (bfScanEdge s e).2 = false := by
        rw [hs] at h
        exact h
      obtain ⟨hs', hle⟩ := hstill hf
      refine ⟨hs.trans hs', fun u v w hw ↦ ?_⟩
      rw [hs'] at hpot
      rcases List.mem_cons.mp hw with hw | hw
      · cases hw
        exact hle
      · exact hpot u v w hw

/-- The loop ends in a pass that finds nothing, or after `v` passes. -/
theorem bfLoop_spec (edges : List (ℕ × ℕ × ℤ)) {v : ℕ} (hv : 0 < v) (dist : ℕ → Distance) :
    ((bfLoop edges v dist).2 = false →
        Potential (ListEdge (weighted edges)) (labels (bfLoop edges v dist).1)) ∧
      ((bfLoop edges v dist).2 = true →
        labels (bfLoop edges v dist).1 = (pass (weighted edges))^[v] (labels dist)) := by
  induction v generalizing dist with
  | zero => exact absurd hv (lt_irrefl _)
  | succ v ih =>
    obtain ⟨hlab, -, hstill⟩ := foldl_bfScanEdge edges (dist, false)
    rw [bfLoop]
    by_cases hgo : v ≠ 0 ∧ (edges.foldl bfScanEdge (dist, false)).2 = true
    · rw [if_pos hgo]
      obtain ⟨hpot, hiter⟩ := ih (Nat.pos_of_ne_zero hgo.1) (edges.foldl bfScanEdge (dist, false)).1
      refine ⟨hpot, fun h ↦ ?_⟩
      rw [hiter h, hlab, Function.iterate_succ_apply]
    · rw [if_neg hgo]
      refine ⟨fun h ↦ ?_, fun h ↦ ?_⟩
      · obtain ⟨hs, hpot⟩ := hstill h
        rw [hs]
        exact hpot
      · have hv0 : v = 0 := by
          by_contra hne
          exact hgo ⟨hne, h⟩
        subst hv0
        exact hlab

end

/-! ### Consistency -/

/-- The edges join different vertices of the graph. -/
def Bellmanford.Valid (graph : Bellmanford) : Prop :=
  ∀ e ∈ graph.edges, e.1 < graph.dim ∧ e.2.1 < graph.dim ∧ e.1 ≠ e.2.1

/-- The clock valuations that meet every edge. -/
def Bellmanford.zone (graph : Bellmanford) : Set (ℕ → ℝ) :=
  {x | ∀ e ∈ graph.edges, UpperSat (x e.1 - x e.2.1) e.2.2}

/-- The incremental graph with the same edges, every vertex queued. -/
def Bellmanford.tarjan (graph : Bellmanford) : Tarjan where
  dim := graph.dim
  dist := fun _ ↦ ⟨0, 0⟩
  edges u := (graph.edges.filter (·.1 = u)).map (·.2)
  fifo := List.range graph.dim

section

variable {graph : Bellmanford}

theorem mem_tarjan_edges {u v : ℕ} {b : ℤ} :
    (v, b) ∈ graph.tarjan.edges u ↔ (u, v, b) ∈ graph.edges := by
  simp only [Bellmanford.tarjan, List.mem_map, List.mem_filter, decide_eq_true_eq]
  constructor
  · rintro ⟨e, ⟨he, rfl⟩, hvb⟩
    rw [← hvb]
    exact he
  · exact fun h ↦ ⟨(u, v, b), ⟨h, rfl⟩, rfl⟩

theorem Bellmanford.Valid.tarjan (h : graph.Valid) : graph.tarjan.Valid where
  edge _ e he := h _ (mem_tarjan_edges (b := e.2).mp he)
  nodup := List.nodup_range
  fifo_lt _ hu := List.mem_range.mp hu
  queued _ e he _ := List.mem_range.mpr (h _ (mem_tarjan_edges (b := e.2).mp he)).1

theorem zone_tarjan : graph.tarjan.zone = graph.zone := by
  ext x
  constructor
  · exact fun h e he ↦ h e.1 e.2 (mem_tarjan_edges (b := e.2.2).mpr he)
  · exact fun h u e he ↦ h (u, e) (mem_tarjan_edges (b := e.2).mp he)

theorem tarjan_edge {u v : ℕ} {w : ℤ ×ₗ ℤ} :
    graph.tarjan.Edge u v w ↔ ListEdge (weighted graph.edges) u v w := by
  simp only [Tarjan.Edge, ListEdge, weighted, List.mem_map]
  constructor
  · rintro ⟨b, hb, rfl⟩
    exact ⟨(u, v, b), mem_tarjan_edges.mp hb, rfl⟩
  · rintro ⟨e, he, heq⟩
    cases heq
    exact ⟨e.2.2, mem_tarjan_edges.mpr he, rfl⟩

theorem potential_tarjan {d : ℕ → ℤ ×ₗ ℤ} :
    Potential graph.tarjan.Edge d ↔ Potential (ListEdge (weighted graph.edges)) d :=
  forall₃_congr fun _ _ _ ↦ imp_congr_left tarjan_edge

/-- Where the edges have a solution they have a potential. -/
private theorem exists_potential (h : graph.Valid) (hz : graph.zone.Nonempty) :
    ∃ p, Potential (ListEdge (weighted graph.edges)) p := by
  obtain ⟨b, g, -, -, -, -, hpot, hneg⟩ := cddTarjanConsistent_spec h.tarjan
  cases b with
  | true => exact ⟨_, potential_tarjan.mp (hpot rfl)⟩
  | false =>
    obtain ⟨x, hx⟩ := hz
    exact absurd (hneg rfl) (not_negativeCycle_of_mem_zone (zone_tarjan ▸ hx))

/-- The consistency test answers whether the edges have a solution, whatever distances it
starts from. -/
theorem cddBfConsistent_iff (h : graph.Valid) (hdim : 0 < graph.dim) :
    (cddBfConsistent graph).1 = true ↔ graph.zone.Nonempty := by
  obtain ⟨hstill, hiter⟩ := bfLoop_spec graph.edges hdim graph.dist
  set s := bfLoop graph.edges graph.dim graph.dist
  have hany : (graph.edges.any fun e ↦ ((s.1 e.1).add e.2.2).less (s.1 e.2.1)) = false ↔
      Potential (ListEdge (weighted graph.edges)) (labels s.1) := by
    simp only [List.any_eq_false, Distance.less_iff, Distance.label_add, not_lt]
    constructor
    · intro hall u v w hw
      obtain ⟨e, he, heq⟩ := List.mem_map.mp hw
      cases heq
      exact hall e he
    · exact fun hpot e he ↦ hpot e.1 e.2.1 _ (List.mem_map_of_mem he)
  have hpot : (cddBfConsistent graph).1 = true ↔
      Potential (ListEdge (weighted graph.edges)) (labels s.1) := by
    change (!(s.2 && _)) = true ↔ _
    rw [Bool.not_eq_true', Bool.and_eq_false_iff, hany]
    exact or_iff_right_of_imp hstill
  rw [hpot]
  constructor
  · intro hp
    rw [← zone_tarjan]
    exact zone_nonempty_of_potential h.tarjan (potential_tarjan.mpr hp)
  · intro hz
    obtain ⟨p, hp⟩ := exists_potential h hz
    cases hs : s.2 with
    | false => exact hstill hs
    | true =>
      have hvs : ∀ e ∈ weighted graph.edges, e.1 ∈ Finset.range graph.dim :=
        List.forall_mem_map.mpr fun e he ↦ Finset.mem_range.mpr (h e he).1
      rw [hiter hs]
      have hround := potential_iterate_pass hp hvs (labels graph.dist)
      rwa [Finset.card_range] at hround

end

/-! ### The stack -/

/-- The graph with an edge on top. -/
def Bellmanford.pushed (graph : Bellmanford) (i j : ℕ) (c : Raw) : Bellmanford :=
  { graph with edges := graph.edges ++ [(i, j, c.code)] }

/-- Only distances changed. -/
structure SameEdges (graph graph' : Bellmanford) : Prop where
  edges : graph'.edges = graph.edges
  dim : graph'.dim = graph.dim

/-- The edges are those of levels before `level`. -/
def Bellmanford.Before (L : Library) (level : ℕ) (graph : Bellmanford) : Prop :=
  graph.dim = L.clocknum ∧ ∀ e ∈ graph.edges, ∃ ℓ < level, ∃ a b,
    L.levelinfo[ℓ]? = some (.cdd a b) ∧ (e.1 = a ∧ e.2.1 = b ∨ e.1 = b ∧ e.2.1 = a)

section

variable {L : Library} {level i j : ℕ} {graph g : Bellmanford} {c : Raw}

theorem SameEdges.zone (h : SameEdges graph g) : g.zone = graph.zone := by
  simp only [Bellmanford.zone, h.edges]

theorem SameEdges.trans {g' : Bellmanford} (h : SameEdges graph g) (h' : SameEdges g g') :
    SameEdges graph g' :=
  ⟨h'.edges.trans h.edges, h'.dim.trans h.dim⟩

theorem SameEdges.before (h : SameEdges graph g) (hb : graph.Before L level) :
    g.Before L level := by
  refine ⟨h.dim.trans hb.1, ?_⟩
  rw [h.edges]
  exact hb.2

theorem Bellmanford.Before.mono (h : graph.Before L level) {level' : ℕ} (hle : level ≤ level') :
    graph.Before L level' := by
  refine ⟨h.1, fun e he ↦ ?_⟩
  obtain ⟨ℓ, hℓ, hrest⟩ := h.2 e he
  exact ⟨ℓ, lt_of_lt_of_le hℓ hle, hrest⟩

theorem Bellmanford.Before.valid (h : graph.Before L level) (hL : L.Declared) : graph.Valid := by
  intro e he
  obtain ⟨ℓ, -, a, b, hab, hends⟩ := h.2 e he
  obtain ⟨⟨hba, ha⟩, -⟩ := hL.covers.pair_of_level ℓ a b hab
  rw [h.1]
  rcases hends with ⟨h1, h2⟩ | ⟨h1, h2⟩ <;> omega

theorem mem_zone_pushed {x : ℕ → ℝ} :
    x ∈ (graph.pushed i j c).zone ↔ x ∈ graph.zone ∧ UpperSat (x i - x j) c.code := by
  constructor
  · exact fun h ↦ ⟨fun e he ↦ h e (List.mem_append_left _ he),
      h (i, j, c.code) (List.mem_append_right _ (List.mem_singleton_self _))⟩
  · rintro ⟨h, hij⟩ e he
    rcases List.mem_append.mp he with he | he
    · exact h e he
    · cases List.mem_singleton.mp he
      exact hij

/-- The edges of a level are not on the stack before it. -/
theorem Bellmanford.Before.notMem (h : graph.Before L level) (hL : L.Declared)
    (hk : L.levelinfo[level]? = some (.cdd i j)) :
    ∀ e ∈ graph.edges, ¬ (e.1 = i ∧ e.2.1 = j) ∧ ¬ (e.1 = j ∧ e.2.1 = i) := by
  intro e he
  obtain ⟨ℓ, hℓ, a, b, hab, hends⟩ := h.2 e he
  obtain ⟨⟨hba, -⟩, hdiff⟩ := hL.covers.pair_of_level ℓ a b hab
  obtain ⟨⟨hji, -⟩, hdiff'⟩ := hL.covers.pair_of_level level i j hk
  have hne : ¬ (a = i ∧ b = j) := by
    rintro ⟨rfl, rfl⟩
    omega
  constructor
  · rintro ⟨h1, h2⟩
    rcases hends with ⟨h3, h4⟩ | ⟨h3, h4⟩
    · exact hne ⟨h3.symm.trans h1, h4.symm.trans h2⟩
    · omega
  · rintro ⟨h1, h2⟩
    rcases hends with ⟨h3, h4⟩ | ⟨h3, h4⟩
    · omega
    · exact hne ⟨h4.symm.trans h2, h3.symm.trans h1⟩

theorem cddBfPush_eq (hc : c < INF) (hij : i ≠ j)
    (hnew : ∀ e ∈ graph.edges, ¬ (e.1 = i ∧ e.2.1 = j)) :
    cddBfPush graph i j c = some (graph.pushed i j c) := by
  have hunique : bfUnique graph i j = true := by
    unfold bfUnique
    rw [List.all_eq_true]
    intro e he
    simpa only [Bool.not_eq_true', Bool.and_eq_false_iff, beq_eq_false_iff_ne, ne_eq,
      not_and_or] using hnew e he
  exact if_pos ⟨hc, hunique, hij⟩

theorem cddBfPop_eq {e : ℕ × ℕ × ℤ} {es : List (ℕ × ℕ × ℤ)} (h : graph.edges = es ++ [e]) :
    cddBfPop graph = some { graph with edges := es } := by
  unfold cddBfPop
  rw [h, if_pos (by simp), List.dropLast_concat]

theorem cddBfConsistent_sameEdges (graph : Bellmanford) :
    SameEdges graph (cddBfConsistent graph).2 :=
  ⟨rfl, rfl⟩

/-- The new edge belongs to the level. -/
theorem Bellmanford.Before.pushed (h : graph.Before L level) {a b : ℕ}
    (hk : L.levelinfo[level]? = some (.cdd a b)) (hends : i = a ∧ j = b ∨ i = b ∧ j = a)
    (c : Raw) : (graph.pushed i j c).Before L (level + 1) := by
  refine ⟨h.1, fun e he ↦ ?_⟩
  rcases List.mem_append.mp he with he | he
  · exact (h.mono (Nat.le_succ level)).2 e he
  · cases List.mem_singleton.mp he
    exact ⟨level, Nat.lt_succ_self _, a, b, hk, hends⟩

end

/-! ### The recursion -/

/-- The recursion computes the reduction under the solutions of its graph. -/
def BfCallEq (L : Library) (mask : Bool) (d : DdNode) : Prop :=
  ∀ graph : Bellmanford, graph.Before L d.level →
    ∃ graph', cddBfReduceRec L mask d graph = some (reduceIn L mask d graph.zone, graph') ∧
      SameEdges graph graph'

section

variable {L : Library} {mask : Bool} {level i j : ℕ} {graph : Bellmanford}

/-- Pushing the edge of a bound and testing the graph, where `Z` are the solutions with it. -/
private theorem push_test (hL : L.Declared) (hbefore : graph.Before L level) {a b : ℕ}
    (hk : L.levelinfo[level]? = some (.cdd a b)) (hends : i = a ∧ j = b ∨ i = b ∧ j = a)
    {c : Raw} (hc : c < INF) {Z : Set (ℕ → ℝ)} (hZ : (graph.pushed i j c).zone = Z) :
    cddBfPush graph i j c = some (graph.pushed i j c) ∧
      ((cddBfConsistent (graph.pushed i j c)).1 = true ↔ Z.Nonempty) := by
  obtain ⟨⟨hba, ha⟩, -⟩ := hL.covers.pair_of_level level a b hk
  have hnew := hbefore.notMem hL hk
  have hpush := hbefore.pushed hk hends c
  constructor
  · refine cddBfPush_eq hc (by omega) fun e he ↦ ?_
    rcases hends with ⟨rfl, rfl⟩ | ⟨rfl, rfl⟩
    · exact (hnew e he).1
    · exact (hnew e he).2
  · rw [← hZ]
    exact cddBfConsistent_iff (hpush.valid hL) (hpush.1 ▸ by omega)

private theorem zone_pushed_upper (hk : L.levelinfo[level]? = some (.cdd i j)) {c : Raw}
    (hl : -INF < c) (hu : c < INF) :
    (graph.pushed i j c).zone = L.below level c graph.zone := by
  ext x
  rw [mem_zone_pushed, Library.below, Set.mem_ofPred_eq, diff_of_levelinfo hk,
    below_iff_upperSat hl hu]

private theorem zone_pushed_lower (hk : L.levelinfo[level]? = some (.cdd i j)) {c : Raw}
    (hl : -INF < c) (hu : c < INF) :
    (graph.pushed j i (bndL2u c)).zone = L.above level c graph.zone := by
  ext x
  rw [mem_zone_pushed, Library.above, Set.mem_ofPred_eq, diff_of_levelinfo hk,
    upperSat_lower hl hu]

/-- The call for a later child, whose lower bound is on the stack. -/
private theorem bfVisit_eq {child : DdNode} (hcall : BfCallEq L mask child)
    (hlevel : level < child.level) (hk : L.levelinfo[level]? = some (.cdd i j)) (hij : i ≠ j)
    (hbefore : graph.Before L (level + 1))
    (hnew : ∀ e ∈ graph.edges, ¬ (e.1 = i ∧ e.2.1 = j)) {b : Raw} (hl : -INF < b) :
    ∃ g, (if b < INF then do
          let (n, g) ← cddBfReduceRec L mask child (← cddBfPush graph i j b)
          return (n, ← cddBfPop g)
        else cddBfReduceRec L mask child graph) =
          some (reduceIn L mask child (L.below level b graph.zone), g) ∧ SameEdges graph g := by
  by_cases hb : b < INF
  · rw [if_pos hb, cddBfPush_eq hb hij hnew]
    have hpush : (graph.pushed i j b).Before L child.level := by
      refine ⟨hbefore.1, fun e he ↦ ?_⟩
      rcases List.mem_append.mp he with he | he
      · exact (hbefore.mono hlevel).2 e he
      · cases List.mem_singleton.mp he
        exact ⟨level, hlevel, i, j, hk, .inl ⟨rfl, rfl⟩⟩
    obtain ⟨g, hg, hsame⟩ := hcall _ hpush
    have hpop : cddBfPop g = some { g with edges := graph.edges } := cddBfPop_eq hsame.edges
    refine ⟨{ g with edges := graph.edges }, ?_, ⟨rfl, hsame.dim⟩⟩
    rw [zone_pushed_upper hk hl hb] at hg
    simp only [Option.bind_eq_bind, Option.bind_some, hg, hpop, Option.pure_def]
  · rw [if_neg hb, below_of_INF_le hb]
    exact hcall graph (hbefore.mono hlevel)

/-- The scan of the later children, with the edge of the child before on the stack. -/
private theorem bfReduceRest_eq (hL : L.Declared) (hk : L.levelinfo[level]? = some (.cdd i j))
    (mask0 : Bool) {es : List (DdNode × Raw)} (hcalls : ∀ e ∈ es, BfCallEq L mask e.1)
    (hlevel : ∀ e ∈ es, level < e.1.level) {m : DdNode} {low : Raw}
    (hpart : Partition INF ((m, low) :: es)) (hlow : -INF < low)
    (hbefore : graph.Before L level) {top : Bellmanford} {e : ℕ × ℕ × ℤ}
    (htop : top.edges = graph.edges ++ [e]) (hdim : top.dim = graph.dim) :
    ∃ graph', bfReduceRest L mask mask0 i j es low m top =
        some (reduceRestIn L mask mask0 level es low m graph.zone, graph') ∧
      SameEdges graph graph' := by
  induction es generalizing m low top e with
  | nil =>
    refine ⟨{ top with edges := graph.edges }, ?_, ⟨rfl, hdim⟩⟩
    rw [bfReduceRest, reduceRestIn, cddBfPop_eq htop]
    rfl
  | cons f es ih =>
    obtain ⟨child, bnd⟩ := f
    have hlb : low < bnd := hpart.1
    have hlt : low < INF := lt_of_lt_of_le hlb (le_INF bnd)
    obtain ⟨⟨hji, hi⟩, -⟩ := hL.covers.pair_of_level level i j hk
    have hpop := cddBfPop_eq htop
    have hsame : SameEdges graph { top with edges := graph.edges } := ⟨rfl, hdim⟩
    have hbefore' := hsame.before hbefore
    have hlowU : bndL2u low < INF := bndL2u_lt_INF hlow hlt
    obtain ⟨hpush, hiff⟩ := push_test hL hbefore' hk (.inr ⟨rfl, rfl⟩) hlowU
      (zone_pushed_lower hk hlow hlt)
    rw [hsame.zone] at hiff
    rw [bfReduceRest, reduceRestIn, hpop]
    simp only [Option.bind_eq_bind, Option.bind_some, hpush, Option.pure_def]
    set g := { top with edges := graph.edges } with hg
    set g₁ := (cddBfConsistent (g.pushed j i (bndL2u low))).2 with hg₁
    have hg₁same : SameEdges (g.pushed j i (bndL2u low)) g₁ := cddBfConsistent_sameEdges _
    have hg₁edges : g₁.edges = graph.edges ++ [(j, i, (bndL2u low).code)] := hg₁same.edges
    cases hc : (cddBfConsistent (g.pushed j i (bndL2u low))).1 with
    | false =>
      rw [if_neg (fun h ↦ Bool.false_ne_true (hc.symm.trans (hiff.mpr h))), cddBfPop_eq hg₁edges]
      exact ⟨_, rfl, ⟨rfl, hg₁same.dim.trans hdim⟩⟩
    | true =>
      rw [if_pos (hiff.mp hc)]
      have hg₁before : g₁.Before L (level + 1) :=
        hg₁same.before (hbefore'.pushed hk (.inr ⟨rfl, rfl⟩) _)
      have hg₁new : ∀ e ∈ g₁.edges, ¬ (e.1 = i ∧ e.2.1 = j) := by
        rw [hg₁edges]
        intro e he
        rcases List.mem_append.mp he with he | he
        · exact (hbefore.notMem hL hk e he).1
        · cases List.mem_singleton.mp he
          exact fun h ↦ absurd h.1 (by omega)
      obtain ⟨g₂, hn, hg₂⟩ := bfVisit_eq (hcalls (child, bnd) (by simp))
        (hlevel (child, bnd) (by simp)) hk (by omega) hg₁before hg₁new (lt_trans hlow hlb)
      have hzone : g₁.zone = L.above level low graph.zone := by
        rw [hg₁same.zone, zone_pushed_lower hk hlow hlt, hsame.zone]
      rw [hzone] at hn
      set n := reduceIn L mask child (L.below level bnd (L.above level low graph.zone))
      have hpart' : Partition INF ((n, bnd) :: es) := by
        cases es with
        | nil => exact hpart.2
        | cons e' es => exact hpart.2
      obtain ⟨graph', hrest, hsame'⟩ := ih (fun e he ↦ hcalls e (List.mem_cons_of_mem _ he))
        (fun e he ↦ hlevel e (List.mem_cons_of_mem _ he)) hpart' (lt_trans hlow hlb)
        (hg₂.edges.trans hg₁edges) (hg₂.dim.trans (hg₁same.dim.trans hdim))
      simp only [Option.bind_eq_bind, Option.pure_def] at hn
      simp only [↓reduceIte, hn, Option.bind_some, hrest, ne_eq, ite_not]
      exact ⟨graph', rfl, hsame'⟩

/-- The search for the first consistent child and the node made from there on. -/
private theorem bfReduceFirst_eq (hL : L.Declared) (hk : L.levelinfo[level]? = some (.cdd i j))
    {es : List (DdNode × Raw)} (hcalls : ∀ e ∈ es, BfCallEq L mask e.1)
    (hlevel : ∀ e ∈ es, level < e.1.level) (hpart : Partition INF es)
    (hrange : ∀ e ∈ es, -INF < e.2) (next : Bool) (hnext : next = false → 2 ≤ es.length)
    (hbefore : graph.Before L level) :
    ∃ graph', bfReduceFirst L mask level i j es next graph =
        some (reduceFirstIn L mask level es graph.zone, graph') ∧ SameEdges graph graph' := by
  induction es generalizing next graph with
  | nil => exact absurd hpart id
  | cons e es ih =>
    obtain ⟨child, bnd⟩ := e
    rw [bfReduceFirst, reduceFirstIn]
    by_cases hbnd : bnd = INF
    · -- the last child is reached only after another one was dropped
      have htrue : next = true := by
        by_contra hn
        have h2 := hnext (Bool.eq_false_iff.mpr hn)
        cases es with
        | nil => simp at h2
        | cons e' es => exact not_lt.mpr (le_INF e'.2) (hbnd ▸ hpart.1)
      rw [if_pos hbnd, htrue, Bool.true_and, if_pos (decide_eq_true hbnd)]
      exact hcalls (child, bnd) (by simp) graph
        (hbefore.mono (le_of_lt (hlevel (child, bnd) (by simp))))
    · have hlt : bnd < INF := lt_of_le_of_ne (le_INF bnd) hbnd
      have hearly : (next && decide (bnd = INF)) = false := by simp [hbnd]
      obtain ⟨e', es', hes, -, hpart'⟩ := hpart.tail_of_lt hlt
      have hlow : -INF < bnd := hrange (child, bnd) (by simp)
      obtain ⟨hpush, hiff⟩ := push_test hL hbefore hk (.inl ⟨rfl, rfl⟩) hlt
        (zone_pushed_upper hk hlow hlt)
      rw [if_neg hbnd, hearly, if_neg Bool.false_ne_true, hpush]
      simp only [Option.bind_eq_bind, Option.bind_some, Option.pure_def]
      set g := (cddBfConsistent (graph.pushed i j bnd)).2
      have hsame : SameEdges (graph.pushed i j bnd) g := cddBfConsistent_sameEdges _
      cases hc : (cddBfConsistent (graph.pushed i j bnd)).1 with
      | false =>
        rw [if_neg (fun h ↦ Bool.false_ne_true (hc.symm.trans (hiff.mpr h))),
          if_neg Bool.false_ne_true, cddBfPop_eq hsame.edges]
        have hback : SameEdges graph { g with edges := graph.edges } := ⟨rfl, hsame.dim⟩
        obtain ⟨graph', hr, hsame'⟩ := ih (fun e he ↦ hcalls e (List.mem_cons_of_mem _ he))
          (fun e he ↦ hlevel e (List.mem_cons_of_mem _ he)) hpart'
          (fun e he ↦ hrange e (List.mem_cons_of_mem _ he)) true (fun h ↦ by cases h)
          (hback.before hbefore)
        rw [hback.zone] at hr
        exact ⟨graph', hr, hback.trans hsame'⟩
      | true =>
        rw [if_pos (hiff.mp hc), if_pos rfl]
        have hzone : g.zone = L.below level bnd graph.zone :=
          hsame.zone.trans (zone_pushed_upper hk hlow hlt)
        obtain ⟨g', hm, hsame'⟩ := hcalls (child, bnd) (by simp) g
          ((hsame.before (hbefore.pushed hk (.inl ⟨rfl, rfl⟩) bnd)).mono
            (hlevel (child, bnd) (by simp)))
        rw [hzone] at hm
        set m := reduceIn L mask child (L.below level bnd graph.zone)
        have hpm : Partition INF ((m, bnd) :: es) := by
          rw [hes] at hpart ⊢
          exact hpart
        obtain ⟨graph', hrest, hsame''⟩ := bfReduceRest_eq hL hk (cddMask m)
          (fun e he ↦ hcalls e (List.mem_cons_of_mem _ he))
          (fun e he ↦ hlevel e (List.mem_cons_of_mem _ he)) hpm hlow hbefore
          (hsame'.edges.trans hsame.edges) (hsame'.dim.trans hsame.dim)
        obtain ⟨n, hn⟩ := exists_cddMakeCddNode level
          (reduceRestIn L mask (cddMask m) level es bnd m graph.zone)
        refine ⟨graph', ?_, hsame''⟩
        simp only [hm, Option.bind_some, hrest, hn, Option.getD_some]

/-- Every call of the recursion computes the reduction. -/
theorem cddBfReduceRec_eq (hL : L.Declared) {xterms : ℕ} {d : DdNode}
    (h : L.WellFormed xterms d) (hr : InRange d) (mask : Bool) : BfCallEq L mask d := by
  induction h generalizing mask with
  | terminal | xterm => exact fun graph _ ↦ ⟨graph, rfl, ⟨rfl, rfl⟩⟩
  | @bdd neg level low high _ hl hh _ _ _ _ ihl ihh =>
    obtain ⟨-, hrl, hrh⟩ := hr.of_bdd
    intro graph hbefore
    obtain ⟨g, hn, hg⟩ := ihl hrl (neg ^^ mask) graph (hbefore.mono (le_of_lt hl))
    obtain ⟨g', hm, hg'⟩ := ihh hrh (neg ^^ mask) g (hg.before (hbefore.mono (le_of_lt hh)))
    rw [hg.zone] at hm
    refine ⟨g', ?_, hg.trans hg'⟩
    simp only [cddBfReduceRec, reduceIn, hn, hm, Option.bind_eq_bind, Option.bind_some,
      Option.pure_def]
  | @cdd neg level elem hk hl hp _ h2 _ _ ih =>
    obtain ⟨-, hrange, hrs⟩ := hr.of_cdd
    intro graph hbefore
    obtain ⟨i, j, hij⟩ := hk
    obtain ⟨g, hg, hsame⟩ := bfReduceFirst_eq hL hij
      (fun e he ↦ ih e he (hrs e he) (neg ^^ mask)) hl hp hrange false (fun _ ↦ h2) hbefore
    refine ⟨g, ?_, hsame⟩
    rw [reduceIn]
    simp only [cddBfReduceRec, hij, hg]

end

end UCDD

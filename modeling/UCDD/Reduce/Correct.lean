import UCDD.Reduce.Reduce

/-!
# Reduction is exact

The recursion is called with a graph that has a solution. It agrees with its argument at every
solution, and each path it returns is met by one of them. The children between the first and
the last consistent bound are consistent by convexity, which is why one bound of each has to
be tested only.
-/

namespace UCDD

open IntervalMap DdNode

variable {L : Library}

/-! ### Paths inside a set of clock valuations -/

/-- The clock valuation meets the interval of a clock step. -/
def Library.MeetsStep (L : Library) (x : ℕ → ℝ) : Step → Prop
  | .cdd level lower upper =>
    ¬ Below (L.diff x level) lower ∧ Below (L.diff x level) upper
  | .bdd _ _ => True

/-- Every path is met by a clock valuation of `Z`. -/
def Library.PathsIn (L : Library) (Z : Set (ℕ → ℝ)) (ps : List (List Step)) : Prop :=
  ∀ p ∈ ps, ∃ x ∈ Z, ∀ s ∈ p, L.MeetsStep x s

theorem Library.PathsIn.append {Z : Set (ℕ → ℝ)} {ps qs : List (List Step)}
    (hp : L.PathsIn Z ps) (hq : L.PathsIn Z qs) : L.PathsIn Z (ps ++ qs) := by
  intro p h
  rcases List.mem_append.mp h with h | h
  · exact hp p h
  · exact hq p h

/-- Paths met inside the interval of a step can be prefixed with the step. -/
theorem Library.PathsIn.cons {Z Z' : Set (ℕ → ℝ)} {ps : List (List Step)} {s : Step}
    (h : L.PathsIn Z ps) (hZ : ∀ x ∈ Z, x ∈ Z' ∧ L.MeetsStep x s) :
    L.PathsIn Z' (ps.map (s :: ·)) := by
  intro p hp
  obtain ⟨q, hq, rfl⟩ := List.mem_map.mp hp
  obtain ⟨x, hx, hs⟩ := h q hq
  exact ⟨x, (hZ x hx).1, List.forall_mem_cons.mpr ⟨(hZ x hx).2, hs⟩⟩

/-- The step before paths can be replaced by a weaker one. -/
theorem Library.PathsIn.cons_weaken {Z : Set (ℕ → ℝ)} {ps : List (List Step)} {s s' : Step}
    (h : L.PathsIn Z (ps.map (s :: ·))) (hs : ∀ x, L.MeetsStep x s → L.MeetsStep x s') :
    L.PathsIn Z (ps.map (s' :: ·)) := by
  intro p hp
  obtain ⟨q, hq, rfl⟩ := List.mem_map.mp hp
  obtain ⟨x, hx, hmeets⟩ := h (s :: q) (List.mem_map_of_mem hq)
  obtain ⟨h1, h2⟩ := List.forall_mem_cons.mp hmeets
  exact ⟨x, hx, List.forall_mem_cons.mpr ⟨hs x h1, h2⟩⟩

theorem Library.PathsIn.tail {Z : Set (ℕ → ℝ)} {ps : List (List Step)} {s : Step}
    (h : L.PathsIn Z (ps.map (s :: ·))) : L.PathsIn Z ps := by
  intro p hp
  obtain ⟨x, hx, hs⟩ := h (s :: p) (List.mem_map_of_mem hp)
  exact ⟨x, hx, (List.forall_mem_cons.mp hs).2⟩

/-- The number of paths through a list of edges. -/
def pathCount (es : List (DdNode × Raw)) : ℕ := (es.map fun e ↦ (paths e.1).length).sum

theorem length_pathsElem (level : ℕ) (lower : Raw) (es : List (DdNode × Raw)) :
    (pathsElem level lower es).length = pathCount es := by
  induction es generalizing lower with
  | nil => rfl
  | cons e es ih => simp [pathsElem, pathCount, ih]

theorem pathsElem_map_negCond (level : ℕ) (lower : Raw) (es : List (DdNode × Raw)) (m : Bool) :
    pathsElem level lower (es.map fun e ↦ (cddNegCond e.1 m, e.2)) = pathsElem level lower es := by
  induction es generalizing lower with
  | nil => rfl
  | cons e es ih => simp [pathsElem, ih]

/-- The paths of a new CDD node are paths through its elements. -/
theorem paths_cddMakeCddNode {level : ℕ} {elem : List (DdNode × Raw)} {n : DdNode} {Z : Set (ℕ → ℝ)}
    (hn : cddMakeCddNode ⊤ level elem = some n)
    (h : L.PathsIn Z (pathsElem level (-INF) elem)) :
    L.PathsIn Z (paths n) ∧ (paths n).length ≤ pathCount elem := by
  have hlen {m : ℕ} : ¬ (⊤ : ℕ∞) < m := not_lt.mpr le_top
  match elem, hn with
  | [], hn =>
    cases hn
    exact ⟨h, by simp [paths, pathsElem]⟩
  | [e], hn =>
    cases hn
    have h' : L.PathsIn Z ((paths e.1).map (.cdd level (-INF) e.2 :: ·)) := by
      simpa [pathsElem] using h
    exact ⟨h'.tail, by simp [pathCount]⟩
  | e :: e' :: es, hn =>
    cases hn
    exact ⟨h, le_of_eq (length_pathsElem level (-INF) _)⟩

theorem paths_cddMakeBddNode (level : ℕ) {low high : DdNode} {Z : Set (ℕ → ℝ)}
    (hl : L.PathsIn Z (paths low)) (hh : L.PathsIn Z (paths high)) :
    L.PathsIn Z (paths (cddMakeBddNode level low high)) ∧
      (paths (cddMakeBddNode level low high)).length ≤
        (paths low).length + (paths high).length := by
  rw [cddMakeBddNode]
  split
  · exact ⟨hl, Nat.le_add_right _ _⟩
  · have hlow : paths (cddRglr low) = paths low := paths_negCond low _
    simp only [paths, hlow, paths_negCond]
    refine ⟨?_, by simp⟩
    apply Library.PathsIn.append
    · exact hl.cons (s := .bdd level false) fun x hx ↦ ⟨hx, trivial⟩
    · exact hh.cons (s := .bdd level true) fun x hx ↦ ⟨hx, trivial⟩

/-! ### The specification of a call -/

/-- The graph after a call: the edges of before, and fit for the next call. -/
structure Restores (graph graph' : Tarjan) : Prop where
  edges : graph'.edges = graph.edges
  dim : graph'.dim = graph.dim
  valid : graph'.Valid

theorem Restores.zone {graph graph' : Tarjan} (h : Restores graph graph') :
    graph'.zone = graph.zone := by
  simp only [Tarjan.zone, h.edges]

theorem Restores.trans {g₁ g₂ g₃ : Tarjan} (h : Restores g₁ g₂) (h' : Restores g₂ g₃) :
    Restores g₁ g₃ :=
  ⟨h'.edges.trans h.edges, h'.dim.trans h.dim, h'.valid⟩

/-- Popping an edge undoes pushing it. -/
theorem Restores.pop {g g' : Tarjan} {i j : ℕ} {value : ℤ}
    (h : Restores (cddTarjanPush g i j value) g') : Restores g (cddTarjanPop g' i) := by
  refine ⟨?_, h.dim, cddTarjanPop_valid h.valid i⟩
  simp only [cddTarjanPop, h.edges]
  simp [cddTarjanPush]

/-- What reducing the pointer `f` under the constraints `Z` returns. -/
structure Reduces (L : Library) (Z : Set (ℕ → ℝ)) (f r : DdNode) : Prop where
  wf : L.WF r
  level_le : f.level ≤ r.level
  holds_iff : ∀ v : Valuation, v.clock ∈ Z → (Holds L v r ↔ Holds L v f)
  paths : L.PathsIn Z (paths r)
  count_le : (UCDD.paths r).length ≤ (UCDD.paths f).length
  inRange : InRange r

/-- The recursion meets its specification on the pointer `d`. -/
def CallSpec (L : Library) (mask : Bool) (d : DdNode) : Prop :=
  ∀ graph : Tarjan, graph.Valid → graph.dim = L.clocknum → graph.zone.Nonempty →
    ∃ r graph', cddTarjanReduceRec L mask d graph = some (r, graph') ∧
      Restores graph graph' ∧ Reduces L graph.zone (cddNegCond d mask) r

/-- Test a pushed edge: the answer tells whether a solution meets it. -/
theorem push_consistent {graph : Tarjan} (hvalid : graph.Valid) {i j : ℕ} (value : ℤ)
    (hi : i < graph.dim) (hj : j < graph.dim) (hij : i ≠ j) :
    ∃ b graph', cddTarjanConsistent (cddTarjanPush graph i j value) = some (b, graph') ∧
      Restores (cddTarjanPush graph i j value) graph' ∧
      (b = true ↔ ∃ x ∈ graph.zone, UpperSat (x i - x j) value) := by
  obtain ⟨b, graph', hb, hv, hedges, hdim, hiff⟩ :=
    cddTarjanConsistent_zone (cddTarjanPush_valid hvalid value hi hj hij)
  refine ⟨b, graph', hb, ⟨hedges, hdim, hv⟩, hiff.trans ?_⟩
  constructor
  · rintro ⟨x, hx⟩
    exact ⟨x, mem_zone_push.mp hx⟩
  · rintro ⟨x, hx⟩
    exact ⟨x, mem_zone_push.mpr hx⟩

/-! ### The children of a CDD node -/

section Cdd

variable {mask : Bool} {level i j : ℕ}

/-- The solutions in the interval of a CDD edge. -/
def Tarjan.interval (graph : Tarjan) (i j : ℕ) (lower upper : Raw) : Set (ℕ → ℝ) :=
  {x | x ∈ graph.zone ∧ ¬ Below (x i - x j) lower ∧ Below (x i - x j) upper}

theorem upperSat_lower {x : ℕ → ℝ} {low : Raw} (hlow : -INF < low) (hlt : low < INF) :
    UpperSat (x j - x i) (bndL2u low).code ↔ ¬ Below (x i - x j) low := by
  rw [← neg_sub, upperSat_bndL2u hlow hlt]

/-- The call for a later child, under both its bounds. -/
theorem visit_spec {child : DdNode} (hcall : CallSpec L mask child) {graph g : Tarjan}
    {low bnd : Raw} (hdim : graph.dim = L.clocknum) (hi : i < graph.dim) (hj : j < graph.dim)
    (hij : i ≠ j) (hlow : -INF < low) (hlt : low < bnd)
    (hg : Restores (cddTarjanPush graph j i (bndL2u low).code) g)
    (hx : ∃ x ∈ graph.zone, Below (x i - x j) low)
    (hy : ∃ y ∈ graph.zone, ¬ Below (y i - y j) low) :
    ∃ n g', (if bnd < INF then
          (cddTarjanReduceRec L mask child (cddTarjanPush g i j bnd.code)).map fun r ↦
            (r.1, cddTarjanPop r.2 i)
        else cddTarjanReduceRec L mask child g) = some (n, g') ∧
      Restores g g' ∧ Reduces L (graph.interval i j low bnd) (cddNegCond child mask) n := by
  have hlt' : low < INF := lt_of_lt_of_le hlt (le_INF bnd)
  have hzone : g.zone = {x | x ∈ graph.zone ∧ ¬ Below (x i - x j) low} := by
    ext x
    rw [hg.zone, mem_zone_push, upperSat_lower hlow hlt']
    rfl
  have hgdim : g.dim = L.clocknum := hg.dim.trans hdim
  obtain ⟨z, hz, hzl, hzu⟩ := exists_mem_between (convex_zone graph) hlt hx hy
  by_cases hb : bnd < INF
  · rw [if_pos hb]
    have hzone' : (cddTarjanPush g i j bnd.code).zone = graph.interval i j low bnd := by
      ext x
      rw [mem_zone_push, hzone, ← below_iff_upperSat (lt_trans hlow hlt) hb]
      simp only [Set.mem_ofPred_eq, Tarjan.interval, and_assoc]
    obtain ⟨n, g', hn, hg', hred⟩ := hcall (cddTarjanPush g i j bnd.code)
      (cddTarjanPush_valid hg.valid bnd.code (hgdim ▸ hdim ▸ hi) (hgdim ▸ hdim ▸ hj) hij) hgdim
      (hzone' ▸ ⟨z, hz, hzl, hzu⟩)
    refine ⟨n, cddTarjanPop g' i, by simp [hn], hg'.pop, ?_⟩
    rwa [hzone'] at hred
  · rw [if_neg hb]
    have hzone' : g.zone = graph.interval i j low bnd := by
      ext x
      rw [hzone]
      have : Below (x i - x j) bnd := (below_INF _).mono (not_lt.mp hb)
      simp only [Set.mem_ofPred_eq, Tarjan.interval, this, and_true]
    obtain ⟨n, g', hn, hg', hred⟩ := hcall g hg.valid hgdim (hzone' ▸ ⟨z, hz, hzl, hzu⟩)
    refine ⟨n, g', hn, hg', ?_⟩
    rwa [hzone'] at hred

/-- What the scan of the later children returns, before the mask of the first child is taken
off: the edges from the pending child `m` on. -/
structure Rest (L : Library) (mask : Bool) (level : ℕ) (Z : Set (ℕ → ℝ)) (m : DdNode) (low : Raw)
    (es out : List (DdNode × Raw)) (modified : Bool) : Prop where
  partition : Partition INF out
  alternating : Alternating out
  head : ∃ s tl, out = (m, s) :: tl ∧ low ≤ s
  wf : ∀ e ∈ out, L.WF e.1 ∧ level < e.1.level
  eval_eq : ∀ v : Valuation, v.clock ∈ Z → ¬ Below (L.diff v.clock level) low →
    evalElem (v.assignment L) ((v.assignment L).diff level) out =
      (evalElem (v.assignment L) ((v.assignment L).diff level) es ^^ mask)
  paths : ∀ lower, L.PathsIn Z ((paths m).map (.cdd level lower low :: ·)) →
    L.PathsIn Z (pathsElem level lower out)
  count_le : pathCount out ≤ (UCDD.paths m).length + pathCount es
  unmodified : modified = false → ∀ prev, m = cddNegCond prev mask →
    Alternating ((prev, low) :: es) →
    out = (m, low) :: es.map fun e ↦ (cddNegCond e.1 mask, e.2)
  inRange : ∀ e ∈ out, -INF < e.2 ∧ InRange e.1

theorem assignment_below {v : Valuation} {b : Raw} :
    ((v.assignment L).diff level).below b = true ↔ Below (L.diff v.clock level) b :=
  realCut_below _ _

theorem assignment_not_below {v : Valuation} {b : Raw} :
    ((v.assignment L).diff level).below b = false ↔ ¬ Below (L.diff v.clock level) b := by
  rw [← assignment_below, Bool.not_eq_true]

/-- The pending child takes the rest of the line. -/
theorem rest_last {Z : Set (ℕ → ℝ)} {m : DdNode} {low : Raw} {es : List (DdNode × Raw)}
    (hm : L.WF m) (hml : level < m.level) (hmr : InRange m) (hlow : low ≤ INF) {modified : Bool}
    (hnone : ∀ x ∈ Z, Below (L.diff x level) low)
    (hunmod : modified = false → es = [] ∧ low = INF) :
    Rest L mask level Z m low es [(m, INF)] modified where
  partition := rfl
  alternating := List.isChain_singleton _
  head := ⟨INF, [], rfl, hlow⟩
  wf := List.forall_mem_singleton.mpr ⟨hm, hml⟩
  eval_eq v hv hb := absurd (hnone v.clock hv) hb
  paths lower h := by
    simp only [pathsElem, List.append_nil]
    exact h.cons_weaken fun x hx ↦ ⟨hx.1, below_INF _⟩
  count_le := by simp [pathCount]
  unmodified h prev hprev _ := by
    obtain ⟨rfl, rfl⟩ := hunmod h
    rfl
  inRange := List.forall_mem_singleton.mpr ⟨neg_INF_lt, hmr⟩

section Step

variable {Z : Set (ℕ → ℝ)} {m n child : DdNode} {low bnd : Raw} {es out : List (DdNode × Raw)}
  {modified : Bool}

private theorem eval_of_reduces
    (hred : Reduces L {x | x ∈ Z ∧ ¬ Below (L.diff x level) low ∧ Below (L.diff x level) bnd}
      (cddNegCond child mask) n) {v : Valuation} (hv : v.clock ∈ Z)
    (hl : ¬ Below (L.diff v.clock level) low) (hb : Below (L.diff v.clock level) bnd) :
    eval (v.assignment L) n =
      (evalElem (v.assignment L) ((v.assignment L).diff level) ((child, bnd) :: es) ^^ mask) := by
  have h := hred.holds_iff v ⟨hv, hl, hb⟩
  rw [evalElem_of_below es (assignment_below.mpr hb), ← eval_negCond]
  exact Bool.eq_iff_iff.mpr h

/-- The next child reduces to the pending one, which takes its interval. -/
theorem rest_extend (hlb : low < bnd)
    (hred : Reduces L {x | x ∈ Z ∧ ¬ Below (L.diff x level) low ∧ Below (L.diff x level) bnd}
      (cddNegCond child mask) n)
    (h : Rest L mask level Z n bnd es out modified) :
    Rest L mask level Z n low ((child, bnd) :: es) out
      (n ≠ cddNegCond child mask || modified) where
  partition := h.partition
  alternating := h.alternating
  head := by
    obtain ⟨s, tl, hout, hs⟩ := h.head
    exact ⟨s, tl, hout, le_trans (le_of_lt hlb) hs⟩
  wf := h.wf
  eval_eq v hv hl := by
    by_cases hb : Below (L.diff v.clock level) bnd
    · obtain ⟨s, tl, rfl, hs⟩ := h.head
      rw [evalElem_of_below tl (assignment_below.mpr (hb.mono hs))]
      exact eval_of_reduces hred hv hl hb
    · rw [h.eval_eq v hv hb, evalElem_of_not_below es (assignment_not_below.mpr hb)]
  paths lower hp := h.paths lower (hp.cons_weaken fun x hx ↦ ⟨hx.1, hx.2.mono (le_of_lt hlb)⟩)
  count_le := by
    refine le_trans h.count_le ?_
    simp only [pathCount, List.map_cons, List.sum_cons]
    omega
  unmodified hmod prev hprev halt := by
    simp only [Bool.or_eq_false_iff, decide_eq_false_iff_not, not_not] at hmod
    have : prev = child := cddNegCond_injective mask (hprev.symm.trans hmod.1)
    exact absurd this (List.isChain_cons_cons.mp halt).1
  inRange := h.inRange

/-- The next child reduces to another node: the pending one is pushed. -/
theorem rest_push (hm : L.WF m) (hml : level < m.level) (hmr : InRange m)
    (hlow : -INF < low) (hlb : low < bnd) (hmn : m ≠ n)
    (hred : Reduces L {x | x ∈ Z ∧ ¬ Below (L.diff x level) low ∧ Below (L.diff x level) bnd}
      (cddNegCond child mask) n)
    (h : Rest L mask level Z n bnd es out modified) :
    Rest L mask level Z m low ((child, bnd) :: es) ((m, low) :: out)
      (n ≠ cddNegCond child mask || modified) where
  partition := by
    obtain ⟨s, tl, rfl, hs⟩ := h.head
    exact ⟨lt_of_lt_of_le hlb hs, h.partition⟩
  alternating := by
    obtain ⟨s, tl, rfl, hs⟩ := h.head
    exact List.isChain_cons_cons.mpr ⟨hmn, h.alternating⟩
  head := ⟨low, out, rfl, le_rfl⟩
  wf := List.forall_mem_cons.mpr ⟨⟨hm, hml⟩, h.wf⟩
  eval_eq v hv hl := by
    rw [evalElem_of_not_below out (assignment_not_below.mpr hl)]
    by_cases hb : Below (L.diff v.clock level) bnd
    · obtain ⟨s, tl, rfl, hs⟩ := h.head
      rw [evalElem_of_below tl (assignment_below.mpr (hb.mono hs))]
      exact eval_of_reduces hred hv hl hb
    · rw [h.eval_eq v hv hb, evalElem_of_not_below es (assignment_not_below.mpr hb)]
  paths lower hp := by
    rw [pathsElem]
    refine hp.append (h.paths low ?_)
    exact hred.paths.cons fun x hx ↦ ⟨hx.1, hx.2⟩
  count_le := by
    have h1 := h.count_le
    have h2 := hred.count_le
    rw [paths_negCond] at h2
    simp only [pathCount, List.map_cons, List.sum_cons] at h1 ⊢
    omega
  unmodified hmod prev hprev halt := by
    simp only [Bool.or_eq_false_iff, decide_eq_false_iff_not, not_not] at hmod
    rw [h.unmodified hmod.2 child hmod.1 (List.isChain_cons_cons.mp halt).2, List.map_cons,
      ← hmod.1]
  inRange := List.forall_mem_cons.mpr ⟨⟨hlow, hmr⟩, h.inRange⟩

end Step

/-- The scan of the later children, when the first child has a solution below them. -/
theorem reduceRest_spec (hk : L.levelinfo[level]? = some (.cdd i j)) (mask0 : Bool)
    {es : List (DdNode × Raw)} (hcalls : ∀ e ∈ es, CallSpec L mask e.1)
    (hlevel : ∀ e ∈ es, level < e.1.level) {m : DdNode} {low : Raw}
    (hpart : Partition INF ((m, low) :: es)) (hlow : -INF < low) (hm : L.WF m)
    (hml : level < m.level) (hmr : InRange m) {graph : Tarjan} (hvalid : graph.Valid)
    (hdim : graph.dim = L.clocknum)
    (hi : i < graph.dim) (hj : j < graph.dim) (hij : i ≠ j)
    (hx : ∃ x ∈ graph.zone, Below (x i - x j) low) :
    ∃ out modified graph',
      reduceRest L mask mask0 i j es low m graph =
        some (out.map fun e ↦ (cddNegCond e.1 mask0, e.2), modified, graph') ∧
      Restores graph graph' ∧ Rest L mask level graph.zone m low es out modified := by
  induction es generalizing m low graph with
  | nil =>
    have hINF : low = INF := hpart
    refine ⟨[(m, INF)], false, graph, rfl, ⟨rfl, rfl, hvalid⟩, ?_⟩
    exact rest_last hm hml hmr (le_of_eq hINF) (fun x _ ↦ hINF ▸ below_INF _) fun _ ↦ ⟨rfl, hINF⟩
  | cons e es ih =>
    obtain ⟨child, bnd⟩ := e
    have hlb : low < bnd := hpart.1
    have hlt : low < INF := lt_of_lt_of_le hlb (le_INF bnd)
    obtain ⟨b, g, hb, hg, hiff⟩ := push_consistent hvalid (bndL2u low).code hj hi hij.symm
    rw [reduceRest, hb]
    cases b with
    | false =>
      have hnone : ∀ x ∈ graph.zone, Below (L.diff x level) low := by
        intro x hxz
        rw [diff_of_levelinfo hk]
        by_contra hnb
        have := hiff.mpr ⟨x, hxz, (upperSat_lower hlow hlt).mpr hnb⟩
        cases this
      exact ⟨[(m, INF)], true, _, rfl, hg.pop,
        rest_last hm hml hmr (le_of_lt hlt) hnone (by simp)⟩
    | true =>
      obtain ⟨y, hyz, hy⟩ := hiff.mp rfl
      have hyl : ¬ Below (y i - y j) low := (upperSat_lower hlow hlt).mp hy
      obtain ⟨n, g', hn, hg', hred⟩ := visit_spec (hcalls (child, bnd) (by simp)) hdim hi hj hij
        hlow hlb hg hx ⟨y, hyz, hyl⟩
      have hback : Restores graph (cddTarjanPop g' j) := (hg.trans hg').pop
      have hint : graph.interval i j low bnd =
          {x | x ∈ graph.zone ∧ ¬ Below (L.diff x level) low ∧ Below (L.diff x level) bnd} := by
        ext x
        rw [Tarjan.interval, Set.mem_ofPred_eq, Set.mem_ofPred_eq, diff_of_levelinfo hk]
      rw [hint] at hred
      have hnl : level < n.level :=
        lt_of_lt_of_le (hlevel (child, bnd) (by simp)) (by simpa using hred.level_le)
      have hpart' : Partition INF ((n, bnd) :: es) := by
        cases es with
        | nil => exact hpart.2
        | cons e' es => exact hpart.2
      obtain ⟨out, modified, g'', hrest, hg'', hR⟩ := ih
        (fun e he ↦ hcalls e (List.mem_cons_of_mem _ he))
        (fun e he ↦ hlevel e (List.mem_cons_of_mem _ he)) hpart' (lt_trans hlow hlb) hred.wf hnl
        hred.inRange hback.valid (hback.dim.trans hdim) (hback.dim ▸ hi) (hback.dim ▸ hj) (by
          obtain ⟨x, hxz, hxl⟩ := hx
          exact ⟨x, hback.zone ▸ hxz, hxl.mono (le_of_lt hlb)⟩)
      rw [hback.zone] at hR
      simp only [Option.bind_eq_bind, Option.bind_some, ↓reduceIte, hn, hrest, Option.pure_def]
      by_cases hmn : m = n
      · subst hmn
        refine ⟨out, _, g'', ?_, hback.trans hg'', rest_extend hlb hred hR⟩
        rw [if_neg (not_not.mpr rfl)]
      · have hR' := rest_push hm hml hmr hlow hlb hmn hred hR
        refine ⟨(m, low) :: out, _, g'', ?_, hback.trans hg'', hR'⟩
        rw [if_pos hmn, List.map_cons]

/-- What the search from the edges `es` on returns. -/
structure First (L : Library) (mask : Bool) (level : ℕ) (Z : Set (ℕ → ℝ))
    (es : List (DdNode × Raw)) (r : DdNode) : Prop where
  wf : L.WF r
  level_le : level ≤ r.level
  holds_iff : ∀ v : Valuation, v.clock ∈ Z → (Holds L v r ↔
    (evalElem (v.assignment L) ((v.assignment L).diff level) es ^^ mask) = true)
  paths : L.PathsIn Z (paths r)
  count_le : (UCDD.paths r).length ≤ pathCount es
  inRange : InRange r

/-- The node built from the first consistent child and the later ones. -/
theorem first_make {Z : Set (ℕ → ℝ)} (hk : L.isCdd level) {child m : DdNode} {bnd : Raw}
    {es out : List (DdNode × Raw)} {modified : Bool}
    (hred : Reduces L {x | x ∈ Z ∧ Below (L.diff x level) bnd} (cddNegCond child mask) m)
    (h : Rest L mask level Z m bnd es out modified) :
    ∃ n, cddMakeCddNode ⊤ level (out.map fun e ↦ (cddNegCond e.1 (cddMask m), e.2)) = some n ∧
      First L mask level Z ((child, bnd) :: es) (cddNegCond n (cddMask m)) := by
  obtain ⟨s, tl, hout, hs⟩ := h.head
  obtain ⟨n, hn, hb⟩ := cddMakeCddNode_negCond (cddMask m) (le_top (a := (out.length : ℕ∞))) hk
    h.partition h.alternating (by rw [hout]; rintro e ⟨⟩; rfl) (fun e he ↦ (h.wf e he).2)
    fun e he ↦ (h.wf e he).1
  have hpaths : L.PathsIn Z (pathsElem level (-INF) out) := by
    apply h.paths
    exact hred.paths.cons fun x hx ↦ ⟨hx.1, not_below_neg_INF _, hx.2⟩
  have hmade := paths_cddMakeCddNode hn (by rwa [pathsElem_map_negCond])
  have hrange : InRange n := by
    apply all_cddMakeCddNode trivial hn
    intro e he
    obtain ⟨x, hx, rfl⟩ := List.mem_map.mp he
    exact ⟨(h.inRange x hx).1, (h.inRange x hx).2.negCond _⟩
  refine ⟨n, hn, hb.wf, hb.level_le, fun v hv ↦ ?_, ?_, ?_, hrange.negCond _⟩
  · rw [Holds, hb.eval_eq]
    by_cases hbelow : Below (L.diff v.clock level) bnd
    · rw [hout, evalElem_of_below tl (assignment_below.mpr (hbelow.mono hs)),
        evalElem_of_below es (assignment_below.mpr hbelow), ← eval_negCond]
      exact hred.holds_iff v ⟨hv, hbelow⟩
    · rw [h.eval_eq v hv hbelow, evalElem_of_not_below es (assignment_not_below.mpr hbelow)]
  · rw [paths_negCond]
    exact hmade.1
  · rw [paths_negCond]
    refine le_trans hmade.2 ?_
    have h1 := h.count_le
    have h2 := hred.count_le
    rw [paths_negCond] at h2
    simp only [pathCount, List.map_map, Function.comp_def, paths_negCond, List.map_cons,
      List.sum_cons] at h1 ⊢
    omega

/-- Where nothing was modified the node built is the node itself. -/
private theorem first_unmodified {Z : Set (ℕ → ℝ)} {child m : DdNode} {bnd : Raw}
    {es out : List (DdNode × Raw)} (hm : m = cddNegCond child mask)
    (hmask : cddMask child = false) (halt : Alternating ((child, bnd) :: es)) (hes : es ≠ [])
    (h : Rest L mask level Z m bnd es out false) {n : DdNode}
    (hn : cddMakeCddNode ⊤ level (out.map fun e ↦ (cddNegCond e.1 (cddMask m), e.2)) = some n) :
    cddNegCond n (cddMask m) = .cdd mask level ((child, bnd) :: es) := by
  have hmm : cddMask m = mask := by simp [hm, hmask]
  have hout := h.unmodified rfl child hm halt
  have hback : (out.map fun e ↦ (cddNegCond e.1 (cddMask m), e.2)) = (child, bnd) :: es := by
    rw [hout, hmm, hm]
    simp [Function.comp_def]
  rw [hback] at hn
  match es, hes, hn with
  | e :: es, _, hn =>
    have hlen : ¬ (⊤ : ℕ∞) < (((child, bnd) :: e :: es).length : ℕ) := not_lt.mpr le_top
    rw [cddMakeCddNode, if_neg hlen] at hn
    · cases hn
      simp [cddNegCond, hmm]
    · intro x hx
      cases hx

/-- The search for the first consistent child. The node itself is returned when no child
changed. -/
theorem reduceFirst_spec (hk : L.levelinfo[level]? = some (.cdd i j)) (node : DdNode)
    (hnode : node.level = level) {es : List (DdNode × Raw)}
    (hcalls : ∀ e ∈ es, CallSpec L mask e.1) (hlevel : ∀ e ∈ es, level < e.1.level)
    (hpart : Partition INF es) (hrange : ∀ e ∈ es, -INF < e.2) (modified : Bool)
    (hunmod : modified = false → node = .cdd mask level es ∧ Alternating es ∧ 2 ≤ es.length ∧
      ∀ e ∈ es.head?, cddMask e.1 = false)
    {graph : Tarjan} (hvalid : graph.Valid) (hdim : graph.dim = L.clocknum)
    (hi : i < graph.dim) (hj : j < graph.dim) (hij : i ≠ j) (hz : graph.zone.Nonempty) :
    ∃ r graph', reduceFirst L mask i j node es modified graph = some (r, graph') ∧
      Restores graph graph' ∧ First L mask level graph.zone es r := by
  induction es generalizing modified graph with
  | nil => exact absurd hpart id
  | cons e es ih =>
    obtain ⟨child, bnd⟩ := e
    rw [reduceFirst]
    by_cases hearly : (modified && decide (bnd = INF)) = true
    · -- all bounds but the last are inconsistent
      rw [if_pos hearly]
      have hbnd : bnd = INF := by
        simp only [Bool.and_eq_true, decide_eq_true_eq] at hearly
        exact hearly.2
      obtain ⟨r, graph', hr, hg, hred⟩ := hcalls (child, bnd) (by simp) graph hvalid hdim hz
      refine ⟨r, graph', hr, hg, hred.wf, ?_, ?_, hred.paths, ?_, hred.inRange⟩
      · have h1 := hlevel (child, bnd) (by simp)
        have h2 := hred.level_le
        rw [level_negCond] at h2
        exact le_trans (le_of_lt h1) h2
      · intro v hv
        have hbelow : Below (L.diff v.clock level) bnd := hbnd ▸ below_INF _
        rw [evalElem_of_below es (assignment_below.mpr hbelow), ← eval_negCond]
        exact hred.holds_iff v hv
      · have h2 := hred.count_le
        simp only [paths_negCond] at h2
        simp only [pathCount, List.map_cons, List.sum_cons]
        omega
    · rw [if_neg hearly]
      have hlt : bnd < INF := by
        cases hm : modified with
        | true =>
          have hne : bnd ≠ INF := by simpa [hm] using hearly
          exact lt_of_le_of_ne (hpart.le_top (child, bnd) (by simp)) hne
        | false =>
          have h2 := (hunmod hm).2.2.1
          cases es with
          | nil => simp at h2
          | cons e' es => exact lt_of_lt_of_le hpart.1 (hpart.2.le_top e' (by simp))
      obtain ⟨e', es', hes, -, hpart'⟩ := hpart.tail_of_lt hlt
      have hdiff (x : ℕ → ℝ) : Below (L.diff x level) bnd ↔ UpperSat (x i - x j) bnd.code := by
        rw [diff_of_levelinfo hk, below_iff_upperSat (hrange (child, bnd) (by simp)) hlt]
      obtain ⟨b, g, hb, hg, hiff⟩ := push_consistent hvalid bnd.code hi hj hij
      rw [hb]
      cases b with
      | false =>
        have hnone : ∀ x ∈ graph.zone, ¬ Below (L.diff x level) bnd := by
          intro x hx hbelow
          have := hiff.mpr ⟨x, hx, (hdiff x).mp hbelow⟩
          cases this
        have hback : Restores graph (cddTarjanPop g i) := hg.pop
        obtain ⟨r, graph', hr, hg', hfirst⟩ := ih
          (fun e he ↦ hcalls e (List.mem_cons_of_mem _ he))
          (fun e he ↦ hlevel e (List.mem_cons_of_mem _ he)) hpart'
          (fun e he ↦ hrange e (List.mem_cons_of_mem _ he)) true (fun h ↦ nomatch h)
          hback.valid (hback.dim.trans hdim) (hback.dim ▸ hi) (hback.dim ▸ hj)
          (hback.zone ▸ hz)
        rw [hback.zone] at hfirst
        refine ⟨r, graph', hr, hback.trans hg', hfirst.wf, hfirst.level_le, ?_, hfirst.paths, ?_,
          hfirst.inRange⟩
        · intro v hv
          rw [evalElem_of_not_below es (assignment_not_below.mpr (hnone v.clock hv))]
          exact hfirst.holds_iff v hv
        · have := hfirst.count_le
          simp only [pathCount, List.map_cons, List.sum_cons] at this ⊢
          omega
      | true =>
        obtain ⟨x, hx, hxb⟩ := hiff.mp rfl
        have hzone : g.zone = {x | x ∈ graph.zone ∧ Below (L.diff x level) bnd} := by
          ext y
          rw [hg.zone, mem_zone_push, Set.mem_ofPred_eq, hdiff]
        obtain ⟨m, g', hm, hg', hred⟩ := hcalls (child, bnd) (by simp) g hg.valid
          (hg.dim.trans hdim) (hzone ▸ ⟨x, hx, (hdiff x).mpr hxb⟩)
        rw [hzone] at hred
        have hback : Restores graph (cddTarjanPop g' i) := (hg.trans hg').pop
        have hml : level < m.level := by
          have h1 := hlevel (child, bnd) (by simp)
          have h2 := hred.level_le
          rw [level_negCond] at h2
          exact lt_of_lt_of_le h1 h2
        have hpm : Partition INF ((m, bnd) :: es) := by
          rw [hes] at hpart ⊢
          exact hpart
        obtain ⟨out, modified', g'', hrest, hg'', hR⟩ := reduceRest_spec hk (cddMask m)
          (fun e he ↦ hcalls e (List.mem_cons_of_mem _ he))
          (fun e he ↦ hlevel e (List.mem_cons_of_mem _ he)) hpm
          (hrange (child, bnd) (by simp)) hred.wf hml hred.inRange hback.valid (hback.dim.trans hdim)
          (hback.dim ▸ hi) (hback.dim ▸ hj) hij ⟨x, hback.zone ▸ hx,
            diff_of_levelinfo hk ▸ (hdiff x).mpr hxb⟩
        rw [hback.zone] at hR
        obtain ⟨n, hn, hfirst⟩ := first_make ⟨i, j, hk⟩ hred hR
        simp only [Option.bind_eq_bind, Option.bind_some, ↓reduceIte, hm, hrest, Option.pure_def,
          hnode]
        by_cases hmod : (modified || decide (m ≠ cddNegCond child mask) || modified') = true
        · rw [if_pos hmod, hn]
          exact ⟨_, g'', rfl, hback.trans hg'', hfirst⟩
        · rw [if_neg hmod]
          simp only [Bool.or_eq_true, decide_eq_true_eq, not_or, Bool.not_eq_true,
            not_not] at hmod
          obtain ⟨⟨h1, h2⟩, h3⟩ := hmod
          obtain ⟨hnd, halt, -, hmask⟩ := hunmod h1
          subst h3
          have hsame := first_unmodified h2 (hmask (child, bnd) rfl) halt (by simp [hes]) hR hn
          rw [hsame, ← hnd] at hfirst
          exact ⟨node, g'', rfl, hback.trans hg'', hfirst⟩

end Cdd

/-! ### The recursion -/

/-- Every call of the recursion meets its specification. -/
theorem cddTarjanReduceRec_spec (hL : L.Declared) {d : DdNode} (h : L.WF d) (hr : InRange d)
    (mask : Bool) : CallSpec L mask d := by
  induction h generalizing mask with
  | terminal neg =>
    intro graph hvalid hdim ⟨x, hx⟩
    refine ⟨.terminal (neg ^^ mask), graph, rfl, ⟨rfl, rfl, hvalid⟩, .terminal _, le_rfl,
      fun _ _ ↦ Iff.rfl, ?_, le_rfl, .terminal _⟩
    intro p hp
    rw [paths, List.mem_singleton] at hp
    subst hp
    exact ⟨x, hx, by simp⟩
  | xterm neg hid => exact absurd hid (Nat.not_lt_zero _)
  | @bdd neg level low high hk hl hh _ _ _ _ ihl ihh =>
    obtain ⟨-, hrl, hrh⟩ := hr.of_bdd
    intro graph hvalid hdim hz
    obtain ⟨n, g, hn, hg, hredn⟩ := ihl hrl (neg ^^ mask) graph hvalid hdim hz
    obtain ⟨m, g', hm, hg', hredm⟩ := ihh hrh (neg ^^ mask) g hg.valid (hg.dim.trans hdim)
      (hg.zone ▸ hz)
    rw [hg.zone] at hredm
    have hln : level < n.level := by
      have := hredn.level_le
      rw [level_negCond] at this
      omega
    have hlm : level < m.level := by
      have := hredm.level_le
      rw [level_negCond] at this
      omega
    have hb := cddMakeBddNode_spec hk hln hlm hredn.wf hredm.wf
    have hp := paths_cddMakeBddNode level hredn.paths hredm.paths
    refine ⟨cddMakeBddNode level n m, g', ?_, hg.trans hg', hb.wf, ?_, ?_, hp.1, ?_,
      all_cddMakeBddNode trivial hredn.inRange hredm.inRange⟩
    · simp only [cddTarjanReduceRec, hn, hm, Option.bind_eq_bind, Option.bind_some,
        Option.pure_def]
    · rw [level_negCond]
      exact hb.level_le
    · intro v hv
      have h1 : eval (v.assignment L) n = (eval (v.assignment L) low ^^ (neg ^^ mask)) := by
        rw [← eval_negCond]
        exact Bool.eq_iff_iff.mpr (hredn.holds_iff v hv)
      have h2 : eval (v.assignment L) m = (eval (v.assignment L) high ^^ (neg ^^ mask)) := by
        rw [← eval_negCond]
        exact Bool.eq_iff_iff.mpr (hredm.holds_iff v hv)
      rw [Holds, Holds, hb.eval_eq, eval_negCond, eval, h1, h2]
      cases (v.assignment L).bool level <;> cases neg <;> cases mask <;> simp
    · have h1 := hredn.count_le
      have h2 := hredm.count_le
      have h3 := hp.2
      rw [paths_negCond] at h1 h2 ⊢
      simp only [paths, List.length_append, List.length_map]
      omega
  | @cdd neg level elem hk hl hp ha h2 hm hw ih =>
    obtain ⟨-, hrange, hrs⟩ := hr.of_cdd
    intro graph hvalid hdim hz
    obtain ⟨i, j, hij⟩ := hk
    obtain ⟨⟨hji, hi⟩, -⟩ := hL.covers.pair_of_level level i j hij
    obtain ⟨r, g, hr, hg, hfirst⟩ := reduceFirst_spec hij
      (.cdd (neg ^^ mask) level elem) rfl
      (fun e he ↦ ih e he (hrs e he) (neg ^^ mask)) hl hp hrange false
      (fun _ ↦ ⟨rfl, ha, h2, hm⟩) hvalid hdim (by omega) (by omega) (by omega) hz
    refine ⟨r, g, ?_, hg, hfirst.wf, ?_, ?_, hfirst.paths, ?_, hfirst.inRange⟩
    · simp only [cddTarjanReduceRec, hij, hr]
    · rw [level_negCond]
      exact hfirst.level_le
    · intro v hv
      rw [hfirst.holds_iff v hv, Holds, eval_negCond, eval]
      cases neg <;> cases mask <;> simp
    · rw [paths_negCond, paths, length_pathsElem]
      exact hfirst.count_le

/-! ### Reduce and equivalence -/

/-- The new graph has no edge, so every clock valuation is a solution. -/
theorem zone_cddTarjanInit (n : ℕ) : (cddTarjanInit n).zone = Set.univ := by
  ext x
  simp [Tarjan.zone, cddTarjanInit]

/-- Every path of the diagram is met by some clock valuation. -/
def Library.PathsSat (L : Library) (d : DdNode) : Prop := L.PathsIn Set.univ (paths d)

theorem cddReduce_reduces (hL : L.Declared) {f : DdNode} (hf : L.Proper f) :
    ∃ g, cddReduce L f = some g ∧ Reduces L Set.univ f g := by
  have hz : (cddTarjanInit L.clocknum).zone.Nonempty := by
    rw [zone_cddTarjanInit]
    exact Set.univ_nonempty
  obtain ⟨g, graph', hg, -, hred⟩ := cddTarjanReduceRec_spec hL hf.wf hf.inRange false
    (cddTarjanInit L.clocknum) (cddTarjanInit_valid _) rfl hz
  rw [zone_cddTarjanInit, cddNegCond_false] at hred
  refine ⟨g, ?_, hred⟩
  unfold cddReduce
  rw [hg]
  rfl

/-- A clock valuation that meets a path takes it, with the Booleans of an assignment that does. -/
theorem takes_of_meets {p : List Step} {a : Assignment} {x : ℕ → ℝ} (ha : a.Takes p)
    (hx : ∀ s ∈ p, L.MeetsStep x s) : ((⟨x, a.bool⟩ : Valuation).assignment L).Takes p := by
  intro s hs
  have h1 := ha s hs
  have h2 := hx s hs
  cases s with
  | bdd level value => exact h1
  | cdd level lower upper =>
    constructor
    · exact Or.inr (assignment_not_below.mpr h2.1)
    · exact assignment_below.mpr h2.2

/-- Every assignment is matched by a valuation that takes the same path. -/
theorem exists_valuation_eval {d : DdNode} (hd : L.Proper d) (hs : L.PathsSat d)
    (a : Assignment) : ∃ v : Valuation, eval (v.assignment L) d = eval a d := by
  obtain ⟨p, hp, hap, hval⟩ := exists_path hd.wf hd.inRange a
  obtain ⟨x, -, hx⟩ := hs p hp
  exact ⟨⟨x, a.bool⟩, hval _ (takes_of_meets hap hx)⟩

/-- With satisfiable paths only, a diagram is a terminal when it is constant. -/
theorem eq_cddfalse_iff {d : DdNode} (hd : L.Proper d) (hs : L.PathsSat d) :
    d = cddfalse ↔ ∀ v, ¬ Holds L v d := by
  constructor
  · rintro rfl v
    exact not_holds_cddfalse
  · intro h
    apply eq_of_eval_eq hd.wf wf_cddfalse
    intro a
    obtain ⟨v, hv⟩ := exists_valuation_eval hd hs a
    rw [← hv, eval_cddfalse]
    exact Bool.eq_false_iff.mpr (h v)

theorem eq_cddtrue_iff {d : DdNode} (hd : L.Proper d) (hs : L.PathsSat d) :
    d = cddtrue ↔ ∀ v, Holds L v d := by
  constructor
  · rintro rfl v
    exact holds_cddtrue
  · intro h
    apply eq_of_eval_eq hd.wf wf_cddtrue
    intro a
    obtain ⟨v, hv⟩ := exists_valuation_eval hd hs a
    rw [← hv, eval_cddtrue]
    exact h v

/-- What `cdd_reduce` returns for `f`. -/
structure Reduced (L : Library) (f g : DdNode) : Prop where
  proper : L.Proper g
  holds_iff : ∀ v, Holds L v g ↔ Holds L v f
  pathsSat : L.PathsSat g
  count_le : (paths g).length ≤ (paths f).length
  eq_cddfalse : g = cddfalse ↔ ∀ v, ¬ Holds L v f
  eq_cddtrue : g = cddtrue ↔ ∀ v, Holds L v f

/-- `cdd_reduce` returns the semi-canonical form. -/
theorem cddReduce_spec (hL : L.Declared) {f : DdNode} (hf : L.Proper f) :
    ∃ g, cddReduce L f = some g ∧ Reduced L f g := by
  obtain ⟨g, hg, hred⟩ := cddReduce_reduces hL hf
  have hproper : L.Proper g := ⟨hred.wf, hred.inRange⟩
  have hiff : ∀ v, Holds L v g ↔ Holds L v f := fun v ↦ hred.holds_iff v (Set.mem_univ _)
  refine ⟨g, hg, hproper, hiff, hred.paths, hred.count_le, ?_, ?_⟩
  · rw [eq_cddfalse_iff hproper hred.paths]
    simp only [hiff]
  · rw [eq_cddtrue_iff hproper hred.paths]
    simp only [hiff]

theorem cddEquiv_spec (hL : L.Declared) {c d : DdNode} (hc : L.Proper c) (hd : L.Proper d) :
    ∃ b, cddEquiv L c d = some b ∧ (b = true ↔ ∀ v, Holds L v c ↔ Holds L v d) := by
  obtain ⟨g, hg, hred⟩ := cddReduce_spec hL (hc.xor hd)
  refine ⟨decide (g = cddfalse), ?_, ?_⟩
  · unfold cddEquiv
    rw [hg]
    rfl
  · rw [decide_eq_true_eq, hred.eq_cddfalse]
    apply forall_congr'
    intro v
    unfold Holds
    rw [(cddXor_builds hc.wf hd.wf).eval_eq, Bool.eq_iff_iff.symm]
    cases eval (v.assignment L) c <;> cases eval (v.assignment L) d <;> simp

/-- The test `x1 - x0 < 2`. -/
def sampleTest : DdNode := .cdd true 0 [(cddfalse, 4), (cddtrue, INF)]

theorem inRange_sampleTest : InRange sampleTest := by
  apply All.cdd _ trivial
  · decide
  · simp only [List.mem_cons, List.not_mem_nil, or_false, forall_eq_or_imp, forall_eq]
    exact ⟨.terminal _, .terminal _⟩

end UCDD

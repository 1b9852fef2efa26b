import UCDD.Reduce.Correct

/-!
# Reduction under a set of clock valuations

What the reducers compute: an edge is consistent when some clock valuation of the set meets its
bound. `cdd_reduce` computes it with the solutions of its graph, and a diagram all of whose
paths are met by the set is left as it is.
-/

namespace UCDD

open IntervalMap DdNode

/-- The clock valuations of `Z` whose difference at the level is below `b`. -/
def Library.below (L : Library) (level : ℕ) (b : Raw) (Z : Set (ℕ → ℝ)) : Set (ℕ → ℝ) :=
  {x | x ∈ Z ∧ Below (L.diff x level) b}

/-- The clock valuations of `Z` whose difference at the level is not below `b`. -/
def Library.above (L : Library) (level : ℕ) (b : Raw) (Z : Set (ℕ → ℝ)) : Set (ℕ → ℝ) :=
  {x | x ∈ Z ∧ ¬ Below (L.diff x level) b}

open Classical in
mutual

/-- The reduction of the pointer `cddNegCond node mask` under the clock valuations `Z`. -/
noncomputable def reduceIn (L : Library) (mask : Bool) : DdNode → Set (ℕ → ℝ) → DdNode
  | .terminal neg, _ => .terminal (neg ^^ mask)
  | .xterm neg id, _ => .xterm (neg ^^ mask) id
  | .bdd neg level low high, Z =>
    cddMakeBddNode level (reduceIn L (neg ^^ mask) low Z) (reduceIn L (neg ^^ mask) high Z)
  | .cdd neg level elem, Z => reduceFirstIn L (neg ^^ mask) level elem Z

/-- The node of the children from the first consistent one on. -/
noncomputable def reduceFirstIn (L : Library) (mask : Bool) (level : ℕ) :
    List (DdNode × Raw) → Set (ℕ → ℝ) → DdNode
  | [], _ => cddfalse
  | (child, bnd) :: it, Z =>
    if bnd = INF then reduceIn L mask child Z
    else if (L.below level bnd Z).Nonempty then
      let m := reduceIn L mask child (L.below level bnd Z)
      cddNegCond ((cddMakeCddNode ⊤ level
        (reduceRestIn L mask (cddMask m) level it bnd m Z)).getD cddfalse) (cddMask m)
    else reduceFirstIn L mask level it Z

/-- The elements of the node from the pending child `m` on. -/
noncomputable def reduceRestIn (L : Library) (mask mask0 : Bool) (level : ℕ) :
    List (DdNode × Raw) → Raw → DdNode → Set (ℕ → ℝ) → List (DdNode × Raw)
  | [], _, m, _ => [(cddNegCond m mask0, INF)]
  | (child, bnd) :: it, low, m, Z =>
    if (L.above level low Z).Nonempty then
      let n := reduceIn L mask child (L.below level bnd (L.above level low Z))
      if m = n then reduceRestIn L mask mask0 level it bnd n Z
      else (cddNegCond m mask0, low) :: reduceRestIn L mask mask0 level it bnd n Z
    else [(cddNegCond m mask0, INF)]

end

section

variable {L : Library} {xterms : ℕ} {mask mask0 : Bool} {level : ℕ} {Z : Set (ℕ → ℝ)}

theorem below_of_INF_le {b : Raw} (hb : ¬ b < INF) : L.below level b Z = Z := by
  ext x
  have : Below (L.diff x level) b := (below_INF _).mono (not_lt.mp hb)
  simp only [Library.below, Set.mem_ofPred_eq, this, and_true]

/-! ### The incremental reducer -/

/-- The recursion computes the reduction under the solutions of its graph. -/
def CallEq (L : Library) (mask : Bool) (d : DdNode) : Prop :=
  ∀ graph : Tarjan, graph.Valid → graph.dim = L.clocknum →
    ∃ graph', cddTarjanReduceRec L mask d graph = some (reduceIn L mask d graph.zone, graph') ∧
      Restores graph graph'

section Cdd

variable {i j : ℕ} {graph g : Tarjan}

/-- The test of an upper bound. -/
theorem push_upper (hk : L.levelinfo[level]? = some (.cdd i j)) (hvalid : graph.Valid)
    (hi : i < graph.dim) (hj : j < graph.dim) (hij : i ≠ j) {b : Raw} (hl : -INF < b)
    (hu : b < INF) :
    (cddTarjanPush graph i j b.code).zone = L.below level b graph.zone ∧
      ∃ c g, cddTarjanConsistent (cddTarjanPush graph i j b.code) = some (c, g) ∧
        Restores (cddTarjanPush graph i j b.code) g ∧
        (c = true ↔ (L.below level b graph.zone).Nonempty) := by
  have hzone : (cddTarjanPush graph i j b.code).zone = L.below level b graph.zone := by
    ext x
    rw [mem_zone_push, Library.below, Set.mem_ofPred_eq, diff_of_levelinfo hk,
      below_iff_upperSat hl hu]
  obtain ⟨c, g, hc, hv, hedges, hdim, hiff⟩ :=
    cddTarjanConsistent_zone (cddTarjanPush_valid hvalid b.code hi hj hij)
  exact ⟨hzone, c, g, hc, ⟨hedges, hdim, hv⟩, hzone ▸ hiff⟩

/-- The test of a lower bound. -/
theorem push_lower (hk : L.levelinfo[level]? = some (.cdd i j)) (hvalid : graph.Valid)
    (hi : i < graph.dim) (hj : j < graph.dim) (hij : i ≠ j) {b : Raw} (hl : -INF < b)
    (hu : b < INF) :
    (cddTarjanPush graph j i (bndL2u b).code).zone = L.above level b graph.zone ∧
      ∃ c g, cddTarjanConsistent (cddTarjanPush graph j i (bndL2u b).code) = some (c, g) ∧
        Restores (cddTarjanPush graph j i (bndL2u b).code) g ∧
        (c = true ↔ (L.above level b graph.zone).Nonempty) := by
  have hzone : (cddTarjanPush graph j i (bndL2u b).code).zone = L.above level b graph.zone := by
    ext x
    rw [mem_zone_push, Library.above, Set.mem_ofPred_eq, diff_of_levelinfo hk,
      upperSat_lower hl hu]
  obtain ⟨c, g, hc, hv, hedges, hdim, hiff⟩ :=
    cddTarjanConsistent_zone (cddTarjanPush_valid hvalid (bndL2u b).code hj hi hij.symm)
  exact ⟨hzone, c, g, hc, ⟨hedges, hdim, hv⟩, hzone ▸ hiff⟩

/-- The call for a later child. -/
private theorem visit_eq {child : DdNode} (hcall : CallEq L mask child)
    (hk : L.levelinfo[level]? = some (.cdd i j)) (hvalid : g.Valid) (hdim : g.dim = L.clocknum)
    (hi : i < g.dim) (hj : j < g.dim) (hij : i ≠ j) {b : Raw} (hl : -INF < b) :
    ∃ g', (if b < INF then
          (cddTarjanReduceRec L mask child (cddTarjanPush g i j b.code)).map fun r ↦
            (r.1, cddTarjanPop r.2 i)
        else cddTarjanReduceRec L mask child g) =
          some (reduceIn L mask child (L.below level b g.zone), g') ∧ Restores g g' := by
  by_cases hb : b < INF
  · rw [if_pos hb]
    obtain ⟨hzone, -⟩ := push_upper hk hvalid hi hj hij hl hb
    obtain ⟨g', hg', hr⟩ := hcall (cddTarjanPush g i j b.code)
      (cddTarjanPush_valid hvalid b.code hi hj hij) hdim
    refine ⟨cddTarjanPop g' i, ?_, hr.pop⟩
    rw [hg', hzone, Option.map_some]
  · rw [if_neg hb, below_of_INF_le hb]
    exact hcall g hvalid hdim

/-- The scan of the later children. Where it reports no change the elements are the children. -/
private theorem reduceRest_eq (hk : L.levelinfo[level]? = some (.cdd i j)) (mask0 : Bool)
    {es : List (DdNode × Raw)} (hcalls : ∀ e ∈ es, CallEq L mask e.1) {m : DdNode} {low : Raw}
    (hpart : Partition INF ((m, low) :: es)) (hlow : -INF < low) (hvalid : graph.Valid)
    (hdim : graph.dim = L.clocknum) (hi : i < graph.dim) (hj : j < graph.dim) (hij : i ≠ j) :
    ∃ modified graph',
      reduceRest L mask mask0 i j es low m graph =
        some (reduceRestIn L mask mask0 level es low m graph.zone, modified, graph') ∧
      Restores graph graph' ∧
      (modified = false → ∀ prev, m = cddNegCond prev mask → Alternating ((prev, low) :: es) →
        reduceRestIn L mask mask0 level es low m graph.zone =
          ((m, low) :: es.map fun e ↦ (cddNegCond e.1 mask, e.2)).map
            fun e ↦ (cddNegCond e.1 mask0, e.2)) := by
  induction es generalizing m low graph with
  | nil =>
    have hINF : low = INF := hpart
    subst hINF
    exact ⟨false, graph, by rw [reduceRest, reduceRestIn], ⟨rfl, rfl, hvalid⟩,
      fun _ _ _ _ ↦ by rw [reduceRestIn]; rfl⟩
  | cons e es ih =>
    obtain ⟨child, bnd⟩ := e
    have hlb : low < bnd := hpart.1
    have hlt : low < INF := lt_of_lt_of_le hlb (le_INF bnd)
    obtain ⟨hzone, c, g, hc, hg, hiff⟩ := push_lower hk hvalid hi hj hij hlow hlt
    rw [reduceRest, hc, reduceRestIn]
    cases c with
    | false =>
      rw [if_neg (fun h ↦ Bool.noConfusion (hiff.mpr h))]
      exact ⟨true, _, rfl, hg.pop, fun h ↦ by cases h⟩
    | true =>
      rw [if_pos (hiff.mp rfl)]
      obtain ⟨g', hn, hg'⟩ := visit_eq (hcalls (child, bnd) (by simp)) hk hg.valid
        (hg.dim.trans hdim) (hg.dim ▸ hi) (hg.dim ▸ hj) hij (lt_trans hlow hlb)
      rw [hg.zone, hzone] at hn
      have hback : Restores graph (cddTarjanPop g' j) := (hg.trans hg').pop
      set n := reduceIn L mask child (L.below level bnd (L.above level low graph.zone))
      have hpart' : Partition INF ((n, bnd) :: es) := by
        cases es with
        | nil => exact hpart.2
        | cons e' es => exact hpart.2
      obtain ⟨modified, g'', hrest, hg'', hsame⟩ := ih
        (fun e he ↦ hcalls e (List.mem_cons_of_mem _ he)) hpart' (lt_trans hlow hlb) hback.valid
        (hback.dim.trans hdim) (hback.dim ▸ hi) (hback.dim ▸ hj)
      rw [hback.zone] at hrest hsame
      simp only [Option.bind_eq_bind, Option.bind_some, ↓reduceIte, hn, hrest, Option.pure_def,
        ne_eq, ite_not]
      refine ⟨n ≠ cddNegCond child mask || modified, g'', ?_, hback.trans hg'',
        fun hmod prev hprev halt ↦ ?_⟩
      · simp only [ne_eq]
      · simp only [Bool.or_eq_false_iff, decide_eq_false_iff_not, not_not] at hmod
        have hne : m ≠ n := by
          rw [hprev, hmod.1]
          exact fun h ↦ (List.isChain_cons_cons.mp halt).1 (cddNegCond_injective mask h)
        rw [if_neg hne, hsame hmod.2 child hmod.1 (List.isChain_cons_cons.mp halt).2,
          List.map_cons, List.map_cons, List.map_cons, List.map_cons, hmod.1]

/-- The elements of a node that no call changed make the node again. -/
private theorem cddMakeCddNode_unmodified {child m : DdNode} {bnd : Raw}
    {es : List (DdNode × Raw)} (hm : m = cddNegCond child mask) (hmask : cddMask child = false)
    (hes : es ≠ []) :
    cddNegCond ((cddMakeCddNode ⊤ level (((m, bnd) :: es.map fun e ↦
        (cddNegCond e.1 mask, e.2)).map fun e ↦ (cddNegCond e.1 (cddMask m), e.2))).getD cddfalse)
      (cddMask m) = .cdd mask level ((child, bnd) :: es) := by
  have hmm : cddMask m = mask := by simp [hm, hmask]
  have hmap : ((m, bnd) :: es.map fun e ↦ (cddNegCond e.1 mask, e.2)).map
      (fun e ↦ (cddNegCond e.1 (cddMask m), e.2)) = (child, bnd) :: es := by
    simp [hm, hmask, Function.comp_def]
  rw [hmap, hmm]
  obtain ⟨e, es, rfl⟩ := List.exists_cons_of_ne_nil hes
  rw [cddMakeCddNode_top, cddNegCond, Bool.false_xor]

/-- The search for the first consistent child and the node made from there on. -/
private theorem reduceFirst_eq (hk : L.levelinfo[level]? = some (.cdd i j)) (node : DdNode)
    (hnode : node.level = level) {es : List (DdNode × Raw)}
    (hcalls : ∀ e ∈ es, CallEq L mask e.1) (hpart : Partition INF es)
    (hrange : ∀ e ∈ es, -INF < e.2) (modified : Bool)
    (hunmod : modified = false → node = .cdd mask level es ∧ Alternating es ∧ 2 ≤ es.length ∧
      ∀ e ∈ es.head?, cddMask e.1 = false)
    (hvalid : graph.Valid) (hdim : graph.dim = L.clocknum) (hi : i < graph.dim)
    (hj : j < graph.dim) (hij : i ≠ j) :
    ∃ graph', reduceFirst L mask i j node es modified graph =
        some (reduceFirstIn L mask level es graph.zone, graph') ∧ Restores graph graph' := by
  induction es generalizing modified graph with
  | nil => exact absurd hpart id
  | cons e es ih =>
    obtain ⟨child, bnd⟩ := e
    rw [reduceFirst, reduceFirstIn]
    by_cases hbnd : bnd = INF
    · -- the last child is reached only after another one was dropped
      have hmod : modified = true := by
        by_contra hmod
        have h2 := (hunmod (Bool.eq_false_iff.mpr hmod)).2.2.1
        cases es with
        | nil => simp at h2
        | cons e' es => exact not_lt.mpr (le_INF e'.2) (hbnd ▸ hpart.1)
      rw [if_pos hbnd, hmod, Bool.true_and, if_pos (decide_eq_true hbnd)]
      exact hcalls (child, bnd) (by simp) graph hvalid hdim
    · have hlt : bnd < INF := lt_of_le_of_ne (le_INF bnd) hbnd
      have hearly : (modified && decide (bnd = INF)) = false := by simp [hbnd]
      obtain ⟨e', es', hes, -, hpart'⟩ := hpart.tail_of_lt hlt
      rw [if_neg hbnd, hearly, if_neg Bool.false_ne_true]
      obtain ⟨hzone, c, g, hc, hg, hiff⟩ :=
        push_upper hk hvalid hi hj hij (hrange (child, bnd) (by simp)) hlt
      rw [hc]
      cases c with
      | false =>
        rw [if_neg (fun h ↦ Bool.noConfusion (hiff.mpr h))]
        have hback : Restores graph (cddTarjanPop g i) := hg.pop
        obtain ⟨graph', hr, hg'⟩ := ih (fun e he ↦ hcalls e (List.mem_cons_of_mem _ he)) hpart'
          (fun e he ↦ hrange e (List.mem_cons_of_mem _ he)) true (fun h ↦ by cases h)
          hback.valid (hback.dim.trans hdim) (hback.dim ▸ hi) (hback.dim ▸ hj)
        rw [hback.zone] at hr
        exact ⟨graph', hr, hback.trans hg'⟩
      | true =>
        rw [if_pos (hiff.mp rfl)]
        obtain ⟨g', hm, hg'⟩ := hcalls (child, bnd) (by simp) g hg.valid (hg.dim.trans hdim)
        rw [hg.zone, hzone] at hm
        set m := reduceIn L mask child (L.below level bnd graph.zone)
        have hback : Restores graph (cddTarjanPop g' i) := (hg.trans hg').pop
        have hpm : Partition INF ((m, bnd) :: es) := by
          rw [hes] at hpart ⊢
          exact hpart
        obtain ⟨modified', g'', hrest, hg'', hsame⟩ := reduceRest_eq hk (cddMask m)
          (fun e he ↦ hcalls e (List.mem_cons_of_mem _ he)) hpm (hrange (child, bnd) (by simp))
          hback.valid (hback.dim.trans hdim) (hback.dim ▸ hi) (hback.dim ▸ hj) hij
        rw [hback.zone] at hrest hsame
        refine ⟨g'', ?_, hback.trans hg''⟩
        obtain ⟨n, hn⟩ := exists_cddMakeCddNode level
          (reduceRestIn L mask (cddMask m) level es bnd m graph.zone)
        simp only [Option.bind_eq_bind, Option.bind_some, ↓reduceIte, hm, hrest, Option.pure_def,
          hnode]
        by_cases hmod : (modified || decide (m ≠ cddNegCond child mask) || modified') = true
        · rw [if_pos hmod, hn, Option.bind_some, Option.getD_some]
        · rw [if_neg hmod]
          simp only [Bool.or_eq_true, decide_eq_true_eq, not_or, Bool.not_eq_true,
            not_not] at hmod
          obtain ⟨⟨h1, h2⟩, h3⟩ := hmod
          obtain ⟨hnd, halt, -, hmask⟩ := hunmod h1
          rw [hsame h3 child h2 halt,
            cddMakeCddNode_unmodified h2 (hmask (child, bnd) rfl) (by simp [hes]), hnd]

end Cdd

/-- Every call of the recursion computes the reduction. -/
theorem cddTarjanReduceRec_eq (hL : L.Declared) {d : DdNode} (h : L.WellFormed xterms d)
    (hr : InRange d) (mask : Bool) : CallEq L mask d := by
  induction h generalizing mask with
  | terminal | xterm => exact fun graph hvalid _ ↦ ⟨graph, rfl, ⟨rfl, rfl, hvalid⟩⟩
  | @bdd neg level low high _ _ _ _ _ _ _ ihl ihh =>
    obtain ⟨-, hrl, hrh⟩ := hr.of_bdd
    intro graph hvalid hdim
    obtain ⟨g, hn, hg⟩ := ihl hrl (neg ^^ mask) graph hvalid hdim
    obtain ⟨g', hm, hg'⟩ := ihh hrh (neg ^^ mask) g hg.valid (hg.dim.trans hdim)
    rw [hg.zone] at hm
    refine ⟨g', ?_, hg.trans hg'⟩
    simp only [cddTarjanReduceRec, reduceIn, hn, hm, Option.bind_eq_bind, Option.bind_some,
      Option.pure_def]
  | @cdd neg level elem hk hl hp ha h2 hm hw ih =>
    obtain ⟨-, hrange, hrs⟩ := hr.of_cdd
    intro graph hvalid hdim
    obtain ⟨i, j, hij⟩ := hk
    obtain ⟨⟨hji, hi⟩, -⟩ := hL.covers.pair_of_level level i j hij
    obtain ⟨g, hg, hrest⟩ := reduceFirst_eq hij (.cdd (neg ^^ mask) level elem) rfl
      (fun e he ↦ ih e he (hrs e he) (neg ^^ mask)) hp hrange false
      (fun _ ↦ ⟨rfl, ha, h2, hm⟩) hvalid hdim (by omega) (by omega) (by omega)
    refine ⟨g, ?_, hrest⟩
    rw [reduceIn]
    simp only [cddTarjanReduceRec, hij, hg]

/-- `cdd_reduce` is the reduction under all clock valuations. -/
theorem cddReduce_eq (hL : L.Declared) {f : DdNode} (hf : L.WellFormed xterms f)
    (hr : InRange f) : cddReduce L f = some (reduceIn L false f Set.univ) := by
  obtain ⟨g, hg, -⟩ := cddTarjanReduceRec_eq hL hf hr false
    (cddTarjanInit L.clocknum) (cddTarjanInit_valid _) rfl
  unfold cddReduce
  rw [hg, zone_cddTarjanInit, Option.map_some]

/-! ### Diagrams that are left as they are -/

theorem Library.PathsIn.of_cons {ps : List (List Step)} {s : Step}
    (h : L.PathsIn Z (ps.map (s :: ·))) : L.PathsIn {x | x ∈ Z ∧ L.MeetsStep x s} ps := by
  intro p hp
  obtain ⟨x, hx, hs⟩ := h (s :: p) (List.mem_map_of_mem hp)
  obtain ⟨h1, h2⟩ := List.forall_mem_cons.mp hs
  exact ⟨x, ⟨hx, h1⟩, h2⟩

theorem Library.WellFormed.paths_ne_nil {d : DdNode} (h : L.WellFormed xterms d) :
    paths d ≠ [] := by
  induction h with
  | terminal | xterm => simp [paths]
  | bdd _ _ _ _ _ _ _ _ ihl _ => simp [paths, ihl]
  | @cdd neg level elem _ _ hp _ _ _ _ ih =>
    obtain ⟨e, es, rfl⟩ := List.exists_cons_of_ne_nil hp.ne_nil
    simp [paths, pathsElem, ih e (by simp)]

/-- A set that meets the paths is not empty. -/
theorem Library.PathsIn.nonempty {d : DdNode} (h : L.PathsIn Z (paths d))
    (hd : L.WellFormed xterms d) : Z.Nonempty := by
  obtain ⟨p, ps, hp⟩ := List.exists_cons_of_ne_nil hd.paths_ne_nil
  obtain ⟨x, hx, -⟩ := h p (hp ▸ List.mem_cons_self ..)
  exact ⟨x, hx⟩

private theorem reduceRestIn_of_pathsIn {es : List (DdNode × Raw)} {m prev : DdNode} {low : Raw}
    (hcalls : ∀ e ∈ es, ∀ Z, L.PathsIn Z (paths e.1) →
      reduceIn L mask e.1 Z = cddNegCond e.1 mask)
    (hw : ∀ e ∈ es, L.WellFormed xterms e.1) (hlow : Partition INF ((m, low) :: es))
    (hm : m = cddNegCond prev mask) (halt : Alternating ((prev, low) :: es))
    (h : L.PathsIn Z (pathsElem level low es)) :
    reduceRestIn L mask mask0 level es low m Z =
      ((m, low) :: es.map fun e ↦ (cddNegCond e.1 mask, e.2)).map
        fun e ↦ (cddNegCond e.1 mask0, e.2) := by
  induction es generalizing m prev low with
  | nil =>
    have hINF : low = INF := hlow
    rw [reduceRestIn, hINF]
    rfl
  | cons e es ih =>
    obtain ⟨child, bnd⟩ := e
    rw [pathsElem] at h
    have hstep := Library.PathsIn.of_cons fun p hp ↦ h p (List.mem_append_left _ hp)
    have hset : {x | x ∈ Z ∧ L.MeetsStep x (.cdd level low bnd)} =
        L.below level bnd (L.above level low Z) := by
      ext x
      simp only [Library.MeetsStep, Library.below, Library.above, Set.mem_ofPred_eq, and_assoc]
    rw [hset] at hstep
    have hmem : ((child, bnd) : DdNode × Raw) ∈ (child, bnd) :: es := List.mem_cons_self ..
    obtain ⟨x, hx⟩ := hstep.nonempty (hw _ hmem)
    have hn := hcalls _ hmem _ hstep
    have hpart : Partition INF ((cddNegCond child mask, bnd) :: es) := by
      cases es with
      | nil => exact hlow.2
      | cons e' es => exact hlow.2
    have hne : m ≠ cddNegCond child mask := by
      rw [hm]
      exact fun h ↦ (List.isChain_cons_cons.mp halt).1 (cddNegCond_injective mask h)
    rw [reduceRestIn, if_pos ⟨x, hx.1⟩, hn]
    simp only
    rw [if_neg hne, ih (fun e he ↦ hcalls e (List.mem_cons_of_mem _ he))
      (fun e he ↦ hw e (List.mem_cons_of_mem _ he)) hpart rfl (List.isChain_cons_cons.mp halt).2
      fun p hp ↦ h p (List.mem_append_right _ hp)]
    rfl

/-- A diagram whose paths are met by `Z` is reduced under `Z`. -/
theorem reduceIn_of_pathsIn {d : DdNode} (hd : L.WellFormed xterms d) (mask : Bool)
    (h : L.PathsIn Z (paths d)) : reduceIn L mask d Z = cddNegCond d mask := by
  induction hd generalizing mask Z with
  | terminal | xterm => rw [reduceIn, cddNegCond]
  | @bdd neg level low high _ _ _ hne hm _ _ ihl ihh =>
    rw [paths] at h
    have hl : L.PathsIn Z (paths low) :=
      Library.PathsIn.tail fun p hp ↦ h p (List.mem_append_left _ hp)
    have hh : L.PathsIn Z (paths high) :=
      Library.PathsIn.tail fun p hp ↦ h p (List.mem_append_right _ hp)
    have hne' : cddNegCond low (neg ^^ mask) ≠ cddNegCond high (neg ^^ mask) :=
      fun h ↦ hne (cddNegCond_injective _ h)
    rw [reduceIn, ihl _ hl, ihh _ hh, cddMakeBddNode, if_neg hne', cddMask_negCond, hm,
      Bool.false_xor, cddRglr_negCond, cddRglr, hm, cddNegCond_false, cddNegCond_negCond,
      Bool.xor_self, cddNegCond_false, cddNegCond]
  | @cdd neg level elem hk hl hp ha h2 hm hw ih =>
    cases elem with
    | nil => exact absurd hp id
    | cons e rest =>
      cases rest with
      | nil => simp at h2
      | cons e' es =>
        obtain ⟨child, bnd⟩ := e
        have hlt : bnd < INF := lt_of_lt_of_le hp.1 (le_INF e'.2)
        rw [paths, pathsElem] at h
        have hstep := Library.PathsIn.of_cons fun p hp ↦ h p (List.mem_append_left _ hp)
        have hset : {x | x ∈ Z ∧ L.MeetsStep x (.cdd level (-INF) bnd)} = L.below level bnd Z := by
          ext x
          simp only [Library.MeetsStep, Library.below, Set.mem_ofPred_eq, not_below_neg_INF,
            not_false_eq_true, true_and]
        rw [hset] at hstep
        have hmem : ((child, bnd) : DdNode × Raw) ∈ (child, bnd) :: e' :: es :=
          List.mem_cons_self ..
        have hm' := ih _ hmem (neg ^^ mask) hstep
        rw [reduceIn, reduceFirstIn, if_neg (ne_of_lt hlt),
          if_pos (hstep.nonempty (hw _ hmem)), hm']
        simp only
        rw [reduceRestIn_of_pathsIn
          (fun e he Z hZ ↦ ih e (List.mem_cons_of_mem _ he) _ hZ)
          (fun e he ↦ hw e (List.mem_cons_of_mem _ he)) (by exact hp) rfl ha
          fun p hp ↦ h p (List.mem_append_right _ hp),
          cddMakeCddNode_unmodified rfl (hm (child, bnd) rfl) (List.cons_ne_nil _ _), cddNegCond]

/-- `cdd_reduce` returns a diagram whose paths are all satisfiable as it is. -/
theorem cddReduce_of_pathsSat (hL : L.Declared) {f : DdNode} (hf : L.WellFormed xterms f)
    (hr : InRange f) (h : L.PathsSat f) : cddReduce L f = some f := by
  rw [cddReduce_eq hL hf hr, reduceIn_of_pathsIn hf false h, cddNegCond_false]

end

/-! ### Loose diagrams

A node of a loose diagram may have equal neighbours, one child only or a negated first child.
Its reduction is a well-formed diagram nevertheless, as the nodes are built again. -/

/-- An ordered diagram whose nodes partition the line. -/
inductive Library.Loose (L : Library) (xterms : ℕ) : DdNode → Prop
  | terminal neg : L.Loose xterms (.terminal neg)
  | xterm neg {id} : id < xterms → L.Loose xterms (.xterm neg id)
  | bdd neg {level low high} : L.levelinfo[level]? = some .bdd → level < low.level →
      level < high.level → L.Loose xterms low → L.Loose xterms high →
      L.Loose xterms (.bdd neg level low high)
  | cdd neg {level elem} : L.isCdd level → (∀ e ∈ elem, level < e.1.level) → Partition INF elem →
      (∀ e ∈ elem, L.Loose xterms e.1) → L.Loose xterms (.cdd neg level elem)

theorem Library.WellFormed.loose {L : Library} {xterms : ℕ} {d : DdNode}
    (h : L.WellFormed xterms d) : L.Loose xterms d := by
  induction h with
  | terminal neg => exact .terminal neg
  | xterm neg hid => exact .xterm neg hid
  | bdd neg hk hl hh _ _ _ _ ihl ihh => exact .bdd neg hk hl hh ihl ihh
  | cdd neg hk hl hp _ _ _ _ ih => exact .cdd neg hk hl hp ih

section

variable {L : Library} {mask mask0 : Bool} {level i j : ℕ} {Z : Set (ℕ → ℝ)}

theorem convex_above (hk : L.levelinfo[level]? = some (.cdd i j)) (hZ : Convex ℝ Z) (b : Raw) :
    Convex ℝ (L.above level b Z) := by
  have hset : L.above level b Z = Z ∩ {x | ¬ Below (x i - x j) b} := by
    ext x
    rw [Library.above, Set.mem_ofPred_eq, diff_of_levelinfo hk]
    rfl
  rw [hset]
  exact hZ.inter (convex_not_below i j b)

theorem Library.convex_below (hk : L.levelinfo[level]? = some (.cdd i j)) (hZ : Convex ℝ Z)
    (b : Raw) : Convex ℝ (L.below level b Z) := by
  have hset : L.below level b Z = Z ∩ {x | Below (x i - x j) b} := by
    ext x
    rw [Library.below, Set.mem_ofPred_eq, diff_of_levelinfo hk]
    rfl
  rw [hset]
  exact hZ.inter (UCDD.convex_below i j b)

/-- The reduction of the pointer under every convex set meets the specification. -/
def ReducesIn (L : Library) (mask : Bool) (d : DdNode) : Prop :=
  ∀ Z : Set (ℕ → ℝ), Convex ℝ Z → Z.Nonempty →
    Reduces L Z (cddNegCond d mask) (reduceIn L mask d Z)

private theorem reduceRestIn_spec (hk : L.levelinfo[level]? = some (.cdd i j)) (mask0 : Bool)
    {es : List (DdNode × Raw)} (hcalls : ∀ e ∈ es, ReducesIn L mask e.1)
    (hlevel : ∀ e ∈ es, level < e.1.level) {m : DdNode} {low : Raw}
    (hpart : Partition INF ((m, low) :: es)) (hlow : -INF < low) (hm : L.WF m)
    (hml : level < m.level) (hmr : InRange m) (hZ : Convex ℝ Z)
    (hx : (L.below level low Z).Nonempty) :
    ∃ out, reduceRestIn L mask mask0 level es low m Z =
        out.map (fun e ↦ (cddNegCond e.1 mask0, e.2)) ∧
      Rest L mask level Z m low es out true := by
  induction es generalizing m low with
  | nil =>
    have hINF : low = INF := hpart
    refine ⟨[(m, INF)], by rw [reduceRestIn]; rfl, ?_⟩
    exact rest_last hm hml hmr (le_of_eq hINF) (fun x _ ↦ hINF ▸ below_INF _) fun h ↦ nomatch h
  | cons e es ih =>
    obtain ⟨child, bnd⟩ := e
    have hlb : low < bnd := hpart.1
    have hlt : low < INF := lt_of_lt_of_le hlb (le_INF bnd)
    rw [reduceRestIn]
    by_cases hy : (L.above level low Z).Nonempty
    · rw [if_pos hy]
      -- by convexity the interval of the child is met
      obtain ⟨x, hxZ, hxl⟩ := hx
      obtain ⟨y, hyZ, hyl⟩ := hy
      rw [diff_of_levelinfo hk] at hxl hyl
      obtain ⟨z, hzZ, hzl, hzu⟩ := exists_mem_between hZ hlb ⟨x, hxZ, hxl⟩ ⟨y, hyZ, hyl⟩
      have hz : z ∈ L.below level bnd (L.above level low Z) := by
        refine ⟨⟨hzZ, ?_⟩, ?_⟩ <;> rw [diff_of_levelinfo hk] <;> assumption
      have hred := hcalls (child, bnd) (by simp) _
        (Library.convex_below hk (convex_above hk hZ low) bnd) ⟨z, hz⟩
      have hset : L.below level bnd (L.above level low Z) =
          {x | x ∈ Z ∧ ¬ Below (L.diff x level) low ∧ Below (L.diff x level) bnd} := by
        ext x
        simp only [Library.below, Library.above, Set.mem_ofPred_eq, and_assoc]
      rw [hset] at hred hz ⊢
      set n := reduceIn L mask child
        {x | x ∈ Z ∧ ¬ Below (L.diff x level) low ∧ Below (L.diff x level) bnd}
      have hnl : level < n.level :=
        lt_of_lt_of_le (hlevel (child, bnd) (by simp)) (by simpa using hred.level_le)
      have hpart' : Partition INF ((n, bnd) :: es) := by
        cases es with
        | nil => exact hpart.2
        | cons e' es => exact hpart.2
      obtain ⟨out, hout, hR⟩ := ih (fun e he ↦ hcalls e (List.mem_cons_of_mem _ he))
        (fun e he ↦ hlevel e (List.mem_cons_of_mem _ he)) hpart' (lt_trans hlow hlb) hred.wf hnl
        hred.inRange ⟨z, hzZ, hz.2.2⟩
      simp only
      by_cases hmn : m = n
      · rw [if_pos hmn]
        refine ⟨out, hout, ?_⟩
        have hext := rest_extend hlb hred hR
        rw [Bool.or_true] at hext
        exact hmn ▸ hext
      · rw [if_neg hmn]
        have hpush := rest_push hm hml hmr hlow hlb hmn hred hR
        rw [Bool.or_true] at hpush
        exact ⟨(m, low) :: out, by rw [hout, List.map_cons], hpush⟩
    · rw [if_neg hy]
      refine ⟨[(m, INF)], rfl, rest_last hm hml hmr (le_of_lt hlt) (fun x hxZ ↦ ?_) (by simp)⟩
      by_contra hnb
      exact hy ⟨x, hxZ, hnb⟩

private theorem reduceFirstIn_spec (hk : L.levelinfo[level]? = some (.cdd i j))
    {es : List (DdNode × Raw)} (hcalls : ∀ e ∈ es, ReducesIn L mask e.1)
    (hlevel : ∀ e ∈ es, level < e.1.level) (hpart : Partition INF es)
    (hrange : ∀ e ∈ es, -INF < e.2) (hZ : Convex ℝ Z) (hne : Z.Nonempty) :
    First L mask level Z es (reduceFirstIn L mask level es Z) := by
  induction es with
  | nil => exact absurd hpart id
  | cons e es ih =>
    obtain ⟨child, bnd⟩ := e
    have hchild := hlevel (child, bnd) (by simp)
    rw [reduceFirstIn]
    by_cases hbnd : bnd = INF
    · rw [if_pos hbnd]
      have hred : Reduces L Z (cddNegCond child mask) (reduceIn L mask child Z) :=
        hcalls (child, bnd) (by simp) Z hZ hne
      refine ⟨hred.wf, ?_, fun v hv ↦ ?_, hred.paths, ?_, hred.inRange⟩
      · have h2 := hred.level_le
        rw [level_negCond] at h2
        exact le_trans (le_of_lt hchild) h2
      · have hbelow : Below (L.diff v.clock level) bnd := hbnd ▸ below_INF _
        rw [evalElem_of_below es (assignment_below.mpr hbelow), ← eval_negCond]
        exact hred.holds_iff v hv
      · have h2 := hred.count_le
        rw [paths_negCond] at h2
        simp only [pathCount, List.map_cons, List.sum_cons]
        omega
    · have hlt : bnd < INF := lt_of_le_of_ne (le_INF bnd) hbnd
      obtain ⟨e', es', hes, -, hpart'⟩ := hpart.tail_of_lt hlt
      rw [if_neg hbnd]
      by_cases hx : (L.below level bnd Z).Nonempty
      · rw [if_pos hx]
        have hred := hcalls (child, bnd) (by simp) _ (Library.convex_below hk hZ bnd) hx
        simp only
        set m := reduceIn L mask child (L.below level bnd Z)
        have hml : level < m.level := by
          have h2 := hred.level_le
          rw [level_negCond] at h2
          exact lt_of_lt_of_le hchild h2
        have hpm : Partition INF ((m, bnd) :: es) := by
          rw [hes] at hpart ⊢
          exact hpart
        obtain ⟨out, hout, hR⟩ := reduceRestIn_spec hk (cddMask m)
          (fun e he ↦ hcalls e (List.mem_cons_of_mem _ he))
          (fun e he ↦ hlevel e (List.mem_cons_of_mem _ he)) hpm (hrange (child, bnd) (by simp))
          hred.wf hml hred.inRange hZ hx
        obtain ⟨n, hn, hfirst⟩ := first_make ⟨i, j, hk⟩ hred hR
        rw [hout, hn, Option.getD_some]
        exact hfirst
      · rw [if_neg hx]
        have hfirst := ih (fun e he ↦ hcalls e (List.mem_cons_of_mem _ he))
          (fun e he ↦ hlevel e (List.mem_cons_of_mem _ he)) hpart'
          fun e he ↦ hrange e (List.mem_cons_of_mem _ he)
        refine ⟨hfirst.wf, hfirst.level_le, fun v hv ↦ ?_, hfirst.paths, ?_, hfirst.inRange⟩
        · rw [evalElem_of_not_below es
            (assignment_not_below.mpr fun hb ↦ hx ⟨v.clock, hv, hb⟩)]
          exact hfirst.holds_iff v hv
        · have h2 := hfirst.count_le
          simp only [pathCount, List.map_cons, List.sum_cons] at h2 ⊢
          omega

/-- The reduction of a loose diagram under a convex set of clock valuations is well formed,
agrees with the diagram on the set and has only paths that the set meets. -/
theorem reduceIn_spec {d : DdNode} (h : L.Loose 0 d) (hr : InRange d) (mask : Bool) :
    ReducesIn L mask d := by
  induction h generalizing mask with
  | terminal neg =>
    rintro Z - ⟨x, hx⟩
    rw [reduceIn]
    refine ⟨.terminal _, le_rfl, fun _ _ ↦ Iff.rfl, fun p hp ↦ ?_, le_rfl, .terminal _⟩
    rw [paths, List.mem_singleton] at hp
    subst hp
    exact ⟨x, hx, by simp⟩
  | xterm neg hid => exact absurd hid (Nat.not_lt_zero _)
  | @bdd neg level low high hk hl hh _ _ ihl ihh =>
    obtain ⟨-, hrl, hrh⟩ := hr.of_bdd
    intro Z hZ hne
    have hredn := ihl hrl (neg ^^ mask) Z hZ hne
    have hredm := ihh hrh (neg ^^ mask) Z hZ hne
    rw [reduceIn]
    set n := reduceIn L (neg ^^ mask) low Z
    set m := reduceIn L (neg ^^ mask) high Z
    have hln : level < n.level := by
      have := hredn.level_le
      rw [level_negCond] at this
      omega
    have hlm : level < m.level := by
      have := hredm.level_le
      rw [level_negCond] at this
      omega
    have hb := cddMakeBddNode_spec hk hln hlm hredn.wf hredm.wf
    have hp := paths_cddMakeBddNode level hredn.paths hredm.paths
    refine ⟨hb.wf, ?_, fun v hv ↦ ?_, hp.1, ?_,
      all_cddMakeBddNode trivial hredn.inRange hredm.inRange⟩
    · rw [level_negCond]
      exact hb.level_le
    · have h1 : eval (v.assignment L) n = (eval (v.assignment L) low ^^ (neg ^^ mask)) := by
        rw [← eval_negCond]
        exact Bool.eq_iff_iff.mpr (hredn.holds_iff v hv)
      have h2 : eval (v.assignment L) m = (eval (v.assignment L) high ^^ (neg ^^ mask)) := by
        rw [← eval_negCond]
        exact Bool.eq_iff_iff.mpr (hredm.holds_iff v hv)
      rw [Holds, Holds, hb.eval_eq, eval_negCond, eval, h1, h2]
      cases (v.assignment L).bool level <;> cases neg <;> cases mask <;> simp
    · have h1 := hredn.count_le
      have h2 := hredm.count_le
      have h3 := hp.2
      rw [paths_negCond] at h1 h2 ⊢
      simp only [paths, List.length_append, List.length_map]
      omega
  | @cdd neg level elem hk hl hp hw ih =>
    obtain ⟨-, hrange, hrs⟩ := hr.of_cdd
    obtain ⟨i, j, hij⟩ := hk
    intro Z hZ hne
    rw [reduceIn]
    have hfirst := reduceFirstIn_spec hij (fun e he ↦ ih e he (hrs e he) (neg ^^ mask)) hl hp
      hrange hZ hne
    refine ⟨hfirst.wf, ?_, fun v hv ↦ ?_, hfirst.paths, ?_, hfirst.inRange⟩
    · rw [level_negCond]
      exact hfirst.level_le
    · rw [hfirst.holds_iff v hv, Holds, eval_negCond, eval]
      cases neg <;> cases mask <;> simp
    · rw [paths_negCond, paths, length_pathsElem]
      exact hfirst.count_le

/-! ### The terminals reached -/

/-- On `Z` the reduction of the pointer reaches what the pointer reaches. -/
def ReachesIn (L : Library) (mask : Bool) (d : DdNode) : Prop :=
  ∀ (Z : Set (ℕ → ℝ)) (v : Valuation), v.clock ∈ Z →
    reach (v.assignment L) (reduceIn L mask d Z) = cddNegCond (reach (v.assignment L) d) mask

theorem reachElem_of_below {a : Assignment} {c : Cut INF} {e : DdNode × Raw}
    (es : List (DdNode × Raw)) (h : c.below e.2 = true) :
    reachElem a c (e :: es) = reach a e.1 := by
  rw [reachElem, h, cond_true]

theorem reachElem_of_not_below {a : Assignment} {c : Cut INF} {e : DdNode × Raw}
    (es : List (DdNode × Raw)) (h : c.below e.2 = false) :
    reachElem a c (e :: es) = reachElem a c es := by
  rw [reachElem, h, cond_false]

/-- The elements from the pending child `m` on partition the line and start with `m`, and above
its bound they reach what the later children reach. -/
private theorem reduceRestIn_reach (mask0 : Bool) {es : List (DdNode × Raw)}
    (hcalls : ∀ e ∈ es, ReachesIn L mask e.1) {m : DdNode} {low : Raw}
    (hpart : Partition INF ((m, low) :: es)) :
    Partition INF (reduceRestIn L mask mask0 level es low m Z) ∧
      (∃ s tl, reduceRestIn L mask mask0 level es low m Z = (cddNegCond m mask0, s) :: tl ∧
        low ≤ s) ∧
      ∀ v : Valuation, v.clock ∈ Z → ¬ Below (L.diff v.clock level) low →
        reachElem (v.assignment L) ((v.assignment L).diff level)
            (reduceRestIn L mask mask0 level es low m Z) =
          cddNegCond (reachElem (v.assignment L) ((v.assignment L).diff level) es)
            (mask ^^ mask0) := by
  induction es generalizing m low with
  | nil =>
    have hINF : low = INF := hpart
    rw [reduceRestIn]
    refine ⟨rfl, ⟨INF, [], rfl, le_of_eq hINF⟩, fun v _ hv ↦ absurd (hINF ▸ below_INF _) hv⟩
  | cons e es ih =>
    obtain ⟨child, bnd⟩ := e
    have hlb : low < bnd := hpart.1
    rw [reduceRestIn]
    by_cases hy : (L.above level low Z).Nonempty
    · rw [if_pos hy]
      set n := reduceIn L mask child (L.below level bnd (L.above level low Z))
      have hpart' : Partition INF ((n, bnd) :: es) := by
        cases es with
        | nil => exact hpart.2
        | cons e' es => exact hpart.2
      obtain ⟨hp, ⟨s, tl, hs, hle⟩, hreach⟩ :=
        ih (fun e he ↦ hcalls e (List.mem_cons_of_mem _ he)) hpart'
      -- either the interval of the child or the children after it
      have hrest (v : Valuation) (hv : v.clock ∈ Z) (hl : ¬ Below (L.diff v.clock level) low) :
          reachElem (v.assignment L) ((v.assignment L).diff level)
              (reduceRestIn L mask mask0 level es bnd n Z) =
            cddNegCond (reachElem (v.assignment L) ((v.assignment L).diff level)
              ((child, bnd) :: es)) (mask ^^ mask0) := by
        by_cases hb : Below (L.diff v.clock level) bnd
        · have hn : reach (v.assignment L) n = cddNegCond (reach (v.assignment L) child) mask :=
            hcalls (child, bnd) (List.mem_cons_self ..) _ v ⟨⟨hv, hl⟩, hb⟩
          rw [hs, reachElem_of_below tl (assignment_below.mpr (hb.mono hle)),
            reachElem_of_below es (assignment_below.mpr hb), reach_negCond, hn,
            cddNegCond_negCond]
        · rw [hreach v hv hb, reachElem_of_not_below es (assignment_not_below.mpr hb)]
      simp only
      by_cases hmn : m = n
      · rw [if_pos hmn]
        exact ⟨hp, ⟨s, tl, hmn ▸ hs, le_trans (le_of_lt hlb) hle⟩, hrest⟩
      · rw [if_neg hmn]
        refine ⟨?_, ⟨low, _, rfl, le_rfl⟩, fun v hv hl ↦ ?_⟩
        · rw [hs] at hp ⊢
          exact ⟨lt_of_lt_of_le hlb hle, hp⟩
        · rw [reachElem_of_not_below _ (assignment_not_below.mpr hl), hrest v hv hl]
    · rw [if_neg hy]
      exact ⟨rfl, ⟨INF, [], rfl, le_INF low⟩, fun v hv hl ↦ absurd ⟨v.clock, hv, hl⟩ hy⟩

private theorem reduceFirstIn_reach {es : List (DdNode × Raw)}
    (hcalls : ∀ e ∈ es, ReachesIn L mask e.1) (hpart : Partition INF es) {v : Valuation}
    (hv : v.clock ∈ Z) :
    reach (v.assignment L) (reduceFirstIn L mask level es Z) =
      cddNegCond (reachElem (v.assignment L) ((v.assignment L).diff level) es) mask := by
  induction es with
  | nil => exact absurd hpart id
  | cons e es ih =>
    obtain ⟨child, bnd⟩ := e
    have hhere := hcalls (child, bnd) (List.mem_cons_self ..)
    rw [reduceFirstIn]
    by_cases hbnd : bnd = INF
    · have hb : Below (L.diff v.clock level) bnd := hbnd ▸ below_INF _
      rw [if_pos hbnd, reachElem_of_below es (assignment_below.mpr hb)]
      exact hhere Z v hv
    · have hlt : bnd < INF := lt_of_le_of_ne (le_INF bnd) hbnd
      obtain ⟨e', es', hes, -, hpart'⟩ := hpart.tail_of_lt hlt
      rw [if_neg hbnd]
      by_cases hx : (L.below level bnd Z).Nonempty
      · rw [if_pos hx]
        simp only
        set m := reduceIn L mask child (L.below level bnd Z)
        have hpm : Partition INF ((m, bnd) :: es) := by
          rw [hes] at hpart ⊢
          exact hpart
        obtain ⟨hp, ⟨s, tl, hs, hle⟩, hreach⟩ := reduceRestIn_reach (Z := Z) (cddMask m)
          (fun e he ↦ hcalls e (List.mem_cons_of_mem _ he)) hpm
        obtain ⟨n, hn⟩ := exists_cddMakeCddNode level
          (reduceRestIn L mask (cddMask m) level es bnd m Z)
        rw [hn, Option.getD_some, reach_negCond, reach_cddMakeCddNode hp hn]
        by_cases hb : Below (L.diff v.clock level) bnd
        · have hm : reach (v.assignment L) m = cddNegCond (reach (v.assignment L) child) mask :=
            hhere _ v ⟨hv, hb⟩
          rw [hs, reachElem_of_below tl (assignment_below.mpr (hb.mono hle)),
            reachElem_of_below es (assignment_below.mpr hb), reach_negCond, hm,
            cddNegCond_negCond, Bool.xor_self, cddNegCond_false]
        · rw [hreach v hv hb, reachElem_of_not_below es (assignment_not_below.mpr hb),
            cddNegCond_negCond, Bool.xor_assoc, Bool.xor_self, Bool.xor_false]
      · rw [if_neg hx, ih (fun e he ↦ hcalls e (List.mem_cons_of_mem _ he)) hpart',
          reachElem_of_not_below es (assignment_not_below.mpr fun hb ↦ hx ⟨v.clock, hv, hb⟩)]

/-- The reduction of a loose diagram reaches what the diagram reaches, extra terminals
included. -/
theorem reach_reduceIn {xterms : ℕ} {d : DdNode} (h : L.Loose xterms d) (mask : Bool) :
    ReachesIn L mask d := by
  induction h generalizing mask with
  | terminal neg | xterm neg =>
    intro Z v _
    rw [reduceIn, reach, reach, cddNegCond]
  | @bdd neg level low high _ _ _ _ _ ihl ihh =>
    intro Z v hv
    rw [reduceIn, reach_cddMakeBddNode, ihl _ Z v hv, ihh _ Z v hv, reach, cddNegCond_negCond]
    cases (v.assignment L).bool level <;> rfl
  | @cdd neg level elem _ _ hp _ ih =>
    intro Z v hv
    rw [reduceIn, reduceFirstIn_reach (fun e he ↦ ih e he _) hp hv, reach, cddNegCond_negCond]

end

end UCDD

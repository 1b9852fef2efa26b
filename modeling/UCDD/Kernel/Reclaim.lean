import Mathlib.Algebra.BigOperators.Group.Finset.Piecewise
import UCDD.Kernel.References
import UCDD.Lib.GraphSearch

/-!
# Bringing nodes back from the dead

`cdd_reclaim` of `kernel.c:468–500` revives a dead node: it takes the references to the children
again, and revives those of them that are dead. A child of a CDD node is tested and then referenced,
one after the other; of a BDD node both children are tested first. A store that `cdd_rec_deref`
has changed is restored exactly when no BDD node leads the search to the same dead node twice.
-/

namespace UCDD

open Loop GraphSearch

/-- The loop of `cdd_reclaim` over the children of a CDD node. -/
def reclaimElem : Raw → List (NodePtr × Raw) → RefCounts → List NodePtr →
    RefCounts × List NodePtr
  | _, [], s, top => (s, top)
  | low, (child, bnd) :: it, s, top =>
    if low = INF then (s, top)
    else
      let top := if s.ref child.rglr = 0 then child :: top else top
      reclaimElem bnd it (cddRef s child.rglr) top

/-- One round of the loop of `cdd_reclaim`. -/
def cddReclaimBody (G : NodeStore) : RefCounts × List NodePtr → Run (RefCounts × List NodePtr)
  | (_, []) => .failed
  | (s, p :: top) =>
    let node := p.rglr
    let s := G.tally s node 1
    match (G.node node).body with
    | .terminal => .done (s, top)
    | .cdd elem => .done (reclaimElem (-INF) elem s top)
    | .bdd low high =>
      let top := if s.ref low.rglr = 0 then low :: top else top
      let top := if s.ref high.rglr = 0 then high :: top else top
      .done (cddRef (cddRef s low.rglr) high.rglr, top)

/-- `cdd_reclaim` with at most `fuel` rounds. -/
def cddReclaim (G : NodeStore) (fuel : ℕ) (s : RefCounts) (node : NodePtr) :
    Run (RefCounts × List NodePtr) :=
  iterate (fun t ↦ !t.2.isEmpty) (cddReclaimBody G) fuel (s, [node])

namespace NodeStore

variable (G : NodeStore)

/-- The counts below saturation and the counters are the same again. -/
structure Restores (s s' : RefCounts) : Prop where
  ref : ∀ c ∈ G.nodes, s.ref c < MAXREF → s'.ref c = s.ref c
  usedcnt : s'.usedcnt = s.usedcnt
  deadcnt : s'.deadcnt = s.deadcnt
  subDeadcnt : s'.subDeadcnt = s.subDeadcnt

/-- A BDD node whose two children lead to one node of `K` that is not marked. -/
def FreshTwin (K seen : Finset ℕ) (node : ℕ) : Prop :=
  ∃ low high, (G.node node).body = .bdd low high ∧ low.rglr = high.rglr ∧ low.rglr ∈ K ∧
    low.rglr ∉ seen

/-- The nodes of `K` that the search has marked when it has been at the nodes of `R`. -/
def marked (n : ℕ) (K : Finset ℕ) (R : Multiset ℕ) : Finset ℕ :=
  K.filter fun c ↦ c = n ∨ 0 < G.held R c

/-- The nodes of `K` have died with `n`, and others that they lead to have not. -/
structure Doomed (s : RefCounts) (n : ℕ) (K : Finset ℕ) : Prop where
  mem : n ∈ K
  ref_le : ∀ c, s.ref c ≤ MAXREF
  dead : ∀ c ∈ K, s.ref c = 0
  live : ∀ m ∈ K, ∀ c ∈ G.children m, c ∉ K → s.ref c ≠ 0
  first : ∀ m ∈ K, n ∉ G.children m
  parent : ∀ c ∈ K, c ≠ n → ∃ m ∈ K, c ∈ G.children m
  level_lt : ∀ m ∈ K, ∀ c ∈ G.children m, (G.node m).level < (G.node c).level

/-- The state of `cdd_reclaim` on `n` when the nodes of `R` have been revived. -/
structure Reviving (s : RefCounts) (n : ℕ) (K : Finset ℕ) (R : Multiset ℕ) (t : RefCounts)
    (T : List ℕ) : Prop where
  eq : t = G.revived s R
  mem_marked : ∀ c, c ∈ G.marked n K R ↔ c ∈ R ∨ c ∈ T

end NodeStore

/-! ### The children of one node -/

/-- The dead children of a CDD node are pushed, each once. -/
theorem reclaimElem_spec {K : Finset ℕ} (elem : List (NodePtr × Raw)) (low : Raw)
    (seen : Finset ℕ) (s : RefCounts) (top : List NodePtr) (hle : ∀ c, s.ref c ≤ MAXREF)
    (h : ∀ c ∈ (itChildren low elem).map NodePtr.rglr, (s.ref c = 0 ↔ c ∈ K ∧ c ∉ seen)) :
    ∃ P : List NodePtr, reclaimElem low elem s top =
        (((itChildren low elem).map NodePtr.rglr).foldl cddRef s, P ++ top) ∧
      P.map NodePtr.rglr = (unseen K seen ((itChildren low elem).map NodePtr.rglr)).reverse := by
  induction elem generalizing low seen s top with
  | nil => exact ⟨[], rfl, rfl⟩
  | cons e it ih =>
    obtain ⟨child, bnd⟩ := e
    rw [itChildren] at h ⊢
    rw [reclaimElem]
    by_cases hend : low = INF
    · simp only [if_pos hend]
      exact ⟨[], rfl, rfl⟩
    · simp only [if_neg hend] at h ⊢
      rw [List.map_cons] at h ⊢
      obtain ⟨hchild, hrest⟩ := List.forall_mem_cons.mp h
      have hle' := cddRef_ref_le hle child.rglr
      have hself : (cddRef s child.rglr).ref child.rglr ≠ 0 := by
        rw [cddRef_ref hle, if_pos rfl]
        have : MAXREF ≠ 0 := by decide
        omega
      have hother (c : ℕ) (hc : c ≠ child.rglr) : (cddRef s child.rglr).ref c = s.ref c := by
        rw [cddRef_ref hle, if_neg (Ne.symm hc)]
        exact min_eq_left (hle c)
      rw [unseen, List.foldl_cons]
      by_cases hzero : s.ref child.rglr = 0
      · obtain ⟨P, hP, hmap⟩ := ih bnd (insert child.rglr seen) (cddRef s child.rglr)
          (child :: top) hle' fun c hc ↦ by
            by_cases heq : c = child.rglr
            · subst heq
              simp [hself]
            · rw [hother c heq, hrest c hc]
              simp [heq]
        rw [if_pos hzero, if_pos (hchild.mp hzero), hP]
        refine ⟨P ++ [child], ?_, ?_⟩
        · rw [List.append_assoc]
          rfl
        · rw [List.map_append, hmap, List.reverse_cons]
          rfl
      · obtain ⟨P, hP, hmap⟩ := ih bnd seen (cddRef s child.rglr) top hle' fun c hc ↦ by
          by_cases heq : c = child.rglr
          · subst heq
            exact ⟨fun h ↦ absurd h hself, fun h ↦ absurd (hchild.mpr h) hzero⟩
          · rw [hother c heq, hrest c hc]
        rw [if_neg hzero, if_neg fun h ↦ hzero (hchild.mpr h), hP]
        exact ⟨P, rfl, hmap⟩

namespace NodeStore

variable {G : NodeStore} {s t : RefCounts} {n c m : ℕ} {K : Finset ℕ} {R : Multiset ℕ} {T : List ℕ}

theorem mem_marked_cons : c ∈ G.marked n K (m ::ₘ R) ↔
    c ∈ G.marked n K R ∨ (c ∈ K ∧ c ∈ G.children m) := by
  unfold marked
  rw [Finset.mem_filter, Finset.mem_filter, held_cons]
  have hcount : 0 < (G.children m).count c ↔ c ∈ G.children m := List.count_pos_iff
  constructor
  · intro h
    by_cases hc : c ∈ G.children m
    · exact Or.inr ⟨h.1, hc⟩
    · refine Or.inl ⟨h.1, h.2.imp_right ?_⟩
      intro hpos
      rw [List.count_eq_zero_of_not_mem hc] at hpos
      omega
  · intro h
    cases h with
    | inl h => exact ⟨h.1, h.2.imp_right fun h ↦ by omega⟩
    | inr h =>
      have := hcount.mpr h.2
      exact ⟨h.1, Or.inr (by omega)⟩

/-- A child has the count zero if it is to be revived and is not marked. -/
theorem Doomed.revived_ref_eq_zero (hd : G.Doomed s n K) (hm : m ∈ K) (hc : c ∈ G.children m) :
    (G.revived s R).ref c = 0 ↔ c ∈ K ∧ c ∉ G.marked n K R := by
  have hmax : 0 < MAXREF := by decide
  rw [revived_ref, marked, Finset.mem_filter]
  constructor
  · intro h
    have hK : c ∈ K := by
      by_contra hcK
      have := hd.live m hm c hc hcK
      omega
    refine ⟨hK, ?_⟩
    intro hmark
    cases hmark.2 with
    | inl heq => exact hd.first m hm (heq ▸ hc)
    | inr hpos => omega
  · intro h
    have hzero := hd.dead c h.1
    have : ¬ 0 < G.held R c := fun hpos ↦ h.2 ⟨h.1, Or.inr hpos⟩
    omega

theorem cddReclaimBody_terminal {p : NodePtr} {top : List NodePtr}
    (h : (G.node p.rglr).body = .terminal) :
    cddReclaimBody G (t, p :: top) = .done (G.tally t p.rglr 1, top) := by
  simp only [cddReclaimBody, h]

theorem cddReclaimBody_cdd {p : NodePtr} {top : List NodePtr} {elem : List (NodePtr × Raw)}
    (h : (G.node p.rglr).body = .cdd elem) :
    cddReclaimBody G (t, p :: top) =
      .done (reclaimElem (-INF) elem (G.tally t p.rglr 1) top) := by
  simp only [cddReclaimBody, h]

theorem cddReclaimBody_bdd {p low high : NodePtr} {top : List NodePtr}
    (h : (G.node p.rglr).body = .bdd low high) :
    cddReclaimBody G (t, p :: top) =
      .done ([low.rglr, high.rglr].foldl cddRef (G.tally t p.rglr 1),
        ((if t.ref high.rglr = 0 then [high] else []) ++
          if t.ref low.rglr = 0 then [low] else []) ++ top) := by
  simp only [cddReclaimBody, h, tally_ref, List.foldl_cons, List.foldl_nil]
  by_cases hl : t.ref low.rglr = 0 <;> by_cases hh : t.ref high.rglr = 0 <;> simp [hl, hh]

/-- The children of a BDD node that are pushed, against the search. -/
theorem map_twins {low high : NodePtr} {seen : Finset ℕ} (hbody : (G.node m).body = .bdd low high)
    (hzero : ∀ c ∈ [low.rglr, high.rglr], (t.ref c = 0 ↔ c ∈ K ∧ c ∉ seen)) {P : List ℕ}
    (hP : P = (if t.ref high.rglr = 0 then [high.rglr] else []) ++
      if t.ref low.rglr = 0 then [low.rglr] else []) :
    (∀ c, c ∈ P ↔ c ∈ [low.rglr, high.rglr] ∧ c ∈ K ∧ c ∉ seen) ∧
      (G.FreshTwin K seen m → ∃ c, P = [c, c]) ∧
      (¬ G.FreshTwin K seen m → P = (unseen K seen [low.rglr, high.rglr]).reverse) := by
  have hlow := hzero low.rglr (by simp)
  have hhigh := hzero high.rglr (by simp)
  refine ⟨fun c ↦ ?_, fun htwin ↦ ?_, fun htwin ↦ ?_⟩
  · rw [and_congr_right fun hc ↦ (hzero c hc).symm, hP, List.mem_append]
    constructor
    · intro h
      cases h with
      | inl h =>
        obtain ⟨hz, h⟩ : t.ref high.rglr = 0 ∧ c ∈ [high.rglr] := by
          split_ifs at h with hz
          · exact ⟨hz, h⟩
          · cases h
        rw [List.mem_singleton.mp h]
        exact ⟨by simp, hz⟩
      | inr h =>
        obtain ⟨hz, h⟩ : t.ref low.rglr = 0 ∧ c ∈ [low.rglr] := by
          split_ifs at h with hz
          · exact ⟨hz, h⟩
          · cases h
        rw [List.mem_singleton.mp h]
        exact ⟨by simp, hz⟩
    · intro h
      obtain ⟨hc, hcz⟩ := h
      have hc : c = low.rglr ∨ c = high.rglr := by simpa using hc
      cases hc with
      | inl heq =>
        rw [heq] at hcz ⊢
        rw [if_pos hcz]
        exact Or.inr List.mem_cons_self
      | inr heq =>
        rw [heq] at hcz ⊢
        rw [if_pos hcz]
        exact Or.inl List.mem_cons_self
  · obtain ⟨low', high', hbody', heq, hfresh⟩ := htwin
    rw [hbody] at hbody'
    cases hbody'
    have hzlow := hlow.mpr hfresh
    have hzhigh : t.ref high.rglr = 0 := heq ▸ hzlow
    rw [hP, if_pos hzlow, if_pos hzhigh, heq]
    exact ⟨high.rglr, rfl⟩
  · rw [hP, unseen]
    by_cases hl : t.ref low.rglr = 0
    · have hfresh := hlow.mp hl
      have hne : high.rglr ≠ low.rglr := fun heq ↦ htwin ⟨low, high, hbody, heq.symm, hfresh⟩
      have hiff : (high.rglr ∈ K ∧ high.rglr ∉ insert low.rglr seen) ↔ t.ref high.rglr = 0 := by
        rw [hhigh, Finset.mem_insert, not_or]
        simp [hne]
      rw [if_pos hl, if_pos hfresh, unseen]
      simp only [hiff, unseen]
      split_ifs <;> rfl
    · rw [if_neg hl, if_neg fun h ↦ hl (hlow.mpr h), unseen]
      simp only [← hhigh, unseen]
      split_ifs <;> rfl

/-- One round on the node `m`: it is revived, and its unmarked children are pushed, in the order of
the search unless they are one node. -/
theorem Doomed.cddReclaimBody_eq (hd : G.Doomed s n K) {p : NodePtr} (hm : p.rglr ∈ K)
    (top : List NodePtr) :
    ∃ P : List NodePtr, cddReclaimBody G (G.revived s R, p :: top) =
        .done (G.revived s (p.rglr ::ₘ R), P ++ top) ∧
      (∀ c, c ∈ P.map NodePtr.rglr ↔
        c ∈ G.children p.rglr ∧ c ∈ K ∧ c ∉ G.marked n K R) ∧
      (G.FreshTwin K (G.marked n K R) p.rglr → ∃ c, P.map NodePtr.rglr = [c, c]) ∧
      (¬ G.FreshTwin K (G.marked n K R) p.rglr → P.map NodePtr.rglr =
        (unseen K (G.marked n K R) (G.children p.rglr)).reverse) := by
  have hrevived := G.revived_cons (s := s) (R := R) (m := p.rglr)
  have hzero (c : ℕ) (hc : c ∈ G.children p.rglr) := hd.revived_ref_eq_zero (R := R) hm hc
  cases hbody : (G.node p.rglr).body with
  | terminal =>
    have hchildren : G.children p.rglr = [] := by rw [children, hbody]
    rw [hchildren] at hrevived ⊢
    rw [cddReclaimBody_terminal hbody, ← hrevived]
    refine ⟨[], rfl, by simp, ?_, fun _ ↦ rfl⟩
    intro htwin
    obtain ⟨low, high, hbdd, -⟩ := htwin
    rw [hbody] at hbdd
    cases hbdd
  | cdd elem =>
    have hchildren : G.children p.rglr = (itChildren (-INF) elem).map NodePtr.rglr := by
      rw [children, hbody]
    rw [hchildren] at hrevived hzero ⊢
    obtain ⟨P, hP, hmap⟩ := reclaimElem_spec elem (-INF) (G.marked n K R)
      (G.tally (G.revived s R) p.rglr 1) top (fun c ↦ min_le_right _ _) hzero
    rw [cddReclaimBody_cdd hbody, hP, hrevived]
    refine ⟨P, rfl, ?_, ?_, fun _ ↦ hmap⟩
    · intro c
      rw [hmap, List.mem_reverse, mem_unseen]
    · intro htwin
      obtain ⟨low, high, hbdd, -⟩ := htwin
      rw [hbody] at hbdd
      cases hbdd
  | bdd low high =>
    have hchildren : G.children p.rglr = [low.rglr, high.rglr] := by rw [children, hbody]
    rw [hchildren] at hrevived hzero ⊢
    rw [cddReclaimBody_bdd hbody, hrevived]
    refine ⟨_, rfl, map_twins hbody hzero ?_⟩
    rw [List.map_append]
    split_ifs <;> rfl

/-- One round keeps the invariant. -/
theorem Reviving.step (hd : G.Doomed s n K) {p : NodePtr} {top : List NodePtr}
    (h : G.Reviving s n K R t (p.rglr :: top.map NodePtr.rglr)) :
    ∃ P : List NodePtr, cddReclaimBody G (t, p :: top) =
        .done (G.revived s (p.rglr ::ₘ R), P ++ top) ∧
      G.Reviving s n K (p.rglr ::ₘ R) (G.revived s (p.rglr ::ₘ R))
        ((P ++ top).map NodePtr.rglr) ∧
      (∀ c, c ∈ P.map NodePtr.rglr ↔
        c ∈ G.children p.rglr ∧ c ∈ K ∧ c ∉ G.marked n K R) ∧
      (G.FreshTwin K (G.marked n K R) p.rglr → ∃ c, P.map NodePtr.rglr = [c, c]) ∧
      (¬ G.FreshTwin K (G.marked n K R) p.rglr → P.map NodePtr.rglr =
        (unseen K (G.marked n K R) (G.children p.rglr)).reverse) := by
  have hmem := (h.mem_marked p.rglr).mpr (Or.inr List.mem_cons_self)
  have hm : p.rglr ∈ K := (Finset.mem_filter.mp hmem).1
  obtain ⟨P, hbody, hP, htwin, hsearch⟩ := hd.cddReclaimBody_eq (R := R) hm top
  refine ⟨P, h.eq ▸ hbody, ⟨rfl, fun c ↦ ?_⟩, hP, htwin, hsearch⟩
  rw [mem_marked_cons, Multiset.mem_cons, List.map_append, List.mem_append, hP]
  have hc := h.mem_marked c
  rw [List.mem_cons] at hc
  tauto

theorem Reviving.start (hd : G.Doomed s n K) : G.Reviving s n K 0 s [n] where
  eq := (revived_zero hd.ref_le).symm
  mem_marked c := by
    unfold marked
    rw [Finset.mem_filter, held_zero, List.mem_singleton]
    constructor
    · intro h
      exact Or.inr (h.2.resolve_right (lt_irrefl 0))
    · intro h
      have heq : c = n := h.resolve_left (Multiset.notMem_zero c)
      exact ⟨heq ▸ hd.mem, Or.inl heq⟩

/-- What the loop has left to do: a node can be pushed twice. -/
def unrevived (n : ℕ) (K : Finset ℕ) (t : RefCounts × List NodePtr) : ℕ :=
  2 * (K.filter fun c ↦ c ≠ n ∧ t.1.ref c = 0).card + t.2.length

theorem Reviving.filter_zero (hd : G.Doomed s n K) (h : G.Reviving s n K R t T) :
    (K.filter fun c ↦ c ≠ n ∧ t.ref c = 0) = K \ G.marked n K R := by
  have hmax : 0 < MAXREF := by decide
  ext c
  rw [Finset.mem_filter, Finset.mem_sdiff, marked, Finset.mem_filter, h.eq, revived_ref]
  apply and_congr_right
  intro hc
  rw [hd.dead c hc, zero_add, not_and, not_or]
  constructor
  · intro h _
    exact ⟨h.1, by omega⟩
  · intro h
    have := h hc
    exact ⟨this.1, by omega⟩

/-- One round leaves less to do. -/
theorem Reviving.unrevived_lt (hd : G.Doomed s n K) {p : NodePtr} {top : List NodePtr}
    (h : G.Reviving s n K R t (p.rglr :: top.map NodePtr.rglr)) :
    ∃ t', cddReclaimBody G (t, p :: top) = .done t' ∧
      unrevived n K t' < unrevived n K (t, p :: top) := by
  obtain ⟨P, hbody, hnext, hP, htwin, hsearch⟩ := h.step hd
  refine ⟨_, hbody, ?_⟩
  have hcard : P.length ≤ 2 * (P.map NodePtr.rglr).toFinset.card := by
    rw [← List.length_map (f := NodePtr.rglr)]
    by_cases hft : G.FreshTwin K (G.marked n K R) p.rglr
    · obtain ⟨c, hc⟩ := htwin hft
      rw [hc]
      simp
    · have hnodup : (P.map NodePtr.rglr).Nodup := by
        rw [hsearch hft]
        exact List.nodup_reverse.mpr nodup_unseen
      rw [List.toFinset_card_of_nodup hnodup]
      omega
  have hdiff : K \ G.marked n K (p.rglr ::ₘ R) =
      (K \ G.marked n K R) \ (P.map NodePtr.rglr).toFinset := by
    ext c
    rw [Finset.mem_sdiff, Finset.mem_sdiff, Finset.mem_sdiff, List.mem_toFinset, hP,
      mem_marked_cons]
    tauto
  have hsub : (P.map NodePtr.rglr).toFinset ⊆ K \ G.marked n K R := by
    intro c hc
    rw [List.mem_toFinset, hP] at hc
    exact Finset.mem_sdiff.mpr hc.2
  have hle := Finset.card_le_card hsub
  unfold unrevived
  simp only [hnext.filter_zero hd, h.filter_zero hd, hdiff, Finset.card_sdiff_of_subset hsub,
    List.length_append, List.length_cons]
  omega

/-- At the end the nodes that died have been revived. -/
theorem Reviving.mem_iff (hd : G.Doomed s n K) (h : G.Reviving s n K R t []) :
    ∀ c, c ∈ R ↔ c ∈ K := by
  have hiff (c : ℕ) : c ∈ G.marked n K R ↔ c ∈ R := by simpa using h.mem_marked c
  have hmem : ∀ c ∈ R, c ∈ K := fun c hc ↦ (Finset.mem_filter.mp ((hiff c).mpr hc)).1
  have hrevived (l : ℕ) : ∀ c ∈ K, (G.node c).level = l → c ∈ R := by
    induction l using Nat.strongRecOn with
    | _ l ih =>
      intro c hc hl
      rw [← hiff, marked, Finset.mem_filter]
      by_cases heq : c = n
      · exact ⟨hc, Or.inl heq⟩
      · obtain ⟨m, hm, hcm⟩ := hd.parent c hc heq
        have hlt := hd.level_lt m hm c hcm
        exact ⟨hc, Or.inr (held_pos.mpr ⟨m, ih _ (hl ▸ hlt) m hm rfl, hcm⟩)⟩
  exact fun c ↦ ⟨hmem c, fun hc ↦ hrevived _ c hc rfl⟩

/-! ### The whole run -/

/-- A state of the run in which some node has been pushed twice. -/
def Twice (G : NodeStore) (s : RefCounts) (n : ℕ) (K : Finset ℕ)
    (t : RefCounts × List NodePtr) : Prop :=
  ∃ R, G.Reviving s n K R t.1 (t.2.map NodePtr.rglr) ∧
    ¬ (R + (t.2.map NodePtr.rglr : Multiset ℕ)).Nodup

/-- A state of the run that the search has as well. -/
def Follows (G : NodeStore) (s : RefCounts) (n : ℕ) (K : Finset ℕ)
    (t : RefCounts × List NodePtr) : Prop :=
  ∃ R, G.Reviving s n K R t.1 (t.2.map NodePtr.rglr) ∧
    (R + (t.2.map NodePtr.rglr : Multiset ℕ)).Nodup ∧
    Searched G.children K n (t.2.map NodePtr.rglr) (G.marked n K R)

theorem push_eq {p : NodePtr} {P top : List NodePtr} :
    (p.rglr ::ₘ R) + ((P ++ top).map NodePtr.rglr : Multiset ℕ) =
      R + ((p :: top).map NodePtr.rglr : Multiset ℕ) + (P.map NodePtr.rglr : Multiset ℕ) := by
  rw [List.map_append, ← Multiset.coe_add, List.map_cons, ← Multiset.cons_coe,
    Multiset.add_cons, Multiset.cons_add, Multiset.cons_add, add_assoc,
    add_comm (P.map NodePtr.rglr : Multiset ℕ)]

/-- A node that has been pushed twice stays so. -/
theorem Twice.step (hd : G.Doomed s n K) {p : NodePtr} {top : List NodePtr}
    (h : Twice G s n K (t, p :: top)) :
    ∃ t', cddReclaimBody G (t, p :: top) = .done t' ∧ Twice G s n K t' := by
  obtain ⟨R, hrev, hdup⟩ := h
  obtain ⟨P, hbody, hnext, -⟩ := hrev.step hd
  refine ⟨_, hbody, _, hnext, ?_⟩
  intro hnodup
  apply hdup
  apply Multiset.nodup_of_le _ hnodup
  rw [push_eq]
  exact Multiset.le_add_right _ _

/-- One round of a run that the search follows. -/
theorem Follows.step (hd : G.Doomed s n K) {p : NodePtr} {top : List NodePtr}
    (h : Follows G s n K (t, p :: top))
    (htwin : ∀ m T seen, Searched G.children K n (m :: T) seen → ¬ G.FreshTwin K seen m) :
    ∃ t', cddReclaimBody G (t, p :: top) = .done t' ∧ Follows G s n K t' := by
  obtain ⟨R, hrev, hnodup, hsearched⟩ := h
  have hlone := htwin _ _ _ hsearched
  obtain ⟨P, hbody, hnext, hP, -, hsearch⟩ := hrev.step hd
  have hmap := hsearch hlone
  refine ⟨_, hbody, _, hnext, ?_, ?_⟩
  · rw [push_eq, Multiset.nodup_add]
    refine ⟨hnodup, ?_, ?_⟩
    · rw [hmap]
      exact List.nodup_reverse.mpr nodup_unseen
    · rw [Multiset.disjoint_left]
      intro c hold hnew
      exact ((hP c).mp hnew).2.2 ((hrev.mem_marked c).mpr (Multiset.mem_add.mp hold))
  · have hmarked : G.marked n K (p.rglr ::ₘ R) = G.marked n K R ∪
        (unseen K (G.marked n K R) (G.children p.rglr)).toFinset := by
      ext c
      rw [mem_marked_cons, Finset.mem_union, List.mem_toFinset, mem_unseen]
      tauto
    have hvisit := Searched.visit hsearched
    rw [← hmarked, ← hmap, ← List.map_append] at hvisit
    exact hvisit

/-- The run has every state of the search, until it has pushed a node twice. -/
theorem Searched.visits (hd : G.Doomed s n K) {p : NodePtr} (hp : p.rglr = n) {seen : Finset ℕ}
    (h : Searched G.children K n T seen) :
    ∃ t, Visits (fun t ↦ !t.2.isEmpty) (cddReclaimBody G) (s, [p]) t ∧
      (Twice G s n K t ∨ ∃ R, G.Reviving s n K R t.1 (t.2.map NodePtr.rglr) ∧
        t.2.map NodePtr.rglr = T ∧ G.marked n K R = seen) := by
  induction h with
  | start =>
    refine ⟨_, Visits.start, Or.inr ⟨0, hp ▸ Reviving.start (hp ▸ hd), by rw [← hp]; rfl, ?_⟩⟩
    ext c
    rw [(Reviving.start hd).mem_marked, Finset.mem_singleton, List.mem_singleton]
    simp
  | @visit node top seen _ ih =>
    obtain ⟨⟨t, stack⟩, hvisits, hcases⟩ := ih
    cases hcases with
    | inl htwice => exact ⟨_, hvisits, Or.inl htwice⟩
    | inr hrev =>
      obtain ⟨R, hrev, hstack, hmarked⟩ := hrev
      cases stack with
      | nil => cases hstack
      | cons q stack =>
        obtain ⟨hq, htop⟩ := List.cons.inj hstack
        obtain ⟨P, hbody, hnext, hP, htwin, hsearch⟩ := Reviving.step hd hrev
        refine ⟨_, hvisits.step rfl hbody, ?_⟩
        by_cases hft : G.FreshTwin K (G.marked n K R) q.rglr
        · left
          obtain ⟨c, hc⟩ := htwin hft
          refine ⟨_, hnext, ?_⟩
          intro hnodup
          rw [push_eq, Multiset.nodup_add, hc] at hnodup
          simpa using hnodup.2.1
        · right
          refine ⟨_, hnext, ?_, ?_⟩
          · rw [List.map_append, hsearch hft, hmarked, hq]
            exact congrArg _ htop
          · ext c
            rw [mem_marked_cons, Finset.mem_union, List.mem_toFinset, mem_unseen, hmarked, hq]
            tauto

/-- Where the search meets two children that are one node, the run pushes it twice. -/
theorem exists_visits_twice (hd : G.Doomed s n K) {p : NodePtr} (hp : p.rglr = n) {m : ℕ}
    {top : List ℕ} {seen : Finset ℕ} (h : Searched G.children K n (m :: top) seen)
    (hft : G.FreshTwin K seen m) :
    ∃ t, Visits (fun t ↦ !t.2.isEmpty) (cddReclaimBody G) (s, [p]) t ∧ Twice G s n K t := by
  obtain ⟨⟨t, stack⟩, hvisits, hcases⟩ := Searched.visits hd hp h
  cases hcases with
  | inl htwice => exact ⟨_, hvisits, htwice⟩
  | inr hrev =>
    obtain ⟨R, hrev, hstack, hmarked⟩ := hrev
    cases stack with
    | nil => cases hstack
    | cons q stack =>
      obtain ⟨hq, -⟩ := List.cons.inj hstack
      obtain ⟨P, hbody, hnext, -, htwin, -⟩ := Reviving.step hd hrev
      obtain ⟨c, hc⟩ := htwin (by rwa [hmarked, hq])
      refine ⟨_, hvisits.step rfl hbody, _, hnext, ?_⟩
      intro hnodup
      rw [push_eq, Multiset.nodup_add, hc] at hnodup
      simpa using hnodup.2.1

/-- `cdd_reclaim` ends. -/
theorem exists_cddReclaim_done (hd : G.Doomed s n K) {p : NodePtr} (hp : p.rglr = n) :
    ∃ fuel t, cddReclaim G fuel s p = .done (t, []) := by
  have hstep : ∀ t : RefCounts × List NodePtr,
      (∃ R, G.Reviving s n K R t.1 (t.2.map NodePtr.rglr)) → (!t.2.isEmpty) = true →
      ∃ t', cddReclaimBody G t = .done t' ∧
        (∃ R, G.Reviving s n K R t'.1 (t'.2.map NodePtr.rglr)) ∧
        unrevived n K t' < unrevived n K t := by
    intro t h hg
    obtain ⟨t, top⟩ := t
    obtain ⟨R, h⟩ := h
    cases top with
    | nil => cases hg
    | cons q top =>
      obtain ⟨t', hbody, hlt⟩ := h.unrevived_lt hd
      obtain ⟨P, hbody', hnext, -⟩ := h.step hd
      rw [hbody] at hbody'
      cases hbody'
      exact ⟨_, hbody, ⟨_, hnext⟩, hlt⟩
  have hfirst : G.Reviving s n K 0 s ([p].map NodePtr.rglr) := hp ▸ Reviving.start (hp ▸ hd)
  obtain ⟨fuel, ⟨t, top⟩, hrun, -, hguard⟩ :=
    exists_iterate_done_inv _ (unrevived n K) hstep (s := (s, [p])) ⟨0, hfirst⟩
  cases top with
  | nil => exact ⟨fuel, t, hrun⟩
  | cons q top => cases hguard

/-- `cdd_reclaim` revives the nodes that died, and each of them once exactly when the search does
not meet two children that are one node. -/
theorem exists_cddReclaim_revived (hd : G.Doomed s n K) {p : NodePtr} (hp : p.rglr = n) :
    ∃ fuel R, cddReclaim G fuel s p = .done (G.revived s R, []) ∧ (∀ c, c ∈ R ↔ c ∈ K) ∧
      (R.Nodup ↔
        ∀ m top seen, Searched G.children K n (m :: top) seen → ¬ G.FreshTwin K seen m) := by
  obtain ⟨fuel, t, hrun⟩ := exists_cddReclaim_done hd hp
  by_cases htwin :
      ∀ m top seen, Searched G.children K n (m :: top) seen → ¬ G.FreshTwin K seen m
  · have hsafe : Run.Safe (fun t ↦ Follows G s n K t ∧ (!t.2.isEmpty) = false)
        (cddReclaim G fuel s p) := by
      apply iterate_safe (Follows G s n K)
      · intro t h hg
        obtain ⟨t, top⟩ := t
        cases top with
        | nil => cases hg
        | cons q top =>
          obtain ⟨t', hbody, hnext⟩ := h.step hd htwin
          rw [hbody]
          exact hnext
      · subst hp
        refine ⟨0, Reviving.start hd, ?_, ?_⟩
        · simp
        · have hmarked : G.marked p.rglr K 0 = {p.rglr} := by
            ext c
            rw [(Reviving.start hd).mem_marked]
            simp
          rw [hmarked]
          exact Searched.start
    rw [hrun] at hsafe
    obtain ⟨⟨R, hrev, hnodup, -⟩, -⟩ := hsafe
    have heq : t = G.revived s R := hrev.eq
    refine ⟨fuel, R, heq ▸ hrun, hrev.mem_iff hd, iff_of_true ?_ htwin⟩
    simpa using hnodup
  · push Not at htwin
    obtain ⟨m, top, seen, hsearched, hft⟩ := htwin
    obtain ⟨u, hvisits, htwice⟩ := exists_visits_twice hd hp hsearched hft
    obtain ⟨fuel', hrun'⟩ := hvisits.iterate_done hrun
    have hsafe : Run.Safe (fun t ↦ Twice G s n K t ∧ (!t.2.isEmpty) = false)
        (iterate (fun t ↦ !t.2.isEmpty) (cddReclaimBody G) fuel' u) := by
      apply iterate_safe (Twice G s n K) _ _ htwice
      intro t h hg
      obtain ⟨t, top⟩ := t
      cases top with
      | nil => cases hg
      | cons q top =>
        obtain ⟨t', hbody, hnext⟩ := h.step hd
        rw [hbody]
        exact hnext
    rw [hrun'] at hsafe
    obtain ⟨⟨R, hrev, hdup⟩, -⟩ := hsafe
    have heq : t = G.revived s R := hrev.eq
    refine ⟨fuel, R, heq ▸ hrun, hrev.mem_iff hd, iff_of_false ?_ ?_⟩
    · simpa using hdup
    · push Not
      exact ⟨m, top, seen, hsearched, hft⟩

/-! ### After a release -/

/-- The nodes that die with `n` are determined. -/
theorem Dying.unique (hs : G.Exact s) {K' : Finset ℕ} (h : G.Dying s n K) (h' : G.Dying s n K') :
    K = K' := by
  have hheld (c : ℕ) (K : Finset ℕ) (h : K ⊆ G.nodes) :
      G.held K.val c = ∑ m ∈ G.nodes, if m ∈ K then (G.children m).count c else 0 := by
    rw [Finset.sum_ite_mem, Finset.inter_eq_right.mpr h]
    rfl
  have hmem (l : ℕ) : ∀ c ∈ G.nodes, (G.node c).level = l → (c ∈ K ↔ c ∈ K') := by
    induction l using Nat.strongRecOn with
    | _ l ih =>
      intro c hc hl
      have hsum : G.held K.val c = G.held K'.val c := by
        rw [hheld c K h.subset, hheld c K' h'.subset]
        apply Finset.sum_congr rfl
        intro m hm
        by_cases hcm : c ∈ G.children m
        · have hlt := hs.level_lt m hm c hcm
          have hiff := ih _ (hl ▸ hlt) m hm rfl
          simp only [hiff]
        · simp [List.count_eq_zero_of_not_mem hcm]
      rw [h.mem_iff, h'.mem_iff, hsum]
  ext c
  constructor
  · intro hc
    exact (hmem _ c (h.subset hc) rfl).mp hc
  · intro hc
    exact (hmem _ c (h'.subset hc) rfl).mpr hc

/-- After the release, the dead nodes are ready to be revived. -/
theorem Released.doomed (hs : G.Exact s) (hn : n ∈ G.nodes) (h1 : s.ref n = 1)
    (h : Released G s n K t []) : G.Doomed t n K := by
  have hdying := h.dying hs hn h1
  constructor
  · exact (hdying.mem_iff n).mpr (Or.inl rfl)
  · exact fun c ↦ le_trans (h.ref_le c) (hs.ref_le c)
  · exact fun c hc ↦ ((h.dead c).mp hc).2
  · intro m hm c hc hcK hzero
    apply hcK
    rw [h.dead]
    refine ⟨?_, hzero⟩
    have hnode := hdying.subset hm
    by_cases hsat : s.ref c = MAXREF
    · rw [hsat]
      decide
    · obtain ⟨others, hcounted⟩ := hs.counted
      have hlive : m ∈ (G.nodes.filter fun m ↦ 0 < s.ref m).val :=
        Finset.mem_filter.mpr ⟨hnode, ((h.dead m).mp hm).1⟩
      have hpos := held_pos.mpr ⟨m, hlive, hc⟩
      have := hcounted c (hs.closed m hnode c hc) (lt_of_le_of_ne (hs.ref_le c) hsat)
      omega
  · intro m hm hc
    have hpos := held_pos.mpr ⟨m, hm, hc⟩
    rw [h.held_self hs] at hpos
    exact lt_irrefl 0 hpos
  · intro c hc hne
    obtain ⟨hpos, -, hheld⟩ := ((hdying.mem_iff c).mp hc).resolve_left hne
    rw [hheld] at hpos
    exact held_pos.mp hpos
  · exact fun m hm ↦ hs.level_lt m (hdying.subset hm)

/-- The counts are back when each dead node was revived once. -/
theorem Released.restores_iff (h : Released G s n K t [])
    (hR : ∀ c, c ∈ R ↔ c ∈ K) : G.Restores s (cddRef (G.revived t R) n) ↔ R.Nodup := by
  have hle : K.val ≤ R := by
    rw [Multiset.le_iff_subset K.nodup]
    exact fun c hc ↦ (hR c).mpr hc
  obtain ⟨E, hE⟩ := Multiset.le_iff_exists_add.mp hle
  constructor
  · intro hrestores
    have hzero : E = 0 := by
      apply Multiset.eq_zero_of_forall_notMem
      intro c hc
      have hused := (congrFun hrestores.usedcnt (G.node c).man).trans
        (h.usedcnt (G.node c).man).symm
      have hcount : 0 < E.countP fun m ↦ (G.node m).man = (G.node c).man :=
        Multiset.countP_pos.mpr ⟨c, hc, rfl⟩
      rw [revived_usedcnt] at hused
      have hused : t.usedcnt _ + (R.countP fun m ↦ (G.node m).man = (G.node c).man : ℕ) =
        t.usedcnt _ + (K.val.countP fun m ↦ (G.node m).man = (G.node c).man : ℕ) := hused
      rw [hE, Multiset.countP_add] at hused
      omega
    rw [hE, hzero, add_zero]
    exact K.nodup
  · intro hnodup
    have heq : R = K.val := (Multiset.Nodup.ext hnodup K.nodup).mpr hR
    subst heq
    constructor
    · intro c _ hc
      have hcounted := h.counted c hc
      rw [cddRef_ref fun c ↦ min_le_right _ _, revived_ref]
      simp only [List.count_nil, eq_comm (a := c)] at hcounted
      split_ifs at hcounted ⊢ <;> omega
    · exact funext h.usedcnt
    · exact funext h.deadcnt
    · exact funext fun k ↦ funext (h.subDeadcnt k)

/-- `cdd_rec_deref(n)`, `cdd_reclaim(n)` and `cdd_ref(n)` in turn. -/
def Revives (G : NodeStore) (s : RefCounts) (n : NodePtr) (s' : RefCounts) : Prop :=
  ∃ fuel fuel' s₁ s₂, cddRecDeref G fuel s n = .done (s₁, []) ∧
    cddReclaim G fuel' s₁ n = .done (s₂, []) ∧ s' = cddRef s₂ n.rglr

end NodeStore

open NodeStore in
/-- A release that is taken back at once. -/
theorem cddReclaim_restores (G : NodeStore) (s : RefCounts) (hs : G.Exact s) (n : NodePtr)
    (hn : n.rglr ∈ G.nodes) (h1 : s.ref n.rglr = 1) :
    ∃ K, (∀ K', G.Dying s n.rglr K' ↔ K' = K) ∧ (∃ s', Revives G s n s') ∧
      ∀ s', Revives G s n s' → (G.Restores s s' ↔
        ∀ m top seen, Searched G.children K n.rglr (m :: top) seen → ¬ G.FreshTwin K seen m) := by
  obtain ⟨fuel, t, K, hderef, hrel⟩ := cddRecDeref_released hs hn h1
  have hdying := hrel.dying hs hn h1
  obtain ⟨fuel', R, hreclaim, hR, hiff⟩ :=
    exists_cddReclaim_revived (hrel.doomed hs hn h1) (p := n) rfl
  refine ⟨K, fun K' ↦ ⟨fun h ↦ h.unique hs hdying, fun h ↦ h ▸ hdying⟩,
    ⟨_, fuel, fuel', t, _, hderef, hreclaim, rfl⟩, ?_⟩
  intro s' hs'
  obtain ⟨m, m', s₁, s₂, hderef', hreclaim', rfl⟩ := hs'
  cases iterate_done_unique hderef hderef'
  cases iterate_done_unique hreclaim hreclaim'
  rw [hrel.restores_iff hR, hiff]

/-- The exclusive or of two Boolean variables, at address 1: both pointers lead to the variable at
address 2. The terminal is at address 0. -/
def xorStore : NodeStore where
  nodes := {0, 1, 2}
  node
    | 1 => ⟨0, 0, .bdd ⟨2, false⟩ ⟨2, true⟩⟩
    | 2 => ⟨0, 1, .bdd ⟨0, false⟩ ⟨0, true⟩⟩
    | _ => ⟨0, 2, .terminal⟩

/-- The counts when the caller holds the exclusive or. -/
def xorCounts : RefCounts where
  ref
    | 0 => MAXREF
    | 1 => 1
    | 2 => 2
    | _ => 0
  usedcnt _ := 2
  deadcnt _ := 0
  subDeadcnt _ _ := 0

theorem exact_xorStore : xorStore.Exact xorCounts where
  closed := by decide
  level_lt := by decide
  ref_le
    | 0 => le_refl _
    | 1 => by decide
    | 2 => by decide
    | n + 3 => Nat.zero_le _
  counted := ⟨fun c ↦ if c = 1 then 1 else 0, by decide⟩

open NodeStore in
/-- The variable is revived twice. -/
theorem cddReclaim_twin :
    xorStore.Exact xorCounts ∧ 1 ∈ xorStore.nodes ∧ xorCounts.ref 1 = 1 ∧
      ∃ s', Revives xorStore xorCounts ⟨1, false⟩ s' ∧ ¬ xorStore.Restores xorCounts s' := by
  refine ⟨exact_xorStore, by decide, rfl, _, ⟨6, 4, _, _, rfl, rfl, rfl⟩, ?_⟩
  intro h
  have hused := congrFun h.usedcnt 0
  revert hused
  decide

open NodeStore in
/-- At the exclusive or. -/
theorem cddReclaim_restores_sample :
    ∃ K, (∀ K', xorStore.Dying xorCounts 1 K' ↔ K' = K) ∧
      (∃ s', Revives xorStore xorCounts ⟨1, true⟩ s') ∧
      ∀ s', Revives xorStore xorCounts ⟨1, true⟩ s' → (xorStore.Restores xorCounts s' ↔
        ∀ m top seen, Searched xorStore.children K 1 (m :: top) seen →
          ¬ xorStore.FreshTwin K seen m) :=
  cddReclaim_restores xorStore xorCounts exact_xorStore ⟨1, true⟩ (by decide) rfl

end UCDD

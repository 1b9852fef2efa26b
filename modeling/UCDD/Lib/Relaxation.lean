import Mathlib.Algebra.Order.Group.Defs
import Mathlib.Data.Finset.Max
import Mathlib.Tactic.Abel
import UCDD.Lib.ConstraintGraph

/-!
# Relaxation in passes

The label-correcting search that scans a list of edges over and over. Against a potential all
weights are nonnegative, and each pass settles one more vertex: the one with the least label
among those not settled yet keeps it, and after the pass its edges lower nothing. As many passes
as there are vertices find a potential, from any labels to start with.
-/

namespace ConstraintGraph

variable {V M : Type*} [DecidableEq V] [AddCommGroup M] [LinearOrder M]

/-- Lower the label of the target of an edge where the edge asks for it. -/
def relax (d : V → M) (e : V × V × M) : V → M :=
  if d e.1 + e.2.2 < d e.2.1 then Function.update d e.2.1 (d e.1 + e.2.2) else d

/-- One pass over the edges. -/
def pass (es : List (V × V × M)) (d : V → M) : V → M := es.foldl relax d

/-- The edges of a list. -/
def ListEdge (es : List (V × V × M)) (u v : V) (w : M) : Prop := (u, v, w) ∈ es

variable {es : List (V × V × M)} {d p : V → M} {e : V × V × M} {v : V}

theorem relax_of_le (h : d e.2.1 ≤ d e.1 + e.2.2) : relax d e = d := if_neg (not_lt.mpr h)

theorem relax_of_lt (h : d e.1 + e.2.2 < d e.2.1) :
    relax d e = Function.update d e.2.1 (d e.1 + e.2.2) := if_pos h

theorem relax_le (d : V → M) (e : V × V × M) (x : V) : relax d e x ≤ d x := by
  rcases le_or_gt (d e.2.1) (d e.1 + e.2.2) with h | h
  · rw [relax_of_le h]
  · rw [relax_of_lt h]
    by_cases hx : x = e.2.1
    · subst hx
      rw [Function.update_self]
      exact le_of_lt h
    · rw [Function.update_of_ne hx]

/-- A pass leaves a potential as it is. -/
theorem pass_of_potential (h : Potential (ListEdge es) d) : pass es d = d := by
  suffices ∀ fs ⊆ es, fs.foldl relax d = d from this es (List.Subset.refl es)
  intro fs
  induction fs with
  | nil => exact fun _ ↦ rfl
  | cons f fs ih =>
    intro hsub
    rw [List.foldl_cons, relax_of_le (h f.1 f.2.1 f.2.2 (hsub (List.mem_cons_self ..)))]
    exact ih fun x hx ↦ hsub (List.mem_cons_of_mem _ hx)

variable {vs S : Finset V}

/-- The vertices of `S` have the least labels against the potential `p`, and their edges lower
nothing. -/
structure Settled (es : List (V × V × M)) (vs : Finset V) (p d : V → M) (S : Finset V) :
    Prop where
  subset : S ⊆ vs
  relaxed : ∀ e ∈ es, e.1 ∈ S → d e.2.1 ≤ d e.1 + e.2.2
  le : ∀ s ∈ S, ∀ x ∈ vs, x ∉ S → d s - p s ≤ d x - p x

/-- Of the vertices not settled yet `v` has the least label. -/
structure Next (es : List (V × V × M)) (vs : Finset V) (p d : V → M) (S : Finset V) (v : V) :
    Prop where
  settled : Settled es vs p d S
  mem : v ∈ vs
  notMem : v ∉ S
  le : ∀ x ∈ vs, x ∉ S → d v - p v ≤ d x - p x

section Step

variable [IsOrderedAddMonoid M]

omit [DecidableEq V] in
/-- An edge from a vertex that is not settled leads to no label below that of `v`. -/
private theorem Next.le_add (hp : Potential (ListEdge es) p) (h : Next es vs p d S v)
    (he : e ∈ es) (hmem : e.1 ∈ vs) (hS : e.1 ∉ S) : d v - p v ≤ d e.1 + e.2.2 - p e.2.1 := by
  have hw : p e.2.1 ≤ p e.1 + e.2.2 := hp e.1 e.2.1 e.2.2 he
  calc d v - p v ≤ d e.1 - p e.1 := h.le e.1 hmem hS
    _ = d e.1 + e.2.2 - (p e.1 + e.2.2) := by abel
    _ ≤ d e.1 + e.2.2 - p e.2.1 := sub_le_sub_left hw _

/-- One relaxation keeps the labels of the settled vertices and of `v`. -/
private theorem Next.relax_eq (hp : Potential (ListEdge es) p) (h : Next es vs p d S v)
    (he : e ∈ es) (hmem : e.1 ∈ vs) {x : V} (hx : x ∈ S ∨ x = v) : relax d e x = d x := by
  rcases le_or_gt (d e.2.1) (d e.1 + e.2.2) with hle | hlt
  · rw [relax_of_le hle]
  · have hS : e.1 ∉ S := fun hS ↦ not_lt.mpr (h.settled.relaxed e he hS) hlt
    have hlow := h.le_add hp he hmem hS
    -- the target has a greater label than `v`
    have hgt : d v - p v < d e.2.1 - p e.2.1 :=
      lt_of_le_of_lt hlow (sub_lt_sub_right hlt _)
    have hne : x ≠ e.2.1 := by
      rintro rfl
      rcases hx with hx | hx
      · exact not_lt.mpr (h.settled.le _ hx v h.mem h.notMem) hgt
      · rw [hx] at hgt
        exact lt_irrefl _ hgt
    rw [relax_of_lt hlt, Function.update_of_ne hne]

private theorem Next.relax (hp : Potential (ListEdge es) p) (h : Next es vs p d S v)
    (he : e ∈ es) (hmem : e.1 ∈ vs) : Next es vs p (relax d e) S v := by
  have hkeep {x : V} (hx : x ∈ S ∨ x = v) : ConstraintGraph.relax d e x = d x :=
    h.relax_eq hp he hmem hx
  have hle : ∀ x ∈ vs, x ∉ S → d v - p v ≤ ConstraintGraph.relax d e x - p x := by
    intro x hx hxS
    rcases le_or_gt (d e.2.1) (d e.1 + e.2.2) with hle | hlt
    · rw [relax_of_le hle]
      exact h.le x hx hxS
    · rw [relax_of_lt hlt]
      by_cases hxe : x = e.2.1
      · subst hxe
        rw [Function.update_self]
        exact h.le_add hp he hmem fun hS ↦ not_lt.mpr (h.settled.relaxed e he hS) hlt
      · rw [Function.update_of_ne hxe]
        exact h.le x hx hxS
  refine ⟨⟨h.settled.subset, fun f hf hfS ↦ ?_, fun s hs x hx hxS ↦ ?_⟩, h.mem, h.notMem,
    fun x hx hxS ↦ ?_⟩
  · rw [hkeep (.inl hfS)]
    exact le_trans (relax_le d e _) (h.settled.relaxed f hf hfS)
  · rw [hkeep (.inl hs)]
    exact le_trans (h.settled.le s hs v h.mem h.notMem) (hle x hx hxS)
  · rw [hkeep (.inr rfl)]
    exact hle x hx hxS

/-- Over a pass `v` keeps its label, and each of its edges is relaxed when it is scanned. -/
private theorem Next.foldl (hp : Potential (ListEdge es) p) (hes : ∀ e ∈ es, e.1 ∈ vs)
    {fs : List (V × V × M)} (hfs : fs ⊆ es) (h : Next es vs p d S v) :
    Next es vs p (fs.foldl ConstraintGraph.relax d) S v ∧
      fs.foldl ConstraintGraph.relax d v = d v ∧
      (∀ x, fs.foldl ConstraintGraph.relax d x ≤ d x) ∧
      ∀ f ∈ fs, f.1 = v → fs.foldl ConstraintGraph.relax d f.2.1 ≤ d v + f.2.2 := by
  induction fs generalizing d with
  | nil => exact ⟨h, rfl, fun _ ↦ le_rfl, by simp⟩
  | cons f fs ih =>
    have hf : f ∈ es := hfs (List.mem_cons_self ..)
    have hv : ConstraintGraph.relax d f v = d v := h.relax_eq hp hf (hes f hf) (.inr rfl)
    obtain ⟨hnext, hkeep, hle, hedges⟩ :=
      ih (fun x hx ↦ hfs (List.mem_cons_of_mem _ hx)) (h.relax hp hf (hes f hf))
    rw [hv] at hkeep hedges
    refine ⟨hnext, hkeep, fun x ↦ le_trans (hle x) (relax_le d f x), fun g hg hgv ↦ ?_⟩
    rcases List.mem_cons.mp hg with rfl | hg
    · refine le_trans (hle g.2.1) ?_
      rw [← hgv]
      rcases le_or_gt (d g.2.1) (d g.1 + g.2.2) with hle' | hlt
      · rwa [relax_of_le hle']
      · rw [relax_of_lt hlt, Function.update_self]
    · exact hedges g hg hgv

/-- A pass settles the next vertex. -/
theorem Next.pass (hp : Potential (ListEdge es) p) (hes : ∀ e ∈ es, e.1 ∈ vs)
    (h : Next es vs p d S v) : Settled es vs p (pass es d) (insert v S) := by
  obtain ⟨hnext, hkeep, -, hedges⟩ := h.foldl hp hes (List.Subset.refl es)
  refine ⟨Finset.insert_subset h.mem h.settled.subset, fun e he heS ↦ ?_, fun s hs x hx hxS ↦ ?_⟩
  · rcases Finset.mem_insert.mp heS with hev | heS
    · have hsettled := hedges e he hev
      unfold ConstraintGraph.pass
      rwa [hev, hkeep]
    · exact hnext.settled.relaxed e he heS
  · rw [Finset.mem_insert, not_or] at hxS
    rcases Finset.mem_insert.mp hs with rfl | hs
    · exact hnext.le x hx hxS.2
    · exact hnext.settled.le s hs x hx hxS.2

/-- After `n` passes `n` vertices are settled, or all. -/
theorem exists_settled (hp : Potential (ListEdge es) p) (hes : ∀ e ∈ es, e.1 ∈ vs) (d : V → M)
    (n : ℕ) :
    ∃ S, Settled es vs p ((ConstraintGraph.pass es)^[n] d) S ∧ (n ≤ S.card ∨ S = vs) := by
  induction n with
  | zero =>
    exact ⟨∅, ⟨Finset.empty_subset _, fun e _ he ↦ absurd he (Finset.notMem_empty _),
      fun s hs ↦ absurd hs (Finset.notMem_empty _)⟩, .inl (Nat.zero_le _)⟩
  | succ n ih =>
    obtain ⟨S, hS, hcard⟩ := ih
    rw [Function.iterate_succ_apply']
    by_cases hall : S = vs
    · have hpot : Potential (ListEdge es) ((ConstraintGraph.pass es)^[n] d) :=
        fun u v w he ↦ hS.relaxed (u, v, w) he (hall ▸ hes _ he)
      exact ⟨S, (pass_of_potential hpot).symm ▸ hS, .inr hall⟩
    · have hne : (vs \ S).Nonempty := by
        rw [Finset.sdiff_nonempty]
        exact fun hsub ↦ hall (Finset.Subset.antisymm hS.subset hsub)
      obtain ⟨v, hv, hmin⟩ := Finset.exists_min_image (vs \ S)
        (fun x ↦ (ConstraintGraph.pass es)^[n] d x - p x) hne
      obtain ⟨hvs, hvS⟩ := Finset.mem_sdiff.mp hv
      have hnext : Next es vs p ((ConstraintGraph.pass es)^[n] d) S v :=
        ⟨hS, hvs, hvS, fun x hx hxS ↦ hmin x (Finset.mem_sdiff.mpr ⟨hx, hxS⟩)⟩
      refine ⟨insert v S, hnext.pass hp hes, .inl ?_⟩
      rw [Finset.card_insert_of_notMem hvS]
      exact Nat.succ_le_succ (hcard.resolve_right hall)

/-- As many passes as there are vertices find a potential where there is one. -/
theorem potential_iterate_pass (hp : Potential (ListEdge es) p) (hes : ∀ e ∈ es, e.1 ∈ vs)
    (d : V → M) : Potential (ListEdge es) ((ConstraintGraph.pass es)^[vs.card] d) := by
  obtain ⟨S, hS, hcard⟩ := exists_settled hp hes d vs.card
  have hall : S = vs := by
    rcases hcard with hcard | hall
    · exact Finset.eq_of_subset_of_card_le hS.subset hcard
    · exact hall
  exact fun u v w he ↦ hS.relaxed (u, v, w) he (hall ▸ hes _ he)

end Step

end ConstraintGraph

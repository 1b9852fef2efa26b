import Mathlib.Algebra.BigOperators.Ring.Finset
import Mathlib.Tactic.Ring
import UCDD.Output.Dot
import UCDD.Output.StrategyCode

/-!
# Traversals and their marks

A traversal marks the nodes of one diagram and clears the marks again. Nodes are born with the mark
bit that the memory of their cell held, since `cdd_make_bdd_node` and `cdd_make_cdd_node` do not
write the field `flag`.
-/

namespace UCDD

open IntervalMap DdNode Counter

/-! ### The nodes below a pointer -/

mutual

/-- The stored nodes at or below the pointer, without the ordinary terminal. -/
def nodesBelow : DdNode → Finset DdNode
  | .terminal _ => ∅
  | .xterm _ id => {.xterm false id}
  | .bdd _ level low high => insert (.bdd false level low high) (nodesBelow low ∪ nodesBelow high)
  | .cdd _ level elem => insert (.cdd false level elem) (nodesBelowElem elem)

/-- The nodes below an element array. -/
def nodesBelowElem : List (DdNode × Raw) → Finset DdNode
  | [] => ∅
  | (d, _) :: es => nodesBelow d ∪ nodesBelowElem es

end

/-- The distinct non-terminal nodes that are reachable. -/
def innerNodes (d : DdNode) : Finset DdNode := (nodesBelow d).filter (cddIsterminal · = false)

/-- The edges that leave a node. -/
def outdegree : DdNode → ℕ
  | .terminal _ | .xterm _ _ => 0
  | .bdd .. => 2
  | .cdd _ _ elem => elem.length

section

variable {L : Library} {xterms : ℕ} {c d : DdNode} {es : List (DdNode × Raw)} {A B M : Finset DdNode}

theorem mem_nodesBelowElem : c ∈ nodesBelowElem es ↔ ∃ e ∈ es, c ∈ nodesBelow e.1 := by
  induction es with
  | nil => simp [nodesBelowElem]
  | cons e es ih => simp [nodesBelowElem, ih]

@[simp] theorem nodesBelow_negCond (d : DdNode) (m : Bool) :
    nodesBelow (cddNegCond d m) = nodesBelow d := by
  cases d <;> rfl

@[simp] theorem innerNodes_negCond (d : DdNode) (m : Bool) :
    innerNodes (cddNegCond d m) = innerNodes d := by
  rw [innerNodes, nodesBelow_negCond, innerNodes]

theorem innerNodes_bdd {neg : Bool} {level : ℕ} {low high : DdNode} :
    innerNodes (.bdd neg level low high) =
      insert (.bdd false level low high) (innerNodes low ∪ innerNodes high) := by
  have hinner : cddIsterminal (.bdd false level low high) = false := rfl
  rw [innerNodes, nodesBelow, Finset.filter_insert, if_pos hinner, Finset.filter_union]
  rfl

theorem innerNodes_cdd {neg : Bool} {level : ℕ} {elem : List (DdNode × Raw)} :
    innerNodes (.cdd neg level elem) = insert (.cdd false level elem)
      ((nodesBelowElem elem).filter (cddIsterminal · = false)) := by
  have hinner : cddIsterminal (.cdd false level elem) = false := rfl
  rw [innerNodes, nodesBelow, Finset.filter_insert, if_pos hinner]

/-- A node that is reached is regular, and no higher than the root. -/
theorem height_le_of_mem_nodesBelow (h : c ∈ nodesBelow d) : c.height ≤ d.height := by
  induction d with
  | terminal => cases h
  | xterm neg id =>
    rw [nodesBelow, Finset.mem_singleton] at h
    exact h ▸ le_rfl
  | bdd neg level low high ihl ihh =>
    rw [nodesBelow, Finset.mem_insert, Finset.mem_union] at h
    rcases h with rfl | h | h
    · exact le_rfl
    · exact le_trans (ihl h) (le_trans (le_max_left _ _) (Nat.le_succ _))
    · exact le_trans (ihh h) (le_trans (le_max_right _ _) (Nat.le_succ _))
  | cdd neg level elem ih =>
    rw [nodesBelow, Finset.mem_insert, mem_nodesBelowElem] at h
    rcases h with rfl | ⟨e, he, h⟩
    · exact le_rfl
    · exact le_trans (ih e he h) (height_lt_of_mem e he).le

theorem nodesBelow_subset (h : c ∈ nodesBelow d) : nodesBelow c ⊆ nodesBelow d := by
  induction d with
  | terminal => cases h
  | xterm neg id =>
    rw [nodesBelow, Finset.mem_singleton] at h
    exact h ▸ subset_rfl
  | bdd neg level low high ihl ihh =>
    rw [nodesBelow, Finset.mem_insert, Finset.mem_union] at h
    rcases h with rfl | h | h
    · exact subset_rfl
    · exact (ihl h).trans (Finset.subset_union_left.trans (Finset.subset_insert _ _))
    · exact (ihh h).trans (Finset.subset_union_right.trans (Finset.subset_insert _ _))
  | cdd neg level elem ih =>
    rw [nodesBelow, Finset.mem_insert, mem_nodesBelowElem] at h
    rcases h with rfl | ⟨e, he, h⟩
    · exact subset_rfl
    · intro x hx
      rw [nodesBelow, Finset.mem_insert, mem_nodesBelowElem]
      exact .inr ⟨e, he, ih e he h hx⟩

theorem innerNodes_subset (h : c ∈ nodesBelow d) : innerNodes c ⊆ innerNodes d :=
  Finset.filter_subset_filter _ (nodesBelow_subset h)

/-! ### Counting -/

/-- Below the nodes of `A`, what is marked is marked with all that is below it. -/
def ClosedBelow (A M : Finset DdNode) : Prop := ∀ c ∈ A, c ∈ M → innerNodes c ⊆ M

theorem ClosedBelow.mono (h : ClosedBelow A M) (hB : B ⊆ A) : ClosedBelow B M :=
  fun c hc ↦ h c (hB hc)

/-- A node that is above all of `A` is marked. -/
theorem ClosedBelow.insert (h : ClosedBelow A M) (hd : d ∉ A) : ClosedBelow A (insert d M) := by
  intro c hc hm
  rw [Finset.mem_insert] at hm
  cases hm with
  | inl hm => exact absurd (hm ▸ hc) hd
  | inr hm => exact (h c hc hm).trans (Finset.subset_insert _ _)

/-- All of a part that is closed is marked. -/
theorem ClosedBelow.union (h : ClosedBelow A M) (hB : ∀ c ∈ B, innerNodes c ⊆ B) :
    ClosedBelow A (M ∪ B) := by
  intro c hc hm
  rw [Finset.mem_union] at hm
  cases hm with
  | inl hm => exact (h c hc hm).trans Finset.subset_union_left
  | inr hm => exact (hB c hm).trans Finset.subset_union_right

theorem innerNodes_closed (d : DdNode) : ∀ c ∈ innerNodes d, innerNodes c ⊆ innerNodes d :=
  fun _ hc ↦ innerNodes_subset (Finset.mem_filter.mp hc).1

theorem sum_union_sdiff (f : DdNode → ℤ) (A B M : Finset DdNode) :
    ∑ c ∈ (A ∪ B) \ M, f c = ∑ c ∈ A \ M, f c + ∑ c ∈ B \ (M ∪ A), f c := by
  rw [← Finset.sum_union]
  · apply Finset.sum_congr _ fun _ _ ↦ rfl
    ext c
    simp only [Finset.mem_sdiff, Finset.mem_union]
    tauto
  · rw [Finset.disjoint_left]
    intro c hc hc'
    rw [Finset.mem_sdiff] at hc hc'
    exact hc'.2 (Finset.mem_union_right _ hc.1)

theorem sum_insert_sdiff (f : DdNode → ℤ) (hd : d ∉ M) (A : Finset DdNode) :
    ∑ c ∈ insert d A \ M, f c = f d + ∑ c ∈ A \ insert d M, f c := by
  rw [← Finset.sum_insert]
  · apply Finset.sum_congr _ fun _ _ ↦ rfl
    ext c
    simp only [Finset.mem_sdiff, Finset.mem_insert]
    by_cases hc : c = d
    · simp [hc, hd]
    · simp [hc]
  · simp

/-- A node is not below its children. -/
theorem not_mem_of_height_lt (h : d.height < c.height) : c ∉ innerNodes d :=
  fun hc ↦ absurd (height_le_of_mem_nodesBelow (Finset.mem_filter.mp hc).1) (Nat.not_le.mpr h)

/-- The inner nodes below an element array. -/
def innerElem (es : List (DdNode × Raw)) : Finset DdNode :=
  (nodesBelowElem es).filter (cddIsterminal · = false)

theorem innerElem_cons (e : DdNode × Raw) (es : List (DdNode × Raw)) :
    innerElem (e :: es) = innerNodes e.1 ∪ innerElem es := by
  obtain ⟨d, b⟩ := e
  rw [innerElem, nodesBelowElem, Finset.filter_union]
  rfl

theorem mem_innerElem : c ∈ innerElem es ↔ ∃ e ∈ es, c ∈ innerNodes e.1 := by
  simp only [innerElem, innerNodes, Finset.mem_filter, mem_nodesBelowElem]
  constructor
  · rintro ⟨⟨e, he, hc⟩, hi⟩
    exact ⟨e, he, hc, hi⟩
  · rintro ⟨e, he, hc, hi⟩
    exact ⟨⟨e, he, hc⟩, hi⟩

/-- What a traversal adds to the counter. -/
def nodeWeight (node edge : ℤ) (c : DdNode) : ℤ := node + edge * outdegree c

/-- The nodes below the pointer that were not marked are marked and counted. -/
structure Counted (node edge : ℤ) (A M : Finset DdNode) (cnt : ℤ) (s : Marks × ℤ) : Prop where
  marks : s.1 = M ∪ A
  count : s.2 = int32 (cnt + ∑ c ∈ A \ M, nodeWeight node edge c)

theorem Counted.eq {node edge cnt : ℤ} {s : Marks × ℤ} (h : Counted node edge A M cnt s) :
    s = (M ∪ A, int32 (cnt + ∑ c ∈ A \ M, nodeWeight node edge c)) :=
  Prod.ext h.marks h.count

theorem Counted.union {node edge cnt : ℤ} {s : Marks × ℤ}
    (h : Counted node edge B (M ∪ A) (cnt + ∑ c ∈ A \ M, nodeWeight node edge c) s) :
    Counted node edge (A ∪ B) M cnt s := by
  constructor
  · rw [h.marks, Finset.union_assoc]
  · rw [h.count, sum_union_sdiff, add_assoc]

theorem markAddElem_spec {node edge : ℤ}
    (ih : ∀ e ∈ es, ∀ (M : Finset DdNode) (cnt : ℤ), ClosedBelow (innerNodes e.1) M →
      Counted node edge (innerNodes e.1) M cnt (markAdd node edge e.1 (M, int32 cnt)))
    (h : ClosedBelow (innerElem es) M) (cnt : ℤ) :
    Counted node edge (innerElem es) M (cnt + edge * es.length)
      (markAddElem node edge es (M, int32 cnt)) := by
  induction es generalizing M cnt with
  | nil =>
    rw [markAddElem]
    constructor
    · exact (Finset.union_empty M).symm
    · simp [innerElem, nodesBelowElem]
  | cons e es ihes =>
    rw [innerElem_cons] at h ⊢
    have hchild := ih e List.mem_cons_self M (cnt + edge) (h.mono Finset.subset_union_left)
    have hclosed : ClosedBelow (innerElem es) (M ∪ innerNodes e.1) :=
      (h.mono Finset.subset_union_right).union (innerNodes_closed e.1)
    have hrest := ihes (fun x hx ↦ ih x (List.mem_cons_of_mem _ hx)) hclosed
      (cnt + edge + ∑ c ∈ innerNodes e.1 \ M, nodeWeight node edge c)
    have hstep : markAddElem node edge (e :: es) (M, int32 cnt) =
        markAddElem node edge es (M ∪ innerNodes e.1,
          int32 (cnt + edge + ∑ c ∈ innerNodes e.1 \ M, nodeWeight node edge c)) := by
      obtain ⟨d, b⟩ := e
      rw [markAddElem, int32_add_int32, ← hchild.marks, ← hchild.count]
    rw [hstep]
    constructor
    · rw [hrest.marks, Finset.union_assoc]
    · rw [hrest.count, sum_union_sdiff, List.length_cons]
      congr 1
      push_cast
      ring

/-- A node that was not marked, with what is below it. -/
theorem Counted.node {node edge cnt : ℤ} {s : Marks × ℤ} (hd : d ∉ M)
    (h : Counted node edge A (insert d M) (cnt + nodeWeight node edge d) s) :
    Counted node edge (insert d A) M cnt s := by
  constructor
  · rw [h.marks, Finset.insert_union, Finset.union_insert]
  · rw [h.count, sum_insert_sdiff _ hd, add_assoc]

/-- A node that was marked, with all that is below it. -/
theorem Counted.skip {node edge cnt : ℤ} (h : A ⊆ M) :
    Counted node edge A M cnt (M, int32 cnt) := by
  constructor
  · exact (Finset.union_eq_left.mpr h).symm
  · rw [Finset.sdiff_eq_empty_iff_subset.mpr h, Finset.sum_empty, add_zero]

/-- The count of a traversal that starts with marks that are closed. -/
theorem markAdd_spec (node edge : ℤ) (h : ClosedBelow (innerNodes d) M) (cnt : ℤ) :
    Counted node edge (innerNodes d) M cnt (markAdd node edge d (M, int32 cnt)) := by
  induction d generalizing M cnt with
  | terminal | xterm =>
    rw [markAdd]
    exact .skip (Finset.empty_subset M)
  | bdd neg level low high ihl ihh =>
    have hreg : cddRglr (.bdd neg level low high) = .bdd false level low high := by
      cases neg <;> rfl
    have hweight : nodeWeight node edge (.bdd false level low high) = node + 2 * edge := by
      rw [nodeWeight, outdegree]
      push_cast
      ring
    rw [innerNodes_bdd] at h ⊢
    rw [markAdd]
    by_cases hm : DdNode.bdd false level low high ∈ M
    · rw [if_pos (cddIsmarked_iff.mpr (hreg ▸ hm))]
      have hall := h _ (Finset.mem_insert_self _ _) hm
      rw [innerNodes_bdd] at hall
      exact .skip hall
    · rw [if_neg fun hm' ↦ hm (hreg ▸ cddIsmarked_iff.mp hm'), cddSetmark, hreg]
      have hsub := h.mono (Finset.subset_insert _ _)
      have hnl : DdNode.bdd false level low high ∉ innerNodes low :=
        not_mem_of_height_lt (Nat.lt_succ_of_le (le_max_left _ _))
      have hnh : DdNode.bdd false level low high ∉ innerNodes high :=
        not_mem_of_height_lt (Nat.lt_succ_of_le (le_max_right _ _))
      have hlow := ihl ((hsub.mono Finset.subset_union_left).insert hnl)
        (cnt + nodeWeight node edge (.bdd false level low high))
      have hhigh := ihh (((hsub.mono Finset.subset_union_right).insert hnh).union
        (innerNodes_closed low)) (cnt + nodeWeight node edge (.bdd false level low high) +
          ∑ c ∈ innerNodes low \ insert (.bdd false level low high) M, nodeWeight node edge c)
      rw [← hlow.eq] at hhigh
      rw [int32_add_int32, ← hweight]
      exact hhigh.union.node hm
  | cdd neg level elem ih =>
    have hreg : cddRglr (.cdd neg level elem) = .cdd false level elem := by
      cases neg <;> rfl
    have hinner : innerNodes (.cdd false level elem) =
        insert (.cdd false level elem) (innerElem elem) := innerNodes_cdd
    have hweight : nodeWeight node edge (.cdd false level elem) = node + edge * elem.length := rfl
    rw [show innerNodes (.cdd neg level elem) = innerNodes (.cdd false level elem) from rfl,
      hinner] at h ⊢
    rw [markAdd]
    by_cases hm : DdNode.cdd false level elem ∈ M
    · rw [if_pos (cddIsmarked_iff.mpr (hreg ▸ hm))]
      have hall := h _ (Finset.mem_insert_self _ _) hm
      rw [hinner] at hall
      exact .skip hall
    · rw [if_neg fun hm' ↦ hm (hreg ▸ cddIsmarked_iff.mp hm'), cddSetmark, hreg]
      have hnot : DdNode.cdd false level elem ∉ innerElem elem := by
        rw [mem_innerElem]
        rintro ⟨e, he, hc⟩
        exact not_mem_of_height_lt (height_lt_of_mem e he) hc
      have hloop := markAddElem_spec (fun e he M cnt hM ↦ ih e he hM cnt)
        ((h.mono (Finset.subset_insert _ _)).insert hnot) (cnt + node)
      rw [add_assoc, ← hweight] at hloop
      rw [int32_add_int32]
      exact hloop.node hm

/-! ### Clearing -/

/-- Below the nodes of `A`, what is not marked has no marks below it. -/
def OpenBelow (A M : Finset DdNode) : Prop := ∀ c ∈ A, c ∉ M → Disjoint (nodesBelow c) M

theorem OpenBelow.mono (h : OpenBelow A M) (hB : B ⊆ A) : OpenBelow B M :=
  fun c hc ↦ h c (hB hc)

/-- The mark of a node above all of `A` is cleared. -/
theorem OpenBelow.erase (h : OpenBelow A M) (hd : d ∉ A) : OpenBelow A (M.erase d) := by
  intro c hc hm
  have hne : c ≠ d := fun he ↦ hd (he ▸ hc)
  have hm : c ∉ M := fun hM ↦ hm (Finset.mem_erase.mpr ⟨hne, hM⟩)
  exact (h c hc hm).mono_right (Finset.erase_subset _ _)

/-- The marks of a part that is closed are cleared. -/
theorem OpenBelow.sdiff (h : OpenBelow A M) (hB : ∀ c ∈ B, nodesBelow c ⊆ B) :
    OpenBelow A (M \ B) := by
  intro c hc hm
  by_cases hcB : c ∈ B
  · exact Finset.disjoint_of_subset_left (hB c hcB) Finset.disjoint_sdiff
  · have hm : c ∉ M := fun hM ↦ hm (Finset.mem_sdiff.mpr ⟨hM, hcB⟩)
    exact (h c hc hm).mono_right Finset.sdiff_subset

theorem not_mem_nodesBelow (h : d.height < c.height) : c ∉ nodesBelow d :=
  fun hc ↦ absurd (height_le_of_mem_nodesBelow hc) (Nat.not_le.mpr h)

theorem clearMarksElem_spec {force : Bool}
    (ih : ∀ e ∈ es, ∀ M : Finset DdNode, (force = false → OpenBelow (nodesBelow e.1) M) →
      clearMarks force e.1 M = M \ nodesBelow e.1)
    (h : force = false → OpenBelow (nodesBelowElem es) M) :
    clearMarksElem force es M = M \ nodesBelowElem es := by
  induction es generalizing M with
  | nil => rw [clearMarksElem, nodesBelowElem, Finset.sdiff_empty]
  | cons e es ihes =>
    obtain ⟨d, b⟩ := e
    rw [clearMarksElem, nodesBelowElem]
    have hchild := ih (d, b) List.mem_cons_self M fun hf ↦
      (h hf).mono Finset.subset_union_left
    rw [hchild, ihes fun x hx ↦ ih x (List.mem_cons_of_mem _ hx), sdiff_sdiff]
    · rfl
    · intro hf
      exact ((h hf).mono Finset.subset_union_right).sdiff fun c hc ↦ nodesBelow_subset hc

/-- Where `cdd_unmark` stops there is nothing to clear. -/
theorem sdiff_eq_of_stop {force : Bool} (h : force = false → OpenBelow A M) (hc : c ∈ A)
    (hA : nodesBelow c = A) (hm : ¬ (decide (c ∈ M) || force) = true) : M \ A = M := by
  simp only [Bool.or_eq_true, decide_eq_true_eq, not_or, Bool.not_eq_true] at hm
  have hdisj := h hm.2 c hc hm.1
  rw [hA] at hdisj
  exact Finset.sdiff_eq_self_of_disjoint hdisj.symm

/-- The marks below the pointer are cleared, by `cdd_unmark` as long as it finds its way to
them. -/
theorem clearMarks_spec {force : Bool} (h : force = false → OpenBelow (nodesBelow d) M) :
    clearMarks force d M = M \ nodesBelow d := by
  induction d generalizing M with
  | terminal => rw [clearMarks, nodesBelow, Finset.sdiff_empty]
  | xterm neg id =>
    have hreg : cddRglr (.xterm neg id) = .xterm false id := by cases neg <;> rfl
    rw [nodesBelow] at h ⊢
    rw [clearMarks, cddIsmarked, cddResetmark, hreg]
    split_ifs with hm
    · exact (Finset.sdiff_singleton_eq_erase _ M).symm
    · exact (sdiff_eq_of_stop h (Finset.mem_singleton_self _) rfl hm).symm
  | bdd neg level low high ihl ihh =>
    have hreg : cddRglr (.bdd neg level low high) = .bdd false level low high := by
      cases neg <;> rfl
    rw [nodesBelow] at h ⊢
    rw [clearMarks, cddIsmarked, cddResetmark, hreg]
    split_ifs with hm
    · have hsub := fun hf ↦ (h hf).mono (Finset.subset_insert _ _)
      have hnl : DdNode.bdd false level low high ∉ nodesBelow low :=
        not_mem_nodesBelow (Nat.lt_succ_of_le (le_max_left _ _))
      have hnh : DdNode.bdd false level low high ∉ nodesBelow high :=
        not_mem_nodesBelow (Nat.lt_succ_of_le (le_max_right _ _))
      rw [ihl, ihh, sdiff_sdiff, Finset.insert_eq, ← Finset.sdiff_singleton_eq_erase, sdiff_sdiff]
      · rfl
      · intro hf
        exact (((hsub hf).mono Finset.subset_union_right).erase hnh).sdiff
          fun c hc ↦ nodesBelow_subset hc
      · exact fun hf ↦ ((hsub hf).mono Finset.subset_union_left).erase hnl
    · exact (sdiff_eq_of_stop h (Finset.mem_insert_self _ _) (by rw [nodesBelow]) hm).symm
  | cdd neg level elem ih =>
    have hreg : cddRglr (.cdd neg level elem) = .cdd false level elem := by
      cases neg <;> rfl
    rw [nodesBelow] at h ⊢
    rw [clearMarks, cddIsmarked, cddResetmark, hreg]
    split_ifs with hm
    · have hnot : DdNode.cdd false level elem ∉ nodesBelowElem elem := by
        rw [mem_nodesBelowElem]
        rintro ⟨e, he, hc⟩
        exact not_mem_nodesBelow (height_lt_of_mem e he) hc
      rw [clearMarksElem_spec fun e he M hM ↦ ih e he hM, Finset.insert_eq,
        ← Finset.sdiff_singleton_eq_erase, sdiff_sdiff]
      · rfl
      · exact fun hf ↦ ((h hf).mono (Finset.subset_insert _ _)).erase hnot
    · exact (sdiff_eq_of_stop h (Finset.mem_insert_self _ _) (by rw [nodesBelow]) hm).symm

/-! ### The traversals -/

/-- With all inner nodes marked `cdd_unmark` finds its way. -/
theorem openBelow_innerNodes (d : DdNode) : OpenBelow (nodesBelow d) (innerNodes d) := by
  intro c hc hm
  rw [Finset.disjoint_left]
  intro x hx hi
  have hxi := (Finset.mem_filter.mp hi).2
  cases c with
  | terminal => cases hx
  | xterm neg id =>
    rw [nodesBelow, Finset.mem_singleton] at hx
    rw [hx] at hxi
    cases hxi
  | bdd | cdd =>
    refine absurd ?_ hm
    rw [innerNodes, Finset.mem_filter]
    exact ⟨hc, rfl⟩

theorem cddUnmark_innerNodes (d : DdNode) : cddUnmark d (innerNodes d) = ∅ := by
  rw [cddUnmark, clearMarks_spec fun _ ↦ openBelow_innerNodes d]
  exact Finset.sdiff_eq_empty_iff_subset.mpr (Finset.filter_subset _ _)

theorem markAdd_empty (node edge : ℤ) (d : DdNode) : markAdd node edge d (∅, 0) =
    (innerNodes d, int32 (∑ c ∈ innerNodes d, nodeWeight node edge c)) := by
  have hcount := (markAdd_spec node edge (d := d) (M := ∅) (fun _ _ h ↦ absurd h
    (Finset.notMem_empty _)) 0).eq
  rw [Finset.empty_union, Finset.sdiff_empty, zero_add] at hcount
  exact hcount

/-- `cdd_nodecount` returns the number of distinct inner nodes. -/
theorem cddNodecount_spec (d : DdNode) :
    cddNodecount ∅ d = (int32 ((innerNodes d).card), ∅) := by
  rw [cddNodecount, cddMarkcount, markAdd_empty]
  have hsum : ∑ c ∈ innerNodes d, nodeWeight 1 0 c = (innerNodes d).card := by
    simp [nodeWeight]
  rw [hsum]
  exact Prod.ext rfl (cddUnmark_innerNodes d)

/-- `cdd_edgecount` returns the number of edges that leave them. -/
theorem cddEdgecount_spec (d : DdNode) :
    cddEdgecount ∅ d = (int32 ((∑ c ∈ innerNodes d, outdegree c : ℕ)), ∅) := by
  rw [cddEdgecount, cddMarkedgecount, markAdd_empty]
  have hsum : ∑ c ∈ innerNodes d, nodeWeight 0 1 c = ((∑ c ∈ innerNodes d, outdegree c : ℕ) : ℤ) := by
    rw [Nat.cast_sum]
    simp [nodeWeight]
  rw [hsum]
  exact Prod.ext rfl (cddUnmark_innerNodes d)

/-- The marks of the dump of a CDD node. -/
theorem cddFreduceDumpElem_marks {dotFormat ifstatement : Bool} {node : DdNode} {level : ℕ}
    {lower : Raw} {s : Dump} (ih : ∀ e ∈ es, ∀ (m : Bool) (p : Option Infor) (s : Dump),
      (cddFreduceDumpRec dotFormat e.1 m p s).2.marks ⊆ s.marks ∪ nodesBelow e.1) :
    (cddFreduceDumpElem dotFormat node level es lower ifstatement s).2.marks ⊆
      s.marks ∪ nodesBelowElem es := by
  induction es generalizing lower ifstatement s with
  | nil =>
    rw [cddFreduceDumpElem]
    exact Finset.subset_union_left
  | cons e es ihes =>
    obtain ⟨child, upper⟩ := e
    rw [cddFreduceDumpElem, nodesBelowElem, ← Finset.union_assoc]
    have hchild : (if child = cddfalse then (ifstatement, s) else
        (ifstatement || !dotFormat, (cddFreduceDumpRec dotFormat child (cddMask child) none s).2.print
          [printChild dotFormat node level child lower upper])).2.marks ⊆
        s.marks ∪ nodesBelow child := by
      split_ifs
      · exact Finset.subset_union_left
      · exact ih (child, upper) List.mem_cons_self _ none s
    generalize (if child = cddfalse then (ifstatement, s) else _) = q at hchild ⊢
    obtain ⟨i, t⟩ := q
    dsimp only
    split_ifs with hlt
    · refine (ihes fun x hx ↦ ih x (List.mem_cons_of_mem _ hx)).trans ?_
      exact Finset.union_subset_union_left hchild
    · exact Finset.Subset.trans hchild Finset.subset_union_left

theorem marks_setmark_subset {s t : Dump} {r : DdNode} (h : t.marks ⊆ s.marks ∪ A)
    (hr : cddRglr r ∈ A) : (t.setmark r).marks ⊆ s.marks ∪ A :=
  Finset.insert_subset (Finset.mem_union_right _ hr) h

/-- The dump marks nodes of the diagram only. -/
theorem cddFreduceDumpRec_marks (dotFormat m : Bool) (p : Option Infor) (s : Dump) :
    (cddFreduceDumpRec dotFormat d m p s).2.marks ⊆ s.marks ∪ nodesBelow d := by
  induction d generalizing m p s with
  | terminal =>
    rw [cddFreduceDumpRec]
    exact Finset.subset_union_left
  | xterm neg id =>
    rw [cddFreduceDumpRec]
    by_cases hm : cddIsmarked s.marks (.xterm neg id) = true
    · rw [if_pos hm]
      exact Finset.subset_union_left
    · rw [if_neg hm]
      refine marks_setmark_subset (t := s.print _) Finset.subset_union_left ?_
      cases neg <;> exact Finset.mem_singleton_self _
  | bdd neg level low high ihl ihh =>
    have hself : cddRglr (.bdd false level low high) ∈ nodesBelow (.bdd neg level low high) :=
      Finset.mem_insert_self _ _
    -- both children, one after the other
    have hboth : ∀ {s₁ s₂ : Dump} {c c' : DdNode}, nodesBelow c ∪ nodesBelow c' ⊆
        nodesBelow (.bdd neg level low high) → s₁.marks ⊆ s.marks ∪ nodesBelow c →
        s₂.marks ⊆ s₁.marks ∪ nodesBelow c' →
        s₂.marks ⊆ s.marks ∪ nodesBelow (.bdd neg level low high) := by
      intro s₁ s₂ c c' hsub h₁ h₂
      have h₁' := h₂.trans (Finset.union_subset_union_left h₁)
      rw [Finset.union_assoc] at h₁'
      exact h₁'.trans (Finset.union_subset_union_right hsub)
    have hlow : nodesBelow low ∪ nodesBelow high ⊆ nodesBelow (.bdd neg level low high) :=
      Finset.subset_insert _ _
    have hhigh : nodesBelow high ∪ nodesBelow low ⊆ nodesBelow (.bdd neg level low high) := by
      rw [Finset.union_comm]
      exact hlow
    rw [cddFreduceDumpRec]
    by_cases hm : cddIsmarked s.marks (.bdd neg level low high) = true
    · rw [if_pos hm]
      exact Finset.subset_union_left
    · rw [if_neg hm]
      cases p.filter fun p ↦ p.other = high || p.other = low with
      | none =>
        dsimp only
        refine marks_setmark_subset ?_ hself
        refine hboth hlow (ihl false (some ⟨low, high, {level}, ∅, false⟩) s) ?_
        split_ifs
        · exact ihh _ _ _
        · exact ihh _ _ _
      | some p =>
        dsimp only
        split_ifs
        · exact hboth hlow (ihl false _ s) (ihh false none _)
        · exact hboth hhigh (ihh false _ s) (ihl false none _)
  | cdd neg level elem ih =>
    rw [cddFreduceDumpRec]
    by_cases hm : cddIsmarked s.marks (.cdd neg level elem) = true
    · rw [if_pos hm]
      exact Finset.subset_union_left
    · rw [if_neg hm]
      refine marks_setmark_subset ?_ (Finset.mem_insert_self _ _)
      refine Finset.Subset.trans (cddFreduceDumpElem_marks fun e he m p s ↦ ih e he m p s) ?_
      exact Finset.union_subset_union_right (Finset.subset_insert _ _)

theorem cddForceUnmark_of_subset (h : M ⊆ nodesBelow d) : cddForceUnmark d M = ∅ := by
  rw [cddForceUnmark, clearMarks_spec]
  · exact Finset.sdiff_eq_empty_iff_subset.mpr h
  · nofun

theorem cddFprintCode_marks (d : DdNode) : (cddFprintCode ∅ d).2 = ∅ := by
  apply cddForceUnmark_of_subset
  have hmarks := cddFreduceDumpRec_marks false (cddMask d) none ⟨∅, []⟩ (d := d)
  rwa [Finset.empty_union] at hmarks

theorem cddFprintGraph_marks (d : DdNode) : (cddFprintGraph ∅ d).2 = ∅ := by
  apply cddForceUnmark_of_subset
  have hmarks := cddFreduceDumpRec_marks true (cddMask d) none ⟨∅, []⟩ (d := d)
  rwa [Finset.empty_union] at hmarks

/-! ### The marks of the graph -/

/-- Below the nodes of `A`, what is printed or marked is marked with all that is below it. -/
def Dot.Entered (s : Dot) (A : Finset DdNode) : Prop :=
  ∀ c ∈ A, (c ∈ s.marks ∨ ∃ q ∈ s.array, cddRglr q.1 = c) → innerNodes c ⊆ s.marks

/-- What part of the recursion marks, and the nodes of which it adds names to the array. -/
structure DotMarks (A : Finset DdNode) (s t : Dot) : Prop where
  marks : t.marks = s.marks ∪ A
  array : ∀ q ∈ t.array, q ∈ s.array ∨ cddRglr q.1 ∈ A

theorem DotMarks.refl (s : Dot) : DotMarks ∅ s s :=
  ⟨(Finset.union_empty _).symm, fun _ ↦ .inl⟩

theorem DotMarks.trans {s t u : Dot} (h : DotMarks A s t) (h' : DotMarks B t u) :
    DotMarks (A ∪ B) s u := by
  constructor
  · rw [h'.marks, h.marks, Finset.union_assoc]
  · intro q hq
    cases h'.array q hq with
    | inl hq => exact (h.array q hq).imp_right (Finset.mem_union_left _ ·)
    | inr hq => exact .inr (Finset.mem_union_right _ hq)

theorem Dot.Entered.mono {s : Dot} (h : s.Entered A) (hB : B ⊆ A) : s.Entered B :=
  fun c hc ↦ h c (hB hc)

theorem Dot.Entered.next {s t : Dot} (h : s.Entered A) (ht : DotMarks B s t)
    (hB : ∀ c ∈ B, innerNodes c ⊆ B) : t.Entered A := by
  intro c hc hent
  rw [ht.marks]
  have hcase : (c ∈ s.marks ∨ ∃ q ∈ s.array, cddRglr q.1 = c) ∨ c ∈ B := by
    rcases hent with hm | ⟨q, hq, rfl⟩
    · rw [ht.marks, Finset.mem_union] at hm
      exact hm.imp_left .inl
    · exact (ht.array q hq).imp_left fun hq ↦ .inr ⟨q, hq, rfl⟩
  cases hcase with
  | inl hs => exact (h c hc hs).trans Finset.subset_union_left
  | inr hcB => exact (hB c hcB).trans Finset.subset_union_right

/-- The loop over the children of a CDD node. -/
theorem cddFprintdotElem_marks {flip q : Bool} {name : DotName} {appendix : Option Bool}
    {bnd : Raw} {s : Dot} (hp : Partition INF es)
    (ih : ∀ e ∈ es, ∀ s : Dot, s.Entered (innerNodes e.1) →
      DotMarks (innerNodes e.1) s (cddFprintdotRec flip e.1 q s))
    (h : s.Entered (innerElem es)) :
    DotMarks (innerElem es) s (cddFprintdotElem flip name q es appendix bnd s) := by
  induction es generalizing appendix bnd s with
  | nil => exact hp.elim
  | cons e es ihes =>
    obtain ⟨child, upper⟩ := e
    rw [innerElem_cons] at h ⊢
    rw [cddFprintdotElem]
    generalize (if child = cddtrue then none else appendix) = appendix'
    have hchild : DotMarks (innerNodes child) s (if child = cddfalse then s
        else cddFprintdotRec flip child q
          (s.print [.interval name (child, appendix') (cddMask child) bnd upper])) := by
      split_ifs with hf
      · rw [hf]
        exact .refl s
      · have hprint : DotMarks ∅ s
            (s.print [.interval name (child, appendix') (cddMask child) bnd upper]) :=
          ⟨(Finset.union_empty _).symm, fun _ ↦ .inl⟩
        have hnext := (h.mono Finset.subset_union_left).next hprint
          fun x hx ↦ absurd hx (Finset.notMem_empty x)
        have hcall := hprint.trans (ih _ List.mem_cons_self _ hnext)
        rwa [Finset.empty_union] at hcall
    have hent := (h.mono Finset.subset_union_right).next hchild (innerNodes_closed child)
    generalize (if child = cddfalse then s else _) = s₁ at hchild hent ⊢
    cases hp.tail_cases with
    | inl hlast =>
      obtain ⟨rfl, htop⟩ := hlast
      rw [if_neg (not_lt.mpr (le_of_eq htop.symm))]
      have hempty : innerElem [] = ∅ := rfl
      rw [hempty, Finset.union_empty]
      exact hchild
    | inr hmore =>
      have hlt : upper < INF := by
        obtain ⟨x, xs, rfl⟩ := List.exists_cons_of_ne_nil hmore.1.ne_nil
        exact lt_of_lt_of_le (hmore.2 x rfl) (le_INF _)
      rw [if_pos hlt]
      exact hchild.trans (ihes hmore.1 (fun x hx ↦ ih x (List.mem_cons_of_mem _ hx)) hent)

theorem DotMarks.of_subset {s : Dot} (h : A ⊆ s.marks) : DotMarks A s s :=
  ⟨(Finset.union_eq_left.mpr h).symm, fun _ ↦ .inl⟩

/-- The recursion marks the inner nodes. -/
theorem cddFprintdotRec_marks {flip p : Bool} {s : Dot} (hd : L.WellFormed xterms d)
    (h : s.Entered (innerNodes d)) :
    DotMarks (innerNodes d) s (cddFprintdotRec flip d p s) := by
  induction hd generalizing p s with
  | terminal | xterm => exact .refl s
  | @bdd neg level low high hk hl hh hne hm hwl hwh ihl ihh =>
    have hreg : cddRglr (.bdd neg level low high) = .bdd false level low high := by
      cases neg <;> rfl
    have hself := Finset.mem_insert_self (DdNode.bdd false level low high)
      (innerNodes low ∪ innerNodes high)
    rw [innerNodes_bdd] at h ⊢
    rw [cddFprintdotRec]
    by_cases hc : (DdNode.bdd neg level low high, p) ∈ s.array
    · rw [if_pos hc]
      have hall := h _ hself (.inr ⟨_, hc, hreg⟩)
      rw [innerNodes_bdd] at hall
      have hmark : s.setmark (.bdd neg level low high) = s := by
        rw [Dot.setmark, cddSetmark, hreg, Finset.insert_eq_of_mem (hall hself)]
      rw [hmark]
      exact .of_subset hall
    · rw [if_neg hc]
      have hopen : ((s.insertArray (.bdd neg level low high) p).print
          (nodeLines flip (.bdd neg level low high) p)).Entered (innerNodes high ∪ innerNodes low) := by
        intro c hcA hent
        have hbelow : c ∈ innerNodes low ∪ innerNodes high := by
          rw [Finset.union_comm]
          exact hcA
        refine h c (Finset.mem_insert_of_mem hbelow) ?_
        rcases hent with hmk | ⟨q, hq, rfl⟩
        · exact .inl hmk
        · have hq : q ∈ s.array ++ [(DdNode.bdd neg level low high, p)] := hq
          rw [List.mem_append, List.mem_singleton] at hq
          cases hq with
          | inl hq => exact .inr ⟨q, hq, rfl⟩
          | inr hq =>
            subst hq
            rw [hreg, Finset.mem_union] at hcA
            cases hcA with
            | inl hcA =>
              exact absurd hcA (not_mem_of_height_lt (Nat.lt_succ_of_le (le_max_right _ _)))
            | inr hcA =>
              exact absurd hcA (not_mem_of_height_lt (Nat.lt_succ_of_le (le_max_left _ _)))
      have hhigh := ihh (p := p ^^ neg) (hopen.mono Finset.subset_union_left)
      have hlow := ihl (p := p ^^ neg)
        ((hopen.mono Finset.subset_union_right).next hhigh (innerNodes_closed high))
      have hboth := hhigh.trans hlow
      constructor
      · show insert (cddRglr _) _ = _
        rw [hreg]
        refine (congrArg (insert _) hboth.marks).trans ?_
        rw [Finset.union_comm (innerNodes high), Finset.union_insert]
        rfl
      · intro q hq
        rcases hboth.array q hq with hq | hq
        · have hq : q ∈ s.array ++ [(DdNode.bdd neg level low high, p)] := hq
          rw [List.mem_append, List.mem_singleton] at hq
          exact hq.imp_right fun hq ↦ by
            rw [hq, hreg]
            exact hself
        · rw [Finset.union_comm] at hq
          exact .inr (Finset.mem_insert_of_mem hq)
  | @cdd neg level elem hk hl hp ha h2 hm hw ih =>
    have hreg : cddRglr (.cdd neg level elem) = .cdd false level elem := by
      cases neg <;> rfl
    have hinner : innerNodes (.cdd false level elem) =
        insert (.cdd false level elem) (innerElem elem) := innerNodes_cdd
    have hself := Finset.mem_insert_self (DdNode.cdd false level elem) (innerElem elem)
    rw [show innerNodes (.cdd neg level elem) = innerNodes (.cdd false level elem) from rfl,
      hinner] at h ⊢
    rw [cddFprintdotRec]
    by_cases hc : DdNode.cdd false level elem ∈ s.marks
    · rw [if_pos (cddIsmarked_iff.mpr (hreg ▸ hc))]
      have hall := h _ hself (.inl hc)
      rw [hinner] at hall
      exact .of_subset hall
    · rw [if_neg fun hm' ↦ hc (hreg ▸ cddIsmarked_iff.mp hm')]
      have hopen : (s.print [.diff (.cdd neg level elem, some p) neg level]).Entered
          (innerElem elem) := h.mono (Finset.subset_insert _ _)
      have hloop : DotMarks (innerElem elem) _ (cddFprintdotElem flip
          (.cdd neg level elem, some p) (p ^^ neg) elem (some (neg ^^ p)) (-INF) _) :=
        cddFprintdotElem_marks hp (fun e he s hs ↦ ih e he hs) hopen
      constructor
      · show insert (cddRglr _) _ = _
        rw [hreg, hloop.marks, Finset.union_insert]
        rfl
      · intro q hq
        exact (hloop.array q hq).imp_right (Finset.mem_insert_of_mem ·)

theorem cddFprintdot_marks (hd : L.WellFormed xterms d) (pushNegate : Bool) :
    (cddFprintdot ∅ d pushNegate).2 = ∅ := by
  have hmarks : (cddFprintdotRec pushNegate d false ((⟨∅, [], []⟩ : Dot).print
      [.terminal cddtrue true, .terminal cddfalse false])).marks = innerNodes d := by
    rw [(cddFprintdotRec_marks hd ?_).marks]
    · exact Finset.empty_union _
    · intro c _ hent
      rcases hent with hm | ⟨q, hq, -⟩
      · exact absurd hm (Finset.notMem_empty c)
      · cases hq
  cases hterm : cddIsterminal d with
  | true =>
    have hrun : (cddFprintdot ∅ d pushNegate).2 = cddUnmark d ∅ := by
      rw [cddFprintdot, hterm]
      rfl
    have hempty : cddUnmark d ∅ = ∅ \ nodesBelow d :=
      clearMarks_spec fun _ c _ _ ↦ Finset.disjoint_empty_right _
    rw [hrun, hempty, Finset.empty_sdiff]
  | false =>
    have hrun : (cddFprintdot ∅ d pushNegate).2 = cddUnmark d (innerNodes d) := by
      rw [← hmarks, cddFprintdot, hterm]
      rfl
    rw [hrun, cddUnmark_innerNodes]

end

end UCDD

import UCDD.Diagram.Node

/-!
# Canonical form

Two well-formed diagrams with the same values are the same pointer. The negation bit is the
value at the lowest point of every level, where each node takes its first edge; below that
both diagrams are split at the smaller of their levels and compared child by child.
-/

namespace UCDD

open IntervalMap DdNode

variable {L : Library}

/-- The assignment that selects the first edge everywhere. -/
def Assignment.lowest : Assignment := ⟨fun _ ↦ false, fun _ ↦ Cut.lowest⟩

/-- The assignment with another point at the CDD level `level`. -/
def Assignment.setDiff (a : Assignment) (level : ℕ) (c : Cut INF) : Assignment :=
  ⟨a.bool, Function.update a.diff level c⟩

/-- The assignment with another truth value at the BDD level `level`. -/
def Assignment.setBool (a : Assignment) (level : ℕ) (b : Bool) : Assignment :=
  ⟨Function.update a.bool level b, a.diff⟩

@[simp] theorem Assignment.setDiff_diff (a : Assignment) (level : ℕ) (c : Cut INF) :
    (a.setDiff level c).diff level = c := Function.update_self ..

@[simp] theorem Assignment.setBool_bool (a : Assignment) (level : ℕ) (b : Bool) :
    (a.setBool level b).bool level = b := Function.update_self ..

theorem eval_setDiff {d : DdNode} (h : L.WF d) {level : ℕ} (hl : level < d.level) (a : Assignment)
    (c : Cut INF) : eval (a.setDiff level c) d = eval a d := by
  refine eval_congr h fun ℓ hℓ ↦ ⟨rfl, ?_⟩
  exact Function.update_of_ne (by omega) _ _

theorem eval_setBool {d : DdNode} (h : L.WF d) {level : ℕ} (hl : level < d.level) (a : Assignment)
    (b : Bool) : eval (a.setBool level b) d = eval a d := by
  refine eval_congr h fun ℓ hℓ ↦ ⟨?_, rfl⟩
  exact Function.update_of_ne (by omega) _ _

/-- At the lowest assignment every node takes its first edge, a regular pointer. -/
theorem eval_lowest {d : DdNode} (h : L.WF d) : eval .lowest d = cddMask d := by
  induction h with
  | terminal neg => rfl
  | xterm neg hid => exact absurd hid (Nat.not_lt_zero _)
  | @bdd neg level low high _ _ _ _ hm _ _ ihl _ =>
    have he : eval .lowest (.bdd neg level low high) = (neg ^^ eval .lowest low) := by
      rw [eval]
      rfl
    rw [he, ihl, hm, cddMask, Bool.xor_false]
  | @cdd neg level elem _ _ hp _ _ hm _ ih =>
    obtain ⟨e, es, rfl⟩ := List.exists_cons_of_ne_nil hp.ne_nil
    have he : evalElem .lowest (Assignment.lowest.diff level) (e :: es) = eval .lowest e.1 := rfl
    rw [eval, he, ih e (by simp), hm e rfl, cddMask, Bool.xor_false]

/-- Diagrams that agree at every assignment agree edge by edge at every CDD level not below
either of them. -/
private theorem select_edges_eq {c d : DdNode} {level : ℕ} {es fs : List (DdNode × Raw)}
    (hc : EdgesAt L 0 level c es) (hd : EdgesAt L 0 level d fs)
    (hmask : cddMask c = cddMask d) (h : ∀ a, eval a c = eval a d)
    (ih : ∀ x ∈ es, ∀ y ∈ fs, (∀ a, eval a x.1 = eval a y.1) → x.1 = y.1) (p : Cut INF) :
    select p es = select p fs := by
  obtain ⟨x, s, hx, hxm, -⟩ := hc.partition.select_isSome p
  obtain ⟨y, t, hy, hym, -⟩ := hd.partition.select_isSome p
  rw [hx, hy]
  refine congrArg some (ih _ hxm _ hym fun a ↦ ?_)
  have ha := h (a.setDiff level p)
  rw [hc.eval_eq, hd.eval_eq, hmask] at ha
  have ha' := Bool.xor_right_inj.mp ha
  simp only [Assignment.setDiff_diff] at ha'
  rw [evalElem_of_select hx, evalElem_of_select hy] at ha'
  rwa [eval_setDiff (hc.wf _ hxm) (hc.level_lt _ hxm),
    eval_setDiff (hd.wf _ hym) (hd.level_lt _ hym)] at ha'

/-- Diagrams that agree at every assignment agree edge by edge at every BDD level not below
either of them. -/
private theorem eval_bddEdges_eq {c d cl ch dl dh : DdNode} {level : ℕ}
    (hc : BddEdgesAt L 0 level c cl ch) (hd : BddEdgesAt L 0 level d dl dh)
    (hmask : cddMask c = cddMask d) (h : ∀ a, eval a c = eval a d) (a : Assignment) :
    eval a cl = eval a dl ∧ eval a ch = eval a dh := by
  have hb (b : Bool) := h (a.setBool level b)
  simp only [hc.eval_eq, hd.eval_eq, hmask, Bool.xor_right_inj, Assignment.setBool_bool,
    eval_setBool hc.wf_low hc.level_low, eval_setBool hd.wf_low hd.level_low,
    eval_setBool hc.wf_high hc.level_high, eval_setBool hd.wf_high hd.level_high] at hb
  exact ⟨hb false, hb true⟩

private theorem level_eq_of_edges_eq {c d : DdNode} {level : ℕ}
    (hc : EdgesAt L 0 level c (edgesAt level c)) (hle : level ≤ d.level)
    (hes : edgesAt level c = edgesAt level d) (hl : c.level = level) : d.level = level := by
  by_contra hne
  have h2 := hc.two_le hl
  rw [hes, edgesAt, if_neg (by omega)] at h2
  simp at h2

private theorem level_eq_of_bddEdges_eq {c d : DdNode} {level : ℕ}
    (hc : BddEdgesAt L 0 level c (lowAt level c) (highAt level c)) (hle : level ≤ d.level)
    (hlow : lowAt level c = lowAt level d) (hhigh : highAt level c = highAt level d)
    (hl : c.level = level) : d.level = level := by
  by_contra hne
  apply hc.ne hl
  rw [hlow, hhigh, lowAt, highAt, if_neg (by omega), if_neg (by omega)]

/-- Well-formed diagrams with the same values are the same pointer. -/
theorem eq_of_eval_eq {c d : DdNode} (hc : L.WF c) (hd : L.WF d) (h : ∀ a, eval a c = eval a d) :
    c = d := by
  induction hn : c.height + d.height using Nat.strong_induction_on generalizing c d with
  | _ n ih =>
  have hmask : cddMask c = cddMask d := by rw [← eval_lowest hc, ← eval_lowest hd, h]
  cases hterm : cddIsterminal c && cddIsterminal d with
  | true =>
    obtain ⟨hct, hdt⟩ := Bool.and_eq_true_iff.mp hterm
    rcases hc.eq_terminal hct with rfl | rfl <;> rcases hd.eq_terminal hdt with rfl | rfl <;>
      first | rfl | cases hmask
  | false =>
    obtain ⟨hlt, info, hinfo⟩ := min_level_declared hc hd hterm
    have hcl : c.level = min c.level d.level ∨ d.level = min c.level d.level := by omega
    cases info with
    | cdd i j =>
      have hk : L.isCdd (min c.level d.level) := ⟨i, j, hinfo⟩
      have hec := edgesAt_spec hc hk hlt (min_le_left _ _)
      have hed := edgesAt_spec hd hk hlt (min_le_right _ _)
      have hes : edgesAt (min c.level d.level) c = edgesAt (min c.level d.level) d := by
        refine ext_of_select hec.partition hed.partition hec.alternating hed.alternating fun p ↦
          select_edges_eq hec hed hmask h (fun x hx y hy hxy ↦ ?_) p
        refine ih _ (hn ▸ ?_) (hec.wf x hx) (hed.wf y hy) hxy rfl
        exact height_add_lt (hec.height_le x hx) (hed.height_le y hy)
          (fun h ↦ hec.height_lt h x hx) fun h ↦ hed.height_lt h y hy
      have hl : c.level = min c.level d.level ∧ d.level = min c.level d.level := by
        rcases hcl with hcl | hdl
        · exact ⟨hcl, level_eq_of_edges_eq hec (min_le_right _ _) hes hcl⟩
        · exact ⟨level_eq_of_edges_eq hed (min_le_left _ _) hes.symm hdl, hdl⟩
      rw [edgesAt, edgesAt, if_pos (le_of_eq hl.1), if_pos (le_of_eq hl.2)] at hes
      rw [hc.eq_cdd (hl.1 ▸ hk) (hl.1 ▸ hlt), hd.eq_cdd (hl.2 ▸ hk) (hl.2 ▸ hlt), hmask, hes,
        hl.1.trans hl.2.symm]
    | bdd =>
      have hec := bddEdgesAt_spec hc hinfo hlt (min_le_left _ _)
      have hed := bddEdgesAt_spec hd hinfo hlt (min_le_right _ _)
      have heval := eval_bddEdges_eq hec hed hmask h
      have hlow : lowAt (min c.level d.level) c = lowAt (min c.level d.level) d :=
        ih _ (hn ▸ height_add_lt hec.height_low hed.height_low (fun h ↦ (hec.height_lt h).1)
          fun h ↦ (hed.height_lt h).1) hec.wf_low hed.wf_low (fun a ↦ (heval a).1) rfl
      have hhigh : highAt (min c.level d.level) c = highAt (min c.level d.level) d :=
        ih _ (hn ▸ height_add_lt hec.height_high hed.height_high (fun h ↦ (hec.height_lt h).2)
          fun h ↦ (hed.height_lt h).2) hec.wf_high hed.wf_high (fun a ↦ (heval a).2) rfl
      have hl : c.level = min c.level d.level ∧ d.level = min c.level d.level := by
        rcases hcl with hcl | hdl
        · exact ⟨hcl, level_eq_of_bddEdges_eq hec (min_le_right _ _) hlow hhigh hcl⟩
        · exact ⟨level_eq_of_bddEdges_eq hed (min_le_left _ _) hlow.symm hhigh.symm hdl, hdl⟩
      rw [lowAt, lowAt, if_pos (le_of_eq hl.1), if_pos (le_of_eq hl.2)] at hlow
      rw [highAt, highAt, if_pos (le_of_eq hl.1), if_pos (le_of_eq hl.2)] at hhigh
      rw [hc.eq_bdd (hl.1 ▸ hinfo) (hl.1 ▸ hlt), hd.eq_bdd (hl.2 ▸ hinfo) (hl.2 ▸ hlt), hmask,
        hlow, hhigh, hl.1.trans hl.2.symm]

end UCDD

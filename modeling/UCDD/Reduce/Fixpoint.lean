import UCDD.Reduce.InZone

/-!
# Fixpoints of the reduction

`cdd_reduce` of `cddop.c:1375–1491` as an operation on diagrams: what it leaves as it is, and what
it does to a negated pointer. The mask that the recursion passes down meets the masks of the new
nodes again on the way up.
-/

namespace UCDD

open IntervalMap DdNode

section

variable {L : Library} {xterms : ℕ} {mask mask0 : Bool} {level : ℕ}

/-- The elements that are left do not depend on a negation of all of them. -/
private theorem reduceRestIn_negCond (c : Bool) {es : List (DdNode × Raw)}
    (hcalls : ∀ e ∈ es, ∀ mask Z,
      reduceIn L (mask ^^ c) e.1 Z = cddNegCond (reduceIn L mask e.1 Z) c)
    (low : Raw) (m : DdNode) (Z : Set (ℕ → ℝ)) :
    reduceRestIn L (mask ^^ c) (mask0 ^^ c) level es low (cddNegCond m c) Z =
      reduceRestIn L mask mask0 level es low m Z := by
  have hmask : (c ^^ (mask0 ^^ c)) = mask0 := by
    cases c <;> cases mask0 <;> rfl
  induction es generalizing low m with
  | nil => rw [reduceRestIn, reduceRestIn, cddNegCond_negCond, hmask]
  | cons e es ih =>
    obtain ⟨child, bnd⟩ := e
    obtain ⟨hchild, hcalls⟩ := List.forall_mem_cons.mp hcalls
    rw [reduceRestIn, reduceRestIn]
    by_cases habove : (L.above level low Z).Nonempty
    · rw [if_pos habove, if_pos habove, hchild]
      simp only [(cddNegCond_injective c).eq_iff, ih hcalls, cddNegCond_negCond, hmask]
    · rw [if_neg habove, if_neg habove, cddNegCond_negCond, hmask]

private theorem reduceFirstIn_negCond (c : Bool) {es : List (DdNode × Raw)}
    (hp : Partition INF es)
    (hcalls : ∀ e ∈ es, ∀ mask Z,
      reduceIn L (mask ^^ c) e.1 Z = cddNegCond (reduceIn L mask e.1 Z) c)
    (Z : Set (ℕ → ℝ)) :
    reduceFirstIn L (mask ^^ c) level es Z = cddNegCond (reduceFirstIn L mask level es Z) c := by
  induction es with
  | nil => exact absurd hp id
  | cons e es ih =>
    obtain ⟨child, bnd⟩ := e
    obtain ⟨hchild, hrest⟩ := List.forall_mem_cons.mp hcalls
    rw [reduceFirstIn, reduceFirstIn]
    by_cases hINF : bnd = INF
    · rw [if_pos hINF, if_pos hINF]
      exact hchild mask Z
    · rw [if_neg hINF, if_neg hINF]
      by_cases hbelow : (L.below level bnd Z).Nonempty
      · rw [if_pos hbelow, if_pos hbelow, hchild]
        simp only [cddMask_negCond, reduceRestIn_negCond c hrest, cddNegCond_negCond]
      · rw [if_neg hbelow, if_neg hbelow]
        cases es with
        | nil => exact absurd hp hINF
        | cons e' es => exact ih hp.2 hrest

/-- The reduction under a mask is the reduction, negated. -/
theorem reduceIn_negCond {d : DdNode} (hd : L.WellFormed xterms d) (mask c : Bool)
    (Z : Set (ℕ → ℝ)) : reduceIn L (mask ^^ c) d Z = cddNegCond (reduceIn L mask d Z) c := by
  induction hd generalizing mask Z with
  | terminal neg => rw [reduceIn, reduceIn, cddNegCond, Bool.xor_assoc]
  | xterm neg => rw [reduceIn, reduceIn, cddNegCond, Bool.xor_assoc]
  | @bdd neg level low high _ _ _ _ _ _ _ ihl ihh =>
    rw [reduceIn, reduceIn, ← Bool.xor_assoc, ihl, ihh]
    unfold cddMakeBddNode
    simp only [(cddNegCond_injective c).eq_iff]
    split
    · rfl
    · simp only [cddMask_negCond, cddRglr_negCond, cddNegCond_negCond]
      congr 2
      cases c <;> simp
  | @cdd neg level elem _ _ hp _ _ _ _ ih =>
    rw [reduceIn, reduceIn, ← Bool.xor_assoc]
    exact reduceFirstIn_negCond c hp ih Z

end

end UCDD

import UCDD.Diagram.Interval
import UCDD.Reduce.ApplyReduceCorrect
import UCDD.Reduce.Reduce2

/-!
# Terms of the C++ interface

What a program builds with the constructors and operators of `include/cdd/cdd.h:880–1193`. The
diagram of a term holds where the term does. `operator==` compares pointers: without a reduction in
the terms it decides whether they agree when the differences of the clocks are independent, and
`cdd_reduce(l ^ r) == cdd_false()` whether they agree at all valuations.
-/

namespace UCDD

open IntervalMap DdNode

/-- A term. `cdd_lower` is the negation of `cdd_upper`, `cdd_bddnvar` that of `cdd_bddvar`, and
`operator-` a conjunction with a negation. -/
inductive Term where
  | const (value : Bool)
  | bddvar (level : ℕ)
  | interval (i j : ℕ) (low high : ℤ)
  | upper (i j : ℕ) (bnd : ℤ)
  | neg (t : Term)
  | apply (op : CddOp) (t u : Term)
  | or (t u : Term)
  | ite (f t u : Term)
  | applyReduce (op : CddOp) (t u : Term)
  | reduce (t : Term)
  | reduce2 (t : Term)

/-- The connective of an operator. -/
def CddOp.Sat : CddOp → Prop → Prop → Prop
  | and, p, q => p ∧ q
  | xor, p, q => ¬ (p ↔ q)

/-- The point is below the bound; no point is below `-INF`. -/
def isBelow (c : Cut INF) (b : Raw) : Bool := decide (b ≠ -INF) && c.below b

namespace Term

/-- The diagram of a term; `cache` is what the lookups of `cdd_apply_reduce` find. -/
def diagram (L : Library) (cache : ApplyCache) : Term → Option DdNode
  | const value => some (if value then cddtrue else cddfalse)
  | bddvar level => some (cddBddvar level)
  | interval i j low high => some (rawInterval L i j low high)
  | upper i j bnd => some (cddUpper L i j bnd)
  | neg t => (diagram L cache t).map cddNeg
  | apply op t u => do cddApply L ⊤ op (← diagram L cache t) (← diagram L cache u)
  | or t u => do return cddOr L (← diagram L cache t) (← diagram L cache u)
  | ite f t u => do
    return cddIte L (← diagram L cache f) (← diagram L cache t) (← diagram L cache u)
  | applyReduce op t u => do
    cddApplyReduce L ⊤ cache (← diagram L cache t) (← diagram L cache u) op
  | reduce t => do cddReduce L (← diagram L cache t)
  | reduce2 t => do cddReduce2 L (← diagram L cache t)

/-- The valuations at which a term holds. -/
def Sat (v : Valuation) : Term → Prop
  | const value => value = true
  | bddvar level => v.bool level = true
  | interval i j low high =>
    ¬ Below (v.clock i - v.clock j) (.ofCode low) ∧ Below (v.clock i - v.clock j) (.ofCode high)
  | upper i j bnd => Below (v.clock i - v.clock j) (.ofCode bnd)
  | neg t => ¬ t.Sat v
  | apply op t u | applyReduce op t u => op.Sat (t.Sat v) (u.Sat v)
  | or t u => t.Sat v ∨ u.Sat v
  | ite f t u => (f.Sat v ∧ t.Sat v) ∨ (¬ f.Sat v ∧ u.Sat v)
  | reduce t | reduce2 t => t.Sat v

/-- The value of a term when each level has its own value. -/
def eval (L : Library) (a : Assignment) : Term → Bool
  | const value => value
  | bddvar level => a.bool level
  | interval i j low high =>
    if i > j then inPiece (a.diff (L.diff2level (cddDifference i j))) (.ofCode low) (.ofCode high)
    else inPiece (a.diff (L.diff2level (cddDifference j i))) (.ofCode (rawU2l high))
      (.ofCode (rawL2u low))
  | upper i j bnd =>
    if i > j then isBelow (a.diff (L.diff2level (cddDifference i j))) (.ofCode bnd)
    else !isBelow (a.diff (L.diff2level (cddDifference j i))) (.ofCode (rawU2l bnd))
  | neg t => !t.eval L a
  | apply op t u | applyReduce op t u => op.eval (t.eval L a) (u.eval L a)
  | or t u => t.eval L a || u.eval L a
  | ite f t u => bif f.eval L a then t.eval L a else u.eval L a
  | reduce t | reduce2 t => t.eval L a

/-- The levels and clocks are declared, and the codes of the bounds are in range. The interval is
not empty or the whole line, and it is none of those that the macros lose. -/
def Legal (L : Library) : Term → Prop
  | const _ => True
  | bddvar level => L.levelinfo[level]? = some .bdd
  | interval i j low high => i < L.clocknum ∧ j < L.clocknum ∧ i ≠ j ∧ -rawINF ≤ low ∧
      low < high ∧ high ≤ rawINF ∧ low ≠ -rawINF + 1 ∧ (i < j → low ≠ -rawINF) ∧
      ¬ (low = -rawINF ∧ high = rawINF)
  | upper i j bnd => i < L.clocknum ∧ j < L.clocknum ∧ i ≠ j ∧ -rawINF ≤ bnd ∧ bnd ≤ rawINF ∧
      (i < j → -rawINF + 1 < bnd)
  | neg t | reduce t | reduce2 t => t.Legal L
  | apply _ t u | or t u | applyReduce _ t u => t.Legal L ∧ u.Legal L
  | ite f t u => f.Legal L ∧ t.Legal L ∧ u.Legal L

instance decidableLegal (L : Library) : (t : Term) → Decidable (t.Legal L)
  | const _ => inferInstanceAs (Decidable True)
  | bddvar level => inferInstanceAs (Decidable (L.levelinfo[level]? = some .bdd))
  | interval i j low high => inferInstanceAs (Decidable (i < L.clocknum ∧ j < L.clocknum ∧ i ≠ j ∧
      -rawINF ≤ low ∧ low < high ∧ high ≤ rawINF ∧ low ≠ -rawINF + 1 ∧ (i < j → low ≠ -rawINF) ∧
      ¬ (low = -rawINF ∧ high = rawINF)))
  | upper i j bnd => inferInstanceAs (Decidable (i < L.clocknum ∧ j < L.clocknum ∧ i ≠ j ∧
      -rawINF ≤ bnd ∧ bnd ≤ rawINF ∧ (i < j → -rawINF + 1 < bnd)))
  | neg t | reduce t | reduce2 t => decidableLegal L t
  | apply _ t u | or t u | applyReduce _ t u =>
    have := decidableLegal L t
    have := decidableLegal L u
    inferInstanceAs (Decidable (t.Legal L ∧ u.Legal L))
  | ite f t u =>
    have := decidableLegal L f
    have := decidableLegal L t
    have := decidableLegal L u
    inferInstanceAs (Decidable (f.Legal L ∧ t.Legal L ∧ u.Legal L))

/-- No reduction is in the term. -/
def Plain : Term → Prop
  | const _ | bddvar _ | interval .. | upper .. => True
  | neg t => t.Plain
  | apply _ t u | or t u => t.Plain ∧ u.Plain
  | ite f t u => f.Plain ∧ t.Plain ∧ u.Plain
  | applyReduce .. | reduce _ | reduce2 _ => False

end Term

/-- The diagram is proper, and it holds where the term does; if no reduction is in the term, it has
the value of the term at every assignment. -/
structure Term.Denotes (L : Library) (t : Term) (d : DdNode) : Prop where
  proper : L.Proper d
  holds_iff : ∀ v, Holds L v d ↔ t.Sat v
  eval_eq : t.Plain → ∀ a, UCDD.eval a d = t.eval L a

section

variable {L : Library} {cache : ApplyCache} {level i j : ℕ} {low high bnd : ℤ} {t u f : Term}
  {c d e : DdNode}

/-! ### Constraints -/

theorem Term.denotes_const (value : Bool) :
    (Term.const value).Denotes L (if value then cddtrue else cddfalse) := by
  cases value with
  | true => exact ⟨proper_cddtrue, fun v ↦ by simp [Term.Sat], fun _ a ↦ by simp [Term.eval]⟩
  | false => exact ⟨proper_cddfalse, fun v ↦ by simp [Term.Sat], fun _ a ↦ by simp [Term.eval]⟩

theorem Term.denotes_bddvar (hlen : L.levelinfo.length ≤ maxLevel)
    (hk : L.levelinfo[level]? = some .bdd) : (Term.bddvar level).Denotes L (cddBddvar level) := by
  have hlt : level < maxLevel := lt_of_lt_of_le (List.getElem?_eq_some_iff.mp hk).1 hlen
  refine ⟨proper_cddBddvar hk hlt, fun v ↦ holds_cddBddvar hk hlt, ?_⟩
  intro _ a
  exact (cddBddvar_builds hk hlt).eval_eq a

theorem cddUpperFromLevel_spec (hk : L.isCdd level) (hlt : level < maxLevel) (b : ℤ) :
    L.Proper (cddUpperFromLevel level b) ∧
      ∀ a : Assignment, eval a (cddUpperFromLevel level b) =
        isBelow (a.diff level) (.ofCode b) := by
  unfold cddUpperFromLevel
  split_ifs with h h'
  · rw [h, ofCode_rawINF]
    exact ⟨proper_cddtrue, fun a ↦ by
      simp [isBelow, (a.diff level).top_below, ne_of_gt neg_INF_lt]⟩
  · rw [h', ofCode_neg_rawINF]
    exact ⟨proper_cddfalse, fun a ↦ by simp [isBelow]⟩
  · have hfin : Raw.ofCode b = .fin b := ofCode_fin h h'
    have hint : Interval (-INF) (.ofCode b) := by
      rw [hfin]
      exact ⟨Raw.negInf_lt_fin b, Or.inr fun heq ↦ by cases heq⟩
    have hnode : cddIntervalFromLevel level (-INF) (.ofCode b) = cddNeg
        ((cddMakeCddNode ⊤ level [(cddfalse, .ofCode b), (cddtrue, INF)]).getD cddfalse) := rfl
    obtain ⟨hproper, heval⟩ := cddIntervalFromLevel_spec hk hlt hint
    rw [hnode] at hproper heval
    refine ⟨hproper, ?_⟩
    intro a
    have hne : Raw.fin b ≠ -INF := fun heq ↦ by cases heq
    rw [heval, isBelow, hfin, inPiece]
    simp [hne]

theorem Term.denotes_interval (hL : L.Declared) (hlen : L.levelinfo.length ≤ maxLevel)
    (h : (Term.interval i j low high).Legal L) :
    (Term.interval i j low high).Denotes L (rawInterval L i j low high) := by
  obtain ⟨hi, hj, hij, hlow, hlt, hhigh, hlost, hinf, hwhole⟩ := h
  cases Nat.lt_or_gt_of_ne hij with
  | inl hlt' =>
    obtain ⟨hk, hmax⟩ := level_of_clocks hL hlen hj hlt'
    have hneg : low ≠ -rawINF := hinf hlt'
    have hnode : rawInterval L i j low high = cddIntervalFromLevel
        (L.diff2level (cddDifference j i)) (.ofCode (rawU2l high)) (.ofCode (rawL2u low)) :=
      if_neg (not_lt.mpr (le_of_lt hlt'))
    have hint : Interval (.ofCode (rawU2l high)) (.ofCode (rawL2u low)) := by
      rw [ofCode_rawU2l (by omega) hhigh (by omega), ofCode_rawL2u (by omega) hlost]
      apply Interval.mirror
      refine ⟨ofCode_lt hlt hlow hhigh, Or.inl ?_⟩
      rw [ofCode_fin (by omega) hneg]
      exact fun heq ↦ by cases heq
    obtain ⟨hproper, heval⟩ := cddIntervalFromLevel_spec ⟨j, i, hk⟩ hmax hint
    refine ⟨hnode ▸ hproper, ?_, ?_⟩
    · exact (denotesInterval_of_lt hL hlen hj hlt' (by omega) hlt hhigh hlost).holds_iff
    · intro _ a
      rw [hnode, heval, Term.eval, if_neg (not_lt.mpr (le_of_lt hlt'))]
  | inr hgt =>
    obtain ⟨hk, hmax⟩ := level_of_clocks hL hlen hi hgt
    have hnode : rawInterval L i j low high = cddIntervalFromLevel
        (L.diff2level (cddDifference i j)) (.ofCode low) (.ofCode high) := if_pos hgt
    have hint : Interval (.ofCode low) (.ofCode high) := by
      refine ⟨ofCode_lt hlt hlow hhigh, ?_⟩
      by_cases hl : low = -rawINF
      · have hh : high ≠ rawINF := fun heq ↦ hwhole ⟨hl, heq⟩
        rw [ofCode_fin hh (by omega)]
        exact Or.inr fun heq ↦ by cases heq
      · rw [ofCode_fin (by omega) hl]
        exact Or.inl fun heq ↦ by cases heq
    obtain ⟨hproper, heval⟩ := cddIntervalFromLevel_spec ⟨i, j, hk⟩ hmax hint
    refine ⟨hnode ▸ hproper, ?_, ?_⟩
    · exact (denotesInterval_of_gt hL hlen hi hgt hlow hlt hhigh hlost).holds_iff
    · intro _ a
      rw [hnode, heval, Term.eval, if_pos hgt]

theorem Term.denotes_upper (hL : L.Declared) (hlen : L.levelinfo.length ≤ maxLevel)
    (h : (Term.upper i j bnd).Legal L) :
    (Term.upper i j bnd).Denotes L (cddUpper L i j bnd) := by
  obtain ⟨hi, hj, hij, hlow, hhigh, hlost⟩ := h
  cases Nat.lt_or_gt_of_ne hij with
  | inl hlt =>
    obtain ⟨hk, hmax⟩ := level_of_clocks hL hlen hj hlt
    have hnot : ¬ i > j := not_lt.mpr (le_of_lt hlt)
    have hlost := hlost hlt
    have hnode : cddUpper L i j bnd =
        cddNeg (cddUpperFromLevel (L.diff2level (cddDifference j i)) (rawU2l bnd)) := if_neg hnot
    obtain ⟨hproper, heval⟩ := cddUpperFromLevel_spec ⟨j, i, hk⟩ hmax (rawU2l bnd)
    refine ⟨hnode ▸ hproper.neg, ?_, ?_⟩
    · intro v
      rw [hnode, holds_cddNeg, holds_cddUpperFromLevel hk hmax,
        ofCode_rawU2l (by omega) hhigh (by omega), ← neg_sub, below_bndU2l, not_not, Term.Sat]
    · intro _ a
      rw [hnode, eval_neg, heval, Term.eval, if_neg hnot]
  | inr hgt =>
    obtain ⟨hk, hmax⟩ := level_of_clocks hL hlen hi hgt
    have hnode : cddUpper L i j bnd =
        cddUpperFromLevel (L.diff2level (cddDifference i j)) bnd := if_pos hgt
    obtain ⟨hproper, heval⟩ := cddUpperFromLevel_spec ⟨i, j, hk⟩ hmax bnd
    refine ⟨hnode ▸ hproper, ?_, ?_⟩
    · intro v
      rw [hnode, holds_cddUpperFromLevel hk hmax, Term.Sat]
    · intro _ a
      rw [hnode, heval, Term.eval, if_pos hgt]

/-! ### Operators -/

theorem CddOp.eval_iff (op : CddOp) (p q : Bool) :
    op.eval p q = true ↔ op.Sat (p = true) (q = true) := by
  cases op <;> cases p <;> cases q <;> simp [CddOp.eval, CddOp.Sat]

theorem Term.Denotes.neg (h : t.Denotes L d) : t.neg.Denotes L (cddNeg d) where
  proper := h.proper.neg
  holds_iff v := by rw [holds_cddNeg, h.holds_iff, Term.Sat]
  eval_eq hplain a := by rw [eval_neg, h.eval_eq hplain, Term.eval]

theorem Term.Denotes.apply (ht : t.Denotes L d) (hu : u.Denotes L e) (op : CddOp) :
    ∃ n, cddApply L ⊤ op d e = some n ∧ (Term.apply op t u).Denotes L n := by
  obtain ⟨n, hn, hbuilds, hinherits⟩ := cddApply_spec op ht.proper.wf hu.proper.wf
  refine ⟨n, hn, ⟨hbuilds.wf, ?_⟩, ?_, ?_⟩
  · exact hinherits _ _ neg_INF_lt ht.proper.inRange hu.proper.inRange
  · intro v
    have ht' := ht.holds_iff v
    have hu' := hu.holds_iff v
    unfold Holds at ht' hu' ⊢
    rw [hbuilds.eval_eq, op.eval_iff, ht', hu', Term.Sat]
  · intro hplain a
    rw [hbuilds.eval_eq, ht.eval_eq hplain.1, hu.eval_eq hplain.2, Term.eval]

theorem Term.Denotes.or (ht : t.Denotes L d) (hu : u.Denotes L e) :
    (Term.or t u).Denotes L (cddOr L d e) where
  proper := ht.proper.or hu.proper
  holds_iff v := by
    rw [holds_cddOr ht.proper.wf hu.proper.wf, ht.holds_iff, hu.holds_iff, Term.Sat]
  eval_eq hplain a := by
    rw [eval_cddOr ht.proper.wf hu.proper.wf, ht.eval_eq hplain.1, hu.eval_eq hplain.2, Term.eval]

theorem Term.Denotes.ite (hf : f.Denotes L c) (ht : t.Denotes L d) (hu : u.Denotes L e) :
    (Term.ite f t u).Denotes L (cddIte L c d e) where
  proper := hf.proper.ite ht.proper hu.proper
  holds_iff v := by
    have hand : L.Proper (cddAnd L c d) := hf.proper.and ht.proper
    have hand' : L.Proper (cddAnd L (cddNeg c) e) := hf.proper.neg.and hu.proper
    rw [cddIte, holds_cddOr hand.wf hand'.wf, holds_cddAnd hf.proper.wf ht.proper.wf,
      holds_cddAnd hf.proper.wf.neg hu.proper.wf, holds_cddNeg, hf.holds_iff, ht.holds_iff,
      hu.holds_iff, Term.Sat]
  eval_eq hplain a := by
    rw [eval_cddIte hf.proper.wf ht.proper.wf hu.proper.wf, hf.eval_eq hplain.1,
      ht.eval_eq hplain.2.1, hu.eval_eq hplain.2.2, Term.eval]

/-! ### Terms -/

/-- Every term that keeps to the interface has a diagram, which denotes it. -/
theorem Term.diagram_spec (hL : L.Declared) (hlen : L.levelinfo.length ≤ maxLevel)
    (hcache : cache.Valid L) (h : t.Legal L) :
    ∃ d, t.diagram L cache = some d ∧ t.Denotes L d := by
  induction t with
  | const value => exact ⟨_, rfl, denotes_const value⟩
  | bddvar level => exact ⟨_, rfl, denotes_bddvar hlen h⟩
  | interval i j low high => exact ⟨_, rfl, denotes_interval hL hlen h⟩
  | upper i j bnd => exact ⟨_, rfl, denotes_upper hL hlen h⟩
  | neg t iht =>
    obtain ⟨d, hd, ht⟩ := iht h
    exact ⟨cddNeg d, by rw [diagram, hd]; rfl, ht.neg⟩
  | apply op t u iht ihu =>
    obtain ⟨d, hd, ht⟩ := iht h.1
    obtain ⟨e, he, hu⟩ := ihu h.2
    obtain ⟨n, hn, happly⟩ := ht.apply hu op
    exact ⟨n, by rw [diagram, hd, he]; exact hn, happly⟩
  | or t u iht ihu =>
    obtain ⟨d, hd, ht⟩ := iht h.1
    obtain ⟨e, he, hu⟩ := ihu h.2
    exact ⟨cddOr L d e, by rw [diagram, hd, he]; rfl, ht.or hu⟩
  | ite f t u ihf iht ihu =>
    obtain ⟨c, hc, hf⟩ := ihf h.1
    obtain ⟨d, hd, ht⟩ := iht h.2.1
    obtain ⟨e, he, hu⟩ := ihu h.2.2
    exact ⟨cddIte L c d e, by rw [diagram, hc, hd, he]; rfl, hf.ite ht hu⟩
  | applyReduce op t u iht ihu =>
    obtain ⟨d, hd, ht⟩ := iht h.1
    obtain ⟨e, he, hu⟩ := ihu h.2
    obtain ⟨n, hn, hproper, -, hiff⟩ := cddApplyReduce_spec hL hcache op ht.proper hu.proper
    refine ⟨n, by rw [diagram, hd, he]; exact hn, hproper, ?_, fun hplain ↦ hplain.elim⟩
    intro v
    rw [hiff, op.eval_iff, Sat, ← ht.holds_iff, ← hu.holds_iff]
    rfl
  | reduce t iht =>
    obtain ⟨d, hd, ht⟩ := iht h
    obtain ⟨n, hn, hred⟩ := cddReduce_spec hL ht.proper
    refine ⟨n, by rw [diagram, hd]; exact hn, hred.proper, ?_, fun hplain ↦ hplain.elim⟩
    intro v
    rw [hred.holds_iff, ht.holds_iff, Sat]
  | reduce2 t iht =>
    obtain ⟨d, hd, ht⟩ := iht h
    obtain ⟨n, hn, hproper, -, hiff⟩ := cddReduce2Rec_spec hL ht.proper (maxLevel + 1) (by omega)
    refine ⟨n, by rw [diagram, hd]; exact hn, hproper, ?_, fun hplain ↦ hplain.elim⟩
    intro v
    rw [hiff, ht.holds_iff, Sat]

end

end UCDD

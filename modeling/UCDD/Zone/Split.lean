import Mathlib.Data.Set.Card
import UCDD.Lib.Loop
import UCDD.Zone.Extract

/-!
# Splitting a diagram into zones

The loop of `cdd_delay`, `cdd_past`, `cdd_apply_reset` and `cdd_transition_back` in
`cppext.cpp`: while the root is on a clock level, reduce, extract a zone with its Boolean part,
take it and the negative valuations away, and add the image of the zone to the result. They
differ in the operation on the matrix.

The loop tests the diagram before it is reduced. Where the diagram has a clock level at its root
and holds nowhere, the reduced diagram is `cddfalse`, and the zone extracted from it is the whole
orthant.
-/

namespace UCDD

open DdNode Loop

/-- `!cdd_isterminal(copy) && cdd_info(copy)->type != TYPE_BDD`. -/
def isCddRoot (L : Library) (copy : DdNode) : Bool :=
  !cddIsterminal copy && decide (L.levelinfo[copy.level]? ≠ some .bdd)

/-- The body of the loop on `copy` and `res`. -/
def splitBody (L : Library) (U : Udbm) (op : Dbm → Dbm) (s : DdNode × DdNode) :
    Run (DdNode × DdNode) := do
  let copy ← .ofOption (cddReduce L s.1)
  let bottom ← .ofOption (cddExtractBdd L copy L.clocknum)
  let (copy, dbm) ← .ofOption (cddExtractDbm L U copy L.clocknum)
  let copy ← .ofOption (cddReduce L (cddRemoveNegative L copy))
  return (copy, cddOr L s.2 (cddAnd L (cddFromDbm L U (op dbm) L.clocknum) bottom))

/-- The loop, with at most `fuel` tests of its condition. -/
def splitLoop (L : Library) (U : Udbm) (op : Dbm → Dbm) (fuel : ℕ) (copy : DdNode) : Run DdNode := do
  let s ← iterate (fun s ↦ isCddRoot L s.1) (splitBody L U op) fuel (copy, cddfalse)
  return s.2

/-- The valuations that `R` leads to from the diagram; the Booleans stay. -/
def Library.Image (L : Library) (R : (ℕ → ℝ) → (ℕ → ℝ) → Prop) (d : DdNode) (w : Valuation) : Prop :=
  ∃ x, Holds L ⟨x, w.bool⟩ d ∧ R x w.clock

/-- The diagram holds somewhere. -/
def Satisfiable (L : Library) (d : DdNode) : Prop := ∃ v, Holds L v d

/-- No clock is above `M` where the diagram holds. -/
def BoundedBy (L : Library) (M : ℕ) (d : DdNode) : Prop :=
  ∀ v : Valuation, Holds L v d → ∀ i < L.clocknum, v.clock i ≤ v.clock 0 + M

/-- `r` holds where `R` leads to from `d`. -/
def IsImage (L : Library) (R : (ℕ → ℝ) → (ℕ → ℝ) → Prop) (d r : DdNode) : Prop :=
  ∀ w, Holds L w r ↔ L.Image R d w

/-- The runs compute the image of the diagram: they do not fail, what they return holds at the
image, and with bounded clocks they return. -/
structure Computes (L : Library) (R : (ℕ → ℝ) → (ℕ → ℝ) → Prop) (d : DdNode)
    (run : ℕ → Run DdNode) : Prop where
  safe : ∀ fuel, Run.Safe (IsImage L R d) (run fuel)
  returns : ∀ M, BoundedBy L M d → ∃ fuel r, run fuel = .done r

section

variable {L : Library} {d : DdNode}

theorem isCddRoot_eq (h : L.WF d) : isCddRoot L d = isCddNode d := by
  cases h with
  | terminal | xterm => rfl
  | bdd neg hk =>
    simp [isCddRoot, isCddNode, DdNode.level, hk]
  | cdd neg hk =>
    obtain ⟨i, j, hij⟩ := hk
    simp only [isCddRoot, isCddNode, DdNode.level, hij]
    rfl

/-- A Boolean diagram that holds at non-negative valuations only holds nowhere. -/
theorem eq_cddfalse_of_booleanOnly (hclocks : 2 ≤ L.clocknum) (hd : L.WF d)
    (hb : BooleanOnly L d) (hnn : NonNegativeOnly L d) : d = cddfalse := by
  by_contra hne
  obtain ⟨b, hb⟩ := exists_holds_bool hd hb hne
  let x : ℕ → ℝ := fun i ↦ if i = 1 then -1 else 0
  have h := hnn _ (hb x) 1 (by omega)
  have hx : x 0 ≤ x 1 := h
  simp only [x, Nat.zero_ne_one, ↓reduceIte] at hx
  linarith

theorem image_or {R : (ℕ → ℝ) → (ℕ → ℝ) → Prop} {d e : DdNode} (hd : L.WF d) (he : L.WF e)
    (w : Valuation) : L.Image R (cddOr L d e) w ↔ L.Image R d w ∨ L.Image R e w := by
  unfold Library.Image
  simp only [holds_cddOr hd he, or_and_right, exists_or]

/-- The Booleans stay, so a Boolean condition can be tested before or after. -/
theorem image_and {R : (ℕ → ℝ) → (ℕ → ℝ) → Prop} {d b : DdNode} (hd : L.WF d) (hb : L.WF b)
    (hbool : BooleanOnly L b) (w : Valuation) :
    L.Image R (cddAnd L d b) w ↔ L.Image R d w ∧ Holds L w b := by
  have hsame (x : ℕ → ℝ) : Holds L ⟨x, w.bool⟩ b ↔ Holds L w b := holds_congr_bool hb hbool rfl
  constructor
  · rintro ⟨x, hx, hR⟩
    obtain ⟨h1, h2⟩ := (holds_cddAnd hd hb).mp hx
    exact ⟨⟨x, h1, hR⟩, (hsame x).mp h2⟩
  · rintro ⟨⟨x, hx, hR⟩, h⟩
    exact ⟨x, (holds_cddAnd hd hb).mpr ⟨hx, (hsame x).mpr h⟩, hR⟩

theorem not_satisfiable_cddfalse : ¬ Satisfiable L cddfalse := by
  rintro ⟨v, hv⟩
  exact not_holds_cddfalse hv

end

/-! ### One iteration -/

section

variable {L : Library} {U : Udbm} {op : Dbm → Dbm} {R : (ℕ → ℝ) → (ℕ → ℝ) → Prop}
  (hL : L.Declared) (hlen : L.levelinfo.length ≤ maxLevel) (hCF : L.ClocksFirst)
  (hU : U.Exact L.clocknum) (hop : U.Maps L.clocknum op R)

/-- What an iteration does: `g` is the reduced diagram, `copy` and `res` are its results. -/
structure Iteration (L : Library) (R : (ℕ → ℝ) → (ℕ → ℝ) → Prop) (s : DdNode × DdNode)
    (g copy res : DdNode) : Prop where
  reduced : Reduced L s.1 g
  copy_proper : L.Proper copy
  copy_pathsSat : L.PathsSat copy
  copy_iff : ∀ v, Holds L v copy ↔ Holds L v g ∧ v.clock ∉ firstZone L g ∧ v.NonNegative L
  res_proper : L.Proper res
  zone : ∃ dbm : Dbm, dbm.zone L.clocknum = firstZone L g
  bottom : ∃ bottom, BooleanOnly L bottom ∧ L.WF bottom ∧ bottom ≠ cddfalse ∧
    (∀ w, Holds L w res ↔ Holds L w s.2 ∨
      (∃ x ∈ firstZone L g, R x w.clock) ∧ Holds L w bottom) ∧
    (g = cddfalse → bottom = cddtrue) ∧
    (g ≠ cddfalse → ∀ v, v.clock ∈ firstZone L g → (Holds L v g ↔ Holds L v bottom))

include hL hlen hCF hU hop

/-- The iteration succeeds if the first path of the reduced diagram can be met. -/
theorem splitBody_spec {s : DdNode × DdNode} (h1 : L.Proper s.1) (h2 : L.Proper s.2) :
    ∃ g, Reduced L s.1 g ∧ ((firstZone L g).Nonempty → ∃ copy res,
      splitBody L U op s = .done (copy, res) ∧ Iteration L R s g copy res) := by
  obtain ⟨g, hg, hred⟩ := cddReduce_spec hL h1
  refine ⟨g, hred, ?_⟩
  intro hne
  obtain ⟨bottom, rest, dbm, hex⟩ := (extract_spec hL hlen hCF hU hred.proper).1 hne
  obtain ⟨hrp, hrh⟩ := cddRemoveNegative_spec hL hlen hex.rest_proper
  obtain ⟨copy, hcopy, hcred⟩ := cddReduce_spec hL hrp
  have horth : dbm.zone L.clocknum ⊆ orthant L.clocknum := by
    rw [hex.zone_eq]
    intro x hx
    exact hx.1
  obtain ⟨hvalid, hzone⟩ := hop dbm hex.valid horth
  obtain ⟨hfp, hfh⟩ := cddFromDbm_spec hL hlen hU hvalid
  refine ⟨copy, cddOr L s.2 (cddAnd L (cddFromDbm L U (op dbm) L.clocknum) bottom), ?_, ?_⟩
  · simp only [splitBody, hg, hex.extractBdd, hex.extractDbm, hcopy, Run.ofOption_some,
      Run.done_bind, Run.pure_eq]
  · refine ⟨hred, hcred.proper, hcred.pathsSat, ?_, h2.or (hfp.and hex.bottom_proper),
      ⟨dbm, hex.zone_eq⟩, bottom, hex.bottom_bool, hex.bottom_proper.wf, hex.bottom_ne, ?_, ?_,
      hex.bottom_iff⟩
    · intro v
      rw [hcred.holds_iff, hrh, hex.rest_iff, and_assoc]
    · intro w
      rw [holds_cddOr h2.wf (hfp.and hex.bottom_proper).wf,
        holds_cddAnd hfp.wf hex.bottom_proper.wf, hfh, hzone, ← hex.zone_eq]
      rfl
    · intro hfalse
      have := hex.extractBdd
      rw [hfalse] at this
      exact (Option.some.inj this).symm

/-! ### The run -/

/-- What the loop keeps, for the diagram `f` it started from. -/
structure Splitting (L : Library) (R : (ℕ → ℝ) → (ℕ → ℝ) → Prop) (f : DdNode)
    (s : DdNode × DdNode) : Prop where
  copy_proper : L.Proper s.1
  res_proper : L.Proper s.2
  le : ∀ v, Holds L v s.1 → Holds L v f
  satisfiable : isCddNode s.1 = true → Satisfiable L s.1
  image : ∀ w, Holds L w s.2 ∨ L.Image R s.1 w ↔ L.Image R f w

omit hL hlen hCF hU hop in
theorem splitting_start {f : DdNode} (hf : L.Proper f)
    (hsat : isCddNode f = true → Satisfiable L f) : Splitting L R f (f, cddfalse) := by
  refine ⟨hf, proper_cddfalse, fun v h ↦ h, hsat, ?_⟩
  intro w
  exact or_iff_right not_holds_cddfalse

/-- The zones that the diagram covers. -/
def coveredZones (L : Library) (M : ℕ) (d : DdNode) : Set (Set (ℕ → ℝ)) :=
  {Z | ((∃ dbm : Dbm, dbm.zone L.clocknum = Z) ∧ Z ⊆ box L.clocknum M) ∧ Z.Nonempty ∧
    ∀ x ∈ Z, ∃ b, Holds L ⟨x, b⟩ d}

/-- An iteration keeps the invariant, and the zone it extracts is no longer covered. -/
theorem splitting_step {f : DdNode} (hnn : NonNegativeOnly L f) {s : DdNode × DdNode}
    (hs : Splitting L R f s) (hroot : isCddRoot L s.1 = true) :
    ∃ t, splitBody L U op s = .done t ∧ Splitting L R f t ∧
      ∀ M, BoundedBy L M f → (coveredZones L M t.1).ncard < (coveredZones L M s.1).ncard := by
  obtain ⟨g, hred, hbody⟩ := splitBody_spec hL hlen hCF hU hop hs.copy_proper hs.res_proper
  have hgnn : NonNegativeOnly L g := fun v hv ↦ hnn v (hs.le v ((hred.holds_iff v).mp hv))
  have hgne : g ≠ cddfalse := by
    intro h
    rw [isCddRoot_eq hs.copy_proper.wf] at hroot
    obtain ⟨v, hv⟩ := hs.satisfiable hroot
    exact hred.eq_cddfalse.mp h v hv
  have hne := firstZone_nonempty hL hred.proper hred.pathsSat hgnn hgne
  obtain ⟨copy, res, hdone, hit⟩ := hbody hne
  obtain ⟨bottom, hbb, hbw, hbne, hres, -, hbot⟩ := hit.bottom
  have hbot := hbot hgne
  -- the reduced diagram is the zone with its Boolean part and the rest
  have hsplit : ∀ v, Holds L v g ↔ Holds L v copy ∨ v.clock ∈ firstZone L g ∧ Holds L v bottom := by
    intro v
    rw [hit.copy_iff]
    by_cases hz : v.clock ∈ firstZone L g
    · rw [hbot v hz]
      exact ⟨fun h ↦ Or.inr ⟨hz, h⟩, fun h ↦ h.elim (fun h ↦ absurd hz h.2.1) fun h ↦ h.2⟩
    · exact ⟨fun h ↦ Or.inl ⟨h, hz, hgnn v h⟩, fun h ↦ h.elim (fun h ↦ h.1) fun h ↦ absurd h.1 hz⟩
  refine ⟨(copy, res), hdone, ⟨hit.copy_proper, hit.res_proper, ?_, ?_, ?_⟩, ?_⟩
  · intro v hv
    exact hs.le v ((hred.holds_iff v).mp ((hit.copy_iff v).mp hv).1)
  · intro hcdd
    by_contra hunsat
    have hfalse := (eq_cddfalse_iff hit.copy_proper hit.copy_pathsSat).mpr
      fun v hv ↦ hunsat ⟨v, hv⟩
    have hcdd' : isCddNode copy = true := hcdd
    rw [hfalse] at hcdd'
    cases hcdd'
  · intro w
    rw [← hs.image w]
    show Holds L w res ∨ L.Image R copy w ↔ _
    rw [hres]
    have hboth : ∀ x, Holds L ⟨x, w.bool⟩ s.1 ↔
        Holds L ⟨x, w.bool⟩ copy ∨ x ∈ firstZone L g ∧ Holds L w bottom := by
      intro x
      have hbool : Holds L ⟨x, w.bool⟩ bottom ↔ Holds L w bottom := holds_congr_bool hbw hbb rfl
      rw [← hred.holds_iff, hsplit, hbool]
    constructor
    · rintro ((h | ⟨⟨x, hx, hR⟩, hb⟩) | ⟨x, hx, hR⟩)
      · exact Or.inl h
      · exact Or.inr ⟨x, (hboth x).mpr (Or.inr ⟨hx, hb⟩), hR⟩
      · exact Or.inr ⟨x, (hboth x).mpr (Or.inl hx), hR⟩
    · rintro (h | ⟨x, hx, hR⟩)
      · exact Or.inl (Or.inl h)
      · cases (hboth x).mp hx with
        | inl h => exact Or.inr ⟨x, h, hR⟩
        | inr h => exact Or.inl (Or.inr ⟨⟨x, h.1, hR⟩, h.2⟩)
  · intro M hM
    have hfin : (coveredZones L M s.1).Finite := (finite_zones L.clocknum M).subset fun Z hZ ↦ hZ.1
    obtain ⟨b, hb⟩ := exists_holds_bool hbw hbb hbne
    have hcover : ∀ x ∈ firstZone L g, Holds L ⟨x, b⟩ s.1 := by
      intro x hx
      exact (hred.holds_iff _).mp ((hbot ⟨x, b⟩ hx).mpr (hb x))
    apply Set.ncard_lt_ncard _ hfin
    constructor
    · intro Z hZ
      refine ⟨hZ.1, hZ.2.1, ?_⟩
      intro x hx
      obtain ⟨b, hb⟩ := hZ.2.2 x hx
      exact ⟨b, (hred.holds_iff _).mp ((hit.copy_iff _).mp hb).1⟩
    · intro hsub
      have hmem : firstZone L g ∈ coveredZones L M s.1 := by
        refine ⟨⟨hit.zone, ?_⟩, hne, fun x hx ↦ ⟨b, hcover x hx⟩⟩
        intro x hx i hi
        exact ⟨hx.1 i hi, hM _ (hs.le _ (hcover x hx)) i hi⟩
      obtain ⟨x, hx⟩ := hne
      obtain ⟨b', hb'⟩ := (hsub hmem).2.2 x hx
      exact ((hit.copy_iff _).mp hb').2.1 hx

/-- The run on a diagram that is not without solutions: whatever the loop returns is the image,
it does not fail, and it ends if the clocks are bounded. -/
theorem splitLoop_spec (hclocks : 2 ≤ L.clocknum) {f : DdNode} (hf : L.Proper f)
    (hnn : NonNegativeOnly L f) (hsat : isCddNode f = true → Satisfiable L f) :
    (∀ fuel, Run.Safe (fun r ↦ L.Proper r ∧ IsImage L R f r) (splitLoop L U op fuel f)) ∧
      ∀ M, BoundedBy L M f → ∃ fuel r, splitLoop L U op fuel f = .done r := by
  have hstart := splitting_start (R := R) hf hsat
  constructor
  · intro fuel
    have hbody : ∀ s, Splitting L R f s → isCddRoot L s.1 = true →
        Run.Safe (Splitting L R f) (splitBody L U op s) := by
      intro s hs hroot
      obtain ⟨t, ht, hst, -⟩ := splitting_step hL hlen hCF hU hop hnn hs hroot
      rw [ht]
      exact hst
    have hsafe := iterate_safe (Splitting L R f) hbody fuel hstart
    apply hsafe.bind
    rintro ⟨copy, res⟩ ⟨hs, hroot⟩
    refine ⟨hs.res_proper, ?_⟩
    intro w
    have hfalse : copy = cddfalse := by
      have hcdd : isCddNode copy = false := by
        rw [← isCddRoot_eq hs.copy_proper.wf]
        exact hroot
      exact eq_cddfalse_of_booleanOnly hclocks hs.copy_proper.wf
        (booleanOnly_of_not_cdd hCF hs.copy_proper.wf hcdd) fun v hv ↦ hnn v (hs.le v hv)
    rw [← hs.image w]
    constructor
    · exact Or.inl
    · rintro (h | ⟨x, hx, -⟩)
      · exact h
      · have hx' : Holds L ⟨x, w.bool⟩ copy := hx
        rw [hfalse] at hx'
        exact absurd hx' not_holds_cddfalse
  · intro M hM
    have hbody : ∀ s, Splitting L R f s → isCddRoot L s.1 = true →
        ∃ n t, (fun _ : ℕ ↦ splitBody L U op) n s = .done t ∧ Splitting L R f t ∧
          (coveredZones L M t.1).ncard < (coveredZones L M s.1).ncard := by
      intro s hs hroot
      obtain ⟨t, ht, hst, hlt⟩ := splitting_step hL hlen hCF hU hop hnn hs hroot
      exact ⟨0, t, ht, hst, hlt M hM⟩
    obtain ⟨n, t, ht⟩ := exists_iterate_done (fun _ ↦ splitBody L U op) (Splitting L R f)
      (fun s ↦ (coveredZones L M s.1).ncard) (fun _ _ _ s ↦ Run.Le.refl _) hbody hstart
    exact ⟨n, t.2, by rw [splitLoop, ht]; rfl⟩

/-- On a diagram without solutions the loop extracts the whole orthant. -/
theorem splitLoop_unsatisfiable {f : DdNode} (hf : L.Proper f) (hcdd : isCddNode f = true)
    (hunsat : ¬ Satisfiable L f) :
    ∃ r, L.Proper r ∧ (∀ w, Holds L w r ↔ ∃ x ∈ orthant L.clocknum, R x w.clock) ∧
      ∀ fuel, splitLoop L U op fuel f = if 2 ≤ fuel then .done r else .unfinished := by
  obtain ⟨g, hred, hbody⟩ := splitBody_spec hL hlen hCF hU hop (s := (f, cddfalse)) hf
    proper_cddfalse
  have hg : g = cddfalse := hred.eq_cddfalse.mpr fun v hv ↦ hunsat ⟨v, hv⟩
  have hzone : firstZone L g = orthant L.clocknum := by
    ext x
    constructor
    · intro hx
      exact hx.1
    · intro hx
      refine ⟨hx, ([], g), ?_, fun c hc ↦ absurd hc List.not_mem_nil⟩
      rw [hg]
      rfl
  have hne : (firstZone L g).Nonempty := by
    rw [hzone]
    exact ⟨0, fun i _ ↦ le_rfl⟩
  obtain ⟨copy, res, hdone, hit⟩ := hbody hne
  have hcopy : copy = cddfalse := by
    apply (eq_cddfalse_iff hit.copy_proper hit.copy_pathsSat).mpr
    intro v hv
    have := ((hit.copy_iff v).mp hv).1
    rw [hg] at this
    exact not_holds_cddfalse this
  obtain ⟨bottom, -, -, -, hres, hbot, -⟩ := hit.bottom
  refine ⟨res, hit.res_proper, ?_, ?_⟩
  · intro w
    rw [hres, hbot hg, hzone, or_iff_right not_holds_cddfalse, and_iff_left holds_cddtrue]
  · intro fuel
    have hroot : isCddRoot L f = true := (isCddRoot_eq hf.wf).trans hcdd
    have hend : isCddRoot L cddfalse = false := rfl
    rw [splitLoop]
    match fuel with
    | 0 => rfl
    | 1 =>
      simp only [iterate, hroot, if_pos, hdone, Run.done_bind]
      rfl
    | n + 2 =>
      simp only [iterate, hroot, if_pos, hdone, Run.done_bind, hcopy, hend, Bool.false_eq_true,
        if_false, Run.pure_eq, Nat.le_add_left]

end

end UCDD

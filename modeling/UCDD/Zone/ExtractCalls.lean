import UCDD.Reduce.InZone
import UCDD.Zone.Predt
import UCDD.Zone.TransitionBack

/-!
# The calls of the extraction

`cdd_extract_dbm` takes the first path of a diagram that is not `cddfalse`, and asserts that a
non-negative valuation meets it. `cdd_delay`, `cdd_past`, `cdd_apply_reset` and
`cdd_transition_back` reduce before the call, `cdd_predt` and `cdd_predt_dbm` after it. From the
second iteration on a diagram with a clock level at its root can be extracted from in either
loop, so what is at issue is the diagram that a loop starts from.
-/

namespace UCDD

open DdNode Loop

/-- What a call of `cdd_extract_dbm` needs. -/
structure Extractable (L : Library) (d : DdNode) : Prop where
  ne_cddfalse : d ≠ cddfalse
  nonempty : (firstZone L d).Nonempty

/-- What is left after an extraction, without the negative valuations, reduced. -/
structure Trimmed (L : Library) (d : DdNode) : Prop where
  proper : L.Proper d
  pathsSat : L.PathsSat d
  nonNegativeOnly : NonNegativeOnly L d

section

variable {L : Library} {U : Udbm} {d rest copy : DdNode} {dbm : Dbm}

theorem extractable_of_pathsSat (hL : L.Declared) (hd : L.Proper d) (hs : L.PathsSat d)
    (hnn : NonNegativeOnly L d) (hcdd : isCddRoot L d = true) : Extractable L d := by
  have hne : d ≠ cddfalse := by
    rintro rfl
    cases hcdd
  exact ⟨hne, firstZone_nonempty hL hd hs hnn hne⟩

theorem Trimmed.extractable (hL : L.Declared) (h : Trimmed L d) (hcdd : isCddRoot L d = true) :
    Extractable L d :=
  extractable_of_pathsSat hL h.proper h.pathsSat h.nonNegativeOnly hcdd

variable (hL : L.Declared) (hlen : L.levelinfo.length ≤ maxLevel) (hU : U.Exact L.clocknum)

include hL hlen hU

/-- An extraction that succeeds. -/
theorem taken_of_extractDbm (hd : L.Proper d)
    (hex : cddExtractDbm L U d L.clocknum = some (rest, dbm)) :
    ∃ bottom, Taken L U d bottom rest dbm := by
  obtain ⟨htaken, hnone⟩ := taken_spec hL hlen hU hd
  have hne : (firstZone L d).Nonempty := by
    by_contra h
    rw [hnone h] at hex
    cases hex
  obtain ⟨bottom, rest', dbm', h⟩ := htaken hne
  have heq := h.extractDbm.symm.trans hex
  cases heq
  exact ⟨bottom, h⟩

/-- The rest of an extraction, as the loops go on with it. -/
theorem trimmed_of_extractDbm (hd : L.Proper d)
    (hex : cddExtractDbm L U d L.clocknum = some (rest, dbm))
    (hcopy : cddReduce L (cddRemoveNegative L rest) = some copy) : Trimmed L copy := by
  obtain ⟨bottom, h⟩ := taken_of_extractDbm hL hlen hU hd hex
  obtain ⟨hp, hnn⟩ := cddRemoveNegative_spec hL hlen h.rest_proper
  obtain ⟨copy', hcopy', hred⟩ := cddReduce_spec hL hp
  have heq : copy' = copy := Option.some.inj (hcopy'.symm.trans hcopy)
  subst heq
  refine ⟨hred.proper, hred.pathsSat, ?_⟩
  intro v hv
  exact ((hnn v).mp ((hred.holds_iff v).mp hv)).2

end

/-! ### The loops that reduce first -/

/-- The diagrams that the loop of `cdd_delay` on `f` extracts from. -/
def splitCalls (L : Library) (U : Udbm) (op : Dbm → Dbm) (f : DdNode) : Set DdNode :=
  {g | ∃ s, Visits (fun s ↦ isCddRoot L s.1) (splitBody L U op) (f, cddfalse) s ∧
    isCddRoot L s.1 = true ∧ cddReduce L s.1 = some g}

/-- The diagrams that `cdd_apply_reset` extracts from. -/
def applyResetCalls (L : Library) (U : Udbm) (E : OpCaches) (state : DdNode)
    (clockResets boolResets : List (ℕ × ℤ)) : Set DdNode :=
  {g | clockResets ≠ [] ∧ ∃ copy, resetBools L E state boolResets = .done copy ∧
    g ∈ splitCalls L U
      (fun dbm ↦ clockResets.foldl (fun dbm r ↦ U.dbmUpdateValue L.clocknum r.1 r.2 dbm) dbm) copy}

/-- The diagram that the loop of `cdd_transition_back` starts from, if it is reached. -/
def BackReaches (L : Library) (E : OpCaches) (state update : DdNode)
    (clockResets boolResets : List ℕ) (copy : DdNode) : Prop :=
  cddAnd L state update ≠ cddfalse ∧ clockResets ≠ [] ∧
    ∃ q, existBools L E (cddAnd L state update) boolResets = .done q ∧
      ¬ (cddIsterminal q = false ∧ L.levelinfo[q.level]? = some .bdd) ∧
      copy = cddRemoveNegative L q

/-- The diagrams that `cdd_transition_back` extracts from. -/
def transitionBackCalls (L : Library) (U : Udbm) (E : OpCaches) (state update : DdNode)
    (clockResets boolResets : List ℕ) : Set DdNode :=
  {g | ∃ copy, BackReaches L E state update clockResets boolResets copy ∧
    g ∈ splitCalls L U
      (fun dbm ↦ clockResets.foldl (fun dbm k ↦ U.dbmFreeClock L.clocknum k dbm) dbm) copy}

section

variable {L : Library} {U : Udbm} {op : Dbm → Dbm} {f : DdNode}
  (hL : L.Declared) (hlen : L.levelinfo.length ≤ maxLevel) (hU : U.Exact L.clocknum)

include hL hlen hU

theorem splitBody_trimmed {s t : DdNode × DdNode} (hs : L.Proper s.1)
    (h : splitBody L U op s = .done t) : Trimmed L t.1 := by
  obtain ⟨g, hg, hred⟩ := cddReduce_spec hL hs
  unfold splitBody at h
  rw [hg, Run.ofOption_some, Run.done_bind] at h
  obtain ⟨bottom, -, h⟩ := Run.bind_eq_done h
  obtain ⟨⟨rest, dbm⟩, hex, h⟩ := Run.bind_eq_done h
  obtain ⟨copy, hcopy, h⟩ := Run.bind_eq_done h
  cases h
  exact trimmed_of_extractDbm hL hlen hU hred.proper (Run.ofOption_eq_done hex)
    (Run.ofOption_eq_done hcopy)

/-- The loop on a diagram with a clock level at its root: the first call decides. -/
theorem splitCalls_iff (hf : L.Proper f) :
    (∀ g ∈ splitCalls L U op f, Extractable L g) ↔
      (isCddRoot L f = true → ∀ g, cddReduce L f = some g → Extractable L g) := by
  have hgood : ∀ s : DdNode × DdNode, Trimmed L s.1 → isCddRoot L s.1 = true →
      ∀ g, cddReduce L s.1 = some g → Extractable L g := by
    intro s h hcdd g hg
    rw [cddReduce_of_pathsSat hL h.proper.wf h.proper.inRange h.pathsSat] at hg
    cases hg
    exact h.extractable hL hcdd
  have hvisits := forall_visits_iff (fun s ↦ isCddRoot L s.1) (splitBody L U op)
    (fun s ↦ L.Proper s.1) (fun s ↦ Trimmed L s.1)
    (fun s ↦ ∀ g, cddReduce L s.1 = some g → Extractable L g) (fun s h ↦ h.proper) hgood
    (fun s t hs _ h ↦ splitBody_trimmed hL hlen hU hs h) (s := (f, cddfalse)) hf
  rw [← hvisits]
  constructor
  · intro h t ht hroot g hg
    exact h g ⟨t, ht, hroot, hg⟩
  · rintro h g ⟨t, ht, hroot, hg⟩
    exact h t ht hroot g hg

/-- Without negative valuations: the loop must start from a diagram that holds somewhere. -/
theorem splitCalls_iff_satisfiable (hf : L.Proper f) (hnn : NonNegativeOnly L f) :
    (∀ g ∈ splitCalls L U op f, Extractable L g) ↔ (isCddRoot L f = true → Satisfiable L f) := by
  rw [splitCalls_iff hL hlen hU hf]
  apply imp_congr_right
  intro _
  obtain ⟨g, hg, hred⟩ := cddReduce_spec hL hf
  have hgf : g ≠ cddfalse ↔ Satisfiable L f := by
    rw [ne_eq, hred.eq_cddfalse]
    simp [Satisfiable]
  constructor
  · intro h
    exact hgf.mp (h g hg).ne_cddfalse
  · intro hsat g' hg'
    have heq : g = g' := Option.some.inj (hg.symm.trans hg')
    subst heq
    exact ⟨hgf.mpr hsat, firstZone_nonempty hL hred.proper hred.pathsSat
      (fun v hv ↦ hnn v ((hred.holds_iff v).mp hv)) (hgf.mpr hsat)⟩

end

/-! ### The loops of timed predecessors -/

/-- The diagrams that the loop over the safe part `goodCopy` extracts from. -/
def goodCalls (L : Library) (U : Udbm) (goodCopy : DdNode) : Set DdNode :=
  {g | ∃ s, Visits (fun s ↦ isCddRoot L s.1) (goodBody L U) (goodCopy, []) s ∧
    isCddRoot L s.1 = true ∧ g = s.1}

/-- `cdd_predt_dbm` comes to the safe part `goodCopy` for one of the combinations of the
Booleans. -/
def GoodCopy (L : Library) (U : Udbm) (dbmTarget : Dbm) (bddTarget safe goodCopy : DdNode) : Prop :=
  cddAnd L bddTarget safe ≠ cddfalse ∧ L.varnum < 32 ∧ ∃ i < 2 ^ L.varnum,
    (∃ fuel result, predtCombinations L U fuel dbmTarget bddTarget (cddAnd L bddTarget safe) i =
      .done result) ∧
    ∃ all, allBooleans L i = some all ∧ cddEquiv L (cddAnd L all bddTarget) cddfalse = some false ∧
      cddEvalFalse (cddAnd L all bddTarget) = false ∧
      goodCopy = cddAnd L (cddAnd L bddTarget safe) all ∧ cddEvalFalse goodCopy = false

/-- The diagrams that `cdd_predt_dbm` extracts from. -/
def predtDbmCalls (L : Library) (U : Udbm) (dbmTarget : Dbm) (bddTarget safe : DdNode) : Set DdNode :=
  {g | ∃ goodCopy, GoodCopy L U dbmTarget bddTarget safe goodCopy ∧ g ∈ goodCalls L U goodCopy}

/-- The diagrams that the loop of `cdd_predt` over the target extracts from. -/
def targetCalls (L : Library) (U : Udbm) (target safe : DdNode) : Set DdNode :=
  {g | target ≠ cddfalse ∧ safe ≠ cddtrue ∧
    ∃ fuel s, Visits (fun s ↦ isCddRoot L s.1) (targetBody L U fuel safe) (target, cddfalse) s ∧
      isCddRoot L s.1 = true ∧ g = s.1}

/-- `cdd_predt` calls `cdd_predt_dbm` on the matrix and the Boolean part. -/
inductive TargetPiece (L : Library) (U : Udbm) (target safe : DdNode) : Dbm → DdNode → Prop
  | whole : target ≠ cddfalse → safe ≠ cddtrue → isCddRoot L target = false →
      TargetPiece L U target safe (U.dbmInit L.clocknum) target
  | piece {g bddPart cddPart copy : DdNode} {dbm : Dbm} : g ∈ targetCalls L U target safe →
      cddExtractBddAndDbm L U g = some (bddPart, cddPart, dbm) →
      cddReduce L (cddRemoveNegative L cddPart) = some copy →
      TargetPiece L U target safe dbm bddPart

/-- The diagrams that `cdd_predt` extracts from, in the calls of `cdd_predt_dbm` too. -/
def predtCalls (L : Library) (U : Udbm) (target safe : DdNode) : Set DdNode :=
  {g | g ∈ targetCalls L U target safe ∨ ∃ dbmTarget bddTarget,
    TargetPiece L U target safe dbmTarget bddTarget ∧ g ∈ predtDbmCalls L U dbmTarget bddTarget safe}

section

variable {L : Library} {U : Udbm} {target safe bddTarget goodCopy : DdNode} {dbmTarget : Dbm}

theorem cddExtractBddAndDbm_eq {d bddPart cddPart : DdNode} {dbm : Dbm}
    (h : cddExtractBddAndDbm L U d = some (bddPart, cddPart, dbm)) :
    cddExtractBdd L d L.clocknum = some bddPart ∧
      cddExtractDbm L U d L.clocknum = some (cddPart, dbm) := by
  unfold cddExtractBddAndDbm at h
  cases hb : cddExtractBdd L d L.clocknum with
  | none =>
    rw [hb] at h
    cases h
  | some b =>
    rw [hb] at h
    cases hd : cddExtractDbm L U d L.clocknum with
    | none =>
      rw [hd] at h
      cases h
    | some p =>
      rw [hd] at h
      cases h
      exact ⟨rfl, rfl⟩

theorem proper_goodCopy (hlen : L.levelinfo.length ≤ maxLevel) (hb : L.Proper bddTarget)
    (hs : L.Proper safe) (h : GoodCopy L U dbmTarget bddTarget safe goodCopy) :
    L.Proper goodCopy := by
  obtain ⟨-, -, i, -, -, all, hall, -, -, rfl, -⟩ := h
  exact (hb.and hs).and (allBooleans_spec hlen hall).1

variable (hL : L.Declared) (hlen : L.levelinfo.length ≤ maxLevel) (hU : U.Exact L.clocknum)

include hL hlen hU

theorem pieceBody_trimmed {σ : Type} {take : Dbm → DdNode → σ → Run σ} {s t : DdNode × σ}
    (hs : L.Proper s.1) (h : pieceBody L U take s = .done t) : Trimmed L t.1 := by
  unfold pieceBody at h
  obtain ⟨⟨bddPart, cddPart, dbm⟩, hex, h⟩ := Run.bind_eq_done h
  obtain ⟨copy, hcopy, h⟩ := Run.bind_eq_done h
  obtain ⟨result, -, h⟩ := Run.bind_eq_done h
  cases h
  exact trimmed_of_extractDbm hL hlen hU hs (cddExtractBddAndDbm_eq (Run.ofOption_eq_done hex)).2
    (Run.ofOption_eq_done hcopy)

/-- The loops that do not reduce first: the diagram they start from decides. -/
theorem forall_pieceBody_iff {σ : Type} (take : Dbm → DdNode → σ → Run σ) {s : DdNode × σ}
    (hs : L.Proper s.1) :
    (∀ t, Visits (fun s ↦ isCddRoot L s.1) (pieceBody L U take) s t → isCddRoot L t.1 = true →
        Extractable L t.1) ↔
      (isCddRoot L s.1 = true → Extractable L s.1) :=
  forall_visits_iff (fun s : DdNode × σ ↦ isCddRoot L s.1) (pieceBody L U take)
    (fun s ↦ L.Proper s.1) (fun s ↦ Trimmed L s.1) (fun s ↦ Extractable L s.1)
    (fun _ h ↦ h.proper) (fun _ h hcdd ↦ h.extractable hL hcdd)
    (fun _ _ hs _ h ↦ pieceBody_trimmed hL hlen hU hs h) hs

theorem predtDbmCalls_iff (hb : L.Proper bddTarget) (hs : L.Proper safe) :
    (∀ g ∈ predtDbmCalls L U dbmTarget bddTarget safe, Extractable L g) ↔
      ∀ goodCopy, GoodCopy L U dbmTarget bddTarget safe goodCopy →
        isCddRoot L goodCopy = true → Extractable L goodCopy := by
  constructor
  · intro h goodCopy hgood hroot
    exact h goodCopy ⟨goodCopy, hgood, (goodCopy, []), .start, hroot, rfl⟩
  · rintro h g ⟨goodCopy, hgood, t, ht, hroot, rfl⟩
    have hp := proper_goodCopy hlen hb hs hgood
    exact (forall_pieceBody_iff hL hlen hU _ (s := (goodCopy, [])) hp).mpr (h goodCopy hgood)
      t ht hroot

theorem targetCalls_iff (ht : L.Proper target) :
    (∀ g ∈ targetCalls L U target safe, Extractable L g) ↔
      (safe ≠ cddtrue → isCddRoot L target = true → Extractable L target) := by
  constructor
  · intro h hsafe hroot
    have hne : target ≠ cddfalse := by
      rintro rfl
      cases hroot
    exact h target ⟨hne, hsafe, 0, (target, cddfalse), .start, hroot, rfl⟩
  · rintro h g ⟨-, hsafe, fuel, s, hs, hroot, rfl⟩
    exact (forall_pieceBody_iff hL hlen hU _ (s := (target, cddfalse)) ht).mpr (h hsafe) s hs hroot

theorem proper_of_targetCalls (ht : L.Proper target) {g : DdNode}
    (hg : g ∈ targetCalls L U target safe) : L.Proper g := by
  obtain ⟨-, -, fuel, s, hs, -, rfl⟩ := hg
  induction hs with
  | start => exact ht
  | step _ _ hbody ih => exact (pieceBody_trimmed hL hlen hU ih hbody).proper

theorem TargetPiece.proper (ht : L.Proper target)
    (h : TargetPiece L U target safe dbmTarget bddTarget) : L.Proper bddTarget := by
  cases h with
  | whole => exact ht
  | piece hg hex _ =>
    have hpg := proper_of_targetCalls hL hlen hU ht hg
    obtain ⟨hbdd, hdbm⟩ := cddExtractBddAndDbm_eq hex
    obtain ⟨bottom, htake⟩ := taken_of_extractDbm hL hlen hU hpg hdbm
    have heq : bottom = bddTarget := Option.some.inj (htake.extractBdd.symm.trans hbdd)
    rw [← heq]
    exact htake.bottom_proper

theorem predtCalls_iff (ht : L.Proper target) (hs : L.Proper safe) :
    (∀ g ∈ predtCalls L U target safe, Extractable L g) ↔
      (safe ≠ cddtrue → isCddRoot L target = true → Extractable L target) ∧
        ∀ dbmTarget bddTarget goodCopy, TargetPiece L U target safe dbmTarget bddTarget →
          GoodCopy L U dbmTarget bddTarget safe goodCopy → isCddRoot L goodCopy = true →
          Extractable L goodCopy := by
  rw [← targetCalls_iff hL hlen hU ht]
  constructor
  · intro h
    refine ⟨fun g hg ↦ h g (Or.inl hg), ?_⟩
    intro dbmTarget bddTarget goodCopy hpiece
    have hpb := hpiece.proper hL hlen hU ht
    exact (predtDbmCalls_iff hL hlen hU hpb hs).mp
      (fun g hg ↦ h g (Or.inr ⟨dbmTarget, bddTarget, hpiece, hg⟩)) goodCopy
  · rintro ⟨htarget, hgood⟩ g (hg | ⟨dbmTarget, bddTarget, hpiece, hg⟩)
    · exact htarget g hg
    · have hpb := hpiece.proper hL hlen hU ht
      exact (predtDbmCalls_iff hL hlen hU hpb hs).mpr
        (fun goodCopy ↦ hgood dbmTarget bddTarget goodCopy hpiece) g hg

end

/-! ### All calls -/

section

variable {L : Library} {U : Udbm} {E : OpCaches} {state update copy : DdNode}
  (hL : L.Declared) (hlen : L.levelinfo.length ≤ maxLevel) (hU : U.Exact L.clocknum)

include hL hlen

/-- The diagram that the loop of `cdd_apply_reset` starts from. -/
theorem resetBools_nonNegative (hs : L.Proper state) {boolResets : List (ℕ × ℤ)}
    (hbool : ∀ r ∈ boolResets, L.levelinfo[r.1]? = some .bdd)
    (h : resetBools L E state boolResets = .done copy) :
    L.Proper copy ∧ NonNegativeOnly L copy := by
  obtain ⟨q, hq, hqs⟩ := existBools_spec hL E hs (boolResets.map (·.1))
  obtain ⟨hpf, -⟩ := foldl_cddAnd_spec resetLiteral
    (fun r hr ↦ (resetLiteral_spec hlen (hbool r hr)).1) hqs.proper
  obtain ⟨hp, hnn⟩ := cddRemoveNegative_spec hL hlen hpf
  rw [resetBools, hq, Run.done_bind] at h
  cases h
  exact ⟨hp, fun v hv ↦ ((hnn v).mp hv).2⟩

/-- The diagram that the loop of `cdd_transition_back` starts from. -/
theorem BackReaches.nonNegative (hs : L.Proper state) (hu : L.Proper update)
    {clockResets boolResets : List ℕ}
    (h : BackReaches L E state update clockResets boolResets copy) :
    L.Proper copy ∧ NonNegativeOnly L copy := by
  obtain ⟨-, -, q, hq, -, rfl⟩ := h
  obtain ⟨q', hq', hqs⟩ := existBools_spec hL E (hs.and hu) boolResets
  rw [hq] at hq'
  cases hq'
  obtain ⟨hp, hnn⟩ := cddRemoveNegative_spec hL hlen hqs.proper
  exact ⟨hp, fun v hv ↦ ((hnn v).mp hv).2⟩

include hU

theorem applyResetCalls_iff (hs : L.Proper state) {clockResets boolResets : List (ℕ × ℤ)}
    (hbool : ∀ r ∈ boolResets, L.levelinfo[r.1]? = some .bdd) :
    (∀ g ∈ applyResetCalls L U E state clockResets boolResets, Extractable L g) ↔
      (clockResets ≠ [] → ∀ copy, resetBools L E state boolResets = .done copy →
        isCddRoot L copy = true → Satisfiable L copy) := by
  constructor
  · intro h hnil copy hcopy
    obtain ⟨hp, hnn⟩ := resetBools_nonNegative hL hlen hs hbool hcopy
    exact (splitCalls_iff_satisfiable hL hlen hU hp hnn).mp
      fun g hg ↦ h g ⟨hnil, copy, hcopy, hg⟩
  · rintro h g ⟨hnil, copy, hcopy, hg⟩
    obtain ⟨hp, hnn⟩ := resetBools_nonNegative hL hlen hs hbool hcopy
    exact (splitCalls_iff_satisfiable hL hlen hU hp hnn).mpr (h hnil copy hcopy) g hg

theorem transitionBackCalls_iff (hs : L.Proper state) (hu : L.Proper update)
    {clockResets boolResets : List ℕ} :
    (∀ g ∈ transitionBackCalls L U E state update clockResets boolResets, Extractable L g) ↔
      ∀ copy, BackReaches L E state update clockResets boolResets copy →
        isCddRoot L copy = true → Satisfiable L copy := by
  constructor
  · intro h copy hcopy
    obtain ⟨hp, hnn⟩ := hcopy.nonNegative hL hlen hs hu
    exact (splitCalls_iff_satisfiable hL hlen hU hp hnn).mp fun g hg ↦ h g ⟨copy, hcopy, hg⟩
  · rintro h g ⟨copy, hcopy, hg⟩
    obtain ⟨hp, hnn⟩ := hcopy.nonNegative hL hlen hs hu
    exact (splitCalls_iff_satisfiable hL hlen hU hp hnn).mpr (h copy hcopy) g hg

end

/-- The calls that an operation makes on `f` are all made where the extraction is defined. -/
def ExtractsDefined (L : Library) (calls : Set DdNode) : Prop := ∀ g ∈ calls, Extractable L g

theorem firstZone_contradiction : ¬ (firstZone clockLibrary contradiction).Nonempty := by
  rintro ⟨x, -, p, hp, hx⟩
  have hwalk : firstPath clockLibrary clockLibrary.clocknum contradiction.height contradiction =
      some ([⟨1, 0, -INF, 3⟩, ⟨2, 0, 4, INF⟩, ⟨2, 1, -INF, 2⟩], cddtrue) := rfl
  rw [hwalk] at hp
  cases hp
  obtain ⟨⟨-, h1⟩, hx⟩ := List.forall_mem_cons.mp hx
  obtain ⟨⟨h2, -⟩, hx⟩ := List.forall_mem_cons.mp hx
  obtain ⟨⟨-, h3⟩, -⟩ := List.forall_mem_cons.mp hx
  have h1' : x 1 - x 0 ≤ ((1 : ℤ) : ℝ) := (upperSat_odd _ 1).mp h1
  have h2' : ¬ x 2 - x 0 < ((2 : ℤ) : ℝ) := mt (upperSat_even _ 2).mpr h2
  have h3' : x 2 - x 1 < ((1 : ℤ) : ℝ) := (upperSat_even _ 1).mp h3
  push_cast at h1' h2' h3'
  linarith

end UCDD

import UCDD.Zone.Split

/-!
# Timed predecessors

`cdd_extract_bdd_and_dbm`, `cdd_from_fed`, `cdd_predt_dbm` and `cdd_predt`,
`cppext.cpp:73–83, 126–265`. The target is taken apart zone by zone. For each zone, and each
combination of the Booleans, the safe part is taken apart in turn, and a federation gives the
predecessors. Neither loop reduces the diagram it starts from.
-/

namespace UCDD

open DdNode Loop

/-- `cdd_extract_bdd_and_dbm`: the Boolean part, the rest and the matrix. -/
def cddExtractBddAndDbm (L : Library) (U : Udbm) (state : DdNode) : Option (DdNode × DdNode × Dbm) := do
  let bddPart ← cddExtractBdd L state L.clocknum
  let (cddPart, dbm) ← cddExtractDbm L U state L.clocknum
  return (bddPart, cddPart, dbm)

/-- The body of the loops of `cdd_predt` and `cdd_predt_dbm` on a diagram and a result; `take` is
what is done with the matrix and the Boolean part. -/
def pieceBody (L : Library) (U : Udbm) {σ : Type} (take : Dbm → DdNode → σ → Run σ)
    (s : DdNode × σ) : Run (DdNode × σ) := do
  let (bddPart, cddPart, dbm) ← .ofOption (cddExtractBddAndDbm L U s.1)
  let copy ← .ofOption (cddReduce L (cddRemoveNegative L cddPart))
  let result ← take dbm bddPart s.2
  return (copy, result)

/-- `cdd_bddvarpp`. On a level that is not Boolean it is not defined. -/
def cddBddvarpp (L : Library) (level : ℕ) : Option DdNode :=
  if L.levelinfo[level]? = some .bdd then some (cddBddvar level) else none

/-- The combination of all Booleans that the bits of `i` give. -/
def allBooleans (L : Library) (i : ℕ) : Option DdNode :=
  (List.range L.varnum).foldlM (fun all j ↦ do
    let var ← cddBddvarpp L (L.bddStartLevel + j)
    return cddAnd L all (if i.testBit j then var else cddNeg var)) cddtrue

/-- `cdd_from_fed`. -/
def cddFromFed (L : Library) (U : Udbm) (fed : List Dbm) : DdNode :=
  fed.foldl (fun res zone ↦ cddOr L res (cddFromDbm L U zone L.clocknum)) cddfalse

/-- The body of the loop over the safe part: the zone is added to the federation. -/
def goodBody (L : Library) (U : Udbm) : DdNode × List Dbm → Run (DdNode × List Dbm) :=
  pieceBody L U fun dbm _ fed ↦ .done (fed ++ [dbm])

/-- The zones of the safe part. Without any, it is not bounded. -/
def goodFed (L : Library) (U : Udbm) (fuel : ℕ) (goodCopy : DdNode) : Run (List Dbm) := do
  let s ← iterate (fun s ↦ isCddRoot L s.1) (goodBody L U) fuel (goodCopy, [])
  return if s.2.isEmpty then [U.dbmInit L.clocknum] else s.2

/-- One combination of the Booleans, `cppext.cpp:157–210`. -/
def predtBooleans (L : Library) (U : Udbm) (fuel : ℕ) (dbmTarget : Dbm) (bddTarget overlap : DdNode)
    (result : DdNode) (i : ℕ) : Run DdNode := do
  let all ← .ofOption (allBooleans L i)
  let skip ← .ofOption (cddEquiv L (cddAnd L all bddTarget) cddfalse)
  if skip then return result
  else if cddEvalFalse (cddAnd L all bddTarget) then Run.failed
  else
    let goodCopy := cddAnd L overlap all
    if !cddEvalFalse goodCopy then
      let fed ← goodFed L U fuel goodCopy
      return cddOr L result (cddAnd L (cddFromFed L U (U.fedPredt L.clocknum [dbmTarget] fed)) all)
    else
      return cddOr L result
        (cddAnd L (cddFromDbm L U (U.dbmDown L.clocknum dbmTarget) L.clocknum) all)

/-- The loop over the combinations of the Booleans, up to the combination `n`. -/
def predtCombinations (L : Library) (U : Udbm) (fuel : ℕ) (dbmTarget : Dbm)
    (bddTarget overlap : DdNode) (n : ℕ) : Run DdNode :=
  (List.range n).foldlM (predtBooleans L U fuel dbmTarget bddTarget overlap) cddfalse

/-- `cdd_predt_dbm`. The shift of `1u` by 32 or more is not defined. -/
def cddPredtDbm (L : Library) (U : Udbm) (fuel : ℕ) (dbmTarget : Dbm) (bddTarget safe : DdNode) :
    Run DdNode :=
  let overlap := cddAnd L bddTarget safe
  if overlap ≠ cddfalse then
    if 32 ≤ L.varnum then .failed
    else predtCombinations L U fuel dbmTarget bddTarget overlap (2 ^ L.varnum)
  else
    .done (cddOr L cddfalse
      (cddAnd L (cddFromDbm L U (U.dbmDown L.clocknum dbmTarget) L.clocknum) bddTarget))

/-- The body of the loop over the target. -/
def targetBody (L : Library) (U : Udbm) (fuel : ℕ) (safe : DdNode) :
    DdNode × DdNode → Run (DdNode × DdNode) :=
  pieceBody L U fun dbmTarget bddTarget allThatKillsUs ↦ do
    let r ← cddPredtDbm L U fuel dbmTarget bddTarget safe
    return cddOr L allThatKillsUs r

/-- `cdd_predt`. -/
def cddPredt (L : Library) (U : Udbm) (fuel : ℕ) (target safe : DdNode) : Run DdNode :=
  if target = cddfalse then .done target
  else if safe = cddtrue then .done cddfalse
  else if isCddRoot L target then do
    let s ← iterate (fun s ↦ isCddRoot L s.1) (targetBody L U fuel safe) fuel (target, cddfalse)
    return s.2
  else cddPredtDbm L U fuel (U.dbmInit L.clocknum) target safe

/-! ### The combinations of the Booleans -/

section

variable {L : Library} {i : ℕ} {all : DdNode}

/-- The combination is there when the levels from the start are Boolean. -/
theorem allBooleans_eq_some : allBooleans L i = some all ↔
    (∀ j < L.varnum, L.levelinfo[L.bddStartLevel + j]? = some .bdd) ∧
      all = (List.range L.varnum).foldl
        (fun all j ↦ cddAnd L all (boolLiteral (L.bddStartLevel + j) (i.testBit j))) cddtrue := by
  have hfold (js : List ℕ) (start : DdNode) :
      js.foldlM (fun all j ↦ do
          let var ← cddBddvarpp L (L.bddStartLevel + j)
          return cddAnd L all (if i.testBit j then var else cddNeg var)) start = some all ↔
        (∀ j ∈ js, L.levelinfo[L.bddStartLevel + j]? = some .bdd) ∧
          all = js.foldl
            (fun all j ↦ cddAnd L all (boolLiteral (L.bddStartLevel + j) (i.testBit j))) start := by
    induction js generalizing start with
    | nil =>
      constructor
      · intro h
        cases h
        exact ⟨fun _ hj ↦ absurd hj List.not_mem_nil, rfl⟩
      · intro h
        rw [h.2]
        rfl
    | cons j js ih =>
      rw [List.foldlM_cons, List.foldl_cons, List.forall_mem_cons]
      by_cases hj : L.levelinfo[L.bddStartLevel + j]? = some .bdd
      · have hvar : cddBddvarpp L (L.bddStartLevel + j) =
            some (cddBddvar (L.bddStartLevel + j)) := if_pos hj
        rw [hvar, and_assoc, ← ih, and_iff_right hj]
        rfl
      · have hvar : cddBddvarpp L (L.bddStartLevel + j) = none := if_neg hj
        rw [hvar]
        constructor
        · intro h
          cases h
        · intro h
          exact absurd h.1.1 hj
  unfold allBooleans
  rw [hfold]
  simp only [List.mem_range]

theorem allBooleans_spec (hlen : L.levelinfo.length ≤ maxLevel) (h : allBooleans L i = some all) :
    L.Proper all ∧
      ∀ a, eval a all = true ↔ ∀ j < L.varnum, a.bool (L.bddStartLevel + j) = i.testBit j := by
  obtain ⟨hlevel, rfl⟩ := allBooleans_eq_some.mp h
  have hlit (j : ℕ) (hj : j ∈ List.range L.varnum) :=
    boolLiteral_spec hlen (hlevel j (List.mem_range.mp hj)) (i.testBit j)
  obtain ⟨hp, heval⟩ := foldl_cddAnd_spec
    (fun j ↦ boolLiteral (L.bddStartLevel + j) (i.testBit j)) (fun j hj ↦ (hlit j hj).1)
    proper_cddtrue
  refine ⟨hp, ?_⟩
  intro a
  rw [heval, eval_cddtrue, and_iff_right rfl]
  constructor
  · intro h j hj
    exact ((hlit j (List.mem_range.mpr hj)).2 a).mp (h j (List.mem_range.mpr hj))
  · intro h j hj
    exact ((hlit j hj).2 a).mpr (h j (List.mem_range.mp hj))

end

end UCDD

import UCDD.Zone.Extract

/-!
# Boolean diagrams as arrays

`cdd_bdd_to_array`, `cppext.cpp:325–499`. A depth-first search writes one row for each path. The
row for the second child of a node starts as a copy of the last row, and the rows that end in
`cddfalse` are marked, and removed at the end.
-/

namespace UCDD

open DdNode

/-- `dynamic_two_dim_matrix`, with its last row apart. Each row has its entry of
`rows_to_be_ignored`. -/
structure DynamicTwoDimMatrix where
  rows : List (List ℤ × Bool)
  back : List ℤ
  ignored : Bool

namespace DynamicTwoDimMatrix

variable (M : DynamicTwoDimMatrix)

/-- The constructor: one row without values. -/
def init : DynamicTwoDimMatrix := ⟨[], [], false⟩

/-- `add_value_to_row`. -/
def addValueToRow (numCols : ℕ) (value : ℤ) : Option DynamicTwoDimMatrix :=
  if M.back.length < numCols then some { M with back := M.back ++ [value] } else none

/-- `next_row`. The columns to copy must be there. -/
def nextRow (numCols : ℕ) (copyToColumn : ℤ) : Option DynamicTwoDimMatrix :=
  if copyToColumn < numCols ∧ copyToColumn + 1 ≤ M.back.length then
    some ⟨M.rows ++ [(M.back, M.ignored)], M.back.take (copyToColumn + 1).toNat, false⟩
  else none

/-- `ignore_current_row`. -/
def ignoreCurrentRow : DynamicTwoDimMatrix := { M with ignored := true }

/-- `delete_ignored_rows`: the rows that are left. -/
def deleteIgnoredRows : List (List ℤ) :=
  ((M.rows ++ [(M.back, M.ignored)]).filter fun row ↦ !row.2).map (·.1)

end DynamicTwoDimMatrix

/-- `get_array`. -/
def getArray (numCols : ℕ) (matrix : List (List ℤ)) (defaultValue : ℤ) : List ℤ :=
  matrix.flatMap fun row ↦ row ++ List.replicate (numCols - row.length) defaultValue

/-- `cdd_bdd_to_matrix_rec`. -/
def cddBddToMatrixRec (numCols : ℕ) : DdNode → DynamicTwoDimMatrix → DynamicTwoDimMatrix → ℕ →
    Bool → Option (DynamicTwoDimMatrix × DynamicTwoDimMatrix)
  | .terminal neg, vars, values, _, negated =>
    if neg ^^ negated then some (vars, values)
    else some (vars.ignoreCurrentRow, values.ignoreCurrentRow)
  | .bdd neg level low high, vars, values, step, negated => do
    let vars ← vars.addValueToRow numCols level
    let values ← values.addValueToRow numCols 1
    let (vars, values) ← cddBddToMatrixRec numCols high vars values (step + 1) (negated ^^ neg)
    let vars ← vars.nextRow numCols step
    let values ← values.nextRow numCols (step - 1)
    let values ← values.addValueToRow numCols 0
    cddBddToMatrixRec numCols low vars values (step + 1) (negated ^^ neg)
  | .cdd _ _ _, vars, values, _, _ => some (vars, values)
  | .xterm _ _, _, _, _, _ => none

/-- `bdd_arrays`. -/
structure BddArrays where
  vars : List ℤ
  values : List ℤ
  numTraces : ℕ
  numBools : ℕ

/-- `cdd_bdd_to_array`. The first entry is read even when no row is left. -/
def cddBddToArray (L : Library) (state : DdNode) : Option BddArrays := do
  let (varsMatrix, valuesMatrix) ← cddBddToMatrixRec L.varnum state .init .init 0 false
  let vars := getArray L.varnum varsMatrix.deleteIgnoredRows (-1)
  let values := getArray L.varnum valuesMatrix.deleteIgnoredRows (-1)
  let first ← vars.head?
  return ⟨vars, values, if first = -1 then 0 else varsMatrix.deleteIgnoredRows.length, L.varnum⟩

namespace BddArrays

variable (A : BddArrays)

/-- A row of one of the two arrays. -/
def row (array : List ℤ) (t : ℕ) : List ℤ := (array.drop (t * A.numBools)).take A.numBools

/-- A trace: the row of `vars` up to its first `-1`, with the values. -/
def trace (t : ℕ) : List (ℕ × Bool) :=
  (((A.row A.vars t).zip (A.row A.values t)).takeWhile fun p ↦ p.1 ≠ -1).map
    fun p ↦ (p.1.toNat, p.2 = 1)

end BddArrays

/-! ### The traces of a diagram -/

/-- The paths to `cddtrue`, the second child first. -/
def traces (negated : Bool) : DdNode → List (List (ℕ × Bool))
  | .terminal neg => if neg ^^ negated then [[]] else []
  | .bdd neg level low high =>
    (traces (negated ^^ neg) high).map ((level, true) :: ·) ++
      (traces (negated ^^ neg) low).map ((level, false) :: ·)
  | _ => []

/-- The Booleans have the values of the trace. -/
def Extends (b : ℕ → Bool) (t : List (ℕ × Bool)) : Prop := ∀ p ∈ t, b p.1 = p.2

/-- The traces give one Boolean different values. -/
def Contradict (s t : List (ℕ × Bool)) : Prop := ∃ p ∈ s, (p.1, !p.2) ∈ t

/-! ### The search -/

/-- The Boolean levels from `level` on. -/
def Levels.boolsFrom (L : Levels) (level : ℕ) : ℕ := (L.levelinfo.drop level).count .bdd

theorem Levels.boolsFrom_anti (L : Levels) {level level' : ℕ} (h : level ≤ level') :
    L.boolsFrom level' ≤ L.boolsFrom level := by
  have hdrop : L.levelinfo.drop level' = (L.levelinfo.drop level).drop (level' - level) := by
    rw [List.drop_drop]
    congr 1
    omega
  unfold Levels.boolsFrom
  rw [hdrop]
  exact (List.drop_sublist _ _).count_le _

theorem Levels.boolsFrom_bdd {L : Levels} {level : ℕ}
    (h : L.levelinfo[level]? = some LevelInfo.bdd) :
    L.boolsFrom level = L.boolsFrom (level + 1) + 1 := by
  obtain ⟨hlen, hget⟩ := List.getElem?_eq_some_iff.mp h
  unfold Levels.boolsFrom
  rw [List.drop_eq_getElem_cons hlen, hget, List.count_cons_self]

namespace DynamicTwoDimMatrix

/-- The rows before the last one that are not marked. -/
def finished (M : DynamicTwoDimMatrix) : List (List ℤ) :=
  (M.rows.filter fun row ↦ !row.2).map (·.1)

theorem deleteIgnoredRows_eq (M : DynamicTwoDimMatrix) :
    M.deleteIgnoredRows = M.finished ++ if M.ignored then [] else [M.back] := by
  unfold deleteIgnoredRows finished
  rw [List.filter_append, List.map_append]
  cases M.ignored <;> rfl

theorem addValueToRow_eq {M : DynamicTwoDimMatrix} {numCols : ℕ} (h : M.back.length < numCols)
    (value : ℤ) : M.addValueToRow numCols value = some { M with back := M.back ++ [value] } :=
  if_pos h

/-- The next row starts with the first `n` values of the last one. -/
theorem nextRow_eq (numCols : ℕ) {M : DynamicTwoDimMatrix} {n : ℕ} {row : List ℤ}
    (htake : M.back.take n = row) (hlen : row.length = n) (hn : n ≤ numCols) :
    ∃ M', M.nextRow numCols ((n : ℤ) - 1) = some M' ∧ M'.back = row ∧ M'.ignored = false ∧
      M'.finished = M.deleteIgnoredRows := by
  have hle : n ≤ M.back.length := by
    rw [← hlen, ← htake, List.length_take]
    exact min_le_right _ _
  refine ⟨⟨M.rows ++ [(M.back, M.ignored)], row, false⟩, ?_, rfl, rfl, rfl⟩
  rw [nextRow, if_pos ⟨by omega, by omega⟩]
  simp [htake]

end DynamicTwoDimMatrix

section

variable {L : Library} {d : DdNode} {numCols : ℕ}

/-- The two columns of a trace. -/
def traceVars (t : List (ℕ × Bool)) : List ℤ := t.map fun p ↦ (p.1 : ℤ)

/-- The values of a trace, as numbers. -/
def traceValues (t : List (ℕ × Bool)) : List ℤ := t.map fun p ↦ if p.2 then 1 else 0

/-- The search adds a row for each trace, after what the last row held, and keeps that. -/
theorem cddBddToMatrixRec_spec (hd : L.WF d) (hb : BooleanOnly L d) (negated : Bool)
    (step : ℕ) (V W : DynamicTwoDimMatrix) (hV : V.ignored = false) (hW : W.ignored = false)
    (hVl : V.back.length = step) (hWl : W.back.length = step)
    (hcols : step + L.boolsFrom d.level ≤ numCols) :
    ∃ V' W', cddBddToMatrixRec numCols d V W step negated = some (V', W') ∧
      V'.deleteIgnoredRows =
        V.finished ++ (traces negated d).map (fun t ↦ V.back ++ traceVars t) ∧
      W'.deleteIgnoredRows =
        W.finished ++ (traces negated d).map (fun t ↦ W.back ++ traceValues t) ∧
      V'.back.take step = V.back ∧ W'.back.take step = W.back := by
  induction hd generalizing negated step V W with
  | terminal neg =>
    have hVt : V.back.take step = V.back := List.take_of_length_le hVl.le
    have hWt : W.back.take step = W.back := List.take_of_length_le hWl.le
    rw [cddBddToMatrixRec, traces]
    cases neg ^^ negated with
    | true =>
      refine ⟨V, W, rfl, ?_, ?_, hVt, hWt⟩
      · simp [DynamicTwoDimMatrix.deleteIgnoredRows_eq, hV, traceVars]
      · simp [DynamicTwoDimMatrix.deleteIgnoredRows_eq, hW, traceValues]
    | false =>
      refine ⟨V.ignoreCurrentRow, W.ignoreCurrentRow, rfl, ?_, ?_, hVt, hWt⟩
      · simp [DynamicTwoDimMatrix.deleteIgnoredRows_eq, DynamicTwoDimMatrix.ignoreCurrentRow,
          DynamicTwoDimMatrix.finished]
      · simp [DynamicTwoDimMatrix.deleteIgnoredRows_eq, DynamicTwoDimMatrix.ignoreCurrentRow,
          DynamicTwoDimMatrix.finished]
  | xterm neg h => exact absurd h (Nat.not_lt_zero _)
  | cdd neg hk =>
    obtain ⟨i, j, hij⟩ := hk
    have h := hb.of_cdd.1
    rw [hij] at h
    cases h
  | @bdd neg level low high hk hl hh _ _ hwl hwh ihl ihh =>
    obtain ⟨-, hbl, hbh⟩ := hb.of_bdd
    have hcount := L.boolsFrom_bdd hk
    have hcols : step + L.boolsFrom level ≤ numCols := hcols
    have hlow : L.boolsFrom low.level ≤ L.boolsFrom (level + 1) := L.boolsFrom_anti hl
    have hhigh : L.boolsFrom high.level ≤ L.boolsFrom (level + 1) := L.boolsFrom_anti hh
    -- the second child
    obtain ⟨V₂, W₂, hrun₂, hV₂, hW₂, hVt₂, hWt₂⟩ := ihh hbh (negated ^^ neg) (step + 1)
      { V with back := V.back ++ [(level : ℤ)] } { W with back := W.back ++ [1] } hV hW
      (by simp [hVl]) (by simp [hWl]) (by omega)
    have hWt : W₂.back.take step = W.back := by
      have h := congrArg (List.take step) hWt₂
      rw [List.take_take, min_eq_left (by omega), ← hWl, List.take_left] at h
      rw [← hWl]
      exact h
    -- the row for the first child
    obtain ⟨V₃, hnextV, hVb, hVi, hVf⟩ := DynamicTwoDimMatrix.nextRow_eq numCols
      hVt₂ (by simp [hVl]) (by omega)
    obtain ⟨W₃, hnextW, hWb, hWi, hWf⟩ := DynamicTwoDimMatrix.nextRow_eq numCols
      hWt hWl (by omega)
    obtain ⟨V₅, W₅, hrun₅, hV₅, hW₅, hVt₅, hWt₅⟩ := ihl hbl (negated ^^ neg) (step + 1) V₃
      { W₃ with back := W.back ++ [0] } hVi hWi (by simp [hVb, hVl]) (by simp [hWl]) (by omega)
    refine ⟨V₅, W₅, ?_, ?_, ?_, ?_, ?_⟩
    · have hstep : ((step + 1 : ℕ) : ℤ) - 1 = step := by omega
      rw [hstep] at hnextV
      rw [cddBddToMatrixRec, DynamicTwoDimMatrix.addValueToRow_eq (by omega),
        DynamicTwoDimMatrix.addValueToRow_eq (by omega)]
      simp only [Option.bind_eq_bind, Option.bind_some, hrun₂, hnextV, hnextW]
      rw [DynamicTwoDimMatrix.addValueToRow_eq (by rw [hWb]; omega), Option.bind_some, hWb]
      exact hrun₅
    · rw [hV₅, hVf, hV₂, hVb, traces]
      simp [traceVars, DynamicTwoDimMatrix.finished, Function.comp_def]
    · have hfin : DynamicTwoDimMatrix.finished { W₃ with back := W.back ++ [0] } = W₃.finished := rfl
      rw [hW₅, hfin, hWf, hW₂, traces]
      simp [traceValues, DynamicTwoDimMatrix.finished, Function.comp_def]
    · have h := congrArg (List.take step) hVt₅
      rw [List.take_take, min_eq_left (by omega), hVb, ← hVl, List.take_left] at h
      rw [← hVl]
      exact h
    · have h := congrArg (List.take step) hWt₅
      rw [List.take_take, min_eq_left (by omega), ← hWl, List.take_left] at h
      rw [← hWl]
      exact h

/-! ### What the traces are -/

/-- The levels of a trace increase. -/
structure Ordered (L : Library) (level : ℕ) (t : List (ℕ × Bool)) : Prop where
  pairwise : (t.map (·.1)).Pairwise (· < ·)
  boolean : ∀ p ∈ t, level ≤ p.1 ∧ L.levelinfo[p.1]? = some LevelInfo.bdd
  length_le : t.length ≤ L.boolsFrom level

theorem Ordered.cons {level level' : ℕ} {t : List (ℕ × Bool)} (h : Ordered L level' t)
    (hk : L.levelinfo[level]? = some LevelInfo.bdd) (hlt : level < level') (value : Bool) :
    Ordered L level ((level, value) :: t) := by
  constructor
  · rw [List.map_cons, List.pairwise_cons]
    refine ⟨?_, h.pairwise⟩
    intro ℓ hℓ
    obtain ⟨p, hp, rfl⟩ := List.mem_map.mp hℓ
    exact lt_of_lt_of_le hlt (h.boolean p hp).1
  · rw [List.forall_mem_cons]
    refine ⟨⟨le_rfl, hk⟩, ?_⟩
    intro p hp
    exact ⟨le_trans hlt.le (h.boolean p hp).1, (h.boolean p hp).2⟩
  · have h1 := h.length_le
    have h2 := L.boolsFrom_anti (Nat.succ_le_of_lt hlt)
    have h3 := L.boolsFrom_bdd hk
    rw [Nat.succ_eq_add_one] at h2
    rw [List.length_cons]
    omega

theorem traces_ordered (hd : L.WF d) (hb : BooleanOnly L d) (negated : Bool) :
    ∀ t ∈ traces negated d, Ordered L d.level t := by
  induction hd generalizing negated with
  | terminal neg =>
    intro t ht
    rw [traces] at ht
    split at ht
    · rw [List.mem_singleton.mp ht]
      exact ⟨by simp, by simp, by simp⟩
    · cases ht
  | xterm | cdd => exact nofun
  | @bdd neg level low high hk hl hh _ _ hwl hwh ihl ihh =>
    obtain ⟨-, hbl, hbh⟩ := hb.of_bdd
    intro t ht
    rw [traces, List.mem_append] at ht
    cases ht with
    | inl ht =>
      obtain ⟨t', ht', rfl⟩ := List.mem_map.mp ht
      exact (ihh hbh _ t' ht').cons hk hh true
    | inr ht =>
      obtain ⟨t', ht', rfl⟩ := List.mem_map.mp ht
      exact (ihl hbl _ t' ht').cons hk hl false

/-- Two traces part at the node where their paths do. -/
theorem traces_contradict (negated : Bool) (d : DdNode) :
    (traces negated d).Pairwise Contradict := by
  induction d generalizing negated with
  | terminal neg =>
    rw [traces]
    split <;> simp
  | xterm | cdd => simp [traces]
  | bdd neg level low high ihl ihh =>
    have hmap {ts : List (List (ℕ × Bool))} (h : ts.Pairwise Contradict) (value : Bool) :
        (ts.map ((level, value) :: ·)).Pairwise Contradict := by
      rw [List.pairwise_map]
      apply h.imp
      rintro s t ⟨p, hp, hpt⟩
      exact ⟨p, List.mem_cons_of_mem _ hp, List.mem_cons_of_mem _ hpt⟩
    rw [traces, List.pairwise_append]
    refine ⟨hmap (ihh _) true, hmap (ihl _) false, ?_⟩
    intro s hs t ht
    obtain ⟨s', -, rfl⟩ := List.mem_map.mp hs
    obtain ⟨t', -, rfl⟩ := List.mem_map.mp ht
    exact ⟨(level, true), List.mem_cons_self, List.mem_cons_self⟩

/-- The diagram holds where some trace does. -/
theorem exists_extends_iff (hd : L.WF d) (hb : BooleanOnly L d) (negated : Bool) (v : Valuation) :
    (∃ t ∈ traces negated d, Extends v.bool t) ↔ Holds L v (cddNegCond d negated) := by
  induction hd generalizing negated with
  | terminal neg =>
    show _ ↔ Holds L v (.terminal (neg ^^ negated))
    rw [traces]
    cases neg ^^ negated with
    | true =>
      rw [if_pos rfl]
      exact iff_of_true ⟨[], by simp, by simp [Extends]⟩ holds_cddtrue
    | false =>
      rw [if_neg Bool.false_ne_true]
      exact iff_of_false (by simp) not_holds_cddfalse
  | xterm neg h => exact absurd h (Nat.not_lt_zero _)
  | cdd neg hk =>
    obtain ⟨i, j, hij⟩ := hk
    have h := hb.of_cdd.1
    rw [hij] at h
    cases h
  | @bdd neg level low high hk hl hh _ _ hwl hwh ihl ihh =>
    obtain ⟨-, hbl, hbh⟩ := hb.of_bdd
    show _ ↔ Holds L v (.bdd (neg ^^ negated) level low high)
    rw [holds_bdd, Bool.xor_comm neg]
    have hcons {ts : List (List (ℕ × Bool))} {value : Bool} :
        (∃ t ∈ ts.map ((level, value) :: ·), Extends v.bool t) ↔
          v.bool level = value ∧ ∃ t ∈ ts, Extends v.bool t := by
      have hext (t : List (ℕ × Bool)) : Extends v.bool ((level, value) :: t) ↔
          v.bool level = value ∧ Extends v.bool t := List.forall_mem_cons
      simp only [List.mem_map, exists_exists_and_eq_and, hext]
      constructor
      · intro ⟨t, ht, hv, h⟩
        exact ⟨hv, t, ht, h⟩
      · intro ⟨hv, t, ht, h⟩
        exact ⟨t, ht, hv, h⟩
    rw [traces]
    simp only [List.mem_append, or_and_right, exists_or, hcons, ihl hbl, ihh hbh]
    cases v.bool level <;> simp

/-! ### The arrays -/

/-- A row of a matrix, padded. -/
def padded (numCols : ℕ) (row : List ℤ) : List ℤ :=
  row ++ List.replicate (numCols - row.length) (-1)

theorem length_padded {row : List ℤ} (h : row.length ≤ numCols) :
    (padded numCols row).length = numCols := by
  rw [padded, List.length_append, List.length_replicate]
  omega

theorem length_getArray {rows : List (List ℤ)} (h : ∀ r ∈ rows, r.length ≤ numCols) :
    (getArray numCols rows (-1)).length = rows.length * numCols := by
  induction rows with
  | nil => simp [getArray]
  | cons r rows ih =>
    obtain ⟨hr, h⟩ := List.forall_mem_cons.mp h
    show (padded numCols r ++ getArray numCols rows (-1)).length = _
    rw [List.length_append, length_padded hr, ih h, List.length_cons, Nat.succ_mul, Nat.add_comm]

theorem row_getArray {rows : List (List ℤ)} (h : ∀ r ∈ rows, r.length ≤ numCols) {t : ℕ}
    (ht : t < rows.length) :
    ((getArray numCols rows (-1)).drop (t * numCols)).take numCols = padded numCols rows[t] := by
  induction rows generalizing t with
  | nil => cases ht
  | cons r rows ih =>
    obtain ⟨hr, h⟩ := List.forall_mem_cons.mp h
    show ((padded numCols r ++ getArray numCols rows (-1)).drop _).take _ = _
    have hlen := length_padded hr
    cases t with
    | zero =>
      rw [Nat.zero_mul, List.drop_zero]
      exact List.take_left' hlen
    | succ t =>
      rw [Nat.succ_mul, Nat.add_comm, ← List.drop_drop, List.drop_left' hlen]
      exact ih h (by simpa using ht)

/-- Reading a row up to the first `-1` gives the trace back. -/
theorem read_padded (t : List (ℕ × Bool)) :
    (((padded numCols (traceVars t)).zip (padded numCols (traceValues t))).takeWhile
      fun p ↦ p.1 ≠ -1).map (fun p ↦ (p.1.toNat, decide (p.2 = 1))) = t := by
  have hzip : (padded numCols (traceVars t)).zip (padded numCols (traceValues t)) =
      (t.map fun p ↦ ((p.1 : ℤ), if p.2 then (1 : ℤ) else 0)) ++
        List.replicate (numCols - t.length) (-1, -1) := by
    rw [padded, padded, List.zip_append (by simp [traceVars, traceValues])]
    simp [traceVars, traceValues, List.zip_map']
  rw [hzip]
  clear hzip
  generalize numCols - t.length = n
  induction t with
  | nil => cases n <;> simp [List.replicate_succ]
  | cons p t ih =>
    rw [List.map_cons, List.cons_append, List.takeWhile_cons, if_pos (by simp),
      List.map_cons, ih]
    congr 1
    ext
    · simp
    · cases p.2 <;> simp

end

/-- The first entry is the level of the root. -/
theorem head_getArray {L : Library} {f : DdNode} (numCols : ℕ) (hf : L.WF f) (hb : BooleanOnly L f)
    (hnt : cddIsterminal f = false) :
    ∃ first, (getArray numCols ((traces false f).map traceVars) (-1)).head? = some first ∧
      first ≠ -1 := by
  have hne : f ≠ cddfalse := by
    rintro rfl
    cases hnt
  obtain ⟨b, hbh⟩ := exists_holds_bool hf hb hne
  have h := exists_extends_iff hf hb false ⟨fun _ ↦ 0, b⟩
  rw [cddNegCond_false] at h
  obtain ⟨t, ht, -⟩ := h.mpr (hbh _)
  cases f with
  | terminal | xterm => cases hnt
  | cdd => cases ht
  | bdd neg level low high =>
    have hhead : ∀ t ∈ traces false (.bdd neg level low high), ∃ value t', t = (level, value) :: t' := by
      intro t ht
      rw [traces, List.mem_append] at ht
      cases ht with
      | inl ht =>
        obtain ⟨t', -, rfl⟩ := List.mem_map.mp ht
        exact ⟨true, t', rfl⟩
      | inr ht =>
        obtain ⟨t', -, rfl⟩ := List.mem_map.mp ht
        exact ⟨false, t', rfl⟩
    cases hts : traces false (.bdd neg level low high) with
    | nil =>
      rw [hts] at ht
      cases ht
    | cons s ts =>
      obtain ⟨value, t', rfl⟩ := hhead s (hts ▸ List.mem_cons_self)
      exact ⟨level, rfl, by omega⟩

/-- The arrays list the satisfying paths of the diagram, one in each row. -/
structure ListsPaths (L : Library) (f : DdNode) (A : BddArrays) : Prop where
  numBools : A.numBools = L.varnum
  numTraces_pos : 0 < A.numTraces
  length_vars : A.vars.length = A.numTraces * A.numBools
  length_values : A.values.length = A.numTraces * A.numBools
  /-- A row is a trace and its padding. -/
  vars : ∀ t < A.numTraces, A.row A.vars t = padded A.numBools (traceVars (A.trace t))
  values : ∀ t < A.numTraces, A.row A.values t = padded A.numBools (traceValues (A.trace t))
  increasing : ∀ t < A.numTraces, ((A.trace t).map (·.1)).Pairwise (· < ·)
  boolean : ∀ t < A.numTraces, ∀ p ∈ A.trace t, L.levelinfo[p.1]? = some LevelInfo.bdd
  contradict : ∀ s < A.numTraces, ∀ t < A.numTraces, s ≠ t → Contradict (A.trace s) (A.trace t)
  holds_iff : ∀ v, Holds L v f ↔ ∃ t < A.numTraces, Extends v.bool (A.trace t)

theorem Contradict.symm {s t : List (ℕ × Bool)} (h : Contradict s t) : Contradict t s := by
  obtain ⟨p, hp, hpt⟩ := h
  exact ⟨_, hpt, by simpa using hp⟩

/-- `cdd_bdd_to_array` on a Boolean diagram that is not a terminal. -/
theorem cddBddToArray_correct (L : Library) (hL : L.Declared) (f : DdNode) (hf : L.WF f)
    (hb : BooleanOnly L f) (hnt : cddIsterminal f = false) :
    ∃ A, cddBddToArray L f = some A ∧ ListsPaths L f A := by
  set ts := traces false f with hts
  have hordered := traces_ordered hf hb false
  have hlevels : L.boolsFrom f.level ≤ L.varnum := by
    rw [← hL.count_bdd]
    exact (List.drop_sublist _ _).count_le _
  have hcols : 0 + L.boolsFrom f.level ≤ L.varnum := by omega
  obtain ⟨V, W, hrun, hV, hW, -, -⟩ :=
    cddBddToMatrixRec_spec hf hb false 0 .init .init rfl rfl rfl rfl hcols
  have hV : V.deleteIgnoredRows = ts.map traceVars := hV
  have hW : W.deleteIgnoredRows = ts.map traceValues := hW
  have hshort : ∀ t ∈ ts, t.length ≤ L.varnum := fun t ht ↦
    le_trans (hordered t ht).length_le hlevels
  have hshortV : ∀ r ∈ ts.map traceVars, r.length ≤ L.varnum := by
    intro r hr
    obtain ⟨t, ht, rfl⟩ := List.mem_map.mp hr
    rw [traceVars, List.length_map]
    exact hshort t ht
  have hshortW : ∀ r ∈ ts.map traceValues, r.length ≤ L.varnum := by
    intro r hr
    obtain ⟨t, ht, rfl⟩ := List.mem_map.mp hr
    rw [traceValues, List.length_map]
    exact hshort t ht
  obtain ⟨first, hfirst, hne⟩ := head_getArray L.varnum hf hb hnt
  set A : BddArrays := ⟨getArray L.varnum (ts.map traceVars) (-1),
    getArray L.varnum (ts.map traceValues) (-1), ts.length, L.varnum⟩ with hA
  have hrowV (t : ℕ) (ht : t < ts.length) :
      A.row A.vars t = padded L.varnum (traceVars ts[t]) := by
    rw [BddArrays.row, row_getArray hshortV (by simpa using ht), List.getElem_map]
  have hrowW (t : ℕ) (ht : t < ts.length) :
      A.row A.values t = padded L.varnum (traceValues ts[t]) := by
    rw [BddArrays.row, row_getArray hshortW (by simpa using ht), List.getElem_map]
  have htrace (t : ℕ) (ht : t < ts.length) : A.trace t = ts[t] := by
    rw [BddArrays.trace, hrowV t ht, hrowW t ht]
    exact read_padded _
  have hmem (t : ℕ) (ht : t < ts.length) : A.trace t ∈ ts := by
    rw [htrace t ht]
    exact List.getElem_mem ht
  refine ⟨A, ?_, ?_⟩
  · rw [cddBddToArray, hrun]
    simp only [Option.bind_eq_bind, Option.bind_some, hV, hW]
    rw [← hts] at hfirst
    rw [hfirst, Option.bind_some, if_neg hne, List.length_map]
    rfl
  · constructor
    · rfl
    · apply List.length_pos_iff.mpr
      intro h
      rw [← hts, h] at hfirst
      cases hfirst
    · show (getArray L.varnum (ts.map traceVars) (-1)).length = ts.length * L.varnum
      rw [length_getArray hshortV, List.length_map]
    · show (getArray L.varnum (ts.map traceValues) (-1)).length = ts.length * L.varnum
      rw [length_getArray hshortW, List.length_map]
    · intro t ht
      rw [htrace t ht]
      exact hrowV t ht
    · intro t ht
      rw [htrace t ht]
      exact hrowW t ht
    · exact fun t ht ↦ (hordered _ (hmem t ht)).pairwise
    · exact fun t ht p hp ↦ ((hordered _ (hmem t ht)).boolean p hp).2
    · have hpair := List.pairwise_iff_getElem.mp (traces_contradict false f)
      intro s hs t ht hst
      rw [htrace s hs, htrace t ht]
      cases lt_or_gt_of_ne hst with
      | inl h => exact hpair s t hs ht h
      | inr h => exact (hpair t s ht hs h).symm
    · intro v
      have h := exists_extends_iff hf hb false v
      rw [cddNegCond_false] at h
      rw [← h]
      constructor
      · intro ⟨t, ht, hext⟩
        obtain ⟨k, hk, rfl⟩ := List.getElem_of_mem ht
        exact ⟨k, hk, (htrace k hk).symm ▸ hext⟩
      · intro ⟨t, ht, hext⟩
        exact ⟨A.trace t, hmem t ht, hext⟩

/-- The negation of a test of a Boolean has the trace that sets it to `false`. -/
theorem cddBddToArray_correct_sample :
    ∃ A, cddBddToArray sampleLibrary (.bdd true 1 cddfalse cddtrue) = some A ∧
      ListsPaths sampleLibrary (.bdd true 1 cddfalse cddtrue) A :=
  cddBddToArray_correct sampleLibrary declared_sampleLibrary _ (by decide)
    (.bdd _ (by decide) (.terminal _) (.terminal _)) rfl

end UCDD

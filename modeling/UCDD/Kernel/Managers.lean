import UCDD.Diagram.Apply

/-!
# Node managers

The node managers of `kernel.c:324–396, 613–768, 1008–1090`. There is one for the BDD nodes and
one for the CDD nodes of each size, which is made with the first node of that size. Each has an
array with a subtable for each level, which is made with the first node on that level. New levels
make the arrays longer. An access out of range is `none`.
-/

namespace UCDD

open DdNode Levels

/-- `SubTable`: the nodes on one level, whatever bucket they are in. -/
structure SubTable where
  level : ℕ
  nodes : List DdNode

/-- `NodeManager`. An entry `none` is `NULL`. -/
structure NodeManager where
  subtables : List (Option SubTable)

/-- `cdd_maxcddsize`, the declared levels and the managers. -/
structure Managers where
  maxcddsize : ℕ
  levels : Levels
  bddmanager : NodeManager
  cddmanager : List (Option NodeManager)

/-- `cdd_levelcnt`. -/
def Managers.levelcnt (M : Managers) : ℕ := M.levels.levelinfo.length

/-- `cdd_alloc_nodemanager`. -/
def cddAllocNodemanager (levelcnt : ℕ) : NodeManager := ⟨List.replicate levelcnt none⟩

/-- `cdd_init`. -/
def cddInit (maxsize : ℕ) : Managers :=
  ⟨maxsize, Levels.init, cddAllocNodemanager 0, List.replicate (maxsize + 1) none⟩

/-- `add_levels_to_nodemanager`. -/
def addLevelsToNodemanager (levelcnt n : ℕ) (man : NodeManager) : NodeManager :=
  ⟨(List.range (levelcnt + n)).map fun i ↦
    if levelcnt ≤ i then none else (man.subtables[i]?).join⟩

/-- `add_levels`: the loop ends before the manager of the largest size. -/
def addLevels (n : ℕ) (M : Managers) : Managers :=
  { M with
    bddmanager := addLevelsToNodemanager M.levelcnt n M.bddmanager
    cddmanager := M.cddmanager.mapIdx fun i man ↦
      if i < M.maxcddsize then man.map (addLevelsToNodemanager M.levelcnt n) else man }

/-- The number of levels that `cdd_add_clocks` or `cdd_add_bddvar` adds. -/
def newLevels (L : Levels) : Declaration → ℕ
  | .cddAddClocks n => cddDifferenceCount (L.clocknum + n) - cddDifferenceCount L.clocknum
  | .cddAddBddvar n => n

/-- `cdd_add_clocks` and `cdd_add_bddvar`. -/
def Managers.declare (M : Managers) (d : Declaration) : Managers :=
  { addLevels (newLevels M.levels d) M with levels := M.levels.declare d }

/-- The access `man->subtables[level]`, and `cdd_alloc_subtable` if there is no table yet. -/
def NodeManager.subtable (man : NodeManager) (level : ℕ) : Option SubTable :=
  (man.subtables[level]?).map fun tbl ↦ tbl.getD ⟨level, []⟩

/-- Find the node in its subtable, or add it. -/
def NodeManager.store (man : NodeManager) (level : ℕ) (node : DdNode) : Option NodeManager := do
  let tbl ← man.subtable level
  let nodes := if node ∈ tbl.nodes then tbl.nodes else node :: tbl.nodes
  return ⟨man.subtables.set level (some ⟨tbl.level, nodes⟩)⟩

/-- The managers after `cdd_make_bdd_node`. -/
def Managers.makeBddNode (M : Managers) (level : ℕ) (low high : DdNode) : Option Managers :=
  if low = high then some M
  else do
    let man ← M.bddmanager.store level (cddRglr (cddMakeBddNode level low high))
    return { M with bddmanager := man }

/-- The managers after `cdd_make_cdd_node`. -/
def Managers.makeCddNode (M : Managers) (level : ℕ) (elem : List (DdNode × Raw)) :
    Option Managers :=
  if M.maxcddsize < elem.length then some M
  else if elem.length = 1 then some M
  else do
    let man := ((M.cddmanager[elem.length]?).join).getD (cddAllocNodemanager M.levelcnt)
    let man ← man.store level (.cdd false level elem)
    return { M with cddmanager := M.cddmanager.set elem.length (some man) }

/-- A declaration of levels, or the creation of a node. -/
inductive KernelCall where
  | declare (d : Declaration)
  | makeBddNode (level : ℕ) (low high : DdNode)
  | makeCddNode (level : ℕ) (elem : List (DdNode × Raw))

/-- The managers after a call. -/
def Managers.call (M : Managers) : KernelCall → Option Managers
  | .declare d => some (M.declare d)
  | .makeBddNode level low high => M.makeBddNode level low high
  | .makeCddNode level elem => M.makeCddNode level elem

/-! ### Coverage -/

/-- Every manager has one entry for each level. -/
structure Managers.Covered (M : Managers) : Prop where
  bddmanager : M.bddmanager.subtables.length = M.levelcnt
  cddmanager : ∀ (i : ℕ) (man : NodeManager), M.cddmanager[i]? = some (some man) →
    man.subtables.length = M.levelcnt

/-- The arrays of `M'` are those of `M` and an entry `NULL` for each new level. -/
structure Managers.Grows (M M' : Managers) : Prop where
  levelcnt : M.levelcnt ≤ M'.levelcnt
  bddmanager : M'.bddmanager.subtables =
    M.bddmanager.subtables ++ List.replicate (M'.levelcnt - M.levelcnt) none
  cddmanager : ∀ (i : ℕ) (man : NodeManager), M.cddmanager[i]? = some (some man) →
    ∃ man' : NodeManager, M'.cddmanager[i]? = some (some man') ∧
      man'.subtables = man.subtables ++ List.replicate (M'.levelcnt - M.levelcnt) none

/-- Nodes are created on declared levels, with at least two and at most `cdd_maxcddsize`
children. -/
def Admissible (maxsize : ℕ) : Levels → List KernelCall → Prop
  | _, [] => True
  | L, .declare d :: calls => Admissible maxsize (L.declare d) calls
  | L, .makeBddNode level _ _ :: calls => level < L.levelinfo.length ∧ Admissible maxsize L calls
  | L, .makeCddNode level elem :: calls =>
    (level < L.levelinfo.length ∧ 2 ≤ elem.length ∧ elem.length ≤ maxsize) ∧
      Admissible maxsize L calls

/-- In every state of the run each manager has one entry for each level; a declaration keeps the
old entries and adds entries `NULL`; no access is out of range. -/
def Managers.Covers (M : Managers) : List KernelCall → Prop
  | [] => M.Covered
  | c :: calls => M.Covered ∧ ∃ M', M.call c = some M' ∧
      (∀ d, c = .declare d → M.Grows M') ∧ M'.Covers calls

/-- No level is declared after a node with `cdd_maxcddsize` children was created; `made` tells
whether one was. -/
def NoLateLevel (maxsize : ℕ) : Levels → Bool → List KernelCall → Prop
  | _, _, [] => True
  | L, made, .declare d :: calls =>
    (made = true → newLevels L d = 0) ∧ NoLateLevel maxsize (L.declare d) made calls
  | L, made, .makeBddNode _ _ _ :: calls => NoLateLevel maxsize L made calls
  | L, made, .makeCddNode _ elem :: calls =>
    NoLateLevel maxsize L (made || decide (elem.length = maxsize)) calls

/-! ### One call -/

section

variable {M M' : Managers} {man : NodeManager} {maxsize level n : ℕ}

theorem addLevelsToNodemanager_subtables {levelcnt : ℕ} (h : man.subtables.length = levelcnt) :
    (addLevelsToNodemanager levelcnt n man).subtables =
      man.subtables ++ List.replicate n none := by
  apply List.ext_getElem
  · simp [addLevelsToNodemanager, h]
  · intro i hi hi'
    by_cases hlt : i < levelcnt
    · have hle : ¬ levelcnt ≤ i := not_le.mpr hlt
      simp [addLevelsToNodemanager, hle, h, hlt]
    · have hle : levelcnt ≤ i := not_lt.mp hlt
      simp [addLevelsToNodemanager, hle, h]

theorem addDiffs_length (i j : ℕ) (L : Levels) :
    (addDiffs i j L).levelinfo.length = L.levelinfo.length + j := by
  rw [addDiffs_levelinfo]
  simp

theorem addClockDiffs_length (c n : ℕ) (L : Levels) :
    (addClockDiffs c n L).levelinfo.length + cddDifferenceCount c =
      L.levelinfo.length + cddDifferenceCount (c + n) := by
  induction n with
  | zero => rfl
  | succ n ih =>
    have h := cddDifferenceCount_succ (c + n)
    rw [addClockDiffs, addDiffs_length, ← Nat.add_assoc c n 1]
    omega

/-- The number of levels that `add_levels` makes room for. -/
theorem length_declare (L : Levels) (d : Declaration) :
    (L.declare d).levelinfo.length = L.levelinfo.length + newLevels L d := by
  cases d with
  | cddAddClocks n =>
    have h := addClockDiffs_length L.clocknum n L
    have hmono := cddDifferenceCount_mono (Nat.le_add_right L.clocknum n)
    show (addClockDiffs L.clocknum n L).levelinfo.length = L.levelinfo.length +
      (cddDifferenceCount (L.clocknum + n) - cddDifferenceCount L.clocknum)
    omega
  | cddAddBddvar n =>
    show (L.levelinfo ++ List.replicate n _).length = _
    rw [List.length_append, List.length_replicate]
    rfl

theorem levelcnt_declare (M : Managers) (d : Declaration) :
    (M.declare d).levelcnt = M.levelcnt + newLevels M.levels d := length_declare M.levels d

variable (man) in
theorem store_spec (node : DdNode) (h : level < man.subtables.length) :
    ∃ man' : NodeManager, man.store level node = some man' ∧
      man'.subtables.length = man.subtables.length := by
  obtain ⟨tbl, htbl⟩ : ∃ tbl, man.subtable level = some tbl := by
    rw [NodeManager.subtable, List.getElem?_eq_getElem h]
    exact ⟨_, rfl⟩
  refine ⟨_, by rw [NodeManager.store, htbl]; rfl, ?_⟩
  exact List.length_set

/-- What the calls keep, besides the lengths of the arrays. -/
structure Managers.Tracks (maxsize : ℕ) (made : Bool) (M : Managers) : Prop where
  maxcddsize : M.maxcddsize = maxsize
  length : M.cddmanager.length = maxsize + 1
  made : made = true ↔ ∃ man, M.cddmanager[maxsize]? = some (some man)

theorem cddmanager_declare (M : Managers) (d : Declaration) (i : ℕ) :
    (M.declare d).cddmanager[i]? = (M.cddmanager[i]?).map fun man ↦
      if i < M.maxcddsize then man.map (addLevelsToNodemanager M.levelcnt (newLevels M.levels d))
      else man := by
  show (M.cddmanager.mapIdx _)[i]? = _
  rw [List.getElem?_mapIdx]

/-- The manager of the largest size is left out. -/
theorem cddmanager_declare_last (h : M.maxcddsize = maxsize) (d : Declaration) :
    (M.declare d).cddmanager[maxsize]? = M.cddmanager[maxsize]? := by
  rw [cddmanager_declare, h]
  simp

theorem Managers.Tracks.declare {made : Bool} (h : M.Tracks maxsize made) (d : Declaration) :
    (M.declare d).Tracks maxsize made := by
  refine ⟨h.maxcddsize, ?_, ?_⟩
  · show (M.cddmanager.mapIdx _).length = _
    rw [List.length_mapIdx, h.length]
  · rw [h.made, cddmanager_declare_last h.maxcddsize]

/-- A declaration keeps the arrays in step unless it leaves out an existing manager. -/
theorem Managers.Covered.declare {made : Bool} (hM : M.Covered) (h : M.Tracks maxsize made)
    (d : Declaration) (hd : made = true → newLevels M.levels d = 0) :
    (M.declare d).Covered ∧ M.Grows (M.declare d) := by
  have hcnt := levelcnt_declare M d
  have hsub : (M.declare d).levelcnt - M.levelcnt = newLevels M.levels d := by omega
  have hbdd : (M.declare d).bddmanager.subtables =
      M.bddmanager.subtables ++ List.replicate (newLevels M.levels d) none :=
    addLevelsToNodemanager_subtables hM.bddmanager
  have hcdd (i : ℕ) (man : NodeManager) (hman : M.cddmanager[i]? = some (some man)) :
      ∃ man' : NodeManager, (M.declare d).cddmanager[i]? = some (some man') ∧
        man'.subtables = man.subtables ++ List.replicate (newLevels M.levels d) none := by
    rw [cddmanager_declare, hman]
    by_cases hi : i < M.maxcddsize
    · refine ⟨addLevelsToNodemanager M.levelcnt (newLevels M.levels d) man, by simp [hi], ?_⟩
      exact addLevelsToNodemanager_subtables (hM.cddmanager i man hman)
    · have hlast : i = maxsize := by
        have hlt := (List.getElem?_eq_some_iff.mp hman).1
        rw [h.length] at hlt
        rw [h.maxcddsize] at hi
        omega
      have hmade : made = true := h.made.mpr ⟨man, hlast ▸ hman⟩
      exact ⟨man, by simp [hi], by simp [hd hmade]⟩
  refine ⟨⟨?_, ?_⟩, ⟨by omega, ?_, ?_⟩⟩
  · rw [hbdd, List.length_append, List.length_replicate, hM.bddmanager, hcnt]
  · intro i man' hman'
    have hold : ∃ man, M.cddmanager[i]? = some (some man) := by
      rw [cddmanager_declare] at hman'
      obtain ⟨man, hman, -⟩ := Option.map_eq_some_iff.mp hman'
      cases man with
      | none => simp [hman] at hman'
      | some man => exact ⟨man, hman⟩
    obtain ⟨man, hman⟩ := hold
    obtain ⟨man'', hman'', heq⟩ := hcdd i man hman
    rw [hman'] at hman''
    cases hman''
    rw [heq, List.length_append, List.length_replicate, hM.cddmanager i man hman, hcnt]
  · rw [hsub]
    exact hbdd
  · rw [hsub]
    exact hcdd

/-- New levels after the manager of the largest size was made. -/
theorem not_covered_declare (hM : M.Covered) (h : M.Tracks maxsize true) (d : Declaration)
    (hd : newLevels M.levels d ≠ 0) : ¬ (M.declare d).Covered := by
  intro hcov
  obtain ⟨man, hman⟩ := h.made.mp rfl
  have hnew := hcov.cddmanager maxsize man (by rw [cddmanager_declare_last h.maxcddsize, hman])
  rw [hM.cddmanager maxsize man hman, levelcnt_declare] at hnew
  omega

/-- Creating a BDD node changes the entries only. -/
theorem Managers.Covered.makeBddNode {made : Bool} (hM : M.Covered) (h : M.Tracks maxsize made)
    (hlevel : level < M.levelcnt) (low high : DdNode) :
    ∃ M', M.makeBddNode level low high = some M' ∧ M'.Covered ∧ M'.Tracks maxsize made ∧
      M'.levels = M.levels := by
  unfold Managers.makeBddNode
  split
  · exact ⟨M, rfl, hM, h, rfl⟩
  · obtain ⟨man', hstore, hlen⟩ := store_spec M.bddmanager
      (cddRglr (cddMakeBddNode level low high)) (hM.bddmanager ▸ hlevel)
    rw [hstore]
    exact ⟨_, rfl, ⟨hlen.trans hM.bddmanager, hM.cddmanager⟩, ⟨h.maxcddsize, h.length, h.made⟩, rfl⟩

/-- Creating a CDD node makes the manager of its size if there is none. -/
theorem Managers.Covered.makeCddNode {made : Bool} (hM : M.Covered) (h : M.Tracks maxsize made)
    (hlevel : level < M.levelcnt) {elem : List (DdNode × Raw)} (h2 : 2 ≤ elem.length)
    (hmax : elem.length ≤ maxsize) :
    ∃ M', M.makeCddNode level elem = some M' ∧ M'.Covered ∧
      M'.Tracks maxsize (made || decide (elem.length = maxsize)) ∧ M'.levels = M.levels := by
  have hle : ¬ M.maxcddsize < elem.length := by
    rw [h.maxcddsize]
    omega
  have hlt : elem.length < M.cddmanager.length := by
    rw [h.length]
    omega
  obtain ⟨man, hman, hlen⟩ : ∃ man : NodeManager, ((M.cddmanager[elem.length]?).join).getD
      (cddAllocNodemanager M.levelcnt) = man ∧ man.subtables.length = M.levelcnt := by
    refine ⟨_, rfl, ?_⟩
    cases hget : M.cddmanager[elem.length]? with
    | none => exact List.length_replicate
    | some entry =>
      cases entry with
      | none => exact List.length_replicate
      | some man => exact hM.cddmanager elem.length man hget
  obtain ⟨man', hstore, hlen'⟩ := store_spec man (.cdd false level elem) (hlen ▸ hlevel)
  have hcall : M.makeCddNode level elem =
      some { M with cddmanager := M.cddmanager.set elem.length (some man') } := by
    rw [Managers.makeCddNode, if_neg hle, if_neg (by omega)]
    simp only [hman, hstore]
    rfl
  refine ⟨_, hcall, ⟨hM.bddmanager, ?_⟩, ⟨h.maxcddsize, ?_, ?_⟩, rfl⟩
  · intro i m hm
    have hm' : (M.cddmanager.set elem.length (some man'))[i]? = some (some m) := hm
    by_cases hi : elem.length = i
    · rw [← hi, List.getElem?_set_self hlt] at hm'
      cases hm'
      exact hlen'.trans hlen
    · rw [List.getElem?_set_ne hi] at hm'
      exact hM.cddmanager i m hm'
  · exact List.length_set.trans h.length
  · show _ ↔ ∃ m, (M.cddmanager.set elem.length (some man'))[maxsize]? = some (some m)
    by_cases hi : elem.length = maxsize
    · subst hi
      simp [hlt]
    · rw [List.getElem?_set_ne hi, decide_eq_false hi, Bool.or_false]
      exact h.made

end

/-! ### Runs -/

theorem covered_cddInit (maxsize : ℕ) :
    (cddInit maxsize).Covered ∧ (cddInit maxsize).Tracks maxsize false := by
  refine ⟨⟨rfl, ?_⟩, ⟨rfl, List.length_replicate, ?_⟩⟩
  · intro i man h
    have h' : (List.replicate (maxsize + 1) none)[i]? = some (some man) := h
    rw [List.getElem?_replicate] at h'
    split at h' <;> cases h'
  · simp [cddInit]

/-- From a state whose arrays are in step. -/
theorem covers_iff {maxsize : ℕ} {made : Bool} {M : Managers} (hM : M.Covered)
    (h : M.Tracks maxsize made) (calls : List KernelCall) (hadm : Admissible maxsize M.levels calls) :
    M.Covers calls ↔ NoLateLevel maxsize M.levels made calls := by
  induction calls generalizing M made with
  | nil => exact iff_of_true hM trivial
  | cons c calls ih =>
    cases c with
    | declare d =>
      have hstep : M.Covers (.declare d :: calls) ↔ M.Covered ∧ ∃ M', some (M.declare d) = some M' ∧
          (∀ d', KernelCall.declare d = .declare d' → M.Grows M') ∧ M'.Covers calls := Iff.rfl
      by_cases hd : made = true → newLevels M.levels d = 0
      · obtain ⟨hcov, hgrow⟩ := hM.declare h d hd
        have hrest : (M.declare d).Covers calls ↔
            NoLateLevel maxsize (M.levels.declare d) made calls := ih hcov (h.declare d) hadm
        rw [NoLateLevel, and_iff_right hd, ← hrest, hstep, and_iff_right hM]
        constructor
        · rintro ⟨M', hM', -, hrest⟩
          cases hM'
          exact hrest
        · intro hrest
          exact ⟨_, rfl, fun _ _ ↦ hgrow, hrest⟩
      · rw [NoLateLevel, hstep]
        apply iff_of_false
        · rintro ⟨-, M', hM', -, hrest⟩
          cases hM'
          rw [Classical.not_imp] at hd
          obtain ⟨hmade, hne⟩ := hd
          subst hmade
          have hcov : (M.declare d).Covered := by
            cases calls with
            | nil => exact hrest
            | cons => exact hrest.1
          exact not_covered_declare hM h d hne hcov
        · exact fun hrest ↦ hd hrest.1
    | makeBddNode level low high =>
      obtain ⟨M', hcall, hcov, htracks, hlevels⟩ := hM.makeBddNode h hadm.1 low high
      have hadm' : Admissible maxsize M'.levels calls := by
        rw [hlevels]
        exact hadm.2
      rw [NoLateLevel, ← hlevels, ← ih hcov htracks hadm']
      constructor
      · rintro ⟨-, M'', hcall', -, hrest⟩
        cases hcall.symm.trans hcall'
        exact hrest
      · intro hrest
        exact ⟨hM, M', hcall, nofun, hrest⟩
    | makeCddNode level elem =>
      obtain ⟨M', hcall, hcov, htracks, hlevels⟩ := hM.makeCddNode h hadm.1.1 hadm.1.2.1 hadm.1.2.2
      have hadm' : Admissible maxsize M'.levels calls := by
        rw [hlevels]
        exact hadm.2
      rw [NoLateLevel, ← hlevels, ← ih hcov htracks hadm']
      constructor
      · rintro ⟨-, M'', hcall', -, hrest⟩
        cases hcall.symm.trans hcall'
        exact hrest
      · intro hrest
        exact ⟨hM, M', hcall, nofun, hrest⟩

/-- The arrays are in step with the levels in every state of a run just when no level is declared
after a node of the largest size was created. -/
theorem managers_correct (maxsize : ℕ) (calls : List KernelCall)
    (hadm : Admissible maxsize Levels.init calls) :
    (cddInit maxsize).Covers calls ↔ NoLateLevel maxsize Levels.init false calls := by
  obtain ⟨hcov, htracks⟩ := covered_cddInit maxsize
  exact covers_iff hcov htracks calls hadm

/-- Two clocks, and a node with two children on their level. -/
def sampleCalls : List KernelCall :=
  [.declare (.cddAddClocks 2), .makeCddNode 0 [(cddfalse, 4), (cddtrue, INF)]]

/-- Three children are allowed. -/
theorem managers_correct_sample :
    (cddInit 3).Covers (sampleCalls ++ [.declare (.cddAddBddvar 1)]) ↔
      NoLateLevel 3 Levels.init false (sampleCalls ++ [.declare (.cddAddBddvar 1)]) :=
  managers_correct 3 _ ⟨⟨by decide, by decide, by decide⟩, trivial⟩

/-- A node of the largest size, and then a declaration: the array of its manager stays too short. -/
theorem managers_lateLevel :
    ¬ (cddInit 2).Covers (sampleCalls ++ [.declare (.cddAddBddvar 1)]) := by
  obtain ⟨hcov, htracks⟩ := covered_cddInit 2
  have hadm : Admissible 2 Levels.init (sampleCalls ++ [.declare (.cddAddBddvar 1)]) :=
    ⟨⟨by decide, by decide, by decide⟩, trivial⟩
  rw [covers_iff hcov htracks _ hadm]
  rintro ⟨-, hlate, -⟩
  cases hlate rfl

end UCDD

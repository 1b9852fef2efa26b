import UCDD.Kernel.KernelRun

/-!
# The counters

What the allocations, the insertions and the sweeps of `kernel.c:398–611` do to the 32-bit counters
of a manager and of its subtables.
-/

namespace UCDD

namespace NodeTable

open HashChain Loop Links Counter

/-- No node of the manager counts as dead, and it has at most `c` nodes. -/
structure NodeManager.Calm (man : NodeManager) (c : ℤ) : Prop where
  deadcnt : man.deadcnt = 0
  nonneg : 0 ≤ man.alloccnt
  le : man.alloccnt ≤ c

/-- The counters of a subtable after one more key, and after it has been rehashed if there are too
many. -/
structure SubTable.Inserted (tbl tbl' : SubTable) : Prop where
  keys : tbl'.keys = int32 (tbl.keys + 1)
  deadcnt : tbl'.deadcnt = tbl.deadcnt
  grown : tbl.maxkeys < int32 (tbl.keys + 1) →
    tbl'.buckets = int32 (2 * tbl.buckets) ∧ tbl'.maxkeys = int32 (2 * tbl.maxkeys)
  same : ¬ tbl.maxkeys < int32 (tbl.keys + 1) →
    tbl'.buckets = tbl.buckets ∧ tbl'.maxkeys = tbl.maxkeys

section

variable {E : Env} {bytes a b c node : ℤ} {words levelcnt level n i j cnt : ℕ} {h h' : Heap}
  {man man' : NodeManager} {tbl tbl' : SubTable} {F F' : List ℤ} {chain chain' : ℕ → ℕ → List ℤ}
  {S : Search} {hashfunc : List ℤ → ℕ} {k k' : Kernel}

/-! ### Chunks -/

theorem NodeManager.Calm.not_collects (hc : man.Calm c) (hle : c ≤ 10 ^ 8) : ¬ man.Collects := by
  have h0 := hc.nonneg
  have h1 := hc.le
  have hsame : int32 (20 * man.alloccnt) = 20 * man.alloccnt :=
    int32_of_mem (by omega) (by omega)
  have hzero : int32 (100 * 0) = 0 := by decide
  show ¬ int32 (20 * man.alloccnt) < int32 (100 * man.deadcnt)
  rw [hc.deadcnt, hsame, hzero]
  omega

/-- A calm manager takes a chunk when its free list is empty. -/
theorem NodeManager.Calm.refills (hc : man.Calm c) (hle : c ≤ 10 ^ 8)
    (hb : bytes ≤ CHUNKSIZE - SIZEOF_CHUNK) : Refills levelcnt bytes h man := by
  right
  rw [if_neg (hc.not_collects hle)]
  exact hb

theorem chunkNodes_mem (hb : Fits bytes) : 0 ≤ chunkNodes bytes ∧ chunkNodes bytes ≤ 65520 := by
  have hpos := hb.pos
  have hle : bytes ≤ 65520 := hb.le
  have hmod : bytes % 2 ^ 64 = bytes := Int.emod_eq_of_lt (by omega) (by omega)
  have h0 : (0 : ℤ) ≤ 65520 / bytes := Int.ediv_nonneg (by norm_num) (by omega)
  have h1 : (65520 : ℤ) / bytes ≤ 65520 := Int.ediv_le_self _ (by norm_num)
  have hsame : chunkNodes bytes = 65520 / bytes := by
    show int32 (65520 / (bytes % 2 ^ 64)) = _
    rw [hmod]
    exact int32_of_mem (by omega) (by omega)
  rw [hsame]
  exact ⟨h0, h1⟩

theorem cddAllocChunk_counts (hrun : cddAllocChunk E h man = .done (h', man')) :
    h'.ref = h.ref ∧ man'.subtables = man.subtables ∧ man'.deadcnt = man.deadcnt ∧
      man'.alloccnt = int32 (man.alloccnt + chunkNodes man.nodesize) := by
  unfold cddAllocChunk at hrun
  obtain ⟨⟨next, p⟩, -, hrest⟩ := Run.bind_eq_done hrun
  cases hrest
  exact ⟨rfl, rfl, rfl, rfl⟩

/-- The refill step when it does not collect. -/
theorem refill_counts (hrun : refill E levelcnt h man = .done (h', man'))
    (hnot : ¬ (man.free = 0 ∧ man.Collects)) :
    h'.ref = h.ref ∧ man'.subtables = man.subtables ∧ man'.deadcnt = man.deadcnt ∧
      (man'.alloccnt = man.alloccnt ∨
        man'.alloccnt = int32 (man.alloccnt + chunkNodes man.nodesize)) := by
  unfold refill at hrun
  by_cases hfree : man.free = 0
  · have hcol : ¬ man.Collects := fun hcol ↦ hnot ⟨hfree, hcol⟩
    rw [if_pos hfree, if_neg hcol] at hrun
    obtain ⟨href, hsub, hdead, halloc⟩ := cddAllocChunk_counts hrun
    exact ⟨href, hsub, hdead, Or.inr halloc⟩
  · rw [if_neg hfree] at hrun
    cases hrun
    exact ⟨rfl, rfl, rfl, Or.inl rfl⟩

/-- A calm manager takes a chunk at most, and it stays calm. -/
theorem NodeManager.Calm.refill (hc : man.Calm c) (hle : c + 65520 ≤ 10 ^ 8)
    (hb : Fits man.nodesize) (hrun : NodeTable.refill E levelcnt h man = .done (h', man')) :
    man'.Calm (c + 65520) ∧ man'.subtables = man.subtables ∧ h'.ref = h.ref := by
  obtain ⟨href, hsub, hdead, halloc⟩ :=
    refill_counts hrun fun hcol ↦ hc.not_collects (by omega) hcol.2
  refine ⟨⟨hdead.trans hc.deadcnt, ?_, ?_⟩, hsub, href⟩
  all_goals
    have h0 := hc.nonneg
    have h1 := hc.le
    obtain ⟨hn0, hn1⟩ := chunkNodes_mem hb
    have hsame : int32 (man.alloccnt + chunkNodes man.nodesize) =
        man.alloccnt + chunkNodes man.nodesize := int32_of_mem (by omega) (by omega)
    rw [hsame] at halloc
    omega

theorem cddAllocNode_counts (hrun : cddAllocNode E levelcnt h man = .done (node, h', man')) :
    ∃ man₁, refill E levelcnt h man = .done (h', man₁) ∧ man₁.free ≠ 0 ∧ node = man₁.free ∧
      man' = { man₁ with
        free := h'.next man₁.free
        usedcnt := int32 (man₁.usedcnt + 1)
        freecnt := int32 (man₁.freecnt - 1) } := by
  unfold cddAllocNode at hrun
  obtain ⟨⟨h₁, man₁⟩, hrefill, hrest⟩ := Run.bind_eq_done hrun
  by_cases hzero : man₁.free = 0
  · simp only [hzero, if_true] at hrest
    cases hrest
  · simp only [hzero, if_false] at hrest
    cases hrest
    exact ⟨man₁, hrefill, hzero, rfl, rfl⟩

theorem calm_newManager (bytes : ℤ) (hashfunc : List ℤ → ℕ) :
    (newManager bytes hashfunc).Calm 0 :=
  ⟨rfl, le_rfl, le_rfl⟩

/-- A new manager has one chunk at most. -/
theorem cddAllocNodemanager_counts (hb : Fits bytes)
    (hrun : cddAllocNodemanager E levelcnt h bytes words hashfunc = .done (h', man')) :
    man'.Calm 65520 ∧ man'.subtables = fun _ ↦ none := by
  unfold cddAllocNodemanager at hrun
  obtain ⟨⟨node, h₁, man₁⟩, halloc, hrest⟩ := Run.bind_eq_done hrun
  cases hrest
  obtain ⟨man₂, hrefill, -, -, hman₁⟩ := cddAllocNode_counts halloc
  obtain ⟨hcalm, hsub, -⟩ :=
    (calm_newManager bytes hashfunc).refill (by norm_num) hb hrefill
  rw [zero_add] at hcalm
  constructor
  · constructor
    · rw [hman₁]
      exact hcalm.deadcnt
    · rw [hman₁]
      exact hcalm.nonneg
    · rw [hman₁]
      exact hcalm.le
  · rw [hman₁]
    exact hsub

/-- The manager that `cdd_init` makes. -/
theorem Kernel.init_counts {maxsize : ℕ} (hinit : Kernel.init E h maxsize = .done k) :
    ∃ man, k.managers 0 = some man ∧ man.Calm 65520 ∧ man.subtables = fun _ ↦ none := by
  unfold Kernel.init at hinit
  obtain ⟨⟨h', man⟩, hrun, hrest⟩ := Run.bind_eq_done hinit
  cases hrest
  exact ⟨man, Kernel.put_self _, cddAllocNodemanager_counts (fits_nodeBytes (by decide)) hrun⟩

/-! ### Insertion -/

theorem growTable_counts {h₁ : Heap} (hrun : growTable E h man tbl = .done (h₁, tbl')) :
    h₁.ref = h.ref ∧ tbl'.keys = tbl.keys ∧ tbl'.deadcnt = tbl.deadcnt ∧
      (tbl.maxkeys < tbl.keys →
        tbl'.buckets = int32 (2 * tbl.buckets) ∧ tbl'.maxkeys = int32 (2 * tbl.maxkeys)) ∧
      (¬ tbl.maxkeys < tbl.keys → tbl'.buckets = tbl.buckets ∧ tbl'.maxkeys = tbl.maxkeys) := by
  unfold growTable at hrun
  by_cases hfull : tbl.maxkeys < tbl.keys
  · rw [if_pos hfull] at hrun
    unfold cddRehash at hrun
    by_cases hneg : int32 (2 * tbl.buckets) < 0
    · simp only [hneg, if_true] at hrun
      cases hrun
    · simp only [hneg, if_false] at hrun
      obtain ⟨links, -, hrest⟩ := Run.bind_eq_done hrun
      cases hrest
      exact ⟨rfl, rfl, rfl, fun _ ↦ ⟨rfl, rfl⟩, fun hnot ↦ absurd hfull hnot⟩
  · rw [if_neg hfull] at hrun
    cases hrun
    exact ⟨rfl, rfl, rfl, fun h ↦ absurd h hfull, fun _ ↦ ⟨rfl, rfl⟩⟩

theorem insertNode_counts {p : Cursor ℕ ℤ} {gbccnt : ℤ}
    (hrun : insertNode E level S j p gbccnt node h man = .done (h', man')) :
    ∃ tbl tbl', man.subtables level = some tbl ∧ tbl.Inserted tbl' ∧
      man' = { man with subtables := Function.update man.subtables level (some tbl') } ∧
      h'.ref = Function.update h.ref node 0 := by
  unfold insertNode at hrun
  cases htbl : man.subtables level with
  | none =>
    rw [htbl] at hrun
    cases hrun
  | some tbl =>
    rw [htbl] at hrun
    obtain ⟨q, -, hrest⟩ := Run.bind_eq_done hrun
    obtain ⟨⟨h₁, tbl'⟩, hgrow, hrest⟩ := Run.bind_eq_done hrest
    cases hrest
    obtain ⟨href, hkeys, hdead, hgrown, hsame⟩ := growTable_counts hgrow
    exact ⟨tbl, tbl', rfl, ⟨hkeys, hdead, hgrown, hsame⟩, rfl, href⟩

/-- The refill step that a call goes through when its key is new, and what the call then adds. -/
theorem makeNode_counts (hfree : FreeOk bytes h man F)
    (hs : StoredOk bytes words levelcnt n h man F chain) (hlevel : level < levelcnt)
    (hS : SearchOk E words man.hashfunc S) (hn : n < E.fuel)
    (hkey : ∀ a, InChain man chain level a → h.key a ≠ S.key)
    (hrun : makeNode E levelcnt level S h man = .done (node, h', man')) :
    ∃ h₁ man₁ tbl tbl', refill E levelcnt (refChildren h S) (openSubtable man level).2 =
        .done (h₁, man₁) ∧
      man₁.subtables level = some tbl ∧ tbl.Inserted tbl' ∧ man'.subtables level = some tbl' ∧
      man'.deadcnt = man₁.deadcnt ∧ man'.alloccnt = man₁.alloccnt ∧
      man'.free = h₁.next man₁.free ∧ h'.ref node = 0 := by
  obtain ⟨tbl₀, subtables, chain₁, hopen, -, -, -, -, -, -, hcases⟩ :=
    makeNode_cases hfree hs hlevel hS hn
  cases hcases with
  | inl hfound =>
    obtain ⟨a, ha, hakey, -⟩ := hfound
    exact absurd hakey (hkey a ha)
  | inr hnot =>
    rw [hnot.2] at hrun
    obtain ⟨⟨node₁, h₁, man₂⟩, halloc, hrest⟩ := Run.bind_eq_done hrun
    obtain ⟨⟨h₂, man₃⟩, hins, hrest⟩ := Run.bind_eq_done hrest
    cases hrest
    obtain ⟨man₁, hrefill, -, -, hman₂⟩ := cddAllocNode_counts halloc
    obtain ⟨tbl, tbl', htbl, hinserted, hman₃, href⟩ := insertNode_counts hins
    have hsub : man₁.subtables level = some tbl := by rw [← htbl, hman₂]
    refine ⟨h₁, man₁, tbl, tbl', ?_, hsub, hinserted, ?_, ?_, ?_, ?_, ?_⟩
    · rw [hopen]
      exact hrefill
    · rw [hman₃]
      exact Function.update_self _ _ _
    · rw [hman₃, hman₂]
    · rw [hman₃, hman₂]
    · rw [hman₃, hman₂]
    · rw [href]
      exact Function.update_self _ _ _

/-! ### Calls -/

/-- The subtable of the level. -/
theorem openSubtable_subtables (man : NodeManager) (level : ℕ) :
    (openSubtable man level).2.subtables level = some (openSubtable man level).1 := by
  unfold openSubtable
  cases htbl : man.subtables level with
  | none => exact Function.update_self _ _ _
  | some tbl => exact htbl

theorem NodeManager.Calm.openSubtable (hc : man.Calm c) (level : ℕ) :
    (NodeTable.openSubtable man level).2.Calm c := by
  unfold NodeTable.openSubtable
  cases man.subtables level with
  | none => exact ⟨hc.deadcnt, hc.nonneg, hc.le⟩
  | some tbl => exact hc

/-- A call that finds its node leaves everything as it is. -/
theorem Kernel.Ok.make_found (hok : k.Ok E n) (hn : n < E.fuel) (hman : k.managers i = some man)
    (htbl : man.subtables level = some tbl) (hlevel : level < k.levelcnt)
    (hS : SearchOk E (keyWords i) man.hashfunc S) (hold : k.Holds i level a)
    (hkey : k.heap.key a = S.key) : ∃ b, k.make E i level S = .done (b, k) := by
  obtain ⟨F, chain, hfree, hs⟩ := hok.manager i man hman
  obtain ⟨tbl₁, subtables, chain₁, hopen, -, -, -, -, -, -, hcases⟩ :=
    makeNode_cases hfree hs hlevel hS hn
  have hsub : man = { man with subtables } := by
    have hsame : openSubtable man level = (tbl, man) := by simp only [openSubtable, htbl]
    rw [hsame] at hopen
    exact congrArg Prod.snd hopen
  cases hcases with
  | inl hfound =>
    obtain ⟨b, -, -, hrun⟩ := hfound
    rw [← hsub] at hrun
    refine ⟨b, ?_⟩
    simp only [Kernel.make_eq hman hlevel, hrun, Run.done_bind, Kernel.put, Run.pure_eq]
    rw [← hman, Function.update_eq_self]
  | inr hnot => exact absurd hkey (hnot.1 a ((hs.holds_iff hman).mp hold))

/-- A call with a new key in a calm manager. -/
theorem Kernel.Ok.make_calm (hok : k.Ok E n) (hn : n < E.fuel) (hman : k.managers i = some man)
    (hlevel : level < k.levelcnt) (hS : SearchOk E (keyWords i) man.hashfunc S)
    (hnew : k.IsNew i level S.key) (hc : man.Calm c) (hle : c + 65520 ≤ 10 ^ 8)
    (hrun : k.make E i level S = .done (a, k')) :
    k'.levelcnt = k.levelcnt ∧ k'.maxcddsize = k.maxcddsize ∧
      ∃ man' tbl', k'.managers i = some man' ∧ man'.Calm (c + 65520) ∧
        man'.subtables level = some tbl' ∧ (openSubtable man level).1.Inserted tbl' := by
  obtain ⟨F, chain, hfree, hs⟩ := hok.manager i man hman
  rw [Kernel.make_eq hman hlevel] at hrun
  obtain ⟨⟨node, h', man'⟩, hmake, hrest⟩ := Run.bind_eq_done hrun
  cases hrest
  obtain ⟨h₁, man₁, tbl₁, tbl', hrefill, htbl₁, hinserted, htbl', hdead, halloc, -, -⟩ :=
    makeNode_counts hfree hs hlevel hS hn
      (fun b hb ↦ hnew b ((hs.holds_iff hman).mpr hb)) hmake
  have hsize : (openSubtable man level).2.nodesize = nodeBytes i := by
    unfold openSubtable
    cases man.subtables level <;> exact hfree.nodesize
  have hb : Fits (openSubtable man level).2.nodesize :=
    hsize ▸ fits_nodeBytes (hok.fits i man hman)
  obtain ⟨hcalm, hsub, -⟩ := (hc.openSubtable level).refill hle hb hrefill
  rw [hsub, openSubtable_subtables, Option.some.injEq] at htbl₁
  refine ⟨rfl, rfl, man', tbl', Kernel.put_self _, ⟨?_, ?_, ?_⟩, htbl', htbl₁ ▸ hinserted⟩
  · exact hdead.trans hcalm.deadcnt
  · exact halloc ▸ hcalm.nonneg
  · exact halloc ▸ hcalm.le

/-- The counters after a sweep that visits the subtable. -/
theorem Kernel.Ok.sweep_counts (hok : k.Ok E n) (hn : n < E.fuel) (hman : k.managers i = some man)
    (htbl : man.subtables level = some tbl) (hdead : tbl.deadcnt ≠ 0)
    (hrun : cddGbcNodemanager E k.levelcnt k.heap man = .done (h', man')) :
    man'.deadcnt = 0 ∧ man'.alloccnt = man.alloccnt ∧
      ∃ tbl', man'.subtables level = some tbl' ∧ tbl'.keys = int32 (tbl.keys - tbl.deadcnt) ∧
        tbl'.deadcnt = 0 ∧ tbl'.buckets = tbl.buckets ∧ tbl'.maxkeys = tbl.maxkeys := by
  obtain ⟨F, chain, hfree, hs⟩ := hok.manager i man hman
  obtain ⟨h₁, man₁, F', chain', hrun', -, -, hswept⟩ := cddGbcNodemanager_spec hfree hs hn
  rw [hrun] at hrun'
  cases hrun'
  obtain ⟨hash, hsub⟩ := hswept.subtables_eq
  have hmem : level ∈ List.range k.levelcnt := List.mem_range.mpr (hs.level_lt level tbl htbl)
  have halloc : man₁.alloccnt = man.alloccnt := by rw [hswept.man_eq]
  refine ⟨rfl, halloc, { tbl with
    hash := hash level
    keys := int32 (tbl.keys - tbl.deadcnt)
    deadcnt := 0 }, ?_, rfl, rfl, rfl, rfl⟩
  show man₁.subtables level = _
  rw [hsub, htbl, Option.map_some, if_pos ⟨hmem, hdead⟩]

end

end NodeTable

end UCDD

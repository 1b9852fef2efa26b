import UCDD.Kernel.Insertion

/-!
# Making a node

The part that `cdd_make_bdd_node` and `cdd_make_cdd_node` of `kernel.c:613–768` share. A key that is
in the subtable is found. Another one gets a new node, and with the node that the allocation brings
and with fewer than `2 ^ 30` buckets before a rehash, the tables are as good as before.
-/

namespace UCDD

namespace NodeTable

open HashChain Loop Links Counter

/-- The nodes in the subtable of the level. -/
def InChain (man : NodeManager) (chain : ℕ → ℕ → List ℤ) (i : ℕ) (a : ℤ) : Prop :=
  ∃ tbl, man.subtables i = some tbl ∧ ∃ j < tbl.size, a ∈ chain i j

/-- The allocation in this state collects the node. -/
def Collected (ref : ℤ → ℕ) (man : NodeManager) (i : ℕ) (a : ℤ) : Prop :=
  man.free = 0 ∧ man.Collects ∧ visited man i = true ∧ ref a = 0

/-- The allocation in this state sweeps the subtable. -/
def SweptBy (man : NodeManager) (tbl : SubTable) : Prop :=
  man.free = 0 ∧ man.Collects ∧ tbl.deadcnt ≠ 0

instance (man : NodeManager) (tbl : SubTable) : Decidable (SweptBy man tbl) :=
  inferInstanceAs (Decidable (_ ∧ _))

/-- `tbl->keys` when the new node is put in. -/
def keysThen (man : NodeManager) (tbl : SubTable) : ℤ :=
  if SweptBy man tbl then int32 (tbl.keys - tbl.deadcnt) else tbl.keys

/-- The heap when the children have got their references. -/
def refChildren (h : Heap) (S : Search) : Heap := { h with ref := S.children.foldl cddRef h.ref }

section

variable {E : Env} {bytes s a node : ℤ} {words levelcnt level n i j : ℕ} {h h' : Heap}
  {man man' : NodeManager} {tbl : SubTable} {F F' : List ℤ} {chain chain' : ℕ → ℕ → List ℤ}
  {c : ℕ → List ℤ} {S : Search} {hashfunc : List ℤ → ℕ}

/-! ### The subtable -/

/-- A new subtable is empty. -/
theorem tableOk_cddAllocSubtable :
    TableOk hashfunc man.sentinel level n h (cddAllocSubtable man) fun _ ↦ [] where
  two_le := show 2 ≤ 24 by decide
  le := show 24 ≤ 24 from le_rfl
  buckets := rfl
  maxkeys := show 256 * HASH_DENSITY = int32 (HASH_DENSITY * 256) by decide
  segment _ _ := rfl
  decreasing _ _ := List.Pairwise.nil
  placed _ _ _ ha := (List.not_mem_nil ha).elim
  level _ _ _ ha := (List.not_mem_nil ha).elim
  length _ _ := Nat.zero_le n

theorem openSubtable_spec (hfree : FreeOk bytes h man F)
    (hs : StoredOk bytes words levelcnt n h man F chain) (hlevel : level < levelcnt) :
    ∃ tbl subtables chain', openSubtable man level = (tbl, { man with subtables }) ∧
      subtables level = some tbl ∧ FreeOk bytes h { man with subtables } F ∧
      StoredOk bytes words levelcnt n h { man with subtables } F chain' ∧
      (∀ i tbl₂, man.subtables i = some tbl₂ → subtables i = some tbl₂) ∧
      ∀ i a, InChain { man with subtables } chain' i a ↔ InChain man chain i a := by
  cases htbl : man.subtables level with
  | some tbl =>
    refine ⟨tbl, man.subtables, chain, ?_, htbl, hfree, hs, fun _ _ h ↦ h, fun i a ↦ Iff.rfl⟩
    simp only [openSubtable, htbl]
  | none =>
    set tbl := cddAllocSubtable man with hdef
    set subtables := Function.update man.subtables level (some tbl) with hsub
    have hself : subtables level = some tbl := Function.update_self _ _ _
    have hother {i : ℕ} (hi : i ≠ level) : subtables i = man.subtables i :=
      Function.update_of_ne hi _ _
    have hcases {i : ℕ} {tbl₂ : SubTable} (hi : subtables i = some tbl₂) :
        (i = level ∧ tbl₂ = tbl) ∨ (i ≠ level ∧ man.subtables i = some tbl₂) := by
      by_cases heq : i = level
      · subst heq
        rw [hself, Option.some.injEq] at hi
        exact Or.inl ⟨rfl, hi.symm⟩
      · exact Or.inr ⟨heq, hother heq ▸ hi⟩
    set chain' := Function.update chain level fun _ ↦ [] with hchain'
    have hnil : chain' level = fun _ ↦ [] := Function.update_self _ _ _
    have hsame {i : ℕ} (hi : i ≠ level) : chain' i = chain i := Function.update_of_ne hi _ _
    refine ⟨tbl, subtables, chain', ?_, hself, ?_, ?_, ?_, ?_⟩
    · simp only [openSubtable, htbl]
      rfl
    · exact hfree.congr rfl rfl rfl fun _ _ ↦ rfl
    · refine ⟨hs.hash_lt, hs.sentinel, hs.sentinel_free, hs.zero, ?_, ?_, ?_, ?_⟩
      · intro i tbl₂ hi
        cases hcases hi with
        | inl heq => exact heq.1 ▸ hlevel
        | inr hne => exact hs.level_lt i tbl₂ hne.2
      · intro i tbl₂ hi
        cases hcases hi with
        | inl heq =>
          rw [heq.1, heq.2, hnil]
          exact tableOk_cddAllocSubtable
        | inr hne =>
          rw [hsame hne.1]
          exact hs.table i tbl₂ hne.2
      · intro i tbl₂ hi j hj a ha
        cases hcases hi with
        | inl heq =>
          rw [heq.1, hnil] at ha
          exact (List.not_mem_nil ha).elim
        | inr hne =>
          rw [hsame hne.1] at ha
          exact hs.slot i tbl₂ hne.2 j hj a ha
      · intro i tbl₂ hi j hj a ha
        cases hcases hi with
        | inl heq =>
          rw [heq.1, hnil] at ha
          exact (List.not_mem_nil ha).elim
        | inr hne =>
          rw [hsame hne.1] at ha
          exact hs.words i tbl₂ hne.2 j hj a ha
    · intro i tbl₂ htbl₂
      have hi : i ≠ level := by
        intro heq
        rw [heq, htbl] at htbl₂
        cases htbl₂
      rw [hother hi, htbl₂]
    · intro i a
      by_cases hi : i = level
      · subst hi
        constructor
        · intro ha
          obtain ⟨tbl₂, -, j, -, ha⟩ := ha
          rw [hnil] at ha
          exact (List.not_mem_nil ha).elim
        · intro ha
          obtain ⟨tbl₂, htbl₂, -⟩ := ha
          rw [htbl] at htbl₂
          cases htbl₂
      · unfold InChain
        show (∃ tbl₂, subtables i = some tbl₂ ∧ _) ↔ _
        rw [hother hi, hsame hi]

/-! ### The lookup -/

/-- The bucket of a key is in range. -/
theorem TableOk.bucket_lt (ht : TableOk hashfunc s level n h tbl c) {key : List ℤ}
    (hlt : hashfunc key < 2 ^ 32) : hashfunc key / 2 ^ tbl.shift < tbl.size := by
  have hle := ht.le
  have hpow : 2 ^ tbl.shift * tbl.size = 2 ^ 32 := by
    rw [SubTable.size, ← pow_add]
    congr 1
    omega
  rw [← hpow] at hlt
  exact Nat.div_lt_of_lt_mul hlt

/-- The search ends, and it ends at the node with the key if there is one in the subtable. -/
theorem findNode_spec (hs : StoredOk bytes words levelcnt n h man F chain)
    (htbl : man.subtables level = some tbl) (hS : SearchOk E words man.hashfunc S)
    (hn : n < E.fuel) :
    S.hash / 2 ^ tbl.shift < tbl.size ∧
      findNode tbl S h = .done (position h (chain level) (S.hash / 2 ^ tbl.shift) S.key) ∧
      ∃ node, (Links.mk tbl.hash h.next).get
          (position h (chain level) (S.hash / 2 ^ tbl.shift) S.key) = node ∧
        (h.key node = S.key → node ∈ chain level (S.hash / 2 ^ tbl.shift)) ∧
        ∀ a, InChain man chain level a → h.key a = S.key → a = node := by
  have ht := hs.table level tbl htbl
  set j := S.hash / 2 ^ tbl.shift with hjdef
  have hj : j < tbl.size := by
    rw [hjdef, hS.hash]
    exact ht.bucket_lt (hs.hash_lt _)
  have hfind := ht.find_eq hS hj hs.zero (hs.words level tbl htbl j hj) hn
  set f : ℤ → Bool := fun a ↦ decide (S.key < h.key a) with hf
  have hfkey : ∀ a ∈ chain level j, f a = true ↔ S.key < h.key a := fun a _ ↦ by
    rw [hf, decide_eq_true_eq]
  have hseg := ht.segment j hj
  rw [← List.takeWhile_append_dropWhile (p := f) (l := chain level j)] at hseg
  obtain ⟨z, htake, hdrop⟩ := segment_append.mp hseg
  have hget : (Links.mk tbl.hash h.next).get (position h (chain level) j S.key) = z :=
    get_outlet htake
  refine ⟨hj, hfind, z, hget, ?_, ?_⟩
  · intro hkey
    cases hd : (chain level j).dropWhile f with
    | nil =>
      rw [hd] at hdrop
      have hz : z = man.sentinel := hdrop
      rw [hz, hs.zero] at hkey
      exact absurd hkey hS.pos.ne
    | cons b l =>
      rw [hd] at hdrop
      have hb : z = b := hdrop.1
      rw [hb]
      exact List.dropWhile_subset _ (hd ▸ List.mem_cons_self)
  · intro a ha hkey
    obtain ⟨tbl₂, htbl₂, k, hk, ha⟩ := ha
    rw [htbl] at htbl₂
    cases htbl₂
    have hjk : k = j := by
      rw [← ht.placed k hk a ha, hkey, hjdef, hS.hash]
    rw [hjk] at ha
    obtain ⟨l, hl⟩ := (ht.decreasing j hj).dropWhile_eq hfkey ha hkey
    rw [hl] at hdrop
    exact hdrop.1.symm

/-! ### Both cases -/

/-- What making a new node does, besides keeping the invariants. -/
structure Made (E : Env) (bytes : ℤ) (level : ℕ) (S : Search) (h : Heap) (man : NodeManager)
    (chain : ℕ → ℕ → List ℤ) (node : ℤ) (h' : Heap) (man' : NodeManager)
    (chain' : ℕ → ℕ → List ℤ) : Prop where
  chunks : (man'.nodes = man.nodes ∧ h'.chunks = h.chunks) ∨
    (man'.nodes = E.os h.chunks :: man.nodes ∧ h'.chunks = h.chunks + 1)
  outside : ∀ a, ¬ IsSlot bytes man'.nodes a →
    h'.next a = h.next a ∧ h'.level a = h.level a ∧ h'.key a = h.key a
  key : h'.key = Function.update h.key node S.key
  hashfunc : man'.hashfunc = man.hashfunc
  stored : ∀ i a, InChain man' chain' i a ↔ (i = level ∧ a = node) ∨
    (InChain man chain i a ∧ ¬ Collected (refChildren h S).ref man i a)

/-- The chains after the allocation: a sweep has taken the dead nodes of the subtables in which
nodes have died. -/
theorem Refilled.inChain_iff (hr : Refilled E bytes h man chain h' man' chain') :
    InChain man' chain' i a ↔ InChain man chain i a ∧ ¬ Collected h.ref man i a := by
  unfold InChain
  cases hr.tables with
  | inl hsame =>
    obtain ⟨-, hnot, hsub, hchain⟩ := hsame
    have hsw : ¬ Collected h.ref man i a := fun hsw ↦ hnot ⟨hsw.1, hsw.2.1⟩
    rw [hsub, hchain]
    simp [hsw]
  | inr hswept =>
    obtain ⟨-, ⟨hzero, hcol⟩, hchain, hash, hsub⟩ := hswept
    have hiff : Collected h.ref man i a ↔ visited man i = true ∧ h.ref a = 0 :=
      ⟨fun hsw ↦ hsw.2.2, fun hsw ↦ ⟨hzero, hcol, hsw⟩⟩
    have hmem (j : ℕ) : a ∈ chain' i j ↔ a ∈ chain i j ∧ ¬ Collected h.ref man i a := by
      rw [hchain, hiff]
      by_cases hv : visited man i = true
      · rw [if_pos hv, List.mem_filter]
        simp [dead, hv]
      · rw [if_neg hv]
        simp [hv]
    have hsize (tbl : SubTable) : (if tbl.deadcnt ≠ 0 then { tbl with
        hash := hash i
        keys := int32 (tbl.keys - tbl.deadcnt)
        deadcnt := 0 } else tbl : SubTable).size = tbl.size := by
      by_cases hdead : tbl.deadcnt = 0
      · simp [hdead]
      · simp only [hdead, ne_eq, not_false_iff, if_true]
        rfl
    rw [hsub i]
    cases man.subtables i with
    | none => simp
    | some tbl =>
      constructor
      · intro hex
        obtain ⟨tbl₂, htbl₂, j, hj, ha⟩ := hex
        cases htbl₂
        rw [hsize] at hj
        obtain ⟨hold, hnot⟩ := (hmem j).mp ha
        exact ⟨⟨tbl, rfl, j, hj, hold⟩, hnot⟩
      · intro hex
        obtain ⟨⟨tbl₂, htbl₂, j, hj, ha⟩, hnot⟩ := hex
        cases htbl₂
        exact ⟨_, rfl, j, (hsize tbl).symm ▸ hj, (hmem j).mpr ⟨ha, hnot⟩⟩

/-- The subtable after the allocation. -/
theorem Refilled.subtable (hr : Refilled E bytes h man chain h' man' chain')
    (htbl : man.subtables level = some tbl) :
    ∃ tbl', man'.subtables level = some tbl' ∧ tbl'.shift = tbl.shift ∧
      tbl'.buckets = tbl.buckets ∧ tbl'.maxkeys = tbl.maxkeys ∧ tbl'.keys = keysThen man tbl := by
  cases hr.tables with
  | inl hsame =>
    obtain ⟨-, hnot, hsub, -⟩ := hsame
    refine ⟨tbl, by rw [hsub, htbl], rfl, rfl, rfl, ?_⟩
    rw [keysThen, if_neg fun hsw ↦ hnot ⟨hsw.1, hsw.2.1⟩]
  | inr hswept =>
    obtain ⟨-, ⟨hzero, hcol⟩, -, hash, hsub⟩ := hswept
    refine ⟨_, by rw [hsub, htbl]; rfl, ?_⟩
    by_cases hdead : tbl.deadcnt = 0
    · rw [keysThen, if_neg fun hsw : SweptBy man tbl ↦ hsw.2.2 hdead]
      simp [hdead]
    · rw [keysThen, if_pos ⟨hzero, hcol, hdead⟩]
      simp [hdead]

/-- When the cursor is still good: no garbage collection has occurred. -/
theorem Refilled.position_eq (hr : Refilled E bytes h man chain h' man' chain')
    (hcnt : h.gbccnt = h'.gbccnt) (key : List ℤ) :
    position h (chain level) j key = position h' (chain' level) j key := by
  cases hr.tables with
  | inl hsame =>
    obtain ⟨-, -, -, hchain⟩ := hsame
    rw [position, position, hchain, hr.key]
  | inr hswept => exact absurd hcnt.symm hswept.1

/-- What `cdd_make_bdd_node` and `cdd_make_cdd_node` do: they find the node with the key, or they go
on to a new one. -/
theorem makeNode_cases (hfree : FreeOk bytes h man F)
    (hs : StoredOk bytes words levelcnt n h man F chain) (hlevel : level < levelcnt)
    (hS : SearchOk E words man.hashfunc S) (hn : n < E.fuel) :
    ∃ tbl subtables chain₁, openSubtable man level = (tbl, { man with subtables }) ∧
      subtables level = some tbl ∧ FreeOk bytes h { man with subtables } F ∧
      StoredOk bytes words levelcnt n h { man with subtables } F chain₁ ∧
      (∀ i tbl₂, man.subtables i = some tbl₂ → subtables i = some tbl₂) ∧
      (∀ i a, InChain { man with subtables } chain₁ i a ↔ InChain man chain i a) ∧
      S.hash / 2 ^ tbl.shift < tbl.size ∧
      ((∃ a, InChain man chain level a ∧ h.key a = S.key ∧
          makeNode E levelcnt level S h man = .done (a, h, { man with subtables })) ∨
        ((∀ a, InChain man chain level a → h.key a ≠ S.key) ∧
          makeNode E levelcnt level S h man = (do
            let (node, h', man') ←
              cddAllocNode E levelcnt (refChildren h S) { man with subtables }
            let (h', man') ← insertNode E level S (S.hash / 2 ^ tbl.shift)
              (position h (chain₁ level) (S.hash / 2 ^ tbl.shift) S.key) h.gbccnt node h' man'
            return (node, h', man')))) := by
  obtain ⟨tbl, subtables, chain₁, hopen, htbl, hfree₁, hs₁, hsub, hin⟩ :=
    openSubtable_spec hfree hs hlevel
  obtain ⟨hj, hfind, node, hget, hmem, hall⟩ :=
    findNode_spec hs₁ htbl hS hn
  refine ⟨tbl, subtables, chain₁, hopen, htbl, hfree₁, hs₁, hsub, hin, hj, ?_⟩
  have hnode : makeNode E levelcnt level S h man =
      if h.key node = S.key then .done (node, h, { man with subtables }) else (do
        let (node, h', man') ← cddAllocNode E levelcnt (refChildren h S) { man with subtables }
        let (h', man') ← insertNode E level S (S.hash / 2 ^ tbl.shift)
          (position h (chain₁ level) (S.hash / 2 ^ tbl.shift) S.key) h.gbccnt node h' man'
        return (node, h', man')) := by
    simp only [makeNode, hopen, hfind, Run.done_bind, hget]
    rfl
  by_cases hkey : h.key node = S.key
  · left
    refine ⟨node, (hin level node).mp ⟨tbl, htbl, _, hj, hmem hkey⟩, hkey, ?_⟩
    rw [hnode, if_pos hkey]
  · right
    refine ⟨fun a ha hakey ↦ ?_, ?_⟩
    · have heq := hall a ((hin level a).mpr ha) hakey
      exact hkey (heq ▸ hakey)
    · rw [hnode, if_neg hkey]

/-- The state between the allocation of a new node and its insertion at the cursor `p` of bucket
`j`. -/
structure Ready (E : Env) (bytes : ℤ) (words levelcnt level n : ℕ) (S : Search) (h : Heap)
    (man : NodeManager) (chain : ℕ → ℕ → List ℤ) (j : ℕ) (p : Cursor ℕ ℤ) (node : ℤ) (h' : Heap)
    (man' : NodeManager) (tbl : SubTable) (F : List ℤ) (chain' : ℕ → ℕ → List ℤ) : Prop where
  free : FreeOk bytes h' man' F
  stored : StoredOk bytes words levelcnt n h' man' F chain'
  node : NewNode bytes man' F chain' node
  hashfunc : man'.hashfunc = man.hashfunc
  subtable : man'.subtables level = some tbl
  bucket : S.hash / 2 ^ tbl.shift = j
  lt : j < tbl.size
  cursor : h.gbccnt = h'.gbccnt → p = position h' (chain' level) j S.key
  chunks : (man'.nodes = man.nodes ∧ h'.chunks = h.chunks) ∨
    (man'.nodes = E.os h.chunks :: man.nodes ∧ h'.chunks = h.chunks + 1)
  next_eq : ∀ a, ¬ IsSlot bytes man'.nodes a → h'.next a = h.next a
  level_eq : h'.level = h.level
  key_eq : h'.key = h.key
  inChain_iff : ∀ i a, InChain man' chain' i a ↔
    InChain man chain i a ∧ ¬ Collected (refChildren h S).ref man i a
  overflows_iff : Overflows tbl tbl.keys ↔ Overflows (openSubtable man level).1
    (keysThen (openSubtable man level).2 (openSubtable man level).1)

/-- A new key leads to an insertion. -/
theorem makeNode_ready (hE : E.Valid) (hfuel : 4096 ≤ E.fuel) (hn : n < E.fuel) (hb : Fits bytes)
    (hfree : FreeOk bytes h man F) (hs : StoredOk bytes words levelcnt n h man F chain)
    (hnew : E.os h.chunks ∉ man.nodes) (hlevel : level < levelcnt)
    (hS : SearchOk E words man.hashfunc S)
    (hkey : ∀ a, InChain man chain level a → h.key a ≠ S.key)
    (hrefill : Refills levelcnt bytes (refChildren h S) (openSubtable man level).2) :
    ∃ j p node h' man' tbl F' chain',
      makeNode E levelcnt level S h man = (do
        let (h', man') ← insertNode E level S j p h.gbccnt node h' man'
        return (node, h', man')) ∧
      Ready E bytes words levelcnt level n S h man chain j p node h' man' tbl F' chain' := by
  obtain ⟨tbl, subtables, chain₁, hopen, htbl, hfree₁, hs₁, hsub, hin, hj, hcases⟩ :=
    makeNode_cases hfree hs hlevel hS hn
  rw [hopen] at hrefill
  set man₁ : NodeManager := { man with subtables } with hman₁
  have hfree₂ : FreeOk bytes (refChildren h S) man₁ F := hfree₁.congr rfl rfl rfl fun _ _ ↦ rfl
  have hs₂ : StoredOk bytes words levelcnt n (refChildren h S) man₁ F chain₁ :=
    hs₁.congr rfl rfl rfl (fun _ h ↦ h) (fun _ _ h ↦ h) (fun _ _ _ ↦ rfl) (fun _ _ ↦ rfl)
      (fun _ _ ↦ rfl) le_rfl le_rfl
  obtain ⟨node, h', man', F', chain', halloc, hfree', hs', hre, hnode⟩ :=
    cddAllocNode_spec hE hfuel hn hb hfree₂ hs₂ hnew hrefill
  obtain ⟨tbl', htbl', hshift, hbuckets, hmaxkeys, hkeys⟩ := hre.subtable htbl
  refine ⟨S.hash / 2 ^ tbl.shift, position h (chain₁ level) (S.hash / 2 ^ tbl.shift) S.key, node,
    h', man', tbl', F', chain', ?_, ?_⟩
  · cases hcases with
    | inl hfound =>
      obtain ⟨a, ha, hakey, -⟩ := hfound
      exact absurd hakey (hkey a ha)
    | inr hnot =>
      rw [hnot.2, halloc]
      rfl
  · refine ⟨hfree', hs', hnode, hre.hashfunc, htbl', by rw [hshift], ?_,
      fun hcnt ↦ hre.position_eq hcnt S.key, hre.chunks, hre.next, hre.level, hre.key, ?_, ?_⟩
    · rw [SubTable.size, hshift]
      exact hj
    · intro i a
      rw [hre.inChain_iff, hin]
      constructor
      · intro hold
        refine ⟨hold.1, fun hcol ↦ hold.2 ?_⟩
        obtain ⟨tbl₃, htbl₃, hdead⟩ := visited_iff.mp hcol.2.2.1
        exact ⟨hcol.1, hcol.2.1, visited_iff.mpr ⟨tbl₃, hsub i tbl₃ htbl₃, hdead⟩, hcol.2.2.2⟩
      · intro hold
        refine ⟨hold.1, fun hcol ↦ hold.2 ?_⟩
        obtain ⟨tbl₃, htbl₃, -⟩ := hold.1
        obtain ⟨tbl₄, htbl₄, hdead⟩ := visited_iff.mp hcol.2.2.1
        have heq : tbl₄ = tbl₃ := Option.some.inj (htbl₄.symm.trans (hsub i tbl₃ htbl₃))
        exact ⟨hcol.1, hcol.2.1, visited_iff.mpr ⟨tbl₃, htbl₃, heq ▸ hdead⟩, hcol.2.2.2⟩
    · rw [hopen, Overflows, Overflows, hkeys, hmaxkeys, hbuckets]

/-- A new node, where the allocation brings one and the subtable can grow. -/
theorem makeNode_new (hE : E.Valid) (hfuel : 4096 ≤ E.fuel) (hn : n + 1 < E.fuel) (hb : Fits bytes)
    (hfree : FreeOk bytes h man F) (hs : StoredOk bytes words levelcnt n h man F chain)
    (hnew : E.os h.chunks ∉ man.nodes) (hlevel : level < levelcnt)
    (hS : SearchOk E words man.hashfunc S)
    (hkey : ∀ a, InChain man chain level a → h.key a ≠ S.key)
    (hrefill : Refills levelcnt bytes (refChildren h S) (openSubtable man level).2)
    (hgrow : ¬ Overflows (openSubtable man level).1
      (keysThen (openSubtable man level).2 (openSubtable man level).1)) :
    ∃ node h' man' F' chain', makeNode E levelcnt level S h man = .done (node, h', man') ∧
      FreeOk bytes h' man' F' ∧ StoredOk bytes words levelcnt (n + 1) h' man' F' chain' ∧
      Made E bytes level S h man chain node h' man' chain' := by
  obtain ⟨j, p, node, h₁, man₁, tbl, F', chain₁, hrun, hr⟩ :=
    makeNode_ready hE hfuel (by omega) hb hfree hs hnew hlevel hS hkey hrefill
  obtain ⟨h', tbl', c, hins, hfree', hs', hp⟩ := insertNode_spec (E := E) h.gbccnt p hr.free
    hr.stored hr.subtable hr.node (hr.hashfunc.symm ▸ hS) hr.bucket hr.lt
    (fun a ha ↦ by
      rw [hr.key_eq]
      exact hkey a ((hr.inChain_iff level a).mp ⟨tbl, hr.subtable, j, hr.lt, ha⟩).1)
    hr.cursor (fun hover ↦ hgrow (hr.overflows_iff.mp hover)) hn
  set man' : NodeManager :=
    { man₁ with subtables := Function.update man₁.subtables level (some tbl') } with hman'
  refine ⟨node, h', man', F', _, ?_, hfree', hs', ?_⟩
  · rw [hrun, hins]
    rfl
  · refine ⟨?_, ?_, ?_, hr.hashfunc, ?_⟩
    · rw [hp.chunks]
      exact hr.chunks
    · intro a ha
      have hne : a ≠ node := fun heq ↦ ha (heq ▸ hr.node.slot)
      refine ⟨?_, ?_, ?_⟩
      · rw [hp.next a hne fun k hk hmem ↦ ha (hr.stored.slot level tbl hr.subtable k hk a hmem).1]
        exact hr.next_eq a ha
      · rw [hp.level_eq, Function.update_of_ne hne, hr.level_eq]
      · rw [hp.key_eq, Function.update_of_ne hne, hr.key_eq]
    · rw [hp.key_eq, hr.key_eq]
    · intro i a
      by_cases hi : i = level
      · subst hi
        have hself : man'.subtables i = some tbl' := Function.update_self _ _ _
        have hchain : InChain man' (Function.update chain₁ i c) i a ↔
            a = node ∨ InChain man₁ chain₁ i a := by
          unfold InChain
          rw [hself, hr.subtable, Function.update_self]
          simpa using hp.stored a
        rw [hchain, hr.inChain_iff]
        simp
      · have hother : man'.subtables i = man₁.subtables i := Function.update_of_ne hi _ _
        have hchain : InChain man' (Function.update chain₁ level c) i a ↔
            InChain man₁ chain₁ i a := by
          unfold InChain
          rw [hother, Function.update_of_ne hi]
        rw [hchain, hr.inChain_iff]
        simp [hi]

/-- The number of buckets wraps around. -/
theorem makeNode_failed (hE : E.Valid) (hfuel : 4096 ≤ E.fuel) (hn : n < E.fuel) (hb : Fits bytes)
    (hfree : FreeOk bytes h man F) (hs : StoredOk bytes words levelcnt n h man F chain)
    (hnew : E.os h.chunks ∉ man.nodes) (hlevel : level < levelcnt)
    (hS : SearchOk E words man.hashfunc S)
    (hkey : ∀ a, InChain man chain level a → h.key a ≠ S.key)
    (hrefill : Refills levelcnt bytes (refChildren h S) (openSubtable man level).2)
    (hover : Overflows (openSubtable man level).1
      (keysThen (openSubtable man level).2 (openSubtable man level).1)) :
    makeNode E levelcnt level S h man = .failed := by
  obtain ⟨j, p, node, h₁, man₁, tbl, F', chain₁, hrun, hr⟩ :=
    makeNode_ready hE hfuel hn hb hfree hs hnew hlevel hS hkey hrefill
  rw [hrun, insertNode_failed h.gbccnt p hr.stored hr.subtable (hr.hashfunc.symm ▸ hS) hr.lt
    hr.cursor (hr.overflows_iff.mpr hover) hn]
  rfl

end

end NodeTable

end UCDD

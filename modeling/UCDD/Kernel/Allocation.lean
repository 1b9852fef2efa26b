import UCDD.Kernel.Tables

/-!
# Allocating a node

`cdd_alloc_node` of `kernel.c:584–611`. With a node on the free list it takes that one. With none it
collects or takes a new chunk, which gives it a node just when the sweep meets a dead node, or when
the chunk has room for one.
-/

namespace UCDD

namespace NodeTable

open HashChain Loop Links Counter

/-- A node in a chain of the subtable. -/
def Stored (h : Heap) (s : ℤ) (tbl : SubTable) (a : ℤ) : Prop :=
  ∃ j < tbl.size, ∃ l, Segment h.next s (tbl.hash j) l ∧ s ∉ l ∧ a ∈ l

/-- The refill step leaves a node on the free list: there is one already, or it collects and a
subtable in which nodes have died holds a node without references, or it takes a chunk and this has
room for a node. -/
def Refills (levelcnt : ℕ) (bytes : ℤ) (h : Heap) (man : NodeManager) : Prop :=
  man.free ≠ 0 ∨
    if man.Collects then
      ∃ i < levelcnt, ∃ tbl, man.subtables i = some tbl ∧ tbl.deadcnt ≠ 0 ∧
        ∃ a, Stored h man.sentinel tbl a ∧ h.ref a = 0
    else bytes ≤ CHUNKSIZE - SIZEOF_CHUNK

section

variable {E : Env} {bytes s a node : ℤ} {words levelcnt levelcnt' level n n' i j : ℕ} {h h' : Heap}
  {man man' : NodeManager} {tbl : SubTable} {F F' : List ℤ} {chain chain' : ℕ → ℕ → List ℤ}

theorem FreeOk.congr (hfree : FreeOk bytes h man F) (hsize : man'.nodesize = man.nodesize)
    (hnodes : man'.nodes = man.nodes) (hhead : man'.free = man.free)
    (hnext : ∀ a, IsSlot bytes man.nodes a → h'.next a = h.next a) : FreeOk bytes h' man' F where
  nodesize := hsize.trans hfree.nodesize
  chunk := hnodes ▸ hfree.chunk
  segment := by
    rw [hhead]
    exact hfree.segment.congr fun a ha ↦ hnext a (hfree.slot a ha)
  nodup := hfree.nodup
  slot := hnodes ▸ hfree.slot

/-- What a manager needs of the heap is in the slots of its chunks. -/
theorem StoredOk.congr (hs : StoredOk bytes words levelcnt n h man F chain)
    (hsentinel : man'.sentinel = man.sentinel) (hhash : man'.hashfunc = man.hashfunc)
    (hsub : man'.subtables = man.subtables)
    (hslot : ∀ a, IsSlot bytes man.nodes a → IsSlot bytes man'.nodes a)
    (hF : ∀ a, IsSlot bytes man.nodes a → a ∈ F' → a ∈ F)
    (hnext : ∀ a, IsSlot bytes man.nodes a → a ∉ F → h'.next a = h.next a)
    (hkey : ∀ a, IsSlot bytes man.nodes a → h'.key a = h.key a)
    (hlevel : ∀ a, IsSlot bytes man.nodes a → h'.level a = h.level a)
    (hcnt : levelcnt ≤ levelcnt') (hn : n ≤ n') :
    StoredOk bytes words levelcnt' n' h' man' F' chain where
  hash_lt := hhash ▸ hs.hash_lt
  sentinel := by
    rw [hsentinel]
    exact hslot _ hs.sentinel
  sentinel_free := by
    rw [hsentinel]
    exact fun hmem ↦ hs.sentinel_free (hF _ hs.sentinel hmem)
  zero := by
    rw [hsentinel, hkey _ hs.sentinel]
    exact hs.zero
  level_lt i tbl hi := lt_of_lt_of_le (hs.level_lt i tbl (hsub ▸ hi)) hcnt
  table i tbl hi := by
    rw [hsub] at hi
    rw [hhash, hsentinel]
    have ht := hs.table i tbl hi
    have hslots := hs.slot i tbl hi
    have ht' : TableOk man.hashfunc man.sentinel i n h' tbl (chain i) := ht.congr
      (fun j hj a ha ↦ hnext a (hslots j hj a ha).1 (hslots j hj a ha).2.1)
      (fun j hj a ha ↦ hkey a (hslots j hj a ha).1)
      (fun j hj a ha ↦ hlevel a (hslots j hj a ha).1)
    exact { ht' with length := fun j hj ↦ le_trans (ht.length j hj) hn }
  slot i tbl hi j hj a ha := by
    rw [hsub] at hi
    rw [hsentinel]
    obtain ⟨hs1, hs2, hs3⟩ := hs.slot i tbl hi j hj a ha
    exact ⟨hslot a hs1, fun hmem ↦ hs2 (hF a hs1 hmem), hs3⟩
  words i tbl hi j hj a ha := by
    rw [hsub] at hi
    rw [hkey a (hs.slot i tbl hi j hj a ha).1]
    exact hs.words i tbl hi j hj a ha

/-- The stored nodes are those of the chains. -/
theorem StoredOk.stored_iff (hs : StoredOk bytes words levelcnt n h man F chain)
    (hi : man.subtables i = some tbl) :
    Stored h man.sentinel tbl a ↔ ∃ j < tbl.size, a ∈ chain i j := by
  have hnot (j : ℕ) (hj : j < tbl.size) : man.sentinel ∉ chain i j :=
    fun hmem ↦ (hs.slot i tbl hi j hj _ hmem).2.2 rfl
  constructor
  · intro ha
    obtain ⟨j, hj, l, hseg, hl, ha⟩ := ha
    have heq := hseg.unique ((hs.table i tbl hi).segment j hj) hl (hnot j hj)
    exact ⟨j, hj, heq ▸ ha⟩
  · intro ha
    obtain ⟨j, hj, ha⟩ := ha
    exact ⟨j, hj, chain i j, (hs.table i tbl hi).segment j hj, hnot j hj, ha⟩

theorem FreeOk.eq_nil_iff (hb : Fits bytes) (hfree : FreeOk bytes h man F) :
    man.free = 0 ↔ F = [] := by
  have hpos := hb.pos
  have hseg := hfree.segment
  cases F with
  | nil => exact ⟨fun _ ↦ rfl, fun _ ↦ hseg⟩
  | cons a F =>
    have ha := (hfree.slot a List.mem_cons_self).pos (by omega) hfree.chunk
    have heq := hseg.1
    constructor
    · intro h0
      omega
    · intro hnil
      cases hnil

/-- What the allocation of a node changes, besides the free list and the counters. -/
structure Refilled (E : Env) (bytes : ℤ) (h : Heap) (man : NodeManager)
    (chain : ℕ → ℕ → List ℤ) (h' : Heap) (man' : NodeManager) (chain' : ℕ → ℕ → List ℤ) :
    Prop where
  chunks : (man'.nodes = man.nodes ∧ h'.chunks = h.chunks) ∨
    (man'.nodes = E.os h.chunks :: man.nodes ∧ h'.chunks = h.chunks + 1)
  level : h'.level = h.level
  ref : h'.ref = h.ref
  key : h'.key = h.key
  next : ∀ a, ¬ IsSlot bytes man'.nodes a → h'.next a = h.next a
  sentinel : man'.sentinel = man.sentinel
  hashfunc : man'.hashfunc = man.hashfunc
  tables : (h'.gbccnt = h.gbccnt ∧ ¬ (man.free = 0 ∧ man.Collects) ∧
      man'.subtables = man.subtables ∧ chain' = chain) ∨
    (h'.gbccnt ≠ h.gbccnt ∧ (man.free = 0 ∧ man.Collects) ∧
      (∀ i j, chain' i j = if visited man i = true then
        (chain i j).filter fun a ↦ !dead h.ref a else chain i j) ∧
      ∃ hash : ℕ → ℕ → ℤ, ∀ i, man'.subtables i = (man.subtables i).map fun tbl ↦
        if tbl.deadcnt ≠ 0 then
          { tbl with hash := hash i, keys := int32 (tbl.keys - tbl.deadcnt), deadcnt := 0 }
        else tbl)

theorem int32_succ_ne (z : ℤ) : int32 (z + 1) ≠ z := by
  unfold int32
  intro h
  have hmod : (z + 1) % ((2 ^ 32 : ℕ) : ℤ) = z % ((2 ^ 32 : ℕ) : ℤ) := by
    rw [← Int.bmod_emod, h]
  norm_num at hmod
  omega

/-- The step brings a node, or there is none to bring. -/
theorem refill_spec (hE : E.Valid) (hfuel : 4096 ≤ E.fuel) (hn : n < E.fuel) (hb : Fits bytes)
    (hfree : FreeOk bytes h man F) (hs : StoredOk bytes words levelcnt n h man F chain)
    (hnew : E.os h.chunks ∉ man.nodes) :
    ∃ h' man' F' chain', refill E levelcnt h man = .done (h', man') ∧
      FreeOk bytes h' man' F' ∧ StoredOk bytes words levelcnt n h' man' F' chain' ∧
      Refilled E bytes h man chain h' man' chain' ∧
      (man'.free ≠ 0 ↔ Refills levelcnt bytes h man) := by
  unfold refill
  by_cases hzero : man.free = 0
  · rw [if_pos hzero]
    have hF : F = [] := (hfree.eq_nil_iff hb).mp hzero
    by_cases hcol : man.Collects
    · -- the sweep
      rw [if_pos hcol]
      obtain ⟨h₁, man₁, F', chain', hrun, hfree', hs', hswept⟩ :=
        cddGbcNodemanager_spec hfree hs hn
      obtain ⟨hash, hsub⟩ := hswept.subtables_eq
      obtain ⟨D, hD, hmemD⟩ := hswept.free_eq
      have hlt (i : ℕ) (hi : visited man i = true) : i ∈ List.range levelcnt := by
        obtain ⟨tbl, htbl, -⟩ := visited_iff.mp hi
        exact List.mem_range.mpr (hs.level_lt i tbl htbl)
      refine ⟨_, _, F', chain', hrun, ?_, ?_, ?_, ?_⟩
      · exact hfree'.congr rfl rfl rfl fun a _ ↦ rfl
      · exact hs'.congr rfl rfl rfl (fun _ h ↦ h) (fun _ _ h ↦ h) (fun _ _ _ ↦ rfl)
          (fun _ _ ↦ rfl) (fun _ _ ↦ rfl) le_rfl le_rfl
      · have hman := hswept.man_eq
        have hheap := hswept.heap_eq
        refine ⟨Or.inl ⟨?_, ?_⟩, ?_, ?_, ?_, ?_, ?_, ?_, Or.inr ⟨?_, ⟨hzero, hcol⟩, ?_, hash, ?_⟩⟩
        · rw [hman]
        · rw [hheap]
        · rw [hheap]
        · rw [hheap]
        · rw [hheap]
        · intro a ha
          apply hswept.next_eq
          rwa [hman] at ha
        · rw [hman]
        · rw [hman]
        · exact int32_succ_ne h.gbccnt
        · intro i j
          rw [hswept.chain_eq]
          by_cases hi : visited man i = true
          · rw [if_pos ⟨hlt i hi, hi⟩, if_pos hi]
          · rw [if_neg fun hi' ↦ hi hi'.2, if_neg hi]
        · intro i
          show man₁.subtables i = _
          rw [hsub i]
          cases htbl : man.subtables i with
          | none => rfl
          | some tbl =>
            have hi := List.mem_range.mpr (hs.level_lt i tbl htbl)
            simp only [Option.map_some, hi, true_and]
      · show man₁.free ≠ 0 ↔ _
        have hne : man₁.free ≠ 0 ↔ D ≠ [] := by
          rw [Ne, hfree'.eq_nil_iff hb, hD, hF, List.append_nil]
        rw [hne, Refills, if_pos hcol]
        constructor
        · intro hD'
          obtain ⟨a, ha⟩ := List.exists_mem_of_ne_nil D hD'
          obtain ⟨i, hi, tbl, htbl, hdead, hj⟩ := (hmemD a).mp ha
          obtain ⟨j, hj, ha, hzero'⟩ := hj
          exact Or.inr ⟨i, List.mem_range.mp hi, tbl, htbl, hdead, a,
            (hs.stored_iff htbl).mpr ⟨j, hj, ha⟩, hzero'⟩
        · intro hor
          cases hor with
          | inl hne' => exact absurd hzero hne'
          | inr hex =>
            obtain ⟨i, hi, tbl, htbl, hdead, a, hst, hzero'⟩ := hex
            obtain ⟨j, hj, ha⟩ := (hs.stored_iff htbl).mp hst
            exact List.ne_nil_of_mem ((hmemD a).mpr
              ⟨i, List.mem_range.mpr hi, tbl, htbl, hdead, j, hj, ha, hzero'⟩)
    · -- a new chunk
      rw [if_neg hcol]
      obtain ⟨next', hrun, hseg, hother⟩ := cddAllocChunk_spec hE hfuel hb hfree hnew
      have hold (a : ℤ) (ha : IsSlot bytes man.nodes a) : a ∉ newSlots E h bytes := by
        intro hmem
        have hchunk := (isSlot_newSlots [] hE hb hmem).1
        exact hnew (hchunk ▸ ha.1)
      refine ⟨_, _, newSlots E h bytes ++ F, chain, hrun, ?_, ?_, ?_, ?_⟩
      · refine ⟨hfree.nodesize, ?_, hseg, ?_, ?_⟩
        · exact List.forall_mem_cons.mpr ⟨⟨hE.aligned _, hE.pos _⟩, hfree.chunk⟩
        · rw [hF, List.append_nil]
          exact newSlots_nodup hb
        · intro a ha
          rw [hF, List.append_nil] at ha
          exact (isSlot_newSlots _ hE hb ha).2
      · refine hs.congr rfl rfl rfl (fun a ha ↦ ha.mono _) ?_ ?_ (fun _ _ ↦ rfl) (fun _ _ ↦ rfl)
          le_rfl le_rfl
        · intro a ha hmem
          cases List.mem_append.mp hmem with
          | inl hmem => exact absurd hmem (hold a ha)
          | inr hmem => exact hmem
        · intro a ha _
          exact hother a (hold a ha)
      · refine ⟨Or.inr ⟨rfl, rfl⟩, rfl, rfl, rfl, ?_, rfl, rfl,
          Or.inl ⟨rfl, fun hsw ↦ hcol hsw.2, rfl, rfl⟩⟩
        intro a ha
        exact hother a fun hmem ↦ ha (isSlot_newSlots _ hE hb hmem).2
      · show E.os h.chunks + SIZEOF_CHUNK ≠ 0 ↔ _
        have hpos := hE.pos h.chunks
        have hhead : SIZEOF_CHUNK = 16 := rfl
        rw [Refills, if_neg hcol]
        constructor
        · intro _
          exact Or.inr hb.le
        · intro _
          omega
  · rw [if_neg hzero]
    refine ⟨h, man, F, chain, rfl, hfree, hs, ?_, ?_⟩
    · exact ⟨Or.inl ⟨rfl, rfl⟩, rfl, rfl, rfl, fun _ _ ↦ rfl, rfl, rfl,
        Or.inl ⟨rfl, fun hsw ↦ hzero hsw.1, rfl, rfl⟩⟩
    · exact ⟨fun _ ↦ Or.inl hzero, fun _ ↦ hzero⟩

/-- The first node of the free list is taken off it. -/
theorem pop_spec (hfree : FreeOk bytes h man (node :: F)) (hman : man'.nodesize = man.nodesize)
    (hnodes : man'.nodes = man.nodes) (hhead : man'.free = h.next man.free) :
    man.free = node ∧ FreeOk bytes h man' F ∧ IsSlot bytes man.nodes node ∧ node ∉ F := by
  have hseg := hfree.segment
  rw [segment_cons] at hseg
  have hnodup := List.nodup_cons.mp hfree.nodup
  refine ⟨hseg.1, ⟨?_, ?_, ?_, ?_, ?_⟩, ?_, ?_⟩
  · exact hman.trans hfree.nodesize
  · exact hnodes ▸ hfree.chunk
  · rw [hhead, hseg.1]
    exact hseg.2
  · exact hnodup.2
  · intro a ha
    exact hnodes ▸ hfree.slot a (List.mem_cons_of_mem _ ha)
  · exact hfree.slot node List.mem_cons_self
  · exact hnodup.1

/-- A node that `cdd_alloc_node` returns is nowhere else. -/
structure NewNode (bytes : ℤ) (man : NodeManager) (F : List ℤ) (chain : ℕ → ℕ → List ℤ)
    (node : ℤ) : Prop where
  slot : IsSlot bytes man.nodes node
  free : node ∉ F
  sentinel : node ≠ man.sentinel
  stored : ∀ i tbl, man.subtables i = some tbl → ∀ j < tbl.size, node ∉ chain i j

theorem cddAllocNode_spec (hE : E.Valid) (hfuel : 4096 ≤ E.fuel) (hn : n < E.fuel) (hb : Fits bytes)
    (hfree : FreeOk bytes h man F) (hs : StoredOk bytes words levelcnt n h man F chain)
    (hnew : E.os h.chunks ∉ man.nodes) (hrefill : Refills levelcnt bytes h man) :
    ∃ node h' man' F' chain', cddAllocNode E levelcnt h man = .done (node, h', man') ∧
      FreeOk bytes h' man' F' ∧ StoredOk bytes words levelcnt n h' man' F' chain' ∧
      Refilled E bytes h man chain h' man' chain' ∧ NewNode bytes man' F' chain' node := by
  obtain ⟨h', man₁, F₁, chain', hrun, hfree₁, hs₁, hre, hiff⟩ :=
    refill_spec hE hfuel hn hb hfree hs hnew
  have hne := hiff.mpr hrefill
  have hF₁ : F₁ ≠ [] := fun hnil ↦ hne ((hfree₁.eq_nil_iff hb).mpr hnil)
  obtain ⟨node, F', rfl⟩ := List.exists_cons_of_ne_nil hF₁
  set man' : NodeManager := { man₁ with
    free := h'.next man₁.free
    usedcnt := int32 (man₁.usedcnt + 1)
    freecnt := int32 (man₁.freecnt - 1) } with hman'
  have hpop : man₁.free = node ∧ FreeOk bytes h' man' F' ∧ IsSlot bytes man₁.nodes node ∧
      node ∉ F' := pop_spec hfree₁ rfl rfl rfl
  obtain ⟨hnode, hfree', hslot, hnot⟩ := hpop
  refine ⟨node, h', man', F', chain', ?_, hfree', ?_, ?_, ?_⟩
  · rw [cddAllocNode, hrun, Run.done_bind, ← hnode]
    simp only [hne, if_false]
    rfl
  · exact hs₁.congr rfl rfl rfl (fun _ h ↦ h) (fun _ _ h ↦ List.mem_cons_of_mem _ h)
      (fun _ _ _ ↦ rfl) (fun _ _ ↦ rfl) (fun _ _ ↦ rfl) le_rfl le_rfl
  · exact ⟨hre.chunks, hre.level, hre.ref, hre.key, hre.next, hre.sentinel, hre.hashfunc,
      hre.tables⟩
  · refine ⟨hslot, hnot, ?_, ?_⟩
    · intro heq
      exact hs₁.sentinel_free (heq ▸ List.mem_cons_self)
    · intro i tbl hi j hj hmem
      exact (hs₁.slot i tbl hi j hj node hmem).2.1 List.mem_cons_self

/-- Without a node to bring, `cdd_alloc_node` follows the `NULL` in `man->free`. -/
theorem cddAllocNode_failed (hE : E.Valid) (hfuel : 4096 ≤ E.fuel) (hn : n < E.fuel)
    (hb : Fits bytes) (hfree : FreeOk bytes h man F)
    (hs : StoredOk bytes words levelcnt n h man F chain) (hnew : E.os h.chunks ∉ man.nodes)
    (hrefill : ¬ Refills levelcnt bytes h man) : cddAllocNode E levelcnt h man = .failed := by
  obtain ⟨h', man₁, F₁, chain', hrun, -, -, -, hiff⟩ := refill_spec hE hfuel hn hb hfree hs hnew
  have hzero : man₁.free = 0 := by
    by_contra hne
    exact hrefill (hiff.mp hne)
  rw [cddAllocNode, hrun, Run.done_bind]
  simp [hzero]

end

end NodeTable

end UCDD

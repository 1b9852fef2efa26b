import UCDD.Kernel.Counters

/-!
# When an allocation yields a proper node

`cdd_alloc_node` of `kernel.c:584–611` in a run of the library. It returns a node of its own, inside
one chunk of the manager, as long as its refill step brings a node. That step can come away with
none: the sweep that the 32-bit test asks for may meet no dead node, and no node with `4095`
children or more fits into a chunk.
-/

namespace UCDD

namespace NodeTable

open HashChain Loop Links Counter

/-- The manager that allocates, which is made if there is none. -/
def Kernel.managerFor (E : Env) (k : Kernel) (i : ℕ) : NodeManager :=
  (k.managers i).getD (newManager (int32 (nodeBytes i)) (cddHashFunc E (int32 (nodeBytes i))))

/-- The heap and the manager in which a call allocates: the children have got references, and the
subtable of the level has been made. -/
def Kernel.Allocates (E : Env) (k : Kernel) (i : ℕ) (h : Heap) (man : NodeManager) : Prop :=
  (∃ ref, h = { k.heap with ref }) ∧ (man = k.managerFor E i ∨
    ∃ level < k.levelcnt, ∃ man₀, k.managers i = some man₀ ∧ man = (openSubtable man₀ level).2)

/-- An allocated or a free node of a manager. -/
def Kernel.IsNode (k : Kernel) (i : ℕ) (a : ℤ) : Prop :=
  ∃ man, k.managers i = some man ∧ (a = man.sentinel ∨
    (∃ l, Segment k.heap.next 0 man.free l ∧ 0 ∉ l ∧ a ∈ l) ∨ ∃ level, k.Holds i level a)

/-- The node lies in one chunk of its manager, after the header, and touches no other node. -/
structure Proper (k : Kernel) (i : ℕ) (node : ℤ) (h' : Heap) (man' : NodeManager) : Prop where
  inside : ∃ c ∈ man'.nodes, c + SIZEOF_CHUNK ≤ node ∧ node + nodeBytes i ≤ c + CHUNKSIZE ∧
    cddNode2chunk node = c
  apart : ∀ j a, (k.put i (h', man')).IsNode j a →
    a + nodeBytes j ≤ node ∨ node + nodeBytes i ≤ a

/-- The refill step leaves a node, and what `cdd_alloc_node` returns is a proper node. -/
def ProperAlloc (E : Env) (k : Kernel) (i : ℕ) (h : Heap) (man : NodeManager) : Prop :=
  ∃ h₁ man₁ h' man', refill E k.levelcnt h man = .done (h₁, man₁) ∧ man₁.free ≠ 0 ∧
    cddAllocNode E k.levelcnt h man = .done (man₁.free, h', man') ∧ Proper k i man₁.free h' man'

/-- The nodes of a new chunk go in front of the free list, each once, and are all that `freecnt`
counts. -/
def ProperChunk (E : Env) (h : Heap) (man : NodeManager) : Prop :=
  ∃ h' man' l, cddAllocChunk E h man = .done (h', man') ∧
    man'.freecnt = int32 (man.freecnt + (l.length : ℤ)) ∧
    ∀ F, Segment h.next 0 man.free F → 0 ∉ F →
      Segment h'.next 0 man'.free (l ++ F) ∧ (l ++ F).Nodup ∧ 0 ∉ l ++ F

section

variable {E : Env} {bytes a b node : ℤ} {words levelcnt level n i j : ℕ} {h h' : Heap}
  {man man' : NodeManager} {tbl : SubTable} {F F' nodes nodes' : List ℤ}
  {chain chain' : ℕ → ℕ → List ℤ} {k k' : Kernel} {calls : List KernelCall}

/-- Nodes in different chunks do not overlap. -/
theorem IsSlot.apart_of_ne {bytes' : ℤ} (hs : IsSlot bytes nodes a) (hs' : IsSlot bytes' nodes' b)
    (hb : 0 ≤ bytes) (hb' : 0 ≤ bytes') (hne : cddNode2chunk a ≠ cddNode2chunk b) :
    a + bytes ≤ b ∨ b + bytes' ≤ a := by
  obtain ⟨hlo, hhi⟩ := hs.inside hb
  obtain ⟨hlo', hhi'⟩ := hs'.inside hb'
  have hhead : SIZEOF_CHUNK = 16 := rfl
  unfold cddNode2chunk CHUNKSIZE at hlo hhi hlo' hhi' hne
  omega

theorem FreeOk.mem_of_segment {l : List ℤ} (hb : Fits bytes) (hfree : FreeOk bytes h man F)
    (hl : Segment h.next 0 man.free l) (hzero : 0 ∉ l) : l = F := by
  have hpos := hb.pos
  refine hl.unique hfree.segment hzero fun hmem ↦ ?_
  have hlt := (hfree.slot 0 hmem).pos (by omega) hfree.chunk
  omega

/-- Between the calls each node of a manager has its slot. -/
theorem Kernel.Ok.isSlot (hok : k.Ok E n) (ha : k.IsNode i a) :
    ∃ man, k.managers i = some man ∧ IsSlot (nodeBytes i) man.nodes a := by
  obtain ⟨man, hman, hcases⟩ := ha
  obtain ⟨F, chain, hfree, hs⟩ := hok.manager i man hman
  refine ⟨man, hman, ?_⟩
  rcases hcases with heq | ⟨l, hl, hzero, ha⟩ | ⟨level, ha⟩
  · exact heq ▸ hs.sentinel
  · have heq := hfree.mem_of_segment (fits_nodeBytes (hok.fits i man hman)) hl hzero
    exact hfree.slot a (heq ▸ ha)
  · obtain ⟨tbl, htbl, j, hj, ha⟩ := (hs.holds_iff hman).mp ha
    exact (hs.slot level tbl htbl j hj a ha).1

/-- The new node of a manager is proper if its other nodes have other slots. -/
theorem Local.proper (hl : Local E k i h' man') (hok : k.Ok E n) (hE : E.Valid)
    (hb : Fits (nodeBytes i)) (hslot : IsSlot (nodeBytes i) man'.nodes node)
    (hother : ∀ a, (k.put i (h', man')).IsNode i a →
      a + nodeBytes i ≤ node ∨ (IsSlot (nodeBytes i) man'.nodes a ∧ a ≠ node)) :
    Proper k i node h' man' where
  inside := by
    have hpos := hb.pos
    obtain ⟨hlo, hhi⟩ := hslot.inside (by omega)
    exact ⟨cddNode2chunk node, hslot.1, hlo, hhi, rfl⟩
  apart j a ha := by
    have hpos := hb.pos
    by_cases hj : j = i
    · subst hj
      cases hother a ha with
      | inl hlt => exact Or.inl hlt
      | inr hown =>
        by_cases hchunk : cddNode2chunk a = cddNode2chunk node
        · exact hown.1.apart hslot hchunk (by omega) hown.2
        · exact hown.1.apart_of_ne hslot (by omega) (by omega) hchunk
    · have hold : k.IsNode j a := by
        obtain ⟨man, hman, hcases⟩ := ha
        have hman' : k.managers j = some man := (Kernel.put_other _ hj).symm.trans hman
        obtain ⟨F, chain, hfree, -⟩ := hok.manager j man hman'
        refine ⟨man, hman', hcases.imp_right fun hcases ↦ ?_⟩
        refine hcases.imp (fun hex ↦ ?_) fun hex ↦ ?_
        · obtain ⟨l, hseg, hzero, ha⟩ := hex
          have hfits := fits_nodeBytes (hok.fits j man hman')
          have hfree' : FreeOk (nodeBytes j) h' man F :=
            hfree.congr rfl rfl rfl fun c hc ↦ (hl.frame hok hE hj hman' hc).1
          have hsame := hfree'.mem_of_segment hfits hseg hzero
          exact ⟨F, hfree.segment, hsame ▸ hzero, hsame ▸ ha⟩
        · obtain ⟨level, hex⟩ := hex
          exact ⟨level, (hl.holds_iff hok hE hj).mp hex⟩
      obtain ⟨man, hman, hs⟩ := hok.isSlot hold
      have hfits := (fits_nodeBytes (hok.fits j man hman)).pos
      refine hs.apart_of_ne hslot (by omega) (by omega) fun hchunk ↦ ?_
      exact hl.apart hok hE hj hman _ hs.1 (hchunk ▸ hslot.1)

/-- Where a chunk has room for a node, it threads its nodes. -/
theorem properChunk (hE : E.Valid) (hfuel : 4096 ≤ E.fuel) (hb : Fits bytes)
    (hfree : FreeOk bytes h man F) (hnew : E.os h.chunks ∉ man.nodes) : ProperChunk E h man := by
  obtain ⟨next', hrun, hseg, -⟩ := cddAllocChunk_spec hE hfuel hb hfree hnew
  refine ⟨_, _, newSlots E h bytes, hrun, rfl, fun F' hF' hzero ↦ ?_⟩
  have hpos := hb.pos
  have heq := hfree.mem_of_segment hb hF' hzero
  subst heq
  refine ⟨hseg, List.nodup_append.mpr ⟨newSlots_nodup hb, hfree.nodup, ?_⟩, ?_⟩
  · intro a ha c hc hac
    subst hac
    have hchunk := (isSlot_newSlots [] hE hb ha).1
    exact hnew (hchunk ▸ (hfree.slot a hc).1)
  · rw [List.mem_append, not_or]
    refine ⟨fun hmem ↦ ?_, hzero⟩
    have hslot := (isSlot_newSlots [] hE hb hmem).2
    have hlt := hslot.pos (by omega) fun c hc ↦ by
      rw [List.mem_singleton] at hc
      exact hc ▸ ⟨hE.aligned _, hE.pos _⟩
    omega

/-- A manager that is there yields a proper node when its refill step brings one. -/
theorem Kernel.Ok.properAlloc (hok : k.Ok E n) (hE : E.Valid) (hfuel : 4096 ≤ E.fuel)
    (hn : n < E.fuel) {man₀ : NodeManager} (hman : k.managers i = some man₀)
    (hh : ∃ ref, h = { k.heap with ref }) (hnodes : man.nodes = man₀.nodes)
    (hb : Fits (nodeBytes i)) (hfree : FreeOk (nodeBytes i) h man F)
    (hs : StoredOk (nodeBytes i) (keyWords i) k.levelcnt n h man F chain)
    (hrefill : Refills k.levelcnt (nodeBytes i) h man) : ProperAlloc E k i h man := by
  obtain ⟨ref, rfl⟩ := hh
  have hnew : E.os k.heap.chunks ∉ man.nodes := hnodes ▸ hok.os_not_mem hE hman
  obtain ⟨node, h', man', F', chain', halloc, hfree', hs', hre, hnode⟩ :=
    cddAllocNode_spec hE hfuel hn hb hfree hs hnew hrefill
  obtain ⟨man₁, hrun, hne, rfl, -⟩ := cddAllocNode_counts halloc
  refine ⟨h', man₁, h', man', hrun, hne, halloc, ?_⟩
  have hl : Local E k i h' man' := by
    refine ⟨⟨man₀.nodes, Or.inl ⟨man₀, hman, rfl⟩, hnodes ▸ hre.chunks⟩, fun a ha ↦ ?_⟩
    exact ⟨hre.next a ha, by rw [hre.level], by rw [hre.key]⟩
  have hself := Kernel.put_self (k := k) (i := i) (h', man')
  refine hl.proper hok hE hb hnode.slot fun a ha ↦ Or.inr ?_
  obtain ⟨man₂, hman₂, hcases⟩ := ha
  rw [hself, Option.some.injEq] at hman₂
  subst hman₂
  rcases hcases with heq | ⟨l, hl', hzero, ha⟩ | ⟨level, ha⟩
  · exact heq ▸ ⟨hs'.sentinel, hnode.sentinel.symm⟩
  · have hsame := hfree'.mem_of_segment hb hl' hzero
    exact ⟨hfree'.slot a (hsame ▸ ha), fun heq ↦ hnode.free (heq ▸ hsame ▸ ha)⟩
  · obtain ⟨tbl, htbl, j, hj, ha⟩ := (StoredOk.holds_iff (k := k.put i _) hs' hself).mp ha
    exact ⟨(hs'.slot level tbl htbl j hj a ha).1,
      fun heq ↦ hnode.stored level tbl htbl j hj (heq ▸ ha)⟩

/-- The first node of a new manager is proper when a chunk has room for it. -/
theorem Kernel.Ok.properAlloc_new (hok : k.Ok E n) (hE : E.Valid) (hfuel : 4096 ≤ E.fuel)
    (hman : k.managers i = none) (hh : ∃ ref, h = { k.heap with ref }) (hb : Fits (nodeBytes i))
    (hashfunc : List ℤ → ℕ) : ProperAlloc E k i h (newManager (nodeBytes i) hashfunc) := by
  obtain ⟨ref, rfl⟩ := hh
  have hpos := hb.pos
  obtain ⟨node, h', man', F, halloc, hfree, hslot, hnot, hnodes, hheap, -, hzero, hsub, hother⟩ :=
    cddAllocNode_newManager hE hfuel hb { k.heap with ref } k.levelcnt hashfunc
  obtain ⟨man₁, hrun, hne, rfl, -⟩ := cddAllocNode_counts halloc
  refine ⟨h', man₁, h', man', hrun, hne, halloc, ?_⟩
  have hl : Local E k i h' man' := by
    refine ⟨⟨[], Or.inr ⟨hman, rfl⟩, Or.inr ⟨hnodes, by rw [hheap]⟩⟩, fun a ha ↦ ?_⟩
    exact ⟨hother a ha, by rw [hheap], by rw [hheap]⟩
  have hself := Kernel.put_self (k := k) (i := i) (h', man')
  refine hl.proper hok hE hb hslot fun a ha ↦ ?_
  obtain ⟨man₂, hman₂, hcases⟩ := ha
  rw [hself, Option.some.injEq] at hman₂
  subst hman₂
  rcases hcases with heq | ⟨l, hl', hzero', ha⟩ | ⟨level, man₃, tbl, hman₃, htbl, -⟩
  · -- the sentinel is not there yet
    left
    have hlo := (hslot.inside (by omega)).1
    have hchunk : cddNode2chunk man₁.free % 65536 = 0 ∧ 0 < cddNode2chunk man₁.free :=
      hfree.chunk _ hslot.1
    have hle : nodeBytes i ≤ 65520 := hb.le
    have hhead : SIZEOF_CHUNK = 16 := rfl
    have hsentinel : a = 0 := heq.trans hzero
    omega
  · right
    have hsame := hfree.mem_of_segment hb hl' hzero'
    exact ⟨hfree.slot a (hsame ▸ ha), fun heq ↦ hnot (heq ▸ hsame ▸ ha)⟩
  · rw [hself, Option.some.injEq] at hman₃
    subst hman₃
    rw [hsub] at htbl
    cases htbl

/-- A proper node is small enough for a chunk. -/
theorem ProperAlloc.le (hp : ProperAlloc E k i h man) :
    nodeBytes i ≤ CHUNKSIZE - SIZEOF_CHUNK := by
  obtain ⟨h₁, man₁, h', man', -, -, -, hp⟩ := hp
  obtain ⟨c, -, hlo, hhi, -⟩ := hp.inside
  omega

/-- In a run whose allocations all find a node, an allocation yields a proper node, and a chunk is
threaded properly, just when the refill step leaves a node. -/
theorem properAlloc_iff (hE : E.Valid) (hfuel : 4096 + calls.length < E.fuel) {h₀ : Heap}
    {maxsize : ℕ} {k₀ : Kernel} (hinit : Kernel.init E h₀ maxsize = .done k₀)
    (hlegal : k₀.Calls E (fun k c ↦ c.Legal k) calls)
    (hrefills : k₀.Calls E (fun k c ↦ c.Refills E k) calls) (hrun : k₀.run E calls = .done k)
    (i : ℕ) (h : Heap) (man : NodeManager) (hman : k.Allocates E i h man) :
    ProperAlloc E k i h man ∧ ProperChunk E h man ↔ Refills k.levelcnt (nodeBytes i) h man := by
  obtain ⟨k₁, hinit', hok₀, -⟩ := Kernel.init_spec hE (by omega) h₀ maxsize
  rw [hinit] at hinit'
  cases hinit'
  have hok : k.Ok E (0 + calls.length) :=
    (hok₀.run hE (by omega) (by omega) hlegal hrefills).2 k hrun
  rw [Nat.zero_add] at hok
  obtain ⟨hh, hman⟩ := hman
  cases hsome : k.managers i with
  | none =>
    have hnew : man = newManager (int32 (nodeBytes i)) (cddHashFunc E (int32 (nodeBytes i))) := by
      cases hman with
      | inl heq => rw [heq, Kernel.managerFor, hsome, Option.getD_none]
      | inr hex =>
        obtain ⟨-, -, man₀, hman₀, -⟩ := hex
        rw [hsome] at hman₀
        cases hman₀
    constructor
    · intro hproper
      right
      rw [hnew, if_neg (not_collects_newManager _ _)]
      exact hproper.1.le
    · intro hrefill
      have hle : nodeBytes i ≤ CHUNKSIZE - SIZEOF_CHUNK := by
        rw [hnew] at hrefill
        cases hrefill with
        | inl hne => exact absurd rfl hne
        | inr hor => rwa [if_neg (not_collects_newManager _ _)] at hor
      have hb := fits_nodeBytes hle
      have hpos := hb.pos
      have hle' : nodeBytes i ≤ 65520 := hle
      rw [hnew, int32_of_mem (by omega) (by omega)]
      exact ⟨hok.properAlloc_new hE (by omega) hsome hh hb _,
        properChunk hE (by omega) hb (freeOk_newManager _ _) List.not_mem_nil⟩
  | some man₀ =>
    obtain ⟨F, chain, hfree, hs⟩ := hok.manager i man₀ hsome
    have hb := fits_nodeBytes (hok.fits i man₀ hsome)
    obtain ⟨ref, rfl⟩ := hh
    have hfree' : FreeOk (nodeBytes i) { k.heap with ref } man₀ F :=
      hfree.congr rfl rfl rfl fun _ _ ↦ rfl
    have hs' : StoredOk (nodeBytes i) (keyWords i) k.levelcnt calls.length { k.heap with ref } man₀ F
        chain := hs.frame (fun _ _ ↦ ⟨rfl, rfl, rfl⟩) le_rfl
    -- the same holds with the subtable of the level
    have hstate : man.nodes = man₀.nodes ∧ ∃ chain',
        FreeOk (nodeBytes i) { k.heap with ref } man F ∧
        StoredOk (nodeBytes i) (keyWords i) k.levelcnt calls.length { k.heap with ref } man F
          chain' := by
      cases hman with
      | inl heq =>
        rw [Kernel.managerFor, hsome, Option.getD_some] at heq
        rw [heq]
        exact ⟨rfl, chain, hfree', hs'⟩
      | inr hex =>
        obtain ⟨level, hlevel, man₁, hman₁, rfl⟩ := hex
        rw [hsome] at hman₁
        cases hman₁
        obtain ⟨tbl, subtables, chain', hopen, -, hfree₁, hs₁, -⟩ :=
          openSubtable_spec hfree' hs' hlevel
        rw [hopen]
        exact ⟨rfl, chain', hfree₁, hs₁⟩
    obtain ⟨hnodes, chain', hfree₁, hs₁⟩ := hstate
    have hnew : E.os k.heap.chunks ∉ man.nodes := hnodes ▸ hok.os_not_mem hE hsome
    constructor
    · intro hproper
      by_contra hnot
      obtain ⟨h₁, man₁, h', man', -, -, halloc, -⟩ := hproper.1
      rw [cddAllocNode_failed hE (by omega) (by omega) hb hfree₁ hs₁ hnew hnot] at halloc
      cases halloc
    · intro hrefill
      exact ⟨hok.properAlloc hE (by omega) (by omega) hsome ⟨ref, rfl⟩ hnodes hb hfree₁ hs₁ hrefill,
        properChunk hE (by omega) hb hfree₁ hnew⟩

/-- Chunks one after the other, and the value of `hash_computeU32`. -/
def pages (computeU32 : List ℤ → ℤ → ℕ) : Env := ⟨fun n ↦ 65536 * (n + 1), computeU32, 2 ^ 40⟩

theorem pages_valid (computeU32 : List ℤ → ℤ → ℕ) : (pages computeU32).Valid where
  aligned n := by
    show (65536 * ((n : ℤ) + 1)) % 65536 = 0
    omega
  pos n := by
    show (0 : ℤ) < 65536 * (n + 1)
    omega
  injective m n heq := by
    have hsame : (65536 : ℤ) * (m + 1) = 65536 * (n + 1) := heq
    omega

/-- Memory with zeros in it. -/
def zeros : Heap := ⟨fun _ ↦ 0, fun _ ↦ 0, fun _ ↦ 0, fun _ ↦ [], 0, 0⟩

/-- The first BDD node at a level. -/
theorem properAlloc_pages : ∃ k₀ man, Kernel.init (pages fun _ _ ↦ 0) zeros 2 = .done k₀ ∧
    k₀.managers 0 = some man ∧
    ProperAlloc (pages fun _ _ ↦ 0) { k₀ with levelcnt := 1 } 0 k₀.heap
      (openSubtable man 0).2 ∧
    ProperChunk (pages fun _ _ ↦ 0) k₀.heap (openSubtable man 0).2 := by
  have hE := pages_valid fun _ _ ↦ 0
  have hfuel : 4096 + [KernelCall.addLevels 1].length < (pages fun _ _ ↦ 0).fuel := by
    show 4096 + 1 < 2 ^ 40
    norm_num
  obtain ⟨k₀, hinit, -, hcnt, -⟩ := Kernel.init_spec hE (by omega) zeros 2
  have hlegal : k₀.Calls (pages fun _ _ ↦ 0) (fun k c ↦ c.Legal k) [.addLevels 1] :=
    ⟨trivial, fun _ _ ↦ trivial⟩
  have hbefore : k₀.Calls (pages fun _ _ ↦ 0) (fun k c ↦ c.Refills (pages fun _ _ ↦ 0) k)
      [.addLevels 1] := ⟨trivial, fun _ _ ↦ trivial⟩
  obtain ⟨man, hman, hcalm, -⟩ := Kernel.init_counts hinit
  have hrun : k₀.run (pages fun _ _ ↦ 0) [.addLevels 1] = .done { k₀ with levelcnt := 1 } := by
    show Loop.Run.done { k₀ with levelcnt := k₀.levelcnt + 1 } = _
    rw [hcnt]
  have hrefills : Refills 1 (nodeBytes 0) k₀.heap (openSubtable man 0).2 :=
    (hcalm.openSubtable 0).refills (by norm_num) (by decide)
  have hallocates : Kernel.Allocates (pages fun _ _ ↦ 0) { k₀ with levelcnt := 1 } 0 k₀.heap
      (openSubtable man 0).2 :=
    ⟨⟨k₀.heap.ref, rfl⟩, Or.inr ⟨0, Nat.zero_lt_one, man, hman, rfl⟩⟩
  exact ⟨k₀, man, hinit, hman, (properAlloc_iff hE hfuel hinit hlegal hbefore hrun 0 k₀.heap
    (openSubtable man 0).2 hallocates).mpr hrefills⟩

/-- No chunk has room for a node with `4095` children. -/
theorem not_properAlloc_pages : ∃ k₀, Kernel.init (pages fun _ _ ↦ 0) zeros 4095 = .done k₀ ∧
    4095 ≤ k₀.maxcddsize ∧
    ¬ ProperAlloc (pages fun _ _ ↦ 0) k₀ 4095 k₀.heap
      (k₀.managerFor (pages fun _ _ ↦ 0) 4095) := by
  have hfuel : 4096 ≤ (pages fun _ _ ↦ 0).fuel := by
    show 4096 ≤ 2 ^ 40
    norm_num
  obtain ⟨k₀, hinit, -, -, hmax⟩ := Kernel.init_spec (pages_valid fun _ _ ↦ 0) hfuel zeros 4095
  refine ⟨k₀, hinit, hmax.ge, fun hproper ↦ ?_⟩
  exact absurd hproper.le (by decide)

end

end NodeTable

end UCDD

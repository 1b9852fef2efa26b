import UCDD.Kernel.MakeNode

/-!
# Runs of the kernel

The managers of `kernel.c` share one heap, and no chunk belongs to two of them. What one manager
does is in its own chunks, so what holds of each manager holds after each call.
-/

namespace UCDD

namespace NodeTable

open HashChain Loop Links Counter

/-- What holds between the calls: each manager is in order, and the chunks are its own. The chains
have at most `n` nodes. -/
structure Kernel.Ok (E : Env) (n : ℕ) (k : Kernel) : Prop where
  manager : ∀ i man, k.managers i = some man → ∃ F chain, FreeOk (nodeBytes i) k.heap man F ∧
    StoredOk (nodeBytes i) (keyWords i) k.levelcnt n k.heap man F chain
  fits : ∀ i man, k.managers i = some man → nodeBytes i ≤ CHUNKSIZE - SIZEOF_CHUNK
  hashfunc : ∀ i man, k.managers i = some man →
    man.hashfunc = if i = 0 then bddHashFunc else cddHashFunc E (nodeBytes i)
  chunk : ∀ i man, k.managers i = some man → ∀ c ∈ man.nodes, ∃ m < k.heap.chunks, c = E.os m
  apart : ∀ i j man man', k.managers i = some man → k.managers j = some man' → i ≠ j →
    ∀ c ∈ man.nodes, c ∉ man'.nodes
  bdd : ∃ man, k.managers 0 = some man

/-- The node is in the subtable of the level. -/
def Kernel.Holds (k : Kernel) (i level : ℕ) (a : ℤ) : Prop :=
  ∃ man tbl, k.managers i = some man ∧ man.subtables level = some tbl ∧
    Stored k.heap man.sentinel tbl a

/-- The key is not in the subtable. -/
def Kernel.IsNew (k : Kernel) (i level : ℕ) (key : List ℤ) : Prop :=
  ∀ a, k.Holds i level a → k.heap.key a ≠ key

/-- The allocation of a new node finds one. -/
def Kernel.RefillsFor (k : Kernel) (i level : ℕ) (S : Search) : Prop :=
  k.IsNew i level S.key → ∀ man, k.managers i = some man →
    Refills k.levelcnt (nodeBytes i) (refChildren k.heap S) (openSubtable man level).2

/-- A new node does not make the number of buckets wrap around. -/
def Kernel.GrowsFor (k : Kernel) (i level : ℕ) (S : Search) : Prop :=
  k.IsNew i level S.key → ∀ man, k.managers i = some man →
    ¬ Overflows (openSubtable man level).1
      (keysThen (openSubtable man level).2 (openSubtable man level).1)

/-- The arguments of the search in `cdd_make_bdd_node`. -/
def bddSearchOf (E : Env) (low high : ℤ) : Search :=
  bddSearch E (cddRglr low) (cddNegCond high (cddMask low))

namespace KernelCall

/-- The arguments are those of a caller that keeps to the interface: the level is declared, and no
child is `NULL`. -/
def Legal (k : Kernel) : KernelCall → Prop
  | makeBddNode level low _ => level < k.levelcnt ∧ 0 < cddRglr low
  | makeCddNode level elem => level < k.levelcnt ∧
      ∃ e rest, elem = e :: rest ∧ 0 < e.child ∧ e.child < 2 ^ 64
  | tally i level _ => ∃ man tbl, k.managers i = some man ∧ man.subtables level = some tbl
  | _ => True

/-- Each allocation in the call finds a node, and a chunk has room for the nodes of a new
manager. -/
def Refills (E : Env) (k : Kernel) : KernelCall → Prop
  | makeBddNode level low high => low ≠ high → k.RefillsFor 0 level (bddSearchOf E low high)
  | makeCddNode level elem => 2 ≤ elem.length → elem.length ≤ k.maxcddsize →
      (k.managers elem.length = none → nodeBytes elem.length ≤ CHUNKSIZE - SIZEOF_CHUNK) ∧
      ∀ k', k.openManager E elem.length = .done k' →
        k'.RefillsFor elem.length level (cddSearch E elem)
  | _ => True

/-- No subtable with `2 ^ 30` buckets is rehashed in the call. -/
def Grows (E : Env) (k : Kernel) : KernelCall → Prop
  | makeBddNode level low high => low ≠ high → k.GrowsFor 0 level (bddSearchOf E low high)
  | makeCddNode level elem => 2 ≤ elem.length → elem.length ≤ k.maxcddsize →
      ∀ k', k.openManager E elem.length = .done k' →
        k'.GrowsFor elem.length level (cddSearch E elem)
  | _ => True

end KernelCall

/-- The property holds of each call of a run, in the state before the call. -/
def Kernel.Calls (E : Env) (P : Kernel → KernelCall → Prop) (k : Kernel) : List KernelCall → Prop
  | [] => True
  | c :: cs => P k c ∧ ∀ k', k.call E c = .done k' → k'.Calls E P cs

section

variable {E : Env} {bytes a node size : ℤ} {words levelcnt level n n' i j : ℕ} {h h' : Heap}
  {man man' : NodeManager} {tbl : SubTable} {F F' : List ℤ} {chain chain' : ℕ → ℕ → List ℤ}
  {S : Search} {hashfunc : List ℤ → ℕ} {k k' : Kernel}

theorem bddHashFunc_lt (key : List ℤ) : bddHashFunc key < 2 ^ 32 := by
  unfold bddHashFunc bddHash
  omega

theorem cddHashFunc_lt (E : Env) (size : ℤ) (key : List ℤ) : cddHashFunc E size key < 2 ^ 32 :=
  Nat.mod_lt _ (by norm_num)

@[simp] theorem Kernel.put_self (s : Heap × NodeManager) : (k.put i s).managers i = some s.2 := by
  simp [Kernel.put]

theorem Kernel.put_other (s : Heap × NodeManager) (hj : j ≠ i) :
    (k.put i s).managers j = k.managers j :=
  Function.update_of_ne hj _ _

/-! ### A new manager -/

theorem freeOk_newManager (bytes : ℤ) (hashfunc : List ℤ → ℕ) :
    FreeOk bytes h (newManager bytes hashfunc) [] where
  nodesize := rfl
  chunk _ hc := (List.not_mem_nil hc).elim
  segment := rfl
  nodup := List.nodup_nil
  slot _ ha := (List.not_mem_nil ha).elim

/-- A new manager takes a chunk. -/
theorem not_collects_newManager (bytes : ℤ) (hashfunc : List ℤ → ℕ) :
    ¬ (newManager bytes hashfunc).Collects :=
  show ¬ int32 (MINFREE * 0) < int32 (100 * 0) by decide

/-- The first node of a new manager. -/
theorem cddAllocNode_newManager (hE : E.Valid) (hfuel : 4096 ≤ E.fuel) (hb : Fits bytes) (h : Heap)
    (levelcnt : ℕ) (hashfunc : List ℤ → ℕ) :
    ∃ node h' man' F, cddAllocNode E levelcnt h (newManager bytes hashfunc) =
        .done (node, h', man') ∧
      FreeOk bytes h' man' F ∧ IsSlot bytes man'.nodes node ∧ node ∉ F ∧
      man'.nodes = [E.os h.chunks] ∧ h' = { h with next := h'.next, chunks := h.chunks + 1 } ∧
      man'.hashfunc = hashfunc ∧ man'.sentinel = 0 ∧ man'.subtables = (fun _ ↦ none) ∧
      ∀ a, ¬ IsSlot bytes man'.nodes a → h'.next a = h.next a := by
  have hfree := freeOk_newManager (h := h) bytes hashfunc
  obtain ⟨next', hrun, hseg, hother⟩ := cddAllocChunk_spec hE hfuel hb hfree List.not_mem_nil
  obtain ⟨first, rest, hslots⟩ := List.exists_cons_of_ne_nil (newSlots_ne_nil (E := E) (h := h) hb)
  have hslot (a : ℤ) (ha : a ∈ newSlots E h bytes) : IsSlot bytes [E.os h.chunks] a :=
    (isSlot_newSlots [] hE hb ha).2
  have hnodup : (newSlots E h bytes).Nodup := newSlots_nodup hb
  rw [List.append_nil, hslots, segment_cons] at hseg
  rw [hslots] at hother hslot hnodup
  have hpos : E.os h.chunks + SIZEOF_CHUNK ≠ 0 := by
    have h1 := hE.pos h.chunks
    have h2 : SIZEOF_CHUNK = 16 := rfl
    omega
  refine ⟨first, { h with next := next', chunks := h.chunks + 1 }, ?man, rest, ?run, ?fields⟩
  case run =>
    rw [cddAllocNode, refill, if_pos (show (newManager bytes hashfunc).free = 0 from rfl),
      if_neg (not_collects_newManager bytes hashfunc), hrun]
    simp only [Run.done_bind, hpos, if_false]
    rw [hseg.1]
    rfl
  case fields =>
    rw [List.forall_mem_cons] at hslot
    rw [List.nodup_cons] at hnodup
    refine ⟨⟨rfl, ?_, hseg.2, hnodup.2, hslot.2⟩, hslot.1, hnodup.1, rfl, rfl, rfl, rfl, rfl, ?_⟩
    · show ∀ c ∈ [E.os h.chunks], _
      rw [List.forall_mem_singleton]
      exact ⟨hE.aligned _, hE.pos _⟩
    · intro a ha
      apply hother
      intro hmem
      exact ha ((List.forall_mem_cons.mpr hslot) a hmem)

theorem cddAllocNodemanager_spec (hE : E.Valid) (hfuel : 4096 ≤ E.fuel) (hb : Fits bytes)
    (hlt : ∀ key, hashfunc key < 2 ^ 32) (h : Heap) (levelcnt words n : ℕ) :
    ∃ h' man' F, cddAllocNodemanager E levelcnt h bytes words hashfunc = .done (h', man') ∧
      FreeOk bytes h' man' F ∧
      StoredOk bytes words levelcnt n h' man' F (fun _ _ ↦ []) ∧
      man'.nodes = [E.os h.chunks] ∧ h'.chunks = h.chunks + 1 ∧ man'.hashfunc = hashfunc ∧
      (∀ i, man'.subtables i = none) ∧
      ∀ a, ¬ IsSlot bytes man'.nodes a →
        h'.next a = h.next a ∧ h'.level a = h.level a ∧ h'.key a = h.key a := by
  obtain ⟨node, h₁, man₁, F, hrun, hfree, hslot, hnot, hnodes, hheap, hhash, -, hsub, hother⟩ :=
    cddAllocNode_newManager hE hfuel hb h levelcnt hashfunc
  have hrun' : cddAllocNodemanager E levelcnt h bytes words hashfunc = .done
      (({ h₁ with
        next := Function.update h₁.next node 0
        level := Function.update h₁.level node 0
        ref := Function.update h₁.ref node 0
        key := Function.update h₁.key node (List.replicate words 0) } : Heap),
        { man₁ with sentinel := node }) := by
    rw [cddAllocNodemanager, hrun]
    rfl
  refine ⟨_, _, F, hrun', ?_, ?_, hnodes, by rw [hheap], hhash, fun i ↦ ?_, ?_⟩
  · refine ⟨hfree.nodesize, hfree.chunk, ?_, hfree.nodup, hfree.slot⟩
    apply hfree.segment.congr
    intro a ha
    apply Function.update_of_ne
    intro heq
    exact hnot (heq ▸ ha)
  · refine ⟨?_, hslot, hnot, Function.update_self _ _ _, ?_, ?_, ?_, ?_⟩
    · show ∀ key, man₁.hashfunc key < 2 ^ 32
      rw [hhash]
      exact hlt
    all_goals
      intro i tbl hi
      have hnone : man₁.subtables i = some tbl := hi
      rw [hsub] at hnone
      cases hnone
  · show man₁.subtables i = none
    rw [hsub]
  · intro a ha
    have hne : a ≠ node := fun heq ↦ ha (heq ▸ hslot)
    refine ⟨?_, ?_, ?_⟩
    · show Function.update h₁.next node 0 a = h.next a
      rw [Function.update_of_ne hne]
      exact hother a ha
    · show Function.update h₁.level node 0 a = h.level a
      rw [Function.update_of_ne hne, hheap]
    · show Function.update h₁.key node (List.replicate words 0) a = h.key a
      rw [Function.update_of_ne hne, hheap]

/-! ### One manager among the others -/

theorem StoredOk.mono (hs : StoredOk bytes words levelcnt n h man F chain) {levelcnt' : ℕ}
    (hcnt : levelcnt ≤ levelcnt') (hn : n ≤ n') :
    StoredOk bytes words levelcnt' n' h man F chain :=
  hs.congr rfl rfl rfl (fun _ h ↦ h) (fun _ _ h ↦ h) (fun _ _ _ ↦ rfl) (fun _ _ ↦ rfl)
    (fun _ _ ↦ rfl) hcnt hn

/-- The state of one manager, and the heap, after it has done something with its own chunks and
maybe with the next one. -/
structure Local (E : Env) (k : Kernel) (i : ℕ) (h' : Heap) (man' : NodeManager) : Prop where
  nodes : ∃ nodes, ((∃ man, k.managers i = some man ∧ man.nodes = nodes) ∨
      (k.managers i = none ∧ nodes = [])) ∧
    ((man'.nodes = nodes ∧ h'.chunks = k.heap.chunks) ∨
      (man'.nodes = E.os k.heap.chunks :: nodes ∧ h'.chunks = k.heap.chunks + 1))
  outside : ∀ a, ¬ IsSlot (nodeBytes i) man'.nodes a →
    h'.next a = k.heap.next a ∧ h'.level a = k.heap.level a ∧ h'.key a = k.heap.key a

theorem Local.le (hl : Local E k i h' man') : k.heap.chunks ≤ h'.chunks := by
  obtain ⟨nodes, -, hchunks⟩ := hl.nodes
  cases hchunks with
  | inl hsame => exact hsame.2.symm.le
  | inr hnew => exact hnew.2 ▸ Nat.le_succ _

/-- The chunks of the others are not among those of this manager. -/
theorem Local.apart (hl : Local E k i h' man') (hok : k.Ok E n) (hE : E.Valid) (hj : j ≠ i)
    (hman : k.managers j = some man) : ∀ c ∈ man.nodes, c ∉ man'.nodes := by
  intro c hc
  obtain ⟨nodes, hnodes, hchunks⟩ := hl.nodes
  have hold : c ∉ nodes := by
    cases hnodes with
    | inl hex =>
      obtain ⟨man₂, hman₂, rfl⟩ := hex
      exact hok.apart j i man man₂ hman hman₂ hj c hc
    | inr hnone =>
      rw [hnone.2]
      exact List.not_mem_nil
  cases hchunks with
  | inl hsame => rwa [hsame.1]
  | inr hnew =>
    rw [hnew.1, List.mem_cons, not_or]
    refine ⟨fun heq ↦ ?_, hold⟩
    obtain ⟨m, hm, hcm⟩ := hok.chunk j man hman c hc
    have hsame := hE.injective (hcm.symm.trans heq)
    omega

/-- The nodes of the others are as they were. -/
theorem Local.frame (hl : Local E k i h' man') (hok : k.Ok E n) (hE : E.Valid) (hj : j ≠ i)
    (hman : k.managers j = some man) (ha : IsSlot (nodeBytes j) man.nodes a) :
    h'.next a = k.heap.next a ∧ h'.level a = k.heap.level a ∧ h'.key a = k.heap.key a :=
  hl.outside a fun ha' ↦ hl.apart hok hE hj hman _ ha.1 ha'.1

theorem StoredOk.frame (hs : StoredOk bytes words levelcnt n h man F chain)
    (hframe : ∀ a, IsSlot bytes man.nodes a →
      h'.next a = h.next a ∧ h'.level a = h.level a ∧ h'.key a = h.key a) (hn : n ≤ n') :
    StoredOk bytes words levelcnt n' h' man F chain :=
  hs.congr rfl rfl rfl (fun _ h ↦ h) (fun _ _ h ↦ h) (fun a ha _ ↦ (hframe a ha).1)
    (fun a ha ↦ (hframe a ha).2.2) (fun a ha ↦ (hframe a ha).2.1) le_rfl hn

theorem Kernel.Ok.put (hok : k.Ok E n) (hE : E.Valid) (hn : n ≤ n') (hl : Local E k i h' man')
    (hfits : nodeBytes i ≤ CHUNKSIZE - SIZEOF_CHUNK)
    (hhash : man'.hashfunc = if i = 0 then bddHashFunc else cddHashFunc E (nodeBytes i))
    (hfree : FreeOk (nodeBytes i) h' man' F')
    (hs : StoredOk (nodeBytes i) (keyWords i) k.levelcnt n' h' man' F' chain') :
    (k.put i (h', man')).Ok E n' := by
  have hself := Kernel.put_self (k := k) (i := i) (h', man')
  have hother {j : ℕ} (hj : j ≠ i) := Kernel.put_other (k := k) (h', man') hj
  refine ⟨?_, ?_, ?_, ?_, ?_, ?_⟩
  · intro j man₂ hman₂
    by_cases hj : j = i
    · subst hj
      rw [hself, Option.some.injEq] at hman₂
      subst hman₂
      exact ⟨F', chain', hfree, hs⟩
    · rw [hother hj] at hman₂
      obtain ⟨F, chain, hfree₂, hs₂⟩ := hok.manager j man₂ hman₂
      have hframe (a : ℤ) (ha : IsSlot (nodeBytes j) man₂.nodes a) := hl.frame hok hE hj hman₂ ha
      exact ⟨F, chain, hfree₂.congr rfl rfl rfl fun a ha ↦ (hframe a ha).1, hs₂.frame hframe hn⟩
  · intro j man₂ hman₂
    by_cases hj : j = i
    · exact hj ▸ hfits
    · exact hok.fits j man₂ (hother hj ▸ hman₂)
  · intro j man₂ hman₂
    by_cases hj : j = i
    · subst hj
      rw [hself, Option.some.injEq] at hman₂
      exact hman₂ ▸ hhash
    · exact hok.hashfunc j man₂ (hother hj ▸ hman₂)
  · intro j man₂ hman₂ c hc
    show ∃ m < h'.chunks, c = E.os m
    have hle := hl.le
    by_cases hj : j = i
    · subst hj
      rw [hself, Option.some.injEq] at hman₂
      subst hman₂
      obtain ⟨nodes, hnodes, hchunks⟩ := hl.nodes
      have hold (hc : c ∈ nodes) : ∃ m < h'.chunks, c = E.os m := by
        cases hnodes with
        | inl hex =>
          obtain ⟨man, hman, rfl⟩ := hex
          obtain ⟨m, hm, hcm⟩ := hok.chunk j man hman c hc
          exact ⟨m, lt_of_lt_of_le hm hle, hcm⟩
        | inr hnone =>
          rw [hnone.2] at hc
          exact (List.not_mem_nil hc).elim
      cases hchunks with
      | inl hsame => exact hold (hsame.1 ▸ hc)
      | inr hnew =>
        rw [hnew.1] at hc
        cases List.mem_cons.mp hc with
        | inl heq => exact ⟨k.heap.chunks, by omega, heq⟩
        | inr hc => exact hold hc
    · obtain ⟨m, hm, hcm⟩ := hok.chunk j man₂ (hother hj ▸ hman₂) c hc
      exact ⟨m, lt_of_lt_of_le hm hle, hcm⟩
  · intro j l man₂ man₃ hman₂ hman₃ hjl
    by_cases hj : j = i
    · subst hj
      rw [hself, Option.some.injEq] at hman₂
      rw [hother hjl.symm] at hman₃
      subst hman₂
      intro c hc hc'
      exact hl.apart hok hE hjl.symm hman₃ c hc' hc
    · rw [hother hj] at hman₂
      by_cases hl : l = i
      · subst hl
        rw [hself, Option.some.injEq] at hman₃
        exact hman₃ ▸ hl.apart hok hE hj hman₂
      · exact hok.apart j l man₂ man₃ hman₂ (hother hl ▸ hman₃) hjl
  · by_cases hi : i = 0
    · exact ⟨man', hi ▸ hself⟩
    · obtain ⟨man, hman⟩ := hok.bdd
      exact ⟨man, (hother (Ne.symm hi)).trans hman⟩

/-- The next chunk belongs to nobody. -/
theorem Kernel.Ok.os_not_mem (hok : k.Ok E n) (hE : E.Valid) (hman : k.managers i = some man) :
    E.os k.heap.chunks ∉ man.nodes := by
  intro hmem
  obtain ⟨m, hm, heq⟩ := hok.chunk i man hman _ hmem
  have hsame := hE.injective heq
  omega

/-- The kernel after `cdd_init`. -/
theorem Kernel.init_spec (hE : E.Valid) (hfuel : 4096 ≤ E.fuel) (h : Heap) (maxsize : ℕ) :
    ∃ k, Kernel.init E h maxsize = .done k ∧ k.Ok E 0 ∧ k.levelcnt = 0 ∧
      k.maxcddsize = maxsize := by
  have hb : Fits (nodeBytes 0) := fits_nodeBytes (by decide)
  obtain ⟨h', man', F, hrun, hfree, hs, hnodes, hchunks, hhash, -, -⟩ :=
    cddAllocNodemanager_spec hE hfuel hb bddHashFunc_lt h 0 (keyWords 0) 0
  refine ⟨_, by rw [Kernel.init, hrun]; rfl, ?_, rfl, rfl⟩
  have hself := Kernel.put_self (k := ⟨h, 0, maxsize, fun _ ↦ none⟩) (i := 0) (h', man')
  have hother {j : ℕ} (hj : j ≠ 0) :
      (Kernel.put ⟨h, 0, maxsize, fun _ ↦ none⟩ 0 (h', man')).managers j = none :=
    Kernel.put_other _ hj
  have hzero {j : ℕ} {man : NodeManager}
      (hman : (Kernel.put ⟨h, 0, maxsize, fun _ ↦ none⟩ 0 (h', man')).managers j = some man) :
      j = 0 ∧ man = man' := by
    by_cases hj : j = 0
    · subst hj
      rw [hself, Option.some.injEq] at hman
      exact ⟨rfl, hman.symm⟩
    · rw [hother hj] at hman
      cases hman
  refine ⟨?_, ?_, ?_, ?_, ?_, ⟨man', hself⟩⟩
  · intro j man hman
    obtain ⟨rfl, rfl⟩ := hzero hman
    exact ⟨F, _, hfree, hs⟩
  · intro j man hman
    obtain ⟨rfl, rfl⟩ := hzero hman
    decide
  · intro j man hman
    obtain ⟨rfl, rfl⟩ := hzero hman
    exact hhash
  · intro j man hman c hc
    obtain ⟨rfl, rfl⟩ := hzero hman
    rw [hnodes, List.mem_singleton] at hc
    exact ⟨h.chunks, by show h.chunks < h'.chunks; omega, hc⟩
  · intro j l man man₂ hman hman₂ hjl
    obtain ⟨rfl, -⟩ := hzero hman
    obtain ⟨rfl, -⟩ := hzero hman₂
    exact absurd rfl hjl

/-- A manager that a call needs is there, or is made. -/
theorem Kernel.Ok.openManager (hok : k.Ok E n) (hE : E.Valid) (hfuel : 4096 ≤ E.fuel)
    (hi : i ≠ 0) (hfits : k.managers i = none → nodeBytes i ≤ CHUNKSIZE - SIZEOF_CHUNK) :
    ∃ k', k.openManager E i = .done k' ∧ k'.Ok E n ∧ k'.levelcnt = k.levelcnt ∧
      k'.maxcddsize = k.maxcddsize ∧ ∃ man, k'.managers i = some man := by
  cases hman : k.managers i with
  | some man =>
    exact ⟨k, by rw [Kernel.openManager, hman]; rfl, hok, rfl, rfl, man, hman⟩
  | none =>
    have hb := fits_nodeBytes (hfits hman)
    have hle : nodeBytes i ≤ 65520 := hb.le
    have hpos := hb.pos
    have hsize : int32 (nodeBytes i) = nodeBytes i := int32_of_mem (by omega) (by omega)
    obtain ⟨h', man', F, hrun, hfree, hs, hnodes, hchunks, hhash, -, houtside⟩ :=
      cddAllocNodemanager_spec hE hfuel hb (cddHashFunc_lt E (nodeBytes i))
        k.heap k.levelcnt (keyWords i) n
    refine ⟨k.put i (h', man'), ?_, ?_, rfl, rfl, man', Kernel.put_self _⟩
    · simp only [Kernel.openManager, hman, hsize, hrun]
      rfl
    · have hl : Local E k i h' man' :=
        ⟨⟨[], Or.inr ⟨hman, rfl⟩, Or.inr ⟨hnodes, hchunks⟩⟩, houtside⟩
      refine hok.put hE le_rfl hl hb.le ?_ hfree hs
      rw [hhash, if_neg hi]

/-! ### One call -/

/-- The nodes that a subtable holds are those of the chains. -/
theorem StoredOk.holds_iff
    (hs : StoredOk bytes words levelcnt n k.heap man F chain) (hman : k.managers i = some man) :
    k.Holds i level a ↔ InChain man chain level a := by
  constructor
  · intro hex
    obtain ⟨man₂, tbl, hman₂, htbl, ha⟩ := hex
    rw [hman] at hman₂
    cases hman₂
    exact ⟨tbl, htbl, (hs.stored_iff htbl).mp ha⟩
  · intro hex
    obtain ⟨tbl, htbl, ha⟩ := hex
    exact ⟨man, tbl, hman, htbl, (hs.stored_iff htbl).mpr ha⟩

/-- What one manager does, the subtables of the others do not notice. -/
theorem Local.holds_iff (hl : Local E k i h' man') (hok : k.Ok E n) (hE : E.Valid) (hj : j ≠ i) :
    (k.put i (h', man')).Holds j level a ↔ k.Holds j level a := by
  have hother := Kernel.put_other (k := k) (h', man') hj
  cases hman : k.managers j with
  | none =>
    unfold Kernel.Holds
    rw [hother, hman]
    simp
  | some man =>
    obtain ⟨F, chain, -, hs⟩ := hok.manager j man hman
    have hs' : StoredOk (nodeBytes j) (keyWords j) k.levelcnt n (k.put i (h', man')).heap man F
        chain := hs.frame (fun a ha ↦ hl.frame hok hE hj hman ha) le_rfl
    rw [hs.holds_iff hman, hs'.holds_iff (hother.trans hman)]

/-- A call that makes a node finds it, or makes a new one, or the number of buckets wraps around. -/
theorem Kernel.Ok.make (hok : k.Ok E n) (hE : E.Valid) (hfuel : 4096 ≤ E.fuel)
    (hn : n + 1 < E.fuel) (hman : k.managers i = some man) (hlevel : level < k.levelcnt)
    (hS : SearchOk E (keyWords i) man.hashfunc S) (hrefill : k.RefillsFor i level S) :
    (∃ a k', k.make E i level S = .done (a, k') ∧ k'.Ok E n ∧ k.Holds i level a ∧
        k.heap.key a = S.key ∧ k'.heap = k.heap ∧ ∀ j l b, k'.Holds j l b ↔ k.Holds j l b) ∨
      (k.IsNew i level S.key ∧
        (k.GrowsFor i level S → ∃ a k', k.make E i level S = .done (a, k') ∧ k'.Ok E (n + 1) ∧
          k'.heap.key = Function.update k.heap.key a S.key ∧
          ∀ j l b, k'.Holds j l b ↔ (j = i ∧ l = level ∧ b = a) ∨
            (k.Holds j l b ∧ ¬ (j = i ∧ Collected (refChildren k.heap S).ref man l b))) ∧
        (¬ k.GrowsFor i level S → k.make E i level S = .failed)) := by
  obtain ⟨F, chain, hfree, hs⟩ := hok.manager i man hman
  have hb := fits_nodeBytes (hok.fits i man hman)
  have hunfold := Kernel.make_eq (E := E) (S := S) hman hlevel
  have hnew := hok.os_not_mem hE hman
  by_cases hfound : ∃ a, InChain man chain level a ∧ k.heap.key a = S.key
  · left
    obtain ⟨tbl, subtables, chain₁, -, -, hfree₁, hs₁, -, hin, -, hcases⟩ :=
      makeNode_cases hfree hs hlevel hS (by omega : n < E.fuel)
    obtain ⟨a, ha, hkey, hrun⟩ := hcases.resolve_right fun hnot ↦ by
      obtain ⟨b, hb', hbkey⟩ := hfound
      exact hnot.1 b hb' hbkey
    have hl : Local E k i k.heap { man with subtables } :=
      ⟨⟨man.nodes, Or.inl ⟨man, hman, rfl⟩, Or.inl ⟨rfl, rfl⟩⟩, fun _ _ ↦ ⟨rfl, rfl, rfl⟩⟩
    refine ⟨a, k.put i (k.heap, { man with subtables }), ?_, ?_, (hs.holds_iff hman).mpr ha, hkey,
      rfl, ?_⟩
    · rw [hunfold, hrun]
      rfl
    · exact hok.put hE le_rfl hl hb.le (hok.hashfunc i man hman) hfree₁ hs₁
    · intro j l b
      by_cases hj : j = i
      · subst hj
        have hself := Kernel.put_self (k := k) (i := j) (k.heap, { man with subtables })
        rw [hs.holds_iff hman, StoredOk.holds_iff (k := k.put j _) hs₁ hself]
        exact hin l b
      · exact hl.holds_iff hok hE hj
  · right
    have hkey (a : ℤ) (ha : InChain man chain level a) : k.heap.key a ≠ S.key :=
      fun heq ↦ hfound ⟨a, ha, heq⟩
    have hisnew : k.IsNew i level S.key := fun a ha ↦ hkey a ((hs.holds_iff hman).mp ha)
    refine ⟨hisnew, fun hgrow ↦ ?_, fun hgrow ↦ ?_⟩
    · obtain ⟨node, h', man', F', chain', hrun, hfree', hs', hmade⟩ := makeNode_new hE hfuel hn hb
        hfree hs hnew hlevel hS hkey (hrefill hisnew man hman) (hgrow hisnew man hman)
      have hl : Local E k i h' man' :=
        ⟨⟨man.nodes, Or.inl ⟨man, hman, rfl⟩, hmade.chunks⟩, hmade.outside⟩
      have hself := Kernel.put_self (k := k) (i := i) (h', man')
      refine ⟨node, k.put i (h', man'), ?_, ?_, hmade.key, ?_⟩
      · rw [hunfold, hrun]
        rfl
      · exact hok.put hE (Nat.le_succ n) hl hb.le (hmade.hashfunc.trans (hok.hashfunc i man hman))
          hfree' hs'
      · intro j l b
        by_cases hj : j = i
        · subst hj
          rw [hs.holds_iff hman, StoredOk.holds_iff (k := k.put j _) hs' hself, hmade.stored]
          simp
        · rw [hl.holds_iff hok hE hj]
          simp [hj]
    · have hover : Overflows (openSubtable man level).1
          (keysThen (openSubtable man level).2 (openSubtable man level).1) := by
        by_contra hnot
        apply hgrow
        intro _ man₂ hman₂
        rw [hman] at hman₂
        cases hman₂
        exact hnot
      rw [hunfold, makeNode_failed hE hfuel (by omega) hb hfree hs hnew hlevel hS hkey
        (hrefill hisnew man hman) hover]
      rfl

/-- The counts of dead nodes are nothing to the chains. -/
theorem StoredOk.tally (hs : StoredOk bytes words levelcnt n h man F chain)
    (htbl : man.subtables level = some tbl) (usedcnt deadcnt deadcnt' : ℤ) :
    StoredOk bytes words levelcnt n h
      { man with
        usedcnt
        deadcnt
        subtables := Function.update man.subtables level (some { tbl with deadcnt := deadcnt' }) }
      F chain := by
  have hcases {i : ℕ} {tbl₂ : SubTable}
      (hi : Function.update man.subtables level (some { tbl with deadcnt := deadcnt' }) i =
        some tbl₂) : ∃ tbl₁, man.subtables i = some tbl₁ ∧ ∃ d, tbl₂ = { tbl₁ with deadcnt := d } := by
    by_cases heq : i = level
    · subst heq
      rw [Function.update_self, Option.some.injEq] at hi
      exact ⟨tbl, htbl, deadcnt', hi.symm⟩
    · rw [Function.update_of_ne heq] at hi
      exact ⟨tbl₂, hi, tbl₂.deadcnt, rfl⟩
  refine ⟨hs.hash_lt, hs.sentinel, hs.sentinel_free, hs.zero, ?_, ?_, ?_, ?_⟩
  · intro i tbl₂ hi
    obtain ⟨tbl₁, hi, -⟩ := hcases hi
    exact hs.level_lt i tbl₁ hi
  · intro i tbl₂ hi
    obtain ⟨tbl₁, hi₁, d, rfl⟩ := hcases hi
    have ht := hs.table i tbl₁ hi₁
    exact ⟨ht.two_le, ht.le, ht.buckets, ht.maxkeys, ht.segment, ht.decreasing, ht.placed, ht.level,
      ht.length⟩
  · intro i tbl₂ hi
    obtain ⟨tbl₁, hi₁, d, rfl⟩ := hcases hi
    exact hs.slot i tbl₁ hi₁
  · intro i tbl₂ hi
    obtain ⟨tbl₁, hi₁, d, rfl⟩ := hcases hi
    exact hs.words i tbl₁ hi₁

/-- The sweep of a manager. -/
theorem Kernel.Ok.sweep (hok : k.Ok E n) (hE : E.Valid) (hn : n < E.fuel)
    (hman : k.managers i = some man) :
    ∃ h' man', cddGbcNodemanager E k.levelcnt k.heap man = .done (h', man') ∧
      (k.put i (h', man')).Ok E n ∧ h'.key = k.heap.key ∧
      ∀ j l b, (k.put i (h', man')).Holds j l b ↔
        k.Holds j l b ∧ ¬ (j = i ∧ visited man l = true ∧ k.heap.ref b = 0) := by
  obtain ⟨F, chain, hfree, hs⟩ := hok.manager i man hman
  obtain ⟨h₁, man₁, F', chain', hrun, hfree', hs', hswept⟩ :=
    cddGbcNodemanager_spec hfree hs hn
  have hman₁ := hswept.man_eq
  have hheap := hswept.heap_eq
  set h' : Heap := { h₁ with gbccnt := int32 (k.heap.gbccnt + 1) } with hh'
  set man' : NodeManager := { man₁ with
    freecnt := int32 (man.freecnt + man.deadcnt)
    deadcnt := 0 } with hman'
  have hnodes : man'.nodes = man.nodes := by rw [hman', hman₁]
  have hl : Local E k i h' man' := by
    refine ⟨⟨man.nodes, Or.inl ⟨man, hman, rfl⟩, Or.inl ⟨hnodes, ?_⟩⟩, fun a ha ↦ ⟨?_, ?_, ?_⟩⟩
    · rw [hh', hheap]
    · exact hswept.next_eq a (hnodes ▸ ha)
    · rw [hh', hheap]
    · rw [hh', hheap]
  have hfree₂ : FreeOk (nodeBytes i) h' man' F' := hfree'.congr rfl rfl rfl fun _ _ ↦ rfl
  have hs₂ : StoredOk (nodeBytes i) (keyWords i) k.levelcnt n h' man' F' chain' :=
    hs'.congr rfl rfl rfl (fun _ h ↦ h) (fun _ _ h ↦ h) (fun _ _ _ ↦ rfl) (fun _ _ ↦ rfl)
      (fun _ _ ↦ rfl) le_rfl le_rfl
  refine ⟨h', man', hrun, ?_, by rw [hh', hheap], ?_⟩
  · refine hok.put hE le_rfl hl (hok.fits i man hman) ?_ hfree₂ hs₂
    rw [← hok.hashfunc i man hman, hman', hman₁]
  · intro j l b
    by_cases hj : j = i
    · subst hj
      have hself := Kernel.put_self (k := k) (i := j) (h', man')
      rw [hs.holds_iff hman, StoredOk.holds_iff (k := k.put j _) hs₂ hself]
      obtain ⟨hash, hsub⟩ := hswept.subtables_eq
      unfold InChain
      show (∃ tbl, man₁.subtables l = some tbl ∧ _) ↔ _
      rw [hsub l]
      cases htbl : man.subtables l with
      | none => simp
      | some tbl =>
        have hmem : l ∈ List.range k.levelcnt := List.mem_range.mpr (hs.level_lt l tbl htbl)
        have hchain (m : ℕ) : b ∈ chain' l m ↔
            b ∈ chain l m ∧ ¬ (visited man l = true ∧ k.heap.ref b = 0) := by
          rw [hswept.chain_eq]
          by_cases hv : visited man l = true
          · rw [if_pos ⟨hmem, hv⟩, List.mem_filter]
            simp [dead, hv]
          · rw [if_neg fun h ↦ hv h.2]
            simp [hv]
        have hsize : (if l ∈ List.range k.levelcnt ∧ tbl.deadcnt ≠ 0 then { tbl with
            hash := hash l
            keys := int32 (tbl.keys - tbl.deadcnt)
            deadcnt := 0 } else tbl : SubTable).size = tbl.size := by
          by_cases hdead : l ∈ List.range k.levelcnt ∧ tbl.deadcnt ≠ 0
          · rw [if_pos hdead]
            rfl
          · rw [if_neg hdead]
        simp only [Option.map_some, Option.some.injEq, exists_eq_left', hsize, hchain]
        constructor
        · intro hex
          obtain ⟨m, hm, hb, hnot⟩ := hex
          exact ⟨⟨m, hm, hb⟩, fun h ↦ hnot h.2⟩
        · intro hex
          obtain ⟨⟨m, hm, hb⟩, hnot⟩ := hex
          exact ⟨m, hm, hb, fun h ↦ hnot ⟨trivial, h⟩⟩
    · rw [hl.holds_iff hok hE hj]
      simp [hj]

theorem Kernel.Ok.mono (hok : k.Ok E n) (hn : n ≤ n') : k.Ok E n' where
  manager i man hman := by
    obtain ⟨F, chain, hfree, hs⟩ := hok.manager i man hman
    exact ⟨F, chain, hfree, hs.mono le_rfl hn⟩
  fits := hok.fits
  hashfunc := hok.hashfunc
  chunk := hok.chunk
  apart := hok.apart
  bdd := hok.bdd

theorem bddSearchOf_ok {low high : ℤ} (hlow : 0 < cddRglr low) :
    SearchOk E (keyWords 0) bddHashFunc (bddSearchOf E low high) :=
  bddSearch_ok hlow

theorem cddSearch_nodeBytes {elem : List Elem} {e e' : Elem} {rest : List Elem}
    (helem : elem = e :: e' :: rest) (hpos : 0 < e.child) (hlt : e.child < 2 ^ 64) :
    SearchOk E (keyWords elem.length) (cddHashFunc E (nodeBytes elem.length))
      (cddSearch E elem) := by
  have hlen : elem.length = rest.length + 1 + 1 := by rw [helem]; rfl
  have hwords : keyWords elem.length = 16 * elem.length := by rw [hlen]; rfl
  rw [hwords]
  apply cddSearch_ok helem hpos hlt
  rw [hlen]
  show (16 + 16 * (((rest.length + 1 : ℕ) : ℤ) + 1) - 16) / 16 = ((rest.length + 1 + 1 : ℕ) : ℤ)
  push_cast
  omega

theorem Kernel.call_makeBddNode {low high : ℤ} (hne : low ≠ high) :
    k.call E (.makeBddNode level low high) = (do
      let (_, k') ← k.make E 0 level (bddSearchOf E low high)
      return k') := by
  simp only [Kernel.call, Kernel.cddMakeBddNode, if_neg hne]
  show (do
    let x ← (do
      let (node, k) ← k.make E 0 level (bddSearchOf E low high)
      return (cddNegCond node (cddMask low), k))
    return x.2) = _
  cases k.make E 0 level (bddSearchOf E low high) <;> rfl

theorem Kernel.call_makeCddNode {elem : List Elem} (htwo : 2 ≤ elem.length)
    (hmax : elem.length ≤ k.maxcddsize) (hopen : k.openManager E elem.length = .done k') :
    k.call E (.makeCddNode level elem) = (do
      let (_, k'') ← k'.make E elem.length level (cddSearch E elem)
      return k'') := by
  cases elem with
  | nil => exact absurd htwo (by decide)
  | cons e rest =>
    cases rest with
    | nil =>
      have hone : 2 ≤ 1 := htwo
      omega
    | cons e' rest =>
      show (do return (← k.cddMakeCddNode E level (e :: e' :: rest)).2) = _
      unfold Kernel.cddMakeCddNode
      rw [if_neg (not_lt.mpr hmax)]
      show (do
        let x ← (do
          let k ← k.openManager E (e :: e' :: rest).length
          k.make E (e :: e' :: rest).length level (cddSearch E (e :: e' :: rest)))
        return x.2) = _
      rw [hopen, Run.done_bind]

/-- A call keeps all in order, unless the number of buckets wraps around. -/
theorem Kernel.Ok.call (hok : k.Ok E n) (hE : E.Valid) (hfuel : 4096 ≤ E.fuel)
    (hn : n + 1 < E.fuel) {c : KernelCall} (hlegal : c.Legal k) (hrefills : c.Refills E k) :
    (c.Grows E k → ∃ k', k.call E c = .done k' ∧ k'.Ok E (n + 1)) ∧
      (¬ c.Grows E k → k.call E c = .failed) := by
  have hle : n ≤ n + 1 := Nat.le_succ n
  -- a call that makes a node in a manager which is there
  have hmake {k : Kernel} (hok : k.Ok E n) {i level : ℕ} {S : Search} {man : NodeManager}
      (hman : k.managers i = some man) (hlevel : level < k.levelcnt)
      (hS : SearchOk E (keyWords i) man.hashfunc S) (hrefill : k.RefillsFor i level S) :
      (k.GrowsFor i level S → ∃ a k', k.make E i level S = .done (a, k') ∧ k'.Ok E (n + 1)) ∧
        (¬ k.GrowsFor i level S → k.make E i level S = .failed) := by
    cases hok.make hE hfuel hn hman hlevel hS hrefill with
    | inl hfound =>
      obtain ⟨a, k', hrun, hok', hold, hkey, -⟩ := hfound
      refine ⟨fun _ ↦ ⟨a, k', hrun, hok'.mono hle⟩, fun hnot ↦ ?_⟩
      exact absurd (fun hisnew ↦ absurd hkey (hisnew a hold)) hnot
    | inr hnew =>
      refine ⟨fun hgrow ↦ ?_, hnew.2.2⟩
      obtain ⟨a, k', hrun, hok', -⟩ := hnew.2.1 hgrow
      exact ⟨a, k', hrun, hok'⟩
  cases c with
  | makeBddNode level low high =>
    obtain ⟨hlevel, hlow⟩ := hlegal
    obtain ⟨man, hman⟩ := hok.bdd
    by_cases heq : low = high
    · have hrun : k.call E (.makeBddNode level low high) = .done k := by
        simp only [Kernel.call, Kernel.cddMakeBddNode, if_pos heq]
        rfl
      refine ⟨fun _ ↦ ⟨k, hrun, hok.mono hle⟩, fun hnot ↦ ?_⟩
      exact absurd (fun hne ↦ absurd heq hne) hnot
    · have hhash : man.hashfunc = bddHashFunc := hok.hashfunc 0 man hman
      have hS : SearchOk E (keyWords 0) man.hashfunc (bddSearchOf E low high) :=
        hhash ▸ bddSearchOf_ok hlow
      obtain ⟨hdone, hfailed⟩ := hmake hok hman hlevel hS (hrefills heq)
      refine ⟨fun hgrow ↦ ?_, fun hnot ↦ ?_⟩
      · obtain ⟨a, k', hrun, hok'⟩ := hdone (hgrow heq)
        exact ⟨k', by rw [Kernel.call_makeBddNode heq, hrun]; rfl, hok'⟩
      · rw [Kernel.call_makeBddNode heq, hfailed fun hgrow ↦ hnot fun _ ↦ hgrow]
        rfl
  | makeCddNode level elem =>
    obtain ⟨hlevel, e, rest, helem, hpos, hlt⟩ := hlegal
    by_cases hmax : k.maxcddsize < elem.length
    · have hrun : k.call E (.makeCddNode level elem) = .done k := by
        simp only [Kernel.call, Kernel.cddMakeCddNode, if_pos hmax]
        rfl
      refine ⟨fun _ ↦ ⟨k, hrun, hok.mono hle⟩, fun hnot ↦ ?_⟩
      exact absurd (fun _ hle' ↦ absurd hle' (not_le.mpr hmax)) hnot
    · cases rest with
      | nil =>
        subst helem
        have hrun : k.call E (.makeCddNode level [e]) = .done k := by
          show (do return (← k.cddMakeCddNode E level [e]).2) = _
          unfold Kernel.cddMakeCddNode
          rw [if_neg hmax]
          rfl
        refine ⟨fun _ ↦ ⟨k, hrun, hok.mono hle⟩, fun hnot ↦ ?_⟩
        exact absurd (fun htwo : 2 ≤ 1 ↦ absurd htwo (by decide)) hnot
      | cons e' rest =>
        have htwo : 2 ≤ elem.length := by
          rw [helem]
          show 2 ≤ rest.length + 1 + 1
          omega
        obtain ⟨hfits, hopened⟩ := hrefills htwo (not_lt.mp hmax)
        obtain ⟨k₁, hopen, hok₁, hcnt, -, man, hman⟩ :=
          hok.openManager hE hfuel (by omega : elem.length ≠ 0) hfits
        have hhash : man.hashfunc = cddHashFunc E (nodeBytes elem.length) := by
          rw [hok₁.hashfunc _ man hman, if_neg (by omega)]
        have hS : SearchOk E (keyWords elem.length) man.hashfunc (cddSearch E elem) :=
          hhash ▸ cddSearch_nodeBytes helem hpos hlt
        obtain ⟨hdone, hfailed⟩ := hmake hok₁ hman (hcnt ▸ hlevel) hS (hopened k₁ hopen)
        have hunfold : k.call E (.makeCddNode level elem) = _ :=
          Kernel.call_makeCddNode htwo (not_lt.mp hmax) hopen
        refine ⟨fun hgrow ↦ ?_, fun hnot ↦ ?_⟩
        · obtain ⟨a, k', hrun, hok'⟩ := hdone (hgrow htwo (not_lt.mp hmax) k₁ hopen)
          exact ⟨k', by rw [hunfold, hrun]; rfl, hok'⟩
        · rw [hunfold, hfailed fun hgrow ↦ hnot fun _ _ k₂ hk₂ ↦ ?_]
          · rfl
          · rw [hopen] at hk₂
            cases hk₂
            exact hgrow
  | gbcNodemanager i =>
    refine ⟨fun _ ↦ ?_, fun hnot ↦ absurd trivial hnot⟩
    cases hman : k.managers i with
    | none => exact ⟨k, by simp only [Kernel.call, hman]; rfl, hok.mono hle⟩
    | some man =>
      obtain ⟨h', man', hrun, hok', -⟩ := hok.sweep hE (by omega) hman
      exact ⟨k.put i (h', man'), by simp only [Kernel.call, hman, hrun]; rfl, hok'.mono hle⟩
  | addLevels m =>
    refine ⟨fun _ ↦ ⟨_, rfl, ?_⟩, fun hnot ↦ absurd trivial hnot⟩
    refine ⟨fun i man hman ↦ ?_, hok.fits, hok.hashfunc, hok.chunk, hok.apart, hok.bdd⟩
    obtain ⟨F, chain, hfree, hs⟩ := hok.manager i man hman
    exact ⟨F, chain, hfree, hs.mono (Nat.le_add_right _ _) hle⟩
  | reference ref =>
    refine ⟨fun _ ↦ ⟨_, rfl, ?_⟩, fun hnot ↦ absurd trivial hnot⟩
    refine ⟨fun i man hman ↦ ?_, hok.fits, hok.hashfunc, hok.chunk, hok.apart, hok.bdd⟩
    obtain ⟨F, chain, hfree, hs⟩ := hok.manager i man hman
    exact ⟨F, chain, hfree.congr rfl rfl rfl fun _ _ ↦ rfl,
      hs.frame (fun _ _ ↦ ⟨rfl, rfl, rfl⟩) hle⟩
  | tally i level d =>
    obtain ⟨man, tbl, hman, htbl⟩ := hlegal
    refine ⟨fun _ ↦ ?_, fun hnot ↦ absurd trivial hnot⟩
    refine ⟨_, by simp only [Kernel.call, hman, htbl]; rfl, ?_⟩
    obtain ⟨F, chain, hfree, hs⟩ := hok.manager i man hman
    have hl : Local E k i k.heap { man with
        usedcnt := int32 (man.usedcnt - d)
        deadcnt := int32 (man.deadcnt + d)
        subtables := Function.update man.subtables level
          (some { tbl with deadcnt := int32 (tbl.deadcnt + d) }) } :=
      ⟨⟨man.nodes, Or.inl ⟨man, hman, rfl⟩, Or.inl ⟨rfl, rfl⟩⟩, fun _ _ ↦ ⟨rfl, rfl, rfl⟩⟩
    exact hok.put hE hle hl (hok.fits i man hman) (hok.hashfunc i man hman)
      (hfree.congr rfl rfl rfl fun _ _ ↦ rfl) ((hs.tally htbl _ _ _).mono le_rfl hle)

theorem Kernel.run_cons {c : KernelCall} {cs : List KernelCall} (hcall : k.call E c = .done k') :
    k.run E (c :: cs) = k'.run E cs := by
  rw [Kernel.run, hcall, Run.done_bind]

theorem Kernel.run_append {cs ds : List KernelCall} (hrun : k.run E cs = .done k') :
    k.run E (cs ++ ds) = k'.run E ds := by
  induction cs generalizing k with
  | nil =>
    cases hrun
    rfl
  | cons c cs ih =>
    rw [Kernel.run] at hrun
    obtain ⟨k₁, hcall, hrest⟩ := Run.bind_eq_done hrun
    rw [List.cons_append, Kernel.run_cons hcall]
    exact ih hrest

theorem Kernel.Calls.append {P : Kernel → KernelCall → Prop} {cs ds : List KernelCall}
    (hcs : k.Calls E P cs) (hds : ∀ k', k.run E cs = .done k' → k'.Calls E P ds) :
    k.Calls E P (cs ++ ds) := by
  induction cs generalizing k with
  | nil => exact hds k rfl
  | cons c cs ih =>
    refine ⟨hcs.1, fun k₁ hcall ↦ ih (hcs.2 k₁ hcall) fun k' hrun ↦ ?_⟩
    exact hds k' ((Kernel.run_cons hcall).trans hrun)

/-- What a whole run keeps. -/
theorem Kernel.Ok.run {calls : List KernelCall} (hok : k.Ok E n) (hE : E.Valid)
    (hfuel : 4096 ≤ E.fuel) (hn : n + calls.length < E.fuel)
    (hlegal : k.Calls E (fun k c ↦ c.Legal k) calls)
    (hrefills : k.Calls E (fun k c ↦ c.Refills E k) calls) :
    (k.Calls E (fun k c ↦ c.Grows E k) calls → ∃ k', k.run E calls = .done k') ∧
      ∀ k', k.run E calls = .done k' → k'.Ok E (n + calls.length) := by
  induction calls generalizing k n with
  | nil =>
    refine ⟨fun _ ↦ ⟨k, rfl⟩, fun k' hk' ↦ ?_⟩
    cases hk'
    exact hok
  | cons c calls ih =>
    rw [List.length_cons] at hn ⊢
    obtain ⟨hgrows, hfailed⟩ := hok.call hE hfuel (by omega) hlegal.1 hrefills.1
    constructor
    · intro hall
      obtain ⟨k', hcall, hok'⟩ := hgrows hall.1
      rw [Kernel.run_cons hcall]
      exact (ih hok' (by omega) (hlegal.2 k' hcall) (hrefills.2 k' hcall)).1 (hall.2 k' hcall)
    · intro k' hk'
      by_cases hgrow : c.Grows E k
      · obtain ⟨k₁, hcall, hok₁⟩ := hgrows hgrow
        rw [Kernel.run_cons hcall] at hk'
        have hrest := (ih hok₁ (by omega) (hlegal.2 k₁ hcall) (hrefills.2 k₁ hcall)).2 k' hk'
        exact hrest.mono (by omega)
      · rw [Kernel.run, hfailed hgrow] at hk'
        cases hk'

/-- A run that ends has not made the number of buckets wrap around. -/
theorem Kernel.Ok.run_grows {calls : List KernelCall} (hok : k.Ok E n) (hE : E.Valid)
    (hfuel : 4096 ≤ E.fuel) (hn : n + calls.length < E.fuel)
    (hlegal : k.Calls E (fun k c ↦ c.Legal k) calls)
    (hrefills : k.Calls E (fun k c ↦ c.Refills E k) calls) (hrun : k.run E calls = .done k') :
    k.Calls E (fun k c ↦ c.Grows E k) calls := by
  induction calls generalizing k n with
  | nil => trivial
  | cons c calls ih =>
    rw [List.length_cons] at hn
    obtain ⟨hgrows, hfailed⟩ := hok.call hE hfuel (by omega) hlegal.1 hrefills.1
    have hgrow : c.Grows E k := by
      by_contra hnot
      rw [Kernel.run, hfailed hnot] at hrun
      cases hrun
    refine ⟨hgrow, fun k₁ hcall ↦ ?_⟩
    obtain ⟨k₂, hcall', hok'⟩ := hgrows hgrow
    rw [hcall] at hcall'
    cases hcall'
    rw [Kernel.run_cons hcall] at hrun
    exact ih hok' (by omega) (hlegal.2 k₁ hcall) (hrefills.2 k₁ hcall) hrun

end

end NodeTable

end UCDD

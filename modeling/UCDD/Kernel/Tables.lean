import UCDD.Kernel.FreeList

/-!
# Free lists and chains together

What holds of a node manager at all times: the free list is a chain to `NULL` through nodes of its
chunks, and every bucket of a subtable is a chain to the sentinel with decreasing keys, through
nodes of the level whose hash values lead to the bucket. No node is in two places. A sweep, a new
chunk, and handing out a node keep this.
-/

namespace UCDD

namespace NodeTable

open HashChain Loop Links Counter

/-- The number of buckets that the shift leaves room for. -/
def SubTable.size (tbl : SubTable) : ℕ := 2 ^ (32 - tbl.shift)

/-- The buckets of a subtable are the chains `chain`, of at most `n` nodes. -/
structure TableOk (hashfunc : List ℤ → ℕ) (s : ℤ) (level n : ℕ) (h : Heap) (tbl : SubTable)
    (chain : ℕ → List ℤ) : Prop where
  two_le : 2 ≤ tbl.shift
  le : tbl.shift ≤ 24
  buckets : tbl.buckets = tbl.size
  maxkeys : tbl.maxkeys = int32 (HASH_DENSITY * tbl.buckets)
  segment : ∀ j < tbl.size, Segment h.next s (tbl.hash j) (chain j)
  decreasing : ∀ j < tbl.size, Decreasing h.key (chain j)
  placed : ∀ j < tbl.size, ∀ a ∈ chain j, hashfunc (h.key a) / 2 ^ tbl.shift = j
  level : ∀ j < tbl.size, ∀ a ∈ chain j, h.level a = level
  length : ∀ j < tbl.size, (chain j).length ≤ n

/-- The sentinel and the chains of all subtables of a manager. A node is not on the free list `F`
and in a chain. -/
structure StoredOk (bytes : ℤ) (words levelcnt n : ℕ) (h : Heap) (man : NodeManager) (F : List ℤ)
    (chain : ℕ → ℕ → List ℤ) : Prop where
  hash_lt : ∀ key, man.hashfunc key < 2 ^ 32
  sentinel : IsSlot bytes man.nodes man.sentinel
  sentinel_free : man.sentinel ∉ F
  zero : h.key man.sentinel = List.replicate words 0
  level_lt : ∀ i tbl, man.subtables i = some tbl → i < levelcnt
  table : ∀ i tbl, man.subtables i = some tbl →
    TableOk man.hashfunc man.sentinel i n h tbl (chain i)
  slot : ∀ i tbl, man.subtables i = some tbl → ∀ j < tbl.size, ∀ a ∈ chain i j,
    IsSlot bytes man.nodes a ∧ a ∉ F ∧ a ≠ man.sentinel
  words : ∀ i tbl, man.subtables i = some tbl → ∀ j < tbl.size, ∀ a ∈ chain i j,
    (h.key a).length = words

section

variable {E : Env} {bytes s : ℤ} {words levelcnt level n i j : ℕ} {h h' : Heap}
  {man man' : NodeManager} {tbl : SubTable} {F : List ℤ} {chain : ℕ → ℕ → List ℤ}
  {c : ℕ → List ℤ} {hashfunc : List ℤ → ℕ}

theorem TableOk.flatMap_nodup (ht : TableOk hashfunc s level n h tbl c) :
    ((List.range tbl.size).flatMap c).Nodup := by
  apply List.nodup_flatMap.mpr
  constructor
  · intro j hj
    exact (ht.decreasing j (List.mem_range.mp hj)).nodup
  · apply List.nodup_range.imp_of_mem
    intro j k hj hk hne a ha ha'
    rw [List.mem_range] at hj hk
    exact hne ((ht.placed j hj a ha).symm.trans (ht.placed k hk a ha'))

/-- What a subtable needs of the heap is in its own nodes. -/
theorem TableOk.congr (ht : TableOk hashfunc s level n h tbl c)
    (hnext : ∀ j < tbl.size, ∀ a ∈ c j, h'.next a = h.next a)
    (hkey : ∀ j < tbl.size, ∀ a ∈ c j, h'.key a = h.key a)
    (hlevel : ∀ j < tbl.size, ∀ a ∈ c j, h'.level a = h.level a) :
    TableOk hashfunc s level n h' tbl c where
  two_le := ht.two_le
  le := ht.le
  buckets := ht.buckets
  maxkeys := ht.maxkeys
  segment j hj := (ht.segment j hj).congr (hnext j hj)
  decreasing j hj := (ht.decreasing j hj).congr (hkey j hj)
  placed j hj a ha := by
    rw [hkey j hj a ha]
    exact ht.placed j hj a ha
  level j hj a ha := by
    rw [hlevel j hj a ha]
    exact ht.level j hj a ha
  length := ht.length

/-- Two nodes in chains of different levels are different. -/
theorem StoredOk.ne_of_level (hs : StoredOk bytes words levelcnt n h man F chain) {i' j' : ℕ}
    {tbl' : SubTable} {a : ℤ} (hi : man.subtables i = some tbl) (hi' : man.subtables i' = some tbl')
    (hj : j < tbl.size) (hj' : j' < tbl'.size) (ha : a ∈ chain i j) (ha' : a ∈ chain i' j') :
    i = i' := by
  rw [← (hs.table i tbl hi).level j hj a ha, (hs.table i' tbl' hi').level j' hj' a ha']

/-! ### The sweep of a manager -/

/-- The sweep looks at this subtable. -/
def visited (man : NodeManager) (i : ℕ) : Bool :=
  match man.subtables i with
  | none => false
  | some tbl => decide (tbl.deadcnt ≠ 0)

/-- The nodes that the sweep of the levels in `L` frees. -/
def Freed (ref : ℤ → ℕ) (man : NodeManager) (chain : ℕ → ℕ → List ℤ) (L : List ℕ) (a : ℤ) : Prop :=
  ∃ i ∈ L, ∃ tbl, man.subtables i = some tbl ∧ tbl.deadcnt ≠ 0 ∧
    ∃ j < tbl.size, a ∈ chain i j ∧ ref a = 0

/-- What the sweep of the levels in `L` does to the heap, to the manager, to the free list and to
the chains. -/
structure Swept (bytes : ℤ) (L : List ℕ) (h : Heap) (man : NodeManager) (F : List ℤ)
    (chain : ℕ → ℕ → List ℤ) (h' : Heap) (man' : NodeManager) (F' : List ℤ)
    (chain' : ℕ → ℕ → List ℤ) : Prop where
  heap_eq : h' = { h with next := h'.next }
  man_eq : man' = { man with free := man'.free, subtables := man'.subtables }
  next_eq : ∀ a, ¬ IsSlot bytes man.nodes a → h'.next a = h.next a
  chain_eq : ∀ i j, chain' i j = if i ∈ L ∧ visited man i = true then
    (chain i j).filter fun a ↦ !dead h.ref a else chain i j
  subtables_eq : ∃ hash : ℕ → ℕ → ℤ, ∀ i, man'.subtables i = (man.subtables i).map fun tbl ↦
    if i ∈ L ∧ tbl.deadcnt ≠ 0 then
      { tbl with hash := hash i, keys := int32 (tbl.keys - tbl.deadcnt), deadcnt := 0 }
    else tbl
  free_eq : ∃ D, F' = D ++ F ∧ ∀ a, a ∈ D ↔ Freed h.ref man chain L a

theorem Swept.refl (h : Heap) (man : NodeManager) (F : List ℤ) (chain : ℕ → ℕ → List ℤ) :
    Swept bytes [] h man F chain h man F chain where
  heap_eq := rfl
  man_eq := rfl
  next_eq _ _ := rfl
  chain_eq i j := by simp
  subtables_eq := ⟨fun _ _ ↦ 0, fun i ↦ by simp⟩
  free_eq := ⟨[], rfl, fun a ↦ by simp [Freed]⟩

/-- A subtable that the sweep passes over. -/
theorem sweepTable_of_not_visited (hi : visited man i = false) :
    sweepTable E (h, man) i = .done (h, man) := by
  unfold visited at hi
  unfold sweepTable
  cases htbl : man.subtables i with
  | none => rfl
  | some tbl =>
    rw [htbl] at hi
    have hzero : tbl.deadcnt = 0 := by simpa using hi
    simp [hzero]

theorem Swept.of_not_visited (hi : visited man i = false) :
    Swept bytes [i] h man F chain h man F chain where
  heap_eq := rfl
  man_eq := rfl
  next_eq _ _ := rfl
  chain_eq k j := by
    have hnot : ¬ (k ∈ [i] ∧ visited man k = true) := by
      rw [List.mem_singleton]
      rintro ⟨rfl, hk⟩
      rw [hi] at hk
      cases hk
    rw [if_neg hnot]
  subtables_eq := by
    refine ⟨fun _ _ ↦ 0, fun k ↦ ?_⟩
    cases htbl : man.subtables k with
    | none => rfl
    | some tbl =>
      rw [Option.map_some, if_neg]
      rintro ⟨hk, hdead⟩
      rw [List.mem_singleton] at hk
      subst hk
      rw [visited, htbl] at hi
      exact hdead (by simpa using hi)
  free_eq := by
    refine ⟨[], rfl, fun a ↦ ⟨fun ha ↦ (List.not_mem_nil ha).elim, fun ha ↦ ?_⟩⟩
    obtain ⟨k, hk, tbl, htbl, hdead, -⟩ := ha
    rw [List.mem_singleton] at hk
    subst hk
    rw [visited, htbl] at hi
    exact absurd (by simpa using hi) hdead

theorem visited_iff : visited man i = true ↔
    ∃ tbl, man.subtables i = some tbl ∧ tbl.deadcnt ≠ 0 := by
  unfold visited
  cases htbl : man.subtables i with
  | none => simp
  | some tbl => simp

/-- The sweep of one subtable. -/
theorem sweepTable_spec (hfree : FreeOk bytes h man F)
    (hs : StoredOk bytes words levelcnt n h man F chain) (hfuel : n < E.fuel) (i : ℕ) :
    ∃ h' man' F' chain', sweepTable E (h, man) i = .done (h', man') ∧
      FreeOk bytes h' man' F' ∧ StoredOk bytes words levelcnt n h' man' F' chain' ∧
      Swept bytes [i] h man F chain h' man' F' chain' := by
  cases hv : visited man i with
  | false =>
    exact ⟨h, man, F, chain, sweepTable_of_not_visited hv, hfree, hs, .of_not_visited hv⟩
  | true =>
    obtain ⟨tbl, htbl, hdead⟩ := visited_iff.mp hv
    have ht := hs.table i tbl htbl
    have hslot := hs.slot i tbl htbl
    have hmem {a : ℤ} : a ∈ (List.range tbl.size).flatMap (chain i) ↔
        ∃ j < tbl.size, a ∈ chain i j := by
      simp [List.mem_flatMap]
    obtain ⟨m, free, hrun, hseg, hfree', hhead, hnext⟩ := sweepBuckets_spec (E := E) h.ref
      (s := man.sentinel) (m := ⟨tbl.hash, h.next⟩) List.nodup_range
      (fun j hj ↦ ht.segment j (List.mem_range.mp hj))
      (fun hmem' ↦ by
        obtain ⟨j, hj, ha⟩ := hmem.mp hmem'
        exact (hslot j hj _ ha).2.2 rfl)
      ht.flatMap_nodup hfree.segment
      (fun a ha ↦ by
        obtain ⟨j, hj, ha⟩ := hmem.mp ha
        exact (hslot j hj a ha).2.1)
      (fun j hj ↦ lt_of_le_of_lt (ht.length j (List.mem_range.mp hj)) hfuel)
    set D := (((List.range tbl.size).flatMap (chain i)).filter (dead h.ref)).reverse with hD
    have hmemD {a : ℤ} : a ∈ D ↔ (∃ j < tbl.size, a ∈ chain i j) ∧ h.ref a = 0 := by
      rw [hD, List.mem_reverse, List.mem_filter, hmem]
      simp [dead]
    set tbl' : SubTable := { tbl with
      hash := m.head
      keys := int32 (tbl.keys - tbl.deadcnt)
      deadcnt := 0 } with htbl'
    set man' : NodeManager := { man with
      free := free
      subtables := Function.update man.subtables i (some tbl') } with hman'
    set h' : Heap := { h with next := m.next } with hh'
    set chain' : ℕ → ℕ → List ℤ := Function.update chain i
      (fun j ↦ (chain i j).filter fun a ↦ !dead h.ref a) with hchain'
    have hself : chain' i = fun j ↦ (chain i j).filter fun a ↦ !dead h.ref a :=
      Function.update_self i _ _
    have hother (k : ℕ) (hk : k ≠ i) : chain' k = chain k := Function.update_of_ne hk _ _
    have hsub (k : ℕ) (tbl₂ : SubTable) (hk : man'.subtables k = some tbl₂) :
        (k = i ∧ tbl₂ = tbl') ∨ (k ≠ i ∧ man.subtables k = some tbl₂) := by
      by_cases heq : k = i
      · subst heq
        rw [hman'] at hk
        simp only [Function.update_self, Option.some.injEq] at hk
        exact Or.inl ⟨rfl, hk.symm⟩
      · rw [hman'] at hk
        simp only [Function.update_of_ne heq] at hk
        exact Or.inr ⟨heq, hk⟩
    have hchain_sub (k j : ℕ) (a : ℤ) (ha : a ∈ chain' k j) : a ∈ chain k j := by
      by_cases heq : k = i
      · subst heq
        rw [hself] at ha
        exact List.mem_of_mem_filter ha
      · rwa [hother k heq] at ha
    refine ⟨h', man', D ++ F, chain', ?_, ?_, ?_, ?_⟩
    · have hbuckets : tbl.buckets.toNat = tbl.size := by
        rw [ht.buckets]
        rfl
      simp only [sweepTable, htbl, hdead, if_false, hbuckets, hrun]
      rfl
    · refine ⟨hfree.nodesize, hfree.chunk, hfree', ?_, ?_⟩
      · apply List.nodup_append.mpr
        refine ⟨List.nodup_reverse.mpr (ht.flatMap_nodup.filter _), hfree.nodup, ?_⟩
        intro a ha b hb heq
        subst heq
        obtain ⟨⟨j, hj, ha⟩, -⟩ := hmemD.mp ha
        exact (hslot j hj a ha).2.1 hb
      · intro a ha
        cases List.mem_append.mp ha with
        | inl ha =>
          obtain ⟨⟨j, hj, ha⟩, -⟩ := hmemD.mp ha
          exact (hslot j hj a ha).1
        | inr ha => exact hfree.slot a ha
    · have hfar (k : ℕ) (hk : k ≠ i) (tbl₂ : SubTable) (htbl₂ : man.subtables k = some tbl₂)
          (j : ℕ) (hj : j < tbl₂.size) (a : ℤ) (ha : a ∈ chain k j) :
          ¬ ∃ j < tbl.size, a ∈ chain i j := by
        intro hex
        obtain ⟨j', hj', ha'⟩ := hex
        exact hk (hs.ne_of_level htbl₂ htbl hj hj' ha ha')
      have hD' (k j : ℕ) (tbl₂ : SubTable) (hk : man'.subtables k = some tbl₂) (hj : j < tbl₂.size)
          (a : ℤ) (ha : a ∈ chain' k j) : a ∉ D := by
        intro hmem'
        obtain ⟨hex, hzero⟩ := hmemD.mp hmem'
        cases hsub k tbl₂ hk with
        | inl heq =>
          rw [heq.1, hself] at ha
          have halive := (List.mem_filter.mp ha).2
          simp [dead, hzero] at halive
        | inr hne =>
          rw [hother k hne.1] at ha
          exact hfar k hne.1 tbl₂ hne.2 j hj a ha hex
      refine ⟨hs.hash_lt, hs.sentinel, ?_, hs.zero, ?_, ?_, ?_, ?_⟩
      · rw [List.mem_append, not_or]
        refine ⟨fun hmem' ↦ ?_, hs.sentinel_free⟩
        obtain ⟨⟨j, hj, ha⟩, -⟩ := hmemD.mp hmem'
        exact (hslot j hj _ ha).2.2 rfl
      · intro k tbl₂ hk
        cases hsub k tbl₂ hk with
        | inl heq => exact heq.1 ▸ hs.level_lt i tbl htbl
        | inr hne => exact hs.level_lt k tbl₂ hne.2
      · intro k tbl₂ hk
        cases hsub k tbl₂ hk with
        | inl heq =>
          rw [heq.1, heq.2, hself]
          refine ⟨ht.two_le, ht.le, ht.buckets, ht.maxkeys, ?_, ?_, ?_, ?_, ?_⟩
          · intro j hj
            exact hseg j (List.mem_range.mpr hj)
          · intro j hj
            exact (ht.decreasing j hj).sublist List.filter_sublist
          · intro j hj a ha
            exact ht.placed j hj a (List.mem_of_mem_filter ha)
          · intro j hj a ha
            exact ht.level j hj a (List.mem_of_mem_filter ha)
          · intro j hj
            exact le_trans (List.length_filter_le _ _) (ht.length j hj)
        | inr hne =>
          rw [hother k hne.1]
          refine (hs.table k tbl₂ hne.2).congr ?_ (fun _ _ _ _ ↦ rfl) (fun _ _ _ _ ↦ rfl)
          intro j hj a ha
          apply hnext
          intro hmem'
          exact hfar k hne.1 tbl₂ hne.2 j hj a ha (hmem.mp hmem')
      · intro k tbl₂ hk j hj a ha
        have hold : IsSlot bytes man.nodes a ∧ a ∉ F ∧ a ≠ man.sentinel := by
          cases hsub k tbl₂ hk with
          | inl heq =>
            rw [heq.2] at hj
            exact hslot j hj a (heq.1 ▸ hchain_sub k j a ha)
          | inr hne => exact hs.slot k tbl₂ hne.2 j hj a (hchain_sub k j a ha)
        refine ⟨hold.1, ?_, hold.2.2⟩
        rw [List.mem_append, not_or]
        exact ⟨hD' k j tbl₂ hk hj a ha, hold.2.1⟩
      · intro k tbl₂ hk j hj a ha
        cases hsub k tbl₂ hk with
        | inl heq =>
          rw [heq.2] at hj
          exact hs.words i tbl htbl j hj a (heq.1 ▸ hchain_sub k j a ha)
        | inr hne => exact hs.words k tbl₂ hne.2 j hj a (hchain_sub k j a ha)
    · refine ⟨rfl, rfl, ?_, ?_, ?_, ?_⟩
      · intro a ha
        apply hnext
        intro hmem'
        obtain ⟨j, hj, hmem'⟩ := hmem.mp hmem'
        exact ha (hslot j hj a hmem').1
      · intro k j
        by_cases heq : k = i
        · subst heq
          rw [hself, if_pos ⟨List.mem_singleton_self k, hv⟩]
        · rw [hother k heq, if_neg]
          intro hk
          exact heq (List.mem_singleton.mp hk.1)
      · refine ⟨fun _ ↦ m.head, fun k ↦ ?_⟩
        by_cases heq : k = i
        · subst heq
          have hself' : man'.subtables k = some tbl' := Function.update_self k _ _
          rw [hself', htbl, Option.map_some, if_pos ⟨List.mem_singleton_self k, hdead⟩]
        · have hother' : man'.subtables k = man.subtables k := Function.update_of_ne heq _ _
          rw [hother']
          cases man.subtables k with
          | none => rfl
          | some tbl₂ =>
            rw [Option.map_some, if_neg]
            intro hk
            exact heq (List.mem_singleton.mp hk.1)
      · refine ⟨D, rfl, fun a ↦ ?_⟩
        rw [hmemD]
        constructor
        · intro ha
          obtain ⟨⟨j, hj, ha⟩, hzero⟩ := ha
          exact ⟨i, List.mem_singleton_self i, tbl, htbl, hdead, j, hj, ha, hzero⟩
        · intro ha
          obtain ⟨k, hk, tbl₂, htbl₂, -, j, hj, ha, hzero⟩ := ha
          rw [List.mem_singleton] at hk
          subst hk
          rw [htbl] at htbl₂
          cases htbl₂
          exact ⟨⟨j, hj, ha⟩, hzero⟩

theorem Swept.visited_eq {L : List ℕ} {F' : List ℤ} {chain' : ℕ → ℕ → List ℤ}
    (h₁ : Swept bytes L h man F chain h' man' F' chain') {k : ℕ} (hk : k ∉ L) :
    man'.subtables k = man.subtables k ∧ visited man' k = visited man k ∧
      ∀ j, chain' k j = chain k j := by
  obtain ⟨hash, hsub⟩ := h₁.subtables_eq
  have hsame : man'.subtables k = man.subtables k := by
    rw [hsub k]
    cases man.subtables k with
    | none => rfl
    | some tbl => rw [Option.map_some, if_neg fun hkL ↦ hk hkL.1]
  refine ⟨hsame, by simp only [visited, hsame], fun j ↦ ?_⟩
  rw [h₁.chain_eq, if_neg fun hkL ↦ hk hkL.1]

/-- One level after the other. -/
theorem Swept.cons {L : List ℕ} {h₁ h₂ : Heap} {man₁ man₂ : NodeManager} {F₁ F₂ : List ℤ}
    {chain₁ chain₂ : ℕ → ℕ → List ℤ} (hi : i ∉ L)
    (hfirst : Swept bytes [i] h man F chain h₁ man₁ F₁ chain₁)
    (hrest : Swept bytes L h₁ man₁ F₁ chain₁ h₂ man₂ F₂ chain₂) :
    Swept bytes (i :: L) h man F chain h₂ man₂ F₂ chain₂ := by
  have hnodes : man₁.nodes = man.nodes := by rw [hfirst.man_eq]
  have href : h₁.ref = h.ref := by rw [hfirst.heap_eq]
  have hne {k : ℕ} (hk : k ∈ L) : k ∉ [i] := by
    rw [List.mem_singleton]
    intro heq
    exact hi (heq ▸ hk)
  refine ⟨?_, ?_, ?_, ?_, ?_, ?_⟩
  · rw [hrest.heap_eq, hfirst.heap_eq]
  · rw [hrest.man_eq, hfirst.man_eq]
  · intro a ha
    rw [hrest.next_eq a (hnodes ▸ ha), hfirst.next_eq a ha]
  · intro k j
    rw [hrest.chain_eq, hfirst.chain_eq, href]
    by_cases hk : k ∈ L
    · rw [(hfirst.visited_eq (hne hk)).2.1, if_neg (c := k ∈ [i] ∧ _) fun hki ↦ hne hk hki.1]
      simp [hk]
    · simp [hk]
  · obtain ⟨hash₁, hsub₁⟩ := hfirst.subtables_eq
    obtain ⟨hash₂, hsub₂⟩ := hrest.subtables_eq
    refine ⟨fun k ↦ if k ∈ L then hash₂ k else hash₁ k, fun k ↦ ?_⟩
    rw [hsub₂, hsub₁, Option.map_map]
    congr 1
    funext tbl
    by_cases hk : k ∈ L
    · have hki : k ≠ i := fun heq ↦ hi (heq ▸ hk)
      simp [hk, hki]
    · simp [hk]
  · obtain ⟨D₁, hF₁, hD₁⟩ := hfirst.free_eq
    obtain ⟨D₂, hF₂, hD₂⟩ := hrest.free_eq
    refine ⟨D₂ ++ D₁, by rw [hF₂, hF₁, List.append_assoc], fun a ↦ ?_⟩
    rw [List.mem_append, hD₁, hD₂, href]
    constructor
    · rintro (⟨k, hk, tbl, htbl, hrest'⟩ | ⟨k, hk, hrest'⟩)
      · obtain ⟨hsame, -, hchain⟩ := hfirst.visited_eq (hne hk)
        rw [hsame] at htbl
        simp only [hchain] at hrest'
        exact ⟨k, List.mem_cons_of_mem _ hk, tbl, htbl, hrest'⟩
      · rw [List.mem_singleton] at hk
        exact ⟨k, hk ▸ List.mem_cons_self, hrest'⟩
    · rintro ⟨k, hk, tbl, htbl, hrest'⟩
      cases List.mem_cons.mp hk with
      | inl heq => exact Or.inr ⟨k, List.mem_singleton.mpr heq, tbl, htbl, hrest'⟩
      | inr hk =>
        obtain ⟨hsame, -, hchain⟩ := hfirst.visited_eq (hne hk)
        refine Or.inl ⟨k, hk, tbl, hsame ▸ htbl, ?_⟩
        simp only [hchain]
        exact hrest'

/-- The sweep of the levels in a list. -/
theorem sweepTables_spec {L : List ℕ} (hL : L.Nodup) (hfree : FreeOk bytes h man F)
    (hs : StoredOk bytes words levelcnt n h man F chain) (hfuel : n < E.fuel) :
    ∃ h' man' F' chain', L.foldlM (sweepTable E) (h, man) = .done (h', man') ∧
      FreeOk bytes h' man' F' ∧ StoredOk bytes words levelcnt n h' man' F' chain' ∧
      Swept bytes L h man F chain h' man' F' chain' := by
  induction L generalizing h man F chain with
  | nil => exact ⟨h, man, F, chain, rfl, hfree, hs, .refl h man F chain⟩
  | cons i L ih =>
    rw [List.nodup_cons] at hL
    obtain ⟨h₁, man₁, F₁, chain₁, hrun₁, hfree₁, hs₁, hswept₁⟩ := sweepTable_spec hfree hs hfuel i
    obtain ⟨h₂, man₂, F₂, chain₂, hrun₂, hfree₂, hs₂, hswept₂⟩ := ih hL.2 hfree₁ hs₁
    refine ⟨h₂, man₂, F₂, chain₂, ?_, hfree₂, hs₂, hswept₁.cons hL.1 hswept₂⟩
    rw [List.foldlM_cons, hrun₁]
    exact hrun₂

/-- `cdd_gbc_nodemanager` frees the dead nodes of the subtables in which nodes have died. -/
theorem cddGbcNodemanager_spec (hfree : FreeOk bytes h man F)
    (hs : StoredOk bytes words levelcnt n h man F chain) (hfuel : n < E.fuel) :
    ∃ h₁ man₁ F' chain', cddGbcNodemanager E levelcnt h man =
        .done ({ h₁ with gbccnt := int32 (h.gbccnt + 1) },
          { man₁ with freecnt := int32 (man.freecnt + man.deadcnt), deadcnt := 0 }) ∧
      FreeOk bytes h₁ man₁ F' ∧ StoredOk bytes words levelcnt n h₁ man₁ F' chain' ∧
      Swept bytes (List.range levelcnt) h man F chain h₁ man₁ F' chain' := by
  obtain ⟨h₁, man₁, F', chain', hrun, hfree', hs', hswept⟩ :=
    sweepTables_spec (E := E) (L := List.range levelcnt) List.nodup_range hfree hs hfuel
  refine ⟨h₁, man₁, F', chain', ?_, hfree', hs', hswept⟩
  have hgbc : h₁.gbccnt = h.gbccnt := by rw [hswept.heap_eq]
  have hcnt : man₁.freecnt = man.freecnt ∧ man₁.deadcnt = man.deadcnt := by
    rw [hswept.man_eq]
    exact ⟨rfl, rfl⟩
  rw [cddGbcNodemanager, hrun, ← hgbc, ← hcnt.1, ← hcnt.2]
  rfl

end

end NodeTable

end UCDD

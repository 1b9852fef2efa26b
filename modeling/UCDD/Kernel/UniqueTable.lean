import UCDD.Kernel.AllocNode

/-!
# The unique table in a run

What `kernel.c:324–848` keeps in every run: each node is in its bucket, the chains are in order, and
there are as many buckets as the shift says. So a search finds what is there, a rehash moves nothing,
and a sweep takes what is dead. It stops where the number of buckets is doubled once too often.
-/

namespace UCDD

namespace NodeTable

open HashChain Loop Links Counter

/-- Every bucket of a subtable is a chain to the sentinel with decreasing keys, of nodes whose hash
values lead to the bucket, and there are as many buckets as the shift says. -/
structure SubTable.Intact (hashfunc : List ℤ → ℕ) (h : Heap) (sentinel : ℤ) (tbl : SubTable)
    (chain : ℕ → List ℤ) : Prop where
  buckets : tbl.buckets = 2 ^ (32 - tbl.shift)
  segment : ∀ j < 2 ^ (32 - tbl.shift), Segment h.next sentinel (tbl.hash j) (chain j)
  sentinel : ∀ j < 2 ^ (32 - tbl.shift), sentinel ∉ chain j
  decreasing : ∀ j < 2 ^ (32 - tbl.shift), (chain j).Pairwise fun a b ↦ h.key b < h.key a
  placed : ∀ j < 2 ^ (32 - tbl.shift), ∀ a ∈ chain j, hashfunc (h.key a) / 2 ^ tbl.shift = j

/-- The searches of `cdd_make_bdd_node` and of `cdd_make_cdd_node` in the subtables of a manager. -/
def IsSearch (E : Env) (i : ℕ) (S : Search) : Prop :=
  (i = 0 ∧ ∃ low high, 0 < cddRglr low ∧ S = bddSearchOf E low high) ∨
    ∃ e e' rest, i = (e :: e' :: rest).length ∧ 0 < e.child ∧ e.child < 2 ^ 64 ∧
      S = cddSearch E (e :: e' :: rest)

/-- No subtable loses a node or has it in a wrong place. -/
structure Kernel.UniqueTable (E : Env) (k : Kernel) : Prop where
  tables : ∀ i man level tbl, k.managers i = some man → man.subtables level = some tbl →
    ∃ chain, tbl.Intact man.hashfunc k.heap man.sentinel chain
  lookup : ∀ i man level tbl S, k.managers i = some man → man.subtables level = some tbl →
    IsSearch E i S → ∃ p, findNode tbl S k.heap = .done p ∧
      ∀ a, (k.Holds i level a ∧ k.heap.key a = S.key) ↔
        ((Links.mk tbl.hash k.heap.next).get p = a ∧ k.heap.key a = S.key)
  make : ∀ i man level S, k.managers i = some man → level < k.levelcnt → IsSearch E i S →
    k.RefillsFor i level S → k.GrowsFor i level S →
    ∃ a k', k.make E i level S = .done (a, k') ∧ k'.Holds i level a ∧ k'.heap.key a = S.key ∧
      ∀ j l b, k.Holds j l b →
        k'.Holds j l b ∨ (j = i ∧ Collected (refChildren k.heap S).ref man l b)
  rehash : ∀ i man level tbl chain, k.managers i = some man → man.subtables level = some tbl →
    tbl.Intact man.hashfunc k.heap man.sentinel chain → tbl.buckets ≠ 2 ^ 30 →
    ∃ h' tbl' chain', cddRehash E k.heap man tbl = .done (h', tbl') ∧
      tbl'.shift + 1 = tbl.shift ∧ tbl'.Intact man.hashfunc h' man.sentinel chain' ∧
      ∀ j < 2 ^ (32 - tbl.shift), ∃ f : ℤ → Bool,
        chain' (2 * j) = (chain j).filter (fun a ↦ !f a) ∧
        chain' (2 * j + 1) = (chain j).filter f
  sweep : ∀ i man, k.managers i = some man →
    ∃ k', k.call E (.gbcNodemanager i) = .done k' ∧ ∀ j l b, k'.Holds j l b ↔
      k.Holds j l b ∧ ¬ (j = i ∧ visited man l = true ∧ k.heap.ref b = 0)

section

variable {E : Env} {bytes s a b node : ℤ} {words levelcnt level n i j : ℕ} {h h' : Heap}
  {man man' : NodeManager} {tbl : SubTable} {F F' : List ℤ} {chain chain' : ℕ → ℕ → List ℤ}
  {c : ℕ → List ℤ} {S : Search} {hashfunc : List ℤ → ℕ} {k k' : Kernel} {calls : List KernelCall}

theorem TableOk.intact (ht : TableOk hashfunc s level n h tbl c)
    (hs : ∀ j < tbl.size, s ∉ c j) : tbl.Intact hashfunc h s c where
  buckets := by
    rw [ht.buckets, SubTable.size]
    push_cast
    rfl
  segment := ht.segment
  sentinel := hs
  decreasing := ht.decreasing
  placed := ht.placed

theorem StoredOk.sentinel_not_mem (hs : StoredOk bytes words levelcnt n h man F chain)
    (htbl : man.subtables level = some tbl) : ∀ j < tbl.size, man.sentinel ∉ chain level j :=
  fun j hj hmem ↦ (hs.slot level tbl htbl j hj _ hmem).2.2 rfl

theorem IsSearch.ok (hsearch : IsSearch E i S) (hok : k.Ok E n) (hman : k.managers i = some man) :
    SearchOk E (keyWords i) man.hashfunc S := by
  rw [hok.hashfunc i man hman]
  cases hsearch with
  | inl hbdd =>
    obtain ⟨rfl, low, high, hlow, rfl⟩ := hbdd
    exact bddSearchOf_ok hlow
  | inr hcdd =>
    obtain ⟨e, e', rest, rfl, hpos, hlt, rfl⟩ := hcdd
    exact cddSearch_nodeBytes rfl hpos hlt

theorem Kernel.Ok.lookup (hok : k.Ok E n) (hn : n < E.fuel) (hman : k.managers i = some man)
    (htbl : man.subtables level = some tbl) (hS : SearchOk E (keyWords i) man.hashfunc S) :
    ∃ p, findNode tbl S k.heap = .done p ∧
      ∀ a, (k.Holds i level a ∧ k.heap.key a = S.key) ↔
        ((Links.mk tbl.hash k.heap.next).get p = a ∧ k.heap.key a = S.key) := by
  obtain ⟨F, chain, -, hs⟩ := hok.manager i man hman
  obtain ⟨hj, hfind, node, hget, hmem, hall⟩ := findNode_spec hs htbl hS hn
  refine ⟨_, hfind, fun a ↦ ?_⟩
  rw [hget, hs.holds_iff hman]
  constructor
  · intro hstored
    exact ⟨(hall a hstored.1 hstored.2).symm, hstored.2⟩
  · intro hfound
    obtain ⟨rfl, hkey⟩ := hfound
    exact ⟨⟨tbl, htbl, _, hj, hmem hkey⟩, hkey⟩

/-- The chains of a subtable are determined by its buckets. -/
theorem SubTable.Intact.eq (hi : tbl.Intact hashfunc h s c) {c' : ℕ → List ℤ}
    (hi' : tbl.Intact hashfunc h s c') : ∀ j < tbl.size, c j = c' j := fun j hj ↦
  (hi.segment j hj).unique (hi'.segment j hj) (hi.sentinel j hj) (hi'.sentinel j hj)

theorem Kernel.Ok.rehash (hok : k.Ok E n) (hn : n < E.fuel) (hman : k.managers i = some man)
    (htbl : man.subtables level = some tbl) (hi : tbl.Intact man.hashfunc k.heap man.sentinel c)
    (hbuckets : tbl.buckets ≠ 2 ^ 30) :
    ∃ h' tbl' chain', cddRehash E k.heap man tbl = .done (h', tbl') ∧
      tbl'.shift + 1 = tbl.shift ∧ tbl'.Intact man.hashfunc h' man.sentinel chain' ∧
      ∀ j < 2 ^ (32 - tbl.shift), ∃ f : ℤ → Bool,
        chain' (2 * j) = (c j).filter (fun a ↦ !f a) ∧ chain' (2 * j + 1) = (c j).filter f := by
  obtain ⟨F, chain, -, hs⟩ := hok.manager i man hman
  have ht := hs.table level tbl htbl
  have hsent := hs.sentinel_not_mem htbl
  have htwo := ht.two_le
  have hshift : 3 ≤ tbl.shift := by
    by_contra hlt
    apply hbuckets
    have heq : tbl.shift = 2 := by omega
    rw [ht.buckets, SubTable.size, heq]
    norm_num
  obtain ⟨h', tbl', hrun, -, hshift', -, -, ht', -⟩ := cddRehash_spec ht hsent hshift hn
  have hsize : tbl'.size = 2 * tbl.size := by
    have hle := ht.le
    have hexp : 32 - (tbl.shift - 1) = (32 - tbl.shift) + 1 := by omega
    rw [SubTable.size, SubTable.size, hshift', hexp, pow_succ, mul_comm]
  refine ⟨h', tbl', _, hrun, by omega, ht'.intact fun j hj hmem ↦ ?_, fun j hj ↦ ?_⟩
  · exact hsent (j / 2) (by omega) (mem_splitChain.mp hmem).1
  · have hsame : c j = chain level j := hi.eq (ht.intact hsent) j hj
    refine ⟨upper (newBucket man.hashfunc k.heap tbl), ?_, ?_⟩
    · have hdiv : 2 * j / 2 = j := by omega
      rw [splitChain, if_neg (by omega), hdiv, hsame]
    · have hdiv : (2 * j + 1) / 2 = j := by omega
      rw [splitChain, if_pos (by omega), hdiv, hsame]

theorem Kernel.Ok.uniqueTable (hok : k.Ok E n) (hE : E.Valid) (hfuel : 4096 ≤ E.fuel)
    (hn : n + 1 < E.fuel) : k.UniqueTable E where
  tables i man level tbl hman htbl := by
    obtain ⟨F, chain, -, hs⟩ := hok.manager i man hman
    exact ⟨chain level, (hs.table level tbl htbl).intact (hs.sentinel_not_mem htbl)⟩
  lookup i man level tbl S hman htbl hsearch :=
    hok.lookup (by omega) hman htbl (hsearch.ok hok hman)
  make i man level S hman hlevel hsearch hrefill hgrow := by
    cases hok.make hE hfuel hn hman hlevel (hsearch.ok hok hman) hrefill with
    | inl hfound =>
      obtain ⟨a, k', hrun, -, hold, hkey, hheap, hsame⟩ := hfound
      refine ⟨a, k', hrun, (hsame i level a).mpr hold, hheap ▸ hkey, fun j l b hb ↦ ?_⟩
      exact Or.inl ((hsame j l b).mpr hb)
    | inr hnew =>
      obtain ⟨a, k', hrun, -, hkey, hholds⟩ := hnew.2.1 hgrow
      refine ⟨a, k', hrun, (hholds i level a).mpr (Or.inl ⟨rfl, rfl, rfl⟩), ?_, fun j l b hb ↦ ?_⟩
      · rw [hkey, Function.update_self]
      · by_cases hcol : j = i ∧ Collected (refChildren k.heap S).ref man l b
        · exact Or.inr hcol
        · exact Or.inl ((hholds j l b).mpr (Or.inr ⟨hb, hcol⟩))
  rehash i man level tbl chain hman htbl hi hbuckets :=
    hok.rehash (by omega) hman htbl hi hbuckets
  sweep i man hman := by
    obtain ⟨h', man', hrun, -, -, hholds⟩ := hok.sweep hE (by omega) hman
    refine ⟨k.put i (h', man'), ?_, hholds⟩
    simp only [Kernel.call, hman, hrun]
    rfl

/-- In a run whose allocations all find a node, the unique table is intact in every state, and the
run goes on as long as no subtable with `2 ^ 30` buckets is rehashed. -/
theorem uniqueTable_run (hE : E.Valid) (hfuel : 4096 + calls.length < E.fuel) {h₀ : Heap}
    {maxsize : ℕ} {k₀ : Kernel} (hinit : Kernel.init E h₀ maxsize = .done k₀)
    (hlegal : k₀.Calls E (fun k c ↦ c.Legal k) calls)
    (hrefills : k₀.Calls E (fun k c ↦ c.Refills E k) calls) :
    ((∃ k, k₀.run E calls = .done k) ↔ k₀.Calls E (fun k c ↦ c.Grows E k) calls) ∧
      ∀ k, k₀.run E calls = .done k → k.UniqueTable E := by
  obtain ⟨k₁, hinit', hok, -⟩ := Kernel.init_spec hE (by omega) h₀ maxsize
  rw [hinit] at hinit'
  cases hinit'
  obtain ⟨hdone, hkept⟩ := hok.run hE (by omega) (by omega) hlegal hrefills
  refine ⟨⟨fun hex ↦ ?_, hdone⟩, fun k hrun ↦ ?_⟩
  · obtain ⟨k, hrun⟩ := hex
    exact hok.run_grows hE (by omega) (by omega) hlegal hrefills hrun
  · exact (hkept k hrun).uniqueTable hE (by omega) (by omega)

/-- The first BDD node, and a sweep. -/
theorem uniqueTable_pages : ∃ k₀ k, Kernel.init (pages fun _ _ ↦ 0) zeros 2 = .done k₀ ∧
    k₀.run (pages fun _ _ ↦ 0) [.addLevels 1, .makeBddNode 0 65616 65649, .gbcNodemanager 0] =
      .done k ∧ k.UniqueTable (pages fun _ _ ↦ 0) := by
  set E := pages fun _ _ ↦ 0 with hdef
  have hE : E.Valid := pages_valid _
  set calls : List KernelCall :=
    [.addLevels 1, .makeBddNode 0 65616 65649, .gbcNodemanager 0] with hcalls
  have hfuel : 4096 + calls.length < E.fuel := by
    show 4096 + 3 < 2 ^ 40
    norm_num
  obtain ⟨k₀, hinit, -, hcnt, -⟩ := Kernel.init_spec hE (by omega) zeros 2
  obtain ⟨man, hman, hcalm, hsub⟩ := Kernel.init_counts hinit
  have hlegal : k₀.Calls E (fun k c ↦ c.Legal k) calls := by
    refine ⟨trivial, fun k hk ↦ ⟨⟨?_, by decide⟩, fun k _ ↦ ⟨trivial, fun k _ ↦ trivial⟩⟩⟩
    cases hk
    exact Nat.lt_add_left _ Nat.zero_lt_one
  have hrefills : k₀.Calls E (fun k c ↦ c.Refills E k) calls := by
    refine ⟨trivial, fun k hk ↦ ⟨fun _ _ man' hman' ↦ ?_, fun k _ ↦ ⟨trivial, fun k _ ↦ trivial⟩⟩⟩
    cases hk
    have heq : man' = man := Option.some.inj (hman'.symm.trans hman)
    rw [heq]
    exact (hcalm.openSubtable 0).refills (by norm_num) (by decide)
  have hgrows : k₀.Calls E (fun k c ↦ c.Grows E k) calls := by
    refine ⟨trivial, fun k hk ↦ ⟨fun _ _ man' hman' hover ↦ ?_,
      fun k _ ↦ ⟨trivial, fun k _ ↦ trivial⟩⟩⟩
    cases hk
    have heq : man' = man := Option.some.inj (hman'.symm.trans hman)
    have hbuckets := hover.2
    simp only [heq, openSubtable, hsub] at hbuckets
    have hfew : (256 : ℤ) = 2 ^ 30 := hbuckets
    norm_num at hfew
  obtain ⟨hdone, hkept⟩ := uniqueTable_run hE hfuel hinit hlegal hrefills
  obtain ⟨k, hrun⟩ := hdone.mpr hgrows
  exact ⟨k₀, k, hinit, hrun, hkept k hrun⟩

/-! ### Too many keys -/

/-- The call is that of a caller who keeps to the interface, and its allocations find a node. -/
def KernelCall.Allowed (E : Env) (k : Kernel) (c : KernelCall) : Prop := c.Legal k ∧ c.Refills E k

/-- The children and the bounds of a CDD node, which differ from one `m` to the next. -/
def elemsFor (m : ℕ) : List Elem :=
  (List.range 2047).map fun j : ℕ ↦
    ⟨2 * (m + 1) * (1 + (j % 2 : ℕ)), if j < 2046 then 2 * j else 2 ^ 31 - 2, 0⟩

/-- A node that has no reference is made once more, and `cdd_reclaim` takes it off the dead nodes,
among which it never was. -/
def remake : List KernelCall := [.makeCddNode 0 (elemsFor 0), .tally 2047 0 (-1)]

/-- A node is made again and again, and then a sweep adds to `keys` what has been taken off `deadcnt`.
-/
def tooManyKeys : List KernelCall :=
  [.addLevels 1, .makeCddNode 0 (elemsFor 0)] ++
    ((List.replicate (2 ^ 30 + 42949672) remake).flatten ++
      ([.gbcNodemanager 2047] ++
        (List.range 23).map fun m : ℕ ↦ KernelCall.makeCddNode 0 (elemsFor (m + 1))))

/-- The counters of the subtable for nodes with `2047` children, when `m` nodes have been made in
it since the first one. -/
structure Counts (E : Env) (k : Kernel) (n m : ℕ) (c dead keys buckets maxkeys : ℤ) : Prop where
  ok : k.Ok E n
  levelcnt : k.levelcnt = 1
  maxcddsize : k.maxcddsize = 2047
  tables : ∃ man tbl, k.managers 2047 = some man ∧ man.subtables 0 = some tbl ∧
    man.deadcnt = int32 dead ∧ 0 ≤ man.alloccnt ∧ man.alloccnt ≤ c ∧ tbl.deadcnt = int32 dead ∧
    tbl.keys = keys ∧ tbl.buckets = buckets ∧ tbl.maxkeys = maxkeys
  old : ∀ a, k.Holds 2047 0 a → ∃ i ≤ m, k.heap.key a = elemBytes (elemsFor i)

theorem cddSearch_key (elem : List Elem) : (cddSearch E elem).key = elemBytes elem := rfl

theorem elemsFor_length (m : ℕ) : (elemsFor m).length = 2047 := by
  rw [elemsFor, List.length_map, List.length_range]

theorem elemsFor_eq (m : ℕ) :
    ∃ e e' rest, elemsFor m = e :: e' :: rest ∧ e.child = 2 * ((m : ℤ) + 1) := by
  have hrange : List.range 2047 = 0 :: 1 :: ((List.range 2045).map Nat.succ).map Nat.succ := by
    rw [List.range_succ_eq_map, List.range_succ_eq_map]
    rfl
  rw [elemsFor, hrange]
  exact ⟨_, _, _, rfl, by simp⟩

/-- The first byte tells the nodes apart. -/
theorem elemBytes_elemsFor_ne {m m' : ℕ} (hm : m < 100) (hm' : m' < 100) (hne : m ≠ m') :
    elemBytes (elemsFor m) ≠ elemBytes (elemsFor m') := by
  have hhead (m : ℕ) : (elemBytes (elemsFor m)).head? = some (2 * ((m : ℤ) + 1) % 256) := by
    obtain ⟨e, e', rest, heq, hchild⟩ := elemsFor_eq m
    rw [heq, ← hchild]
    simp [elemBytes, wordBytes, List.range_succ_eq_map]
  intro heq
  have hsame := (hhead m).symm.trans ((congrArg List.head? heq).trans (hhead m'))
  rw [Option.some.injEq] at hsame
  omega

theorem elemsFor_search (m : ℕ) (hm : m < 100) :
    IsSearch E 2047 (cddSearch E (elemsFor m)) := by
  obtain ⟨e, e', rest, heq, hchild⟩ := elemsFor_eq m
  have hlen := elemsFor_length m
  rw [heq] at hlen ⊢
  exact Or.inr ⟨e, e', rest, hlen.symm, by omega, by omega, rfl⟩

end

section

variable {E : Env} {n m m' : ℕ} {c dead keys buckets maxkeys : ℤ} {k k' : Kernel}

theorem Counts.call_makeCddNode (hc : Counts E k n m c dead keys buckets maxkeys) (m' : ℕ) :
    k.call E (.makeCddNode 0 (elemsFor m')) = (do
      let (_, k') ← k.make E 2047 0 (cddSearch E (elemsFor m'))
      return k') := by
  obtain ⟨man, tbl, hman, -⟩ := hc.tables
  have hlen := elemsFor_length m'
  have hopen : k.openManager E (elemsFor m').length = .done k := by
    rw [hlen, Kernel.openManager, hman]
    rfl
  have hrun : k.call E (.makeCddNode 0 (elemsFor m')) = _ :=
    Kernel.call_makeCddNode (by omega) (by rw [hlen, hc.maxcddsize]) hopen
  rw [hlen] at hrun
  exact hrun

theorem Counts.legal (hc : Counts E k n m c dead keys buckets maxkeys) (hm : m' < 100)
    (hrefill : k.RefillsFor 2047 0 (cddSearch E (elemsFor m'))) :
    (KernelCall.makeCddNode 0 (elemsFor m')).Allowed E k := by
  obtain ⟨man, tbl, hman, -⟩ := hc.tables
  obtain ⟨e, e', rest, heq, hchild⟩ := elemsFor_eq m'
  have hlevel : 0 < k.levelcnt := by
    rw [hc.levelcnt]
    exact Nat.zero_lt_one
  refine ⟨⟨hlevel, e, e' :: rest, heq, by omega, by omega⟩, fun _ _ ↦ ?_⟩
  rw [elemsFor_length]
  refine ⟨fun hnone ↦ ?_, fun k' hopen ↦ ?_⟩
  · rw [hman] at hnone
    cases hnone
  · rw [Kernel.openManager, hman] at hopen
    cases hopen
    exact hrefill

/-- One time around: only the counts of dead nodes change. -/
theorem Counts.remake (hc : Counts E k n m c dead keys buckets maxkeys) (hE : E.Valid)
    (hfuel : 4096 ≤ E.fuel) (hn : n + 1 < E.fuel)
    (hold : ∃ a, k.Holds 2047 0 a ∧ k.heap.key a = elemBytes (elemsFor 0)) :
    ∃ k', k.run E NodeTable.remake = .done k' ∧
      k.Calls E (fun k c ↦ c.Allowed E k) NodeTable.remake ∧
      Counts E k' (n + 1) m c (dead - 1) keys buckets maxkeys ∧
      ∃ a, k'.Holds 2047 0 a ∧ k'.heap.key a = elemBytes (elemsFor 0) := by
  obtain ⟨man, tbl, hman, htbl, hdead, halloc, hle, htdead, hkeys, hbuckets, hmaxkeys⟩ := hc.tables
  obtain ⟨a, ha, hkey⟩ := hold
  have hS := (elemsFor_search (E := E) 0 (by norm_num)).ok hc.ok hman
  have hlevel : 0 < k.levelcnt := by
    rw [hc.levelcnt]
    exact Nat.zero_lt_one
  have hkey' : k.heap.key a = (cddSearch E (elemsFor 0)).key := by rw [hkey, cddSearch_key]
  obtain ⟨b, hmake⟩ := hc.ok.make_found (by omega) hman htbl hlevel hS ha hkey'
  have hcall : k.call E (.makeCddNode 0 (elemsFor 0)) = .done k := by
    rw [hc.call_makeCddNode 0, hmake]
    rfl
  have hrefill : k.RefillsFor 2047 0 (cddSearch E (elemsFor 0)) :=
    fun hnew ↦ absurd hkey' (hnew a ha)
  have hlegal := hc.legal (by norm_num) hrefill
  have htlegal : (KernelCall.tally 2047 0 (-1)).Legal k := ⟨man, tbl, hman, htbl⟩
  obtain ⟨k', htally, hok⟩ := (hc.ok.call hE hfuel hn htlegal trivial).1 trivial
  set man' : NodeManager := { man with
    usedcnt := int32 (man.usedcnt - -1)
    deadcnt := int32 (man.deadcnt + -1)
    subtables := Function.update man.subtables 0
      (some { tbl with deadcnt := int32 (tbl.deadcnt + -1) }) }
  have hk' : k' = k.put 2047 (k.heap, man') := by
    simp only [Kernel.call, hman, htbl, Run.pure_eq, Run.done.injEq] at htally
    exact htally.symm
  have hself : k'.managers 2047 = some man' := by
    rw [hk']
    exact Kernel.put_self _
  have htbl' : man'.subtables 0 = some { tbl with deadcnt := int32 (tbl.deadcnt + -1) } := by
    simp [man']
  have hheap : k'.heap = k.heap := by rw [hk']; rfl
  have hholds (b : ℤ) : k'.Holds 2047 0 b ↔ k.Holds 2047 0 b := by
    constructor
    · intro hex
      obtain ⟨man₂, tbl₂, hman₂, htbl₂, hb⟩ := hex
      rw [hself, Option.some.injEq] at hman₂
      rw [← hman₂, htbl', Option.some.injEq] at htbl₂
      rw [hheap, ← hman₂, ← htbl₂] at hb
      exact ⟨man, tbl, hman, htbl, hb⟩
    · intro hex
      obtain ⟨man₂, tbl₂, hman₂, htbl₂, hb⟩ := hex
      rw [hman, Option.some.injEq] at hman₂
      rw [← hman₂, htbl, Option.some.injEq] at htbl₂
      rw [← hman₂, ← htbl₂] at hb
      exact ⟨man', _, hself, htbl', hheap ▸ hb⟩
  refine ⟨k', ?_, ⟨hlegal, fun k₁ hk₁ ↦ ?_⟩, ⟨hok, ?_, ?_, ?_, ?_⟩, a, (hholds a).mpr ha, ?_⟩
  · rw [NodeTable.remake, Kernel.run_cons hcall, Kernel.run_cons htally]
    rfl
  · rw [hcall] at hk₁
    cases hk₁
    exact ⟨⟨htlegal, trivial⟩, fun _ _ ↦ trivial⟩
  · rw [hk']
    exact hc.levelcnt
  · rw [hk']
    exact hc.maxcddsize
  · refine ⟨man', _, hself, htbl', ?_, halloc, hle, ?_, hkeys, hbuckets, hmaxkeys⟩
    · show int32 (man.deadcnt + -1) = _
      rw [hdead, int32_add_int32, sub_eq_add_neg]
    · show int32 (tbl.deadcnt + -1) = _
      rw [htdead, int32_add_int32, sub_eq_add_neg]
  · intro b hb
    rw [hheap]
    exact hc.old b ((hholds b).mp hb)
  · rw [hheap]
    exact hkey

/-- Many times around. -/
theorem Counts.remakes (hc : Counts E k n m c dead keys buckets maxkeys) (hE : E.Valid)
    (hfuel : 4096 ≤ E.fuel) (N : ℕ) (hn : n + N < E.fuel)
    (hold : ∃ a, k.Holds 2047 0 a ∧ k.heap.key a = elemBytes (elemsFor 0)) :
    ∃ k', k.run E (List.replicate N NodeTable.remake).flatten = .done k' ∧
      k.Calls E (fun k c ↦ c.Allowed E k) (List.replicate N NodeTable.remake).flatten ∧
      Counts E k' (n + N) m c (dead - N) keys buckets maxkeys := by
  induction N generalizing k n dead with
  | zero =>
    refine ⟨k, rfl, trivial, ?_⟩
    rw [Nat.cast_zero, sub_zero]
    exact hc
  | succ N ih =>
    obtain ⟨k₁, hrun, hcalls, hc₁, hold₁⟩ := hc.remake hE hfuel (by omega) hold
    obtain ⟨k', hrest, hcalls', hc'⟩ := ih hc₁ (by omega) hold₁
    rw [List.replicate_succ, List.flatten_cons]
    refine ⟨k', ?_, ?_, ?_⟩
    · rw [Kernel.run_append hrun, hrest]
    · apply hcalls.append
      intro k₂ hk₂
      rw [hrun] at hk₂
      cases hk₂
      exact hcalls'
    · have hcnt : n + (N + 1) = n + 1 + N := by omega
      have hsub : dead - ((N + 1 : ℕ) : ℤ) = dead - 1 - N := by
        push_cast
        ring
      rw [hcnt, hsub]
      exact hc'

/-- The sweep adds to `keys` what has been taken off `deadcnt`. -/
theorem Counts.sweep (hc : Counts E k n m c dead keys buckets maxkeys) (hE : E.Valid)
    (hn : n < E.fuel) (hdead : int32 dead ≠ 0) :
    ∃ k', k.call E (.gbcNodemanager 2047) = .done k' ∧
      Counts E k' n m c 0 (int32 (keys - int32 dead)) buckets maxkeys := by
  obtain ⟨man, tbl, hman, htbl, -, halloc, hle, htdead, hkeys, hbuckets, hmaxkeys⟩ := hc.tables
  obtain ⟨h', man', hrun, hok, hkey, hholds⟩ := hc.ok.sweep hE hn hman
  obtain ⟨hdead', halloc', tbl', htbl', hkeys', htdead', hbuckets', hmaxkeys'⟩ :=
    hc.ok.sweep_counts hn hman htbl (htdead ▸ hdead) hrun
  have hzero : int32 0 = 0 := by decide
  refine ⟨k.put 2047 (h', man'), ?_, ⟨hok, hc.levelcnt, hc.maxcddsize, ?_, fun a ha ↦ ?_⟩⟩
  · simp only [Kernel.call, hman, hrun]
    rfl
  · refine ⟨man', tbl', Kernel.put_self _, htbl', ?_, ?_, ?_, ?_, ?_, ?_, ?_⟩
    · rw [hdead', hzero]
    · rw [halloc']
      exact halloc
    · rw [halloc']
      exact hle
    · rw [htdead', hzero]
    · rw [hkeys', hkeys, htdead]
    · rw [hbuckets', hbuckets]
    · rw [hmaxkeys', hmaxkeys]
  · show ∃ i ≤ m, h'.key a = elemBytes (elemsFor i)
    rw [hkey]
    exact hc.old a ((hholds 2047 0 a).mp ha).1

/-- The next key is new, and the allocation of its node takes a chunk at most. -/
theorem Counts.isNew (hc : Counts E k n m c dead keys buckets maxkeys) (hm : m + 1 < 100) :
    k.IsNew 2047 0 (cddSearch E (elemsFor (m + 1))).key := by
  intro a ha
  obtain ⟨i, hi, hkey⟩ := hc.old a ha
  rw [hkey, cddSearch_key]
  exact elemBytes_elemsFor_ne (by omega) (by omega) (by omega)

theorem Counts.calm {man : NodeManager} (hc : Counts E k n m c 0 keys buckets maxkeys)
    (hman : k.managers 2047 = some man) : man.Calm c := by
  obtain ⟨man₂, tbl, hman₂, -, hdead, halloc, hle, -⟩ := hc.tables
  rw [hman, Option.some.injEq] at hman₂
  subst hman₂
  exact ⟨hdead.trans (by decide), halloc, hle⟩

theorem Counts.refillsFor (hc : Counts E k n m c 0 keys buckets maxkeys) (hle : c ≤ 10 ^ 8)
    (S : Search) : k.RefillsFor 2047 0 S := by
  intro _ man hman
  exact ((hc.calm hman).openSubtable 0).refills hle (by decide)

/-- One more key, and one more rehash. -/
theorem Counts.grow (hc : Counts E k n m c 0 keys buckets maxkeys) (hE : E.Valid)
    (hfuel : 4096 ≤ E.fuel) (hn : n + 1 < E.fuel) (hm : m + 1 < 100) (hle : c + 65520 ≤ 10 ^ 8)
    (hkeys : maxkeys < int32 (keys + 1)) (hbuckets : buckets ≠ 2 ^ 30) :
    ∃ k', k.call E (.makeCddNode 0 (elemsFor (m + 1))) = .done k' ∧
      Counts E k' (n + 1) (m + 1) (c + 65520) 0 (int32 (keys + 1)) (int32 (2 * buckets))
        (int32 (2 * maxkeys)) := by
  obtain ⟨man, tbl, hman, htbl, -, -, -, htdead, hk, hb, hmk⟩ := hc.tables
  have hS := (elemsFor_search (E := E) (m + 1) hm).ok hc.ok hman
  have hlevel : 0 < k.levelcnt := by
    rw [hc.levelcnt]
    exact Nat.zero_lt_one
  have hnew := hc.isNew hm
  have hopen : openSubtable man 0 = (tbl, man) := by simp only [openSubtable, htbl]
  have hgrow : k.GrowsFor 2047 0 (cddSearch E (elemsFor (m + 1))) := by
    intro _ man₂ hman₂ hover
    rw [hman, Option.some.injEq] at hman₂
    rw [← hman₂, hopen] at hover
    exact hbuckets (hb ▸ hover.2)
  have hmake := hc.ok.make hE hfuel hn hman hlevel hS (hc.refillsFor (by omega) _)
  obtain ⟨a, k', hrun, hok, hkey, hholds⟩ := (hmake.resolve_left fun hfound ↦ by
    obtain ⟨a, -, -, -, ha, hakey, -⟩ := hfound
    exact hnew a ha hakey).2.1 hgrow
  obtain ⟨hcnt, hmax, man', tbl', hman', hcalm, htbl', hins⟩ :=
    hc.ok.make_calm (by omega) hman hlevel hS hnew (hc.calm hman) hle hrun
  rw [hopen] at hins
  have hfull : tbl.maxkeys < int32 (tbl.keys + 1) := by rwa [hmk, hk]
  have hzero : int32 0 = 0 := by decide
  refine ⟨k', ?_, ⟨hok, hcnt.trans hc.levelcnt, hmax.trans hc.maxcddsize, ?_, fun b hb' ↦ ?_⟩⟩
  · rw [hc.call_makeCddNode, hrun]
    rfl
  · refine ⟨man', tbl', hman', htbl', ?_, hcalm.nonneg, hcalm.le, ?_, ?_, ?_, ?_⟩
    · rw [hcalm.deadcnt, hzero]
    · rw [hins.deadcnt, htdead]
    · rw [hins.keys, hk]
    · rw [(hins.grown hfull).1, hb]
    · rw [(hins.grown hfull).2, hmk]
  · rw [hkey]
    by_cases hba : b = a
    · refine ⟨m + 1, le_rfl, ?_⟩
      rw [hba, Function.update_self, cddSearch_key]
    · rw [Function.update_of_ne hba]
      have hb₀ := ((hholds 2047 0 b).mp hb').resolve_left fun h ↦ hba h.2.2
      obtain ⟨i, hi, hkey'⟩ := hc.old b hb₀.1
      exact ⟨i, by omega, hkey'⟩

/-- Key after key, each with a rehash. -/
theorem Counts.grows (hc : Counts E k n 0 c 0 keys 256 1024) (hE : E.Valid) (hfuel : 4096 ≤ E.fuel)
    (hm : m ≤ 22) (hn : n + m < E.fuel) (hlo : 2 ^ 30 ≤ keys) (hhi : keys + 23 < 2 ^ 31)
    (hle : c + 65520 * 22 ≤ 10 ^ 8) :
    ∃ k', k.run E ((List.range m).map fun m : ℕ ↦ .makeCddNode 0 (elemsFor (m + 1))) = .done k' ∧
      k.Calls E (fun k c ↦ c.Allowed E k)
        ((List.range m).map fun m : ℕ ↦ .makeCddNode 0 (elemsFor (m + 1))) ∧
      Counts E k' (n + m) m (c + 65520 * m) 0 (keys + m) (2 ^ (8 + m)) (int32 (2 ^ (10 + m))) := by
  induction m with
  | zero =>
    refine ⟨k, rfl, trivial, ?_⟩
    have hbuckets : (2 : ℤ) ^ 8 = 256 := by norm_num
    have hmaxkeys : int32 (2 ^ 10) = 1024 := by decide
    simp only [Nat.cast_zero, mul_zero, add_zero, hbuckets, hmaxkeys]
    exact hc
  | succ m ih =>
    obtain ⟨k₁, hrun, hcalls, hc₁⟩ := ih (by omega) (by omega)
    have hmax : ∀ m < 22, int32 (2 ^ (10 + m)) ≤ 2 ^ 30 := by decide
    have hdouble : ∀ m < 22, int32 (2 * 2 ^ (8 + m)) = 2 ^ (8 + (m + 1)) := by decide
    have hfew : ∀ m < 22, (2 : ℤ) ^ (8 + m) ≠ 2 ^ 30 := by decide
    have hsame : int32 (keys + m + 1) = keys + m + 1 := int32_of_mem (by omega) (by omega)
    have hlt : int32 (2 ^ (10 + m)) < int32 (keys + m + 1) := by
      have hle := hmax m (by omega)
      omega
    obtain ⟨k', hcall, hc'⟩ := hc₁.grow hE hfuel (by omega) (by omega) (by omega) hlt
      (hfew m (by omega))
    have hallowed := hc₁.legal (by omega : m + 1 < 100) (hc₁.refillsFor (by omega) _)
    rw [List.range_succ, List.map_append]
    refine ⟨k', ?_, ?_, ?_⟩
    · rw [Kernel.run_append hrun]
      exact Kernel.run_cons hcall
    · apply hcalls.append
      intro k₂ hk₂
      rw [hrun] at hk₂
      cases hk₂
      exact ⟨hallowed, fun _ _ ↦ trivial⟩
    · have hnext : int32 (2 * int32 (2 ^ (10 + m))) = int32 (2 ^ (10 + (m + 1))) := by
        rw [int32_mul_int32, ← add_assoc, pow_succ, mul_comm]
      have hkeys : keys + ((m + 1 : ℕ) : ℤ) = keys + m + 1 := by
        push_cast
        ring
      have hcnt : c + 65520 * ((m + 1 : ℕ) : ℤ) = c + 65520 * m + 65520 := by
        push_cast
        ring
      rw [hdouble m (by omega), hnext, hsame] at hc'
      rw [hkeys, hcnt]
      exact hc'

/-- A key that would need `2 ^ 31` buckets. -/
theorem Counts.call_failed (hc : Counts E k n m c 0 keys (2 ^ 30) maxkeys) (hE : E.Valid)
    (hfuel : 4096 ≤ E.fuel) (hn : n + 1 < E.fuel) (hm : m + 1 < 100) (hle : c ≤ 10 ^ 8)
    (hkeys : maxkeys < int32 (keys + 1)) :
    (KernelCall.makeCddNode 0 (elemsFor (m + 1))).Allowed E k ∧
      k.call E (.makeCddNode 0 (elemsFor (m + 1))) = .failed := by
  obtain ⟨man, tbl, hman, htbl, -, -, -, -, hk, hb, hmk⟩ := hc.tables
  have hrefill := hc.refillsFor hle (cddSearch E (elemsFor (m + 1)))
  have hallowed := hc.legal hm hrefill
  have hopen : openSubtable man 0 = (tbl, man) := by simp only [openSubtable, htbl]
  have hS := (elemsFor_search (E := E) (m + 1) hm).ok hc.ok hman
  have hlevel : 0 < k.levelcnt := by
    rw [hc.levelcnt]
    exact Nat.zero_lt_one
  have hnew := hc.isNew hm
  have hgrow : ¬ k.GrowsFor 2047 0 (cddSearch E (elemsFor (m + 1))) := by
    intro hgrow
    have hthen : keysThen man tbl = tbl.keys :=
      if_neg fun hswept ↦ (hc.calm hman).not_collects hle hswept.2.1
    apply hgrow hnew man hman
    rw [hopen]
    refine ⟨?_, hb⟩
    rw [hthen, hmk, hk]
    exact hkeys
  have hmake := hc.ok.make hE hfuel hn hman hlevel hS hrefill
  refine ⟨hallowed, ?_⟩
  rw [hc.call_makeCddNode, (hmake.resolve_left fun hfound ↦ by
    obtain ⟨a, -, -, -, ha, hakey, -⟩ := hfound
    exact hnew a ha hakey).2.2 hgrow]
  rfl

/-- The level, and the first node. -/
theorem counts_init (hE : E.Valid) (hfuel : 4096 ≤ E.fuel) (h : Heap) :
    ∃ k₀ k, Kernel.init E h 2047 = .done k₀ ∧
      k₀.run E [.addLevels 1, .makeCddNode 0 (elemsFor 0)] = .done k ∧
      k₀.Calls E (fun k c ↦ c.Allowed E k) [.addLevels 1, .makeCddNode 0 (elemsFor 0)] ∧
      Counts E k 2 0 131040 0 1 256 1024 ∧
      ∃ a, k.Holds 2047 0 a ∧ k.heap.key a = elemBytes (elemsFor 0) := by
  obtain ⟨k₀, hinit, hok₀, hcnt₀, hmax₀⟩ := Kernel.init_spec hE hfuel h 2047
  have hnone : k₀.managers 2047 = none := by
    unfold Kernel.init at hinit
    obtain ⟨s, -, hrest⟩ := Run.bind_eq_done hinit
    cases hrest
    exact Kernel.put_other _ (by decide)
  set k₁ : Kernel := { k₀ with levelcnt := k₀.levelcnt + 1 } with hk₁
  have hadd : k₀.call E (.addLevels 1) = .done k₁ := rfl
  obtain ⟨k₁', hadd', hok₁⟩ := (hok₀.call hE hfuel (by omega)
    (show (KernelCall.addLevels 1).Legal k₀ from trivial) trivial).1 trivial
  rw [hadd] at hadd'
  cases hadd'
  have hcnt₁ : k₁.levelcnt = 1 := by
    show k₀.levelcnt + 1 = 1
    rw [hcnt₀]
  obtain ⟨k₂, hopen, hok₂, hcnt₂, hmax₂, man, hman⟩ :=
    hok₁.openManager hE hfuel (by decide : 2047 ≠ 0) fun _ ↦ by decide
  obtain ⟨hcalm, hsub⟩ : man.Calm 65520 ∧ man.subtables = fun _ ↦ none := by
    have hnone₁ : k₁.managers 2047 = none := hnone
    have hsize : int32 (nodeBytes 2047) = nodeBytes 2047 := by decide
    simp only [Kernel.openManager, hnone₁, hsize] at hopen
    obtain ⟨⟨h', man'⟩, hrun, hrest⟩ := Run.bind_eq_done hopen
    cases hrest
    rw [Kernel.put_self, Option.some.injEq] at hman
    exact hman ▸ cddAllocNodemanager_counts (fits_nodeBytes (by decide)) hrun
  have hfresh : (openSubtable man 0).1 = cddAllocSubtable man := by
    simp only [openSubtable, hsub]
  have hS := (elemsFor_search (E := E) 0 (by norm_num)).ok hok₂ hman
  have hlevel : 0 < k₂.levelcnt := by
    rw [hcnt₂, hcnt₁]
    exact Nat.zero_lt_one
  have hempty (a : ℤ) : ¬ k₂.Holds 2047 0 a := by
    intro ha
    obtain ⟨man₂, tbl, hman₂, htbl, -⟩ := ha
    rw [hman, Option.some.injEq] at hman₂
    rw [← hman₂, hsub] at htbl
    cases htbl
  have hrefill : k₂.RefillsFor 2047 0 (cddSearch E (elemsFor 0)) := by
    intro _ man₂ hman₂
    rw [hman, Option.some.injEq] at hman₂
    exact hman₂ ▸ (hcalm.openSubtable 0).refills (by norm_num) (by decide)
  have hgrow : k₂.GrowsFor 2047 0 (cddSearch E (elemsFor 0)) := by
    intro _ man₂ hman₂ hover
    rw [hman, Option.some.injEq] at hman₂
    rw [← hman₂, hfresh] at hover
    have hfew : (256 : ℤ) = 2 ^ 30 := hover.2
    norm_num at hfew
  obtain ⟨a, k, hrun, hok, hkey, hholds⟩ := ((hok₂.make hE hfuel (by omega) hman hlevel hS
    hrefill).resolve_left fun hfound ↦ by
      obtain ⟨a, -, -, -, ha, -⟩ := hfound
      exact hempty a ha).2.1 hgrow
  obtain ⟨hcnt, hmax, man', tbl', hman', hcalm', htbl', hins⟩ :=
    hok₂.make_calm (by omega) hman hlevel hS (fun a ha ↦ absurd ha (hempty a)) hcalm (by norm_num)
      hrun
  rw [hfresh] at hins
  have hone : int32 (0 + 1) = 1 := by decide
  have hzero : int32 0 = 0 := by decide
  have hsame := hins.same (show ¬ (256 * HASH_DENSITY < int32 (0 + 1)) by decide)
  have hlen := elemsFor_length 0
  have hcall : k₁.call E (.makeCddNode 0 (elemsFor 0)) = .done k := by
    have hunfold : k₁.call E (.makeCddNode 0 (elemsFor 0)) = _ :=
      Kernel.call_makeCddNode (by omega) (by rw [hlen]; exact hmax₀.ge) (hlen.symm ▸ hopen)
    rw [hlen, hrun] at hunfold
    exact hunfold
  have hself : k.Holds 2047 0 a := (hholds 2047 0 a).mpr (Or.inl ⟨rfl, rfl, rfl⟩)
  have hakey : k.heap.key a = elemBytes (elemsFor 0) := by
    rw [hkey, Function.update_self, cddSearch_key]
  refine ⟨k₀, k, hinit, ?_, ?_, ⟨hok, ?_, ?_, ?_, fun b hb ↦ ?_⟩, a, hself, hakey⟩
  · rw [Kernel.run_cons hadd, Kernel.run_cons hcall]
    rfl
  · refine ⟨⟨trivial, trivial⟩, fun k₃ hk₃ ↦ ⟨?_, fun _ _ ↦ trivial⟩⟩
    rw [hadd] at hk₃
    cases hk₃
    obtain ⟨e, e', rest, heq, hchild⟩ := elemsFor_eq 0
    refine ⟨⟨hcnt₁ ▸ Nat.zero_lt_one, e, e' :: rest, heq, by omega, by omega⟩, fun _ _ ↦ ?_⟩
    rw [hlen]
    refine ⟨fun _ ↦ by decide, fun k₃ hk₃ ↦ ?_⟩
    rw [hopen] at hk₃
    cases hk₃
    exact hrefill
  · rw [hcnt, hcnt₂, hcnt₁]
  · rw [hmax, hmax₂]
    exact hmax₀
  · refine ⟨man', tbl', hman', htbl', ?_, hcalm'.nonneg, hcalm'.le, ?_, ?_, hsame.1, hsame.2⟩
    · rw [hcalm'.deadcnt, hzero]
    · rw [hins.deadcnt, hzero]
      rfl
    · rw [hins.keys]
      exact hone
  · cases (hholds 2047 0 b).mp hb with
    | inl heq => exact ⟨0, le_rfl, heq.2.2 ▸ hakey⟩
    | inr hold => exact absurd hold.1 (hempty b)

/-- For no hash function does the unique table stay intact in this run. -/
theorem not_uniqueTable_tooManyKeys : ¬ ∃ computeU32, ∀ k₀,
    Kernel.init (pages computeU32) zeros 2047 = .done k₀ →
    k₀.Calls (pages computeU32) (fun k c ↦ c.Allowed (pages computeU32) k) tooManyKeys →
    ∃ k, k₀.run (pages computeU32) tooManyKeys = .done k ∧ k.UniqueTable (pages computeU32) := by
  intro hex
  obtain ⟨computeU32, hclaim⟩ := hex
  set E := pages computeU32 with hdef
  have hE : E.Valid := pages_valid computeU32
  have hfuel : E.fuel = 2 ^ 40 := rfl
  obtain ⟨k₀, k₁, hinit, hrun₁, hcalls₁, hc₁, hold⟩ := counts_init hE (by omega) zeros
  obtain ⟨k₂, hrun₂, hcalls₂, hc₂⟩ := hc₁.remakes hE (by omega) (2 ^ 30 + 42949672) (by omega) hold
  have hdead : int32 (0 - ((2 ^ 30 + 42949672 : ℕ) : ℤ)) = -(2 ^ 30 + 42949672) := by decide
  obtain ⟨k₃, hcall₃, hc₃⟩ := hc₂.sweep hE (by omega) (by rw [hdead]; norm_num)
  have hkeys : int32 (1 - -(2 ^ 30 + 42949672)) = 2 ^ 30 + 42949673 := by decide
  rw [hdead, hkeys] at hc₃
  obtain ⟨k₄, hrun₄, hcalls₄, hc₄⟩ := hc₃.grows hE (by omega) (le_refl 22) (by omega) (by norm_num)
    (by norm_num) (by norm_num)
  obtain ⟨hallowed, hfailed⟩ : (KernelCall.makeCddNode 0 (elemsFor 23)).Allowed E k₄ ∧
      k₄.call E (.makeCddNode 0 (elemsFor 23)) = .failed :=
    hc₄.call_failed hE (by omega) (by omega) (by norm_num) (by norm_num) (by decide)
  have hsplit : tooManyKeys = [.addLevels 1, .makeCddNode 0 (elemsFor 0)] ++
      ((List.replicate (2 ^ 30 + 42949672) remake).flatten ++
        ([.gbcNodemanager 2047] ++
          ((List.range 22).map (fun m : ℕ ↦ KernelCall.makeCddNode 0 (elemsFor (m + 1))) ++
            [.makeCddNode 0 (elemsFor 23)]))) := by
    rw [tooManyKeys, List.range_succ, List.map_append]
    rfl
  have hswept : k₂.run E [.gbcNodemanager 2047] = .done k₃ := by
    rw [Kernel.run_cons hcall₃]
    rfl
  have hcalls : k₀.Calls E (fun k c ↦ c.Allowed E k) tooManyKeys := by
    rw [hsplit]
    refine hcalls₁.append fun k hk ↦ ?_
    rw [hrun₁] at hk
    cases hk
    refine hcalls₂.append fun k hk ↦ ?_
    rw [hrun₂] at hk
    cases hk
    refine ⟨⟨trivial, trivial⟩, fun k hk ↦ ?_⟩
    rw [hcall₃] at hk
    cases hk
    refine hcalls₄.append fun k hk ↦ ?_
    rw [hrun₄] at hk
    cases hk
    exact ⟨hallowed, fun _ _ ↦ trivial⟩
  obtain ⟨k, hrun, -⟩ := hclaim k₀ hinit hcalls
  rw [hsplit, Kernel.run_append hrun₁, Kernel.run_append hrun₂, Kernel.run_append hswept,
    Kernel.run_append hrun₄, Kernel.run, hfailed] at hrun
  cases hrun

end

end NodeTable

end UCDD

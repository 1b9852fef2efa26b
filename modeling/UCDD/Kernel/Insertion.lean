import UCDD.Kernel.Allocation

/-!
# Finding, inserting and rehashing

The search of `cdd_make_bdd_node` and `cdd_make_cdd_node` stops where the keys of the chain get
below the key, at the sentinel at the latest, whose key is zero. A new node goes in there, and
`cdd_rehash` takes every chain apart in its order.
-/

namespace UCDD

namespace NodeTable

open HashChain Loop Links Counter

/-- What the two functions that make nodes have in common in their searches. -/
structure SearchOk (E : Env) (words : ℕ) (hashfunc : List ℤ → ℕ) (S : Search) : Prop where
  length : S.key.length = words
  hash : S.hash = hashfunc S.key
  pos : List.replicate words 0 < S.key
  find : ∀ (h : Heap) (m : Links ℕ ℤ) (j : ℕ) (l : List ℤ) (s : ℤ),
    Segment m.next s (m.head j) l → h.key s = List.replicate words 0 →
    (∀ a ∈ l, (h.key a).length = words) → Decreasing h.key l → l.length < E.fuel →
    S.find h m (.head j) = .done (outlet j (l.takeWhile fun a ↦ decide (S.key < h.key a)))

section

variable {E : Env} {bytes s a node low high : ℤ} {words levelcnt level n i j : ℕ} {h h' : Heap}
  {man man' : NodeManager} {tbl : SubTable} {F F' : List ℤ} {chain chain' : ℕ → ℕ → List ℤ}
  {c : ℕ → List ℤ} {S : Search} {elem : List Elem} {hashfunc : List ℤ → ℕ}

/-! ### The searches -/

theorem replicate_zero_le {l : List ℤ} (hl : ∀ w ∈ l, 0 ≤ w) :
    List.replicate l.length 0 < l ∨ ∀ w ∈ l, w = 0 := by
  induction l with
  | nil => exact Or.inr (by simp)
  | cons w l ih =>
    rw [List.forall_mem_cons] at hl
    rw [List.length_cons, List.replicate_succ, List.cons_lt_cons_iff, List.forall_mem_cons]
    cases lt_or_eq_of_le hl.1 with
    | inl hlt => exact Or.inl (Or.inl hlt)
    | inr heq =>
      cases ih hl.2 with
      | inl hlt => exact Or.inl (Or.inr ⟨heq, hlt⟩)
      | inr hzero => exact Or.inr ⟨heq.symm, hzero⟩

/-- The two loops of `cdd_make_bdd_node` make one search, and the sentinel stops it: no child is
`NULL`. -/
theorem bddSearch_ok (hlow : 0 < low) : SearchOk E 2 bddHashFunc (bddSearch E low high) where
  length := rfl
  hash := rfl
  pos := by simp [bddSearch, List.replicate, List.cons_lt_cons_iff, hlow]
  find h m j l s hseg hs hwords hdec hfuel := by
    set f : ℤ → Bool := fun node ↦ decide (low < h.low node) with hf
    set g : ℤ → Bool := fun node ↦ decide (low = h.low node ∧ high < h.high node) with hg
    have hlow_s : h.low s = 0 := by simp [Heap.low, hs]
    have hfs : f s = false := by
      rw [hf]
      simp only [hlow_s, decide_eq_false_iff_not]
      omega
    have hgs : g s = false := by
      rw [hg]
      simp only [hlow_s, decide_eq_false_iff_not]
      omega
    have hkey (a : ℤ) (ha : a ∈ l) : h.key a = [h.low a, h.high a] := by
      obtain ⟨x, y, hxy⟩ := List.length_eq_two.mp (hwords a ha)
      simp [Heap.low, Heap.high, hxy]
    have hstop : ∀ a ∈ l.dropWhile f, f a = false := by
      clear hseg hfuel
      induction l with
      | nil => simp
      | cons a l ih =>
        rw [Decreasing, List.pairwise_cons] at hdec
        rw [List.forall_mem_cons] at hwords
        by_cases hfa : f a = true
        · rw [List.dropWhile_cons_of_pos hfa]
          exact ih hwords.2 hdec.2 fun b hb ↦ hkey b (List.mem_cons_of_mem _ hb)
        · rw [List.dropWhile_cons_of_neg hfa, List.forall_mem_cons]
          have hna : ¬ low < h.low a := by simpa [hf] using hfa
          refine ⟨by simpa [hf] using hna, fun b hb ↦ ?_⟩
          have hlt := hdec.1 b hb
          rw [hkey a List.mem_cons_self, hkey b (List.mem_cons_of_mem _ hb),
            List.cons_lt_cons_iff] at hlt
          rw [hf]
          simp only [decide_eq_false_iff_not]
          omega
    have hfirst := advance_outlet (b := []) hseg hfs hfuel
    have hsecond := advance_outlet (b := l.takeWhile f) (l := l.dropWhile f)
      (by rw [List.takeWhile_append_dropWhile]; exact hseg) hgs
      (lt_of_le_of_lt (List.length_dropWhile_le _ _) hfuel)
    have hboth : l.takeWhile f ++ (l.dropWhile f).takeWhile g =
        l.takeWhile fun a ↦ decide ([low, high] < h.key a) := by
      rw [takeWhile_append_takeWhile hstop]
      apply takeWhile_congr
      intro a ha
      rw [hkey a ha]
      simp [hf, hg, List.cons_lt_cons_iff]
    rw [List.nil_append, outlet_nil] at hfirst
    rw [hboth] at hsecond
    show (do
      let p ← m.advance f E.fuel (.head j)
      m.advance g E.fuel p) = _
    rw [hfirst, Run.done_bind]
    exact hsecond

theorem wordBytes_nonneg (k : ℕ) (w : ℤ) : ∀ b ∈ wordBytes k w, 0 ≤ b := by
  intro b hb
  obtain ⟨i, -, rfl⟩ := List.mem_map.mp hb
  exact Int.emod_nonneg _ (by omega)

theorem elemBytes_length (elem : List Elem) : (elemBytes elem).length = 16 * elem.length := by
  induction elem with
  | nil => rfl
  | cons e elem ih =>
    have hcons : elemBytes (e :: elem) =
        (wordBytes 8 e.child ++ wordBytes 4 e.bnd ++ wordBytes 4 e.pad) ++ elemBytes elem := rfl
    rw [hcons, List.length_append, ih, List.length_cons]
    simp [wordBytes]
    omega

theorem elemBytes_nonneg (elem : List Elem) : ∀ b ∈ elemBytes elem, 0 ≤ b := by
  intro b hb
  obtain ⟨e, -, hb⟩ := List.mem_flatMap.mp hb
  rw [List.mem_append, List.mem_append] at hb
  rcases hb with (hb | hb) | hb
  · exact wordBytes_nonneg _ _ b hb
  · exact wordBytes_nonneg _ _ b hb
  · exact wordBytes_nonneg _ _ b hb

theorem wordBytes_ne_zero {w : ℤ} (hpos : 0 < w) (hlt : w < 2 ^ 64) :
    ¬ ∀ b ∈ wordBytes 8 w, b = 0 := by
  intro hzero
  have hbyte (i : ℕ) (hi : i < 8) : w / 256 ^ i % 256 = 0 :=
    hzero _ (List.mem_map.mpr ⟨i, List.mem_range.mpr hi, rfl⟩)
  have h0 := hbyte 0 (by omega)
  have h1 := hbyte 1 (by omega)
  have h2 := hbyte 2 (by omega)
  have h3 := hbyte 3 (by omega)
  have h4 := hbyte 4 (by omega)
  have h5 := hbyte 5 (by omega)
  have h6 := hbyte 6 (by omega)
  have h7 := hbyte 7 (by omega)
  norm_num at h0 h1 h2 h3 h4 h5 h6 h7 hlt
  omega

theorem elemBytes_pos {e : Elem} {rest : List Elem} (helem : elem = e :: rest)
    (hpos : 0 < e.child) (hlt : e.child < 2 ^ 64) :
    List.replicate (16 * elem.length) 0 < elemBytes elem := by
  rw [← elemBytes_length]
  cases replicate_zero_le (elemBytes_nonneg elem) with
  | inl hlt => exact hlt
  | inr hzero =>
    refine absurd (fun b hb ↦ ?_) (wordBytes_ne_zero hpos hlt)
    apply hzero
    rw [helem]
    exact List.mem_flatMap.mpr ⟨e, List.mem_cons_self, by simp [hb]⟩

/-- The sentinel stops the search of `cdd_make_cdd_node`: the first child is not `NULL`. -/
theorem cddSearch_ok {e : Elem} {rest : List Elem} (helem : elem = e :: rest)
    (hpos : 0 < e.child) (hlt : e.child < 2 ^ 64) {size : ℤ}
    (hsize : (size - 16) / 16 = elem.length) :
    SearchOk E (16 * elem.length) (cddHashFunc E size) (cddSearch E elem) where
  length := elemBytes_length elem
  hash := by
    show cddHash E (elemBytes elem) elem.length = cddHash E (elemBytes elem) ((size - 16) / 16)
    rw [hsize]
  pos := elemBytes_pos helem hpos hlt
  find h m j l s hseg hs _ _ hfuel := by
    set f : ℤ → Bool := fun node ↦ decide (elemBytes elem < h.key node) with hf
    have hstop : f s = false := by
      rw [hf]
      simp only [hs, decide_eq_false_iff_not, not_lt]
      exact (elemBytes_pos helem hpos hlt).le
    have hrun := advance_outlet (b := []) hseg hstop hfuel
    rw [List.nil_append, outlet_nil] at hrun
    exact hrun

/-! ### Rehashing -/

/-- The chains after rehashing: a new bucket gets those nodes of an old one that have its lowest
bit, in their order. -/
def splitChain (bucket : ℤ → ℕ) (c : ℕ → List ℤ) (j : ℕ) : List ℤ :=
  if j % 2 = 1 then (c (j / 2)).filter (upper bucket)
  else (c (j / 2)).filter fun a ↦ !upper bucket a

theorem mem_splitChain {bucket : ℤ → ℕ} :
    a ∈ splitChain bucket c j ↔ a ∈ c (j / 2) ∧ bucket a % 2 = j % 2 := by
  unfold splitChain
  by_cases hj : j % 2 = 1
  · rw [if_pos hj, List.mem_filter, hj, upper, decide_eq_true_eq]
  · have hzero : j % 2 = 0 := by omega
    rw [if_neg hj, List.mem_filter, hzero, upper]
    simp

theorem splitChain_sublist {bucket : ℤ → ℕ} : (splitChain bucket c j).Sublist (c (j / 2)) := by
  unfold splitChain
  by_cases hj : j % 2 = 1
  · rw [if_pos hj]
    exact List.filter_sublist
  · rw [if_neg hj]
    exact List.filter_sublist

/-- The bucket of a node after rehashing. -/
def newBucket (hashfunc : List ℤ → ℕ) (h : Heap) (tbl : SubTable) (a : ℤ) : ℕ :=
  hashfunc (h.key a) / 2 ^ (tbl.shift - 1)

theorem TableOk.newBucket_div (ht : TableOk hashfunc s level n h tbl c) (hj : j < tbl.size)
    (ha : a ∈ c j) : newBucket hashfunc h tbl a / 2 = j := by
  have htwo := ht.two_le
  have hpow : 2 ^ (tbl.shift - 1) * 2 = 2 ^ tbl.shift := by
    rw [← pow_succ]
    congr 1
    omega
  rw [newBucket, Nat.div_div_eq_div_mul, hpow]
  exact ht.placed j hj a ha

theorem int32_mul_int32 (y z : ℤ) : int32 (y * int32 z) = int32 (y * z) := Int.mul_bmod_bmod

/-- `cdd_rehash` doubles the buckets: no node is lost, and no two nodes change their order. -/
theorem cddRehash_spec (ht : TableOk man.hashfunc man.sentinel level n h tbl c)
    (hs : ∀ j < tbl.size, man.sentinel ∉ c j) (hshift : 3 ≤ tbl.shift) (hn : n < E.fuel) :
    ∃ h' tbl', cddRehash E h man tbl = .done (h', tbl') ∧ h' = { h with next := h'.next } ∧
      tbl'.shift = tbl.shift - 1 ∧ tbl'.keys = tbl.keys ∧ tbl'.deadcnt = tbl.deadcnt ∧
      TableOk man.hashfunc man.sentinel level n h' tbl'
        (splitChain (newBucket man.hashfunc h tbl) c) ∧
      ∀ a, (∀ j < tbl.size, a ∉ c j) → h'.next a = h.next a := by
  have hmem {a : ℤ} : a ∈ (List.range tbl.size).flatMap c ↔ ∃ j < tbl.size, a ∈ c j := by
    simp [List.mem_flatMap]
  obtain ⟨m, hrun, hchain, -, hnext⟩ := splitBuckets_spec (E := E) (newBucket man.hashfunc h tbl)
    (s := man.sentinel) (m := ⟨fun _ ↦ 0, h.next⟩) List.nodup_range
    (fun j hj ↦ ht.segment j (List.mem_range.mp hj))
    (fun hmem' ↦ by
      obtain ⟨j, hj, ha⟩ := hmem.mp hmem'
      exact hs j hj ha)
    ht.flatMap_nodup (fun j hj ↦ lt_of_le_of_lt (ht.length j (List.mem_range.mp hj)) hn)
  have hle := ht.le
  have hsize : (2 : ℤ) * tbl.buckets = 2 ^ (32 - (tbl.shift - 1)) := by
    have hexp : 32 - (tbl.shift - 1) = (32 - tbl.shift) + 1 := by omega
    rw [ht.buckets, SubTable.size, hexp, pow_succ]
    push_cast
    ring
  have hbound : (2 : ℤ) ^ (32 - (tbl.shift - 1)) ≤ 2 ^ 30 :=
    pow_le_pow_right₀ (by norm_num) (by omega)
  have hpow : (0 : ℤ) < 2 ^ (32 - (tbl.shift - 1)) := by positivity
  have hbuckets : int32 (2 * tbl.buckets) = 2 * tbl.buckets := by
    rw [hsize]
    exact int32_of_mem (by omega) (by omega)
  set tbl' : SubTable := { tbl with
    buckets := int32 (2 * tbl.buckets)
    shift := tbl.shift - 1
    maxkeys := int32 (2 * tbl.maxkeys)
    hash := m.head } with htbl'
  have hsize' : tbl'.size = 2 * tbl.size := by
    have hexp : 32 - (tbl.shift - 1) = (32 - tbl.shift) + 1 := by omega
    show 2 ^ (32 - (tbl.shift - 1)) = 2 * 2 ^ (32 - tbl.shift)
    rw [hexp, pow_succ]
    ring
  have hhalf {j : ℕ} (hj : j < tbl'.size) : j / 2 < tbl.size := by omega
  refine ⟨{ h with next := m.next }, tbl', ?_, rfl, rfl, rfl, rfl, ?_, ?_⟩
  · have hpos : ¬ int32 (2 * tbl.buckets) < 0 := by
      rw [hbuckets, hsize]
      omega
    have hrange : tbl.buckets.toNat = tbl.size := by
      rw [ht.buckets]
      rfl
    unfold newBucket at hrun
    simp only [cddRehash, hpos, if_false, hrange, hrun]
    rfl
  · refine ⟨?_, ?_, ?_, ?_, ?_, ?_, ?_, ?_, ?_⟩
    · show 2 ≤ tbl.shift - 1
      omega
    · show tbl.shift - 1 ≤ 24
      omega
    · show int32 (2 * tbl.buckets) = _
      rw [hbuckets, ht.buckets, hsize']
      push_cast
      ring
    · show int32 (2 * tbl.maxkeys) = int32 (HASH_DENSITY * int32 (2 * tbl.buckets))
      rw [hbuckets, ht.maxkeys, int32_mul_int32]
      congr 1
      ring
    · intro j hj
      obtain ⟨hlower, hupper⟩ := hchain (j / 2) (List.mem_range.mpr (hhalf hj))
      unfold splitChain
      by_cases hbit : j % 2 = 1
      · have heq : 2 * (j / 2) + 1 = j := by omega
        rw [if_pos hbit]
        rw [heq] at hupper
        exact hupper
      · have heq : 2 * (j / 2) = j := by omega
        rw [if_neg hbit]
        rw [heq] at hlower
        exact hlower
    · intro j hj
      exact (ht.decreasing (j / 2) (hhalf hj)).sublist splitChain_sublist
    · intro j hj a ha
      obtain ⟨hold, hbit⟩ := mem_splitChain.mp ha
      have hdiv := ht.newBucket_div (hhalf hj) hold
      show newBucket man.hashfunc h tbl a = j
      omega
    · intro j hj a ha
      exact ht.level (j / 2) (hhalf hj) a (mem_splitChain.mp ha).1
    · intro j hj
      exact le_trans splitChain_sublist.length_le (ht.length (j / 2) (hhalf hj))
  · intro a ha
    apply hnext
    intro hmem'
    obtain ⟨j, hj, hmem'⟩ := hmem.mp hmem'
    exact ha j hj hmem'

/-- With `2 ^ 30` buckets the number of buckets wraps around. -/
theorem cddRehash_failed (hbuckets : tbl.buckets = 2 ^ 30) : cddRehash E h man tbl = .failed := by
  have hneg : int32 (2 * tbl.buckets) < 0 := by
    rw [hbuckets]
    decide
  simp only [cddRehash, hneg, if_true]

/-! ### A new node -/

/-- The links with `node` put in at the cursor. -/
def linkNode (h : Heap) (tbl : SubTable) (p : Cursor ℕ ℤ) (node : ℤ) : Links ℕ ℤ :=
  ((Links.mk tbl.hash h.next).set (.next node) ((Links.mk tbl.hash h.next).get p)).set p node

/-- The heap with the new node. -/
def placeNode (h : Heap) (tbl : SubTable) (p : Cursor ℕ ℤ) (level : ℕ) (key : List ℤ) (node : ℤ) :
    Heap :=
  { h with
    next := (linkNode h tbl p node).next
    level := Function.update h.level node level
    ref := Function.update h.ref node 0
    key := Function.update h.key node key }

/-- The subtable with the new node. -/
def placeTable (h : Heap) (tbl : SubTable) (p : Cursor ℕ ℤ) (node : ℤ) : SubTable :=
  { tbl with hash := (linkNode h tbl p node).head, keys := int32 (tbl.keys + 1) }

/-- Where the search for a key stops in the chain of a bucket. -/
def position (h : Heap) (c : ℕ → List ℤ) (j : ℕ) (key : List ℤ) : Cursor ℕ ℤ :=
  outlet j ((c j).takeWhile fun a ↦ decide (key < h.key a))

/-- The chains with the new node. -/
def placeChain (h : Heap) (c : ℕ → List ℤ) (j : ℕ) (key : List ℤ) (node : ℤ) : ℕ → List ℤ :=
  Function.update c j ((c j).takeWhile (fun a ↦ decide (key < h.key a)) ++
    node :: (c j).dropWhile fun a ↦ decide (key < h.key a))

theorem mem_placeChain {key : List ℤ} {k : ℕ} :
    a ∈ placeChain h c j key node k ↔ a ∈ c k ∨ (k = j ∧ a = node) := by
  unfold placeChain
  by_cases hk : k = j
  · subst hk
    rw [Function.update_self, List.mem_append, List.mem_cons]
    have hsplit : a ∈ c k ↔ a ∈ (c k).takeWhile (fun a ↦ decide (key < h.key a)) ∨
        a ∈ (c k).dropWhile fun a ↦ decide (key < h.key a) := by
      rw [← List.mem_append, List.takeWhile_append_dropWhile]
    rw [hsplit]
    tauto
  · rw [Function.update_of_ne hk]
    tauto

/-- The link of a node that is not the new one and not in the bucket is as it was. -/
theorem linkNode_next {key : List ℤ} (hne : a ≠ node) (hc : a ∉ c j) :
    (linkNode h tbl (position h c j key) node).next a = h.next a := by
  unfold linkNode position
  rw [set_outlet_next fun hmem ↦ hc (List.takeWhile_subset _ hmem), set_next_other hne]

/-- A subtable takes in a new node whose key it does not hold. -/
theorem TableOk.place (ht : TableOk hashfunc s level n h tbl c) {key : List ℤ} (hj : j < tbl.size)
    (hash : hashfunc key / 2 ^ tbl.shift = j) (hkey : ∀ a ∈ c j, h.key a ≠ key)
    (hnode : ∀ j < tbl.size, node ∉ c j) :
    TableOk hashfunc s level (n + 1) (placeNode h tbl (position h c j key) level key node)
      (placeTable h tbl (position h c j key) node) (placeChain h c j key node) := by
  have hsplit : (c j).takeWhile (fun a ↦ decide (key < h.key a)) ++
      (c j).dropWhile (fun a ↦ decide (key < h.key a)) = c j := List.takeWhile_append_dropWhile
  have hold (k : ℕ) (hk : k < tbl.size) (a : ℤ) (ha : a ∈ c k) :
      Function.update h.key node key a = h.key a ∧
        Function.update h.level node level a = h.level a := by
    have hne : a ≠ node := fun heq ↦ hnode k hk (heq ▸ ha)
    exact ⟨Function.update_of_ne hne _ _, Function.update_of_ne hne _ _⟩
  refine ⟨ht.two_le, ht.le, ht.buckets, ht.maxkeys, ?_, ?_, ?_, ?_, ?_⟩
  · intro k hk
    show Segment (linkNode h tbl (position h c j key) node).next s
      ((linkNode h tbl (position h c j key) node).head k) (placeChain h c j key node k)
    by_cases heq : k = j
    · subst heq
      have hseg := ht.segment k hk
      have hnodup := (ht.decreasing k hk).nodup
      have hnot := hnode k hk
      rw [← hsplit] at hseg hnodup hnot
      rw [placeChain, Function.update_self]
      exact segment_insert (m := ⟨tbl.hash, h.next⟩) hseg hnodup hnot
    · rw [placeChain, Function.update_of_ne heq, linkNode, position, set_outlet_head heq,
        set_next_head]
      apply (ht.segment k hk).congr
      intro a ha
      apply linkNode_next
      · exact fun h ↦ hnode k hk (h ▸ ha)
      · intro ha'
        exact heq ((ht.placed k hk a ha).symm.trans (ht.placed j hj a ha'))
  · intro k hk
    show Decreasing (Function.update h.key node key) (placeChain h c j key node k)
    by_cases heq : k = j
    · subst heq
      have hself : Function.update h.key node key node = key := Function.update_self _ _ _
      have hins := Decreasing.insert (a := node) (f := fun a ↦ decide (key < h.key a))
        ((ht.decreasing k hk).congr fun a ha ↦ (hold k hk a ha).1)
        (fun a ha ↦ by rw [(hold k hk a ha).1, hself, decide_eq_true_eq])
        (fun a ha ↦ by
          rw [(hold k hk a ha).1, hself]
          exact hkey a ha)
      rw [placeChain, Function.update_self]
      exact hins
    · rw [placeChain, Function.update_of_ne heq]
      exact (ht.decreasing k hk).congr fun a ha ↦ (hold k hk a ha).1
  · intro k hk a ha
    show hashfunc (Function.update h.key node key a) / 2 ^ tbl.shift = k
    cases mem_placeChain.mp ha with
    | inl ha =>
      rw [(hold k hk a ha).1]
      exact ht.placed k hk a ha
    | inr hnew =>
      rw [hnew.1, hnew.2, Function.update_self]
      exact hash
  · intro k hk a ha
    show Function.update h.level node level a = level
    cases mem_placeChain.mp ha with
    | inl ha =>
      rw [(hold k hk a ha).2]
      exact ht.level k hk a ha
    | inr hnew => rw [hnew.2, Function.update_self]
  · intro k hk
    have hlen := ht.length k hk
    by_cases heq : k = j
    · subst heq
      rw [placeChain, Function.update_self, List.length_append, List.length_cons]
      rw [← hsplit, List.length_append] at hlen
      omega
    · rw [placeChain, Function.update_of_ne heq]
      omega

/-- What a subtable that has taken in a node may have done to the heap. -/
structure Placed (level : ℕ) (key : List ℤ) (node : ℤ) (h : Heap) (tbl : SubTable)
    (c : ℕ → List ℤ) (h' : Heap) (tbl' : SubTable) (c' : ℕ → List ℤ) : Prop where
  next : ∀ a, a ≠ node → (∀ j < tbl.size, a ∉ c j) → h'.next a = h.next a
  level_eq : h'.level = Function.update h.level node level
  ref_eq : h'.ref = Function.update h.ref node 0
  key_eq : h'.key = Function.update h.key node key
  chunks : h'.chunks = h.chunks
  gbccnt : h'.gbccnt = h.gbccnt
  stored : ∀ a, (∃ j < tbl'.size, a ∈ c' j) ↔ a = node ∨ ∃ j < tbl.size, a ∈ c j

/-- A manager with a changed subtable is as good as before. -/
theorem StoredOk.replace (hs : StoredOk bytes words levelcnt n h man F chain)
    (htbl : man.subtables level = some tbl) (hnode : NewNode bytes man F chain node)
    {tbl' : SubTable} {key : List ℤ} (hkey : key.length = words)
    (ht' : TableOk man.hashfunc man.sentinel level (n + 1) h' tbl' c)
    (hp : Placed level key node h tbl (chain level) h' tbl' c) :
    StoredOk bytes words levelcnt (n + 1) h'
      { man with subtables := Function.update man.subtables level (some tbl') } F
      (Function.update chain level c) := by
  have hsub {i : ℕ} {tbl₂ : SubTable}
      (hi : Function.update man.subtables level (some tbl') i = some tbl₂) :
      (i = level ∧ tbl₂ = tbl') ∨ (i ≠ level ∧ man.subtables i = some tbl₂) := by
    by_cases heq : i = level
    · subst heq
      rw [Function.update_self, Option.some.injEq] at hi
      exact Or.inl ⟨rfl, hi.symm⟩
    · rw [Function.update_of_ne heq] at hi
      exact Or.inr ⟨heq, hi⟩
  have hself : Function.update chain level c level = c := Function.update_self _ _ _
  have hother {i : ℕ} (hi : i ≠ level) : Function.update chain level c i = chain i :=
    Function.update_of_ne hi _ _
  have hkey_eq {a : ℤ} (ha : a ≠ node) : h'.key a = h.key a := by
    rw [hp.key_eq]
    exact Function.update_of_ne ha _ _
  have hlevel_eq {a : ℤ} (ha : a ≠ node) : h'.level a = h.level a := by
    rw [hp.level_eq]
    exact Function.update_of_ne ha _ _
  refine ⟨hs.hash_lt, hs.sentinel, hs.sentinel_free, ?_, ?_, ?_, ?_, ?_⟩
  · rw [hkey_eq hnode.sentinel.symm]
    exact hs.zero
  · intro i tbl₂ hi
    cases hsub hi with
    | inl heq => exact heq.1 ▸ hs.level_lt level tbl htbl
    | inr hne => exact hs.level_lt i tbl₂ hne.2
  · intro i tbl₂ hi
    cases hsub hi with
    | inl heq =>
      rw [heq.1, heq.2, hself]
      exact ht'
    | inr hne =>
      rw [hother hne.1]
      have ht := hs.table i tbl₂ hne.2
      have hnot {j : ℕ} (hj : j < tbl₂.size) {a : ℤ} (ha : a ∈ chain i j) : a ≠ node :=
        fun heq ↦ hnode.stored i tbl₂ hne.2 j hj (heq ▸ ha)
      have ht₂ := ht.congr
        (fun j hj a ha ↦ hp.next a (hnot hj ha) fun k hk ha' ↦
          hne.1 (hs.ne_of_level hne.2 htbl hj hk ha ha'))
        (fun j hj a ha ↦ hkey_eq (hnot hj ha)) (fun j hj a ha ↦ hlevel_eq (hnot hj ha))
      exact { ht₂ with length := fun j hj ↦ le_trans (ht.length j hj) (Nat.le_succ n) }
  · intro i tbl₂ hi j hj a ha
    cases hsub hi with
    | inl heq =>
      rw [heq.1, hself] at ha
      rw [heq.2] at hj
      cases (hp.stored a).mp ⟨j, hj, ha⟩ with
      | inl heq => exact heq ▸ ⟨hnode.slot, hnode.free, hnode.sentinel⟩
      | inr hex =>
        obtain ⟨k, hk, ha⟩ := hex
        exact hs.slot level tbl htbl k hk a ha
    | inr hne =>
      rw [hother hne.1] at ha
      exact hs.slot i tbl₂ hne.2 j hj a ha
  · intro i tbl₂ hi j hj a ha
    by_cases heqa : a = node
    · rw [heqa, hp.key_eq, Function.update_self]
      exact hkey
    · rw [hkey_eq heqa]
      cases hsub hi with
      | inl heq =>
        rw [heq.1, hself] at ha
        rw [heq.2] at hj
        cases (hp.stored a).mp ⟨j, hj, ha⟩ with
        | inl heq => exact absurd heq heqa
        | inr hex =>
          obtain ⟨k, hk, ha⟩ := hex
          exact hs.words level tbl htbl k hk a ha
      | inr hne =>
        rw [hother hne.1] at ha
        exact hs.words i tbl₂ hne.2 j hj a ha

theorem placed_place {key : List ℤ} (hj : j < tbl.size) :
    Placed level key node h tbl c (placeNode h tbl (position h c j key) level key node)
      (placeTable h tbl (position h c j key) node) (placeChain h c j key node) where
  next a ha hc := linkNode_next ha (hc j hj)
  level_eq := rfl
  ref_eq := rfl
  key_eq := rfl
  chunks := rfl
  gbccnt := rfl
  stored a := by
    show (∃ k < tbl.size, _) ↔ _
    constructor
    · intro hex
      obtain ⟨k, hk, ha⟩ := hex
      cases mem_placeChain.mp ha with
      | inl ha => exact Or.inr ⟨k, hk, ha⟩
      | inr hnew => exact Or.inl hnew.2
    · intro hor
      cases hor with
      | inl heq => exact ⟨j, hj, mem_placeChain.mpr (Or.inr ⟨rfl, heq⟩)⟩
      | inr hex =>
        obtain ⟨k, hk, ha⟩ := hex
        exact ⟨k, hk, mem_placeChain.mpr (Or.inl ha)⟩

/-- Rehashing after a node was put in. -/
theorem Placed.rehash {h₁ h₂ : Heap} {tbl₁ tbl₂ : SubTable} {c₁ : ℕ → List ℤ} {key : List ℤ}
    (hp : Placed level key node h tbl c h₁ tbl₁ c₁)
    (ht : TableOk hashfunc s level n h₁ tbl₁ c₁) (hheap : h₂ = { h₁ with next := h₂.next })
    (hshift : tbl₂.shift = tbl₁.shift - 1)
    (hnext : ∀ a, (∀ j < tbl₁.size, a ∉ c₁ j) → h₂.next a = h₁.next a) :
    Placed level key node h tbl c h₂ tbl₂ (splitChain (newBucket hashfunc h₁ tbl₁) c₁) where
  next a ha hc := by
    rw [hnext a, hp.next a ha hc]
    intro j hj hmem
    cases (hp.stored a).mp ⟨j, hj, hmem⟩ with
    | inl heq => exact ha heq
    | inr hex =>
      obtain ⟨k, hk, hmem⟩ := hex
      exact hc k hk hmem
  level_eq := by rw [hheap, hp.level_eq]
  ref_eq := by rw [hheap, hp.ref_eq]
  key_eq := by rw [hheap, hp.key_eq]
  chunks := by rw [hheap, hp.chunks]
  gbccnt := by rw [hheap, hp.gbccnt]
  stored a := by
    rw [← hp.stored a]
    have htwo := ht.two_le
    have hle := ht.le
    have hsize : tbl₂.size = 2 * tbl₁.size := by
      have hexp : 32 - (tbl₁.shift - 1) = (32 - tbl₁.shift) + 1 := by omega
      rw [SubTable.size, SubTable.size, hshift, hexp, pow_succ]
      ring
    constructor
    · intro hex
      obtain ⟨j, hj, ha⟩ := hex
      exact ⟨j / 2, by omega, (mem_splitChain.mp ha).1⟩
    · intro hex
      obtain ⟨j, hj, ha⟩ := hex
      have hdiv := ht.newBucket_div hj ha
      refine ⟨newBucket hashfunc h₁ tbl₁ a, by omega, mem_splitChain.mpr ⟨?_, rfl⟩⟩
      rw [hdiv]
      exact ha

/-- The cursor that was found for a key, in the subtable as it is. -/
theorem TableOk.find_eq (ht : TableOk hashfunc s level n h tbl c)
    (hS : SearchOk E words hashfunc S) (hj : j < tbl.size)
    (hzero : h.key s = List.replicate words 0) (hwords : ∀ a ∈ c j, (h.key a).length = words)
    (hn : n < E.fuel) :
    S.find h ⟨tbl.hash, h.next⟩ (.head j) = .done (position h c j S.key) :=
  hS.find h ⟨tbl.hash, h.next⟩ j (c j) s (ht.segment j hj) hzero hwords (ht.decreasing j hj)
    (lt_of_le_of_lt (ht.length j hj) hn)

/-- A subtable has too many buckets to be doubled. -/
def Overflows (tbl : SubTable) (keys : ℤ) : Prop :=
  tbl.maxkeys < int32 (keys + 1) ∧ tbl.buckets = 2 ^ 30

/-- The new node goes into the subtable, and then the subtable may have to grow. -/
theorem insertNode_eq (cnt node : ℤ) (p : Cursor ℕ ℤ)
    (hs : StoredOk bytes words levelcnt n h man F chain) (htbl : man.subtables level = some tbl)
    (hS : SearchOk E words man.hashfunc S) (hj : j < tbl.size)
    (hp : cnt = h.gbccnt → p = position h (chain level) j S.key) (hn : n < E.fuel) :
    insertNode E level S j p cnt node h man = (do
      let (h', tbl') ← growTable E
        (placeNode h tbl (position h (chain level) j S.key) level S.key node) man
        (placeTable h tbl (position h (chain level) j S.key) node)
      return (h', { man with subtables := Function.update man.subtables level (some tbl') })) := by
  have ht := hs.table level tbl htbl
  have hfind := ht.find_eq hS hj hs.zero (hs.words level tbl htbl j hj) hn
  have hcur : refind S cnt h ⟨tbl.hash, h.next⟩ j p =
      .done (position h (chain level) j S.key) := by
    unfold refind
    by_cases hcnt : cnt = h.gbccnt
    · rw [if_neg (by simpa using hcnt), hp hcnt]
    · rw [if_pos hcnt, hfind]
  simp only [insertNode, htbl, hcur, Run.done_bind]
  rfl

/-- The number of buckets wraps around. -/
theorem insertNode_failed (cnt : ℤ) (p : Cursor ℕ ℤ)
    (hs : StoredOk bytes words levelcnt n h man F chain) (htbl : man.subtables level = some tbl)
    (hS : SearchOk E words man.hashfunc S) (hj : j < tbl.size)
    (hp : cnt = h.gbccnt → p = position h (chain level) j S.key)
    (hover : Overflows tbl tbl.keys) (hn : n < E.fuel) :
    insertNode E level S j p cnt node h man = .failed := by
  set h₁ := placeNode h tbl (position h (chain level) j S.key) level S.key node with hh₁
  set tbl₁ := placeTable h tbl (position h (chain level) j S.key) node with htbl₁
  have hfull : tbl₁.maxkeys < tbl₁.keys := hover.1
  have hfail : cddRehash E h₁ man tbl₁ = .failed := cddRehash_failed hover.2
  rw [insertNode_eq cnt node p hs htbl hS hj hp hn, ← hh₁, ← htbl₁, growTable, if_pos hfull, hfail]
  rfl

theorem insertNode_spec (cnt : ℤ) (p : Cursor ℕ ℤ) (hfree : FreeOk bytes h man F)
    (hs : StoredOk bytes words levelcnt n h man F chain) (htbl : man.subtables level = some tbl)
    (hnode : NewNode bytes man F chain node) (hS : SearchOk E words man.hashfunc S)
    (hbucket : S.hash / 2 ^ tbl.shift = j) (hj : j < tbl.size)
    (hkey : ∀ a ∈ chain level j, h.key a ≠ S.key)
    (hp : cnt = h.gbccnt → p = position h (chain level) j S.key)
    (hgrow : ¬ Overflows tbl tbl.keys) (hn : n + 1 < E.fuel) :
    ∃ h' tbl' c, insertNode E level S j p cnt node h man = .done (h',
        { man with subtables := Function.update man.subtables level (some tbl') }) ∧
      FreeOk bytes h' { man with subtables := Function.update man.subtables level (some tbl') } F ∧
      StoredOk bytes words levelcnt (n + 1) h'
        { man with subtables := Function.update man.subtables level (some tbl') } F
        (Function.update chain level c) ∧
      Placed level S.key node h tbl (chain level) h' tbl' c := by
  have ht := hs.table level tbl htbl
  have hhash : man.hashfunc S.key / 2 ^ tbl.shift = j := hS.hash ▸ hbucket
  have ht₁ := ht.place hj hhash hkey (hnode.stored level tbl htbl)
  have hp₁ : Placed level S.key node h tbl (chain level) _ _ _ := placed_place hj
  have hfinish {h' : Heap} {tbl' : SubTable} {c : ℕ → List ℤ}
      (ht' : TableOk man.hashfunc man.sentinel level (n + 1) h' tbl' c)
      (hp' : Placed level S.key node h tbl (chain level) h' tbl' c) :
      FreeOk bytes h' { man with subtables := Function.update man.subtables level (some tbl') } F ∧
      StoredOk bytes words levelcnt (n + 1) h'
        { man with subtables := Function.update man.subtables level (some tbl') } F
        (Function.update chain level c) := by
    refine ⟨⟨hfree.nodesize, hfree.chunk, ?_, hfree.nodup, hfree.slot⟩,
      hs.replace htbl hnode hS.length ht' hp'⟩
    apply hfree.segment.congr
    intro a ha
    apply hp'.next
    · exact fun heq ↦ hnode.free (heq ▸ ha)
    · exact fun k hk hmem ↦ (hs.slot level tbl htbl k hk a hmem).2.1 ha
  set tbl₁ := placeTable h tbl (position h (chain level) j S.key) node with htbl₁
  set h₁ := placeNode h tbl (position h (chain level) j S.key) level S.key node with hh₁
  have hunfold := insertNode_eq (E := E) cnt node p hs htbl hS hj hp (by omega)
  rw [← htbl₁, ← hh₁] at hunfold
  by_cases hfull : tbl₁.maxkeys < tbl₁.keys
  · have htwo := ht.two_le
    have hshift : 3 ≤ tbl₁.shift := by
      by_contra hlt
      have heq : tbl.shift = 2 := by
        have : ¬ 3 ≤ tbl.shift := hlt
        omega
      apply hgrow
      refine ⟨hfull, ?_⟩
      rw [ht.buckets, SubTable.size, heq]
      norm_num
    obtain ⟨h₂, tbl₂, hrun, hheap, hshift₂, -, -, ht₂, hnext⟩ := cddRehash_spec ht₁
      (fun k hk hmem ↦ by
        cases (hp₁.stored _).mp ⟨k, hk, hmem⟩ with
        | inl heq => exact hnode.sentinel heq.symm
        | inr hex =>
          obtain ⟨k, hk, hmem⟩ := hex
          exact (hs.slot level tbl htbl k hk _ hmem).2.2 rfl)
      hshift hn
    have hp₂ := hp₁.rehash ht₁ hheap hshift₂ hnext
    obtain ⟨hfree', hs'⟩ := hfinish ht₂ hp₂
    refine ⟨h₂, tbl₂, _, ?_, hfree', hs', hp₂⟩
    rw [hunfold, growTable, if_pos hfull, hrun]
    rfl
  · obtain ⟨hfree', hs'⟩ := hfinish ht₁ hp₁
    refine ⟨h₁, tbl₁, _, ?_, hfree', hs', hp₁⟩
    rw [hunfold, growTable, if_neg hfull]
    rfl

end

end NodeTable

end UCDD

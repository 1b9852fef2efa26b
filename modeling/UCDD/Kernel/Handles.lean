import UCDD.Kernel.Building

/-!
# The kernel and the diagrams

A caller of the kernel holds references to diagrams, as the objects of `include/cdd/cdd.h` do. It
makes nodes above them, copies, negates and drops them, while nodes are collected and tables grow.
Every pointer that it holds stands for the same diagram all the time, the one that the functions on
trees build, and with the same padding everywhere equal diagrams are at one address.
-/

namespace UCDD

namespace NodeTable

open HashChain Loop Links Counter RefCount

/-- The pointer stands for the tree, and its node is accounted for. -/
structure Kernel.Stands (T : Terminals) (Q : ℤ → Prop) (k : Kernel) (N : Finset ℤ) (p : ℤ)
    (t : DdNode) : Prop where
  reads : Reads T Q k.Record p t
  accounted : cddRglr p ∈ T.nodes ∨ cddRglr p ∈ N

section

variable {E : Env} {L : Library} {T : Terminals} {Q : ℤ → Prop} {a p low high : ℤ}
  {level n i : ℕ} {man : NodeManager} {S : Search} {k k' : Kernel} {key : List ℤ}
  {elem : List Elem} {telem : List (DdNode × Raw)} {N N' : Finset ℤ} {H : Multiset ℤ}
  {t tlow thigh : DdNode} {node : ℕ → ℕ → ℤ → List ℤ → Prop} {W : ℤ → Prop}

/-! ### Pointers -/

theorem cddRglr_negCond {neg : Bool} (ha : a % 2 = 0) : cddRglr (cddNegCond a (bit neg)) = a := by
  unfold cddNegCond cddRglr bit
  cases neg <;> simp only [if_true, Bool.false_eq_true, if_false] <;> omega

theorem cddMask_negCond {neg : Bool} (ha : a % 2 = 0) :
    cddMask (cddNegCond a (bit neg)) = bit neg := by
  unfold cddNegCond cddRglr cddMask bit
  cases neg <;> simp only [if_true, Bool.false_eq_true, if_false] <;> omega

theorem negCond_cddMask (p : ℤ) : cddNegCond p (cddMask p) = cddRglr p := by
  unfold cddNegCond cddMask cddRglr
  omega

theorem cddRglr_negCond_mask (p q : ℤ) : cddRglr (cddNegCond p (cddMask q)) = cddRglr p := by
  unfold cddNegCond cddMask cddRglr
  omega

theorem Reads.mask (hT : Addressed T node) (h : Reads T Q node p t) :
    cddMask p = bit (UCDD.cddMask t) := by
  cases h with
  | terminal neg => exact cddMask_negCond hT.even_cddfalse
  | xterm neg ha => exact cddMask_negCond (hT.even_extra ha)
  | bdd neg hn => exact cddMask_negCond (hT.even _ _ _ _ hn)
  | cdd neg hn => exact cddMask_negCond (hT.even _ _ _ _ hn)

theorem Reads.rglr (hT : Addressed T node) (h : Reads T Q node p t) :
    Reads T Q node (cddRglr p) (UCDD.cddRglr t) := by
  have hneg := h.negCond (UCDD.cddMask t)
  rwa [← h.mask hT, negCond_cddMask] at hneg

/-! ### What a reference leads to -/

theorem NodeKind.isBdd (h : NodeKind L 0 level key) : L.levelinfo[level]? = some .bdd := by
  generalize hi : 0 = i at h
  cases h with
  | bdd low high htype => exact htype
  | cdd elem htype htwo => omega

theorem NodeKind.isCdd (h : NodeKind L elem.length level (elemBytes elem)) (htwo : 2 ≤ elem.length)
    (hfits : ∀ e ∈ elem, e.Fits) : L.isCdd level ∧ Terminated elem := by
  generalize hi : elem.length = i at h
  generalize hkey : elemBytes elem = key at h
  cases h with
  | bdd low high htype => omega
  | cdd elem' htype htwo' hfits' hterm =>
    rw [(elemBytes_inj hfits hfits').mp hkey]
    exact ⟨htype, hterm⟩

theorem Kernel.Kept.references_bdd (hk : k.Kept E L T n N H) (ha : k.Record 0 level a [low, high]) :
    k.references L a = [cddRglr low, cddRglr high] := by
  have hkind := hk.kind 0 level a ha.1
  rw [Kernel.references, Kernel.children_bdd (hk.ok.level_eq ha.1) hkind.isBdd ha.2]
  rfl

theorem Kernel.Kept.references_cdd (hk : k.Kept E L T n N H)
    (ha : k.Record elem.length level a (elemBytes elem)) (htwo : 2 ≤ elem.length)
    (hfits : ∀ e ∈ elem, e.Fits) :
    k.references L a = (elem.map Elem.child).map cddRglr := by
  have hkind := hk.kind _ level a ha.1
  rw [ha.2] at hkind
  obtain ⟨htype, hterm⟩ := hkind.isCdd htwo hfits
  rw [Kernel.references, Kernel.children_cdd (hk.ok.level_eq ha.1) htype ha.2 hfits hterm]

/-- What a pointer reads as is needed if its own node is: the nodes below have references. -/
theorem Kernel.Kept.reads_needed (hk : k.Kept E L T n N H) (h : Reads T Q k.Record p t)
    (hp : cddRglr p ∈ T.nodes ∨ (cddRglr p ∈ N ∧ W (cddRglr p)))
    (hW : ∀ b, k.heap.ref b ≠ 0 → W b) :
    Reads T Q (fun i level a key ↦ k.Record i level a key ∧ W a) p t := by
  have hT := hk.ok.addressed hk.outside
  -- a child of a node that is accounted for
  have hchild {a c : ℤ} (ha : a ∈ N) (hc : c ∈ k.references L a) :
      c ∈ T.nodes ∨ (c ∈ N ∧ W c) :=
    (hk.counted.closed a ha c hc).imp_right fun hN ↦ ⟨hN, hW c (hk.counted.child_ne_zero ha hc)⟩
  induction h with
  | terminal neg => exact .terminal neg
  | xterm neg ha => exact .xterm neg ha
  | bdd neg hn _ _ ihl ihh =>
    rw [cddRglr_negCond (hT.even _ _ _ _ hn)] at hp
    have ha := hp.resolve_left (hT.not_terminal _ _ _ _ hn)
    have hrefs := hk.references_bdd hn
    exact .bdd neg ⟨hn, ha.2⟩ (ihl (hchild ha.1 (hrefs ▸ List.mem_cons_self)))
      (ihh (hchild ha.1 (hrefs ▸ List.mem_cons_of_mem _ List.mem_cons_self)))
  | cdd neg hn htwo hfits hbnd _ ih =>
    rw [cddRglr_negCond (hT.even _ _ _ _ hn)] at hp
    have ha := hp.resolve_left (hT.not_terminal _ _ _ _ hn)
    have hrefs := hk.references_cdd hn htwo fun e he ↦ (hfits e he).1
    refine .cdd neg ⟨hn, ha.2⟩ htwo hfits hbnd fun m e q he hq ↦ ih m e q he hq ?_
    apply hchild ha.1
    rw [hrefs]
    exact List.mem_map_of_mem (List.mem_map_of_mem (List.mem_of_getElem? he))

/-- A pointer that is referenced stands for the same tree after an operation that keeps what is
needed. -/
theorem Kernel.Kept.stands (hk : k.Kept E L T n N H) (hk' : k'.Kept E L T i N' H)
    (h : k.Stands T Q N p t) (hp : cddRglr p ∈ H) (hext : k.Extends k' W)
    (hW : ∀ b, k.heap.ref b ≠ 0 → W b) : k'.Stands T Q N' p t := by
  refine ⟨?_, hk'.counted.outer _ hp⟩
  have hneeded := hk.reads_needed h.reads (h.accounted.imp_right fun hN ↦
    ⟨hN, hW _ (hk.counted.ref_ne_zero hp)⟩) hW
  exact hneeded.mono fun i level a key hrec ↦ hext i level a key hrec.1 hrec.2

/-- Two pointers are equal exactly when they stand for one tree. -/
theorem Kernel.Kept.stands_eq_iff (hk : k.Kept E L T n N H) (hpad : ∀ x y, Q x → Q y → x = y)
    (hl : k.Stands T Q N low tlow) (hh : k.Stands T Q N high thigh) :
    low = high ↔ tlow = thigh := by
  constructor
  · intro heq
    subst heq
    exact hl.reads.unique (hk.ok.addressed hk.outside) hh.reads
  · intro heq
    subst heq
    have honce (i level : ℕ) (a b : ℤ) (key : List ℤ) (ha : k.Record i level a key)
        (hb : k.Record i level b key) : a = b := hk.ok.stored_once ha hb
    exact hl.reads.injective honce hpad hh.reads

/-- The address is not `NULL`. -/
theorem Kernel.Kept.pos (hk : k.Kept E L T n N H) (hE : E.Valid)
    (hp : cddRglr p ∈ T.nodes ∨ cddRglr p ∈ N) : 0 < cddRglr p := by
  cases hp with
  | inl hterm => exact hk.outside.pos _ hterm
  | inr hN =>
    obtain ⟨i, level, hholds⟩ := hk.counted.sound _ hN
    obtain ⟨man, hman, hslot⟩ := hk.ok.slot hholds
    obtain ⟨m, -, hm⟩ := hk.ok.chunk i man hman _ hslot.1
    have hpos := hE.pos m
    rw [← hm] at hpos
    unfold cddNode2chunk CHUNKSIZE at hpos
    omega

/-! ### Nodes -/

theorem requests_bdd (htype : L.levelinfo[level]? = some .bdd)
    (hl : cddRglr low ∈ T.nodes ∨ cddRglr low ∈ N)
    (hh : cddRglr high ∈ T.nodes ∨ cddRglr high ∈ N) :
    Requests L T N 0 level (bddSearchOf E low high) where
  kind := .bdd _ _ htype
  children k' a hlevel hkey := Kernel.children_bdd hlevel htype hkey
  accounted c hc := by
    have hmem : c ∈ [cddRglr low, cddNegCond high (cddMask low)] := hc
    rw [List.mem_cons, List.mem_singleton] at hmem
    cases hmem with
    | inl heq => rwa [heq, cddRglr_cddRglr]
    | inr heq => rwa [heq, cddRglr_negCond_mask]

/-- `cdd_make_bdd_node` gives a pointer that stands for the node on trees. -/
theorem Kernel.Kept.obtainBddNode (hk : k.Kept E L T n N H) (hE : E.Valid) (hfuel : 4096 ≤ E.fuel)
    (hn : 2 * (n + 1) + 1 < E.fuel) (hpad : ∀ x y, Q x → Q y → x = y)
    (htype : L.levelinfo[level]? = some .bdd) (hlevel : level < k.levelcnt)
    (hl : k.Stands T Q N low tlow) (hh : k.Stands T Q N high thigh)
    (hrefill : low ≠ high → k.RefillsFor 0 level (bddSearchOf E low high))
    (hgrow : low ≠ high → k.GrowsFor 0 level (bddSearchOf E low high)) :
    ∃ r k' N', k.obtainBddNode E L level low high = .done (r, k') ∧ k'.Kept E L T (n + 1) N' H ∧
      k'.Stands T Q N' r (UCDD.cddMakeBddNode level tlow thigh) ∧
      k'.maxcddsize = k.maxcddsize ∧ k'.levelcnt = k.levelcnt ∧
      k.Extends k' fun b ↦ k.heap.ref b ≠ 0 ∨ b ∈ [cddRglr low, cddRglr high] := by
  have hT := hk.ok.addressed hk.outside
  have hsame := hk.stands_eq_iff hpad hl hh
  by_cases heq : low = high
  · refine ⟨low, k, N, by rw [Kernel.obtainBddNode, if_pos heq]; rfl, hk.mono (Nat.le_succ n), ?_,
      rfl, rfl, fun i level a key ha _ ↦ ha⟩
    rw [UCDD.cddMakeBddNode, if_pos (hsame.mp heq)]
    exact hl
  · obtain ⟨man, hman⟩ := hk.ok.bdd
    have hhash : man.hashfunc = bddHashFunc := hk.ok.hashfunc 0 man hman
    have hS : SearchOk E (keyWords 0) man.hashfunc (bddSearchOf E low high) :=
      hhash ▸ bddSearchOf_ok (hk.pos hE hl.accounted)
    obtain ⟨a, k', N', hrun, hk', ha, hN', hmax, hcnt, hext⟩ := hk.obtainNode hE hfuel hn hman
      hlevel hS (requests_bdd htype hl.accounted hh.accounted) (hrefill heq) (hgrow heq)
    have hchildren : (bddSearchOf E low high).children.map cddRglr =
        [cddRglr low, cddRglr high] := by
      show [cddRglr (cddRglr low), cddRglr (cddNegCond high (cddMask low))] = _
      rw [cddRglr_cddRglr, cddRglr_negCond_mask]
    rw [hchildren] at hext
    have hread {q : ℤ} {u : DdNode} (hq : k.Stands T Q N q u)
        (hmem : cddRglr q ∈ [cddRglr low, cddRglr high]) : Reads T Q k'.Record q u := by
      have hneeded := hk.reads_needed hq.reads
        (W := fun b ↦ k.heap.ref b ≠ 0 ∨ b ∈ [cddRglr low, cddRglr high])
        (hq.accounted.imp_right fun hN ↦ ⟨hN, Or.inr hmem⟩) fun b hb ↦ Or.inl hb
      exact hneeded.mono fun i level a key hrec ↦ hext i level a key hrec.1 hrec.2
    have hT' := hk'.ok.addressed hk'.outside
    have hlow := hread hl List.mem_cons_self
    have hhigh := hread hh (List.mem_cons_of_mem _ List.mem_cons_self)
    refine ⟨cddNegCond a (cddMask low), k', N', ?_, hk', ⟨?_, Or.inr ?_⟩, hmax, hcnt, hext⟩
    · have hnode : k.obtainNode E L 0 level
          (bddSearch E (cddRglr low) (cddNegCond high (cddMask low))) = .done (a, k') := hrun
      simp only [Kernel.obtainBddNode, if_neg heq, hnode]
      rfl
    · rw [UCDD.cddMakeBddNode, if_neg fun h ↦ heq (hsame.mpr h), hlow.mask hT']
      have hneg := hhigh.negCond (UCDD.cddMask tlow)
      rw [← hlow.mask hT'] at hneg
      exact .bdd _ ha (hlow.rglr hT') hneg
    · rw [hlow.mask hT', cddRglr_negCond (hT'.even _ _ _ _ ha)]
      exact hN'

theorem requests_cdd (htype : L.isCdd level) (htwo : 2 ≤ elem.length) (hfits : ∀ e ∈ elem, e.Fits)
    (hterm : Terminated elem) (hacc : ∀ e ∈ elem, cddRglr e.child ∈ T.nodes ∨ cddRglr e.child ∈ N) :
    Requests L T N elem.length level (cddSearch E elem) where
  kind := .cdd elem htype htwo hfits hterm
  children k' a hlevel hkey := Kernel.children_cdd hlevel htype hkey hfits hterm
  accounted c hc := by
    obtain ⟨e, he, rfl⟩ := List.mem_map.mp hc
    exact hacc e he

/-- `cdd_make_cdd_node` gives a pointer that stands for the node on trees. -/
theorem Kernel.Kept.obtainCddNode (hk : k.Kept E L T n N H) (hE : E.Valid) (hfuel : 4096 ≤ E.fuel)
    (hn : 2 * (n + 1) + 1 < E.fuel) (htype : L.isCdd level) (hlevel : level < k.levelcnt)
    (hmax : elem.length ≤ k.maxcddsize) (hterm : Terminated elem)
    (hfits : ∀ e ∈ elem, e.Fits ∧ Q e.pad)
    (hbnd : elem.map (fun e ↦ Raw.ofCode e.bnd) = telem.map Prod.snd)
    (hchild : ∀ (m : ℕ) (e : Elem) (q : DdNode × Raw), elem[m]? = some e → telem[m]? = some q →
      k.Stands T Q N e.child q.1)
    (hrefills : (KernelCall.makeCddNode level elem).Refills E k)
    (hgrows : (KernelCall.makeCddNode level elem).Grows E k) :
    ∃ r k' N' t, k.obtainCddNode E L level elem = .done (r, k') ∧
      UCDD.cddMakeCddNode k.maxcddsize level telem = some t ∧ k'.Kept E L T (n + 1) N' H ∧
      k'.Stands T Q N' r t ∧ k'.maxcddsize = k.maxcddsize ∧ k'.levelcnt = k.levelcnt ∧
      k.Extends k' fun b ↦ k.heap.ref b ≠ 0 ∨ b ∈ (elem.map Elem.child).map cddRglr := by
  have hlen : elem.length = telem.length := by simpa using congrArg List.length hbnd
  have hwide : ¬ (k.maxcddsize : ℕ∞) < telem.length := by
    rw [← hlen, not_lt]
    exact_mod_cast hmax
  by_cases hone : elem.length = 1
  · obtain ⟨e, rfl⟩ := List.length_eq_one_iff.mp hone
    obtain ⟨q, rfl⟩ := List.length_eq_one_iff.mp (hlen.symm.trans hone)
    refine ⟨e.child, k, N, q.1, ?_, ?_, hk.mono (Nat.le_succ n), hchild 0 e q rfl rfl, rfl, rfl,
      fun i level a key ha _ ↦ ha⟩
    · rw [Kernel.obtainCddNode, if_neg (not_lt.mpr hmax)]
      rfl
    · rw [UCDD.cddMakeCddNode, if_neg hwide]
  · have htwo : 2 ≤ elem.length := by
      obtain ⟨first, last, rfl, -⟩ := hterm
      rw [List.length_append, List.length_singleton] at hone ⊢
      omega
    obtain ⟨hroom, hrefill⟩ := hrefills htwo hmax
    obtain ⟨k₁, hopen, hk₁, hcnt₁, hmax₁, ⟨man, hman⟩, hext₁, href₁⟩ :=
      hk.openManager hE hfuel (by omega : elem.length ≠ 0) hmax hroom
    have hfits' (e : Elem) (he : e ∈ elem) : e.Fits := (hfits e he).1
    have hacc (e : Elem) (he : e ∈ elem) : cddRglr e.child ∈ T.nodes ∨ cddRglr e.child ∈ N := by
      obtain ⟨m, hm, heq⟩ := List.getElem_of_mem he
      have hq : telem[m]? = some telem[m] := List.getElem?_eq_getElem (by omega)
      exact (hchild m e _ (by rw [List.getElem?_eq_getElem hm, heq]) hq).accounted
    have hS : SearchOk E (keyWords elem.length) man.hashfunc (cddSearch E elem) := by
      have hhash := hk₁.ok.hashfunc _ man hman
      rw [if_neg (by omega)] at hhash
      obtain ⟨e, e', rest, helem⟩ : ∃ e e' rest, elem = e :: e' :: rest := by
        cases elem with
        | nil => exact absurd htwo (by decide)
        | cons e tail =>
          cases tail with
          | nil => exact absurd rfl hone
          | cons e' rest => exact ⟨e, e', rest, rfl⟩
      have hmem : e ∈ elem := helem ▸ List.mem_cons_self
      have hpos := hk.pos hE (hacc e hmem)
      have hlt := (hfits' e hmem).child.2
      rw [hhash]
      apply cddSearch_nodeBytes helem _ hlt
      unfold cddRglr at hpos
      omega
    obtain ⟨a, k', N', hrun, hk', ha, hN', hmax', hcnt', hext'⟩ := hk₁.obtainNode hE hfuel hn hman
      (hcnt₁ ▸ hlevel) hS (requests_cdd htype htwo hfits' hterm hacc) (hrefill k₁ hopen)
      (hgrows htwo hmax k₁ hopen)
    have hext : k.Extends k' fun b ↦ k.heap.ref b ≠ 0 ∨ b ∈ (elem.map Elem.child).map cddRglr := by
      intro i level b key hb hneeded
      apply hext' i level b key (hext₁ i level b key hb trivial)
      rw [href₁ b ⟨i, level, hb.1⟩]
      exact hneeded
    have hread {q : ℤ} {u : DdNode} (hq : k.Stands T Q N q u)
        (hmem : cddRglr q ∈ (elem.map Elem.child).map cddRglr) : Reads T Q k'.Record q u := by
      have hneeded := hk.reads_needed hq.reads
        (W := fun b ↦ k.heap.ref b ≠ 0 ∨ b ∈ (elem.map Elem.child).map cddRglr)
        (hq.accounted.imp_right fun hN ↦ ⟨hN, Or.inr hmem⟩) fun b hb ↦ Or.inl hb
      exact hneeded.mono fun i level a key hrec ↦ hext i level a key hrec.1 hrec.2
    have heven := (hk'.ok.addressed hk'.outside).even _ _ _ _ ha
    have hregular : cddNegCond a (bit false) = a := by
      unfold cddNegCond cddRglr bit
      simp only [Bool.false_eq_true, if_false]
      omega
    refine ⟨a, k', N', .cdd false level telem, ?_, ?_, hk', ⟨?_, Or.inr ?_⟩,
      hmax'.trans hmax₁, hcnt'.trans hcnt₁, hext⟩
    · rw [Kernel.obtainCddNode, if_neg (not_lt.mpr hmax)]
      · rw [hopen, Run.done_bind, hrun]
      · intro e heq
        exact hone (by rw [heq]; rfl)
    · rw [UCDD.cddMakeCddNode, if_neg hwide]
      intro q heq
      exact hone (by rw [hlen, heq]; rfl)
    · have hreads : Reads T Q k'.Record (cddNegCond a (bit false)) (.cdd false level telem) := by
        refine .cdd false ha htwo hfits hbnd fun m e q he hq ↦ hread (hchild m e q he hq) ?_
        exact List.mem_map_of_mem (List.mem_map_of_mem (List.mem_of_getElem? he))
      rwa [hregular] at hreads
    · have hrglr := hk'.ok.cddRglr_eq ha.1
      rwa [hrglr]

end

end NodeTable

end UCDD

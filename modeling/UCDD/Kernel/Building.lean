import UCDD.Kernel.Release

/-!
# Making nodes with references

`cdd_make_bdd_node` and `cdd_make_cdd_node` of `kernel.c:613–768` with `cdd_reclaim` of a node that
is found without a reference, and the sweep, for a caller who has references to what it needs. The
diagrams that the references lead to stay what they are, and the new node stands for the diagram
that the functions on trees build.
-/

namespace UCDD

namespace NodeTable

open HashChain Loop Links Counter RefCount

namespace Kernel

/-- The search of `cdd_make_bdd_node` and `cdd_make_cdd_node`. -/
def find (k : Kernel) (i level : ℕ) (S : Search) : Run (Option ℤ) :=
  match k.managers i with
  | none => .failed
  | some man => do
    let (tbl, _) := openSubtable man level
    let p ← findNode tbl S k.heap
    let node := (Links.mk tbl.hash k.heap.next).get p
    return if k.heap.key node = S.key then some node else none

/-- `make`, with `cdd_reclaim` of a node that is found without a reference. -/
def obtainNode (E : Env) (L : Library) (k : Kernel) (i level : ℕ) (S : Search) :
    Run (ℤ × Kernel) := do
  let found ← k.find i level S
  let (node, k) ← k.make E i level S
  if found = some node ∧ k.heap.ref node = 0 then return (node, ← k.cddReclaim E L node)
  else return (node, k)

/-- `cdd_make_bdd_node`, with the reclaiming. -/
def obtainBddNode (E : Env) (L : Library) (k : Kernel) (level : ℕ) (low high : ℤ) :
    Run (ℤ × Kernel) :=
  if low = high then return (low, k)
  else do
    let mask := cddMask low
    let (node, k) ← k.obtainNode E L 0 level (bddSearch E (cddRglr low) (cddNegCond high mask))
    return (cddNegCond node mask, k)

/-- `cdd_make_cdd_node`, with the reclaiming. -/
def obtainCddNode (E : Env) (L : Library) (k : Kernel) (level : ℕ) (elem : List Elem) :
    Run (ℤ × Kernel) :=
  if k.maxcddsize < elem.length then return (0, k)
  else
    match elem with
    | [e] => return (e.child, k)
    | elem => do
      let k ← k.openManager E elem.length
      k.obtainNode E L elem.length level (cddSearch E elem)

/-- What making a new node does. -/
structure Makes (k : Kernel) (i level : ℕ) (S : Search) (man : NodeManager) (a : ℤ)
    (k' : Kernel) : Prop where
  levelcnt : k'.levelcnt = k.levelcnt
  maxcddsize : k'.maxcddsize = k.maxcddsize
  managers : ∀ j, (k'.managers j).isSome = (k.managers j).isSome
  key : k'.heap.key = Function.update k.heap.key a S.key
  level_eq : k'.heap.level = Function.update k.heap.level a level
  ref : k'.heap.ref = Function.update (S.children.foldl cddRef k.heap.ref) a 0
  holds : ∀ j l b, k'.Holds j l b ↔ (j = i ∧ l = level ∧ b = a) ∨
    (k.Holds j l b ∧ ¬ (j = i ∧ Collected (refChildren k.heap S).ref man l b))
  fresh : ∀ j l, k.Holds j l a → j = i ∧ Collected (refChildren k.heap S).ref man l a

end Kernel

section

variable {E : Env} {L : Library} {T : Terminals} {Q : ℤ → Prop} {bytes a p node : ℤ}
  {words levelcnt level n i j : ℕ} {h h' : Heap} {man man' : NodeManager} {tbl : SubTable}
  {F F' : List ℤ} {chain chain' : ℕ → ℕ → List ℤ} {S : Search} {k k' : Kernel} {key : List ℤ}
  {N : Finset ℤ} {H : Multiset ℤ} {t : DdNode}

/-! ### A new node -/

/-- The counts and the levels when a new node has been made, and where it was. -/
theorem makeNode_fresh (hE : E.Valid) (hfuel : 4096 ≤ E.fuel) (hn : n + 1 < E.fuel)
    (hb : Fits bytes) (hfree : FreeOk bytes h man F)
    (hs : StoredOk bytes words levelcnt n h man F chain) (hnew : E.os h.chunks ∉ man.nodes)
    (hlevel : level < levelcnt) (hS : SearchOk E words man.hashfunc S)
    (hkey : ∀ a, InChain man chain level a → h.key a ≠ S.key)
    (hrefill : Refills levelcnt bytes (refChildren h S) (openSubtable man level).2)
    (hgrow : ¬ Overflows (openSubtable man level).1
      (keysThen (openSubtable man level).2 (openSubtable man level).1))
    (hrun : makeNode E levelcnt level S h man = .done (node, h', man')) :
    h'.ref = Function.update (S.children.foldl cddRef h.ref) node 0 ∧
      h'.level = Function.update h.level node level ∧
      ∀ i, InChain man chain i node → Collected (refChildren h S).ref man i node := by
  obtain ⟨j, p, node₁, h₁, man₁, tbl, F', chain₁, hready, hr⟩ :=
    makeNode_ready hE hfuel (by omega) hb hfree hs hnew hlevel hS hkey hrefill
  obtain ⟨h₂, tbl', c, hins, -, -, hp⟩ := insertNode_spec (E := E) h.gbccnt p hr.free
    hr.stored hr.subtable hr.node (hr.hashfunc.symm ▸ hS) hr.bucket hr.lt
    (fun a ha ↦ by
      rw [hr.key_eq]
      exact hkey a ((hr.inChain_iff level a).mp ⟨tbl, hr.subtable, j, hr.lt, ha⟩).1)
    hr.cursor (fun hover ↦ hgrow (hr.overflows_iff.mp hover)) hn
  have hsame := hrun
  rw [hready, hins] at hsame
  cases hsame
  refine ⟨?_, ?_, fun i hi ↦ ?_⟩
  · obtain ⟨tbl₀, subtables, chain₂, hopen, -, hfree₂, hs₂, -, -, -, hcases⟩ :=
      makeNode_cases hfree hs hlevel hS (by omega : n < E.fuel)
    rw [hopen] at hrefill
    have hfree₃ : FreeOk bytes (refChildren h S) { man with subtables } F :=
      hfree₂.congr rfl rfl rfl fun _ _ ↦ rfl
    have hs₃ : StoredOk bytes words levelcnt n (refChildren h S) { man with subtables } F chain₂ :=
      hs₂.congr rfl rfl rfl (fun _ h ↦ h) (fun _ _ h ↦ h) (fun _ _ _ ↦ rfl) (fun _ _ ↦ rfl)
        (fun _ _ ↦ rfl) le_rfl le_rfl
    obtain ⟨node₂, h₃, man₃, F₃, chain₃, halloc, -, -, hre, -⟩ :=
      cddAllocNode_spec hE hfuel (by omega) hb hfree₃ hs₃ hnew hrefill
    cases hcases with
    | inl hfound =>
      obtain ⟨a, ha, hakey, -⟩ := hfound
      exact absurd hakey (hkey a ha)
    | inr hnot =>
      rw [hnot.2, halloc, Run.done_bind] at hrun
      obtain ⟨⟨h₄, man₄⟩, hins₂, hrest⟩ := Run.bind_eq_done hrun
      cases hrest
      obtain ⟨tbl₄, tbl₅, -, -, -, href⟩ := insertNode_counts hins₂
      rw [href, hre.ref]
      rfl
  · rw [hp.level_eq, hr.level_eq]
  · by_contra hcol
    obtain ⟨tbl₂, htbl₂, m, hm, hmem⟩ := (hr.inChain_iff i _).mpr ⟨hi, hcol⟩
    exact hr.node.stored i tbl₂ htbl₂ m hm hmem

/-- A new key gets a new node. -/
theorem Kernel.Ok.make_new (hok : k.Ok E n) (hE : E.Valid) (hfuel : 4096 ≤ E.fuel)
    (hn : n + 1 < E.fuel) (hman : k.managers i = some man) (hlevel : level < k.levelcnt)
    (hS : SearchOk E (keyWords i) man.hashfunc S) (hnew : k.IsNew i level S.key)
    (hrefill : k.RefillsFor i level S) (hgrow : k.GrowsFor i level S) :
    ∃ a k', k.make E i level S = .done (a, k') ∧ k'.Ok E (n + 1) ∧
      k.Makes i level S man a k' := by
  obtain ⟨a, k', hrun, hok', hkey, hholds⟩ := ((hok.make hE hfuel hn hman hlevel hS
    hrefill).resolve_left fun hfound ↦ by
      obtain ⟨a, -, -, -, ha, hakey, -⟩ := hfound
      exact hnew a ha hakey).2.1 hgrow
  have hholds (j l : ℕ) (b : ℤ) : k'.Holds j l b ↔ (j = i ∧ l = level ∧ b = a) ∨
      (k.Holds j l b ∧ ¬ (j = i ∧ Collected (refChildren k.heap S).ref man l b)) := by
    rw [hholds]
  obtain ⟨F, chain, hfree, hs⟩ := hok.manager i man hman
  have hmake := hrun
  rw [Kernel.make_eq hman hlevel] at hmake
  obtain ⟨⟨node, h', man'⟩, hmk, hrest⟩ := Run.bind_eq_done hmake
  cases hrest
  obtain ⟨href, hlev, hfresh⟩ := makeNode_fresh hE hfuel hn (fits_nodeBytes (hok.fits i man hman))
    hfree hs (hok.os_not_mem hE hman) hlevel hS
    (fun b hb ↦ hnew b ((hs.holds_iff hman).mpr hb)) (hrefill hnew man hman)
    (hgrow hnew man hman) hmk
  refine ⟨_, _, hrun, hok', rfl, rfl, fun j ↦ ?_, hkey, hlev, href, hholds, fun j l ha ↦ ?_⟩
  · by_cases hj : j = i
    · subst hj
      rw [Kernel.put_self, hman]
      rfl
    · rw [Kernel.put_other _ hj]
  · by_cases hj : j = i
    · subst hj
      exact ⟨rfl, hfresh l ((hs.holds_iff hman).mp ha)⟩
    · have hself := (hholds i level a).mpr (Or.inl ⟨rfl, rfl, rfl⟩)
      have hold := (hholds j l a).mpr (Or.inr ⟨ha, fun h ↦ hj h.1⟩)
      exact absurd (hok'.manager_unique hold hself) hj

/-- What a caller sees to: the children are accounted for, and the node is of the type of its
level. -/
structure Requests (L : Library) (T : Terminals) (N : Finset ℤ) (i level : ℕ) (S : Search) :
    Prop where
  kind : NodeKind L i level S.key
  children : ∀ (k' : Kernel) (a : ℤ), k'.heap.level a = level → k'.heap.key a = S.key →
    k'.children L a = S.children
  accounted : ∀ c ∈ S.children, cddRglr c ∈ T.nodes ∨ cddRglr c ∈ N

/-- The nodes that were there are there, except those that nobody needs. -/
def Kernel.Extends (k k' : Kernel) (W : ℤ → Prop) : Prop :=
  ∀ i level a key, k.Record i level a key → W a → k'.Record i level a key

theorem Requests.references (hr : Requests L T N i level S)
    (hlevel : k'.heap.level a = level) (hkey : k'.heap.key a = S.key) :
    k'.references L a = S.children.map cddRglr := by
  rw [Kernel.references, hr.children k' a hlevel hkey]

/-- A new node is accounted for, and nothing else is lost than what has no reference. -/
theorem Kernel.Kept.make_new (hk : k.Kept E L T n N H) (hE : E.Valid) (hfuel : 4096 ≤ E.fuel)
    (hn : n + 1 < E.fuel) (hman : k.managers i = some man) (hlevel : level < k.levelcnt)
    (hS : SearchOk E (keyWords i) man.hashfunc S) (hr : Requests L T N i level S)
    (hnew : k.IsNew i level S.key) (hrefill : k.RefillsFor i level S)
    (hgrow : k.GrowsFor i level S) :
    ∃ a k' N', k.make E i level S = .done (a, k') ∧ k'.Kept E L T (n + 1) N' H ∧
      k'.Record i level a S.key ∧ a ∈ N' ∧ k'.maxcddsize = k.maxcddsize ∧
      k'.levelcnt = k.levelcnt ∧
      k.Extends k' fun b ↦ k.heap.ref b ≠ 0 ∨ b ∈ S.children.map cddRglr := by
  obtain ⟨a, k', hrun, hok', hm⟩ :=
    hk.ok.make_new hE hfuel hn hman hlevel hS hnew hrefill hgrow
  set cs := S.children.map cddRglr with hcs
  set ref := cs.foldl (inc MAXREF) k.heap.ref with href
  have hrefs : (refChildren k.heap S).ref = ref := foldl_cddRef_eq _ _
  have hself : k'.Holds i level a := (hm.holds i level a).mpr (Or.inl ⟨rfl, rfl, rfl⟩)
  have hakey : k'.heap.key a = S.key := by rw [hm.key, Function.update_self]
  have halevel : k'.heap.level a = level := hok'.level_eq hself
  set left : ℤ → Prop := fun b ↦ ∃ j l, k.Holds j l b ∧ ¬ (j = i ∧ Collected ref man l b) with hleft
  have hnot : ¬ left a := by
    intro hex
    obtain ⟨j, l, hold, hcol⟩ := hex
    exact hcol (hrefs ▸ hm.fresh j l hold)
  have hthere (b : ℤ) : k'.There b ↔ b = a ∨ left b := by
    constructor
    · intro hex
      obtain ⟨j, l, hb⟩ := hex
      cases (hm.holds j l b).mp hb with
      | inl heq => exact Or.inl heq.2.2
      | inr hold => exact Or.inr ⟨j, l, hrefs ▸ hold⟩
    · intro hor
      cases hor with
      | inl heq => exact ⟨i, level, heq ▸ hself⟩
      | inr hex =>
        obtain ⟨j, l, hold⟩ := hex
        exact ⟨j, l, (hm.holds j l b).mpr (Or.inr (hrefs.symm ▸ hold))⟩
  have hkey {b : ℤ} (hb : b ≠ a) : k'.heap.key b = k.heap.key b := by
    rw [hm.key, Function.update_of_ne hb]
  have hlev {b : ℤ} (hb : b ≠ a) : k'.heap.level b = k.heap.level b := by
    rw [hm.level_eq, Function.update_of_ne hb]
  have hchildren {b : ℤ} (hb : b ≠ a) : k'.references L b = k.references L b :=
    Kernel.references_congr (hlev hb) (hkey hb)
  have hsurvive {j l : ℕ} {b : ℤ} (hb : k.Holds j l b) (hne : ref b ≠ 0) :
      ¬ (j = i ∧ Collected ref man l b) := fun hcol ↦ hne hcol.2.2.2.2
  classical
  have hperm : a ∉ T.nodes := (hok'.addressed hk.outside).not_terminal i level a _ ⟨hself, rfl⟩
  have hcounted : Counted MAXREF (· ∈ T.nodes) k'.There (k'.references L) k'.heap.ref
      (N.filter left) (k'.references L a + H) := by
    have htaken : Counted MAXREF (· ∈ T.nodes) k.There (k.references L) ref N (cs + H) :=
      hk.counted.take_all fun c hc ↦ by
        obtain ⟨d, hd, rfl⟩ := List.mem_map.mp hc
        exact hr.accounted d hd
    have hswept : Counted MAXREF (· ∈ T.nodes) left (k.references L) ref (N.filter left) (cs + H) :=
      htaken.collect (fun b hb ↦ by
        obtain ⟨j, l, hold, -⟩ := hb
        exact ⟨j, l, hold⟩) fun b hb hne ↦ by
        obtain ⟨j, l, hold⟩ := hb
        exact ⟨j, l, hold, hsurvive hold hne⟩
    have hgiven : Counted MAXREF (· ∈ T.nodes) k'.There (k'.references L)
        (Function.update ref a 0) (N.filter left) (cs + H) := by
      apply hswept.fresh hperm
      · exact fun hmem ↦ hnot (Finset.mem_filter.mp hmem).2
      · exact fun b hb ↦ (hthere b).mp hb
      · exact fun b hb ↦ (hthere b).mpr (Or.inr (Finset.mem_filter.mp hb).2)
      · exact fun m hmem ↦ hchildren fun heq ↦ hnot (heq ▸ (Finset.mem_filter.mp hmem).2)
    have hcsa : k'.references L a = cs := hr.references halevel hakey
    have hupdate : k'.heap.ref = Function.update ref a 0 := by
      rw [hm.ref, href, hcs, ← foldl_cddRef_eq]
    rw [hcsa, hupdate]
    exact hgiven
  refine ⟨a, k', insert a (N.filter left), hrun, ⟨hok', hk.outside, ?_, ?_, ?_, ?_⟩,
    ⟨hself, hakey⟩, Finset.mem_insert_self _ _, hm.maxcddsize, hm.levelcnt, ?_⟩
  · intro j l b hb
    by_cases hba : b = a
    · subst hba
      rw [← hok'.manager_unique hself hb, ← halevel.symm.trans (hok'.level_eq hb), hakey]
      exact hr.kind
    · have hold := ((hm.holds j l b).mp hb).resolve_left fun h ↦ hba h.2.2
      rw [hkey hba]
      exact hk.kind j l b hold.1
  · intro j man₂ hman₂
    have hsome := hm.managers j
    rw [hman₂] at hsome
    obtain ⟨man₃, hman₃⟩ := Option.isSome_iff_exists.mp hsome.symm
    rw [hm.maxcddsize]
    exact hk.sized j man₃ hman₃
  · have hcard := Finset.card_insert_le a (N.filter left)
    have hfilter := Finset.card_filter_le N left
    have hle := hk.card
    omega
  · exact hcounted.account ⟨i, level, hself⟩
  · intro j l b key hb hneeded
    have hne : ref b ≠ 0 := by
      cases hneeded with
      | inl hne =>
        have hle : k.heap.ref b ≤ ref b := le_foldl_inc _ _ b
        omega
      | inr hmem => exact foldl_inc_ne_zero (by decide) hmem _
    have hba : b ≠ a := fun heq ↦ hnot ⟨j, l, heq ▸ hb.1, heq ▸ hsurvive hb.1 hne⟩
    refine ⟨(hm.holds j l b).mpr (Or.inr ⟨hb.1, hrefs.symm ▸ hsurvive hb.1 hne⟩), ?_⟩
    rw [hkey hba]
    exact hb.2

/-! ### A node that is found -/

theorem Kernel.Ok.find (hok : k.Ok E n) (hn : n < E.fuel) (hman : k.managers i = some man)
    (hlevel : level < k.levelcnt) (hS : SearchOk E (keyWords i) man.hashfunc S) :
    (∃ a, k.find i level S = .done (some a) ∧ k.Record i level a S.key) ∨
      (k.find i level S = .done none ∧ k.IsNew i level S.key) := by
  obtain ⟨F, chain, hfree, hs⟩ := hok.manager i man hman
  obtain ⟨tbl, subtables, chain', hopen, htbl, hfree', hs', -, hin⟩ :=
    openSubtable_spec hfree hs hlevel
  obtain ⟨hj, hfind, node, hget, hmem, hall⟩ := findNode_spec hs' htbl hS hn
  have hrun : k.find i level S =
      .done (if k.heap.key node = S.key then some node else none) := by
    simp only [Kernel.find, hman, hopen, hfind, Run.done_bind, hget]
    rfl
  by_cases hkey : k.heap.key node = S.key
  · left
    refine ⟨node, by rw [hrun, if_pos hkey], ?_, hkey⟩
    exact (hs.holds_iff hman).mpr ((hin level node).mp ⟨tbl, htbl, _, hj, hmem hkey⟩)
  · right
    refine ⟨by rw [hrun, if_neg hkey], fun a ha hakey ↦ ?_⟩
    have heq := hall a ((hin level a).mpr ((hs.holds_iff hman).mp ha)) hakey
    exact hkey (heq ▸ hakey)

/-- A key that is there changes nothing. -/
theorem Kernel.Ok.make_same (hok : k.Ok E n) (hE : E.Valid) (hfuel : 4096 ≤ E.fuel)
    (hn : n + 1 < E.fuel) (hman : k.managers i = some man) (hlevel : level < k.levelcnt)
    (hS : SearchOk E (keyWords i) man.hashfunc S) (ha : k.Record i level a S.key) :
    ∃ k', k.make E i level S = .done (a, k') ∧ k'.Ok E n ∧ k.Same k' ∧ k'.heap = k.heap := by
  have hrefill : k.RefillsFor i level S := fun hnew ↦ absurd ha.2 (hnew a ha.1)
  obtain ⟨b, k', hrun, hok', hb, hbkey, hheap, hholds⟩ :=
    (hok.make hE hfuel hn hman hlevel hS hrefill).resolve_right fun hnew ↦
      hnew.1 a ha.1 ha.2
  have hab := hok.stored_once ha ⟨hb, hbkey⟩
  subst hab
  have hmake := hrun
  rw [Kernel.make_eq hman hlevel] at hmake
  obtain ⟨⟨node, h', man'⟩, -, hrest⟩ := Run.bind_eq_done hmake
  cases hrest
  refine ⟨_, hrun, hok', ⟨rfl, rfl, ?_, ?_, fun j ↦ ?_, hholds⟩, hheap⟩
  · rw [hheap]
  · rw [hheap]
  · by_cases hj : j = i
    · subst hj
      rw [Kernel.put_self, hman]
      rfl
    · rw [Kernel.put_other _ hj]

/-- The kernel with the same nodes and counts. -/
theorem Kernel.Kept.same (hk : k.Kept E L T n N H) (hok : k'.Ok E n) (hsame : k.Same k')
    (href : k'.heap.ref = k.heap.ref) : k'.Kept E L T n N H := by
  refine ⟨hok, hk.outside, fun j l b hb ↦ ?_, fun j man' hman' ↦ ?_, hk.card, ?_⟩
  · rw [hsame.key]
    exact hk.kind j l b ((hsame.holds j l b).mp hb)
  · have hsome := hsame.managers j
    rw [hman'] at hsome
    obtain ⟨man, hman⟩ := Option.isSome_iff_exists.mp hsome.symm
    rw [hsame.maxcddsize]
    exact hk.sized j man hman
  · rw [hsame.there, hsame.references, href]
    exact hk.counted

/-- A node of a subtable is at an even address. -/
theorem Kernel.Ok.cddRglr_eq (hok : k.Ok E n) (ha : k.Holds i level a) : cddRglr a = a := by
  obtain ⟨man, -, hslot⟩ := hok.slot ha
  have heven := even_of_isSlot hslot
  unfold cddRglr
  omega

/-- The node with the key, found or new, is accounted for, and nothing is lost that is needed. -/
theorem Kernel.Kept.obtainNode (hk : k.Kept E L T n N H) (hE : E.Valid) (hfuel : 4096 ≤ E.fuel)
    (hn : 2 * (n + 1) + 1 < E.fuel) (hman : k.managers i = some man) (hlevel : level < k.levelcnt)
    (hS : SearchOk E (keyWords i) man.hashfunc S) (hr : Requests L T N i level S)
    (hrefill : k.RefillsFor i level S) (hgrow : k.GrowsFor i level S) :
    ∃ a k' N', k.obtainNode E L i level S = .done (a, k') ∧ k'.Kept E L T (n + 1) N' H ∧
      k'.Record i level a S.key ∧ a ∈ N' ∧ k'.maxcddsize = k.maxcddsize ∧
      k'.levelcnt = k.levelcnt ∧
      k.Extends k' fun b ↦ k.heap.ref b ≠ 0 ∨ b ∈ S.children.map cddRglr := by
  cases hk.ok.find (by omega) hman hlevel hS with
  | inl hfound =>
    obtain ⟨a, hfind, ha⟩ := hfound
    obtain ⟨k₁, hrun, hok₁, hsame, hheap⟩ :=
      hk.ok.make_same hE hfuel (by omega) hman hlevel hS ha
    have hk₁ := (hk.same hok₁ hsame (by rw [hheap])).mono (Nat.le_add_right n 1)
    have ha₁ : k₁.Record i level a S.key := hsame.record ▸ ha
    by_cases hzero : k₁.heap.ref a = 0
    · have hcard : (insert a N).card ≤ n + 1 :=
        le_trans (Finset.card_insert_le a N) (Nat.add_le_add_right hk.card 1)
      have hrefs := hr.references (hok₁.level_eq ha₁.1) ha₁.2
      obtain ⟨k₂, hreclaim, hsame₂, hk₂, -⟩ := hk₁.cddReclaim hE ⟨i, level, ha₁.1⟩
        (hok₁.cddRglr_eq ha₁.1) (fun c hc ↦ by
          rw [hrefs] at hc
          obtain ⟨d, hd, rfl⟩ := List.mem_map.mp hc
          exact hr.accounted d hd) hcard (by omega)
      have hsame' := hsame.trans hsame₂
      refine ⟨a, k₂, insert a N, ?_, hk₂, hsame'.record ▸ ha, Finset.mem_insert_self a N,
        hsame'.maxcddsize, hsame'.levelcnt, fun j l b key hb _ ↦ hsame'.record ▸ hb⟩
      simp only [Kernel.obtainNode, hfind, Run.done_bind, hrun]
      rw [if_pos ⟨trivial, hzero⟩, hreclaim]
      rfl
    · refine ⟨a, k₁, N, ?_, hk₁, ha₁, hk₁.counted.live a ⟨i, level, ha₁.1⟩ hzero,
        hsame.maxcddsize, hsame.levelcnt, fun j l b key hb _ ↦ hsame.record ▸ hb⟩
      simp only [Kernel.obtainNode, hfind, Run.done_bind, hrun]
      rw [if_neg fun h ↦ hzero h.2]
      rfl
  | inr hnew =>
    obtain ⟨hfind, hnew⟩ := hnew
    obtain ⟨a, k', N', hrun, hk', ha⟩ :=
      hk.make_new hE hfuel (by omega) hman hlevel hS hr hnew hrefill hgrow
    refine ⟨a, k', N', ?_, hk', ha⟩
    simp only [Kernel.obtainNode, hfind, Run.done_bind, hrun]
    rw [if_neg fun h ↦ by cases h.1]
    rfl

/-! ### The sweep, and a new manager -/

theorem Kernel.Kept.sweep (hk : k.Kept E L T n N H) (hE : E.Valid) (hn : n < E.fuel) (i : ℕ) :
    ∃ k' N', k.call E (.gbcNodemanager i) = .done k' ∧ k'.Kept E L T n N' H ∧
      k'.maxcddsize = k.maxcddsize ∧ k'.levelcnt = k.levelcnt ∧
      k.Extends k' fun b ↦ k.heap.ref b ≠ 0 := by
  cases hman : k.managers i with
  | none =>
    refine ⟨k, N, ?_, hk, rfl, rfl, fun j l b key hb _ ↦ hb⟩
    simp only [Kernel.call, hman]
    rfl
  | some man =>
    obtain ⟨h', man', hrun, hok', hkey, hholds⟩ := hk.ok.sweep hE hn hman
    obtain ⟨F, chain, hfree, hs⟩ := hk.ok.manager i man hman
    obtain ⟨h₁, man₁, F', chain', hrun', -, -, hswept⟩ := cddGbcNodemanager_spec hfree hs hn
    have hheap : h' = { k.heap with next := h₁.next, gbccnt := int32 (k.heap.gbccnt + 1) } := by
      rw [hrun] at hrun'
      cases hrun'
      rw [hswept.heap_eq]
    set k' := k.put i (h', man') with hk'
    have href : k'.heap.ref = k.heap.ref := by
      show h'.ref = _
      rw [hheap]
    have hlevel : k'.heap.level = k.heap.level := by
      show h'.level = _
      rw [hheap]
    have hkey' : k'.heap.key = k.heap.key := hkey
    have hrefs : k'.references L = k.references L := funext fun b ↦
      Kernel.references_congr (congrFun hlevel b) (congrFun hkey' b)
    have hkeep {j l : ℕ} {b : ℤ} (hb : k.Holds j l b) (hne : k.heap.ref b ≠ 0) : k'.Holds j l b :=
      (hholds j l b).mpr ⟨hb, fun h ↦ hne h.2.2⟩
    classical
    refine ⟨k', N.filter k'.There, ?_, ⟨hok', hk.outside, ?_, ?_, ?_, ?_⟩, rfl, rfl, ?_⟩
    · simp only [Kernel.call, hman, hrun]
      rfl
    · intro j l b hb
      rw [hkey']
      exact hk.kind j l b ((hholds j l b).mp hb).1
    · intro j man₂ hman₂
      by_cases hj : j = i
      · exact hj ▸ hk.sized i man hman
      · rw [hk', Kernel.put_other _ hj] at hman₂
        exact hk.sized j man₂ hman₂
    · exact le_trans (Finset.card_filter_le N k'.There) hk.card
    · rw [hrefs, href]
      apply hk.counted.collect
      · intro b hb
        obtain ⟨j, l, hb⟩ := hb
        exact ⟨j, l, ((hholds j l b).mp hb).1⟩
      · intro b hb hne
        obtain ⟨j, l, hb⟩ := hb
        exact ⟨j, l, hkeep hb hne⟩
    · intro j l b key hb hne
      exact ⟨hkeep hb.1 hne, hkey' ▸ hb.2⟩

theorem cddAllocNodemanager_ref (hE : E.Valid) (hfuel : 4096 ≤ E.fuel) (hb : Fits bytes)
    {hashfunc : List ℤ → ℕ}
    (hrun : cddAllocNodemanager E levelcnt h bytes words hashfunc = .done (h', man')) :
    h'.ref = Function.update h.ref man'.sentinel 0 := by
  obtain ⟨node, h₁, man₁, F, halloc, -, -, -, -, hheap, -⟩ :=
    cddAllocNode_newManager hE hfuel hb h levelcnt hashfunc
  rw [cddAllocNodemanager, halloc, Run.done_bind] at hrun
  cases hrun
  show Function.update h₁.ref node 0 = _
  rw [hheap]

theorem Kernel.Kept.openManager (hk : k.Kept E L T n N H) (hE : E.Valid) (hfuel : 4096 ≤ E.fuel)
    (hi : i ≠ 0) (hmax : i ≤ k.maxcddsize)
    (hfits : k.managers i = none → nodeBytes i ≤ CHUNKSIZE - SIZEOF_CHUNK) :
    ∃ k', k.openManager E i = .done k' ∧ k'.Kept E L T n N H ∧ k'.levelcnt = k.levelcnt ∧
      k'.maxcddsize = k.maxcddsize ∧ (∃ man, k'.managers i = some man) ∧
      k.Extends k' (fun _ ↦ True) ∧ ∀ b, k.There b → k'.heap.ref b = k.heap.ref b := by
  cases hman : k.managers i with
  | some man =>
    refine ⟨k, ?_, hk, rfl, rfl, ⟨man, hman⟩, fun j l b key hb _ ↦ hb, fun _ _ ↦ rfl⟩
    rw [Kernel.openManager, hman]
    rfl
  | none =>
    obtain ⟨k', hrun, hok', hcnt, hmax', man', hman'⟩ := hk.ok.openManager hE hfuel hi hfits
    have hb := fits_nodeBytes (hfits hman)
    have hle : nodeBytes i ≤ 65520 := hb.le
    have hpos := hb.pos
    have hsize : int32 (nodeBytes i) = nodeBytes i := int32_of_mem (by omega) (by omega)
    obtain ⟨h₁, man₁, F, halloc, -, hs, hnodes, hchunks, -, hnone, houtside⟩ :=
      cddAllocNodemanager_spec hE hfuel hb (cddHashFunc_lt E (nodeBytes i))
        k.heap k.levelcnt (keyWords i) n
    have hput : k' = k.put i (h₁, man₁) := by
      simp only [Kernel.openManager, hman, hsize, halloc] at hrun
      cases hrun
      rfl
    subst hput
    have hself := Kernel.put_self (k := k) (i := i) (h₁, man₁)
    have hl : Local E k i h₁ man₁ :=
      ⟨⟨[], Or.inr ⟨hman, rfl⟩, Or.inr ⟨hnodes, hchunks⟩⟩, houtside⟩
    have hholds (j l : ℕ) (b : ℤ) : (k.put i (h₁, man₁)).Holds j l b ↔ k.Holds j l b := by
      by_cases hj : j = i
      · subst hj
        constructor
        · intro hb
          obtain ⟨man₂, tbl, hman₂, htbl, -⟩ := hb
          rw [hself, Option.some.injEq] at hman₂
          rw [← hman₂, hnone] at htbl
          cases htbl
        · intro hb
          obtain ⟨man₂, tbl, hman₂, -⟩ := hb
          rw [hman] at hman₂
          cases hman₂
      · exact hl.holds_iff hk.ok hE hj
    have hthere : (k.put i (h₁, man₁)).There = k.There := by
      ext b
      exact exists_congr fun j ↦ exists_congr fun l ↦ hholds j l b
    -- a node that is stored is in the chunk of another manager
    have hframe {b : ℤ} (hb : k.There b) : h₁.level b = k.heap.level b ∧
        h₁.key b = k.heap.key b ∧ b ≠ man₁.sentinel := by
      obtain ⟨j, l, hb⟩ := hb
      obtain ⟨man₂, hman₂, hslot⟩ := hk.ok.slot hb
      have hj : j ≠ i := fun heq ↦ by
        rw [heq, hman] at hman₂
        cases hman₂
      obtain ⟨-, hlevel, hkey⟩ := hl.frame hk.ok hE hj hman₂ hslot
      refine ⟨hlevel, hkey, fun heq ↦ ?_⟩
      exact hl.apart hk.ok hE hj hman₂ _ hslot.1 (heq ▸ hs.sentinel.1)
    have href := cddAllocNodemanager_ref hE hfuel hb halloc
    have hsentinel : ¬ k.There man₁.sentinel := fun hb ↦ (hframe hb).2.2 rfl
    have hperm : man₁.sentinel ∉ T.nodes := by
      intro hmem
      have hchunk := hs.sentinel.1
      rw [hnodes, List.mem_singleton] at hchunk
      exact hk.outside.chunk _ hmem _ hchunk
    refine ⟨_, hrun, ⟨hok', hk.outside, ?_, ?_, hk.card, ?_⟩, hcnt, hmax', ⟨_, hself⟩, ?_, ?_⟩
    · intro j l b hb
      have hold := (hholds j l b).mp hb
      show NodeKind L j l (h₁.key b)
      rw [(hframe ⟨j, l, hold⟩).2.1]
      exact hk.kind j l b hold
    · intro j man₂ hman₂
      by_cases hj : j = i
      · exact hj ▸ hmax
      · rw [Kernel.put_other _ hj] at hman₂
        exact hk.sized j man₂ hman₂
    · rw [hthere]
      show Counted MAXREF (· ∈ T.nodes) k.There _ h₁.ref N H
      rw [href]
      apply hk.counted.fresh hperm
      · exact fun hmem ↦ hsentinel (hk.counted.sound _ hmem)
      · exact fun b hb ↦ Or.inr hb
      · exact hk.counted.sound
      · intro m hm
        obtain ⟨hlevel, hkey, -⟩ := hframe (hk.counted.sound m hm)
        exact Kernel.references_congr hlevel hkey
    · intro j l b key hb _
      refine ⟨(hholds j l b).mpr hb.1, ?_⟩
      show h₁.key b = key
      rw [(hframe ⟨j, l, hb.1⟩).2.1]
      exact hb.2
    · intro b hb
      show h₁.ref b = _
      rw [href, Function.update_of_ne (hframe hb).2.2]

end

end NodeTable

end UCDD

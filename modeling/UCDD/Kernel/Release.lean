import UCDD.Kernel.Diagrams
import UCDD.Lib.RefCount

/-!
# References in the node memory

`cdd_ref`, `cdd_deref`, `cdd_rec_deref` and `cdd_reclaim` of `include/cdd/kernel.h:86–120` and
`kernel.c:435–500` on the node memory, with the counters of the managers. The counts cover what is
referenced, so the traversals end without an error, and no node that a reference leads to is lost.
-/

namespace UCDD

namespace NodeTable

open HashChain Loop Links Counter RefCount

/-- `cdd_deref`. -/
def cddDeref (ref : ℤ → ℕ) (node : ℤ) : ℤ → ℕ :=
  Function.update ref (cddRglr node)
    (ref (cddRglr node) - if ref (cddRglr node) ≠ MAXREF then 1 else 0)

/-- The children that the iterator of a CDD node returns, from the bound `low` on. -/
def itElems : ℤ → List Elem → List ℤ
  | _, [] => []
  | low, e :: it => if low = rawINF then [] else e.child :: itElems e.bnd it

namespace Kernel

/-- The children of a node, in the order in which the traversals see them. -/
def children (L : Library) (k : Kernel) (node : ℤ) : List ℤ :=
  match L.levelinfo[k.heap.level node]? with
  | some .bdd => [k.heap.low node, k.heap.high node]
  | some (.cdd _ _) =>
    itElems (-rawINF) (readElems ((k.heap.key node).length / 16) (k.heap.key node))
  | none => []

/-- The kernel with other counts. -/
def setRef (k : Kernel) (ref : ℤ → ℕ) : Kernel := { k with heap := { k.heap with ref } }

/-- `cdd_node2chunk(node)->man`. -/
def managerOf (k : Kernel) (node : ℤ) : Option ℕ :=
  (List.range (k.maxcddsize + 1)).find? fun i ↦
    (k.managers i).any fun man ↦ decide (cddNode2chunk node ∈ man.nodes)

/-- The counters when `dead` more nodes at the place of this one have died. -/
def tally (E : Env) (k : Kernel) (node dead : ℤ) : Run Kernel :=
  match k.managerOf node with
  | none => .failed
  | some i => k.call E (.tally i (k.heap.level node) dead)

/-- One round of the loop of `cdd_rec_deref`; the list is the stack, with its top first. -/
def recDerefBody (E : Env) (L : Library) : Kernel × List ℤ → Run (Kernel × List ℤ)
  | (_, []) => .failed
  | (k, p :: top) =>
    let node := cddRglr p
    if k.heap.ref node = 0 then .failed
    else
      let k := k.setRef (cddDeref k.heap.ref node)
      if k.heap.ref node = 0 then do
        let k ← k.tally E node 1
        return (k, (k.children L node).reverse ++ top)
      else return (k, top)

/-- `cdd_rec_deref`. -/
def cddRecDeref (E : Env) (L : Library) (k : Kernel) (node : ℤ) : Run Kernel := do
  let (k, _) ← iterate (fun t : Kernel × List ℤ ↦ !t.2.isEmpty) (recDerefBody E L) E.fuel
    (k, [cddRglr node])
  return k

/-- The loop of `cdd_reclaim` over the children of a CDD node. -/
def reclaimElems : List ℤ → (ℤ → ℕ) → List ℤ → (ℤ → ℕ) × List ℤ
  | [], ref, top => (ref, top)
  | c :: cs, ref, top =>
    let top := if ref (cddRglr c) = 0 then c :: top else top
    reclaimElems cs (cddRef ref c) top

/-- One round of the loop of `cdd_reclaim`. -/
def reclaimBody (E : Env) (L : Library) : Kernel × List ℤ → Run (Kernel × List ℤ)
  | (_, []) => .failed
  | (k, p :: top) => do
    let node := cddRglr p
    let k ← k.tally E node (-1)
    match L.levelinfo[k.heap.level node]? with
    | some (.cdd _ _) =>
      let (ref, top) := reclaimElems (k.children L node) k.heap.ref top
      return (k.setRef ref, top)
    | some .bdd =>
      let low := k.heap.low node
      let high := k.heap.high node
      let top := if k.heap.ref (cddRglr low) = 0 then low :: top else top
      let top := if k.heap.ref (cddRglr high) = 0 then high :: top else top
      return (k.setRef (cddRef (cddRef k.heap.ref low) high), top)
    | none => return (k, top)

/-- `cdd_reclaim`. -/
def cddReclaim (E : Env) (L : Library) (k : Kernel) (node : ℤ) : Run Kernel := do
  let (k, _) ← iterate (fun t : Kernel × List ℤ ↦ !t.2.isEmpty) (reclaimBody E L) E.fuel
    (k, [cddRglr node])
  return k

/-- The node is in a subtable. -/
def There (k : Kernel) (a : ℤ) : Prop := ∃ i level, k.Holds i level a

/-- The children of a node, without the negation bits. -/
def references (L : Library) (k : Kernel) (a : ℤ) : List ℤ := (k.children L a).map cddRglr

end Kernel

/-- The last bound is infinite, and no other one is. -/
def Terminated (elem : List Elem) : Prop :=
  ∃ first last, elem = first ++ [last] ∧ last.bnd = rawINF ∧ ∀ e ∈ first, e.bnd ≠ rawINF

/-- The node is of the type of its level. -/
inductive NodeKind (L : Library) : ℕ → ℕ → List ℤ → Prop
  | bdd {level : ℕ} (low high : ℤ) : L.levelinfo[level]? = some .bdd →
      NodeKind L 0 level [low, high]
  | cdd {level : ℕ} (elem : List Elem) : L.isCdd level → 2 ≤ elem.length →
      (∀ e ∈ elem, e.Fits) → Terminated elem → NodeKind L elem.length level (elemBytes elem)

/-- What holds of the kernel between two operations: all is in order, the nodes are of the types of
their levels, and the counts cover the references `H` from outside and those of the nodes `N`. -/
structure Kernel.Kept (E : Env) (L : Library) (T : Terminals) (n : ℕ) (k : Kernel) (N : Finset ℤ)
    (H : Multiset ℤ) : Prop where
  ok : k.Ok E n
  outside : T.Outside E
  kind : ∀ i level a, k.Holds i level a → NodeKind L i level (k.heap.key a)
  sized : ∀ i man, k.managers i = some man → i ≤ k.maxcddsize
  card : N.card ≤ n
  counted : Counted MAXREF (· ∈ T.nodes) k.There (k.references L) k.heap.ref N H

/-- Only counts and counters differ. -/
structure Kernel.Same (k k' : Kernel) : Prop where
  levelcnt : k'.levelcnt = k.levelcnt
  maxcddsize : k'.maxcddsize = k.maxcddsize
  level : k'.heap.level = k.heap.level
  key : k'.heap.key = k.heap.key
  managers : ∀ i, (k'.managers i).isSome = (k.managers i).isSome
  holds : ∀ i level a, k'.Holds i level a ↔ k.Holds i level a

section

variable {E : Env} {L : Library} {T : Terminals} {k k' k'' : Kernel} {n i level : ℕ} {a p : ℤ}
  {key : List ℤ} {elem : List Elem} {N : Finset ℤ} {H : Multiset ℤ} {cs top : List ℤ}
  {ref : ℤ → ℕ}

/-! ### The operations on counts -/

theorem cddDeref_eq (ref : ℤ → ℕ) (p : ℤ) : cddDeref ref p = dec MAXREF ref (cddRglr p) := rfl

theorem foldl_cddRef_eq (ref : ℤ → ℕ) (cs : List ℤ) :
    cs.foldl cddRef ref = (cs.map cddRglr).foldl (inc MAXREF) ref := by
  rw [List.foldl_map]
  rfl

@[simp] theorem cddRglr_cddRglr (p : ℤ) : cddRglr (cddRglr p) = cddRglr p := by
  unfold cddRglr
  omega

theorem reclaimElems_spec (cs : List ℤ) (ref : ℤ → ℕ) (top : List ℤ) :
    ∃ P, Kernel.reclaimElems cs ref top = (cs.foldl cddRef ref, P ++ top) ∧
      (∀ c ∈ P, c ∈ cs ∧ ref (cddRglr c) = 0) ∧ (P.map cddRglr).Nodup := by
  induction cs generalizing ref top with
  | nil => exact ⟨[], rfl, fun c hc ↦ absurd hc List.not_mem_nil, List.nodup_nil⟩
  | cons c cs ih =>
    rw [Kernel.reclaimElems, List.foldl_cons]
    have hself : cddRef ref c (cddRglr c) ≠ 0 := inc_ne_zero (by decide)
    have hzero {d : ℤ} (hd : cddRef ref c (cddRglr d) = 0) : ref (cddRglr d) = 0 := by
      have hle : ref (cddRglr d) ≤ cddRef ref c (cddRglr d) := le_inc _ _ _
      omega
    by_cases hc : ref (cddRglr c) = 0
    · obtain ⟨P, hP, hmem, hnodup⟩ := ih (cddRef ref c) (c :: top)
      refine ⟨P ++ [c], ?_, ?_, ?_⟩
      · rw [if_pos hc, hP, List.append_assoc]
        rfl
      · intro d hd
        cases List.mem_append.mp hd with
        | inl hd => exact ⟨List.mem_cons_of_mem _ (hmem d hd).1, hzero (hmem d hd).2⟩
        | inr hd =>
          rw [List.mem_singleton.mp hd]
          exact ⟨List.mem_cons_self, hc⟩
      · rw [List.map_append, List.map_singleton, List.nodup_append]
        refine ⟨hnodup, List.nodup_singleton _, fun x hx y hy heq ↦ ?_⟩
        obtain ⟨d, hd, rfl⟩ := List.mem_map.mp hx
        rw [List.mem_singleton.mp hy] at heq
        exact hself (heq ▸ (hmem d hd).2)
    · obtain ⟨P, hP, hmem, hnodup⟩ := ih (cddRef ref c) top
      refine ⟨P, by rw [if_neg hc, hP], fun d hd ↦ ?_, hnodup⟩
      exact ⟨List.mem_cons_of_mem _ (hmem d hd).1, hzero (hmem d hd).2⟩

/-! ### What stays the same -/

theorem Kernel.Same.refl (k : Kernel) : k.Same k :=
  ⟨rfl, rfl, rfl, rfl, fun _ ↦ rfl, fun _ _ _ ↦ Iff.rfl⟩

theorem Kernel.Same.trans (h : k.Same k') (h' : k'.Same k'') : k.Same k'' where
  levelcnt := h'.levelcnt.trans h.levelcnt
  maxcddsize := h'.maxcddsize.trans h.maxcddsize
  level := h'.level.trans h.level
  key := h'.key.trans h.key
  managers i := (h'.managers i).trans (h.managers i)
  holds i level a := (h'.holds i level a).trans (h.holds i level a)

theorem Kernel.Same.there (h : k.Same k') : k'.There = k.There := by
  ext a
  exact exists_congr fun i ↦ exists_congr fun level ↦ h.holds i level a

theorem Kernel.children_congr (hlevel : k'.heap.level a = k.heap.level a)
    (hkey : k'.heap.key a = k.heap.key a) : k'.children L a = k.children L a := by
  unfold Kernel.children Heap.low Heap.high
  rw [hlevel, hkey]

theorem Kernel.references_congr (hlevel : k'.heap.level a = k.heap.level a)
    (hkey : k'.heap.key a = k.heap.key a) : k'.references L a = k.references L a := by
  rw [Kernel.references, Kernel.references, Kernel.children_congr hlevel hkey]

theorem Kernel.Same.children (h : k.Same k') : k'.children L = k.children L :=
  funext fun a ↦ Kernel.children_congr (congrFun h.level a) (congrFun h.key a)

theorem Kernel.Same.references (h : k.Same k') : k'.references L = k.references L :=
  funext fun a ↦ Kernel.references_congr (congrFun h.level a) (congrFun h.key a)

theorem Kernel.Same.record (h : k.Same k') : k'.Record = k.Record := by
  ext i level a key
  unfold Kernel.Record
  rw [h.holds, h.key]

theorem Kernel.same_setRef (k : Kernel) (ref : ℤ → ℕ) : k.Same (k.setRef ref) :=
  ⟨rfl, rfl, rfl, rfl, fun _ ↦ rfl, fun _ _ _ ↦ Iff.rfl⟩

theorem Kernel.Ok.setRef (hok : k.Ok E n) (ref : ℤ → ℕ) : (k.setRef ref).Ok E n := by
  refine ⟨fun i man hman ↦ ?_, hok.fits, hok.hashfunc, hok.chunk, hok.apart, hok.bdd⟩
  obtain ⟨F, chain, hfree, hs⟩ := hok.manager i man hman
  exact ⟨F, chain, hfree.congr rfl rfl rfl fun _ _ ↦ rfl,
    hs.frame (fun _ _ ↦ ⟨rfl, rfl, rfl⟩) le_rfl⟩

theorem Kernel.Kept.setRef (hk : k.Kept E L T n N H) {N' : Finset ℤ} {H' : Multiset ℤ}
    (hcard : N'.card ≤ n)
    (hcounted : Counted MAXREF (· ∈ T.nodes) k.There (k.references L) ref N' H') :
    (k.setRef ref).Kept E L T n N' H' :=
  ⟨hk.ok.setRef ref, hk.outside, hk.kind, hk.sized, hcard, hcounted⟩

/-- The manager of a node. -/
theorem Kernel.Kept.managerOf (hk : k.Kept E L T n N H) (ha : k.Holds i level a) :
    k.managerOf a = some i := by
  obtain ⟨man, hman, hslot⟩ := hk.ok.slot ha
  have hfound : ∃ j, k.managerOf a = some j := by
    rw [← Option.isSome_iff_exists, Kernel.managerOf, List.find?_isSome]
    refine ⟨i, List.mem_range.mpr (Nat.lt_succ_of_le (hk.sized i man hman)), ?_⟩
    rw [hman]
    exact decide_eq_true hslot.1
  obtain ⟨j, hj⟩ := hfound
  have hsome := List.find?_some hj
  cases hman' : k.managers j with
  | none =>
    rw [hman'] at hsome
    cases hsome
  | some man' =>
    rw [hman'] at hsome
    have hmem : cddNode2chunk a ∈ man'.nodes := of_decide_eq_true hsome
    by_cases hij : i = j
    · rw [hj, hij]
    · exact absurd hmem (hk.ok.apart i j man man' hman hman' hij _ hslot.1)

theorem Kernel.Kept.tally (hk : k.Kept E L T n N H) (hE : E.Valid) (ha : k.There a) (d : ℤ) :
    ∃ k', k.tally E a d = .done k' ∧ k.Same k' ∧ k'.heap = k.heap ∧ k'.Kept E L T n N H := by
  obtain ⟨i, level, hholds⟩ := ha
  have hlevel := hk.ok.level_eq hholds
  have hmanager := hk.managerOf hholds
  obtain ⟨man, tbl, hman, htbl, -⟩ := hholds
  set man' : NodeManager := { man with
    usedcnt := int32 (man.usedcnt - d)
    deadcnt := int32 (man.deadcnt + d)
    subtables := Function.update man.subtables level
      (some { tbl with deadcnt := int32 (tbl.deadcnt + d) }) } with hman'
  obtain ⟨F, chain, hfree, hs⟩ := hk.ok.manager i man hman
  have hl : Local E k i k.heap man' :=
    ⟨⟨man.nodes, Or.inl ⟨man, hman, rfl⟩, Or.inl ⟨rfl, rfl⟩⟩, fun _ _ ↦ ⟨rfl, rfl, rfl⟩⟩
  have hs' : StoredOk (nodeBytes i) (keyWords i) k.levelcnt n k.heap man' F chain :=
    hs.tally htbl _ _ _
  have hok : (k.put i (k.heap, man')).Ok E n :=
    hk.ok.put hE le_rfl hl (hk.ok.fits i man hman) (hk.ok.hashfunc i man hman)
      (hfree.congr rfl rfl rfl fun _ _ ↦ rfl) hs'
  have hself := Kernel.put_self (k := k) (i := i) (k.heap, man')
  have hother {j : ℕ} (hj : j ≠ i) := Kernel.put_other (k := k) (k.heap, man') hj
  have hin (l : ℕ) (b : ℤ) : InChain man' chain l b ↔ InChain man chain l b := by
    unfold InChain
    by_cases hll : l = level
    · subst hll
      have hnew : man'.subtables l = some { tbl with deadcnt := int32 (tbl.deadcnt + d) } :=
        Function.update_self _ _ _
      rw [hnew, htbl]
      simp [SubTable.size]
    · have hsame : man'.subtables l = man.subtables l := Function.update_of_ne hll _ _
      rw [hsame]
  have hsame : k.Same (k.put i (k.heap, man')) := by
    refine ⟨rfl, rfl, rfl, rfl, fun j ↦ ?_, fun j l b ↦ ?_⟩
    · by_cases hj : j = i
      · subst hj
        rw [hself, hman]
        rfl
      · rw [hother hj]
    · by_cases hj : j = i
      · subst hj
        rw [StoredOk.holds_iff (k := k.put j _) hs' hself, hs.holds_iff hman, hin]
      · exact hl.holds_iff hk.ok hE hj
  refine ⟨k.put i (k.heap, man'), ?_, hsame, rfl, hok, hk.outside, ?_, ?_, hk.card, ?_⟩
  · simp only [Kernel.tally, hmanager, hlevel, Kernel.call, hman, htbl]
    rfl
  · intro j l b hb
    exact hk.kind j l b ((hsame.holds j l b).mp hb)
  · intro j man₂ hman₂
    by_cases hj : j = i
    · exact hj ▸ hk.sized i man hman
    · exact hk.sized j man₂ (hother hj ▸ hman₂)
  · rw [hsame.there, hsame.references]
    exact hk.counted

/-! ### The children of a stored node -/

theorem itElems_terminated {first : List Elem} {last : Elem} {low : ℤ} (hlow : low ≠ rawINF)
    (hfirst : ∀ e ∈ first, e.bnd ≠ rawINF) :
    itElems low (first ++ [last]) = (first ++ [last]).map Elem.child := by
  induction first generalizing low with
  | nil =>
    show (if low = rawINF then [] else last.child :: itElems last.bnd []) = _
    rw [if_neg hlow]
    rfl
  | cons e first ih =>
    obtain ⟨he, hfirst⟩ := List.forall_mem_cons.mp hfirst
    show (if low = rawINF then [] else e.child :: itElems e.bnd (first ++ [last])) = _
    rw [if_neg hlow, ih he hfirst]
    rfl

/-- The children of a BDD node. -/
theorem Kernel.children_bdd {low high : ℤ} (hlevel : k.heap.level a = level)
    (htype : L.levelinfo[level]? = some .bdd) (hkey : k.heap.key a = [low, high]) :
    k.children L a = [low, high] := by
  simp only [Kernel.children, Heap.low, Heap.high, hlevel, htype, hkey]
  rfl

theorem Kernel.children_cdd (hlevel : k.heap.level a = level) (htype : L.isCdd level)
    (hkey : k.heap.key a = elemBytes elem) (hfits : ∀ e ∈ elem, e.Fits) (hterm : Terminated elem) :
    k.children L a = elem.map Elem.child := by
  obtain ⟨i, j, hij⟩ := htype
  have hlen : (elemBytes elem).length / 16 = elem.length := by
    rw [elemBytes_length]
    omega
  obtain ⟨first, last, rfl, -, hfirst⟩ := hterm
  simp only [Kernel.children, hlevel, hij, hkey, hlen, readElems_elemBytes hfits]
  exact itElems_terminated (by decide) hfirst

/-- No node has more children than it may have. -/
theorem Kernel.Kept.length_references (hk : k.Kept E L T n N H) (ha : k.There a) :
    (k.references L a).length ≤ k.maxcddsize + 2 := by
  obtain ⟨i, level, hholds⟩ := ha
  have hlevel := hk.ok.level_eq hholds
  obtain ⟨man, hman, -⟩ := hk.ok.slot hholds
  have hsize := hk.sized i man hman
  have hkind := hk.kind i level a hholds
  rw [Kernel.references, List.length_map]
  generalize hkey : k.heap.key a = key at hkind
  cases hkind with
  | bdd low high htype =>
    rw [Kernel.children_bdd hlevel htype hkey]
    exact Nat.le_add_left 2 _
  | cdd elem htype htwo hfits hterm =>
    rw [Kernel.children_cdd hlevel htype hkey hfits hterm, List.length_map]
    omega

/-! ### Giving back a reference -/

theorem Kernel.Kept.congr (hk : k.Kept E L T n N H) {H' : Multiset ℤ} (hH : H = H') :
    k.Kept E L T n N H' := hH ▸ hk

theorem Kernel.Kept.mono (hk : k.Kept E L T n N H) {n' : ℕ} (hn : n ≤ n') :
    k.Kept E L T n' N H :=
  ⟨hk.ok.mono hn, hk.outside, hk.kind, hk.sized, le_trans hk.card hn, hk.counted⟩

/-- The stack of `cdd_rec_deref` on the way. -/
structure Kernel.Releasing (E : Env) (L : Library) (T : Terminals) (n : ℕ) (k : Kernel)
    (H : Multiset ℤ) (m : ℕ) (t : Kernel × List ℤ) : Prop where
  same : k.Same t.1
  kept : ∃ N, t.1.Kept E L T n N (t.2.map cddRglr + H) ∧ work (k.references L) N t.2.length = m

/-- One round: the top of the stack loses a reference, and its children are pushed when that was
the last one. -/
theorem Kernel.Releasing.step (hE : E.Valid) {m : ℕ} {t : Kernel × List ℤ}
    (h : k.Releasing E L T n H m t) (hguard : (!t.2.isEmpty) = true) :
    ∃ u, Kernel.recDerefBody E L t = .done u ∧ ∃ m', m' < m ∧ k.Releasing E L T n H m' u := by
  obtain ⟨k₁, stack⟩ := t
  obtain ⟨hsame, N, hkept, hwork⟩ := h
  obtain ⟨p, top, rfl⟩ : ∃ p top, stack = p :: top :=
    List.exists_cons_of_ne_nil (by simpa using hguard)
  simp only at hsame hkept hwork
  have hH : (((p :: top).map cddRglr : List ℤ) : Multiset ℤ) + H =
      cddRglr p ::ₘ ((top.map cddRglr : List ℤ) + H) := by
    rw [List.map_cons, ← Multiset.cons_coe, Multiset.cons_add]
  have hcounted := hkept.counted
  rw [hH] at hcounted
  have hne := hcounted.ref_ne_zero (Multiset.mem_cons_self _ _)
  have hout := hcounted.outer _ (Multiset.mem_cons_self _ _)
  have hrel := hcounted.release
  have hderef : cddDeref k₁.heap.ref (cddRglr p) = dec MAXREF k₁.heap.ref (cddRglr p) := by
    rw [cddDeref_eq, cddRglr_cddRglr]
  set ref := cddDeref k₁.heap.ref (cddRglr p) with href
  rw [← hderef] at hrel
  have hset := hkept.setRef hkept.card hrel
  have hsame' := hsame.trans (k₁.same_setRef ref)
  simp only [Kernel.recDerefBody, hne, if_false]
  by_cases hzero : (k₁.setRef ref).heap.ref (cddRglr p) = 0
  · have hperm : ¬ cddRglr p ∈ T.nodes := by
      intro hmem
      have hmax := hrel.perm_ref _ hmem
      rw [show ref (cddRglr p) = 0 from hzero] at hmax
      cases hmax
    have hN := hout.resolve_left hperm
    obtain ⟨k₂, htally, hsame₂, hheap, hkept₂⟩ := hset.tally hE (hset.counted.sound _ hN) 1
    have hcard : (N.erase (cddRglr p)).card ≤ n :=
      le_trans (Finset.card_erase_le) hkept.card
    have hdis := hkept₂.counted.discount hN (by rw [hheap]; exact hzero)
    have hrefs : k₂.references L = k.references L := (hsame'.trans hsame₂).references
    refine ⟨(k₂, (k₂.children L (cddRglr p)).reverse ++ top), ?_,
      work (k.references L) N top.length, ?_, hsame'.trans hsame₂, N.erase (cddRglr p), ?_, ?_⟩
    · rw [if_pos hzero, htally]
      rfl
    · rw [← hwork]
      unfold work
      rw [List.length_cons]
      omega
    · refine ⟨hkept₂.ok, hkept₂.outside, hkept₂.kind, hkept₂.sized, hcard, ?_⟩
      have hstack : ((((k₂.children L (cddRglr p)).reverse ++ top).map cddRglr : List ℤ) :
          Multiset ℤ) + H = (k₂.references L (cddRglr p) : Multiset ℤ) +
            ((top.map cddRglr : List ℤ) + H) := by
        rw [List.map_append, List.map_reverse, ← Multiset.coe_add, Multiset.coe_reverse, add_assoc]
        rfl
      rw [hstack]
      exact hdis
    · have hlen : ((k₂.children L (cddRglr p)).reverse ++ top).length =
          (k.references L (cddRglr p)).length + top.length := by
        rw [List.length_append, List.length_reverse, ← hrefs, Kernel.references, List.length_map]
      rw [hlen]
      exact work_erase hN _
  · refine ⟨(k₁.setRef ref, top), ?_, work (k.references L) N top.length, ?_, hsame', N, hset, rfl⟩
    · rw [if_neg hzero]
      rfl
    · rw [← hwork]
      unfold work
      rw [List.length_cons]
      omega

/-- `cdd_rec_deref` of a pointer that is referenced ends without an error, and gives back what the
nodes that die have referenced. -/
theorem Kernel.Kept.cddRecDeref (hE : E.Valid) (hk : k.Kept E L T n N (cddRglr p ::ₘ H))
    (hfuel : 1 + n * (k.maxcddsize + 2) < E.fuel) :
    ∃ k' N', k.cddRecDeref E L p = .done k' ∧ k.Same k' ∧ k'.Kept E L T n N' H := by
  have hstart : k.Releasing E L T n H (work (k.references L) N 1) (k, [cddRglr p]) := by
    refine ⟨.refl k, N, hk.congr ?_, rfl⟩
    rw [List.map_singleton, cddRglr_cddRglr, Multiset.coe_singleton, Multiset.singleton_add]
  have hwork : work (k.references L) N 1 < E.fuel := by
    have hsum : ∑ m ∈ N, (k.references L m).length ≤ N.card * (k.maxcddsize + 2) := by
      rw [← smul_eq_mul]
      apply Finset.sum_le_card_nsmul
      intro m hm
      exact hk.length_references (hk.counted.sound m hm)
    have hcard := Nat.mul_le_mul_right (k.maxcddsize + 2) hk.card
    unfold work
    omega
  obtain ⟨t, m, hrun, hdone, hempty⟩ : ∃ t m, iterate (fun t : Kernel × List ℤ ↦ !t.2.isEmpty)
      (Kernel.recDerefBody E L) E.fuel (k, [cddRglr p]) = .done t ∧
      k.Releasing E L T n H m t ∧ (!t.2.isEmpty) = false :=
    iterate_done_ranked _ (fun m t h hguard ↦ h.step hE hguard) hstart hwork
  obtain ⟨hsame, N', hkept, -⟩ := hdone
  have hnil : t.2 = [] := by simpa using hempty
  refine ⟨t.1, N', ?_, hsame, hkept.congr ?_⟩
  · rw [Kernel.cddRecDeref, hrun]
    rfl
  · rw [hnil]
    exact zero_add H

/-! ### Bringing a node back -/

/-- One round of `cdd_reclaim`: the children are referenced, and those that had no reference are
pushed, a child that a BDD node has twice maybe twice. -/
theorem Kernel.Kept.reclaimBody (hE : E.Valid) (hk : k.Kept E L T n N H)
    (hp : k.There (cddRglr p))
    (hchildren : ∀ c ∈ k.references L (cddRglr p), c ∈ T.nodes ∨ c ∈ N)
    (hcard : (insert (cddRglr p) N).card ≤ n) (top : List ℤ) :
    ∃ k' P, Kernel.reclaimBody E L (k, p :: top) = .done (k', P ++ top) ∧ k.Same k' ∧
      k'.heap.ref = (k.references L (cddRglr p)).foldl (inc MAXREF) k.heap.ref ∧
      k'.Kept E L T n (insert (cddRglr p) N) H ∧
      (∀ c ∈ P, cddRglr c ∈ k.references L (cddRglr p) ∧ k.heap.ref (cddRglr c) = 0) ∧
      P.length ≤ 2 * (P.map cddRglr).toFinset.card := by
  obtain ⟨k₁, htally, hsame, hheap, hkept⟩ := hk.tally hE hp (-1)
  have hrefs := hsame.references (L := L)
  have hcounted := hkept.counted.take_all hchildren
  rw [hheap, ← hrefs] at hcounted
  have haccount := hcounted.account (by rwa [hsame.there])
  rw [hrefs] at haccount
  have hfinal := hkept.setRef hcard (by rwa [hrefs])
  have hsame' := hsame.trans (k₁.same_setRef
    ((k.references L (cddRglr p)).foldl (inc MAXREF) k.heap.ref))
  have hfold : (k.children L (cddRglr p)).foldl cddRef k.heap.ref =
      (k.references L (cddRglr p)).foldl (inc MAXREF) k.heap.ref := foldl_cddRef_eq _ _
  obtain ⟨i, level, hholds⟩ := hp
  have hlevel := hk.ok.level_eq hholds
  have hkind := hk.kind i level _ hholds
  generalize hkey : k.heap.key (cddRglr p) = key at hkind
  cases hkind with
  | bdd low high htype =>
    have hcs := Kernel.children_bdd (L := L) hlevel htype hkey
    have hlow : k.heap.low (cddRglr p) = low := by
      rw [Heap.low, hkey]
      rfl
    have hhigh : k.heap.high (cddRglr p) = high := by
      rw [Heap.high, hkey]
      rfl
    set P := (if k.heap.ref (cddRglr high) = 0 then [high] else []) ++
      if k.heap.ref (cddRglr low) = 0 then [low] else [] with hP
    refine ⟨_, P, ?_, hsame', rfl, hfinal, ?_, ?_⟩
    · have htype' : L.levelinfo[k.heap.level (cddRglr p)]? = some .bdd := by rw [hlevel, htype]
      rw [hcs] at hfold
      simp only [Kernel.reclaimBody, htally, Run.done_bind, hheap, htype', hlow, hhigh]
      rw [← hfold]
      show Run.done _ = Run.done _
      congr 2
      rw [hP]
      by_cases hl : k.heap.ref (cddRglr low) = 0 <;> by_cases hh : k.heap.ref (cddRglr high) = 0 <;>
        simp [hl, hh]
    · intro c hc
      rw [Kernel.references, hcs]
      cases List.mem_append.mp hc with
      | inl hc =>
        split_ifs at hc with hh
        · rw [List.mem_singleton.mp hc]
          exact ⟨by simp, hh⟩
        · cases hc
      | inr hc =>
        split_ifs at hc with hl
        · rw [List.mem_singleton.mp hc]
          exact ⟨by simp, hl⟩
        · cases hc
    · have htwo : P.length ≤ 2 := by
        rw [hP]
        split_ifs <;> simp
      by_cases hnil : P = []
      · rw [hnil]
        exact Nat.zero_le _
      · have hpos : 0 < (P.map cddRglr).toFinset.card := by
          rw [Finset.card_pos, List.toFinset_nonempty_iff]
          simpa using hnil
        omega
  | cdd elem htype htwo hfits hterm =>
    have hcs := Kernel.children_cdd (L := L) hlevel htype hkey hfits hterm
    obtain ⟨P, hrec, hmem, hnodup⟩ := reclaimElems_spec (k.children L (cddRglr p)) k.heap.ref top
    refine ⟨_, P, ?_, hsame', rfl, hfinal, ?_, ?_⟩
    · obtain ⟨i, j, hij⟩ := htype
      have htype' : L.levelinfo[k.heap.level (cddRglr p)]? = some (.cdd i j) := by
        rw [hlevel, hij]
      have hchild : k₁.children L (cddRglr p) = k.children L (cddRglr p) := by
        rw [hsame.children]
      simp only [Kernel.reclaimBody, htally, Run.done_bind, hheap, htype', hchild, hrec]
      rw [← hfold]
      rfl
    · intro c hc
      exact ⟨List.mem_map_of_mem (hmem c hc).1, (hmem c hc).2⟩
    · rw [List.toFinset_card_of_nodup hnodup, List.length_map]
      omega

/-- `cdd_reclaim` on the way. -/
structure Kernel.Reviving (E : Env) (L : Library) (T : Terminals) (n : ℕ) (k : Kernel)
    (N : Finset ℤ) (H : Multiset ℤ) (a : ℤ) (m : ℕ) (t : Kernel × List ℤ) : Prop where
  same : k.Same t.1
  le : ∀ c, k.heap.ref c ≤ t.1.heap.ref c
  kept : ∃ N', t.1.Kept E L T n N' H ∧ N ⊆ N' ∧ N' ⊆ insert a N ∧
    (a ∈ N' ∨ a ∈ t.2.map cddRglr) ∧ ∀ p ∈ t.2, k.There (cddRglr p) ∧ cddRglr p ∈ insert a N ∧
      ∀ c ∈ k.references L (cddRglr p), c ∈ T.nodes ∨ c ∈ N'
  work : t.2.length + 2 * ((insert a N).filter fun c ↦ t.1.heap.ref c = 0).card = m

theorem Kernel.Reviving.step (hE : E.Valid) (hcard : (insert a N).card ≤ n) {m : ℕ}
    {t : Kernel × List ℤ} (h : k.Reviving E L T n N H a m t) (hguard : (!t.2.isEmpty) = true) :
    ∃ u, Kernel.reclaimBody E L t = .done u ∧ ∃ m', m' < m ∧ k.Reviving E L T n N H a m' u := by
  obtain ⟨k₁, stack⟩ := t
  obtain ⟨hsame, hle, ⟨N', hkept, hsub, hsub', hmem, hstack⟩, hwork⟩ := h
  obtain ⟨p, top, rfl⟩ : ∃ p top, stack = p :: top :=
    List.exists_cons_of_ne_nil (by simpa using hguard)
  simp only at hsame hle hkept hmem hstack hwork
  obtain ⟨⟨hthere, hpN, hchildren⟩, hstack⟩ := List.forall_mem_cons.mp hstack
  have hrefs := hsame.references (L := L)
  have hsub₂ : insert (cddRglr p) N' ⊆ insert a N := Finset.insert_subset hpN hsub'
  obtain ⟨k₂, P, hrun, hsame₂, href, hkept₂, hP, hlen⟩ := hkept.reclaimBody hE
    (by rwa [hsame.there]) (by rwa [hrefs]) (le_trans (Finset.card_le_card hsub₂) hcard) top
  rw [hrefs] at href hP
  have hle₂ (c : ℤ) : k₁.heap.ref c ≤ k₂.heap.ref c := by
    rw [href]
    exact le_foldl_inc _ _ c
  refine ⟨(k₂, P ++ top), hrun, _, ?_, hsame.trans hsame₂, fun c ↦ le_trans (hle c) (hle₂ c),
    ⟨insert (cddRglr p) N', hkept₂, ?_, hsub₂, ?_, ?_⟩, rfl⟩
  · -- a child that is pushed has lost the count zero
    have hdisj : Disjoint ((insert a N).filter fun c ↦ k₂.heap.ref c = 0)
        (P.map cddRglr).toFinset := by
      rw [Finset.disjoint_left]
      intro c hc hcP
      obtain ⟨d, hd, rfl⟩ := List.mem_map.mp (List.mem_toFinset.mp hcP)
      have hzero := (Finset.mem_filter.mp hc).2
      rw [href] at hzero
      exact foldl_inc_ne_zero (by decide) (hP d hd).1 _ hzero
    have hunion : ((insert a N).filter fun c ↦ k₂.heap.ref c = 0) ∪ (P.map cddRglr).toFinset ⊆
        (insert a N).filter fun c ↦ k₁.heap.ref c = 0 := by
      apply Finset.union_subset
      · intro c hc
        obtain ⟨hcN, hzero⟩ := Finset.mem_filter.mp hc
        have hlec := hle₂ c
        exact Finset.mem_filter.mpr ⟨hcN, by omega⟩
      · intro c hc
        obtain ⟨d, hd, rfl⟩ := List.mem_map.mp (List.mem_toFinset.mp hc)
        obtain ⟨hdc, hzero⟩ := hP d hd
        refine Finset.mem_filter.mpr ⟨?_, hzero⟩
        cases hchildren _ hdc with
        | inl hterm =>
          rw [hkept.counted.perm_ref _ hterm] at hzero
          cases hzero
        | inr hN' => exact hsub' hN'
    have hsum := Finset.card_le_card hunion
    rw [Finset.card_union_of_disjoint hdisj] at hsum
    rw [List.length_cons] at hwork
    show (P ++ top).length + 2 * ((insert a N).filter fun c ↦ k₂.heap.ref c = 0).card < m
    rw [List.length_append]
    omega
  · exact fun c hc ↦ Finset.mem_insert_of_mem (hsub hc)
  · cases hmem with
    | inl hN' => exact Or.inl (Finset.mem_insert_of_mem hN')
    | inr hmem =>
      rw [List.map_cons, List.mem_cons] at hmem
      cases hmem with
      | inl heq => exact Or.inl (heq ▸ Finset.mem_insert_self _ _)
      | inr hmem =>
        right
        rw [List.map_append]
        exact List.mem_append_right _ hmem
  · intro q hq
    cases List.mem_append.mp hq with
    | inl hq =>
      obtain ⟨hqc, hzero⟩ := hP q hq
      have hqN : cddRglr q ∈ N' := (hchildren _ hqc).resolve_left fun hterm ↦ by
        rw [hkept.counted.perm_ref _ hterm] at hzero
        cases hzero
      refine ⟨?_, hsub' hqN, fun c hc ↦ ?_⟩
      · rw [← hsame.there]
        exact hkept.counted.sound _ hqN
      · rw [← hrefs] at hc
        exact (hkept.counted.closed _ hqN c hc).imp_right Finset.mem_insert_of_mem
    | inr hq =>
      obtain ⟨hqthere, hqN, hqc⟩ := hstack q hq
      exact ⟨hqthere, hqN, fun c hc ↦ (hqc c hc).imp_right Finset.mem_insert_of_mem⟩

/-- `cdd_reclaim` of a node without references ends, and the node is accounted for. -/
theorem Kernel.Kept.cddReclaim (hE : E.Valid) (hk : k.Kept E L T n N H) (ha : k.There a)
    (heven : cddRglr a = a) (hchildren : ∀ c ∈ k.references L a, c ∈ T.nodes ∨ c ∈ N)
    (hcard : (insert a N).card ≤ n) (hfuel : 1 + 2 * n < E.fuel) :
    ∃ k', k.cddReclaim E L a = .done k' ∧ k.Same k' ∧ k'.Kept E L T n (insert a N) H ∧
      ∀ c, k.heap.ref c ≤ k'.heap.ref c := by
  have hstart : k.Reviving E L T n N H a
      (1 + 2 * ((insert a N).filter fun c ↦ k.heap.ref c = 0).card) (k, [cddRglr a]) := by
    refine ⟨.refl k, fun c ↦ le_rfl, ⟨N, hk, Finset.Subset.refl N, Finset.subset_insert a N,
      Or.inr ?_, ?_⟩, rfl⟩
    · simp [heven]
    · rw [List.forall_mem_singleton, cddRglr_cddRglr, heven]
      exact ⟨ha, Finset.mem_insert_self a N, hchildren⟩
  have hzero : ((insert a N).filter fun c ↦ k.heap.ref c = 0).card ≤ n :=
    le_trans (Finset.card_filter_le _ _) hcard
  obtain ⟨t, m, hrun, hdone, hempty⟩ : ∃ t m, iterate (fun t : Kernel × List ℤ ↦ !t.2.isEmpty)
      (Kernel.reclaimBody E L) E.fuel (k, [cddRglr a]) = .done t ∧
      k.Reviving E L T n N H a m t ∧ (!t.2.isEmpty) = false := by
    apply iterate_done_ranked _ (fun m t h hguard ↦ h.step hE hcard hguard) hstart
    omega
  have hnil : t.2 = [] := by simpa using hempty
  obtain ⟨hsame, hle, ⟨N', hkept, hsub, hsub', hmem, -⟩, -⟩ := hdone
  have haN : a ∈ N' := hmem.resolve_right (by simp [hnil])
  have hN : N' = insert a N := Finset.Subset.antisymm hsub' (Finset.insert_subset haN hsub)
  refine ⟨t.1, ?_, hsame, hN ▸ hkept, hle⟩
  rw [Kernel.cddReclaim, hrun]
  rfl

end

end NodeTable

end UCDD

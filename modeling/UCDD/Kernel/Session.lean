import UCDD.Diagram.Canonical
import UCDD.Kernel.Handles

/-!
# Sessions

The class `cdd` of `include/cdd/cdd.h:742–853` and `src/cppext.cpp:22–60` over the kernel: an object
has a reference as long as it lives. In a run of constructors, copies, assignments and destructors,
with collections and rehashes in between, every object stands for the diagram of the same run on
trees, and `operator==` on two objects tells whether these are equal.
-/

namespace UCDD

namespace NodeTable

open Loop Counter RefCount

/-- The kernel, and the pointers of the objects. -/
structure Session where
  kernel : Kernel
  roots : List ℤ

/-- An element that is pushed on the stack: one of the objects, a bound, and the four bytes that were
in the slot after it. -/
structure ElemOf where
  child : ℕ
  bnd : ℤ
  pad : ℤ

/-- What a program does with the objects; it counts them from zero. -/
inductive SessionCall where
  | const (value : Bool)
  | xterm (id : ℕ)
  | bddNode (level low high : ℕ)
  | cddNode (level : ℕ) (elem : List ElemOf)
  | copy (i : ℕ) (neg : Bool)
  | assign (i j : ℕ)
  | drop (i : ℕ)
  | gbcNodemanager (i : ℕ)
  | addLevels (n : ℕ)

namespace Session

/-- `cdd(ddNode*)`. -/
def hold (s : Session) (k : Kernel) (p : ℤ) : Session :=
  ⟨k.setRef (cddRef k.heap.ref p), s.roots ++ [p]⟩

/-- The elements on the stack. -/
def elems (s : Session) (elem : List ElemOf) : Option (List Elem) :=
  elem.mapM fun e ↦ (s.roots[e.child]?).map fun child ↦ ⟨child, e.bnd, e.pad⟩

/-- One call. -/
def call (E : Env) (L : Library) (T : Terminals) (s : Session) : SessionCall → Run Session
  | .const value => return s.hold s.kernel (cddNegCond T.cddfalse (bit value))
  | .xterm id => do
    let node ← Run.ofOption T.extra[id]?
    return s.hold s.kernel node
  | .bddNode level i j => do
    let low ← Run.ofOption s.roots[i]?
    let high ← Run.ofOption s.roots[j]?
    let (node, k) ← s.kernel.obtainBddNode E L level low high
    return s.hold k node
  | .cddNode level elem => do
    let elem ← Run.ofOption (s.elems elem)
    let (node, k) ← s.kernel.obtainCddNode E L level elem
    return s.hold k node
  | .copy i neg => do
    let root ← Run.ofOption s.roots[i]?
    return s.hold s.kernel (cddNegCond root (bit neg))
  | .assign i j => do
    let root ← Run.ofOption s.roots[i]?
    let node ← Run.ofOption s.roots[j]?
    if root ≠ node then do
      let k ← s.kernel.cddRecDeref E L root
      return ⟨k.setRef (cddRef k.heap.ref node), s.roots.set i node⟩
    else return s
  | .drop i => do
    let root ← Run.ofOption s.roots[i]?
    let k ← s.kernel.cddRecDeref E L root
    return ⟨k, s.roots.eraseIdx i⟩
  | .gbcNodemanager i => do
    let k ← s.kernel.call E (.gbcNodemanager i)
    return { s with kernel := k }
  | .addLevels n => return { s with kernel := { s.kernel with levelcnt := s.kernel.levelcnt + n } }

/-- A run of calls. -/
def run (E : Env) (L : Library) (T : Terminals) (s : Session) : List SessionCall → Run Session
  | [] => return s
  | c :: cs => do (← s.call E L T c).run E L T cs

end Session

namespace SessionCall

/-- The same call on trees. -/
def onTrees (maxcddsize : ℕ) (ts : List DdNode) : SessionCall → Option (List DdNode)
  | const value => some (ts ++ [.terminal value])
  | xterm id => some (ts ++ [.xterm false id])
  | bddNode level i j => do return ts ++ [UCDD.cddMakeBddNode level (← ts[i]?) (← ts[j]?)]
  | cddNode level elem => do
    let elem ← elem.mapM fun e ↦ (ts[e.child]?).map fun child ↦ (child, Raw.ofCode e.bnd)
    return ts ++ [← UCDD.cddMakeCddNode maxcddsize level elem]
  | copy i neg => do return ts ++ [UCDD.cddNegCond (← ts[i]?) neg]
  | assign i j => do return ts.set i (← ts[j]?)
  | drop i => some (ts.eraseIdx i)
  | gbcNodemanager _ | addLevels _ => some ts

/-- The call that the kernel gets for a new node. -/
def kernelCall (s : Session) : SessionCall → Option KernelCall
  | bddNode level i j => do return .makeBddNode level (← s.roots[i]?) (← s.roots[j]?)
  | cddNode level elem => do return .makeCddNode level (← s.elems elem)
  | _ => none

/-- The objects are there, a level is declared and of the right type, and the elements of a node
fit and end at the only bound that is infinite. `Q` is what is known of the padding. -/
def Legal (L : Library) (T : Terminals) (Q : ℤ → Prop) (s : Session) : SessionCall → Prop
  | xterm id => id < T.extra.length
  | bddNode level i j => level < s.kernel.levelcnt ∧ L.levelinfo[level]? = some .bdd ∧
      i < s.roots.length ∧ j < s.roots.length
  | cddNode level elem => level < s.kernel.levelcnt ∧ L.isCdd level ∧
      elem.length ≤ s.kernel.maxcddsize ∧
      ∃ elem', s.elems elem = some elem' ∧ Terminated elem' ∧ ∀ e ∈ elem', e.Fits ∧ Q e.pad
  | copy i _ | drop i => i < s.roots.length
  | assign i j => i < s.roots.length ∧ j < s.roots.length
  | _ => True

/-- The allocations of the call find nodes, and no subtable with `2 ^ 30` buckets is rehashed. -/
def Supplied (E : Env) (s : Session) (c : SessionCall) : Prop :=
  ∀ c', c.kernelCall s = some c' → c'.Refills E s.kernel ∧ c'.Grows E s.kernel

end SessionCall

/-- The property holds of each call of a run, in the state before the call. -/
def Session.Calls (E : Env) (L : Library) (T : Terminals) (P : Session → SessionCall → Prop)
    (s : Session) : List SessionCall → Prop
  | [] => True
  | c :: cs => P s c ∧ ∀ s', s.call E L T c = .done s' → s'.Calls E L T P cs

/-- The run on trees. -/
def treeRun (maxcddsize : ℕ) (ts : List DdNode) : List SessionCall → Option (List DdNode)
  | [] => some ts
  | c :: cs => do treeRun maxcddsize (← c.onTrees maxcddsize ts) cs

/-- The objects stand for the trees, all of whose nodes have references, and two objects are equal
exactly when their trees are, which for well-formed ones is when they are equal everywhere. -/
structure Session.Represents (L : Library) (T : Terminals) (Q : ℤ → Prop) (s : Session)
    (ts : List DdNode) : Prop where
  length : s.roots.length = ts.length
  reads : ∀ (i : ℕ) (p : ℤ) (t : DdNode), s.roots[i]? = some p → ts[i]? = some t →
    Reads T Q (fun i level a key ↦ s.kernel.Record i level a key ∧ s.kernel.heap.ref a ≠ 0) p t
  eq_iff : ∀ (i j : ℕ) (p q : ℤ) (t u : DdNode), s.roots[i]? = some p → s.roots[j]? = some q →
    ts[i]? = some t → ts[j]? = some u → (p = q ↔ t = u)
  canonical : ∀ (i j : ℕ) (p q : ℤ) (t u : DdNode), s.roots[i]? = some p → s.roots[j]? = some q →
    ts[i]? = some t → ts[j]? = some u → L.WF t → L.WF u → (p = q ↔ ∀ a, eval a t = eval a u)

/-- What a run keeps. -/
structure Session.Keeps (E : Env) (L : Library) (T : Terminals) (Q : ℤ → Prop) (n : ℕ)
    (s : Session) (ts : List DdNode) : Prop where
  kept : ∃ N, s.kernel.Kept E L T n N (s.roots.map cddRglr)
  length : s.roots.length = ts.length
  reads : ∀ (i : ℕ) (p : ℤ) (t : DdNode), s.roots[i]? = some p → ts[i]? = some t →
    Reads T Q s.kernel.Record p t

section

variable {E : Env} {L : Library} {T : Terminals} {Q : ℤ → Prop} {p : ℤ} {n i j : ℕ}
  {k k' : Kernel} {N N' : Finset ℤ} {H : Multiset ℤ} {s s' : Session} {ts : List DdNode}
  {t : DdNode} {W : ℤ → Prop} {c : SessionCall} {calls : List SessionCall}

theorem coe_append_singleton (l : List ℤ) (p : ℤ) :
    (((l ++ [p]).map cddRglr : List ℤ) : Multiset ℤ) = cddRglr p ::ₘ (l.map cddRglr : List ℤ) := by
  rw [List.map_append, List.map_singleton, ← Multiset.coe_add, Multiset.coe_singleton,
    Multiset.add_comm, Multiset.singleton_add]

theorem coe_eraseIdx {l : List ℤ} (hp : l[i]? = some p) :
    ((l.map cddRglr : List ℤ) : Multiset ℤ) =
      cddRglr p ::ₘ ((l.eraseIdx i).map cddRglr : List ℤ) := by
  obtain ⟨hi, rfl⟩ := List.getElem?_eq_some_iff.mp hp
  rw [Multiset.cons_coe, Multiset.coe_eq_coe, ← List.map_cons]
  exact (List.getElem_cons_eraseIdx_perm hi).symm.map cddRglr

theorem coe_set {l : List ℤ} (hi : i < l.length) (p : ℤ) :
    (((l.set i p).map cddRglr : List ℤ) : Multiset ℤ) =
      cddRglr p ::ₘ ((l.eraseIdx i).map cddRglr : List ℤ) := by
  rw [Multiset.cons_coe, Multiset.coe_eq_coe, ← List.map_cons]
  exact (List.set_perm_cons_eraseIdx hi p).map cddRglr

/-- A reference is taken. -/
theorem Kernel.Kept.hold (hk : k.Kept E L T n N H)
    (hp : cddRglr p ∈ T.nodes ∨ cddRglr p ∈ N) :
    (k.setRef (cddRef k.heap.ref p)).Kept E L T n N (cddRglr p ::ₘ H) :=
  hk.setRef hk.card (hk.counted.take hp)

theorem Session.Keeps.stands (h : s.Keeps E L T Q n ts)
    (hk : s.kernel.Kept E L T n N (s.roots.map cddRglr)) (hp : s.roots[i]? = some p)
    (ht : ts[i]? = some t) : s.kernel.Stands T Q N p t := by
  refine ⟨h.reads i p t hp ht, hk.counted.outer _ ?_⟩
  exact Multiset.mem_coe.mpr (List.mem_map_of_mem (List.mem_of_getElem? hp))

/-- A new object, when the objects that are there stay what they are. -/
theorem Session.Keeps.hold (h : s.Keeps E L T Q n ts)
    (hk : s.kernel.Kept E L T n N (s.roots.map cddRglr)) {m : ℕ}
    (hk' : k'.Kept E L T m N' (s.roots.map cddRglr)) (hp : k'.Stands T Q N' p t)
    (hext : s.kernel.Extends k' W) (hW : ∀ b, s.kernel.heap.ref b ≠ 0 → W b) :
    (s.hold k' p).Keeps E L T Q m (ts ++ [t]) := by
  have hkept := hk'.hold hp.accounted
  refine ⟨⟨N', ?_⟩, ?_, fun i q u hq hu ↦ ?_⟩
  · show Kernel.Kept E L T m _ N' (((s.roots ++ [p]).map cddRglr : List ℤ) : Multiset ℤ)
    rw [coe_append_singleton]
    exact hkept
  · show (s.roots ++ [p]).length = _
    rw [List.length_append, List.length_append, h.length]
    rfl
  · have hq : (s.roots ++ [p])[i]? = some q := hq
    show Reads T Q k'.Record q u
    by_cases hi : i < s.roots.length
    · rw [List.getElem?_append_left hi] at hq
      rw [List.getElem?_append_left (h.length ▸ hi)] at hu
      have hmem : cddRglr q ∈ ((s.roots.map cddRglr : List ℤ) : Multiset ℤ) :=
        Multiset.mem_coe.mpr (List.mem_map_of_mem (List.mem_of_getElem? hq))
      exact (hk.stands hk' (h.stands hk hq hu) hmem hext hW).reads
    · have hlen := (List.getElem?_eq_some_iff.mp hq).1
      rw [List.length_append, List.length_singleton] at hlen
      have hi : i = s.roots.length := by omega
      subst hi
      rw [List.getElem?_append_right le_rfl, Nat.sub_self] at hq
      rw [List.getElem?_append_right h.length.ge, h.length, Nat.sub_self] at hu
      cases hq
      cases hu
      exact hp.reads

/-- The elements on the stack have the trees of their children. -/
theorem Session.Keeps.elems (h : s.Keeps E L T Q n ts)
    (hk : s.kernel.Kept E L T n N (s.roots.map cddRglr)) {elem : List ElemOf} {elem' : List Elem}
    (helem : s.elems elem = some elem') :
    ∃ telem, (elem.mapM fun e ↦ (ts[e.child]?).map fun child ↦ (child, Raw.ofCode e.bnd)) =
        some telem ∧ elem'.length = elem.length ∧
      elem'.map (fun e ↦ Raw.ofCode e.bnd) = telem.map Prod.snd ∧
      ∀ (m : ℕ) (e : Elem) (q : DdNode × Raw), elem'[m]? = some e → telem[m]? = some q →
        s.kernel.Stands T Q N e.child q.1 := by
  unfold Session.elems at helem
  induction elem generalizing elem' with
  | nil =>
    cases helem
    exact ⟨[], rfl, rfl, rfl, fun m e q he _ ↦ by cases he⟩
  | cons e elem ih =>
    rw [List.mapM_cons] at helem ⊢
    cases hroot : s.roots[e.child]? with
    | none =>
      rw [hroot] at helem
      cases helem
    | some root =>
      rw [hroot] at helem
      cases hrest : elem.mapM fun e ↦ (s.roots[e.child]?).map fun child ↦
          (⟨child, e.bnd, e.pad⟩ : Elem) with
      | none =>
        rw [hrest] at helem
        cases helem
      | some rest =>
        rw [hrest] at helem
        cases helem
        obtain ⟨telem, htelem, hlen, hbnd, hchild⟩ := ih hrest
        have hlt := (List.getElem?_eq_some_iff.mp hroot).1
        obtain ⟨u, htree⟩ : ∃ u, ts[e.child]? = some u :=
          ⟨_, List.getElem?_eq_getElem (h.length ▸ hlt)⟩
        refine ⟨(u, Raw.ofCode e.bnd) :: telem, ?_, ?_, ?_, fun m d q hd hq ↦ ?_⟩
        · rw [htree, htelem]
          rfl
        · rw [List.length_cons, List.length_cons, hlen]
        · rw [List.map_cons, List.map_cons, hbnd]
        · cases m with
          | zero =>
            cases hd
            cases hq
            exact h.stands hk hroot htree
          | succ m => exact hchild m d q hd hq

/-- One call. -/
theorem Session.Keeps.call (h : s.Keeps E L T Q n ts) (hE : E.Valid)
    (hfuel : 4096 + (n + 1) * (s.kernel.maxcddsize + 2) < E.fuel)
    (hpad : ∀ x y, Q x → Q y → x = y) (hlegal : c.Legal L T Q s) (hsupplied : c.Supplied E s) :
    ∃ s' ts', s.call E L T c = .done s' ∧ c.onTrees s.kernel.maxcddsize ts = some ts' ∧
      s'.Keeps E L T Q (n + 1) ts' ∧ s'.kernel.maxcddsize = s.kernel.maxcddsize := by
  obtain ⟨N, hk⟩ := h.kept
  have hmul : (n + 1) * 2 ≤ (n + 1) * (s.kernel.maxcddsize + 2) :=
    Nat.mul_le_mul_left _ (Nat.le_add_left 2 _)
  have hmul' : n * (s.kernel.maxcddsize + 2) ≤ (n + 1) * (s.kernel.maxcddsize + 2) :=
    Nat.mul_le_mul_right _ (Nat.le_succ n)
  have hfuel' : 4096 ≤ E.fuel := by omega
  -- an object that is there, and its tree
  have htree {i : ℕ} (hi : i < s.roots.length) :
      ∃ p t, s.roots[i]? = some p ∧ ts[i]? = some t ∧ s.kernel.Stands T Q N p t := by
    have hp : s.roots[i]? = some s.roots[i] := List.getElem?_eq_getElem hi
    obtain ⟨t, ht⟩ : ∃ t, ts[i]? = some t := ⟨_, List.getElem?_eq_getElem (h.length ▸ hi)⟩
    exact ⟨_, t, hp, ht, h.stands hk hp ht⟩
  have hmono := hk.mono (Nat.le_succ n)
  have hsame {p : ℤ} {t : DdNode} (hp : s.kernel.Stands T Q N p t) :
      (s.hold s.kernel p).Keeps E L T Q (n + 1) (ts ++ [t]) :=
    h.hold hk hmono hp (fun i level a key ha _ ↦ ha) fun _ hb ↦ hb
  have hterminal {p : ℤ} {t : DdNode} (hp : Reads T Q s.kernel.Record p t)
      (hmem : cddRglr p ∈ T.nodes) : (s.hold s.kernel p).Keeps E L T Q (n + 1) (ts ++ [t]) :=
    hsame ⟨hp, Or.inl hmem⟩
  cases c with
  | const value =>
    refine ⟨_, _, rfl, rfl, hterminal (.terminal value) ?_, rfl⟩
    rw [cddRglr_negCond (hk.outside.even _ List.mem_cons_self)]
    exact List.mem_cons_self
  | xterm id =>
    obtain ⟨a, ha⟩ : ∃ a, T.extra[id]? = some a := ⟨_, List.getElem?_eq_getElem hlegal⟩
    have hmem : a ∈ T.nodes := List.mem_cons_of_mem _ (List.mem_of_getElem? ha)
    have heven := hk.outside.even a hmem
    have hregular : cddNegCond a (bit false) = a := by
      unfold cddNegCond cddRglr bit
      simp only [Bool.false_eq_true, if_false]
      omega
    have hreads : Reads T Q s.kernel.Record (cddNegCond a (bit false)) (.xterm false id) :=
      .xterm false ha
    have hrglr : cddRglr a = a := by
      unfold cddRglr
      omega
    rw [hregular] at hreads
    refine ⟨s.hold s.kernel a, _, ?_, rfl, hterminal hreads (hrglr.symm ▸ hmem), rfl⟩
    simp only [Session.call, ha]
    rfl
  | bddNode level i j =>
    obtain ⟨hlevel, htype, hi, hj⟩ := hlegal
    obtain ⟨low, tlow, hlow, htlow, hl⟩ := htree hi
    obtain ⟨high, thigh, hhigh, hthigh, hh⟩ := htree hj
    have hcall : (SessionCall.bddNode level i j).kernelCall s =
        some (.makeBddNode level low high) := by
      simp only [SessionCall.kernelCall, hlow, hhigh]
      rfl
    obtain ⟨hrefills, hgrows⟩ := hsupplied _ hcall
    obtain ⟨r, k', N', hrun, hk', hr, hmax, -, hext⟩ := hk.obtainBddNode hE hfuel' (by omega) hpad
      htype hlevel hl hh hrefills hgrows
    refine ⟨s.hold k' r, _, ?_, ?_, h.hold hk hk' hr hext fun b hb ↦ Or.inl hb, hmax⟩
    · simp only [Session.call, hlow, hhigh, Run.ofOption_some, Run.done_bind, hrun]
      rfl
    · simp only [SessionCall.onTrees, htlow, hthigh]
      rfl
  | cddNode level elem =>
    obtain ⟨hlevel, htype, hmax, elem', helem, hterm, hfits⟩ := hlegal
    obtain ⟨telem, htelem, hlen, hbnd, hchild⟩ := h.elems hk helem
    have hcall : (SessionCall.cddNode level elem).kernelCall s =
        some (.makeCddNode level elem') := by
      simp only [SessionCall.kernelCall, helem]
      rfl
    obtain ⟨hrefills, hgrows⟩ := hsupplied _ hcall
    obtain ⟨r, k', N', t, hrun, ht, hk', hr, hmax', -, hext⟩ := hk.obtainCddNode hE hfuel'
      (by omega) htype hlevel (hlen.symm ▸ hmax) hterm hfits hbnd hchild hrefills hgrows
    refine ⟨s.hold k' r, _, ?_, ?_, h.hold hk hk' hr hext fun b hb ↦ Or.inl hb, hmax'⟩
    · simp only [Session.call, helem, Run.ofOption_some, Run.done_bind, hrun]
      rfl
    · simp only [SessionCall.onTrees, htelem]
      show (do return ts ++ [← UCDD.cddMakeCddNode s.kernel.maxcddsize level telem]) = _
      rw [ht]
      rfl
  | copy i neg =>
    obtain ⟨p, t, hp, ht, hstands⟩ := htree hlegal
    have hrglr : cddRglr (cddNegCond p (bit neg)) = cddRglr p := by
      unfold cddNegCond cddRglr
      cases neg <;> simp only [bit, if_true, Bool.false_eq_true, if_false] <;> omega
    refine ⟨_, _, ?_, ?_, hsame ⟨hstands.reads.negCond neg, hrglr.symm ▸ hstands.accounted⟩, rfl⟩
    · simp only [Session.call, hp]
      rfl
    · simp only [SessionCall.onTrees, ht]
      rfl
  | assign i j =>
    obtain ⟨hi, hj⟩ := hlegal
    obtain ⟨p, t, hp, ht, hstands⟩ := htree hi
    obtain ⟨q, u, hq, hu, hstandsq⟩ := htree hj
    have hT := hk.ok.addressed hk.outside
    by_cases heq : p = q
    · -- the same pointer stands for the same tree
      subst heq
      have htu := hstands.reads.unique hT hstandsq.reads
      subst htu
      have hset : ts.set i t = ts := by
        obtain ⟨hi', rfl⟩ := List.getElem?_eq_some_iff.mp ht
        exact List.set_getElem_self hi'
      refine ⟨s, ts.set i t, ?_, ?_, ?_, rfl⟩
      · simp only [Session.call, hp, hq, Run.ofOption_some, Run.done_bind, ne_eq, not_true_eq_false,
          if_false]
        rfl
      · simp only [SessionCall.onTrees, hu]
        rfl
      · rw [hset]
        exact ⟨⟨N, hmono⟩, h.length, h.reads⟩
    · have hH := coe_eraseIdx hp
      rw [hH] at hk
      obtain ⟨k', N', hrun, hsame', hk'⟩ := hk.cddRecDeref hE (by omega)
      have hne : i ≠ j := fun hij ↦ by
        rw [hij, hq] at hp
        exact heq (Option.some.inj hp).symm
      have hacc : cddRglr q ∈ T.nodes ∨ cddRglr q ∈ N' := by
        apply hk'.counted.outer
        have hmem : q ∈ s.roots.eraseIdx i :=
          List.mem_eraseIdx_iff_getElem?.mpr ⟨j, hne.symm, hq⟩
        exact Multiset.mem_coe.mpr (List.mem_map_of_mem hmem)
      refine ⟨⟨k'.setRef (cddRef k'.heap.ref q), s.roots.set i q⟩, ts.set i u, ?_, ?_,
        ⟨⟨N', ?_⟩, ?_, fun m r v hr hv ↦ ?_⟩, hsame'.maxcddsize⟩
      · simp only [Session.call, hp, hq, Run.ofOption_some, Run.done_bind, ne_eq, heq,
          not_false_iff, if_true, hrun]
        rfl
      · simp only [SessionCall.onTrees, hu]
        rfl
      · show Kernel.Kept E L T (n + 1) _ N' (((s.roots.set i q).map cddRglr : List ℤ) : Multiset ℤ)
        rw [coe_set hi]
        exact (hk'.hold hacc).mono (Nat.le_succ n)
      · rw [List.length_set, List.length_set, h.length]
      · show Reads T Q k'.Record r v
        rw [hsame'.record]
        by_cases hm : i = m
        · subst hm
          rw [List.getElem?_set_self hi] at hr
          rw [List.getElem?_set_self (h.length ▸ hi)] at hv
          cases hr
          cases hv
          exact hstandsq.reads
        · have hr : (s.roots.set i q)[m]? = some r := hr
          rw [List.getElem?_set_ne hm] at hr hv
          exact h.reads m r v hr hv
  | drop i =>
    obtain ⟨p, t, hp, ht, -⟩ := htree hlegal
    rw [coe_eraseIdx hp] at hk
    obtain ⟨k', N', hrun, hsame', hk'⟩ := hk.cddRecDeref hE (by omega)
    refine ⟨⟨k', s.roots.eraseIdx i⟩, ts.eraseIdx i, ?_, rfl,
      ⟨⟨N', hk'.mono (Nat.le_succ n)⟩, ?_, fun m r v hr hv ↦ ?_⟩, hsame'.maxcddsize⟩
    · simp only [Session.call, hp, Run.ofOption_some, Run.done_bind, hrun]
      rfl
    · rw [List.length_eraseIdx, List.length_eraseIdx, h.length]
    · have hr : (s.roots.eraseIdx i)[m]? = some r := hr
      show Reads T Q k'.Record r v
      rw [hsame'.record]
      rw [List.getElem?_eraseIdx] at hr hv
      by_cases hm : m < i
      · rw [if_pos hm] at hr hv
        exact h.reads m r v hr hv
      · rw [if_neg hm] at hr hv
        exact h.reads (m + 1) r v hr hv
  | gbcNodemanager i =>
    obtain ⟨k', N', hrun, hk', hmax, -, hext⟩ := hk.sweep hE (by omega) i
    refine ⟨⟨k', s.roots⟩, ts, ?_, rfl, ⟨⟨N', hk'.mono (Nat.le_succ n)⟩, h.length,
      fun m r v hr hv ↦ ?_⟩, hmax⟩
    · simp only [Session.call, hrun]
      rfl
    · have hmem : cddRglr r ∈ ((s.roots.map cddRglr : List ℤ) : Multiset ℤ) :=
        Multiset.mem_coe.mpr (List.mem_map_of_mem (List.mem_of_getElem? hr))
      exact (hk.stands hk' (h.stands hk hr hv) hmem hext fun b hb ↦ hb).reads
  | addLevels m =>
    refine ⟨⟨{ s.kernel with levelcnt := s.kernel.levelcnt + m }, s.roots⟩, ts, rfl, rfl,
      ⟨⟨N, ?_⟩, h.length, h.reads⟩, rfl⟩
    have hok : Kernel.Ok E n { s.kernel with levelcnt := s.kernel.levelcnt + m } := by
      refine ⟨fun i man hman ↦ ?_, hk.ok.fits, hk.ok.hashfunc, hk.ok.chunk, hk.ok.apart, hk.ok.bdd⟩
      obtain ⟨F, chain, hfree, hs⟩ := hk.ok.manager i man hman
      exact ⟨F, chain, hfree, hs.mono (Nat.le_add_right _ _) le_rfl⟩
    exact Kernel.Kept.mono ⟨hok, hk.outside, hk.kind, hk.sized, hk.card, hk.counted⟩
      (Nat.le_succ n)

/-- A run of calls. -/
theorem Session.Keeps.run (hE : E.Valid) (hpad : ∀ x y, Q x → Q y → x = y) {maxsize : ℕ}
    (h : s.Keeps E L T Q n ts) (hmax : s.kernel.maxcddsize = maxsize)
    (hfuel : 4096 + (n + calls.length) * (maxsize + 2) < E.fuel)
    (hcalls : s.Calls E L T (fun s c ↦ c.Legal L T Q s ∧ c.Supplied E s) calls) :
    ∃ s' ts', s.run E L T calls = .done s' ∧ treeRun maxsize ts calls = some ts' ∧
      s'.Keeps E L T Q (n + calls.length) ts' := by
  induction calls generalizing n s ts with
  | nil => exact ⟨s, ts, rfl, rfl, h⟩
  | cons c cs ih =>
    rw [List.length_cons] at hfuel ⊢
    obtain ⟨⟨hlegal, hsupplied⟩, hrest⟩ := hcalls
    have hmul : (n + 1) * (maxsize + 2) ≤ (n + (cs.length + 1)) * (maxsize + 2) :=
      Nat.mul_le_mul_right _ (by omega)
    have hone : 4096 + (n + 1) * (s.kernel.maxcddsize + 2) < E.fuel := by
      rw [hmax]
      omega
    have hsum : n + 1 + cs.length = n + (cs.length + 1) := by omega
    obtain ⟨s₁, ts₁, hcall, htree, hkeeps, hmax₁⟩ := h.call hE hone hpad hlegal hsupplied
    obtain ⟨s', ts', hrun, htrees, hkeeps'⟩ :=
      ih hkeeps (hmax₁.trans hmax) (hsum ▸ hfuel) (hrest s₁ hcall)
    refine ⟨s', ts', ?_, ?_, hsum ▸ hkeeps'⟩
    · rw [Session.run, hcall, Run.done_bind, hrun]
    · rw [← hmax] at htrees ⊢
      rw [treeRun, htree]
      exact htrees

/-- What is kept says what the objects stand for. -/
theorem Session.Keeps.represents (h : s.Keeps E L T Q n ts) (hpad : ∀ x y, Q x → Q y → x = y) :
    s.Represents L T Q ts := by
  obtain ⟨N, hk⟩ := h.kept
  have heq (i j : ℕ) (p q : ℤ) (t u : DdNode) (hp : s.roots[i]? = some p)
      (hq : s.roots[j]? = some q) (ht : ts[i]? = some t) (hu : ts[j]? = some u) : p = q ↔ t = u :=
    hk.stands_eq_iff hpad (h.stands hk hp ht) (h.stands hk hq hu)
  refine ⟨h.length, fun i p t hp ht ↦ ?_, heq, fun i j p q t u hp hq ht hu hwt hwu ↦ ?_⟩
  · have hstands := h.stands hk hp ht
    have hmem : cddRglr p ∈ ((s.roots.map cddRglr : List ℤ) : Multiset ℤ) :=
      Multiset.mem_coe.mpr (List.mem_map_of_mem (List.mem_of_getElem? hp))
    exact hk.reads_needed hstands.reads
      (hstands.accounted.imp_right fun hN ↦ ⟨hN, hk.counted.ref_ne_zero hmem⟩) fun _ hb ↦ hb
  · rw [heq i j p q t u hp hq ht hu]
    constructor
    · intro htu a
      rw [htu]
    · intro heval
      exact eq_of_eval_eq hwt hwu heval

/-- The state after `cdd_init`, when the terminals have their counts. -/
theorem Kernel.init_kept (hE : E.Valid) (hfuel : 4096 ≤ E.fuel) (hT : T.Outside E) {h₀ : Heap}
    (href : ∀ a ∈ T.nodes, h₀.ref a = MAXREF) {maxsize : ℕ}
    (hinit : Kernel.init E h₀ maxsize = .done k) : k.Kept E L T 0 ∅ 0 := by
  obtain ⟨k₁, hinit', hok, -⟩ := Kernel.init_spec hE hfuel h₀ maxsize
  rw [hinit] at hinit'
  cases hinit'
  obtain ⟨man, hman, -, hsub⟩ := Kernel.init_counts hinit
  have hb : Fits (nodeBytes 0) := fits_nodeBytes (by decide)
  obtain ⟨h', man', F, halloc, hfree, hs, hnodes, -⟩ :=
    cddAllocNodemanager_spec hE hfuel hb bddHashFunc_lt h₀ 0 (keyWords 0) 0
  have hput : k = Kernel.put ⟨h₀, 0, maxsize, fun _ ↦ none⟩ 0 (h', man') := by
    rw [Kernel.init, halloc] at hinit
    cases hinit
    rfl
  have hself : k.managers 0 = some man' := hput ▸ Kernel.put_self _
  have hzero {j : ℕ} {man₂ : NodeManager} (hman₂ : k.managers j = some man₂) :
      j = 0 ∧ man₂ = man' := by
    by_cases hj : j = 0
    · subst hj
      rw [hself, Option.some.injEq] at hman₂
      exact ⟨rfl, hman₂.symm⟩
    · rw [hput, Kernel.put_other _ hj] at hman₂
      cases hman₂
  rw [hself, Option.some.injEq] at hman
  subst hman
  -- no subtable is open yet
  have hnone (j l : ℕ) (a : ℤ) : ¬ k.Holds j l a := by
    intro hex
    obtain ⟨man₂, tbl, hman₂, htbl, -⟩ := hex
    obtain ⟨-, rfl⟩ := hzero hman₂
    rw [hsub] at htbl
    cases htbl
  have hheap : k.heap.ref = Function.update h₀.ref man'.sentinel 0 := by
    rw [hput]
    exact cddAllocNodemanager_ref hE hfuel hb halloc
  have hsentinel (a : ℤ) (ha : a ∈ T.nodes) : a ≠ man'.sentinel := by
    intro heq
    have hchunk := hs.sentinel.1
    rw [hnodes, List.mem_singleton] at hchunk
    exact hT.chunk a ha _ (heq ▸ hchunk)
  have hempty (a : ℤ) : ¬ k.There a := by
    intro hex
    obtain ⟨j, l, hholds⟩ := hex
    exact hnone j l a hholds
  refine ⟨hok, hT, fun j l a ha ↦ absurd ha (hnone j l a), fun j man₂ hman₂ ↦ ?_, le_rfl, ?_⟩
  · exact (hzero hman₂).1 ▸ Nat.zero_le _
  · constructor
    · decide
    · intro a ha
      rw [hheap, Function.update_of_ne (hsentinel a ha)]
      exact href a ha
    · exact fun a _ ↦ hempty a
    · intro a ha
      cases ha
    · exact fun a ha ↦ absurd ha (hempty a)
    · intro c
      right
      exact Nat.zero_le _
    · intro c hc
      cases hc
    · intro a ha
      cases ha

/-- In a run of objects every one stands for the diagram of the same run on trees, and these are
equal exactly when the objects are. -/
theorem session_run (hE : E.Valid) (hT : T.Outside E) (hpad : ∀ x y, Q x → Q y → x = y)
    {h₀ : Heap} (href : ∀ a ∈ T.nodes, h₀.ref a = MAXREF) {maxsize : ℕ}
    (hfuel : 4096 + calls.length * (maxsize + 2) < E.fuel)
    (hinit : Kernel.init E h₀ maxsize = .done k)
    (hcalls : (Session.mk k []).Calls E L T (fun s c ↦ c.Legal L T Q s ∧ c.Supplied E s) calls) :
    ∃ s ts, (Session.mk k []).run E L T calls = .done s ∧ treeRun maxsize [] calls = some ts ∧
      s.Represents L T Q ts := by
  have hkept : k.Kept E L T 0 ∅ 0 := Kernel.init_kept hE (by omega) hT href hinit
  have hkeeps : (Session.mk k []).Keeps E L T Q 0 [] :=
    ⟨⟨∅, hkept⟩, rfl, fun i p t hp _ ↦ by cases hp⟩
  obtain ⟨k₁, hinit', -, -, hmax⟩ := Kernel.init_spec hE (by omega) h₀ maxsize
  rw [hinit] at hinit'
  cases hinit'
  have hsum : 0 + calls.length = calls.length := Nat.zero_add _
  obtain ⟨s, ts, hrun, htree, hs⟩ := hkeeps.run hE hpad hmax (hsum.symm ▸ hfuel) hcalls
  exact ⟨s, ts, hrun, htree, hs.represents hpad⟩

/-- Memory in which the terminal is at the address `16`. -/
def terminalHeap : Heap := { zeros with ref := fun a ↦ if a = 16 then MAXREF else 0 }

/-- A node with a Boolean variable, its negation, and the first of the two is let go. -/
def sampleCalls : List SessionCall :=
  [.addLevels 2, .const false, .const true, .bddNode 1 0 1, .copy 2 true, .drop 2]

theorem session_run_sample : ∃ k s ts,
    Kernel.init (pages fun _ _ ↦ 0) terminalHeap 2 = .done k ∧
    (Session.mk k []).run (pages fun _ _ ↦ 0) sampleLibrary ⟨16, []⟩ sampleCalls = .done s ∧
    treeRun 2 [] sampleCalls = some ts ∧
    s.Represents sampleLibrary ⟨16, []⟩ (· = 0) ts := by
  set E := pages fun _ _ ↦ 0 with hdef
  set T : Terminals := ⟨16, []⟩ with hterminals
  have hE : E.Valid := pages_valid _
  have hfuel : 4096 + sampleCalls.length * (2 + 2) < E.fuel := by
    show 4096 + 6 * (2 + 2) < 2 ^ 40
    norm_num
  have hmem (a : ℤ) (ha : a ∈ T.nodes) : a = 16 := List.mem_singleton.mp ha
  have hT : T.Outside E := by
    refine ⟨by decide, fun a ha ↦ ?_, fun a ha ↦ ?_, fun a ha m hm ↦ ?_⟩
    · rw [hmem a ha]
      decide
    · rw [hmem a ha]
      decide
    · rw [hmem a ha] at hm
      have hchunk : (0 : ℤ) = 65536 * (m + 1) := hm
      omega
  have href (a : ℤ) (ha : a ∈ T.nodes) : terminalHeap.ref a = MAXREF := by
    rw [hmem a ha]
    rfl
  obtain ⟨k, hinit, -, hcnt, -⟩ := Kernel.init_spec hE (by omega) terminalHeap 2
  obtain ⟨man, hman, hcalm, hsub⟩ := Kernel.init_counts hinit
  have hcalls : (Session.mk k []).Calls E sampleLibrary T
      (fun s c ↦ c.Legal sampleLibrary T (· = 0) s ∧ c.Supplied E s) sampleCalls := by
    refine ⟨⟨trivial, fun c hc ↦ by cases hc⟩, fun s₁ h₁ ↦ ?_⟩
    cases h₁
    refine ⟨⟨trivial, fun c hc ↦ by cases hc⟩, fun s₂ h₂ ↦ ?_⟩
    cases h₂
    refine ⟨⟨trivial, fun c hc ↦ by cases hc⟩, fun s₃ h₃ ↦ ?_⟩
    cases h₃
    refine ⟨⟨⟨Nat.lt_add_left _ Nat.one_lt_two, by decide, Nat.zero_lt_two, Nat.one_lt_two⟩,
      fun c hc ↦ ?_⟩, fun s₄ h₄ ↦ ?_⟩
    · cases hc
      constructor
      · intro _ _ man' hman'
        have heq : man' = man := Option.some.inj (hman'.symm.trans hman)
        rw [heq]
        exact (hcalm.openSubtable 1).refills (by norm_num) (by decide)
      · intro _ _ man' hman' hover
        have heq : man' = man := Option.some.inj (hman'.symm.trans hman)
        have hbuckets := hover.2
        simp only [heq, openSubtable, hsub] at hbuckets
        have hfew : (256 : ℤ) = 2 ^ 30 := hbuckets
        norm_num at hfew
    · -- the third object is there, whatever its pointer
      obtain ⟨low, -, h₄⟩ := Run.bind_eq_done h₄
      obtain ⟨high, -, h₄⟩ := Run.bind_eq_done h₄
      obtain ⟨⟨node, k'⟩, -, h₄⟩ := Run.bind_eq_done h₄
      cases h₄
      refine ⟨⟨Nat.lt_succ_self 2, fun c hc ↦ by cases hc⟩, fun s₅ h₅ ↦ ?_⟩
      cases h₅
      exact ⟨⟨by show 2 < 4; omega, fun c hc ↦ by cases hc⟩, fun _ _ ↦ trivial⟩
  obtain ⟨s, ts, hrun, htree, hs⟩ :=
    session_run hE hT (fun x y hx hy ↦ hx.trans hy.symm) href hfuel hinit hcalls
  exact ⟨k, s, ts, hinit, hrun, htree, hs⟩

end

end NodeTable

end UCDD

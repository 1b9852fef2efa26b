import UCDD.Diagram.Apply
import UCDD.Diagram.Interval
import UCDD.Kernel.Layout

/-!
# Diagrams in the node memory

A pointer into the node memory stands for the tree below it. A tree is stored once, so two pointers
are equal exactly when their trees are, as long as the padding of the elements is the same
everywhere: `memcmp` and the hash of `kernel.c` read it too.
-/

namespace UCDD

namespace NodeTable

open HashChain Loop Links Counter

/-- Where the terminals are: `cdd_terminal`, and the nodes of `extra_terminals`. -/
structure Terminals where
  cddfalse : ℤ
  extra : List ℤ

/-- All terminals. -/
def Terminals.nodes (T : Terminals) : List ℤ := T.cddfalse :: T.extra

/-- The last bit of a pointer. -/
def bit (neg : Bool) : ℤ := if neg then 1 else 0

/-- The pointer reads as the tree, where `node i level a key` says that a node with this key is at
the address `a`, in manager `i`, and `Q` holds of the padding. -/
inductive Reads (T : Terminals) (Q : ℤ → Prop) (node : ℕ → ℕ → ℤ → List ℤ → Prop) :
    ℤ → DdNode → Prop
  | terminal (neg : Bool) : Reads T Q node (cddNegCond T.cddfalse (bit neg)) (.terminal neg)
  | xterm (neg : Bool) {id : ℕ} {a : ℤ} :
      T.extra[id]? = some a → Reads T Q node (cddNegCond a (bit neg)) (.xterm neg id)
  | bdd (neg : Bool) {level : ℕ} {a low high : ℤ} {tlow thigh : DdNode} :
      node 0 level a [low, high] → Reads T Q node low tlow → Reads T Q node high thigh →
      Reads T Q node (cddNegCond a (bit neg)) (.bdd neg level tlow thigh)
  | cdd (neg : Bool) {level : ℕ} {a : ℤ} {elem : List Elem} {telem : List (DdNode × Raw)} :
      node elem.length level a (elemBytes elem) → 2 ≤ elem.length →
      (∀ e ∈ elem, e.Fits ∧ Q e.pad) →
      elem.map (fun e ↦ Raw.ofCode e.bnd) = telem.map Prod.snd →
      (∀ (m : ℕ) (e : Elem) (p : DdNode × Raw), elem[m]? = some e → telem[m]? = some p →
        Reads T Q node e.child p.1) →
      Reads T Q node (cddNegCond a (bit neg)) (.cdd neg level telem)

/-- The addresses are even, no two terminals are at one address, and an address says what is
there. -/
structure Addressed (T : Terminals) (node : ℕ → ℕ → ℤ → List ℤ → Prop) : Prop where
  nodup : T.nodes.Nodup
  even_terminal : ∀ a ∈ T.nodes, a % 2 = 0
  even : ∀ i level a key, node i level a key → a % 2 = 0
  not_terminal : ∀ i level a key, node i level a key → a ∉ T.nodes
  unique : ∀ i j level level' a key key', node i level a key → node j level' a key' →
    i = j ∧ level = level' ∧ key = key'

section

variable {T : Terminals} {Q : ℤ → Prop} {node node' : ℕ → ℕ → ℤ → List ℤ → Prop}
  {a b : ℤ} {neg neg' : Bool} {t t' : DdNode}

/-- A pointer to an even address gives back the address and the bit. -/
theorem negCond_inj (ha : a % 2 = 0) (hb : b % 2 = 0)
    (h : cddNegCond a (bit neg) = cddNegCond b (bit neg')) : a = b ∧ neg = neg' := by
  unfold cddNegCond cddRglr at h
  cases neg <;> cases neg' <;> simp only [bit, if_true, Bool.false_eq_true, if_false] at h
  · exact ⟨by omega, rfl⟩
  · omega
  · omega
  · exact ⟨by omega, rfl⟩

theorem negCond_negCond (a : ℤ) (neg neg' : Bool) :
    cddNegCond (cddNegCond a (bit neg)) (bit neg') = cddNegCond a (bit (neg ^^ neg')) := by
  unfold cddNegCond cddRglr
  cases neg <;> cases neg' <;> simp only [bit, Bool.xor_false, Bool.xor_true, Bool.not_false,
    Bool.not_true, if_true, Bool.false_eq_true, if_false] <;> omega

/-- What is read does not change when nodes are added. -/
theorem Reads.mono (h : Reads T Q node a t)
    (hsub : ∀ i level a key, node i level a key → node' i level a key) :
    Reads T Q node' a t := by
  induction h with
  | terminal neg => exact .terminal neg
  | xterm neg ha => exact .xterm neg ha
  | bdd neg hn _ _ ihl ihh => exact .bdd neg (hsub _ _ _ _ hn) ihl ihh
  | cdd neg hn h2 hfits hbnd _ ih => exact .cdd neg (hsub _ _ _ _ hn) h2 hfits hbnd ih

/-- The negation bit of a pointer. -/
theorem Reads.negCond (h : Reads T Q node a t) (neg : Bool) :
    Reads T Q node (cddNegCond a (bit neg)) (UCDD.cddNegCond t neg) := by
  cases h with
  | terminal neg' =>
    rw [negCond_negCond]
    exact .terminal _
  | xterm neg' ha =>
    rw [negCond_negCond]
    exact .xterm _ ha
  | bdd neg' hn hl hh =>
    rw [negCond_negCond]
    exact .bdd _ hn hl hh
  | cdd neg' hn h2 hfits hbnd hs =>
    rw [negCond_negCond]
    exact .cdd _ hn h2 hfits hbnd hs

/-- The fields of an array of elements with the trees of the children. -/
theorem telem_ext {elem : List Elem} {telem telem' : List (DdNode × Raw)}
    (hbnd : elem.map (fun e ↦ Raw.ofCode e.bnd) = telem.map Prod.snd)
    (hbnd' : elem.map (fun e ↦ Raw.ofCode e.bnd) = telem'.map Prod.snd)
    (hchild : ∀ (m : ℕ) (e : Elem) (p p' : DdNode × Raw), elem[m]? = some e → telem[m]? = some p →
      telem'[m]? = some p' → p.1 = p'.1) : telem = telem' := by
  have hsnd : telem.map Prod.snd = telem'.map Prod.snd := hbnd.symm.trans hbnd'
  have hlen : telem.length = telem'.length := by simpa using congrArg List.length hsnd
  have hlen' : elem.length = telem.length := by simpa using congrArg List.length hbnd
  apply List.ext_getElem hlen
  intro m hm hm'
  have he : elem[m]? = some elem[m] := List.getElem?_eq_getElem (by omega)
  have hp : telem[m]? = some telem[m] := List.getElem?_eq_getElem hm
  have hp' : telem'[m]? = some telem'[m] := List.getElem?_eq_getElem hm'
  have hsnd' := congrArg (fun l ↦ l[m]?) hsnd
  simp only [List.getElem?_map, hp, hp', Option.map_some, Option.some.injEq] at hsnd'
  exact Prod.ext (hchild m _ _ _ he hp hp') hsnd'

theorem Addressed.even_cddfalse (hT : Addressed T node) : T.cddfalse % 2 = 0 :=
  hT.even_terminal _ List.mem_cons_self

theorem Addressed.even_extra {id : ℕ} (hT : Addressed T node) (ha : T.extra[id]? = some a) :
    a % 2 = 0 :=
  hT.even_terminal _ (List.mem_cons_of_mem _ (List.mem_of_getElem? ha))

/-- The constant is not one of the extra terminals. -/
theorem Addressed.extra_ne {id : ℕ} (hT : Addressed T node) (ha : T.extra[id]? = some a) :
    a ≠ T.cddfalse := fun heq ↦
  (List.nodup_cons.mp hT.nodup).1 (heq ▸ List.mem_of_getElem? ha)

theorem Addressed.ne_cddfalse {i level : ℕ} {key : List ℤ} (hT : Addressed T node)
    (hn : node i level a key) : a ≠ T.cddfalse := fun heq ↦
  hT.not_terminal _ _ _ _ hn (heq ▸ List.mem_cons_self)

theorem Addressed.ne_extra {i level id : ℕ} {key : List ℤ} (hT : Addressed T node)
    (hn : node i level a key) (hb : T.extra[id]? = some b) : a ≠ b := fun heq ↦
  hT.not_terminal _ _ _ _ hn (heq ▸ List.mem_cons_of_mem _ (List.mem_of_getElem? hb))

/-- A pointer reads as one tree only. -/
theorem Reads.unique (hT : Addressed T node) (h : Reads T Q node a t)
    (h' : Reads T Q node a t') : t = t' := by
  induction h generalizing t' with
  | terminal neg =>
    generalize hx : cddNegCond T.cddfalse (bit neg) = x at h'
    have heven := hT.even_cddfalse
    cases h' with
    | terminal neg' => rw [(negCond_inj heven hT.even_cddfalse hx).2]
    | xterm neg' hb =>
        exact absurd (negCond_inj heven (hT.even_extra hb) hx).1.symm (hT.extra_ne hb)
    | bdd neg' hn =>
        exact absurd (negCond_inj heven (hT.even _ _ _ _ hn) hx).1.symm (hT.ne_cddfalse hn)
    | cdd neg' hn =>
        exact absurd (negCond_inj heven (hT.even _ _ _ _ hn) hx).1.symm (hT.ne_cddfalse hn)
  | xterm neg ha =>
    rename_i id r
    generalize hx : cddNegCond r (bit neg) = x at h'
    have heven := hT.even_extra ha
    cases h' with
    | terminal neg' => exact absurd (negCond_inj heven hT.even_cddfalse hx).1 (hT.extra_ne ha)
    | xterm neg' hb =>
      obtain ⟨rfl, rfl⟩ := negCond_inj heven (hT.even_extra hb) hx
      have hnodup := (List.nodup_cons.mp hT.nodup).2
      rw [(List.getElem?_inj (List.getElem?_eq_some_iff.mp ha).1 hnodup).mp (ha.trans hb.symm)]
    | bdd neg' hn =>
        exact absurd (negCond_inj heven (hT.even _ _ _ _ hn) hx).1.symm (hT.ne_extra hn ha)
    | cdd neg' hn =>
        exact absurd (negCond_inj heven (hT.even _ _ _ _ hn) hx).1.symm (hT.ne_extra hn ha)
  | @bdd neg level r low high tlow thigh hn _ _ ihl ihh =>
    generalize hx : cddNegCond r (bit neg) = x at h'
    have heven := hT.even _ _ _ _ hn
    cases h' with
    | terminal neg' => exact absurd (negCond_inj heven hT.even_cddfalse hx).1 (hT.ne_cddfalse hn)
    | xterm neg' hb => exact absurd (negCond_inj heven (hT.even_extra hb) hx).1 (hT.ne_extra hn hb)
    | bdd neg' hn' hl hh =>
      obtain ⟨rfl, rfl⟩ := negCond_inj heven (hT.even _ _ _ _ hn') hx
      obtain ⟨-, rfl, hkey⟩ := hT.unique _ _ _ _ _ _ _ hn hn'
      simp only [List.cons.injEq, and_true] at hkey
      obtain ⟨rfl, rfl⟩ := hkey
      rw [ihl hl, ihh hh]
    | cdd neg' hn' h2 =>
      obtain ⟨rfl, -⟩ := negCond_inj heven (hT.even _ _ _ _ hn') hx
      obtain ⟨hlen, -⟩ := hT.unique _ _ _ _ _ _ _ hn hn'
      omega
  | @cdd neg level r elem telem hn h2 hfits hbnd _ ih =>
    generalize hx : cddNegCond r (bit neg) = x at h'
    have heven := hT.even _ _ _ _ hn
    cases h' with
    | terminal neg' => exact absurd (negCond_inj heven hT.even_cddfalse hx).1 (hT.ne_cddfalse hn)
    | xterm neg' hb => exact absurd (negCond_inj heven (hT.even_extra hb) hx).1 (hT.ne_extra hn hb)
    | bdd neg' hn' =>
      obtain ⟨rfl, -⟩ := negCond_inj heven (hT.even _ _ _ _ hn') hx
      obtain ⟨hlen, -⟩ := hT.unique _ _ _ _ _ _ _ hn hn'
      omega
    | @cdd neg' level' r' elem' telem' hn' _ hfits' hbnd' hs =>
      obtain ⟨rfl, rfl⟩ := negCond_inj heven (hT.even _ _ _ _ hn') hx
      obtain ⟨-, rfl, hkey⟩ := hT.unique _ _ _ _ _ _ _ hn hn'
      have helem := (elemBytes_inj (fun e he ↦ (hfits e he).1) fun e he ↦ (hfits' e he).1).mp hkey
      subst helem
      rw [telem_ext hbnd hbnd' fun m e p p' he hp hp' ↦ ih m e p he hp (hs m e p' he hp')]

theorem ofCode_injective : Function.Injective Raw.ofCode := by
  intro x y h
  by_cases hx : x = rawINF ∨ x = -rawINF
  · by_cases hy : y = rawINF ∨ y = -rawINF
    · rcases hx with rfl | rfl <;> rcases hy with rfl | rfl
      · rfl
      · rw [ofCode_rawINF, ofCode_neg_rawINF] at h
        exact absurd h neg_INF_lt.ne'
      · rw [ofCode_rawINF, ofCode_neg_rawINF] at h
        exact absurd h neg_INF_lt.ne
      · rfl
    · push Not at hy
      rw [ofCode_fin hy.1 hy.2] at h
      rcases hx with rfl | rfl
      · rw [ofCode_rawINF] at h
        exact absurd h (Raw.fin_lt_inf y).ne'
      · rw [ofCode_neg_rawINF] at h
        exact absurd h (Raw.negInf_lt_fin y).ne
  · push Not at hx
    rw [ofCode_fin hx.1 hx.2] at h
    by_cases hy : y = rawINF ∨ y = -rawINF
    · rcases hy with rfl | rfl
      · rw [ofCode_rawINF] at h
        exact absurd h (Raw.fin_lt_inf x).ne
      · rw [ofCode_neg_rawINF] at h
        exact absurd h (Raw.negInf_lt_fin x).ne'
    · push Not at hy
      rw [ofCode_fin hy.1 hy.2] at h
      injection h

/-- Of two pointers that read as one tree there is one, where a key is stored once and all padding
is the same. -/
theorem Reads.injective
    (hstored : ∀ i level a b key, node i level a key → node i level b key → a = b)
    (hpad : ∀ p q, Q p → Q q → p = q) (h : Reads T Q node a t) (h' : Reads T Q node b t) :
    a = b := by
  induction h generalizing b with
  | terminal neg =>
    cases h' with
    | terminal neg' => rfl
  | xterm neg ha =>
    cases h' with
    | xterm neg' hb => rw [Option.some.inj (ha.symm.trans hb)]
  | bdd neg hn _ _ ihl ihh =>
    cases h' with
    | bdd neg' hn' hl hh =>
      rw [← ihl hl, ← ihh hh] at hn'
      rw [hstored _ _ _ _ _ hn hn']
  | @cdd neg level r elem telem hn h2 hfits hbnd _ ih =>
    cases h' with
    | @cdd neg' level' r' elem' telem' hn' _ hfits' hbnd' hs =>
      have hlen : elem.length = telem.length := by simpa using congrArg List.length hbnd
      have hlen' : elem'.length = telem.length := by simpa using congrArg List.length hbnd'
      have helem : elem = elem' := by
        apply List.ext_getElem (hlen.trans hlen'.symm)
        intro m hm hm'
        have he : elem[m]? = some elem[m] := List.getElem?_eq_getElem hm
        have he' : elem'[m]? = some elem'[m] := List.getElem?_eq_getElem hm'
        have hp : telem[m]? = some telem[m] := List.getElem?_eq_getElem (by omega)
        have hchild := ih m _ _ he hp (hs m _ _ he' hp)
        have hpads := hpad _ _ (hfits _ (List.getElem_mem hm)).2 (hfits' _ (List.getElem_mem hm')).2
        have hsame := congrArg (fun l ↦ l[m]?) (hbnd.trans hbnd'.symm)
        simp only [List.getElem?_map, he, he', Option.map_some, Option.some.injEq] at hsame
        have hbnds := ofCode_injective hsame
        cases hcase : elem[m]
        cases hcase' : elem'[m]
        simp_all
      subst helem
      rw [hstored _ _ _ _ _ hn hn']

/-! ### In the kernel -/

/-- The terminals are at even addresses, all different, and not in a chunk. -/
structure Terminals.Outside (E : Env) (T : Terminals) : Prop where
  nodup : T.nodes.Nodup
  even : ∀ a ∈ T.nodes, a % 2 = 0
  pos : ∀ a ∈ T.nodes, 0 < a
  chunk : ∀ a ∈ T.nodes, ∀ m, cddNode2chunk a ≠ E.os m

/-- A node with this key is in the subtable. -/
def Kernel.Record (k : Kernel) (i level : ℕ) (a : ℤ) (key : List ℤ) : Prop :=
  k.Holds i level a ∧ k.heap.key a = key

end

section

variable {E : Env} {T : Terminals} {k : Kernel} {n i j level level' : ℕ} {a b : ℤ} {key : List ℤ}

/-- A node in a subtable is in a chunk of its manager. -/
theorem Kernel.Ok.slot (hok : k.Ok E n) (ha : k.Holds i level a) :
    ∃ man, k.managers i = some man ∧ IsSlot (nodeBytes i) man.nodes a := by
  obtain ⟨man, tbl, hman, htbl, hstored⟩ := ha
  obtain ⟨F, chain, -, hs⟩ := hok.manager i man hman
  obtain ⟨m, hm, hmem⟩ := (hs.stored_iff htbl).mp hstored
  exact ⟨man, hman, (hs.slot level tbl htbl m hm a hmem).1⟩

theorem Kernel.Ok.manager_unique (hok : k.Ok E n) (ha : k.Holds i level a)
    (ha' : k.Holds j level' a) : i = j := by
  obtain ⟨man, hman, hslot⟩ := hok.slot ha
  obtain ⟨man', hman', hslot'⟩ := hok.slot ha'
  by_contra hne
  exact hok.apart i j man man' hman hman' hne _ hslot.1 hslot'.1

/-- The level of a node is the field. -/
theorem Kernel.Ok.level_eq (hok : k.Ok E n) (ha : k.Holds i level a) : k.heap.level a = level := by
  obtain ⟨man, tbl, hman, htbl, hstored⟩ := ha
  obtain ⟨F, chain, -, hs⟩ := hok.manager i man hman
  obtain ⟨m, hm, hmem⟩ := (hs.stored_iff htbl).mp hstored
  exact (hs.table level tbl htbl).level m hm a hmem

/-- A key is stored once in a subtable. -/
theorem Kernel.Ok.stored_once (hok : k.Ok E n) (ha : k.Record i level a key)
    (hb : k.Record i level b key) : a = b := by
  obtain ⟨⟨man, tbl, hman, htbl, hstored⟩, hkey⟩ := ha
  obtain ⟨⟨man', tbl', hman', htbl', hstored'⟩, hkey'⟩ := hb
  cases hman.symm.trans hman'
  cases htbl.symm.trans htbl'
  obtain ⟨F, chain, -, hs⟩ := hok.manager i man hman
  have ht := hs.table level tbl htbl
  obtain ⟨m, hm, hmem⟩ := (hs.stored_iff htbl).mp hstored
  obtain ⟨m', hm', hmem'⟩ := (hs.stored_iff htbl).mp hstored'
  have hbucket : m = m' := by
    rw [← ht.placed m hm a hmem, ← ht.placed m' hm' b hmem', hkey, hkey']
  subst hbucket
  exact Decreasing.inj (ht.decreasing m hm) hmem hmem' (hkey.trans hkey'.symm)

/-- The address of a node is an even number. -/
theorem even_of_isSlot {nodes : List ℤ} (ha : IsSlot (nodeBytes i) nodes a) : a % 2 = 0 := by
  obtain ⟨-, m, -, heq, -⟩ := ha
  have hbytes : ∃ w, nodeBytes i = 2 * w := by
    cases i with
    | zero => exact ⟨16, rfl⟩
    | succ i => exact ⟨8 + 8 * (i + 1), by rw [nodeBytes]; ring⟩
  obtain ⟨w, hw⟩ := hbytes
  have hstep : m * nodeBytes i = 2 * (m * w) := by
    rw [hw]
    ring
  rw [hstep] at heq
  unfold cddNode2chunk SIZEOF_CHUNK CHUNKSIZE at heq
  omega

theorem Kernel.Ok.addressed (hok : k.Ok E n) (hT : T.Outside E) : Addressed T k.Record where
  nodup := hT.nodup
  even_terminal := hT.even
  even i level a key ha := by
    obtain ⟨man, -, hslot⟩ := hok.slot ha.1
    exact even_of_isSlot hslot
  not_terminal i level a key ha hmem := by
    obtain ⟨man, hman, hslot⟩ := hok.slot ha.1
    obtain ⟨m, -, hm⟩ := hok.chunk i man hman _ hslot.1
    exact hT.chunk a hmem m hm
  unique i j level level' a key key' ha hb :=
    ⟨hok.manager_unique ha.1 hb.1, (hok.level_eq ha.1).symm.trans (hok.level_eq hb.1),
      ha.2.symm.trans hb.2⟩

end

end NodeTable

end UCDD

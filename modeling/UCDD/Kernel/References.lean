import Mathlib.Algebra.BigOperators.Group.Finset.Basic
import Mathlib.Algebra.Order.BigOperators.Group.Finset
import UCDD.Diagram.Bound
import UCDD.Lib.Loop

/-!
# Reference counts

The reference counts of `include/cdd/kernel.h:86–120` and the traversal of `kernel.c:435–466` that
releases a node. A node whose count falls to zero is dead: it stays in its table, and it gives
back the references to its children. The store is the graph of its nodes, which does not change
here; the counts and the counters of the managers are the state.
-/

namespace UCDD

open Loop

/-- A pointer: the node that `cdd_rglr` returns, and the last bit. -/
structure NodePtr where
  rglr : ℕ
  mask : Bool
deriving DecidableEq

/-- The fields of a node that depend on the type of its level. -/
inductive NodeBody where
  | terminal
  | bdd (low high : NodePtr)
  | cdd (elem : List (NodePtr × Raw))

/-- A stored node without its count. -/
structure StoredNode where
  man : ℕ
  level : ℕ
  body : NodeBody

/-- The stored nodes, and what is at their addresses. -/
structure NodeStore where
  nodes : Finset ℕ
  node : ℕ → StoredNode

/-- The counts of the nodes, `usedcnt` and `deadcnt` of the managers and `deadcnt` of their
subtables. -/
@[ext]
structure RefCounts where
  ref : ℕ → ℕ
  usedcnt : ℕ → ℤ
  deadcnt : ℕ → ℤ
  subDeadcnt : ℕ → ℕ → ℤ

/-- `MAXREF`. A count that has reached it does not change any more. -/
def MAXREF : ℕ := 0x3FF

/-- `cdd_ref`. -/
def cddRef (s : RefCounts) (node : ℕ) : RefCounts :=
  { s with
    ref := Function.update s.ref node (s.ref node + if s.ref node ≠ MAXREF then 1 else 0) }

/-- `cdd_deref`, of a node whose count is not zero. -/
def cddDeref (s : RefCounts) (node : ℕ) : RefCounts :=
  { s with
    ref := Function.update s.ref node (s.ref node - if s.ref node ≠ MAXREF then 1 else 0) }

namespace NodeStore

variable (G : NodeStore)

/-- Change the counters of the manager of `node` by one: `step` is 1 where the node is revived and
-1 where it dies. -/
def tally (s : RefCounts) (node : ℕ) (step : ℤ) : RefCounts :=
  { s with
    usedcnt := Function.update s.usedcnt (G.node node).man (s.usedcnt (G.node node).man + step)
    deadcnt := Function.update s.deadcnt (G.node node).man (s.deadcnt (G.node node).man - step)
    subDeadcnt := Function.update s.subDeadcnt (G.node node).man
      (Function.update (s.subDeadcnt (G.node node).man) (G.node node).level
        (s.subDeadcnt (G.node node).man (G.node node).level - step)) }

end NodeStore

/-- The children that the iterator of a CDD node returns, from the bound `low` on. -/
def itChildren : Raw → List (NodePtr × Raw) → List NodePtr
  | _, [] => []
  | low, (child, bnd) :: it => if low = INF then [] else child :: itChildren bnd it

/-- One round of the loop of `cdd_rec_deref`; the list is the stack, with its top first. -/
def cddRecDerefBody (G : NodeStore) : RefCounts × List NodePtr → Run (RefCounts × List NodePtr)
  | (_, []) => .failed
  | (s, p :: top) =>
    let node := p.rglr
    if s.ref node = 0 then .failed
    else
      let s := cddDeref s node
      if s.ref node = 0 then
        let s := G.tally s node (-1)
        match (G.node node).body with
        | .terminal => .done (s, top)
        | .bdd low high => .done (s, high :: low :: top)
        | .cdd elem => .done (s, (itChildren (-INF) elem).reverse ++ top)
      else .done (s, top)

/-- `cdd_rec_deref` with at most `fuel` rounds. -/
def cddRecDeref (G : NodeStore) (fuel : ℕ) (s : RefCounts) (node : NodePtr) :
    Run (RefCounts × List NodePtr) :=
  iterate (fun t ↦ !t.2.isEmpty) (cddRecDerefBody G) fuel (s, [node])

namespace NodeStore

variable (G : NodeStore)

/-- The children of a node, in the order in which the traversals see them. -/
def children (node : ℕ) : List ℕ :=
  match (G.node node).body with
  | .terminal => []
  | .bdd low high => [low.rglr, high.rglr]
  | .cdd elem => (itChildren (-INF) elem).map NodePtr.rglr

/-- The references to `node` that the nodes of `R` hold, each as often as it is in `R`. -/
def held (R : Multiset ℕ) (node : ℕ) : ℕ := (R.map fun m ↦ (G.children m).count node).sum

/-- The store with exact counts: the children are stored on later levels, and a count that is not
saturated is the number of references that the live nodes and others hold. -/
structure Exact (s : RefCounts) : Prop where
  closed : ∀ m ∈ G.nodes, ∀ c ∈ G.children m, c ∈ G.nodes
  level_lt : ∀ m ∈ G.nodes, ∀ c ∈ G.children m, (G.node m).level < (G.node c).level
  ref_le : ∀ c, s.ref c ≤ MAXREF
  counted : ∃ others : ℕ → ℕ, ∀ c ∈ G.nodes, s.ref c < MAXREF →
    s.ref c = others c + G.held (G.nodes.filter fun m ↦ 0 < s.ref m).val c

/-- The nodes that die with `n`: all references to each of the others are held by nodes that die. -/
structure Dying (s : RefCounts) (n : ℕ) (K : Finset ℕ) : Prop where
  subset : K ⊆ G.nodes
  mem_iff : ∀ c, c ∈ K ↔ c = n ∨ (0 < s.ref c ∧ s.ref c < MAXREF ∧ s.ref c = G.held K.val c)

/-- The counts and the counters after the nodes of `R` were revived, each as often as it is in
`R`. -/
def revived (s : RefCounts) (R : Multiset ℕ) : RefCounts where
  ref c := min (s.ref c + G.held R c) MAXREF
  usedcnt k := s.usedcnt k + R.countP fun m ↦ (G.node m).man = k
  deadcnt k := s.deadcnt k - R.countP fun m ↦ (G.node m).man = k
  subDeadcnt k l := s.subDeadcnt k l - R.countP fun m ↦ (G.node m).man = k ∧ (G.node m).level = l

end NodeStore

/-! ### One step -/

section

variable {s : RefCounts}

theorem cddRef_ref (h : ∀ c, s.ref c ≤ MAXREF) (node c : ℕ) :
    (cddRef s node).ref c = min (s.ref c + if node = c then 1 else 0) MAXREF := by
  have hc := h c
  show Function.update s.ref node _ c = _
  rw [Function.update_apply]
  by_cases heq : c = node
  · subst heq
    rw [if_pos rfl, if_pos rfl]
    split_ifs <;> omega
  · rw [if_neg heq, if_neg (Ne.symm heq)]
    omega

theorem cddRef_ref_le (h : ∀ c, s.ref c ≤ MAXREF) (node c : ℕ) :
    (cddRef s node).ref c ≤ MAXREF := by
  rw [cddRef_ref h]
  exact min_le_right _ _

theorem foldl_cddRef (h : ∀ c, s.ref c ≤ MAXREF) (cs : List ℕ) :
    cs.foldl cddRef s = { s with ref := fun c ↦ min (s.ref c + cs.count c) MAXREF } := by
  induction cs generalizing s with
  | nil =>
    ext c
    · exact (min_eq_left (h c)).symm
    all_goals rfl
  | cons d cs ih =>
    rw [List.foldl_cons, ih (cddRef_ref_le h d)]
    ext c
    · show min ((cddRef s d).ref c + cs.count c) MAXREF = min (s.ref c + (d :: cs).count c) MAXREF
      rw [cddRef_ref h, List.count_cons]
      simp only [beq_iff_eq]
      split_ifs <;> omega
    all_goals rfl

theorem cddDeref_ref (node c : ℕ) :
    (cddDeref s node).ref c =
      if c = node ∧ s.ref c ≠ MAXREF then s.ref c - 1 else s.ref c := by
  show Function.update s.ref node _ c = _
  rw [Function.update_apply]
  by_cases heq : c = node
  · subst heq
    rw [if_pos rfl]
    by_cases hm : s.ref c = MAXREF <;> simp [hm]
  · rw [if_neg heq, if_neg fun h ↦ heq h.1]

end

namespace NodeStore

variable {G : NodeStore} {s : RefCounts} {R R' : Multiset ℕ} {m c : ℕ}

@[simp] theorem held_zero : G.held 0 c = 0 := rfl

@[simp] theorem held_cons : G.held (m ::ₘ R) c = (G.children m).count c + G.held R c := by
  rw [held, Multiset.map_cons, Multiset.sum_cons, held]

theorem held_mono (h : R ≤ R') : G.held R c ≤ G.held R' c := by
  obtain ⟨E, rfl⟩ := Multiset.le_iff_exists_add.mp h
  rw [held, held, Multiset.map_add, Multiset.sum_add]
  exact Nat.le_add_right _ _

theorem held_pos : 0 < G.held R c ↔ ∃ m ∈ R, c ∈ G.children m := by
  rw [held, Nat.pos_iff_ne_zero, ne_eq, Multiset.sum_eq_zero_iff]
  simp only [Multiset.mem_map, forall_exists_index, and_imp, forall_apply_eq_imp_iff₂,
    List.count_eq_zero]
  push Not
  rfl

theorem held_eq_zero (h : ∀ m ∈ R, c ∉ G.children m) : G.held R c = 0 := by
  by_contra hne
  obtain ⟨m, hm, hc⟩ := held_pos.mp (Nat.pos_of_ne_zero hne)
  exact h m hm hc

@[simp] theorem tally_ref (step : ℤ) : (G.tally s m step).ref = s.ref := rfl

theorem tally_usedcnt (step : ℤ) (k : ℕ) :
    (G.tally s m step).usedcnt k = s.usedcnt k + if (G.node m).man = k then step else 0 := by
  show Function.update s.usedcnt _ _ k = _
  rw [Function.update_apply]
  by_cases h : k = (G.node m).man
  · subst h
    simp
  · simp [h, Ne.symm h]

theorem tally_deadcnt (step : ℤ) (k : ℕ) :
    (G.tally s m step).deadcnt k = s.deadcnt k - if (G.node m).man = k then step else 0 := by
  show Function.update s.deadcnt _ _ k = _
  rw [Function.update_apply]
  by_cases h : k = (G.node m).man
  · subst h
    simp
  · simp [h, Ne.symm h]

theorem tally_subDeadcnt (step : ℤ) (k l : ℕ) :
    (G.tally s m step).subDeadcnt k l =
      s.subDeadcnt k l - if (G.node m).man = k ∧ (G.node m).level = l then step else 0 := by
  show Function.update s.subDeadcnt _ _ k l = _
  rw [Function.update_apply]
  by_cases h : k = (G.node m).man
  · subst h
    rw [if_pos rfl, Function.update_apply]
    by_cases hl : l = (G.node m).level
    · subst hl
      simp
    · simp [hl, Ne.symm hl]
  · simp [h, Ne.symm h]

theorem revived_usedcnt (k : ℕ) : (G.revived s R).usedcnt k =
    s.usedcnt k + R.countP fun m ↦ (G.node m).man = k := rfl

theorem revived_deadcnt (k : ℕ) : (G.revived s R).deadcnt k =
    s.deadcnt k - R.countP fun m ↦ (G.node m).man = k := rfl

theorem revived_subDeadcnt (k l : ℕ) : (G.revived s R).subDeadcnt k l =
    s.subDeadcnt k l - R.countP fun m ↦ (G.node m).man = k ∧ (G.node m).level = l := rfl

theorem revived_ref (c : ℕ) : (G.revived s R).ref c = min (s.ref c + G.held R c) MAXREF := rfl

theorem revived_zero (h : ∀ c, s.ref c ≤ MAXREF) : G.revived s 0 = s := by
  ext k
  · exact min_eq_left (h k)
  · exact add_zero _
  · exact sub_zero _
  · exact sub_zero _

/-- One more node is revived. -/
theorem revived_cons :
    (G.children m).foldl cddRef (G.tally (G.revived s R) m 1) = G.revived s (m ::ₘ R) := by
  rw [foldl_cddRef fun c ↦ min_le_right _ _]
  ext k l
  · show min (min (s.ref k + G.held R k) MAXREF + (G.children m).count k) MAXREF =
      min (s.ref k + G.held (m ::ₘ R) k) MAXREF
    rw [held_cons]
    omega
  · show (G.tally (G.revived s R) m 1).usedcnt k = (G.revived s (m ::ₘ R)).usedcnt k
    rw [tally_usedcnt, revived_usedcnt, revived_usedcnt, Multiset.countP_cons]
    split_ifs <;> omega
  · show (G.tally (G.revived s R) m 1).deadcnt k = (G.revived s (m ::ₘ R)).deadcnt k
    rw [tally_deadcnt, revived_deadcnt, revived_deadcnt, Multiset.countP_cons]
    split_ifs <;> omega
  · show (G.tally (G.revived s R) m 1).subDeadcnt k l = (G.revived s (m ::ₘ R)).subDeadcnt k l
    rw [tally_subDeadcnt, revived_subDeadcnt, revived_subDeadcnt, Multiset.countP_cons]
    split_ifs <;> omega

/-! ### The nodes that die -/

/-- The state of `cdd_rec_deref` on `n` when the nodes of `K` have died and the references on the
stack are still to be released. -/
structure Released (G : NodeStore) (s : RefCounts) (n : ℕ) (K : Finset ℕ) (t : RefCounts)
    (T : List ℕ) : Prop where
  dead : ∀ c, c ∈ K ↔ 0 < s.ref c ∧ t.ref c = 0
  ref_le : ∀ c, t.ref c ≤ s.ref c
  counted : ∀ c, s.ref c < MAXREF →
    t.ref c + G.held K.val c + (if c = n then 1 else 0) = s.ref c + T.count c
  saturated : ∀ c, s.ref c = MAXREF → t.ref c = MAXREF
  below : ∀ c, c ∈ K ∨ c ∈ T →
    c ∈ G.nodes ∧ (c = n ∨ (G.node n).level < (G.node c).level)
  usedcnt : ∀ k, (G.revived t K.val).usedcnt k = s.usedcnt k
  deadcnt : ∀ k, (G.revived t K.val).deadcnt k = s.deadcnt k
  subDeadcnt : ∀ k l, (G.revived t K.val).subDeadcnt k l = s.subDeadcnt k l

/-- What the loop has left to do: the stack, and the references that live nodes hold. -/
def pending (G : NodeStore) (t : RefCounts × List NodePtr) : ℕ :=
  t.2.length + ∑ c ∈ G.nodes with 0 < t.1.ref c, (G.children c).length

section

variable {n : ℕ} {K : Finset ℕ} {t : RefCounts} {T : List ℕ}

/-- No node that dies leads back to the first one. -/
theorem Released.held_self (hs : G.Exact s) (h : Released G s n K t T) : G.held K.val n = 0 := by
  apply held_eq_zero
  intro m hm hn
  obtain ⟨hnode, hlevel⟩ := h.below m (Or.inl hm)
  have hlt := hs.level_lt m hnode n hn
  cases hlevel with
  | inl heq =>
    rw [heq] at hlt
    exact lt_irrefl _ hlt
  | inr hgt => exact lt_asymm hlt hgt

/-- The references that the dead nodes gave back were counted. -/
theorem Released.held_le (hs : G.Exact s) (h1 : s.ref n = 1) (h : Released G s n K t T) {c : ℕ}
    (hc : c ∈ G.nodes) (hsat : s.ref c < MAXREF) :
    G.held K.val c + (if c = n then 1 else 0) ≤ s.ref c := by
  by_cases heq : c = n
  · subst heq
    rw [h.held_self hs, if_pos rfl, h1]
  · rw [if_neg heq]
    obtain ⟨others, hcounted⟩ := hs.counted
    have hsub : K ⊆ G.nodes.filter fun m ↦ 0 < s.ref m := by
      intro m hm
      exact Finset.mem_filter.mpr ⟨(h.below m (Or.inl hm)).1, ((h.dead m).mp hm).1⟩
    have hle : G.held K.val c ≤ _ := held_mono (Finset.val_le_iff.mpr hsub)
    have := hcounted c hc hsat
    omega

/-- `cdd_rec_deref` finds no node whose count is zero. -/
theorem Released.ref_pos (hs : G.Exact s) (h1 : s.ref n = 1) (h : Released G s n K t (m :: T)) :
    0 < t.ref m := by
  have hm := (h.below m (Or.inr List.mem_cons_self)).1
  by_cases hsat : s.ref m = MAXREF
  · rw [h.saturated m hsat]
    decide
  · have hlt : s.ref m < MAXREF := lt_of_le_of_ne (hs.ref_le m) hsat
    have hcounted := h.counted m hlt
    have hle := h.held_le hs h1 hm hlt
    rw [List.count_cons_self] at hcounted
    omega

/-- The children of a node that dies are pushed. -/
theorem cddRecDerefBody_dead {p : NodePtr} (top : List NodePtr) (hpos : t.ref p.rglr ≠ 0)
    (hzero : (cddDeref t p.rglr).ref p.rglr = 0) :
    ∃ P : List NodePtr, cddRecDerefBody G (t, p :: top) =
        .done (G.tally (cddDeref t p.rglr) p.rglr (-1), P ++ top) ∧
      P.map NodePtr.rglr = (G.children p.rglr).reverse := by
  unfold cddRecDerefBody children
  simp only [if_neg hpos, if_pos hzero]
  cases (G.node p.rglr).body with
  | terminal => exact ⟨[], rfl, rfl⟩
  | bdd low high => exact ⟨[high, low], rfl, rfl⟩
  | cdd elem => exact ⟨(itChildren (-INF) elem).reverse, rfl, List.map_reverse⟩

theorem cddRecDerefBody_live {p : NodePtr} {top : List NodePtr} (hpos : t.ref p.rglr ≠ 0)
    (hne : (cddDeref t p.rglr).ref p.rglr ≠ 0) :
    cddRecDerefBody G (t, p :: top) = .done (cddDeref t p.rglr, top) := by
  unfold cddRecDerefBody
  simp only [if_neg hpos, if_neg hne]

theorem Released.start (hs : G.Exact s) (hn : n ∈ G.nodes) : Released G s n ∅ s [n] where
  dead c := by
    constructor
    · intro hc
      cases hc
    · intro hc
      omega
  ref_le c := le_refl _
  counted c _ := by
    show s.ref c + 0 + _ = _
    by_cases h : c = n
    · simp [h]
    · simp [h, Ne.symm h]
  saturated c h := h
  below c hc := by
    cases hc with
    | inl h => cases h
    | inr h =>
      rw [List.mem_singleton.mp h]
      exact ⟨hn, Or.inl rfl⟩
  usedcnt k := congrFun (congrArg RefCounts.usedcnt (revived_zero hs.ref_le)) k
  deadcnt k := congrFun (congrArg RefCounts.deadcnt (revived_zero hs.ref_le)) k
  subDeadcnt k l := congrFun₂ (congrArg RefCounts.subDeadcnt (revived_zero hs.ref_le)) k l

/-- A reference is released, and others are left. -/
theorem Released.survive (h : Released G s n K t (m :: T)) (hpos : 0 < t.ref m)
    (hne : (cddDeref t m).ref m ≠ 0) : Released G s n K (cddDeref t m) T where
  dead c := by
    rw [h.dead, cddDeref_ref]
    by_cases hc : c = m
    · subst hc
      rw [cddDeref_ref] at hne
      omega
    · rw [if_neg fun h ↦ hc h.1]
  ref_le c := by
    have := h.ref_le c
    rw [cddDeref_ref]
    split_ifs <;> omega
  counted c hc := by
    have hcounted := h.counted c hc
    have hle := h.ref_le c
    rw [List.count_cons] at hcounted
    rw [cddDeref_ref]
    by_cases heq : c = m
    · subst heq
      rw [if_pos ⟨rfl, by omega⟩]
      simp only [beq_self_eq_true, if_true] at hcounted
      omega
    · rw [if_neg fun h ↦ heq h.1]
      simp only [beq_iff_eq, if_neg (Ne.symm heq)] at hcounted
      omega
  saturated c hc := by
    rw [cddDeref_ref, h.saturated c hc, if_neg fun h ↦ h.2 rfl]
  below c hc := h.below c (hc.imp_right (List.mem_cons_of_mem m))
  usedcnt := h.usedcnt
  deadcnt := h.deadcnt
  subDeadcnt := h.subDeadcnt

/-- The last reference is released. -/
theorem Released.die (hs : G.Exact s) (h : Released G s n K t (m :: T)) (hpos : 0 < t.ref m)
    (hzero : (cddDeref t m).ref m = 0) :
    m ∉ K ∧ ∀ hm : m ∉ K, Released G s n (K.cons m hm) (G.tally (cddDeref t m) m (-1))
      ((G.children m).reverse ++ T) := by
  obtain ⟨hnode, hlevel⟩ := h.below m (Or.inr List.mem_cons_self)
  have hmK : m ∉ K := fun hm ↦ hpos.ne' ((h.dead m).mp hm).2
  refine ⟨hmK, fun hm ↦ ?_⟩
  constructor
  · intro c
    rw [Finset.mem_cons, h.dead, tally_ref]
    by_cases hc : c = m
    · subst hc
      have := h.ref_le c
      simp only [true_or, hzero, and_true, true_iff]
      omega
    · rw [cddDeref_ref, if_neg fun h ↦ hc h.1]
      simp [hc]
  · intro c
    have := h.ref_le c
    rw [tally_ref, cddDeref_ref]
    split_ifs <;> omega
  · intro c hc
    have hcounted := h.counted c hc
    have hle := h.ref_le c
    rw [List.count_cons] at hcounted
    rw [tally_ref, cddDeref_ref, Finset.cons_val, held_cons, List.count_append,
      List.count_reverse]
    by_cases heq : c = m
    · subst heq
      rw [if_pos ⟨rfl, by omega⟩]
      simp only [beq_self_eq_true, if_true] at hcounted
      omega
    · rw [if_neg fun h ↦ heq h.1]
      simp only [beq_iff_eq, if_neg (Ne.symm heq)] at hcounted
      omega
  · intro c hc
    rw [tally_ref, cddDeref_ref, h.saturated c hc, if_neg fun h ↦ h.2 rfl]
  · intro c hc
    rw [Finset.mem_cons, List.mem_append, List.mem_reverse] at hc
    obtain (heq | hK) | (hchild | hT) := hc
    · rw [heq]
      exact ⟨hnode, hlevel⟩
    · exact h.below c (Or.inl hK)
    · have hlt := hs.level_lt m hnode c hchild
      refine ⟨hs.closed m hnode c hchild, Or.inr ?_⟩
      cases hlevel with
      | inl heq => rwa [heq] at hlt
      | inr hgt => exact lt_trans hgt hlt
    · exact h.below c (Or.inr (List.mem_cons_of_mem m hT))
  · intro k
    rw [← h.usedcnt, revived_usedcnt, revived_usedcnt, tally_usedcnt, Finset.cons_val,
      Multiset.countP_cons]
    show t.usedcnt k + _ + _ = t.usedcnt k + _
    split_ifs <;> omega
  · intro k
    rw [← h.deadcnt, revived_deadcnt, revived_deadcnt, tally_deadcnt, Finset.cons_val,
      Multiset.countP_cons]
    show t.deadcnt k - _ - _ = t.deadcnt k - _
    split_ifs <;> omega
  · intro k l
    rw [← h.subDeadcnt, revived_subDeadcnt, revived_subDeadcnt, tally_subDeadcnt, Finset.cons_val,
      Multiset.countP_cons]
    show t.subDeadcnt k l - _ - _ = t.subDeadcnt k l - _
    split_ifs <;> omega

/-- One round, and what it leaves to do. -/
theorem Released.step (hs : G.Exact s) (h1 : s.ref n = 1) {p : NodePtr} {top : List NodePtr}
    (h : Released G s n K t (p.rglr :: top.map NodePtr.rglr)) :
    ∃ t', cddRecDerefBody G (t, p :: top) = .done t' ∧
      (∃ K', Released G s n K' t'.1 (t'.2.map NodePtr.rglr)) ∧
      pending G t' < pending G (t, p :: top) := by
  have hpos := h.ref_pos hs h1
  have hnode := (h.below p.rglr (Or.inr List.mem_cons_self)).1
  by_cases hzero : (cddDeref t p.rglr).ref p.rglr = 0
  · obtain ⟨P, hbody, hP⟩ := cddRecDerefBody_dead (G := G) top hpos.ne' hzero
    obtain ⟨hm, hdie⟩ := h.die hs hpos hzero
    refine ⟨_, hbody, ⟨K.cons p.rglr hm, ?_⟩, ?_⟩
    · show Released G s n _ _ ((P ++ top).map NodePtr.rglr)
      rw [List.map_append, hP]
      exact hdie hm
    · have hlen : P.length = (G.children p.rglr).length := by
        rw [← List.length_map (f := NodePtr.rglr), hP, List.length_reverse]
      have hlive : G.nodes.filter (fun c ↦ 0 < (cddDeref t p.rglr).ref c) =
          (G.nodes.filter fun c ↦ 0 < t.ref c).erase p.rglr := by
        ext c
        rw [Finset.mem_erase, Finset.mem_filter, Finset.mem_filter]
        by_cases hc : c = p.rglr
        · subst hc
          simp [hzero]
        · rw [cddDeref_ref, if_neg fun h ↦ hc h.1]
          simp [hc]
      have hmem : p.rglr ∈ G.nodes.filter fun c ↦ 0 < t.ref c := Finset.mem_filter.mpr ⟨hnode, hpos⟩
      have hsum : (G.children p.rglr).length +
          ∑ c ∈ G.nodes with 0 < (cddDeref t p.rglr).ref c, (G.children c).length =
            ∑ c ∈ G.nodes with 0 < t.ref c, (G.children c).length := by
        rw [hlive]
        exact Finset.add_sum_erase _ (fun c ↦ (G.children c).length) hmem
      show (P ++ top).length +
          ∑ c ∈ G.nodes with 0 < (cddDeref t p.rglr).ref c, (G.children c).length <
        (p :: top).length + ∑ c ∈ G.nodes with 0 < t.ref c, (G.children c).length
      rw [List.length_append, List.length_cons]
      omega
  · refine ⟨_, cddRecDerefBody_live hpos.ne' hzero, ⟨K, h.survive hpos hzero⟩, ?_⟩
    have hlive : G.nodes.filter (fun c ↦ 0 < (cddDeref t p.rglr).ref c) =
        G.nodes.filter fun c ↦ 0 < t.ref c := by
      apply Finset.filter_congr
      intro c _
      by_cases hc : c = p.rglr
      · subst hc
        omega
      · rw [cddDeref_ref, if_neg fun h ↦ hc h.1]
    show top.length + ∑ c ∈ G.nodes with 0 < (cddDeref t p.rglr).ref c, (G.children c).length <
      (p :: top).length + ∑ c ∈ G.nodes with 0 < t.ref c, (G.children c).length
    rw [hlive, List.length_cons]
    omega

/-- `cdd_rec_deref` ends, and all references of the nodes that died are released. -/
theorem cddRecDeref_released (hs : G.Exact s) {p : NodePtr} (hn : p.rglr ∈ G.nodes)
    (h1 : s.ref p.rglr = 1) :
    ∃ fuel t K, cddRecDeref G fuel s p = .done (t, []) ∧ Released G s p.rglr K t [] := by
  have hstep : ∀ t : RefCounts × List NodePtr,
      (∃ K, Released G s p.rglr K t.1 (t.2.map NodePtr.rglr)) → (!t.2.isEmpty) = true →
      ∃ t', cddRecDerefBody G t = .done t' ∧
        (∃ K, Released G s p.rglr K t'.1 (t'.2.map NodePtr.rglr)) ∧ pending G t' < pending G t := by
    intro t h hg
    obtain ⟨t, top⟩ := t
    obtain ⟨K, h⟩ := h
    cases top with
    | nil => cases hg
    | cons q top => exact h.step hs h1
  have hstart : ∃ K, Released G s p.rglr K s ([p].map NodePtr.rglr) := ⟨∅, Released.start hs hn⟩
  obtain ⟨fuel, ⟨t, top⟩, hrun, ⟨K, hrel⟩, hguard⟩ :=
    exists_iterate_done_inv _ (pending G) hstep (s := (s, [p])) hstart
  cases top with
  | nil => exact ⟨fuel, t, K, hrun, hrel⟩
  | cons q top => cases hguard

/-- The nodes that died are those to which no other references are left. -/
theorem Released.dying (hs : G.Exact s) (hn : n ∈ G.nodes) (h1 : s.ref n = 1)
    (h : Released G s n K t []) : G.Dying s n K where
  subset := fun c hc ↦ (h.below c (Or.inl hc)).1
  mem_iff c := by
    have hself := h.held_self hs
    rw [h.dead]
    by_cases heq : c = n
    · subst heq
      have hcounted := h.counted c (by rw [h1]; decide)
      simp only [hself, if_true, List.count_nil] at hcounted
      simp only [true_or, iff_true]
      omega
    · have hle := hs.ref_le c
      constructor
      · intro hc
        have hsat : s.ref c < MAXREF := by
          apply lt_of_le_of_ne hle
          intro hmax
          rw [h.saturated c hmax] at hc
          exact absurd hc.2 (by decide)
        have hcounted := h.counted c hsat
        rw [if_neg heq, List.count_nil, hc.2] at hcounted
        exact Or.inr ⟨hc.1, hsat, by omega⟩
      · intro hc
        obtain ⟨hpos, hsat, hheld⟩ := hc.resolve_left heq
        have hcounted := h.counted c hsat
        rw [if_neg heq, List.count_nil] at hcounted
        exact ⟨hpos, by omega⟩

end

end NodeStore

end UCDD

import Mathlib.Algebra.BigOperators.Group.Finset.Basic
import Mathlib.Algebra.Order.BigOperators.Group.Finset
import Mathlib.Algebra.BigOperators.Group.Finset.Piecewise
import Mathlib.Data.Multiset.Count
import Mathlib.Data.Multiset.AddSub

/-!
# Reference counts that saturate

Nodes with counts, some of them permanent. A count may be too high but not too low: it is at
least the number of references from outside and from the nodes that are accounted for, until it
saturates. So whatever a reference from outside leads to has a count, and is not collected.
-/

namespace RefCount

variable {α : Type} [DecidableEq α]

/-- One more reference, unless the count is saturated. -/
def inc (max : ℕ) (ref : α → ℕ) (c : α) : α → ℕ :=
  Function.update ref c (ref c + if ref c ≠ max then 1 else 0)

/-- One reference less, unless the count is saturated. -/
def dec (max : ℕ) (ref : α → ℕ) (c : α) : α → ℕ :=
  Function.update ref c (ref c - if ref c ≠ max then 1 else 0)

/-- The references to `c` from the nodes of `N`. -/
def inner (children : α → List α) (N : Finset α) (c : α) : ℕ := ∑ m ∈ N, (children m).count c

/-- The counts cover the references `H` from outside and those from the nodes of `N`. All nodes
with a count are accounted for. -/
structure Counted (max : ℕ) (perm stored : α → Prop) (children : α → List α) (ref : α → ℕ)
    (N : Finset α) (H : Multiset α) : Prop where
  pos : 0 < max
  perm_ref : ∀ c, perm c → ref c = max
  not_stored : ∀ c, perm c → ¬ stored c
  sound : ∀ a ∈ N, stored a
  live : ∀ a, stored a → ref a ≠ 0 → a ∈ N
  count : ∀ c, ref c = max ∨ H.count c + inner children N c ≤ ref c
  outer : ∀ c ∈ H, perm c ∨ c ∈ N
  closed : ∀ m ∈ N, ∀ c ∈ children m, perm c ∨ c ∈ N

section

variable {max : ℕ} {perm stored stored' : α → Prop} {children children' : α → List α}
  {ref : α → ℕ} {N : Finset α} {H H' : Multiset α} {a c : α}

/-! ### The operations -/

@[simp] theorem inc_other (h : a ≠ c) : inc max ref c a = ref a := Function.update_of_ne h _ _

@[simp] theorem dec_other (h : a ≠ c) : dec max ref c a = ref a := Function.update_of_ne h _ _

theorem inc_self : inc max ref c c = ref c + if ref c ≠ max then 1 else 0 :=
  Function.update_self _ _ _

theorem dec_self : dec max ref c c = ref c - if ref c ≠ max then 1 else 0 :=
  Function.update_self _ _ _

theorem le_inc (ref : α → ℕ) (c a : α) : ref a ≤ inc max ref c a := by
  by_cases h : a = c
  · rw [h, inc_self]
    exact Nat.le_add_right _ _
  · rw [inc_other h]

theorem inc_ne_zero (hpos : 0 < max) : inc max ref c c ≠ 0 := by
  rw [inc_self]
  split_ifs <;> omega

theorem le_foldl_inc (ref : α → ℕ) (cs : List α) (a : α) :
    ref a ≤ cs.foldl (inc max) ref a := by
  induction cs generalizing ref with
  | nil => exact le_rfl
  | cons c cs ih => exact le_trans (le_inc ref c a) (ih _)

theorem foldl_inc_ne_zero (hpos : 0 < max) {cs : List α} (hc : c ∈ cs) (ref : α → ℕ) :
    cs.foldl (inc max) ref c ≠ 0 := by
  induction cs generalizing ref with
  | nil => cases hc
  | cons d cs ih =>
    rw [List.foldl_cons]
    cases List.mem_cons.mp hc with
    | inl heq =>
      subst heq
      have hle : inc max ref c c ≤ cs.foldl (inc max) (inc max ref c) c := le_foldl_inc _ _ _
      have hne : inc max ref c c ≠ 0 := inc_ne_zero hpos
      omega
    | inr hc => exact ih hc _

theorem inner_erase (ha : a ∈ N) :
    inner children N c = (children a).count c + inner children (N.erase a) c :=
  (Finset.add_sum_erase N _ ha).symm

theorem inner_insert (ha : a ∉ N) :
    inner children (insert a N) c = (children a).count c + inner children N c :=
  Finset.sum_insert ha

theorem inner_mono {N' : Finset α} (h : N' ⊆ N) : inner children N' c ≤ inner children N c :=
  Finset.sum_le_sum_of_subset h

theorem inner_pos (ha : a ∈ N) (hc : c ∈ children a) : 0 < inner children N c := by
  rw [inner_erase ha]
  exact Nat.add_pos_left (List.count_pos_iff.mpr hc) _

theorem inner_congr (h : ∀ m ∈ N, children' m = children m) :
    inner children' N c = inner children N c :=
  Finset.sum_congr rfl fun m hm ↦ by rw [h m hm]

namespace Counted

/-! ### What has a count -/

theorem ref_ne_zero (h : Counted max perm stored children ref N H) (hc : c ∈ H) : ref c ≠ 0 := by
  have hpos := h.pos
  have hcount := Multiset.count_pos.mpr hc
  have hle := h.count c
  omega

theorem child_ne_zero (h : Counted max perm stored children ref N H) (ha : a ∈ N)
    (hc : c ∈ children a) : ref c ≠ 0 := by
  have hpos := h.pos
  have hinner := inner_pos ha hc
  have hle := h.count c
  omega

/-! ### Rules -/

/-- References from outside may be forgotten: the counts are too high then. -/
theorem forget (h : Counted max perm stored children ref N H) (hle : H' ≤ H) :
    Counted max perm stored children ref N H' where
  pos := h.pos
  perm_ref := h.perm_ref
  not_stored := h.not_stored
  sound := h.sound
  live := h.live
  count c := by
    have hcount := Multiset.count_le_of_le c hle
    have hold := h.count c
    omega
  outer c hc := h.outer c (Multiset.mem_of_le hle hc)
  closed := h.closed

/-- A reference is taken. -/
theorem take (h : Counted max perm stored children ref N H) (hc : perm c ∨ c ∈ N) :
    Counted max perm stored children (inc max ref c) N (c ::ₘ H) where
  pos := h.pos
  perm_ref d hd := by
    have hmax := h.perm_ref d hd
    by_cases heq : d = c
    · subst heq
      rw [inc_self, hmax]
      simp
    · rw [inc_other heq, hmax]
  not_stored := h.not_stored
  sound := h.sound
  live d hd hne := by
    by_cases heq : d = c
    · subst heq
      exact hc.resolve_left fun hp ↦ h.not_stored _ hp hd
    · rw [inc_other heq] at hne
      exact h.live d hd hne
  count d := by
    have hold := h.count d
    by_cases heq : d = c
    · subst heq
      rw [inc_self, Multiset.count_cons_self]
      split_ifs <;> omega
    · rwa [inc_other heq, Multiset.count_cons_of_ne heq]
  outer d hd := by
    cases Multiset.mem_cons.mp hd with
    | inl heq => exact heq ▸ hc
    | inr hmem => exact h.outer d hmem
  closed := h.closed

theorem take_all {cs : List α} (h : Counted max perm stored children ref N H)
    (hcs : ∀ c ∈ cs, perm c ∨ c ∈ N) :
    Counted max perm stored children (cs.foldl (inc max) ref) N (cs + H) := by
  induction cs generalizing ref H with
  | nil => simpa using h
  | cons c cs ih =>
    obtain ⟨hc, hcs⟩ := List.forall_mem_cons.mp hcs
    have hrest := ih (h.take hc) hcs
    have hsum : ((c :: cs : List α) : Multiset α) + H = cs + c ::ₘ H := by
      rw [← Multiset.cons_coe, Multiset.cons_add, Multiset.add_cons]
    rw [List.foldl_cons, hsum]
    exact hrest

/-- A reference is given back. -/
theorem release (h : Counted max perm stored children ref N (c ::ₘ H)) :
    Counted max perm stored children (dec max ref c) N H where
  pos := h.pos
  perm_ref d hd := by
    have hmax := h.perm_ref d hd
    by_cases heq : d = c
    · subst heq
      rw [dec_self, hmax]
      simp
    · rw [dec_other heq, hmax]
  not_stored := h.not_stored
  sound := h.sound
  live d hd hne := by
    apply h.live d hd
    by_cases heq : d = c
    · subst heq
      rw [dec_self] at hne
      omega
    · rwa [dec_other heq] at hne
  count d := by
    have hold := h.count d
    by_cases heq : d = c
    · subst heq
      rw [Multiset.count_cons_self] at hold
      rw [dec_self]
      split_ifs <;> omega
    · rw [Multiset.count_cons_of_ne heq] at hold
      rwa [dec_other heq]
  outer d hd := h.outer d (Multiset.mem_cons_of_mem hd)
  closed := h.closed

/-- A node without a count is not accounted for any more, and its references are free. -/
theorem discount (h : Counted max perm stored children ref N H) (ha : a ∈ N) (hzero : ref a = 0) :
    Counted max perm stored children ref (N.erase a) (children a + H) where
  pos := h.pos
  perm_ref := h.perm_ref
  not_stored := h.not_stored
  sound b hb := h.sound b (Finset.mem_of_mem_erase hb)
  live b hb hne := Finset.mem_erase.mpr ⟨fun heq ↦ hne (heq ▸ hzero), h.live b hb hne⟩
  count d := by
    have hold := h.count d
    rw [inner_erase ha] at hold
    rw [Multiset.count_add, Multiset.coe_count]
    omega
  outer d hd := by
    have hmem : perm d ∨ d ∈ N := by
      cases Multiset.mem_add.mp hd with
      | inl hd => exact h.closed a ha d (Multiset.mem_coe.mp hd)
      | inr hd => exact h.outer d hd
    refine hmem.imp_right fun hN ↦ Finset.mem_erase.mpr ⟨fun heq ↦ ?_, hN⟩
    subst heq
    cases Multiset.mem_add.mp hd with
    | inl hd => exact h.child_ne_zero ha (Multiset.mem_coe.mp hd) hzero
    | inr hd => exact h.ref_ne_zero hd hzero
  closed m hm d hd := by
    have hmN := Finset.mem_of_mem_erase hm
    refine (h.closed m hmN d hd).imp_right fun hN ↦ Finset.mem_erase.mpr ⟨fun heq ↦ ?_, hN⟩
    subst heq
    exact h.child_ne_zero hmN hd hzero

/-- A node is accounted for when it holds references to all its children. -/
theorem account (h : Counted max perm stored children ref N (children a + H)) (ha : stored a) :
    Counted max perm stored children ref (insert a N) H := by
  have hforget := h.forget (Multiset.le_add_left H (children a))
  by_cases hN : a ∈ N
  · rwa [Finset.insert_eq_of_mem hN]
  · refine ⟨h.pos, h.perm_ref, h.not_stored, ?_, ?_, ?_, ?_, ?_⟩
    · intro b hb
      cases Finset.mem_insert.mp hb with
      | inl heq => exact heq ▸ ha
      | inr hb => exact h.sound b hb
    · exact fun b hb hne ↦ Finset.mem_insert_of_mem (h.live b hb hne)
    · intro d
      have hold := h.count d
      rw [Multiset.count_add, Multiset.coe_count] at hold
      rw [inner_insert hN]
      omega
    · exact fun d hd ↦ (hforget.outer d hd).imp_right Finset.mem_insert_of_mem
    · intro m hm d hd
      cases Finset.mem_insert.mp hm with
      | inl heq =>
        subst heq
        have hout := h.outer d (Multiset.mem_add.mpr (Or.inl (Multiset.mem_coe.mpr hd)))
        exact hout.imp_right Finset.mem_insert_of_mem
      | inr hm => exact (h.closed m hm d hd).imp_right Finset.mem_insert_of_mem

/-- Nodes without a count are collected. -/
theorem collect [DecidablePred stored'] (h : Counted max perm stored children ref N H)
    (hsub : ∀ a, stored' a → stored a) (hkeep : ∀ a, stored a → ref a ≠ 0 → stored' a) :
    Counted max perm stored' children ref (N.filter stored') H where
  pos := h.pos
  perm_ref := h.perm_ref
  not_stored c hc ha := h.not_stored c hc (hsub c ha)
  sound a ha := (Finset.mem_filter.mp ha).2
  live a ha hne := Finset.mem_filter.mpr ⟨h.live a (hsub a ha) hne, ha⟩
  count c := by
    have hle : inner children (N.filter stored') c ≤ inner children N c :=
      inner_mono (Finset.filter_subset _ _)
    have hold := h.count c
    omega
  outer c hc := by
    refine (h.outer c hc).imp_right fun hN ↦ Finset.mem_filter.mpr ⟨hN, ?_⟩
    exact hkeep c (h.sound c hN) (h.ref_ne_zero hc)
  closed m hm c hc := by
    have hmN := (Finset.mem_filter.mp hm).1
    refine (h.closed m hmN c hc).imp_right fun hN ↦ Finset.mem_filter.mpr ⟨hN, ?_⟩
    exact hkeep c (h.sound c hN) (h.child_ne_zero hmN hc)

/-- The count of a node that nobody knows is set to zero, and it may be given out. -/
theorem fresh (h : Counted max perm stored children ref N H) (hperm : ¬ perm a) (ha : a ∉ N)
    (hstored : ∀ b, stored' b → b = a ∨ stored b) (hkeep : ∀ b ∈ N, stored' b)
    (hchildren : ∀ m ∈ N, children' m = children m) :
    Counted max perm stored' children' (Function.update ref a 0) N H where
  pos := h.pos
  perm_ref c hc := by
    have hne : c ≠ a := fun heq ↦ hperm (heq ▸ hc)
    rw [Function.update_of_ne hne]
    exact h.perm_ref c hc
  not_stored c hc hs := by
    cases hstored c hs with
    | inl heq => exact hperm (heq ▸ hc)
    | inr hs => exact h.not_stored c hc hs
  sound := hkeep
  live b hb hne := by
    by_cases heq : b = a
    · rw [heq, Function.update_self] at hne
      exact absurd rfl hne
    · rw [Function.update_of_ne heq] at hne
      exact h.live b ((hstored b hb).resolve_left heq) hne
  count c := by
    rw [inner_congr hchildren]
    by_cases heq : c = a
    · subst heq
      have hH : H.count c = 0 := by
        rw [Multiset.count_eq_zero]
        exact fun hmem ↦ (h.outer c hmem).elim hperm ha
      have hinner : inner children N c = 0 := by
        apply Finset.sum_eq_zero
        intro m hm
        rw [List.count_eq_zero]
        exact fun hmem ↦ (h.closed m hm c hmem).elim hperm ha
      rw [Function.update_self, hH, hinner]
      exact Or.inr le_rfl
    · rw [Function.update_of_ne heq]
      exact h.count c
  outer := h.outer
  closed m hm c hc := h.closed m hm c (hchildren m hm ▸ hc)

end Counted

/-! ### The work of giving back -/

/-- What bounds the rounds of a traversal that gives back references: those that are to be given
back, and those that may become free. -/
def work (children : α → List α) (N : Finset α) (n : ℕ) : ℕ := n + ∑ m ∈ N, (children m).length

theorem work_erase (ha : a ∈ N) (n : ℕ) :
    work children (N.erase a) ((children a).length + n) = work children N n := by
  have hsum := Finset.add_sum_erase N (fun m ↦ (children m).length) ha
  unfold work
  omega

end

end RefCount

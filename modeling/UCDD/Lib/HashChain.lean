import Mathlib.Data.List.Basic
import Mathlib.Data.List.TakeWhile
import Mathlib.Logic.Function.Basic
import Mathlib.Order.Lattice
import UCDD.Lib.Loop

/-!
# Chains through links

Linked lists in a memory, and an array of links that lead into them. A cursor is the place of a
link: an entry of the array, or the link field of a node. What is written through a cursor at the
end of a list changes where the list goes on, and nothing else. The keys along a chain decrease
strictly, and a search stops where they get below the key or at the last link.
-/

namespace HashChain

open Loop

variable {ι α : Type}

/-- Where a link is stored. -/
inductive Cursor (ι α : Type) where
  | head (i : ι)
  | next (a : α)

/-- The array of links, and the link fields of the nodes. -/
structure Links (ι α : Type) where
  head : ι → α
  next : α → α

/-- From `x` the link fields lead to `y` through the nodes of the list. -/
def Segment (next : α → α) (y : α) : α → List α → Prop
  | x, [] => x = y
  | x, a :: l => x = a ∧ Segment next y (next a) l

section

variable {next next' : α → α} {x y z a : α} {b l l' : List α}

@[simp] theorem segment_nil : Segment next y x [] ↔ x = y := Iff.rfl

@[simp] theorem segment_cons : Segment next y x (a :: l) ↔ x = a ∧ Segment next y (next a) l :=
  Iff.rfl

theorem segment_append :
    Segment next y x (l ++ l') ↔ ∃ z, Segment next z x l ∧ Segment next y z l' := by
  induction l generalizing x with
  | nil => simp
  | cons a l ih =>
    rw [List.cons_append, segment_cons, ih]
    constructor
    · intro h
      obtain ⟨hx, z, hl, hl'⟩ := h
      exact ⟨z, ⟨hx, hl⟩, hl'⟩
    · intro h
      obtain ⟨z, ⟨hx, hl⟩, hl'⟩ := h
      exact ⟨hx, z, hl, hl'⟩

theorem Segment.congr (h : Segment next y x l) (heq : ∀ a ∈ l, next' a = next a) :
    Segment next' y x l := by
  induction l generalizing x with
  | nil => exact h
  | cons a l ih =>
    rw [List.forall_mem_cons] at heq
    rw [segment_cons] at h ⊢
    rw [heq.1]
    exact ⟨h.1, ih h.2 heq.2⟩

/-- A chain that ends at the first sight of `y` is determined by its start. -/
theorem Segment.unique (h : Segment next y x l) (h' : Segment next y x l') (hl : y ∉ l)
    (hl' : y ∉ l') : l = l' := by
  induction l generalizing x l' with
  | nil =>
    cases l' with
    | nil => rfl
    | cons a l' =>
      rw [segment_nil] at h
      rw [segment_cons] at h'
      exact absurd (h.symm.trans h'.1 ▸ List.mem_cons_self) hl'
  | cons a l ih =>
    rw [segment_cons] at h
    cases l' with
    | nil =>
      rw [segment_nil] at h'
      exact absurd (h'.symm.trans h.1 ▸ List.mem_cons_self) hl
    | cons a' l' =>
      rw [segment_cons] at h'
      have ha : a = a' := h.1.symm.trans h'.1
      subst ha
      rw [ih h.2 h'.2 (List.not_mem_of_not_mem_cons hl) (List.not_mem_of_not_mem_cons hl')]

end

/-- The cursor at the end of a list that starts in the array. -/
def outlet (i : ι) (b : List α) : Cursor ι α :=
  match b.getLast? with
  | none => .head i
  | some a => .next a

@[simp] theorem outlet_nil (i : ι) : (outlet i [] : Cursor ι α) = .head i := rfl

@[simp] theorem outlet_concat (i : ι) (b : List α) (a : α) : outlet i (b ++ [a]) = .next a := by
  simp [outlet]

namespace Links

/-- What a cursor points at. -/
def get (m : Links ι α) : Cursor ι α → α
  | .head i => m.head i
  | .next a => m.next a

variable {m : Links ι α} {i j : ι} {b l : List α} {x y a : α}

/-- The end of the list is where its outlet points. -/
theorem get_outlet (h : Segment m.next y (m.head i) b) : m.get (outlet i b) = y := by
  cases List.eq_nil_or_concat b with
  | inl hb =>
    subst hb
    exact h
  | inr hb =>
    obtain ⟨c, a, rfl⟩ := hb
    rw [List.concat_eq_append] at h ⊢
    rw [outlet_concat]
    obtain ⟨z, -, ha⟩ := segment_append.mp h
    exact ha.2

/-- Move the cursor on while what it points at satisfies the guard. -/
def advance (m : Links ι α) (guard : α → Bool) (fuel : ℕ) (p : Cursor ι α) :
    Run (Cursor ι α) :=
  iterate (fun p ↦ guard (m.get p)) (fun p ↦ .done (.next (m.get p))) fuel p

/-- The cursor moves on over the first nodes that satisfy the guard, and the last link stops it. -/
theorem advance_outlet {guard : α → Bool} {fuel : ℕ}
    (h : Segment m.next y (m.head i) (b ++ l)) (hy : guard y = false) (hfuel : l.length < fuel) :
    m.advance guard fuel (outlet i b) = .done (outlet i (b ++ l.takeWhile guard)) := by
  induction l generalizing b fuel with
  | nil =>
    obtain ⟨n, rfl⟩ := Nat.exists_eq_add_of_lt hfuel
    rw [List.append_nil] at h
    rw [advance, iterate, get_outlet h, hy]
    simp
  | cons a l ih =>
    obtain ⟨n, rfl⟩ : ∃ n, fuel = n + 1 := Nat.exists_eq_succ_of_ne_zero (by omega)
    obtain ⟨z, hb, hz⟩ := segment_append.mp h
    have hget : m.get (outlet i b) = a := (get_outlet hb).trans hz.1
    rw [advance, iterate, hget]
    cases hg : guard a with
    | false => simp [hg]
    | true =>
      have hmove : (Cursor.next a : Cursor ι α) = outlet i (b ++ [a]) :=
        (outlet_concat i b a).symm
      rw [List.length_cons] at hfuel
      have hrest := ih (b := b ++ [a]) (by simpa using h) (show l.length < n by omega)
      rw [if_pos rfl, Run.done_bind, List.takeWhile_cons, hg, hmove]
      simpa [advance] using hrest

/-- The nodes of a list that starts in the array and is still being built: where its outlet
points does not matter. -/
structure Ends (m : Links ι α) (i : ι) (b : List α) : Prop where
  segment : ∃ y, Segment m.next y (m.head i) b
  nodup : b.Nodup

theorem ends_nil (m : Links ι α) (i : ι) : m.Ends i [] := ⟨⟨m.head i, rfl⟩, List.nodup_nil⟩

theorem Ends.congr {m' : Links ι α} (h : m.Ends i b) (hhead : m'.head i = m.head i)
    (hnext : ∀ a ∈ b, m'.next a = m.next a) : m'.Ends i b := by
  obtain ⟨y, hseg⟩ := h.segment
  exact ⟨⟨y, hhead ▸ hseg.congr hnext⟩, h.nodup⟩

variable [DecidableEq ι] [DecidableEq α]

/-- Write through a cursor. -/
def set (m : Links ι α) (p : Cursor ι α) (x : α) : Links ι α :=
  match p with
  | .head i => { m with head := Function.update m.head i x }
  | .next a => { m with next := Function.update m.next a x }

@[simp] theorem set_next_self : (m.set (.next a) x).next a = x := by simp [set]

theorem set_next_other (h : y ≠ a) : (m.set (.next a) x).next y = m.next y := by
  simp [set, Function.update_of_ne h]

@[simp] theorem set_next_head : (m.set (.next a) x).head = m.head := rfl

@[simp] theorem set_head_self : (m.set (.head i) x).head i = x := by simp [set]

@[simp] theorem set_head_next : (m.set (.head i) x).next = m.next := rfl

theorem set_outlet_next (h : a ∉ b) : (m.set (outlet i b) x).next a = m.next a := by
  cases List.eq_nil_or_concat b with
  | inl hb =>
    subst hb
    rfl
  | inr hb =>
    obtain ⟨c, d, rfl⟩ := hb
    rw [List.concat_eq_append] at h ⊢
    rw [outlet_concat]
    apply set_next_other
    intro heq
    exact h (by simp [heq])

theorem set_outlet_head (h : j ≠ i) : (m.set (outlet i b) x).head j = m.head j := by
  cases List.eq_nil_or_concat b with
  | inl hb =>
    subst hb
    exact Function.update_of_ne h _ _
  | inr hb =>
    obtain ⟨c, d, rfl⟩ := hb
    rw [List.concat_eq_append, outlet_concat]
    rfl

/-- What is written through the outlet comes after the list. -/
theorem Ends.segment_set (h : m.Ends i b) (x : α) :
    Segment (m.set (outlet i b) x).next x ((m.set (outlet i b) x).head i) b := by
  obtain ⟨⟨y, hseg⟩, hnodup⟩ := h
  cases List.eq_nil_or_concat b with
  | inl hb =>
    subst hb
    exact set_head_self
  | inr hb =>
    obtain ⟨c, a, rfl⟩ := hb
    rw [List.concat_eq_append] at hseg hnodup ⊢
    rw [outlet_concat]
    have ha : a ∉ c := by
      intro ha
      exact (List.nodup_append.mp hnodup).2.2 a ha a (by simp) rfl
    obtain ⟨z, hc, hz⟩ := segment_append.mp hseg
    apply segment_append.mpr
    refine ⟨z, ?_, hz.1, set_next_self⟩
    apply hc.congr
    intro d hd
    apply set_next_other
    intro heq
    exact ha (heq ▸ hd)

/-- A node is put at the end of the list. -/
theorem Ends.push (h : m.Ends i b) (ha : a ∉ b) :
    (m.set (outlet i b) a).Ends i (b ++ [a]) := by
  refine ⟨⟨_, segment_append.mpr ⟨a, h.segment_set a, rfl, rfl⟩⟩, ?_⟩
  exact List.nodup_append.mpr ⟨h.nodup, List.pairwise_singleton _ a, fun c hc d hd ↦ by
    rw [List.mem_singleton] at hd
    intro heq
    exact ha (hd ▸ heq ▸ hc)⟩

/-- Another list that shares no node with this one does not change. -/
theorem Ends.set_other {c : List α} (h : m.Ends j c) (hij : j ≠ i) (hdisj : ∀ a ∈ c, a ∉ b)
    (x : α) : (m.set (outlet i b) x).Ends j c :=
  h.congr (set_outlet_head hij) fun a ha ↦ set_outlet_next (hdisj a ha)

/-- A node is linked in after the nodes of `b`, as `node->next = *p; *p = node`. -/
theorem segment_insert (h : Segment m.next y (m.head i) (b ++ l)) (hnodup : (b ++ l).Nodup)
    (ha : a ∉ b ++ l) :
    Segment (((m.set (.next a) (m.get (outlet i b))).set (outlet i b) a).next) y
      (((m.set (.next a) (m.get (outlet i b))).set (outlet i b) a).head i) (b ++ a :: l) := by
  obtain ⟨z, hb, hl⟩ := segment_append.mp h
  rw [List.mem_append, not_or] at ha
  rw [get_outlet hb]
  have hother (c : α) (hc : c ≠ a) : (m.set (.next a) z).next c = m.next c := set_next_other hc
  have hends : (m.set (.next a) z).Ends i b := by
    refine ⟨⟨z, ?_⟩, (List.nodup_append.mp hnodup).1⟩
    exact hb.congr fun c hc ↦ hother c fun heq ↦ ha.1 (heq ▸ hc)
  refine segment_append.mpr ⟨a, hends.segment_set a, rfl, ?_⟩
  rw [set_outlet_next ha.1]
  rw [set_next_self]
  apply hl.congr
  intro c hc
  have hcb : c ∉ b := fun hcb ↦ (List.nodup_append.mp hnodup).2.2 c hcb c hc rfl
  rw [set_outlet_next hcb]
  exact hother c fun heq ↦ ha.2 (heq ▸ hc)

end Links

/-! ### Searches -/

theorem takeWhile_congr {l : List α} {f g : α → Bool} (h : ∀ a ∈ l, f a = g a) :
    l.takeWhile f = l.takeWhile g := by
  induction l with
  | nil => rfl
  | cons a l ih =>
    rw [List.forall_mem_cons] at h
    rw [List.takeWhile_cons, List.takeWhile_cons, h.1, ih h.2]

/-- Two searches one after the other are one search, if the first test stays false after it has
failed. -/
theorem takeWhile_append_takeWhile {l : List α} {f g : α → Bool}
    (h : ∀ a ∈ l.dropWhile f, f a = false) :
    l.takeWhile f ++ (l.dropWhile f).takeWhile g = l.takeWhile fun a ↦ f a || g a := by
  induction l with
  | nil => rfl
  | cons a l ih =>
    cases hf : f a with
    | true =>
      rw [List.dropWhile_cons_of_pos hf] at h ⊢
      rw [List.takeWhile_cons_of_pos hf, List.takeWhile_cons_of_pos (by simp [hf]),
        List.cons_append, ih h]
    | false =>
      have hnot : ¬ f a = true := by simp [hf]
      rw [List.dropWhile_cons_of_neg hnot] at h ⊢
      rw [List.takeWhile_cons_of_neg hnot, List.nil_append]
      exact takeWhile_congr fun b hb ↦ by rw [h b hb, Bool.false_or]

/-! ### Decreasing keys -/

/-- The keys decrease strictly along the list. -/
def Decreasing {K : Type} [LinearOrder K] (key : α → K) (l : List α) : Prop :=
  l.Pairwise fun a b ↦ key b < key a

section

variable {K : Type} [LinearOrder K] {key : α → K} {f : α → Bool} {l : List α} {a : α} {k : K}

theorem Decreasing.nodup (h : Decreasing key l) : l.Nodup := by
  apply List.Pairwise.imp _ h
  intro a b hlt heq
  subst heq
  exact lt_irrefl _ hlt

theorem Decreasing.congr {key' : α → K} (h : Decreasing key l) (heq : ∀ a ∈ l, key' a = key a) :
    Decreasing key' l := by
  apply List.Pairwise.imp_of_mem _ h
  intro a b ha hb hlt
  rwa [heq a ha, heq b hb]

/-- A key is there once. -/
theorem Decreasing.inj {b : α} (h : Decreasing key l) (ha : a ∈ l) (hb : b ∈ l)
    (heq : key a = key b) : a = b := by
  induction l with
  | nil => cases ha
  | cons c l ih =>
    rw [Decreasing, List.pairwise_cons] at h
    cases List.mem_cons.mp ha with
    | inl hac =>
      cases List.mem_cons.mp hb with
      | inl hbc => rw [hac, hbc]
      | inr hb => exact absurd (hac ▸ heq) (h.1 b hb).ne'
    | inr ha =>
      cases List.mem_cons.mp hb with
      | inl hbc => exact absurd (hbc ▸ heq) (h.1 a ha).ne
      | inr hb => exact ih h.2 ha hb

/-- From where a search stops on, the keys are at most the one that was searched. -/
theorem Decreasing.le_of_mem_dropWhile (h : Decreasing key l)
    (hf : ∀ a ∈ l, f a = true ↔ k < key a) : ∀ a ∈ l.dropWhile f, key a ≤ k := by
  induction l with
  | nil => simp
  | cons a l ih =>
    rw [Decreasing, List.pairwise_cons] at h
    rw [List.forall_mem_cons] at hf
    by_cases hfa : f a = true
    · rw [List.dropWhile_cons_of_pos hfa]
      exact ih h.2 hf.2
    · rw [List.dropWhile_cons_of_neg hfa, List.forall_mem_cons]
      have hle : key a ≤ k := not_lt.mp fun hlt ↦ hfa (hf.1.mpr hlt)
      exact ⟨hle, fun c hc ↦ le_trans (h.1 c hc).le hle⟩

/-- A key that is present is the one at which its search stops. -/
theorem Decreasing.dropWhile_eq (h : Decreasing key l) (hf : ∀ a ∈ l, f a = true ↔ k < key a)
    (ha : a ∈ l) (hk : key a = k) : ∃ c, l.dropWhile f = a :: c := by
  induction l with
  | nil => cases ha
  | cons d l ih =>
    rw [Decreasing, List.pairwise_cons] at h
    rw [List.forall_mem_cons] at hf
    cases List.mem_cons.mp ha with
    | inl heq =>
      subst heq
      refine ⟨l, List.dropWhile_cons_of_neg fun hfa ↦ ?_⟩
      exact absurd (hf.1.mp hfa) (by rw [hk]; exact lt_irrefl k)
    | inr hmem =>
      have hlt : k < key d := hk ▸ h.1 a hmem
      rw [List.dropWhile_cons_of_pos (hf.1.mpr hlt)]
      exact ih h.2 hf.2 hmem

/-- A node goes in where the search for its key stops, if the key is not present. -/
theorem Decreasing.insert (h : Decreasing key l) (hf : ∀ c ∈ l, f c = true ↔ key a < key c)
    (hk : ∀ c ∈ l, key c ≠ key a) : Decreasing key (l.takeWhile f ++ a :: l.dropWhile f) := by
  have hsplit := h
  rw [← List.takeWhile_append_dropWhile (p := f) (l := l)] at hsplit
  obtain ⟨hb, hd, hbd⟩ := List.pairwise_append.mp hsplit
  have hbefore : ∀ c ∈ l.takeWhile f, key a < key c :=
    fun c hc ↦ (hf c (List.takeWhile_subset _ hc)).mp (List.mem_takeWhile_imp hc)
  have hafter : ∀ c ∈ l.dropWhile f, key c < key a := by
    intro c hc
    exact lt_of_le_of_ne (h.le_of_mem_dropWhile hf c hc) (hk c (List.dropWhile_subset _ hc))
  refine List.pairwise_append.mpr ⟨hb, List.pairwise_cons.mpr ⟨hafter, hd⟩, ?_⟩
  intro c hc d hd
  cases List.mem_cons.mp hd with
  | inl heq => exact heq ▸ hbefore c hc
  | inr hmem => exact hbd c hc d hmem

end

end HashChain

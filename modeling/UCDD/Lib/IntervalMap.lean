import Mathlib.Data.List.Chain
import Mathlib.Order.Basic
import Mathlib.Order.MinMax

/-!
# Interval maps

A partition of a line into finitely many intervals, each with a value, stored as the
list of (value, upper bound) pairs from left to right. A point of the line is seen only
through the upper bounds it lies below, so points are abstracted to cuts. The merge of
two interval maps is the pointwise combination, computed in one pass over both lists.
-/

namespace IntervalMap

variable {α β γ κ : Type*} [LinearOrder κ] {top : κ}

/-- The upper bounds a point lies below: an upward closed set that contains the top. -/
structure Cut (top : κ) where
  below : κ → Bool
  mono : ∀ {a b : κ}, a ≤ b → below a = true → below b = true
  top_below : below top = true

/-- The value of the first interval whose upper bound lies above the point. -/
def select (c : Cut top) : List (α × κ) → Option α
  | [] => none
  | e :: es => if c.below e.2 then some e.1 else select c es

/-- The bounds strictly increase and the last one is the top. -/
def Partition (top : κ) : List (α × κ) → Prop
  | [] => False
  | [e] => e.2 = top
  | e :: e' :: es => e.2 < e'.2 ∧ Partition top (e' :: es)

/-- Neighbouring intervals have different values. -/
def Alternating (es : List (α × κ)) : Prop := es.IsChain fun a b ↦ a.1 ≠ b.1

instance decidablePartition : (es : List (α × κ)) → Decidable (Partition top es)
  | [] => isFalse id
  | [_] => inferInstanceAs (Decidable (_ = _))
  | _ :: e' :: es =>
    have := decidablePartition (e' :: es)
    inferInstanceAs (Decidable (_ ∧ _))

instance [DecidableEq α] (es : List (α × κ)) : Decidable (Alternating es) :=
  inferInstanceAs (Decidable (List.IsChain _ _))

/-- Advance past the interval that ends at `bnd`. -/
def skip (bnd : κ) : List (α × κ) → List (α × κ)
  | [] => []
  | e :: es => if e.2 = bnd then es else e :: es

private theorem length_skip_le (bnd : κ) (es : List (α × κ)) :
    (skip bnd es).length ≤ es.length := by
  cases es with
  | nil => simp [skip]
  | cons e es => simp only [skip]; split <;> simp

private theorem length_skip_lt (p : List (α × κ)) (q : List (β × κ)) (e : α × κ) (e' : β × κ) :
    (skip (min e.2 e'.2) (e :: p)).length + (skip (min e.2 e'.2) (e' :: q)).length <
      (e :: p).length + (e' :: q).length := by
  have hp := length_skip_le (min e.2 e'.2) (e :: p)
  have hq := length_skip_le (min e.2 e'.2) (e' :: q)
  rcases min_choice e.2 e'.2 with h | h
  · have : (skip (min e.2 e'.2) (e :: p)).length = p.length := by simp [skip, h]
    simp only [List.length_cons] at hq ⊢
    omega
  · have : (skip (min e.2 e'.2) (e' :: q)).length = q.length := by simp [skip, h]
    simp only [List.length_cons] at hp ⊢
    omega

/-- Combine two interval maps from the current intervals on, with `prev` the combined
value of the heads. A value equal to its left neighbour extends that neighbour. -/
def mergeLoop [DecidableEq γ] (f : α → β → Option γ) (top : κ) :
    ℕ → List (α × κ) → List (β × κ) → γ → Option (List (γ × κ))
  | fuel + 1, e :: p, e' :: q, prev =>
    let bnd := min e.2 e'.2
    if bnd < top then
      match skip bnd (e :: p), skip bnd (e' :: q) with
      | a :: p', b :: q' =>
        match f a.1 b.1 with
        | none => none
        | some n =>
          if n = prev then mergeLoop f top fuel (a :: p') (b :: q') prev
          else (mergeLoop f top fuel (a :: p') (b :: q') n).map ((prev, bnd) :: ·)
      | _, _ => none
    else some [(prev, top)]
  | _, _, _, _ => none

/-- The merge of two interval maps; each round advances in one of them. -/
def merge [DecidableEq γ] (f : α → β → Option γ) (top : κ) (p : List (α × κ))
    (q : List (β × κ)) (prev : γ) : Option (List (γ × κ)) :=
  mergeLoop f top (p.length + q.length) p q prev

/-- The pairs of values of two interval maps from left to right: each round advances the map, or
both, whose current interval ends first. -/
def refineLoop (top : κ) : ℕ → List (α × κ) → List (β × κ) → List ((α × β) × κ)
  | fuel + 1, e :: p, e' :: q =>
    let bnd := min e.2 e'.2
    ((e.1, e'.1), bnd) ::
      if bnd < top then refineLoop top fuel (skip bnd (e :: p)) (skip bnd (e' :: q)) else []
  | _, _, _ => []

/-- The common refinement of two interval maps. -/
def refine (top : κ) (p : List (α × κ)) (q : List (β × κ)) : List ((α × β) × κ) :=
  refineLoop top (p.length + q.length) p q

/-! ### Partitions -/

@[simp] theorem partition_singleton (a : α) (s : κ) : Partition top [(a, s)] ↔ s = top := Iff.rfl

@[simp] theorem partition_cons_cons (e e' : α × κ) (es : List (α × κ)) :
    Partition top (e :: e' :: es) ↔ e.2 < e'.2 ∧ Partition top (e' :: es) := Iff.rfl

theorem Partition.ne_nil {es : List (α × κ)} (h : Partition top es) : es ≠ [] := by
  rintro rfl
  exact h

theorem Partition.le_top {es : List (α × κ)} (h : Partition top es) :
    ∀ e ∈ es, e.2 ≤ top := by
  induction es with
  | nil => simp
  | cons e es ih =>
    cases es with
    | nil => simpa using le_of_eq h
    | cons e' es =>
      have ht := ih h.2
      intro x hx
      rcases List.mem_cons.mp hx with rfl | hx
      · exact le_trans (le_of_lt h.1) (ht e' (by simp))
      · exact ht x hx

theorem Partition.tail_of_lt {e : α × κ} {es : List (α × κ)} (h : Partition top (e :: es))
    (hlt : e.2 < top) : ∃ e' es', es = e' :: es' ∧ e.2 < e'.2 ∧ Partition top es := by
  cases es with
  | nil => exact absurd h (ne_of_lt hlt)
  | cons e' es' => exact ⟨e', es', rfl, h.1, h.2⟩

/-- What follows the first interval ends where the line does, or goes on after it. -/
theorem Partition.tail_cases {e : α × κ} {es : List (α × κ)} (h : Partition top (e :: es)) :
    (es = [] ∧ e.2 = top) ∨ (Partition top es ∧ ∀ x ∈ es.head?, e.2 < x.2) := by
  cases es with
  | nil => exact Or.inl ⟨rfl, h⟩
  | cons e' es =>
    refine Or.inr ⟨h.2, ?_⟩
    rintro x ⟨⟩
    exact h.1

theorem Partition.lt_of_mem {e : α × κ} {es : List (α × κ)} (h : Partition top (e :: es)) :
    ∀ x ∈ es, e.2 < x.2 := by
  induction es generalizing e with
  | nil => simp
  | cons e' es ih =>
    intro x hx
    rcases List.mem_cons.mp hx with rfl | hx
    · exact h.1
    · exact lt_trans h.1 (ih h.2 x hx)

/-- Mapping the values keeps the bounds, hence the partition. -/
theorem Partition.map {es : List (α × κ)} (f : α → β) (h : Partition top es) :
    Partition top (es.map fun e ↦ (f e.1, e.2)) := by
  induction es with
  | nil => exact h
  | cons e es ih =>
    cases es with
    | nil => exact h
    | cons e' es => exact ⟨h.1, ih h.2⟩

omit [LinearOrder κ] in
/-- Mapping the values by an injection keeps neighbours apart. -/
theorem Alternating.map {es : List (α × κ)} {f : α → β} (hf : Function.Injective f)
    (h : Alternating es) : Alternating (es.map fun e ↦ (f e.1, e.2)) := by
  rw [Alternating, List.isChain_map]
  exact h.imp fun _ _ hab he ↦ hab (hf he)

/-! ### Selection -/

@[simp] theorem select_nil (c : Cut top) : select c ([] : List (α × κ)) = none := rfl

theorem select_cons (c : Cut top) (e : α × κ) (es : List (α × κ)) :
    select c (e :: es) = if c.below e.2 then some e.1 else select c es := rfl

theorem mem_of_select {c : Cut top} {es : List (α × κ)} {a : α} (h : select c es = some a) :
    ∃ e ∈ es, e.1 = a := by
  induction es with
  | nil => cases h
  | cons e es ih =>
    rw [select_cons] at h
    split at h
    · exact ⟨e, List.mem_cons_self .., Option.some.inj h⟩
    · obtain ⟨f, hf, hfa⟩ := ih h
      exact ⟨f, List.mem_cons_of_mem _ hf, hfa⟩

theorem select_map (c : Cut top) (f : α → β) (es : List (α × κ)) :
    select c (es.map fun e ↦ (f e.1, e.2)) = (select c es).map f := by
  induction es with
  | nil => rfl
  | cons e es ih =>
    simp only [List.map_cons, select_cons, ih]
    split <;> rfl

/-- A partition has a value at every point. -/
theorem Partition.select_isSome {es : List (α × κ)} (h : Partition top es) (c : Cut top) :
    ∃ a s, select c es = some a ∧ (a, s) ∈ es ∧ c.below s = true := by
  induction es with
  | nil => exact h.elim
  | cons e es ih =>
    by_cases hb : c.below e.2 = true
    · exact ⟨e.1, e.2, by simp [select_cons, hb], by simp, hb⟩
    · cases es with
      | nil =>
        have ht : e.2 = top := h
        exact absurd (ht ▸ c.top_below) hb
      | cons e' es =>
        obtain ⟨a, s, hs, hm, hbs⟩ := ih h.2
        refine ⟨a, s, ?_, List.mem_cons_of_mem _ hm, hbs⟩
        rw [select_cons, if_neg hb, hs]

private theorem select_skip {e : α × κ} {es : List (α × κ)} {c : Cut top} {bnd : κ}
    (hc : ¬ c.below bnd = true) : select c (skip bnd (e :: es)) = select c (e :: es) := by
  simp only [skip]
  split
  · next h => rw [select_cons, h, if_neg hc]
  · rfl

private theorem partition_skip {e : α × κ} {es : List (α × κ)} {bnd : κ}
    (h : Partition top (e :: es)) (hb : bnd ≤ e.2) (ht : bnd < top) :
    ∃ a p, skip bnd (e :: es) = a :: p ∧ Partition top (a :: p) ∧ bnd < a.2 ∧
      (∀ x ∈ a :: p, x ∈ e :: es) := by
  by_cases he : e.2 = bnd
  · obtain ⟨e', es', rfl, hlt, hp⟩ := h.tail_of_lt (he ▸ ht)
    exact ⟨e', es', by simp [skip, he], hp, he ▸ hlt, fun x hx ↦ List.mem_cons_of_mem _ hx⟩
  · exact ⟨e, es, by simp [skip, he], h, lt_of_le_of_ne hb (Ne.symm he), fun _ hx ↦ hx⟩

/-! ### The merge -/

/-- What the merge of two partitions returns, for a combination that relates every pair of
values to a result. -/
structure Merged (top : κ) (P : α → β → γ → Prop) (p : List (α × κ)) (q : List (β × κ)) (prev : γ)
    (out : List (γ × κ)) : Prop where
  partition : Partition top out
  alternating : Alternating out
  head : ∃ s es, out = (prev, s) :: es
  values : ∀ e ∈ out, ∃ a ∈ p, ∃ b ∈ q, P a.1 b.1 e.1
  bounds : ∀ e ∈ out, (∃ a ∈ p, a.2 = e.2) ∨ ∃ b ∈ q, b.2 = e.2
  select : ∀ c : Cut top, ∃ a b n, IntervalMap.select c p = some a ∧
    IntervalMap.select c q = some b ∧ IntervalMap.select c out = some n ∧ P a b n
  length_le : out.length + 1 ≤ p.length + q.length

theorem Merged.mono {P P' : α → β → γ → Prop} {p : List (α × κ)} {q : List (β × κ)} {prev : γ}
    {out : List (γ × κ)} (h : Merged top P p q prev out) (hP : ∀ a b c, P a b c → P' a b c) :
    Merged top P' p q prev out where
  partition := h.partition
  alternating := h.alternating
  head := h.head
  values e he := by
    obtain ⟨a, ha, b, hb, hab⟩ := h.values e he
    exact ⟨a, ha, b, hb, hP _ _ _ hab⟩
  bounds := h.bounds
  select c := by
    obtain ⟨a, b, n, ha, hb, hn, hab⟩ := h.select c
    exact ⟨a, b, n, ha, hb, hn, hP _ _ _ hab⟩
  length_le := h.length_le

private theorem merge_step [DecidableEq γ] {f : α → β → Option γ} {e : α × κ} {e' : β × κ}
    {p : List (α × κ)} {q : List (β × κ)} {a : α × κ} {b : β × κ} {p' : List (α × κ)}
    {q' : List (β × κ)} {prev n : γ} {fuel : ℕ} (ht : min e.2 e'.2 < top)
    (hp : skip (min e.2 e'.2) (e :: p) = a :: p') (hq : skip (min e.2 e'.2) (e' :: q) = b :: q')
    (hf : f a.1 b.1 = some n) :
    mergeLoop f top (fuel + 1) (e :: p) (e' :: q) prev =
      if n = prev then mergeLoop f top fuel (a :: p') (b :: q') prev
      else (mergeLoop f top fuel (a :: p') (b :: q') n).map ((prev, min e.2 e'.2) :: ·) := by
  rw [mergeLoop]
  simp only [ht, ↓reduceIte, hp, hq, hf]

private theorem select_head {e : α × κ} {es : List (α × κ)} {c : Cut top} {bnd : κ}
    (hb : bnd ≤ e.2) (hc : c.below bnd = true) : select c (e :: es) = some e.1 := by
  rw [select_cons, if_pos (c.mono hb hc)]

section Step

variable {P : α → β → γ → Prop} {e : α × κ} {e' : β × κ} {p : List (α × κ)} {q : List (β × κ)}
  {a : α × κ} {b : β × κ} {p' : List (α × κ)} {q' : List (β × κ)} {prev n : γ}
  {out : List (γ × κ)}

/-- The next value equals the current one: the interval of the current one is extended. -/
private theorem Merged.extend (hsp : skip (min e.2 e'.2) (e :: p) = a :: p')
    (hsq : skip (min e.2 e'.2) (e' :: q) = b :: q') (hsubp : ∀ x ∈ a :: p', x ∈ e :: p)
    (hsubq : ∀ x ∈ b :: q', x ∈ e' :: q) (hP : P e.1 e'.1 prev)
    (hlen : (a :: p').length + (b :: q').length < (e :: p).length + (e' :: q).length)
    (hout : Merged top P (a :: p') (b :: q') prev out)
    (hle : ∀ x ∈ out, min e.2 e'.2 < x.2) :
    Merged top P (e :: p) (e' :: q) prev out where
  partition := hout.partition
  alternating := hout.alternating
  head := hout.head
  values x hx := by
    obtain ⟨y, hy, z, hz, hyz⟩ := hout.values x hx
    exact ⟨y, hsubp y hy, z, hsubq z hz, hyz⟩
  bounds x hx := by
    rcases hout.bounds x hx with ⟨y, hy, hyx⟩ | ⟨z, hz, hzx⟩
    · exact Or.inl ⟨y, hsubp y hy, hyx⟩
    · exact Or.inr ⟨z, hsubq z hz, hzx⟩
  select c := by
    by_cases hc : c.below (min e.2 e'.2) = true
    · obtain ⟨s, es, rfl⟩ := hout.head
      refine ⟨e.1, e'.1, prev, select_head (min_le_left _ _) hc,
        select_head (min_le_right _ _) hc, ?_, hP⟩
      exact select_head (le_of_lt (hle _ (by simp))) hc
    · obtain ⟨y, z, m, hy, hz, hm, hyz⟩ := hout.select c
      refine ⟨y, z, m, ?_, ?_, hm, hyz⟩
      · rw [← select_skip hc, hsp, hy]
      · rw [← select_skip hc, hsq, hz]
  length_le := le_of_lt (lt_of_le_of_lt hout.length_le hlen)

/-- The next value differs: the current one is pushed with the bound reached. -/
private theorem Merged.push (hsp : skip (min e.2 e'.2) (e :: p) = a :: p')
    (hsq : skip (min e.2 e'.2) (e' :: q) = b :: q') (hsubp : ∀ x ∈ a :: p', x ∈ e :: p)
    (hsubq : ∀ x ∈ b :: q', x ∈ e' :: q) (hP : P e.1 e'.1 prev) (hn : n ≠ prev)
    (hlen : (a :: p').length + (b :: q').length < (e :: p).length + (e' :: q).length)
    (hout : Merged top P (a :: p') (b :: q') n out)
    (hle : ∀ x ∈ out, min e.2 e'.2 < x.2) :
    Merged top P (e :: p) (e' :: q) prev ((prev, min e.2 e'.2) :: out) where
  partition := by
    obtain ⟨s, es, rfl⟩ := hout.head
    exact ⟨hle _ (by simp), hout.partition⟩
  alternating := by
    obtain ⟨s, es, rfl⟩ := hout.head
    exact List.isChain_cons_cons.mpr ⟨hn.symm, hout.alternating⟩
  head := ⟨_, _, rfl⟩
  values x hx := by
    rcases List.mem_cons.mp hx with rfl | hx
    · exact ⟨e, by simp, e', by simp, hP⟩
    · obtain ⟨y, hy, z, hz, hyz⟩ := hout.values x hx
      exact ⟨y, hsubp y hy, z, hsubq z hz, hyz⟩
  bounds x hx := by
    rcases List.mem_cons.mp hx with rfl | hx
    · rcases min_choice e.2 e'.2 with h | h
      · exact Or.inl ⟨e, by simp, h.symm⟩
      · exact Or.inr ⟨e', by simp, h.symm⟩
    · rcases hout.bounds x hx with ⟨y, hy, hyx⟩ | ⟨z, hz, hzx⟩
      · exact Or.inl ⟨y, hsubp y hy, hyx⟩
      · exact Or.inr ⟨z, hsubq z hz, hzx⟩
  select c := by
    by_cases hc : c.below (min e.2 e'.2) = true
    · exact ⟨e.1, e'.1, prev, select_head (min_le_left _ _) hc,
        select_head (min_le_right _ _) hc, select_head le_rfl hc, hP⟩
    · obtain ⟨y, z, m, hy, hz, hm, hyz⟩ := hout.select c
      refine ⟨y, z, m, ?_, ?_, ?_, hyz⟩
      · rw [← select_skip hc, hsp, hy]
      · rw [← select_skip hc, hsq, hz]
      · rw [select_cons, if_neg hc, hm]
  length_le := by
    have := hout.length_le
    simp only [List.length_cons] at this hlen ⊢
    omega

end Step

private theorem merged_last {P : α → β → γ → Prop} {e : α × κ} {e' : β × κ}
    {p : List (α × κ)} {q : List (β × κ)} {prev : γ} (hp : Partition top (e :: p))
    (hq : Partition top (e' :: q)) (hP : P e.1 e'.1 prev) (ht : ¬ min e.2 e'.2 < top) :
    Merged top P (e :: p) (e' :: q) prev [(prev, top)] := by
  have he : e.2 = top := le_antisymm (hp.le_top e (by simp))
    (le_trans (not_lt.mp ht) (min_le_left _ _))
  have he' : e'.2 = top := le_antisymm (hq.le_top e' (by simp))
    (le_trans (not_lt.mp ht) (min_le_right _ _))
  refine ⟨rfl, List.isChain_singleton _, ⟨_, _, rfl⟩, ?_, ?_, ?_, ?_⟩
  · rintro x hx
    obtain rfl := List.mem_singleton.mp hx
    exact ⟨e, by simp, e', by simp, hP⟩
  · rintro x hx
    obtain rfl := List.mem_singleton.mp hx
    exact Or.inl ⟨e, by simp, he⟩
  · intro c
    refine ⟨e.1, e'.1, prev, ?_, ?_, ?_, hP⟩
    · exact select_head (le_of_eq he.symm) c.top_below
    · exact select_head (le_of_eq he'.symm) c.top_below
    · exact select_head le_rfl c.top_below
  · simp only [List.length_cons, List.length_nil]
    omega

private theorem mergeLoop_spec [DecidableEq γ] {f : α → β → Option γ} {P : α → β → γ → Prop}
    {p : List (α × κ)} {q : List (β × κ)} {prev : γ} {fuel : ℕ} (hp : Partition top p)
    (hq : Partition top q) (hfuel : p.length + q.length ≤ fuel)
    (hf : ∀ a ∈ p, ∀ b ∈ q, ∃ n, f a.1 b.1 = some n ∧ P a.1 b.1 n)
    (hprev : ∀ a ∈ p.head?, ∀ b ∈ q.head?, P a.1 b.1 prev) :
    ∃ out, mergeLoop f top fuel p q prev = some out ∧ Merged top P p q prev out ∧
      ∀ x ∈ out, ∀ a ∈ p.head?, ∀ b ∈ q.head?, min a.2 b.2 ≤ x.2 := by
  induction fuel generalizing p q prev with
  | zero =>
    have := List.length_pos_of_ne_nil hp.ne_nil
    omega
  | succ fuel ih =>
    obtain ⟨e, p, rfl⟩ := List.exists_cons_of_ne_nil hp.ne_nil
    obtain ⟨e', q, rfl⟩ := List.exists_cons_of_ne_nil hq.ne_nil
    have hprev : P e.1 e'.1 prev := hprev e rfl e' rfl
    by_cases ht : min e.2 e'.2 < top
    · obtain ⟨a, p', hsp, hp', hlta, hsubp⟩ := partition_skip hp (min_le_left _ _) ht
      obtain ⟨b, q', hsq, hq', hltb, hsubq⟩ := partition_skip hq (min_le_right _ _) ht
      obtain ⟨m, hfm, hPm⟩ := hf a (hsubp a (by simp)) b (hsubq b (by simp))
      have hlen : (a :: p').length + (b :: q').length < (e :: p).length + (e' :: q).length := by
        rw [← hsp, ← hsq]
        exact length_skip_lt p q e e'
      have hm : ∀ x ∈ (a :: p').head?, ∀ y ∈ (b :: q').head?, P x.1 y.1 m := by
        rintro x ⟨⟩ y ⟨⟩
        exact hPm
      have hcall : ∀ x ∈ a :: p', ∀ y ∈ b :: q', ∃ n, f x.1 y.1 = some n ∧ P x.1 y.1 n :=
        fun x hx y hy ↦ hf x (hsubp x hx) y (hsubq y hy)
      rw [merge_step ht hsp hsq hfm]
      by_cases hmp : m = prev
      · subst hmp
        obtain ⟨out, hout, hmerged, hle⟩ := ih hp' hq' (by omega) hcall hm
        have hle' : ∀ x ∈ out, min e.2 e'.2 < x.2 := fun x hx ↦
          lt_of_lt_of_le (lt_min hlta hltb) (hle x hx a rfl b rfl)
        rw [if_pos rfl]
        refine ⟨out, hout, hmerged.extend hsp hsq hsubp hsubq hprev hlen hle', ?_⟩
        rintro x hx _ ⟨⟩ _ ⟨⟩
        exact le_of_lt (hle' x hx)
      · obtain ⟨out, hout, hmerged, hle⟩ := ih hp' hq' (by omega) hcall hm
        have hle' : ∀ x ∈ out, min e.2 e'.2 < x.2 := fun x hx ↦
          lt_of_lt_of_le (lt_min hlta hltb) (hle x hx a rfl b rfl)
        rw [if_neg hmp, hout]
        refine ⟨_, rfl, hmerged.push hsp hsq hsubp hsubq hprev hmp hlen hle', ?_⟩
        rintro x hx _ ⟨⟩ _ ⟨⟩
        rcases List.mem_cons.mp hx with rfl | hx
        · exact le_rfl
        · exact le_of_lt (hle' x hx)
    · refine ⟨[(prev, top)], ?_, merged_last hp hq hprev ht, ?_⟩
      · rw [mergeLoop]
        simp only [ht, ↓reduceIte]
      · rintro x hx _ ⟨⟩ _ ⟨⟩
        obtain rfl := List.mem_singleton.mp hx
        exact le_trans (min_le_left _ _) (hp.le_top e (by simp))

/-- The merge of two partitions succeeds where the combination does, and is the pointwise
combination, again a partition with neighbours apart. -/
theorem merge_spec [DecidableEq γ] {f : α → β → Option γ} {P : α → β → γ → Prop}
    {p : List (α × κ)} {q : List (β × κ)} {prev : γ} (hp : Partition top p)
    (hq : Partition top q)
    (hf : ∀ a ∈ p, ∀ b ∈ q, ∃ n, f a.1 b.1 = some n ∧ P a.1 b.1 n)
    (hprev : ∀ a ∈ p.head?, ∀ b ∈ q.head?, P a.1 b.1 prev) :
    ∃ out, merge f top p q prev = some out ∧ Merged top P p q prev out := by
  obtain ⟨out, hout, hmerged, -⟩ := mergeLoop_spec hp hq le_rfl hf hprev
  exact ⟨out, hout, hmerged⟩

/-! ### The common refinement -/

/-- What the refinement of two partitions is. -/
structure Refines (top : κ) (p : List (α × κ)) (q : List (β × κ)) (out : List ((α × β) × κ)) :
    Prop where
  partition : Partition top out
  values : ∀ e ∈ out, (∃ a ∈ p, a.1 = e.1.1) ∧ ∃ b ∈ q, b.1 = e.1.2
  bounds : ∀ e ∈ out, (∃ a ∈ p, a.2 = e.2) ∨ ∃ b ∈ q, b.2 = e.2
  select : ∀ c : Cut top, ∃ a b, IntervalMap.select c p = some a ∧
    IntervalMap.select c q = some b ∧ IntervalMap.select c out = some (a, b)
  head : ∀ x ∈ out.head?, ∀ a ∈ p.head?, ∀ b ∈ q.head?, x.2 = min a.2 b.2

private theorem refineLoop_spec {p : List (α × κ)} {q : List (β × κ)} {fuel : ℕ}
    (hp : Partition top p) (hq : Partition top q) (hfuel : p.length + q.length ≤ fuel) :
    Refines top p q (refineLoop top fuel p q) := by
  induction fuel generalizing p q with
  | zero =>
    have := List.length_pos_of_ne_nil hp.ne_nil
    omega
  | succ fuel ih =>
    obtain ⟨e, p, rfl⟩ := List.exists_cons_of_ne_nil hp.ne_nil
    obtain ⟨e', q, rfl⟩ := List.exists_cons_of_ne_nil hq.ne_nil
    have hhead : ∀ x ∈ (refineLoop top (fuel + 1) (e :: p) (e' :: q)).head?,
        ∀ a ∈ (e :: p).head?, ∀ b ∈ (e' :: q).head?, x.2 = min a.2 b.2 := by
      rintro x ⟨⟩ a ⟨⟩ b ⟨⟩
      rfl
    rw [refineLoop] at hhead ⊢
    by_cases ht : min e.2 e'.2 < top
    · obtain ⟨a, p', hsp, hp', hlta, hsubp⟩ := partition_skip hp (min_le_left _ _) ht
      obtain ⟨b, q', hsq, hq', hltb, hsubq⟩ := partition_skip hq (min_le_right _ _) ht
      have hlen : (a :: p').length + (b :: q').length < (e :: p).length + (e' :: q).length := by
        rw [← hsp, ← hsq]
        exact length_skip_lt p q e e'
      have hr := ih hp' hq' (by omega)
      rw [if_pos ht, hsp, hsq] at hhead ⊢
      obtain ⟨x, xs, hxs⟩ := List.exists_cons_of_ne_nil hr.partition.ne_nil
      refine ⟨?_, List.forall_mem_cons.mpr ⟨⟨⟨e, by simp, rfl⟩, ⟨e', by simp, rfl⟩⟩, ?_⟩,
        List.forall_mem_cons.mpr ⟨?_, ?_⟩, fun c ↦ ?_, hhead⟩
      · rw [hxs]
        refine ⟨?_, hxs ▸ hr.partition⟩
        rw [hr.head x (by rw [hxs]; rfl) a rfl b rfl]
        exact lt_min hlta hltb
      · intro y hy
        obtain ⟨⟨a', ha', h1⟩, b', hb', h2⟩ := hr.values y hy
        exact ⟨⟨a', hsubp a' ha', h1⟩, b', hsubq b' hb', h2⟩
      · rcases min_choice e.2 e'.2 with h | h
        · exact .inl ⟨e, by simp, h.symm⟩
        · exact .inr ⟨e', by simp, h.symm⟩
      · intro y hy
        rcases hr.bounds y hy with ⟨a', ha', h⟩ | ⟨b', hb', h⟩
        · exact .inl ⟨a', hsubp a' ha', h⟩
        · exact .inr ⟨b', hsubq b' hb', h⟩
      · cases hc : c.below (min e.2 e'.2) with
        | true =>
          exact ⟨e.1, e'.1, select_head (min_le_left _ _) hc, select_head (min_le_right _ _) hc,
            select_head le_rfl hc⟩
        | false =>
          obtain ⟨x', y', hx', hy', hout⟩ := hr.select c
          refine ⟨x', y', ?_, ?_, ?_⟩
          · rw [← hx', ← hsp]
            exact (select_skip (by simp [hc])).symm
          · rw [← hy', ← hsq]
            exact (select_skip (by simp [hc])).symm
          · rw [select_cons, if_neg (by simp [hc]), hout]
    · have htop : min e.2 e'.2 = top :=
        le_antisymm (le_trans (min_le_left _ _) (hp.le_top e (by simp))) (not_lt.mp ht)
      have hc (c : Cut top) : c.below (min e.2 e'.2) = true := htop ▸ c.top_below
      rw [if_neg ht] at hhead ⊢
      refine ⟨htop, List.forall_mem_singleton.mpr ⟨⟨e, by simp, rfl⟩, ⟨e', by simp, rfl⟩⟩,
        List.forall_mem_singleton.mpr ?_, fun c ↦ ⟨e.1, e'.1, ?_, ?_, ?_⟩, hhead⟩
      · rcases min_choice e.2 e'.2 with h | h
        · exact .inl ⟨e, by simp, h.symm⟩
        · exact .inr ⟨e', by simp, h.symm⟩
      · exact select_head (min_le_left _ _) (hc c)
      · exact select_head (min_le_right _ _) (hc c)
      · exact select_head le_rfl (hc c)

/-- The refinement of two partitions is the partition into their pairs of values. -/
theorem refine_spec {p : List (α × κ)} {q : List (β × κ)} (hp : Partition top p)
    (hq : Partition top q) : Refines top p q (refine top p q) :=
  refineLoop_spec hp hq le_rfl

/-- Refining a partition into two intervals or more leaves two or more. -/
theorem Refines.two_le {p : List (α × κ)} {q : List (β × κ)} {out : List ((α × β) × κ)}
    (h : Refines top p q out) (hp : Partition top p) (hq : Partition top q)
    (h2 : 2 ≤ p.length ∨ 2 ≤ q.length) : 2 ≤ out.length := by
  obtain ⟨e, p, rfl⟩ := List.exists_cons_of_ne_nil hp.ne_nil
  obtain ⟨e', q, rfl⟩ := List.exists_cons_of_ne_nil hq.ne_nil
  obtain ⟨x, out, rfl⟩ := List.exists_cons_of_ne_nil h.partition.ne_nil
  have hx : x.2 = min e.2 e'.2 := h.head x rfl e rfl e' rfl
  have hlt : x.2 < top := by
    rw [hx]
    rcases h2 with h2 | h2
    · cases p with
      | nil => simp at h2
      | cons a p => exact lt_of_le_of_lt (min_le_left _ _) (lt_of_lt_of_le hp.1 (hp.le_top a (by simp)))
    · cases q with
      | nil => simp at h2
      | cons b q => exact lt_of_le_of_lt (min_le_right _ _) (lt_of_lt_of_le hq.1 (hq.le_top b (by simp)))
  obtain ⟨y, out, rfl, -⟩ := h.partition.tail_of_lt hlt
  simp

/-- Replacing the values of a partition, each by a related one. -/
theorem Partition.of_forall₂ {R : α → β → Prop} {p : List (α × κ)} {q : List (β × κ)}
    (h : List.Forall₂ (fun e f ↦ R e.1 f.1 ∧ f.2 = e.2) p q) (hp : Partition top p) :
    Partition top q := by
  induction h with
  | nil => exact hp
  | @cons e f p q hef hpq ih =>
    cases hpq with
    | nil => exact hef.2.trans hp
    | @cons e' f' p q hef' hpq => exact ⟨hef.2 ▸ hef'.2 ▸ hp.1, ih hp.2⟩

theorem select_forall₂ {R : α → β → Prop} {p : List (α × κ)} {q : List (β × κ)}
    (h : List.Forall₂ (fun e f ↦ R e.1 f.1 ∧ f.2 = e.2) p q) {c : Cut top} {a : α}
    (ha : select c p = some a) : ∃ b, select c q = some b ∧ R a b := by
  induction h with
  | nil => cases ha
  | @cons e f p q hef hpq ih =>
    rw [select_cons] at ha ⊢
    rw [hef.2]
    by_cases hc : c.below e.2 = true
    · rw [if_pos hc] at ha ⊢
      cases ha
      exact ⟨f.1, rfl, hef.1⟩
    · rw [if_neg hc] at ha ⊢
      exact ih ha

theorem mem_skip {bnd : κ} {es : List (α × κ)} {x : α × κ} (h : x ∈ skip bnd es) :
    x ∈ es := by
  cases es with
  | nil => exact h
  | cons e es =>
    simp only [skip] at h
    split at h
    · exact List.mem_cons_of_mem _ h
    · exact h

private theorem mergeLoop_congr [DecidableEq γ] {f g : α → β → Option γ} {Q : γ → Prop}
    {p : List (α × κ)} {q : List (β × κ)} {prev : γ} {out : List (γ × κ)} {fuel : ℕ}
    (hfg : ∀ a ∈ p, ∀ b ∈ q, ∀ n, f a.1 b.1 = some n → Q n → g a.1 b.1 = some n)
    (h : mergeLoop f top fuel p q prev = some out) (hQ : ∀ e ∈ out, Q e.1) :
    mergeLoop g top fuel p q prev = some out ∧ ∃ e ∈ out, e.1 = prev := by
  fun_induction mergeLoop f top fuel p q prev generalizing out with
  | case1 => cases h
  | case2 =>
    rename_i fuel e p e' q bnd ht a p' b q' hq hp n hf ih
    have hfg' : ∀ x ∈ a :: p', ∀ y ∈ b :: q', ∀ n, f x.1 y.1 = some n → Q n →
        g x.1 y.1 = some n := fun x hx y hy ↦ hfg x (mem_skip (hp ▸ hx)) y (mem_skip (hq ▸ hy))
    obtain ⟨hg, x, hx, hxn⟩ := ih hfg' h hQ
    rw [merge_step ht hp hq (hfg' a (by simp) b (by simp) _ hf (hxn ▸ hQ x hx)), if_pos rfl]
    exact ⟨hg, x, hx, hxn⟩
  | case3 =>
    rename_i fuel e p e' q prev bnd ht a p' b q' hq hp n hf hn ih
    have hfg' : ∀ x ∈ a :: p', ∀ y ∈ b :: q', ∀ n, f x.1 y.1 = some n → Q n →
        g x.1 y.1 = some n := fun x hx y hy ↦ hfg x (mem_skip (hp ▸ hx)) y (mem_skip (hq ▸ hy))
    obtain ⟨out', hout', rfl⟩ := Option.map_eq_some_iff.mp h
    obtain ⟨hg, x, hx, hxn⟩ := ih hfg' hout' fun y hy ↦ hQ y (List.mem_cons_of_mem _ hy)
    have hQn : Q n := hxn ▸ hQ x (List.mem_cons_of_mem _ hx)
    rw [merge_step ht hp hq (hfg' a (by simp) b (by simp) _ hf hQn), if_neg hn, hg]
    exact ⟨rfl, _, List.mem_cons_self, rfl⟩
  | case4 => cases h
  | case5 =>
    rename_i fuel e p e' q prev bnd ht
    cases h
    rw [mergeLoop]
    simp only [show ¬ min e.2 e'.2 < top from ht, ↓reduceIte]
    exact ⟨trivial, _, List.mem_singleton_self _, rfl⟩
  | case6 => cases h

/-- Two combinations that agree on the results the merge keeps give the same merge. -/
theorem merge_congr [DecidableEq γ] {f g : α → β → Option γ} {Q : γ → Prop}
    {p : List (α × κ)} {q : List (β × κ)} {prev : γ} {out : List (γ × κ)}
    (hfg : ∀ a ∈ p, ∀ b ∈ q, ∀ n, f a.1 b.1 = some n → Q n → g a.1 b.1 = some n)
    (h : merge f top p q prev = some out) (hQ : ∀ e ∈ out, Q e.1) :
    merge g top p q prev = some out ∧ ∃ e ∈ out, e.1 = prev :=
  mergeLoop_congr hfg h hQ

/-! ### Canonicity -/

/-- The cut just above `b`. -/
def Cut.above (c : Cut top) (b : κ) (hb : b < top) : Cut top where
  below x := c.below x && decide (b < x)
  mono hab h := by
    simp only [Bool.and_eq_true, decide_eq_true_eq] at h ⊢
    exact ⟨c.mono hab h.1, lt_of_lt_of_le h.2 hab⟩
  top_below := by simp [c.top_below, hb]

/-- The lowest point of the line: it lies below every bound. -/
def Cut.lowest : Cut top := ⟨fun _ ↦ true, fun _ _ ↦ rfl, rfl⟩

private theorem select_ne_head {e e' : α × κ} {es : List (α × κ)} {b : κ} (c : Cut top)
    (hb : b < top) (he : e.2 ≤ b) (he' : b < e'.2) (hc : c.below e'.2 = true) :
    select (c.above b hb) (e :: e' :: es) = some e'.1 := by
  have h1 : (c.above b hb).below e.2 = false := by simp [Cut.above, not_lt.mpr he]
  have h2 : (c.above b hb).below e'.2 = true := by simp [Cut.above, he', hc]
  rw [select_cons, h1, select_cons, h2]
  rfl

private theorem select_above_tail {e : α × κ} {es : List (α × κ)} (c : Cut top)
    (hp : Partition top (e :: es)) (hb : e.2 < top) :
    select (c.above e.2 hb) (e :: es) = select c es := by
  have h1 : (c.above e.2 hb).below e.2 = false := by simp [Cut.above]
  have h2 : ∀ x ∈ es, (c.above e.2 hb).below x.2 = c.below x.2 := by
    intro x hx
    simp [Cut.above, hp.lt_of_mem x hx]
  rw [select_cons, h1]
  clear hp h1
  simp only [Bool.false_eq_true, ↓reduceIte]
  induction es with
  | nil => rfl
  | cons x es ih =>
    rw [select_cons, select_cons, h2 x (by simp), ih fun y hy ↦ h2 y (List.mem_cons_of_mem _ hy)]

/-- An interval map with neighbours apart is determined by its values. -/
theorem ext_of_select {p q : List (α × κ)} (hp : Partition top p) (hq : Partition top q)
    (hpa : Alternating p) (hqa : Alternating q)
    (h : ∀ c : Cut top, select c p = select c q) : p = q := by
  induction p generalizing q with
  | nil => exact hp.elim
  | cons e p ih =>
    obtain ⟨e', q, rfl⟩ := List.exists_cons_of_ne_nil hq.ne_nil
    have hval : e.1 = e'.1 := Option.some.inj (h Cut.lowest)
    -- a head that ends first would be followed by a different value
    have hlt {x y : α × κ} {xs ys : List (α × κ)} (hxp : Partition top (x :: xs))
        (hyp : Partition top (y :: ys)) (hxa : Alternating (x :: xs)) (hxy : x.1 = y.1)
        (hsel : ∀ c : Cut top, select c (x :: xs) = select c (y :: ys)) : ¬ x.2 < y.2 := by
      intro hlt
      have hxt : x.2 < top := lt_of_lt_of_le hlt (hyp.le_top y (by simp))
      obtain ⟨x', xs', rfl, hxx', _⟩ := hxp.tail_of_lt hxt
      have h1 := hsel (Cut.lowest.above x.2 hxt)
      rw [select_ne_head _ hxt le_rfl hxx' rfl, select_cons] at h1
      have h2 : (Cut.lowest.above x.2 hxt).below y.2 = true := by simp [Cut.above, Cut.lowest, hlt]
      rw [h2] at h1
      exact (List.isChain_cons_cons.mp hxa).1 (hxy.trans (Option.some.inj h1).symm)
    have hbnd : e.2 = e'.2 := le_antisymm (not_lt.mp (hlt hq hp hqa hval.symm fun c ↦ (h c).symm))
      (not_lt.mp (hlt hp hq hpa hval h))
    have he : e = e' := Prod.ext hval hbnd
    subst he
    by_cases ht : e.2 < top
    · obtain ⟨a, p', rfl, _, hp'⟩ := hp.tail_of_lt ht
      obtain ⟨b, q', rfl, _, hq'⟩ := hq.tail_of_lt ht
      have htail : ∀ c : Cut top, select c (a :: p') = select c (b :: q') := by
        intro c
        rw [← select_above_tail c hp ht, ← select_above_tail c hq ht]
        exact h _
      rw [ih hp' hq' (List.isChain_cons_cons.mp hpa).2 (List.isChain_cons_cons.mp hqa).2 htail]
    · have hend {xs : List (α × κ)} (hx : Partition top (e :: xs)) : xs = [] := by
        cases xs with
        | nil => rfl
        | cons x xs => exact absurd (lt_of_lt_of_le hx.1 (hx.le_top x (by simp))) ht
      rw [hend hp, hend hq]

/-! ### Bounds in any order -/

/-- The last bound is the top; the others may be in any order. -/
def EndsAt (top : κ) (es : List (α × κ)) : Prop := es.getLast?.map (·.2) = some top

omit [LinearOrder κ] in
theorem endsAt_singleton {e : α × κ} : EndsAt top [e] ↔ e.2 = top := by
  simp [EndsAt]

omit [LinearOrder κ] in
theorem endsAt_cons_cons {e e' : α × κ} {es : List (α × κ)} :
    EndsAt top (e :: e' :: es) ↔ EndsAt top (e' :: es) := by
  simp [EndsAt, List.getLast?_cons_cons]

omit [LinearOrder κ] in
theorem EndsAt.map {es : List (α × κ)} (h : EndsAt top es) (f : α → β) :
    EndsAt top (es.map fun e ↦ (f e.1, e.2)) := by
  rw [EndsAt, List.getLast?_map, Option.map_map]
  exact h

theorem Partition.endsAt {es : List (α × κ)} (h : Partition top es) : EndsAt top es := by
  induction es with
  | nil => exact absurd h id
  | cons e es ih =>
    cases es with
    | nil => exact endsAt_singleton.mpr h
    | cons e' es => exact endsAt_cons_cons.mpr (ih h.2)

/-- The last interval is not skipped. -/
theorem EndsAt.skip {bnd : κ} {es : List (α × κ)} (h : EndsAt top es) (hb : bnd < top) :
    ∃ a p, skip bnd es = a :: p ∧ EndsAt top (a :: p) := by
  cases es with
  | nil => cases h
  | cons e es =>
    by_cases he : e.2 = bnd
    · cases es with
      | nil => exact absurd (he.symm.trans (endsAt_singleton.mp h)) (ne_of_lt hb)
      | cons e' es =>
        refine ⟨e', es, ?_, endsAt_cons_cons.mp h⟩
        rw [IntervalMap.skip, if_pos he]
    · refine ⟨e, es, ?_, h⟩
      rw [IntervalMap.skip, if_neg he]

/-- The merge of two lists that end at the top reaches the top. -/
theorem mergeLoop_endsAt [DecidableEq γ] {f : α → β → Option γ} {P : γ → Prop} {fuel : ℕ}
    {p : List (α × κ)} {q : List (β × κ)} {prev : γ} (hfuel : p.length + q.length ≤ fuel)
    (hp : EndsAt top p) (hq : EndsAt top q)
    (hf : ∀ a ∈ p, ∀ b ∈ q, ∃ n, f a.1 b.1 = some n ∧ P n) (hprev : P prev) :
    ∃ out, mergeLoop f top fuel p q prev = some out ∧ EndsAt top out ∧ ∀ e ∈ out, P e.1 := by
  induction fuel generalizing p q prev with
  | zero =>
    obtain rfl : p = [] := List.length_eq_zero_iff.mp (by omega)
    cases hp
  | succ fuel ih =>
    cases p with
    | nil => cases hp
    | cons e p =>
    cases q with
    | nil => cases hq
    | cons e' q =>
    rw [mergeLoop]
    by_cases hlt : min e.2 e'.2 < top
    · obtain ⟨a, p', hsp, hp'⟩ := hp.skip hlt
      obtain ⟨b, q', hsq, hq'⟩ := hq.skip hlt
      have hsub : ∀ x ∈ a :: p', x ∈ e :: p := fun x hx ↦ mem_skip (hsp ▸ hx)
      have hsub' : ∀ y ∈ b :: q', y ∈ e' :: q := fun y hy ↦ mem_skip (hsq ▸ hy)
      obtain ⟨n, hn, hPn⟩ := hf a (hsub a (by simp)) b (hsub' b (by simp))
      have hlen := length_skip_lt p q e e'
      rw [hsp, hsq] at hlen
      have hrest {prev : γ} (hprev : P prev) :=
        ih (p := a :: p') (q := b :: q') (by omega) hp' hq'
          (fun x hx y hy ↦ hf x (hsub x hx) y (hsub' y hy)) hprev
      simp only [if_pos hlt, hsp, hsq, hn]
      by_cases heq : n = prev
      · rw [if_pos heq]
        exact hrest hprev
      · obtain ⟨out, hout, hend, hall⟩ := hrest hPn
        rw [if_neg heq, hout]
        refine ⟨(prev, min e.2 e'.2) :: out, rfl, ?_, List.forall_mem_cons.mpr ⟨hprev, hall⟩⟩
        cases out with
        | nil => cases hend
        | cons x out => exact endsAt_cons_cons.mpr hend
    · simp only [if_neg hlt]
      exact ⟨[(prev, top)], rfl, endsAt_singleton.mpr rfl, List.forall_mem_singleton.mpr hprev⟩

end IntervalMap

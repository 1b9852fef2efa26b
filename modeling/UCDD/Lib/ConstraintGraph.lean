import Mathlib.Algebra.Order.Group.Defs
import Mathlib.Data.Set.Basic
import Mathlib.Logic.Relation
import Mathlib.Order.Lattice
import Mathlib.Tactic.Set

/-!
# Constraint graphs

Graphs whose edges carry weights in an ordered group. An edge from `u` to `v` of weight `w`
asks of a labelling of the vertices that the label of `v` is at most that of `u` plus `w`. A
labelling that meets every edge excludes cycles of negative weight. A label-correcting search
keeps, for each label it has lowered, a chain of edges that explains it; such a chain back to
its own start is a negative cycle.
-/

namespace ConstraintGraph

variable {V M : Type*} [AddCommGroup M] [LinearOrder M] {E : V → V → M → Prop} {d : V → M}

/-- A walk of at least one edge and its total weight. -/
inductive Walk (E : V → V → M → Prop) : V → V → M → Prop
  | single {u v w} : E u v w → Walk E u v w
  | snoc {u v x w w'} : Walk E u v w → E v x w' → Walk E u x (w + w')

/-- Some closed walk has a negative weight. -/
def NegativeCycle (E : V → V → M → Prop) : Prop := ∃ v w, Walk E v v w ∧ w < 0

/-- A labelling that meets every edge. -/
def Potential (E : V → V → M → Prop) (d : V → M) : Prop := ∀ u v w, E u v w → d v ≤ d u + w

section Ordered

variable [IsOrderedAddMonoid M]

theorem Potential.walk_le (h : Potential E d) {u v : V} {w : M} (hw : Walk E u v w) :
    d v ≤ d u + w := by
  induction hw with
  | single he => exact h _ _ _ he
  | snoc _ he ih =>
    refine le_trans (h _ _ _ he) ?_
    rw [← add_assoc]
    exact add_le_add_left ih _

theorem Potential.not_negativeCycle (h : Potential E d) : ¬ NegativeCycle E := by
  rintro ⟨v, w, hw, hneg⟩
  have : d v + 0 ≤ d v + w := by simpa using h.walk_le hw
  exact absurd hneg (not_lt.mpr (le_of_add_le_add_left this))

end Ordered

/-- An edge from `x` to `y` explains the label of `y` by that of `x`: the label of `y` is not
below what the edge gives. -/
def Follows (E : V → V → M → Prop) (d : V → M) (x y : V) : Prop := ∃ w, E x y w ∧ d x + w ≤ d y

section Ordered

variable [IsOrderedAddMonoid M]

theorem exists_walk_of_follows {u v : V} (h : Relation.TransGen (Follows E d) u v) :
    ∃ w, Walk E u v w ∧ d u + w ≤ d v := by
  induction h with
  | single h =>
    obtain ⟨w, he, hle⟩ := h
    exact ⟨w, .single he, hle⟩
  | tail _ h ih =>
    obtain ⟨w, hw, hle⟩ := ih
    obtain ⟨w', he, hle'⟩ := h
    refine ⟨w + w', hw.snoc he, le_trans ?_ hle'⟩
    rw [← add_assoc]
    exact add_le_add_left hle _

/-- A label that an edge can lower below a label it explains closes a negative cycle. -/
theorem negativeCycle_of_follows {u v : V} {w : M} (h : Relation.TransGen (Follows E d) v u)
    (he : E u v w) (hlt : d u + w < d v) : NegativeCycle E := by
  obtain ⟨w', hw, hle⟩ := exists_walk_of_follows h
  refine ⟨v, w' + w, hw.snoc he, ?_⟩
  have : d v + (w' + w) < d v + 0 := by
    rw [← add_assoc, add_zero]
    exact lt_of_le_of_lt (add_le_add_left hle w) hlt
  exact lt_of_add_lt_add_left this

end Ordered

/-! ### Label correction

A search scans edges in some order and lowers labels. When it lowers the label of `v` it may
forget the vertices whose labels `v` explains: their edges are not scanned until the label of
the vertex is lowered again, which a chain of edges still to be scanned guarantees. -/

/-- Every edge that could lower a label is still to be scanned or leaves a forgotten vertex,
and each forgotten vertex will be reached from an edge still to be scanned. -/
structure Covered (E todo : V → V → M → Prop) (out : Set V) (d : V → M) : Prop where
  todo_le : ∀ {x y w}, todo x y w → E x y w
  settled : ∀ {x y w}, E x y w → todo x y w ∨ x ∈ out ∨ d y ≤ d x + w
  pending : ∀ z ∈ out, ∃ q x w, todo q x w ∧ d q + w < d x ∧ x ∈ out ∧
    Relation.ReflTransGen (fun a b ↦ b ∈ out ∧ Follows E d a b) x z

variable {todo todo' : V → V → M → Prop} {out : Set V}

/-- A search with nothing left to scan has found a potential. -/
theorem Covered.potential (h : Covered E todo out d) (hdone : ∀ x y w, ¬ todo x y w) :
    Potential E d := by
  intro x y w he
  rcases h.settled he with ht | ho | hle
  · exact absurd ht (hdone _ _ _)
  · obtain ⟨q, x', w', ht, -⟩ := h.pending x ho
    exact absurd ht (hdone _ _ _)
  · exact hle

/-- An edge that lowers no label has been scanned. -/
theorem Covered.skip (h : Covered E todo out d) {u v : V} {w : M} (hle : d v ≤ d u + w)
    (hsub : ∀ {x y w'}, todo' x y w' → E x y w')
    (htodo : ∀ {x y w'}, todo x y w' → (x = u ∧ y = v ∧ w' = w) ∨ todo' x y w') :
    Covered E todo' out d where
  todo_le := hsub
  settled he := by
    rcases h.settled he with ht | ho | hle'
    · rcases htodo ht with ⟨rfl, rfl, rfl⟩ | ht'
      · exact Or.inr (Or.inr hle)
      · exact Or.inl ht'
    · exact Or.inr (Or.inl ho)
    · exact Or.inr (Or.inr hle')
  pending z hz := by
    obtain ⟨q, x, w', ht, hlt, hx, hchain⟩ := h.pending z hz
    rcases htodo ht with ⟨rfl, rfl, rfl⟩ | ht'
    · exact absurd hlt (not_lt.mpr hle)
    · exact ⟨q, x, w', ht', hlt, hx, hchain⟩

section Lower

variable [IsOrderedAddMonoid M] [DecidableEq V] {u v : V} {w : M} {forgot : Set V}

/-- Lowering a label keeps every explanation of another label. -/
private theorem Follows.lower {m : M} (hm : m ≤ d v) {a b : V} (h : Follows E d a b)
    (hb : b ≠ v) : Follows E (Function.update d v m) a b := by
  obtain ⟨w, he, hle⟩ := h
  refine ⟨w, he, ?_⟩
  rw [Function.update_of_ne hb]
  by_cases ha : a = v
  · subst ha
    rw [Function.update_self]
    exact le_trans (add_le_add_left hm w) hle
  · rwa [Function.update_of_ne ha]

/-- An edge from `v` that explained a label lowers it once the label of `v` is lowered. -/
private theorem lower_lt {m : M} (hm : m < d v) {b : V} {w : M} (hb : b ≠ v)
    (hle : d v + w ≤ d b) :
    Function.update d v m v + w < Function.update d v m b := by
  rw [Function.update_self, Function.update_of_ne hb]
  exact lt_of_lt_of_le (add_lt_add_left hm w) hle

/-- The label of `v` is lowered by the edge from `u`, the vertices that `v` explains are
forgotten, and the edges of `v` are to be scanned again. -/
theorem Covered.lower (h : Covered E todo out d) (hlt : d u + w < d v) (huv : u ≠ v)
    (hforgot : ∀ z ∈ forgot, Relation.TransGen (fun a b ↦ b ∈ forgot ∧ Follows E d a b) v z)
    (hv : v ∉ forgot) (hsub : ∀ {x y w'}, todo' x y w' → E x y w')
    (hnew : ∀ {y w'}, E v y w' → todo' v y w')
    (htodo : ∀ {x y w'}, todo x y w' → x ∈ forgot ∨ (x = u ∧ y = v ∧ w' = w) ∨ todo' x y w') :
    Covered E todo' ((out ∪ forgot) \ {v}) (Function.update d v (d u + w)) := by
  set d' := Function.update d v (d u + w) with hd'
  have hne {z : V} (hz : z ∈ forgot) : z ≠ v := fun he ↦ hv (he ▸ hz)
  have hle' (z : V) : d' z ≤ d z := by
    by_cases hz : z = v
    · subst hz
      simpa [hd'] using le_of_lt hlt
    · simp [hd', Function.update_of_ne hz]
  -- forgotten vertices are reached from the edges of `v`
  have hreach {z : V} (hz : Relation.TransGen (fun a b ↦ b ∈ (out ∪ forgot) \ {v} ∧
      Follows E d a b) v z) : ∃ q x w', todo' q x w' ∧ d' q + w' < d' x ∧
      x ∈ (out ∪ forgot) \ {v} ∧
      Relation.ReflTransGen (fun a b ↦ b ∈ (out ∪ forgot) \ {v} ∧ Follows E d' a b) x z := by
    obtain ⟨b, ⟨hb, w', he, hle⟩, hchain⟩ := Relation.TransGen.head'_iff.mp hz
    refine ⟨v, b, w', hnew he, lower_lt hlt hb.2 hle, hb, ?_⟩
    exact Relation.ReflTransGen.mono
      (fun a c hac ↦ ⟨hac.1, hac.2.lower (le_of_lt hlt) hac.1.2⟩) _ _ hchain
  have hforgot' {z : V} (hz : z ∈ forgot) : Relation.TransGen
      (fun a b ↦ b ∈ (out ∪ forgot) \ {v} ∧ Follows E d a b) v z :=
    Relation.TransGen.mono (fun a b hab ↦ ⟨⟨Or.inr hab.1, hne hab.1⟩, hab.2⟩) _ _ (hforgot z hz)
  refine ⟨hsub, fun {x y w'} he ↦ ?_, fun z hz ↦ ?_⟩
  · by_cases hx : x = v
    · subst hx
      exact Or.inl (hnew he)
    rcases h.settled he with ht | ho | hle
    · rcases htodo ht with hf | ⟨rfl, rfl, rfl⟩ | ht'
      · exact Or.inr (Or.inl ⟨Or.inr hf, hx⟩)
      · refine Or.inr (Or.inr ?_)
        simp [hd', Function.update_of_ne hx]
      · exact Or.inl ht'
    · exact Or.inr (Or.inl ⟨Or.inl ho, hx⟩)
    · refine Or.inr (Or.inr (le_trans (hle' y) ?_))
      simpa [hd', Function.update_of_ne hx] using hle
  · by_cases hf : z ∈ forgot
    · exact hreach (hforgot' hf)
    have ho : z ∈ out := hz.1.resolve_right hf
    obtain ⟨q, x, w', ht, hlt', hx, hchain⟩ := h.pending z ho
    clear hf ho
    -- along the chain, each vertex other than `v` is still reached
    induction hchain with
    | refl =>
      rcases htodo ht with hq | ⟨rfl, rfl, rfl⟩ | ht'
      · exact hreach ((hforgot' hq).tail ⟨hz, w', h.todo_le ht, le_of_lt hlt'⟩)
      · exact absurd rfl hz.2
      · refine ⟨q, x, w', ht', ?_, hz, .refl⟩
        rw [hd', Function.update_of_ne hz.2]
        exact lt_of_le_of_lt (add_le_add_left (hle' q) w') hlt'
    | @tail y z _ hyz ih =>
      by_cases hy : y = v
      · subst hy
        exact hreach (.single ⟨hz, hyz.2⟩)
      · have hyo : y ∈ out := by
          rename_i hxy
          rcases Relation.ReflTransGen.cases_tail hxy with rfl | ⟨_, _, hy'⟩
          · exact hx
          · exact hy'.1
        obtain ⟨q', x', w'', ht', hlt'', hx', hchain'⟩ := ih ⟨Or.inl hyo, hy⟩
        exact ⟨q', x', w'', ht', hlt'', hx',
          hchain'.tail ⟨hz, hyz.2.lower (le_of_lt hlt) hz.2⟩⟩

end Lower

end ConstraintGraph

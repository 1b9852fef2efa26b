import UCDD.Reduce.Tarjan

/-!
# Runs of the incremental constraint graph

Any sequence of `cdd_tarjan_push`, `cdd_tarjan_pop` and `cdd_tarjan_consistent` that meets the
assertions of `tarjan.c`. Distances and queue carry over from call to call, also from a call that
has found a cycle.
-/

namespace UCDD

open ConstraintGraph

/-- A call on a graph. -/
inductive TarjanCall where
  | push (i j : ℕ) (value : ℤ)
  | pop (i : ℕ)
  | consistent

/-- The assertions of the calls: the edge is no loop and is not there yet, and there is an edge to
take away. -/
def Tarjan.Accepts (graph : Tarjan) : TarjanCall → Prop
  | .push i j _ => i < graph.dim ∧ j < graph.dim ∧ i ≠ j ∧ ∀ e ∈ graph.edges i, e.1 ≠ j
  | .pop i => graph.edges i ≠ []
  | .consistent => True

/-- The graph after a call. -/
def Tarjan.call (graph : Tarjan) : TarjanCall → Option Tarjan
  | .push i j value => some (cddTarjanPush graph i j value)
  | .pop i => some (cddTarjanPop graph i)
  | .consistent => (cddTarjanConsistent graph).map (·.2)

/-- The graph after `cdd_tarjan_init` and the calls. -/
inductive TarjanRun (dim : ℕ) : List TarjanCall → Tarjan → Prop
  | init : TarjanRun dim [] (cddTarjanInit dim)
  | call {calls graph c graph'} : TarjanRun dim calls graph → graph.Accepts c →
      graph.call c = some graph' → TarjanRun dim (calls ++ [c]) graph'

/-- The edges that the calls have pushed and not popped, by their source: a call takes away the last
one of a source. -/
def present (edges : ℕ → List (ℕ × ℤ)) : TarjanCall → ℕ → List (ℕ × ℤ)
  | .push i j value => Function.update edges i (edges i ++ [(j, value)])
  | .pop i => Function.update edges i (edges i).dropLast
  | .consistent => edges

/-- The bounds along a walk of at least one edge. -/
inductive BoundWalk (edges : ℕ → List (ℕ × ℤ)) : ℕ → ℕ → List ℤ → Prop
  | single {u v b} : (v, b) ∈ edges u → BoundWalk edges u v [b]
  | snoc {u v w bs b} : BoundWalk edges u v bs → (w, b) ∈ edges v → BoundWalk edges u w (bs ++ [b])

/-- Some cycle has bounds that sum to a negative value, or to zero with a strict one among them. -/
def Inconsistent (edges : ℕ → List (ℕ × ℤ)) : Prop :=
  ∃ v bs, BoundWalk edges v v bs ∧ ((bs.map bndGetLimit).sum < 0 ∨
    ((bs.map bndGetLimit).sum = 0 ∧ ∃ b ∈ bs, bndIsUpperStrict b = true))

section

variable {dim : ℕ} {calls : List TarjanCall} {graph : Tarjan} {edges : ℕ → List (ℕ × ℤ)}

theorem walk_of_boundWalk {u v : ℕ} {bs : List ℤ} (h : BoundWalk graph.edges u v bs) :
    Walk graph.Edge u v (bs.map weight).sum := by
  induction h with
  | single he =>
    rw [List.map_singleton, List.sum_singleton]
    exact .single ⟨_, he, rfl⟩
  | snoc _ he ih =>
    rw [List.map_append, List.sum_append, List.map_singleton, List.sum_singleton]
    exact ih.snoc ⟨_, he, rfl⟩

theorem exists_boundWalk {u v : ℕ} {w : ℤ ×ₗ ℤ} (h : Walk graph.Edge u v w) :
    ∃ bs, BoundWalk graph.edges u v bs ∧ w = (bs.map weight).sum := by
  induction h with
  | single he =>
    obtain ⟨b, hb, rfl⟩ := he
    exact ⟨[b], .single hb, by simp⟩
  | snoc _ he ih =>
    obtain ⟨bs, hbs, rfl⟩ := ih
    obtain ⟨b, hb, rfl⟩ := he
    exact ⟨bs ++ [b], hbs.snoc hb, by simp⟩

/-- The weight of a walk: the sum of the limits and, negated, the number of strict bounds. -/
theorem sum_weight (bs : List ℤ) : (bs.map weight).sum =
    toLex ((bs.map bndGetLimit).sum, -((bs.countP (bndIsUpperStrict ·) : ℕ) : ℤ)) := by
  induction bs with
  | nil => rfl
  | cons b bs ih =>
    rw [List.map_cons, List.sum_cons, ih, weight, ← toLex_add, Prod.mk_add_mk, List.map_cons,
      List.sum_cons, List.countP_cons]
    congr 2
    cases bndIsUpperStrict b <;> simp

theorem sum_weight_neg_iff (bs : List ℤ) : (bs.map weight).sum < 0 ↔
    (bs.map bndGetLimit).sum < 0 ∨
      ((bs.map bndGetLimit).sum = 0 ∧ ∃ b ∈ bs, bndIsUpperStrict b = true) := by
  have hzero : (0 : ℤ ×ₗ ℤ) = toLex (0, 0) := rfl
  rw [sum_weight, hzero, Prod.Lex.toLex_lt_toLex, neg_lt_zero, Nat.cast_pos, List.countP_pos_iff]

theorem inconsistent_iff : Inconsistent graph.edges ↔ NegativeCycle graph.Edge := by
  constructor
  · intro h
    obtain ⟨v, bs, hbs, hsum⟩ := h
    exact ⟨v, _, walk_of_boundWalk hbs, (sum_weight_neg_iff bs).mpr hsum⟩
  · intro h
    obtain ⟨v, w, hw, hneg⟩ := h
    obtain ⟨bs, hbs, rfl⟩ := exists_boundWalk hw
    exact ⟨v, bs, hbs, (sum_weight_neg_iff bs).mp hneg⟩

/-- What one call preserves. -/
theorem Tarjan.Valid.call (h : graph.Valid) (hedges : graph.edges = edges) {c : TarjanCall}
    (hc : graph.Accepts c) {graph' : Tarjan} (hcall : graph.call c = some graph') :
    graph'.Valid ∧ graph'.dim = graph.dim ∧ graph'.edges = present edges c := by
  subst hedges
  cases c with
  | push i j value =>
    cases hcall
    obtain ⟨hi, hj, hij, -⟩ := hc
    exact ⟨cddTarjanPush_valid h value hi hj hij, rfl, rfl⟩
  | pop i =>
    cases hcall
    exact ⟨cddTarjanPop_valid h i, rfl, rfl⟩
  | consistent =>
    obtain ⟨b, graph'', hb, hvalid, hkept, hdim, -⟩ := cddTarjanConsistent_spec h
    rw [Tarjan.call, hb] at hcall
    cases hcall
    exact ⟨hvalid, hdim, hkept⟩

/-- What a run preserves. -/
theorem TarjanRun.valid (h : TarjanRun dim calls graph) :
    graph.Valid ∧ graph.dim = dim ∧ graph.edges = calls.foldl present fun _ ↦ [] := by
  induction h with
  | init => exact ⟨cddTarjanInit_valid dim, rfl, rfl⟩
  | call _ hc hcall ih =>
    obtain ⟨hvalid, hdim, hedges⟩ := ih
    obtain ⟨hvalid', hdim', hedges'⟩ := hvalid.call hedges hc hcall
    refine ⟨hvalid', hdim'.trans hdim, ?_⟩
    rw [hedges', List.foldl_append]
    rfl

/-- After any calls that meet the assertions, every vertex with an edge that improves a distance is
queued, and `cdd_tarjan_consistent` returns and tells whether the edges present are consistent. -/
theorem cddTarjanConsistent_correct (dim : ℕ) (calls : List TarjanCall) (graph : Tarjan)
    (h : TarjanRun dim calls graph) :
    (∀ u, ∀ e ∈ calls.foldl present (fun _ ↦ []) u,
      ((graph.dist u).add e.2).less (graph.dist e.1) = true → u ∈ graph.fifo) ∧
    ∃ b graph', cddTarjanConsistent graph = some (b, graph') ∧
      (b = false ↔ Inconsistent (calls.foldl present fun _ ↦ [])) := by
  obtain ⟨hvalid, -, hedges⟩ := h.valid
  rw [← hedges]
  obtain ⟨b, graph', hb, -⟩ := cddTarjanConsistent_spec hvalid
  refine ⟨hvalid.queued, b, graph', hb, ?_⟩
  rw [inconsistent_iff, ← Bool.not_eq_true, cddTarjanConsistent_iff hvalid hb, not_not]

end

/-- Two opposite edges of a strict cycle, after a check of the first one. -/
theorem cddTarjanConsistent_correct_sample : ∃ graph,
    TarjanRun 2 [.push 0 1 4, .consistent, .push 1 0 (-4)] graph ∧
    (∀ u, ∀ e ∈ [.push 0 1 4, .consistent, .push 1 0 (-4)].foldl present (fun _ ↦ []) u,
      ((graph.dist u).add e.2).less (graph.dist e.1) = true → u ∈ graph.fifo) ∧
    ∃ b graph', cddTarjanConsistent graph = some (b, graph') ∧
      (b = false ↔ Inconsistent ([.push 0 1 4, .consistent, .push 1 0 (-4)].foldl present
        fun _ ↦ [])) := by
  have h0 : TarjanRun 2 [] (cddTarjanInit 2) := .init
  have h1 : TarjanRun 2 [.push 0 1 4] (cddTarjanPush (cddTarjanInit 2) 0 1 4) :=
    h0.call ⟨by decide, by decide, by decide, by decide⟩ rfl
  obtain ⟨b, graph, hb, -⟩ := cddTarjanConsistent_spec h1.valid.1
  have h2 : TarjanRun 2 [.push 0 1 4, .consistent] graph :=
    h1.call trivial (by rw [Tarjan.call, hb]; rfl)
  have hedges : graph.edges 1 = [] := by
    rw [h2.valid.2.2]
    rfl
  have h3 : TarjanRun 2 [.push 0 1 4, .consistent, .push 1 0 (-4)] (cddTarjanPush graph 1 0 (-4)) := by
    apply h2.call _ rfl
    rw [Tarjan.Accepts, h2.valid.2.1, hedges]
    exact ⟨by decide, by decide, by decide, nofun⟩
  exact ⟨_, h3, cddTarjanConsistent_correct 2 _ _ h3⟩

end UCDD

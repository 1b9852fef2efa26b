import Mathlib.Algebra.Order.Monoid.Prod
import Mathlib.Data.List.Perm.Basic
import Mathlib.Data.List.TakeWhile
import Mathlib.Data.Int.Order.Basic
import Mathlib.Tactic.Tauto
import UCDD.Diagram.Bound
import UCDD.Lib.ConstraintGraph
import UCDD.Lib.PreorderForest

/-!
# The incremental constraint graph

`tarjan.c`: Bellman–Ford with a queue and subtree disassembly, kept between calls so that
edges can be pushed and popped. Distances are integers; arrays are functions, and the spanning
forest is its vertices in preorder with their depths.
-/

namespace UCDD

open ConstraintGraph PreorderForest

/-- `struct distance` of `bellmanford.h:44–48`: a limit and the number of strict bounds. -/
structure Distance where
  value : ℤ
  strictness : ℤ
  deriving DecidableEq, Repr

/-- `add`, `tarjan.c:53–61`. -/
def Distance.add (i : Distance) (e : ℤ) : Distance :=
  ⟨i.value + bndGetLimit e, i.strictness + bif bndIsUpperStrict e then 1 else 0⟩

/-- `less`, `tarjan.c:63–69`. -/
def Distance.less (i j : Distance) : Bool :=
  i.value < j.value || (i.value == j.value && i.strictness > j.strictness)

/-- `struct tarjan`. The edges of a vertex are the first `count` slots of its row; a vertex is
marked in `queued` when it is in `fifo`. -/
structure Tarjan where
  dim : ℕ
  dist : ℕ → Distance
  edges : ℕ → List (ℕ × ℤ)
  fifo : List ℕ

/-- `cdd_tarjan_init`. -/
def cddTarjanInit (dim : ℕ) : Tarjan := ⟨dim, fun _ ↦ ⟨0, 0⟩, fun _ ↦ [], []⟩

/-- `cdd_tarjan_push`: add the edge, and queue its source if the edge improves a distance. -/
def cddTarjanPush (graph : Tarjan) (i j : ℕ) (value : ℤ) : Tarjan :=
  { graph with
    edges := Function.update graph.edges i (graph.edges i ++ [(j, value)])
    fifo :=
      if i ∉ graph.fifo ∧ ((graph.dist i).add value).less (graph.dist j) then graph.fifo ++ [i]
      else graph.fifo }

/-- `cdd_tarjan_pop`: drop the last edge of `i`. -/
def cddTarjanPop (graph : Tarjan) (i : ℕ) : Tarjan :=
  { graph with edges := Function.update graph.edges i (graph.edges i).dropLast }

/-- The local state of `cdd_tarjan_consistent`. -/
structure Scan where
  dist : ℕ → Distance
  preorder : List (ℕ × ℕ)
  queue : List ℕ

/-- `disassemble`, `tarjan.c:146–181`: cut the subtree below `root` into single vertices and
take them off the queue, unless it contains `node`. -/
def disassemble (root node : ℕ) (preorder : List (ℕ × ℕ)) (queue : List ℕ) :
    Option (List (ℕ × ℕ) × List ℕ) :=
  match preorder.dropWhile (·.1 ≠ root) with
  | [] => some (preorder, queue)
  | r :: after =>
    let subtree := after.takeWhile (r.2 < ·.2)
    if node ∈ subtree.map (·.1) then none
    else some
      (preorder.takeWhile (·.1 ≠ root) ++ r :: after.dropWhile (r.2 < ·.2) ++
        subtree.map fun e ↦ (e.1, 0),
      queue.filter (· ∉ subtree.map (·.1)))

/-- Insert `child` right after `parent`, one deeper. -/
def insertAfter (parent child : ℕ) : List (ℕ × ℕ) → List (ℕ × ℕ)
  | [] => []
  | e :: t => if e.1 = parent then e :: (child, e.2 + 1) :: t else e :: insertAfter parent child t

/-- `link`, `tarjan.c:192–207`. -/
def link (parent child : ℕ) (preorder : List (ℕ × ℕ)) : List (ℕ × ℕ) :=
  insertAfter parent child (preorder.filter (·.1 ≠ child))

/-- The scan of the edges of `u`, `tarjan.c:286–334`. An inconsistency leaves the distances
reached. -/
def scanEdges (u : ℕ) : List (ℕ × ℤ) → Scan → Except (ℕ → Distance) Scan
  | [], s => .ok s
  | (v, value) :: edge, s =>
    let sum := (s.dist u).add value
    if sum.less (s.dist v) then
      let dist := Function.update s.dist v sum
      match disassemble v u s.preorder s.queue with
      | none => .error dist
      | some (preorder, queue) =>
        scanEdges u edge ⟨dist, link u v preorder, if v ∈ queue then queue else queue ++ [v]⟩
    else scanEdges u edge s

/-- The loop over the queue, `tarjan.c:277–336`. -/
def scanQueue (edges : ℕ → List (ℕ × ℤ)) : ℕ → Scan → Option (Except (ℕ → Distance) Scan)
  | 0, _ => none
  | fuel + 1, s =>
    match s.queue with
    | [] => some (.ok s)
    | u :: queue =>
      match scanEdges u (edges u) { s with queue } with
      | .error dist => some (.error dist)
      | .ok s => scanQueue edges fuel s

/-- `populateQueue`, `tarjan.c:213–233`. -/
def populateQueue (graph : Tarjan) : Tarjan :=
  { graph with
    fifo := (List.range graph.dim).filter fun u ↦
      (graph.edges u).any fun e ↦ ((graph.dist u).add e.2).less (graph.dist e.1) }

/-- `cdd_tarjan_consistent`. A vertex is scanned at most once for each depth it can have. -/
def cddTarjanConsistent (graph : Tarjan) : Option (Bool × Tarjan) :=
  let s : Scan := ⟨graph.dist, (List.range graph.dim).map fun i ↦ (i, 0), graph.fifo⟩
  match scanQueue graph.edges (graph.dim * graph.dim + 1) s with
  | none => none
  | some (.error dist) => some (false, populateQueue { graph with dist })
  | some (.ok s) => some (true, { graph with dist := s.dist, fifo := s.queue })

/-! ### Distances as an ordered group -/

/-- A distance in the order of `less`: more strict bounds are less. -/
def Distance.label (i : Distance) : ℤ ×ₗ ℤ := toLex (i.value, -i.strictness)

/-- The weight of a bound. -/
def weight (e : ℤ) : ℤ ×ₗ ℤ := toLex (bndGetLimit e, -(bif bndIsUpperStrict e then 1 else 0))

@[simp] theorem Distance.label_add (i : Distance) (e : ℤ) :
    (i.add e).label = i.label + weight e := by
  rw [label, label, weight, add, ← toLex_add, Prod.mk_add_mk, neg_add]

@[simp] theorem Distance.less_iff (i j : Distance) : i.less j = true ↔ i.label < j.label := by
  simp [less, label, Prod.Lex.toLex_lt_toLex]

/-- The edges of a graph with the weights of their bounds. -/
def Tarjan.Edge (graph : Tarjan) (u v : ℕ) (w : ℤ ×ₗ ℤ) : Prop :=
  ∃ b, (v, b) ∈ graph.edges u ∧ w = weight b

/-- What holds of a graph between the calls: edges join different vertices, and every vertex
with an edge that improves a distance is queued. -/
structure Tarjan.Valid (graph : Tarjan) : Prop where
  edge : ∀ u, ∀ e ∈ graph.edges u, u < graph.dim ∧ e.1 < graph.dim ∧ u ≠ e.1
  nodup : graph.fifo.Nodup
  fifo_lt : ∀ u ∈ graph.fifo, u < graph.dim
  queued : ∀ u, ∀ e ∈ graph.edges u, ((graph.dist u).add e.2).less (graph.dist e.1) = true →
    u ∈ graph.fifo

theorem cddTarjanInit_valid (dim : ℕ) : (cddTarjanInit dim).Valid where
  edge := by simp [cddTarjanInit]
  nodup := List.nodup_nil
  fifo_lt := by simp [cddTarjanInit]
  queued := by simp [cddTarjanInit]

theorem cddTarjanPush_edges (graph : Tarjan) (i j : ℕ) (value : ℤ) (u : ℕ) (e : ℕ × ℤ) :
    e ∈ (cddTarjanPush graph i j value).edges u ↔
      e ∈ graph.edges u ∨ (u = i ∧ e = (j, value)) := by
  by_cases hu : u = i
  · subst hu
    simp [cddTarjanPush]
  · simp [cddTarjanPush, hu]

theorem cddTarjanPush_valid {graph : Tarjan} (h : graph.Valid) {i j : ℕ} (value : ℤ)
    (hi : i < graph.dim) (hj : j < graph.dim) (hij : i ≠ j) :
    (cddTarjanPush graph i j value).Valid where
  edge u e he := by
    rcases (cddTarjanPush_edges ..).mp he with he | ⟨rfl, rfl⟩
    · exact h.edge u e he
    · exact ⟨hi, hj, hij⟩
  nodup := by
    simp only [cddTarjanPush]
    split
    · next hn => exact List.nodup_append.mpr ⟨h.nodup, List.nodup_singleton i, by
        rintro a ha b hb rfl
        obtain rfl := List.mem_singleton.mp hb
        exact hn.1 ha⟩
    · exact h.nodup
  fifo_lt u hu := by
    simp only [cddTarjanPush] at hu ⊢
    split at hu
    · rcases List.mem_append.mp hu with hu | hu
      · exact h.fifo_lt u hu
      · obtain rfl := List.mem_singleton.mp hu
        exact hi
    · exact h.fifo_lt u hu
  queued u e he hless := by
    have hsub : u ∈ graph.fifo → u ∈ (cddTarjanPush graph i j value).fifo := by
      intro hu
      simp only [cddTarjanPush]
      split
      · exact List.mem_append_left _ hu
      · exact hu
    rcases (cddTarjanPush_edges ..).mp he with he | ⟨rfl, rfl⟩
    · exact hsub (h.queued u e he hless)
    · by_cases hu : u ∈ graph.fifo
      · exact hsub hu
      · have hif : u ∉ graph.fifo ∧ ((graph.dist u).add value).less (graph.dist j) := ⟨hu, hless⟩
        simp only [cddTarjanPush, if_pos hif]
        exact List.mem_append_right _ (by simp)

theorem cddTarjanPop_valid {graph : Tarjan} (h : graph.Valid) (i : ℕ) :
    (cddTarjanPop graph i).Valid := by
  have hsub : ∀ u, ∀ e ∈ (cddTarjanPop graph i).edges u, e ∈ graph.edges u := by
    intro u e he
    by_cases hu : u = i
    · subst hu
      simp only [cddTarjanPop, Function.update_self] at he
      exact List.dropLast_subset _ he
    · simpa [cddTarjanPop, Function.update_of_ne hu] using he
  exact ⟨fun u e he ↦ h.edge u e (hsub u e he), h.nodup, h.fifo_lt,
    fun u e he ↦ h.queued u e (hsub u e he)⟩

/-! ### The spanning forest -/

/-- The subtree below a vertex that `disassemble` cuts. -/
theorem disassemble_spec {v u : ℕ} {t : List (ℕ × ℕ)} (queue : List ℕ)
    (hv : v ∈ t.map (·.1)) :
    ∃ pre d sub rest, t = pre ++ (v, d) :: (sub ++ rest) ∧ (∀ e ∈ sub, d < e.2) ∧
      (∀ e ∈ rest.head?, e.2 ≤ d) ∧
      disassemble v u t queue =
        if u ∈ sub.map (·.1) then none
        else some (pre ++ (v, d) :: rest ++ sub.map fun e ↦ (e.1, 0),
          queue.filter (· ∉ sub.map (·.1))) := by
  have hsplit := List.takeWhile_append_dropWhile (p := (·.1 ≠ v)) (l := t)
  cases hdrop : t.dropWhile (·.1 ≠ v) with
  | nil =>
    obtain ⟨e, he, rfl⟩ := List.mem_map.mp hv
    have := List.dropWhile_eq_nil_iff.mp hdrop e he
    simp at this
  | cons r after =>
    have hr : r.1 = v := by
      have := List.head?_dropWhile_not (p := (·.1 ≠ v)) t
      rw [hdrop] at this
      simpa using this
    obtain ⟨v', d⟩ := r
    obtain rfl : v' = v := hr
    refine ⟨t.takeWhile (·.1 ≠ v'), d, after.takeWhile (d < ·.2), after.dropWhile (d < ·.2),
      ?_, ?_, ?_, ?_⟩
    · rw [List.takeWhile_append_dropWhile, ← hdrop, hsplit]
    · intro e he
      simpa using List.mem_takeWhile_imp he
    · intro e he
      have := List.head?_dropWhile_not (p := (d < ·.2)) after
      rw [Option.mem_def.mp he] at this
      simpa using this
    · rw [disassemble, hdrop]

theorem insertAfter_spec {u v : ℕ} {t : List (ℕ × ℕ)} (hu : u ∈ t.map (·.1)) :
    ∃ pre d post, t = pre ++ (u, d) :: post ∧
      insertAfter u v t = pre ++ (u, d) :: (v, d + 1) :: post := by
  induction t with
  | nil => simp at hu
  | cons e t ih =>
    rw [insertAfter]
    by_cases he : e.1 = u
    · obtain ⟨u', d⟩ := e
      obtain rfl : u' = u := he
      exact ⟨[], d, t, rfl, by simp⟩
    · have hu' : u ∈ t.map (·.1) := by
        rcases List.mem_cons.mp hu with rfl | hu
        · exact absurd rfl he
        · exact hu
      obtain ⟨pre, d, post, rfl, hins⟩ := ih hu'
      exact ⟨e :: pre, d, post, rfl, by rw [if_neg he, hins]; rfl⟩

/-- What cutting the subtree `sub` below `v` and linking `v` below `u` does to a forest. -/
structure Relinked (R R' : ℕ → ℕ → Prop) (u v : ℕ) (sub : List ℕ) (t t' : List (ℕ × ℕ)) :
    Prop where
  linked : Linked R' [] t'
  perm : (t'.map (·.1)).Perm (t.map (·.1))
  reach : ∀ z ∈ sub, Relation.TransGen (fun a b ↦ b ∈ sub ∧ R a b) v z
  not_mem : v ∉ sub ∧ u ∉ sub
  keep : ∀ x n, (x, n) ∈ t → x ≠ v → x ∉ sub → (x, n) ∈ t'
  depth : ∀ n, (u, n) ∈ t → (v, n + 1) ∈ t'

/-- Lowering the label of `v`: either `u` lies below `v`, or the subtree below `v` is cut and
`v` becomes a child of `u`. -/
theorem relink_spec {R R' : ℕ → ℕ → Prop} {u v : ℕ} {t : List (ℕ × ℕ)} (queue : List ℕ)
    (hnodup : (t.map (·.1)).Nodup) (hu : u ∈ t.map (·.1)) (hv : v ∈ t.map (·.1)) (huv : u ≠ v)
    (hl : Linked R [] t) (hR : ∀ x y, x ≠ v → y ≠ v → R x y → R' x y) (hR' : R' u v) :
    (disassemble v u t queue = none ∧ Relation.TransGen R v u) ∨
    ∃ sub t₁, disassemble v u t queue = some (t₁, queue.filter (· ∉ sub)) ∧
      Relinked R R' u v sub t (link u v t₁) := by
  obtain ⟨pre, d, sub, rest, rfl, hsub, hrest, hdis⟩ := disassemble_spec (u := u) queue hv
  -- the path to `v` has as many vertices as `v` is deep
  have hreach : ∀ z ∈ sub.map (·.1),
      Relation.TransGen (fun a b ↦ b ∈ sub.map (·.1) ∧ R a b) v z := by
    obtain ⟨-, hle, -, htail⟩ := linked_append.mp hl
    have hlen := List.length_take_of_le hle
    have := ((linked_append.mp htail).1).reach (by simpa [hlen] using hsub)
    simpa using this
  rw [hdis]
  by_cases hus : u ∈ sub.map (·.1)
  · refine Or.inl ⟨if_pos hus, ?_⟩
    exact Relation.TransGen.mono (fun a b h ↦ h.2) _ _ (hreach u hus)
  refine Or.inr ⟨sub.map (·.1), _, if_neg hus, ?_⟩
  have hinj := List.inj_on_of_nodup_map hnodup
  simp only [List.map_append, List.map_cons, List.nodup_append, List.nodup_cons] at hnodup
  obtain ⟨hnpre, ⟨hvr, hnsr⟩, hdisj⟩ := hnodup
  have hvpre : v ∉ pre.map (·.1) := fun h ↦ hdisj v h v (by simp) rfl
  have hvsub : v ∉ sub.map (·.1) := fun h ↦ hvr (List.mem_append_left _ h)
  have hvrest : v ∉ rest.map (·.1) := fun h ↦ hvr (List.mem_append_right _ h)
  have hfilter {l : List (ℕ × ℕ)} (h : v ∉ l.map (·.1)) : l.filter (·.1 ≠ v) = l := by
    refine List.filter_eq_self.mpr fun e he ↦ ?_
    simpa using fun hev : e.1 = v ↦ h (hev ▸ List.mem_map_of_mem he)
  set roots : List (ℕ × ℕ) := sub.map fun e ↦ (e.1, 0) with hroots
  have hrmap : roots.map (·.1) = sub.map (·.1) := by simp [hroots]
  have hzero : ∀ e ∈ roots, e.2 = 0 := List.forall_mem_map.mpr fun e he ↦ rfl
  have hcut : (pre ++ (v, d) :: rest ++ roots).filter (·.1 ≠ v) = pre ++ rest ++ roots := by
    rw [List.filter_append, List.filter_append, List.filter_cons_of_neg (by simp), hfilter hvpre,
      hfilter hvrest,
      hfilter (hrmap ▸ hvsub)]
  have hu' : u ∈ (pre ++ rest ++ roots).map (·.1) := by
    simp only [List.map_append, List.map_cons, List.mem_append, List.mem_cons] at hu ⊢
    rcases hu with h | h | h | h
    · exact Or.inl (Or.inl h)
    · exact absurd h huv
    · exact absurd h hus
    · exact Or.inl (Or.inr h)
  obtain ⟨pre', n, post', hsplit, hins⟩ := insertAfter_spec (v := v) hu'
  have hlink : link u v (pre ++ (v, d) :: rest ++ roots) =
      pre' ++ (u, n) :: (v, n + 1) :: post' := by rw [link, hcut, hins]
  have hlinked : Linked R' [] (pre' ++ (u, n) :: post') := by
    rw [← hsplit]
    refine Linked.append_roots ((hl.cut hsub hrest).congr fun x y hx hy ↦ ?_) hzero
    have hne {z : ℕ} (hz : z ∈ (pre ++ rest).map (·.1)) : z ≠ v := by
      rintro rfl
      rw [List.map_append] at hz
      exact (List.mem_append.mp hz).elim hvpre hvrest
    exact hR x y (hne (hx.resolve_left (by simp))) (hne hy)
  rw [hlink]
  refine ⟨hlinked.insert hR', ?_, hreach, ⟨hvsub, hus⟩, ?_, ?_⟩
  · have hmap := congrArg (List.map (·.1)) hsplit
    refine List.perm_iff_count.mpr fun a ↦ ?_
    have hcount := congrArg (List.count a) hmap
    simp only [List.map_append, List.map_cons, hrmap, List.count_append,
      List.count_cons] at hcount ⊢
    omega
  · intro x m hx hxv hxs
    have hx' : (x, m) ∈ pre ++ rest ++ roots := by
      simp only [List.mem_append, List.mem_cons, Prod.mk.injEq] at hx ⊢
      rcases hx with h | h | h | h
      · exact Or.inl (Or.inl h)
      · exact absurd h.1 hxv
      · exact absurd (List.mem_map_of_mem h) hxs
      · exact Or.inl (Or.inr h)
    rw [hsplit] at hx'
    rcases List.mem_append.mp hx' with h | h
    · exact List.mem_append_left _ h
    · refine List.mem_append_right _ ?_
      rcases List.mem_cons.mp h with h | h
      · exact h ▸ List.mem_cons_self
      · exact List.mem_cons_of_mem _ (List.mem_cons_of_mem _ h)
  · intro m hm
    have hn : (u, n) ∈ pre ++ rest ++ roots := hsplit ▸ by simp
    have hn' : (u, n) ∈ pre ++ (v, d) :: (sub ++ rest) := by
      rcases List.mem_append.mp hn with h | h
      · simp only [List.mem_append, List.mem_cons] at h ⊢
        tauto
      · exact absurd (hrmap ▸ List.mem_map_of_mem h) hus
    obtain rfl : m = n := congrArg Prod.snd (hinj hm hn' rfl)
    exact List.mem_append_right _ (by simp)

/-! ### The scan -/

section Scan

variable {graph : Tarjan}

/-- The labels of the vertices. -/
def Scan.label (s : Scan) (x : ℕ) : ℤ ×ₗ ℤ := (s.dist x).label

private theorem less_iff_label (s : Scan) (u v : ℕ) (value : ℤ) :
    ((s.dist u).add value).less (s.dist v) = true ↔ s.label u + weight value < s.label v := by
  rw [Distance.less_iff, Distance.label_add]
  rfl

/-- The edges still to be scanned: those of queued vertices, and the edges `rem` left of the
current vertex. -/
def Scan.todo (graph : Tarjan) (s : Scan) (cur : ℕ) (rem : List (ℕ × ℤ)) (x y : ℕ)
    (w : ℤ ×ₗ ℤ) : Prop :=
  ∃ b, w = weight b ∧ (y, b) ∈ graph.edges x ∧ (x ∈ s.queue ∨ (x = cur ∧ (y, b) ∈ rem))

/-- The invariant of the scan. -/
structure Scanning (graph : Tarjan) (s : Scan) (cur : ℕ) (rem : List (ℕ × ℤ)) : Prop where
  covered : ∃ out, Covered graph.Edge (s.todo graph cur rem) out s.label
  linked : Linked (Follows graph.Edge s.label) [] s.preorder
  perm : (s.preorder.map (·.1)).Perm (List.range graph.dim)
  nodup : s.queue.Nodup
  lt : ∀ u ∈ s.queue, u < graph.dim

/-- The vertex is at least `k` deep. -/
def Deep (t : List (ℕ × ℕ)) (k x : ℕ) : Prop := ∃ n, (x, n) ∈ t ∧ k ≤ n

/-- The queue holds the rest `now` of pass `k`, then the vertices `next` of the next pass. -/
structure Pass (s : Scan) (k : ℕ) (now next : List ℕ) : Prop where
  queue : s.queue = now ++ next
  now : ∀ x ∈ now, Deep s.preorder k x
  next : ∀ x ∈ next, Deep s.preorder (k + 1) x

theorem Scanning.mem_preorder {s : Scan} {cur : ℕ} {rem : List (ℕ × ℤ)}
    (h : Scanning graph s cur rem) {x : ℕ} (hx : x < graph.dim) : x ∈ s.preorder.map (·.1) :=
  h.perm.mem_iff.mpr (List.mem_range.mpr hx)

theorem Scanning.depth_lt {s : Scan} {cur : ℕ} {rem : List (ℕ × ℤ)}
    (h : Scanning graph s cur rem) {k x : ℕ} (hx : Deep s.preorder k x) : k < graph.dim := by
  obtain ⟨n, hn, hk⟩ := hx
  have hlt := h.linked.depth_lt _ hn
  have hlen : s.preorder.length = graph.dim := by simpa using h.perm.length_eq
  simp only [List.length_nil] at hlt
  omega

private theorem label_update (s : Scan) (v : ℕ) (m : Distance) :
    (fun x ↦ (Function.update s.dist v m x).label) = Function.update s.label v m.label := by
  funext x
  by_cases hx : x = v
  · subst hx
    simp
  · simp [Function.update_of_ne hx, Scan.label]

/-- An edge that improves no distance is done. -/
private theorem scanning_skip {s : Scan} {u v : ℕ} {value : ℤ} {rem : List (ℕ × ℤ)}
    (h : Scanning graph s u ((v, value) :: rem))
    (hless : ((s.dist u).add value).less (s.dist v) = false) : Scanning graph s u rem := by
  obtain ⟨out, hcov⟩ := h.covered
  have hle : s.label v ≤ s.label u + weight value := by
    rw [← not_lt, ← less_iff_label, hless]
    simp
  refine { h with covered := ⟨out, hcov.skip hle ?_ ?_⟩ }
  · rintro x y w ⟨b, rfl, hb, -⟩
    exact ⟨b, hb, rfl⟩
  · rintro x y w ⟨b, rfl, hb, hq | ⟨rfl, hrem⟩⟩
    · exact Or.inr ⟨b, rfl, hb, Or.inl hq⟩
    · rcases List.mem_cons.mp hrem with heq | hrem
      · cases heq
        exact Or.inl ⟨rfl, rfl, rfl⟩
      · exact Or.inr ⟨b, rfl, hb, Or.inr ⟨rfl, hrem⟩⟩

/-- The state after an edge from `u` has improved the distance of `v`. -/
private def lowered (s : Scan) (u v : ℕ) (value : ℤ) (t₁ : List (ℕ × ℕ)) (queue : List ℕ) : Scan :=
  ⟨Function.update s.dist v ((s.dist u).add value), link u v t₁,
    if v ∈ queue then queue else queue ++ [v]⟩

private theorem mem_lowered {s : Scan} {u v : ℕ} {value : ℤ} {t₁ : List (ℕ × ℕ)} {queue : List ℕ}
    {x : ℕ} : x ∈ (lowered s u v value t₁ queue).queue ↔ x ∈ queue ∨ x = v := by
  simp only [lowered]
  split
  · next h => exact ⟨Or.inl, fun hx ↦ hx.elim id fun hv ↦ hv ▸ h⟩
  · simp

private theorem scanning_lower {s : Scan} {u v : ℕ} {value : ℤ} {rem : List (ℕ × ℤ)}
    (h : Scanning graph s u ((v, value) :: rem)) (hedge : (v, value) ∈ graph.edges u)
    (hv : v < graph.dim) (huv : u ≠ v)
    (hless : ((s.dist u).add value).less (s.dist v) = true) {sub : List ℕ} {t₁ : List (ℕ × ℕ)}
    (hre : Relinked (Follows graph.Edge s.label)
      (Follows graph.Edge (Function.update s.label v (s.label u + weight value))) u v sub
      s.preorder (link u v t₁)) :
    Scanning graph (lowered s u v value t₁ (s.queue.filter (· ∉ sub))) u rem := by
  obtain ⟨out, hcov⟩ := h.covered
  have hlt := (less_iff_label s u v value).mp hless
  have hlabel : (lowered s u v value t₁ (s.queue.filter (· ∉ sub))).label =
      Function.update s.label v (s.label u + weight value) := by
    refine (label_update s v _).trans ?_
    rw [Distance.label_add]
    rfl
  refine ⟨⟨(out ∪ {z | z ∈ sub}) \ {v}, ?_⟩, ?_, hre.perm.trans h.perm, ?_, ?_⟩
  · rw [hlabel]
    refine hcov.lower hlt huv hre.reach hre.not_mem.1 ?_ ?_ ?_
    · rintro x y w ⟨b, rfl, hb, -⟩
      exact ⟨b, hb, rfl⟩
    · rintro y w ⟨b, hb, rfl⟩
      exact ⟨b, rfl, hb, Or.inl (mem_lowered.mpr (Or.inr rfl))⟩
    · rintro x y w ⟨b, rfl, hb, hq | ⟨rfl, hrem⟩⟩
      · by_cases hx : x ∈ sub
        · exact Or.inl hx
        · refine Or.inr (Or.inr ⟨b, rfl, hb, Or.inl (mem_lowered.mpr (Or.inl ?_))⟩)
          simpa using ⟨hq, hx⟩
      · rcases List.mem_cons.mp hrem with heq | hrem
        · cases heq
          exact Or.inr (Or.inl ⟨rfl, rfl, rfl⟩)
        · exact Or.inr (Or.inr ⟨b, rfl, hb, Or.inr ⟨rfl, hrem⟩⟩)
  · rw [hlabel]
    exact hre.linked
  · simp only [lowered]
    have hn := h.nodup.filter (· ∉ sub)
    split
    · exact hn
    · next hnv =>
      refine List.nodup_append.mpr ⟨hn, List.nodup_singleton v, ?_⟩
      rintro a ha b hb rfl
      obtain rfl := List.mem_singleton.mp hb
      exact hnv ha
  · intro x hx
    rcases mem_lowered.mp hx with hx | rfl
    · exact h.lt x (List.mem_filter.mp hx).1
    · exact hv

private theorem pass_lower {s : Scan} {u v : ℕ} (value : ℤ) {k : ℕ} {now next : List ℕ}
    (h : Pass s k now next) (hu : Deep s.preorder k u) {sub : List ℕ} {t₁ : List (ℕ × ℕ)}
    {R R' : ℕ → ℕ → Prop} (hre : Relinked R R' u v sub s.preorder (link u v t₁)) :
    ∃ next', Pass (lowered s u v value t₁ (s.queue.filter (· ∉ sub))) k
      (now.filter (· ∉ sub)) next' := by
  have hv : Deep (link u v t₁) (k + 1) v := by
    obtain ⟨n, hn, hk⟩ := hu
    exact ⟨n + 1, hre.depth n hn, by omega⟩
  have hkeep {j x : ℕ} (hj : j ≤ k + 1) (hx : Deep s.preorder j x) (hs : x ∉ sub) :
      Deep (link u v t₁) j x := by
    by_cases hxv : x = v
    · obtain ⟨n, hn, hk⟩ := hv
      exact ⟨n, hxv ▸ hn, by omega⟩
    · obtain ⟨n, hn, hk⟩ := hx
      exact ⟨n, hre.keep x n hn hxv hs, hk⟩
  have hnow : ∀ x ∈ now.filter (· ∉ sub), Deep (link u v t₁) k x := by
    intro x hx
    obtain ⟨hx, hs⟩ := List.mem_filter.mp hx
    exact hkeep (by omega) (h.now x hx) (by simpa using hs)
  have hnext : ∀ x ∈ next.filter (· ∉ sub), Deep (link u v t₁) (k + 1) x := by
    intro x hx
    obtain ⟨hx, hs⟩ := List.mem_filter.mp hx
    exact hkeep le_rfl (h.next x hx) (by simpa using hs)
  have hqueue : s.queue.filter (· ∉ sub) = now.filter (· ∉ sub) ++ next.filter (· ∉ sub) := by
    rw [h.queue, List.filter_append]
  by_cases hmem : v ∈ s.queue.filter (· ∉ sub)
  · exact ⟨next.filter (· ∉ sub), (if_pos hmem).trans hqueue, hnow, hnext⟩
  · refine ⟨next.filter (· ∉ sub) ++ [v], ?_, hnow, ?_⟩
    · refine (if_neg hmem).trans ?_
      rw [hqueue, List.append_assoc]
    · intro x hx
      rcases List.mem_append.mp hx with hx | hx
      · exact hnext x hx
      · obtain rfl := List.mem_singleton.mp hx
        exact hv

/-- The scan of one vertex finds a negative cycle or keeps the invariant. -/
theorem scanEdges_spec (hvalid : ∀ u, ∀ e ∈ graph.edges u, u < graph.dim ∧ e.1 < graph.dim ∧ u ≠ e.1)
    {u k : ℕ} {rem : List (ℕ × ℤ)} {s : Scan} {now next : List ℕ}
    (h : Scanning graph s u rem) (hrem : ∀ e ∈ rem, e ∈ graph.edges u)
    (hpass : Pass s k now next) (hu : Deep s.preorder k u) :
    (∃ dist, scanEdges u rem s = .error dist ∧ NegativeCycle graph.Edge) ∨
    ∃ s' now' next', scanEdges u rem s = .ok s' ∧ Scanning graph s' u [] ∧
      Pass s' k now' next' ∧ now'.length ≤ now.length := by
  induction rem generalizing s now next with
  | nil => exact Or.inr ⟨s, now, next, rfl, h, hpass, le_rfl⟩
  | cons e rem ih =>
    obtain ⟨v, value⟩ := e
    have hrem' : ∀ e ∈ rem, e ∈ graph.edges u := fun e he ↦ hrem e (List.mem_cons_of_mem _ he)
    have hedge := hrem (v, value) (by simp)
    obtain ⟨hul, hvl, huv⟩ := hvalid u (v, value) hedge
    rw [scanEdges]
    cases hless : ((s.dist u).add value).less (s.dist v) with
    | false => exact ih (scanning_skip h hless) hrem' hpass hu
    | true =>
      have hlt := (less_iff_label s u v value).mp hless
      have hfollow : Follows graph.Edge
          (Function.update s.label v (s.label u + weight value)) u v := by
        refine ⟨weight value, ⟨value, hedge, rfl⟩, ?_⟩
        rw [Function.update_self, Function.update_of_ne huv]
      have hkeep : ∀ x y, x ≠ v → y ≠ v → Follows graph.Edge s.label x y →
          Follows graph.Edge (Function.update s.label v (s.label u + weight value)) x y := by
        rintro x y hx hy ⟨w, hw, hle⟩
        exact ⟨w, hw, by rwa [Function.update_of_ne hx, Function.update_of_ne hy]⟩
      have hnodup : (s.preorder.map (·.1)).Nodup := h.perm.nodup_iff.mpr List.nodup_range
      simp only [↓reduceIte]
      rcases relink_spec s.queue hnodup (h.mem_preorder hul) (h.mem_preorder hvl) huv h.linked
        hkeep hfollow with ⟨hdis, hreach⟩ | ⟨sub, t₁, hdis, hre⟩
      · exact Or.inl ⟨_, by rw [hdis], negativeCycle_of_follows hreach ⟨value, hedge, rfl⟩ hlt⟩
      · rw [hdis]
        obtain ⟨next', hpass'⟩ := pass_lower value hpass hu hre
        have hu' : Deep (link u v t₁) k u := by
          obtain ⟨n, hn, hk⟩ := hu
          exact ⟨n, hre.keep u n hn huv hre.not_mem.2, hk⟩
        rcases ih (scanning_lower h hedge hvl huv hless hre) hrem' hpass' hu' with
          herr | ⟨s', now', next'', hs', hscan, hp, hlen⟩
        · exact Or.inl herr
        · exact Or.inr ⟨s', now', next'', hs', hscan, hp,
            le_trans hlen (List.length_filter_le _ _)⟩

/-- Take the first vertex off the queue. -/
private theorem scanning_dequeue {s : Scan} {u cur : ℕ} {queue : List ℕ}
    (h : Scanning graph s cur []) (hq : s.queue = u :: queue) :
    Scanning graph { s with queue } u (graph.edges u) := by
  obtain ⟨out, hcov⟩ := h.covered
  have htodo : s.todo graph cur [] = Scan.todo graph { s with queue } u (graph.edges u) := by
    funext x y w
    refine propext ⟨?_, ?_⟩
    · rintro ⟨b, rfl, hb, hx | ⟨-, hx⟩⟩
      · rw [hq] at hx
        rcases List.mem_cons.mp hx with rfl | hx
        · exact ⟨b, rfl, hb, Or.inr ⟨rfl, hb⟩⟩
        · exact ⟨b, rfl, hb, Or.inl hx⟩
      · cases hx
    · rintro ⟨b, rfl, hb, hx | ⟨rfl, -⟩⟩
      · exact ⟨b, rfl, hb, Or.inl (hq ▸ List.mem_cons_of_mem _ hx)⟩
      · exact ⟨b, rfl, hb, Or.inl (hq ▸ List.mem_cons_self)⟩
  have hnodup := h.nodup
  rw [hq] at hnodup
  exact ⟨⟨out, htodo ▸ hcov⟩, h.linked, h.perm, (List.nodup_cons.mp hnodup).2,
    fun x hx ↦ h.lt x (hq ▸ List.mem_cons_of_mem _ hx)⟩

/-- A queue that is not empty has a vertex left in the current pass, after moving on to the
next pass where the current one is done. -/
private theorem pass_cons {s : Scan} {cur k : ℕ} {now next : List ℕ} {u : ℕ} {queue : List ℕ}
    (h : Scanning graph s cur []) (hpass : Pass s k now next) (hq : s.queue = u :: queue) :
    ∃ k' now' next', Pass s k' (u :: now') next' ∧
      (graph.dim - 1 - k') * graph.dim + now'.length <
        (graph.dim - 1 - k) * graph.dim + now.length := by
  have hqueue := hpass.queue
  rw [hq] at hqueue
  cases now with
  | cons x now =>
    obtain ⟨rfl, -⟩ := List.cons.inj hqueue
    exact ⟨k, now, next, hpass, by simp⟩
  | nil =>
    rw [List.nil_append] at hqueue
    subst hqueue
    have hk : k + 1 < graph.dim := h.depth_lt (hpass.next u (by simp))
    have hlen : (u :: queue).length ≤ graph.dim := by
      have hsub : (u :: queue).Subperm (List.range graph.dim) :=
        List.subperm_of_subset (hq ▸ h.nodup) fun x hx ↦
          List.mem_range.mpr (h.lt x (hq ▸ hx))
      simpa using hsub.length_le
    refine ⟨k + 1, queue, [], ⟨by simp [hq], fun x hx ↦ hpass.next x hx, by simp⟩, ?_⟩
    have hsucc : graph.dim - 1 - k = graph.dim - 1 - (k + 1) + 1 := by omega
    rw [hsucc, Nat.succ_mul]
    simp only [List.length_cons, List.length_nil] at hlen ⊢
    omega

/-- The loop ends with a negative cycle or with nothing left to scan, and there are at most as
many scans as vertices in all passes. -/
theorem scanQueue_spec
    (hvalid : ∀ u, ∀ e ∈ graph.edges u, u < graph.dim ∧ e.1 < graph.dim ∧ u ≠ e.1)
    {fuel : ℕ} {s : Scan} {cur k : ℕ} {now next : List ℕ} (h : Scanning graph s cur [])
    (hpass : Pass s k now next)
    (hfuel : (graph.dim - 1 - k) * graph.dim + now.length < fuel) :
    (∃ dist, scanQueue graph.edges fuel s = some (.error dist) ∧ NegativeCycle graph.Edge) ∨
    ∃ s' cur', scanQueue graph.edges fuel s = some (.ok s') ∧ Scanning graph s' cur' [] ∧
      s'.queue = [] := by
  induction fuel generalizing s cur k now next with
  | zero => exact absurd hfuel (Nat.not_lt_zero _)
  | succ fuel ih =>
    rw [scanQueue]
    cases hq : s.queue with
    | nil => exact Or.inr ⟨s, cur, rfl, h, hq⟩
    | cons u queue =>
      obtain ⟨k', now', next', hpass', hlt⟩ := pass_cons h hpass hq
      have hq' : queue = now' ++ next' := by
        have := hpass'.queue
        rw [hq] at this
        exact (List.cons.inj this).2
      have hpass'' : Pass { s with queue } k' now' next' :=
        ⟨hq', fun x hx ↦ hpass'.now x (List.mem_cons_of_mem _ hx), hpass'.next⟩
      rcases scanEdges_spec hvalid (scanning_dequeue h hq) (fun e he ↦ he) hpass''
        (hpass'.now u (by simp)) with ⟨dist, hdist, hneg⟩ | ⟨s', now'', next'', hs', hscan, hp, hlen⟩
      · exact Or.inl ⟨dist, by simp only [hdist], hneg⟩
      · simp only [hs']
        exact ih hscan hp (by omega)

end Scan

/-! ### Consistency -/

theorem populateQueue_valid {graph : Tarjan}
    (hedge : ∀ u, ∀ e ∈ graph.edges u, u < graph.dim ∧ e.1 < graph.dim ∧ u ≠ e.1) :
    (populateQueue graph).Valid where
  edge := hedge
  nodup := List.nodup_range.filter _
  fifo_lt u hu := List.mem_range.mp (List.mem_filter.mp hu).1
  queued u e he hless := by
    refine List.mem_filter.mpr ⟨List.mem_range.mpr (hedge u e he).1, ?_⟩
    exact List.any_eq_true.mpr ⟨e, he, hless⟩

/-- The labels of the vertices of a graph. -/
def Tarjan.label (graph : Tarjan) (x : ℕ) : ℤ ×ₗ ℤ := (graph.dist x).label

private theorem scanning_start {graph : Tarjan} (h : graph.Valid) :
    Scanning graph ⟨graph.dist, (List.range graph.dim).map fun i ↦ (i, 0), graph.fifo⟩ 0 [] where
  covered := by
    refine ⟨∅, ?_, ?_, by simp⟩
    · rintro x y w ⟨b, rfl, hb, -⟩
      exact ⟨b, hb, rfl⟩
    · rintro x y w ⟨b, hb, rfl⟩
      by_cases hless : ((graph.dist x).add b).less (graph.dist y) = true
      · exact Or.inl ⟨b, rfl, hb, Or.inl (h.queued x (y, b) hb hless)⟩
      · refine Or.inr (Or.inr ?_)
        rw [Distance.less_iff, Distance.label_add] at hless
        exact not_lt.mp hless
  linked := by
    exact Linked.append_roots (t := []) trivial (List.forall_mem_map.mpr fun i _ ↦ rfl)
  perm := by simp [Function.comp_def]
  nodup := h.nodup
  lt := h.fifo_lt

private theorem pass_start {graph : Tarjan} (h : graph.Valid) :
    Pass ⟨graph.dist, (List.range graph.dim).map fun i ↦ (i, 0), graph.fifo⟩ 0 graph.fifo [] where
  queue := (List.append_nil _).symm
  now x hx := ⟨0, by simpa using h.fifo_lt x hx, le_rfl⟩
  next := by simp

private theorem fuel_suffices {graph : Tarjan} (h : graph.Valid) :
    (graph.dim - 1 - 0) * graph.dim + graph.fifo.length < graph.dim * graph.dim + 1 := by
  have hsub : graph.fifo.Subperm (List.range graph.dim) :=
    List.subperm_of_subset h.nodup fun x hx ↦ List.mem_range.mpr (h.fifo_lt x hx)
  have hlen : graph.fifo.length ≤ graph.dim := by simpa using hsub.length_le
  rcases hd : graph.dim with _ | n
  · omega
  · rw [hd] at hlen
    have hmul : (n + 1) * (n + 1) = n * (n + 1) + (n + 1) := Nat.succ_mul n (n + 1)
    have hsub' : n + 1 - 1 - 0 = n := by omega
    rw [hsub']
    omega

/-- `cdd_tarjan_consistent` returns, keeps the edges and the queue condition, and tells whether
the edges contain a negative cycle; where they do not the distances are a potential. -/
theorem cddTarjanConsistent_spec {graph : Tarjan} (h : graph.Valid) :
    ∃ b graph', cddTarjanConsistent graph = some (b, graph') ∧ graph'.Valid ∧
      graph'.edges = graph.edges ∧ graph'.dim = graph.dim ∧
      (b = true → Potential graph.Edge graph'.label) ∧
      (b = false → NegativeCycle graph.Edge) := by
  rw [cddTarjanConsistent]
  rcases scanQueue_spec h.edge (scanning_start h) (pass_start h) (fuel_suffices h) with
    ⟨dist, hdist, hneg⟩ | ⟨s, cur, hs, hscan, hq⟩
  · simp only [hdist]
    exact ⟨false, _, rfl, populateQueue_valid h.edge, rfl, rfl, by simp, fun _ ↦ hneg⟩
  · simp only [hs]
    obtain ⟨out, hcov⟩ := hscan.covered
    have hdone : ∀ x y w, ¬ s.todo graph cur [] x y w := by
      rintro x y w ⟨b, -, -, hx | ⟨-, hx⟩⟩
      · simp [hq] at hx
      · cases hx
    have hpot := hcov.potential hdone
    refine ⟨true, _, rfl, ⟨h.edge, hscan.nodup, hscan.lt, ?_⟩, rfl, rfl, fun _ ↦ hpot, by simp⟩
    intro u e he hless
    rw [Distance.less_iff, Distance.label_add] at hless
    exact absurd hless (not_lt.mpr (hpot u e.1 _ ⟨e.2, he, rfl⟩))

/-- The answer is exact. -/
theorem cddTarjanConsistent_iff {graph graph' : Tarjan} {b : Bool} (h : graph.Valid)
    (hb : cddTarjanConsistent graph = some (b, graph')) :
    b = true ↔ ¬ NegativeCycle graph.Edge := by
  obtain ⟨b', g, hb', -, -, -, hpot, hneg⟩ := cddTarjanConsistent_spec h
  cases hb'.symm.trans hb
  cases b with
  | true => exact ⟨fun _ ↦ (hpot rfl).not_negativeCycle, fun _ ↦ rfl⟩
  | false => exact ⟨fun h ↦ Bool.noConfusion h, fun h ↦ absurd (hneg rfl) h⟩

end UCDD

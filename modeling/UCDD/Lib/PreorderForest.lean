import Mathlib.Data.List.Basic
import Mathlib.Data.List.Nodup
import Mathlib.Logic.Relation

/-!
# Forests in preorder

A forest kept as the list of its vertices in preorder, each with its depth. The parent of a
vertex is the last earlier vertex of smaller depth, and the subtree below a vertex is the run
of deeper vertices that follows it, so cutting and linking subtrees is list surgery.
-/

namespace PreorderForest

variable {V : Type*} {R R' : V → V → Prop}

/-- Every vertex that has a parent is related to it; `path` holds the vertices from a root to
the vertex before the list. -/
def Linked (R : V → V → Prop) : List V → List (V × ℕ) → Prop
  | _, [] => True
  | path, e :: t => e.2 ≤ path.length ∧ (∀ x ∈ (path.take e.2).getLast?, R x e.1) ∧
      Linked R (path.take e.2 ++ [e.1]) t

/-- The path to the last vertex of the list. -/
def pathAfter (path : List V) (t : List (V × ℕ)) : List V :=
  t.foldl (fun path e ↦ path.take e.2 ++ [e.1]) path

theorem linked_append {path : List V} {s t : List (V × ℕ)} :
    Linked R path (s ++ t) ↔ Linked R path s ∧ Linked R (pathAfter path s) t := by
  induction s generalizing path with
  | nil => simp [Linked, pathAfter]
  | cons e s ih => simp [Linked, pathAfter, ih, and_assoc]

/-- A longer path offers the same parents. -/
theorem Linked.append_path {path : List V} {t : List (V × ℕ)} (h : Linked R path t)
    (q : List V) : Linked R (path ++ q) t := by
  cases t with
  | nil => exact h
  | cons e t =>
    obtain ⟨hle, hR, ht⟩ := h
    have htake : (path ++ q).take e.2 = path.take e.2 := List.take_append_of_le_length hle
    refine ⟨?_, ?_, ?_⟩
    · rw [List.length_append]
      omega
    · rwa [htake]
    · rwa [htake]

/-- The end of the path offers no parents to a list that starts above it. -/
theorem Linked.of_append_path {path q : List V} {t : List (V × ℕ)} (h : Linked R (path ++ q) t)
    (hhead : ∀ e ∈ t.head?, e.2 ≤ path.length) : Linked R path t := by
  cases t with
  | nil => exact h
  | cons e t =>
    have hle : e.2 ≤ path.length := hhead e rfl
    obtain ⟨-, hR, ht⟩ := h
    rw [List.take_append_of_le_length hle] at hR ht
    exact ⟨hle, hR, ht⟩

/-- Only the relation of vertices of the list to earlier ones matters. -/
theorem Linked.congr {path : List V} {t : List (V × ℕ)} (h : Linked R path t)
    (hR : ∀ x y, (x ∈ path ∨ x ∈ t.map (·.1)) → y ∈ t.map (·.1) → R x y → R' x y) :
    Linked R' path t := by
  induction t generalizing path with
  | nil => exact h
  | cons e t ih =>
    obtain ⟨hle, hpar, ht⟩ := h
    refine ⟨hle, fun x hx ↦ ?_, ih ht fun x y hx hy ↦ hR x y ?_ ?_⟩
    · have hxp : x ∈ path := List.mem_of_mem_take (List.mem_of_mem_getLast? hx)
      exact hR x e.1 (Or.inl hxp) (by simp) (hpar x hx)
    · rcases hx with hx | hx
      · rcases List.mem_append.mp hx with hx | hx
        · exact Or.inl (List.mem_of_mem_take hx)
        · exact Or.inr (by simp_all)
      · exact Or.inr (List.mem_cons_of_mem _ hx)
    · exact List.mem_cons_of_mem _ hy

/-- Vertices of depth zero can be appended. -/
theorem Linked.append_roots {path : List V} {t s : List (V × ℕ)} (h : Linked R path t)
    (hs : ∀ e ∈ s, e.2 = 0) : Linked R path (t ++ s) := by
  refine linked_append.mpr ⟨h, ?_⟩
  generalize pathAfter path t = p
  induction s generalizing p with
  | nil => trivial
  | cons e s ih =>
    have he : e.2 = 0 := hs e (by simp)
    refine ⟨by omega, by simp [he], ih (fun x hx ↦ hs x (List.mem_cons_of_mem _ hx)) _⟩

/-- Vertices deeper than the path keep the path. -/
theorem pathAfter_of_deeper (path : List V) {t : List (V × ℕ)}
    (h : ∀ e ∈ t, path.length ≤ e.2) : ∃ q, pathAfter path t = path ++ q := by
  suffices ∀ q, ∃ q', pathAfter (path ++ q) t = path ++ q' by simpa using this []
  induction t with
  | nil => exact fun q ↦ ⟨q, rfl⟩
  | cons e t ih =>
    intro q
    obtain ⟨q', hq'⟩ := ih (fun x hx ↦ h x (List.mem_cons_of_mem _ hx))
      (q.take (e.2 - path.length) ++ [e.1])
    have htake : (path ++ q).take e.2 = path ++ q.take (e.2 - path.length) := by
      rw [List.take_append, List.take_of_length_le (h e (by simp))]
    refine ⟨q', ?_⟩
    rw [← hq', pathAfter, List.foldl_cons, htake, List.append_assoc]
    rfl

/-- Cutting a vertex and the subtree below it leaves the other vertices with their parents. -/
theorem Linked.cut {path : List V} {pre sub rest : List (V × ℕ)} {v : V} {d : ℕ}
    (h : Linked R path (pre ++ (v, d) :: (sub ++ rest))) (hsub : ∀ e ∈ sub, d < e.2)
    (hrest : ∀ e ∈ rest.head?, e.2 ≤ d) : Linked R path (pre ++ rest) := by
  obtain ⟨hpre, hle, -, htail⟩ := linked_append.mp h
  refine linked_append.mpr ⟨hpre, ?_⟩
  generalize pathAfter path pre = p at hle htail
  have hlen : (p.take d).length = d := List.length_take_of_le hle
  obtain ⟨q, hq⟩ := pathAfter_of_deeper (p.take d ++ [v]) (t := sub) (by
    intro e he
    have := hsub e he
    simp only [List.length_append, hlen, List.length_singleton]
    omega)
  have hrest' := (linked_append.mp htail).2
  rw [hq, List.append_assoc] at hrest'
  have := (hrest'.of_append_path (by simpa [hlen] using hrest)).append_path (p.drop d)
  rwa [List.take_append_drop] at this

/-- A vertex can be linked below another one, as its first child. -/
theorem Linked.insert {path : List V} {pre post : List (V × ℕ)} {u v : V} {d : ℕ}
    (h : Linked R path (pre ++ (u, d) :: post)) (huv : R u v) :
    Linked R path (pre ++ (u, d) :: (v, d + 1) :: post) := by
  obtain ⟨hpre, hle, hpar, hpost⟩ := linked_append.mp h
  refine linked_append.mpr ⟨hpre, hle, hpar, ?_⟩
  generalize pathAfter path pre = p at hle hpost
  have hlen : (p.take d ++ [u]).length = d + 1 := by simp [List.length_take_of_le hle]
  have htake : (p.take d ++ [u]).take (d + 1) = p.take d ++ [u] := by
    rw [← hlen, List.take_length]
  refine ⟨Nat.le_of_eq hlen.symm, ?_, ?_⟩
  · intro x hx
    simp only [htake, List.getLast?_append, List.getLast?_singleton, Option.some_or] at hx
    obtain rfl := Option.mem_some.mp hx
    exact huv
  · simp only [htake]
    exact hpost.append_path [v]

/-- Every vertex of the subtree below `v` is reached from `v` inside the subtree. -/
theorem Linked.reach {path : List V} {v : V} {sub : List (V × ℕ)}
    (h : Linked R (path ++ [v]) sub) (hsub : ∀ e ∈ sub, path.length < e.2) :
    ∀ e ∈ sub, Relation.TransGen (fun a b ↦ b ∈ sub.map (·.1) ∧ R a b) v e.1 := by
  suffices ∀ (t : List (V × ℕ)) (q : List V), Linked R (path ++ v :: q) t → t ⊆ sub →
      (∀ x ∈ q, Relation.TransGen (fun a b ↦ b ∈ sub.map (·.1) ∧ R a b) v x) →
      ∀ e ∈ t, Relation.TransGen (fun a b ↦ b ∈ sub.map (·.1) ∧ R a b) v e.1 from
    this sub [] h (fun _ hx ↦ hx) (by simp)
  intro t
  induction t with
  | nil => simp
  | cons e t ih =>
    rintro q ⟨hle, hpar, ht⟩ hts hq
    have hmem : e.1 ∈ sub.map (·.1) := List.mem_map_of_mem (hts (by simp))
    -- the parent is `v` or lies on the path below it
    obtain ⟨k, hk⟩ : ∃ k, e.2 = path.length + (k + 1) := by
      have := hsub e (hts (by simp))
      exact ⟨e.2 - path.length - 1, by omega⟩
    have htake : (path ++ v :: q).take e.2 = path ++ v :: q.take k := by
      rw [hk, List.take_length_add_append, List.take_succ_cons]
    rw [htake] at hpar ht
    have hreach : Relation.TransGen (fun a b ↦ b ∈ sub.map (·.1) ∧ R a b) v e.1 := by
      rcases hlast : (q.take k).getLast? with _ | x
      · have hnil : q.take k = [] := by simpa using hlast
        exact .single ⟨hmem, hpar v (by simp [hnil])⟩
      · have hx : x ∈ q := List.mem_of_mem_take (List.mem_of_mem_getLast? hlast)
        refine (hq x hx).tail ⟨hmem, hpar x ?_⟩
        simp [List.getLast?_append, List.getLast?_cons, hlast]
    intro x hx
    rcases List.mem_cons.mp hx with rfl | hx
    · exact hreach
    · refine ih (q.take k ++ [e.1]) (by simpa using ht)
        (fun y hy ↦ hts (List.mem_cons_of_mem _ hy)) (fun y hy ↦ ?_) x hx
      rcases List.mem_append.mp hy with hy | hy
      · exact hq y (List.mem_of_mem_take hy)
      · obtain rfl := List.mem_singleton.mp hy
        exact hreach

/-- A vertex is no deeper than the number of vertices before it. -/
theorem Linked.depth_lt {path : List V} {t : List (V × ℕ)} (h : Linked R path t) :
    ∀ e ∈ t, e.2 < path.length + t.length := by
  induction t generalizing path with
  | nil => simp
  | cons e t ih =>
    obtain ⟨hle, -, ht⟩ := h
    intro x hx
    rcases List.mem_cons.mp hx with rfl | hx
    · simp only [List.length_cons]
      omega
    · have := ih ht x hx
      simp only [List.length_append, List.length_take, List.length_cons, List.length_nil] at this ⊢
      omega

end PreorderForest

import UCDD.Lib.Loop

/-!
# Symbolic runs

A symbolic state stands for a set of states. A symbolic step on it is a bounded run; it is exact
when it returns the states that a step of a relation leads to, as long as there are any. Exact steps
compose along a path, and those of the converse relations along the path read backwards.
-/

namespace SymbolicRun

open Loop

variable {V D T : Type} {den : D → V → Prop} {Inv Fin : D → Prop} {step : V → V → Prop}
  {steps : T → V → V → Prop} {op : ℕ → D → Run D} {ops : T → ℕ → D → Run D} {path : List T}
  {v w : V} {d : D}

/-- One step for each label of the path, in their order. -/
def Path (steps : T → V → V → Prop) : List T → V → V → Prop
  | [], v, w => v = w
  | t :: path, v, w => ∃ u, steps t v u ∧ Path steps path u w

theorem path_append (path₁ path₂ : List T) (v w : V) :
    Path steps (path₁ ++ path₂) v w ↔ ∃ u, Path steps path₁ v u ∧ Path steps path₂ u w := by
  induction path₁ generalizing v with
  | nil => simp [Path]
  | cons t path₁ ih =>
    simp only [List.cons_append, Path, ih]
    constructor
    · rintro ⟨u, hu, x, hx, hw⟩
      exact ⟨x, ⟨u, hu, hx⟩, hw⟩
    · rintro ⟨x, ⟨u, hu, hx⟩, hw⟩
      exact ⟨u, hu, x, hx, hw⟩

/-- The path read backwards, with the converse of each step. -/
theorem path_reverse (path : List T) (v w : V) :
    Path (fun t v w ↦ steps t w v) path.reverse w v ↔ Path steps path v w := by
  induction path generalizing v with
  | nil => exact eq_comm
  | cons t path ih =>
    rw [List.reverse_cons, path_append]
    simp only [Path, ih]
    constructor
    · rintro ⟨u, hu, x, hx, rfl⟩
      exact ⟨u, hx, hu⟩
    · rintro ⟨u, hu, hw⟩
      exact ⟨u, hw, v, hu, rfl⟩

/-- Some state of `d` has a step. -/
def Feasible (den : D → V → Prop) (step : V → V → Prop) (d : D) : Prop :=
  ∃ v w, den d v ∧ step v w

/-- `r` stands for the states that the step leads to from `d`. -/
def Post (den : D → V → Prop) (step : V → V → Prop) (d r : D) : Prop :=
  ∀ w, den r w ↔ ∃ v, den d v ∧ step v w

/-- The symbolic step does not fail on a feasible state, and what it returns is exact. -/
structure Posts (den : D → V → Prop) (Inv : D → Prop) (step : V → V → Prop)
    (op : ℕ → D → Run D) : Prop where
  safe : ∀ d, Inv d → Feasible den step d →
    ∀ n, Run.Safe (fun r ↦ Inv r ∧ Post den step d r) (op n d)
  mono : ∀ n m, n ≤ m → ∀ d, Run.Le (op n d) (op m d)

/-- It returns with some bound, and keeps `Fin`. -/
def Returns (den : D → V → Prop) (Inv Fin : D → Prop) (step : V → V → Prop)
    (op : ℕ → D → Run D) : Prop :=
  ∀ d, Inv d → Fin d → Feasible den step d → ∃ n r, op n d = .done r ∧ Fin r

/-- The symbolic steps of a path. -/
def follow (ops : T → ℕ → D → Run D) (path : List T) (n : ℕ) (d : D) : Run D :=
  path.foldlM (fun d t ↦ ops t n d) d

theorem follow_cons (t : T) (path : List T) (n : ℕ) (d : D) :
    follow ops (t :: path) n d = ops t n d >>= follow ops path n := List.foldlM_cons ..

theorem feasible_of_cons {t : T} (h : Feasible den (Path steps (t :: path)) d) :
    Feasible den (steps t) d := by
  obtain ⟨v, w, hv, u, hu, -⟩ := h
  exact ⟨v, u, hv, hu⟩

theorem Post.feasible {t : T} {r : D} (hr : Post den (steps t) d r)
    (h : Feasible den (Path steps (t :: path)) d) : Feasible den (Path steps path) r := by
  obtain ⟨v, w, hv, u, hu, hw⟩ := h
  exact ⟨u, w, (hr u).mpr ⟨v, hv, hu⟩, hw⟩

/-- Exact steps compose. -/
theorem posts_follow (h : ∀ t ∈ path, Posts den Inv (steps t) (ops t)) :
    Posts den Inv (Path steps path) (follow ops path) := by
  induction path with
  | nil =>
    refine ⟨fun d hd _ n ↦ ⟨hd, fun w ↦ ?_⟩, fun n m _ d ↦ Run.Le.refl _⟩
    constructor
    · intro hw
      exact ⟨w, hw, rfl⟩
    · rintro ⟨v, hv, rfl⟩
      exact hv
  | cons t path ih =>
    obtain ⟨ht, hpath⟩ := List.forall_mem_cons.mp h
    have ih := ih hpath
    constructor
    · intro d hd hfeasible n
      rw [follow_cons]
      apply (ht.safe d hd (feasible_of_cons hfeasible) n).bind
      rintro r ⟨hr, hpost⟩
      apply (ih.safe r hr (hpost.feasible hfeasible) n).mono
      rintro s ⟨hs, hrest⟩
      refine ⟨hs, fun w ↦ ?_⟩
      rw [hrest]
      constructor
      · rintro ⟨u, hu, hw⟩
        obtain ⟨v, hv, hvu⟩ := (hpost u).mp hu
        exact ⟨v, hv, u, hvu, hw⟩
      · rintro ⟨v, hv, u, hvu, hw⟩
        exact ⟨u, (hpost u).mpr ⟨v, hv, hvu⟩, hw⟩
    · intro n m hnm d
      rw [follow_cons, follow_cons]
      exact (ht.mono n m hnm d).bind fun r ↦ ih.mono n m hnm r

/-- Steps that return compose. -/
theorem returns_follow (h : ∀ t ∈ path, Posts den Inv (steps t) (ops t))
    (hreturns : ∀ t ∈ path, Returns den Inv Fin (steps t) (ops t)) :
    Returns den Inv Fin (Path steps path) (follow ops path) := by
  induction path with
  | nil => exact fun d _ hfin _ ↦ ⟨0, d, rfl, hfin⟩
  | cons t path ih =>
    obtain ⟨ht, hpath⟩ := List.forall_mem_cons.mp h
    obtain ⟨hrt, hrpath⟩ := List.forall_mem_cons.mp hreturns
    intro d hd hfin hfeasible
    obtain ⟨n, r, hn, hr⟩ := hrt d hd hfin (feasible_of_cons hfeasible)
    have hsafe := ht.safe d hd (feasible_of_cons hfeasible) n
    rw [hn] at hsafe
    obtain ⟨hinv, hpost⟩ := hsafe
    obtain ⟨m, s, hm, hs⟩ := ih hpath hrpath r hinv hr (hpost.feasible hfeasible)
    refine ⟨max n m, s, ?_, hs⟩
    rw [follow_cons, ht.mono n (max n m) (Nat.le_max_left n m) d r hn, Run.done_bind]
    exact (posts_follow hpath).mono m (max n m) (Nat.le_max_right n m) r s hm

end SymbolicRun

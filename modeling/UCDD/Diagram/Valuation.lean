import UCDD.Diagram.Canonical

/-!
# Valuations and paths

A valuation gives each clock a real and each Boolean level a truth value; a CDD level reads the
difference of its two clocks. A path goes from the root to a terminal, one step for each node.
-/

namespace UCDD

open IntervalMap DdNode

/-- A clock valuation and a Boolean assignment. -/
structure Valuation where
  clock : ℕ → ℝ
  bool : ℕ → Bool

/-- The valuation with another value of one clock. -/
def Valuation.setClock (v : Valuation) (c : ℕ) (x : ℝ) : Valuation :=
  ⟨Function.update v.clock c x, v.bool⟩

/-- The valuation with another value of one Boolean. -/
def Valuation.setBool (v : Valuation) (ℓ : ℕ) (b : Bool) : Valuation :=
  ⟨v.clock, Function.update v.bool ℓ b⟩

section

variable {v : Valuation} {c ℓ : ℕ} {x : ℝ} {b : Bool}

@[simp] theorem Valuation.setClock_clock : (v.setClock c x).clock = Function.update v.clock c x :=
  rfl

@[simp] theorem Valuation.setClock_bool : (v.setClock c x).bool = v.bool := rfl

@[simp] theorem Valuation.setBool_clock : (v.setBool ℓ b).clock = v.clock := rfl

@[simp] theorem Valuation.setBool_bool : (v.setBool ℓ b).bool = Function.update v.bool ℓ b := rfl

end

/-- The difference a level reads. -/
noncomputable def Library.diff (L : Library) (x : ℕ → ℝ) (level : ℕ) : ℝ :=
  match L.levelinfo[level]? with
  | some (.cdd i j) => x i - x j
  | _ => 0

/-- A valuation as an assignment to the levels. -/
noncomputable def Valuation.assignment (L : Library) (v : Valuation) : Assignment where
  bool := v.bool
  diff level := realCut (L.diff v.clock level)

/-- The diagram holds at the valuation. -/
def Holds (L : Library) (v : Valuation) (d : DdNode) : Prop := eval (v.assignment L) d = true

section

variable {L : Library} {v : Valuation} {d : DdNode}

@[simp] theorem holds_cddNeg : Holds L v (cddNeg d) ↔ ¬ Holds L v d := by
  simp [Holds]

@[simp] theorem holds_cddtrue : Holds L v cddtrue := eval_cddtrue _

@[simp] theorem not_holds_cddfalse : ¬ Holds L v cddfalse := by
  simp [Holds]

theorem holds_bdd {neg : Bool} {level : ℕ} {low high : DdNode} :
    Holds L v (.bdd neg level low high) ↔
      Holds L v (cddNegCond (bif v.bool level then high else low) neg) := by
  unfold Holds
  rw [eval, Bool.xor_comm]
  show _ ↔ eval (v.assignment L) (cddNegCond (bif v.bool level then high else low) neg) = true
  have hbool : (v.assignment L).bool level = v.bool level := rfl
  rw [hbool]
  cases v.bool level <;> simp [Bool.xor_comm]

/-- A Boolean can be set without a change to a diagram below its level. -/
theorem holds_setBool (h : L.WF d) {level : ℕ} (hl : level < d.level) (v : Valuation) (b : Bool) :
    Holds L (v.setBool level b) d ↔ Holds L v d := by
  unfold Holds
  rw [eval_congr h]
  intro ℓ hℓ
  refine ⟨?_, rfl⟩
  exact Function.update_of_ne (by omega) _ _

theorem diff_of_levelinfo {x : ℕ → ℝ} {level i j : ℕ}
    (h : L.levelinfo[level]? = some (.cdd i j)) : L.diff x level = x i - x j := by
  rw [Library.diff, h]

end

/-! ### Paths -/

/-- A step of a path: the interval of a CDD edge, or the value of a BDD edge. -/
inductive Step where
  | cdd (level : ℕ) (lower upper : Raw)
  | bdd (level : ℕ) (value : Bool)
  deriving DecidableEq, Repr

mutual

/-- The paths from the root to a terminal. -/
def paths : DdNode → List (List Step)
  | .terminal _ | .xterm _ _ => [[]]
  | .bdd _ level low high =>
    (paths low).map (.bdd level false :: ·) ++ (paths high).map (.bdd level true :: ·)
  | .cdd _ level elem => pathsElem level (-INF) elem

/-- The paths through the edges of a CDD node from `lower` on. -/
def pathsElem (level : ℕ) : Raw → List (DdNode × Raw) → List (List Step)
  | _, [] => []
  | lower, (d, b) :: es =>
    (paths d).map (.cdd level lower b :: ·) ++ pathsElem level b es

end

@[simp] theorem paths_negCond (d : DdNode) (m : Bool) : paths (cddNegCond d m) = paths d := by
  cases d <;> simp [cddNegCond, paths]

/-- No bound of the diagram is `-INF`. -/
abbrev InRange : DdNode → Prop := All (fun _ ↦ True) (fun b ↦ -INF < b)

/-- The assignment takes the step. -/
def Assignment.TakesStep (a : Assignment) : Step → Prop
  | .cdd level lower upper =>
    (lower = -INF ∨ (a.diff level).below lower = false) ∧ (a.diff level).below upper = true
  | .bdd level value => a.bool level = value

/-- The assignment takes every step of the path. -/
def Assignment.Takes (a : Assignment) (p : List Step) : Prop := ∀ s ∈ p, a.TakesStep s

@[simp] theorem Assignment.takes_cons {a : Assignment} {s : Step} {p : List Step} :
    a.Takes (s :: p) ↔ a.TakesStep s ∧ a.Takes p := by
  simp [Takes]

@[simp] theorem Assignment.takes_nil {a : Assignment} : a.Takes [] := by
  simp [Takes]

section

variable {L : Library}

/-- A path through the edges from `lower` on stays above `lower`. -/
private theorem not_below_of_takes {level : ℕ} {lower : Raw} {es : List (DdNode × Raw)}
    (hes : Partition INF es) (hhead : ∀ e ∈ es.head?, lower < e.2) (hlow : -INF < lower)
    {p : List Step} (hp : p ∈ pathsElem level lower es) {a : Assignment} (ha : a.Takes p) :
    (a.diff level).below lower = false := by
  induction es generalizing lower with
  | nil => exact absurd hes id
  | cons e es ih =>
    obtain ⟨d, b⟩ := e
    have hb : lower < b := hhead (d, b) rfl
    rw [pathsElem] at hp
    rcases List.mem_append.mp hp with hp | hp
    · obtain ⟨q, -, rfl⟩ := List.mem_map.mp hp
      have hstep := (Assignment.takes_cons.mp ha).1.1
      exact hstep.resolve_left (ne_of_gt hlow)
    · cases es with
      | nil => simp [pathsElem] at hp
      | cons e' es =>
        have hnb := ih hes.2 (by rintro x ⟨⟩; exact hes.1) (lt_trans hlow hb) hp
        by_contra h
        have := (a.diff level).mono (le_of_lt hb) (Bool.of_not_eq_false h)
        rw [hnb] at this
        cases this

/-- The path an assignment takes; every assignment that takes it reaches the same value. -/
theorem exists_path {d : DdNode} (h : L.WF d) (hr : InRange d) (a : Assignment) :
    ∃ p ∈ paths d, a.Takes p ∧ ∀ a', Assignment.Takes a' p → eval a' d = eval a d := by
  induction h with
  | terminal neg => exact ⟨[], by simp [paths], by simp, fun _ _ ↦ by simp [eval]⟩
  | xterm neg hid => exact absurd hid (Nat.not_lt_zero _)
  | @bdd neg level low high _ _ _ _ _ _ _ ihl ihh =>
    obtain ⟨-, hrl, hrh⟩ := hr.of_bdd
    cases hb : a.bool level with
    | false =>
      obtain ⟨p, hp, hap, heq⟩ := ihl hrl
      refine ⟨.bdd level false :: p, ?_, Assignment.takes_cons.mpr ⟨hb, hap⟩, ?_⟩
      · exact List.mem_append_left _ (List.mem_map_of_mem hp)
      · intro a' ha'
        obtain ⟨hb', hp'⟩ := Assignment.takes_cons.mp ha'
        have hb' : a'.bool level = false := hb'
        rw [eval, eval, hb, hb', cond_false, cond_false, heq a' hp']
    | true =>
      obtain ⟨p, hp, hap, heq⟩ := ihh hrh
      refine ⟨.bdd level true :: p, ?_, Assignment.takes_cons.mpr ⟨hb, hap⟩, ?_⟩
      · exact List.mem_append_right _ (List.mem_map_of_mem hp)
      · intro a' ha'
        obtain ⟨hb', hp'⟩ := Assignment.takes_cons.mp ha'
        have hb' : a'.bool level = true := hb'
        rw [eval, eval, hb, hb', cond_true, cond_true, heq a' hp']
  | @cdd neg level elem _ _ hp _ _ _ _ ih =>
    obtain ⟨-, hrange, hr⟩ := hr.of_cdd
    suffices ∀ (es : List (DdNode × Raw)) (lower : Raw), Partition INF es → es ⊆ elem →
        (lower = -INF ∨ (a.diff level).below lower = false) →
        ∃ p ∈ pathsElem level lower es, a.Takes p ∧ ∀ a', Assignment.Takes a' p →
          evalElem a' (a'.diff level) es = evalElem a (a.diff level) es by
      obtain ⟨p, hp, hap, heq⟩ := this elem (-INF) hp (fun _ h ↦ h) (Or.inl rfl)
      refine ⟨p, hp, hap, fun a' ha' ↦ ?_⟩
      rw [eval, eval, heq a' ha']
    intro es
    induction es with
    | nil => exact fun _ h ↦ absurd h id
    | cons e es ihes =>
      intro lower hes hsub hlow
      obtain ⟨d, b⟩ := e
      have hmem := hsub (List.mem_cons_self (a := (d, b)))
      cases hb : (a.diff level).below b with
      | true =>
        obtain ⟨p, hp, hap, heq⟩ := ih (d, b) hmem (hr _ hmem)
        refine ⟨.cdd level lower b :: p, ?_, Assignment.takes_cons.mpr ⟨⟨hlow, hb⟩, hap⟩, ?_⟩
        · exact List.mem_append_left _ (List.mem_map_of_mem hp)
        · intro a' ha'
          obtain ⟨hs', hp'⟩ := Assignment.takes_cons.mp ha'
          rw [evalElem_of_below es hs'.2, heq a' hp', ← evalElem_of_below es hb]
      | false =>
        cases es with
        | nil =>
          have : b = INF := hes
          rw [this, (a.diff level).top_below] at hb
          cases hb
        | cons e' es =>
          obtain ⟨p, hp, hap, heq⟩ := ihes b hes.2
            (fun x hx ↦ hsub (List.mem_cons_of_mem _ hx)) (Or.inr hb)
          refine ⟨p, List.mem_append_right _ hp, hap, fun a' ha' ↦ ?_⟩
          have hb' : (a'.diff level).below b = false :=
            not_below_of_takes hes.2 (by rintro x ⟨⟩; exact hes.1)
              (hrange _ hmem) hp ha'
          rw [evalElem_of_not_below _ hb', heq a' ha', ← evalElem_of_not_below (e := (d, b)) _ hb]

end

end UCDD

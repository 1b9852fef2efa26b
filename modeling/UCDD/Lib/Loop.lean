import Mathlib.Order.Basic
import Mathlib.Tactic.Basic

/-!
# Loops with assertions

A loop runs its body while the guard is true. The body can fail, and it can itself contain loops,
so a run is bounded: it is unfinished when the bound is reached. An invariant that the body keeps
holds of whatever the loop ends with; a measure that the body lowers makes it end.
-/

namespace Loop

/-- The outcome of a bounded run. -/
inductive Run (α : Type) where
  | unfinished
  | failed
  | done (a : α)

namespace Run

variable {α β : Type}

/-- Run the continuation on what was returned. -/
def bind (r : Run α) (f : α → Run β) : Run β :=
  match r with
  | unfinished => unfinished
  | failed => failed
  | done a => f a

instance : Monad Run where
  pure := done
  bind := bind

/-- An operation that returns nothing has failed. -/
def ofOption : Option α → Run α
  | none => failed
  | some a => done a

@[simp] theorem pure_eq (a : α) : (pure a : Run α) = done a := rfl

@[simp] theorem done_bind (a : α) (f : α → Run β) : (done a >>= f) = f a := rfl

@[simp] theorem failed_bind (f : α → Run β) : (failed >>= f) = failed := rfl

@[simp] theorem unfinished_bind (f : α → Run β) : (unfinished >>= f) = unfinished := rfl

@[simp] theorem ofOption_some (a : α) : ofOption (some a) = done a := rfl

@[simp] theorem map_eq (f : α → β) (r : Run α) : (f <$> r) = r.bind fun a ↦ done (f a) := rfl

theorem bind_eq_done {r : Run α} {f : α → Run β} {b : β} (h : (r >>= f) = done b) :
    ∃ a, r = done a ∧ f a = done b := by
  cases r with
  | unfinished => cases h
  | failed => cases h
  | done a => exact ⟨a, rfl, h⟩

theorem ofOption_eq_done {o : Option α} {a : α} (h : ofOption o = done a) : o = some a := by
  cases o with
  | none => cases h
  | some b =>
    cases h
    rfl

/-- The run has not failed, and what it returned satisfies `P`. -/
def Safe (P : α → Prop) : Run α → Prop
  | unfinished => True
  | failed => False
  | done a => P a

@[simp] theorem safe_done {P : α → Prop} {a : α} : Safe P (done a) ↔ P a := Iff.rfl

@[simp] theorem safe_unfinished {P : α → Prop} : Safe P unfinished := trivial

@[simp] theorem not_safe_failed {P : α → Prop} : ¬ Safe P failed := id

theorem Safe.bind {P : α → Prop} {Q : β → Prop} {r : Run α} {f : α → Run β} (h : Safe P r)
    (hf : ∀ a, P a → Safe Q (f a)) : Safe Q (r >>= f) := by
  cases r with
  | unfinished => exact trivial
  | failed => exact h
  | done a => exact hf a h

theorem Safe.mono {P Q : α → Prop} {r : Run α} (h : Safe P r) (hPQ : ∀ a, P a → Q a) :
    Safe Q r := by
  cases r with
  | unfinished => exact trivial
  | failed => exact h
  | done a => exact hPQ a h

theorem Safe.and {P Q : α → Prop} {r : Run α} (h : Safe P r) (h' : Safe Q r) :
    Safe (fun a ↦ P a ∧ Q a) r := by
  cases r with
  | unfinished => exact trivial
  | failed => exact h
  | done a => exact ⟨h, h'⟩

/-- The first run returns nothing that the second one does not. -/
def Le (r r' : Run α) : Prop := ∀ a, r = done a → r' = done a

theorem Le.refl (r : Run α) : Le r r := fun _ h ↦ h

theorem Le.bind {r r' : Run α} {f f' : α → Run β} (h : Le r r') (hf : ∀ a, Le (f a) (f' a)) :
    Le (r >>= f) (r' >>= f') := by
  intro b hb
  obtain ⟨a, ha, hfa⟩ := bind_eq_done hb
  rw [h a ha]
  exact hf a b hfa

end Run

variable {σ : Type} (guard : σ → Bool) (body : σ → Run σ)

/-- The loop with at most `n` tests of its guard. -/
def iterate : ℕ → σ → Run σ
  | 0, _ => .unfinished
  | n + 1, s => if guard s then body s >>= iterate n else .done s

variable {guard body}

/-- A larger bound returns the same, also with a body that returns more often. -/
theorem iterate_le {body' : σ → Run σ} (hbody : ∀ s, Run.Le (body s) (body' s)) {n m : ℕ}
    (h : n ≤ m) (s : σ) : Run.Le (iterate guard body n s) (iterate guard body' m s) := by
  induction n generalizing m s with
  | zero =>
    intro t ht
    cases ht
  | succ n ih =>
    obtain ⟨m, rfl⟩ := Nat.exists_eq_add_of_le' h
    show Run.Le (iterate guard body (n + 1) s) (iterate guard body' (m + n + 1) s)
    rw [iterate, iterate]
    cases guard s with
    | true => exact (hbody s).bind fun t ↦ ih (by omega) t
    | false => exact Run.Le.refl _

/-- Two bounds under which the loop returns give the same. -/
theorem iterate_done_unique {n m : ℕ} {s a b : σ} (ha : iterate guard body n s = .done a)
    (hb : iterate guard body m s = .done b) : a = b := by
  have ha' := iterate_le (fun s ↦ Run.Le.refl (body s)) (Nat.le_max_left n m) s a ha
  have hb' := iterate_le (fun s ↦ Run.Le.refl (body s)) (Nat.le_max_right n m) s b hb
  exact Run.done.inj (ha'.symm.trans hb')

/-- The invariant rule. -/
theorem iterate_safe (Inv : σ → Prop)
    (hbody : ∀ s, Inv s → guard s = true → Run.Safe Inv (body s)) (n : ℕ) {s : σ} (hs : Inv s) :
    Run.Safe (fun t ↦ Inv t ∧ guard t = false) (iterate guard body n s) := by
  induction n generalizing s with
  | zero => exact trivial
  | succ n ih =>
    rw [iterate]
    cases hg : guard s with
    | true => exact (hbody s hs hg).bind fun t ht ↦ ih ht
    | false => exact ⟨hs, hg⟩

/-- The termination rule. The bound is also the bound of the loops in the body. -/
theorem exists_iterate_done (body : ℕ → σ → Run σ) (Inv : σ → Prop) (μ : σ → ℕ)
    (hmono : ∀ n m, n ≤ m → ∀ s, Run.Le (body n s) (body m s))
    (hbody : ∀ s, Inv s → guard s = true → ∃ n t, body n s = .done t ∧ Inv t ∧ μ t < μ s)
    {s : σ} (hs : Inv s) : ∃ n t, iterate guard (body n) n s = .done t := by
  induction hk : μ s using Nat.strongRecOn generalizing s with
  | _ k ih =>
    cases hg : guard s with
    | false => exact ⟨1, s, by rw [iterate, hg]; rfl⟩
    | true =>
      obtain ⟨n, t, ht, hinv, hlt⟩ := hbody s hs hg
      obtain ⟨m, u, hu⟩ := ih (μ t) (hk ▸ hlt) hinv rfl
      refine ⟨max n m + 1, u, ?_⟩
      rw [iterate, hg, if_pos rfl, hmono n (max n m + 1) (by omega) s t ht]
      exact iterate_le (hmono m (max n m + 1) (by omega)) (Nat.le_max_right n m) t u hu

/-- The two rules together, for a body that always returns. -/
theorem exists_iterate_done_inv {body : σ → Run σ} (Inv : σ → Prop) (μ : σ → ℕ)
    (hbody : ∀ s, Inv s → guard s = true → ∃ t, body s = .done t ∧ Inv t ∧ μ t < μ s) {s : σ}
    (hs : Inv s) : ∃ n t, iterate guard body n s = .done t ∧ Inv t ∧ guard t = false := by
  obtain ⟨n, t, ht⟩ := exists_iterate_done (fun _ ↦ body) Inv μ (fun _ _ _ _ ↦ Run.Le.refl _)
    (fun s h hg ↦ ⟨0, hbody s h hg⟩) hs
  have hsafe : Run.Safe (fun t ↦ Inv t ∧ guard t = false) (iterate guard body n s) := by
    apply iterate_safe Inv _ n hs
    intro s h hg
    obtain ⟨t, ht, hinv, -⟩ := hbody s h hg
    rw [ht]
    exact hinv
  rw [ht] at hsafe
  exact ⟨n, t, ht, hsafe⟩

/-- The rules for an invariant that bounds the rounds to come. -/
theorem iterate_done_ranked {body : σ → Run σ} (Inv : ℕ → σ → Prop)
    (hbody : ∀ m s, Inv m s → guard s = true →
      ∃ t, body s = .done t ∧ ∃ m', m' < m ∧ Inv m' t) {n m : ℕ} {s : σ} (hs : Inv m s)
    (hn : m < n) : ∃ t m', iterate guard body n s = .done t ∧ Inv m' t ∧ guard t = false := by
  induction n generalizing m s with
  | zero => exact absurd hn (Nat.not_lt_zero m)
  | succ n ih =>
    rw [iterate]
    cases hg : guard s with
    | false => exact ⟨s, m, rfl, hs, hg⟩
    | true =>
      obtain ⟨t, ht, m', hlt, hinv⟩ := hbody m s hs hg
      obtain ⟨u, m'', hu, hdone⟩ := ih hinv (by omega)
      exact ⟨u, m'', by rw [if_pos rfl, ht, Run.done_bind, hu], hdone⟩

/-- The states in which the guard is tested, from `s` on. -/
inductive Visits (guard : σ → Bool) (body : σ → Run σ) (s : σ) : σ → Prop
  | start : Visits guard body s s
  | step {t u : σ} : Visits guard body s t → guard t = true → body t = .done u →
      Visits guard body s u

/-- What the loop returns, it also returns from each state that it visits. -/
theorem Visits.iterate_done {s t a : σ} (h : Visits guard body s t) {n : ℕ}
    (hn : iterate guard body n s = .done a) : ∃ m, iterate guard body m t = .done a := by
  induction h with
  | start => exact ⟨n, hn⟩
  | @step t u _ hg hu ih =>
    obtain ⟨m, hm⟩ := ih
    cases m with
    | zero => cases hm
    | succ m =>
      rw [iterate, if_pos hg, hu, Run.done_bind] at hm
      exact ⟨m, hm⟩

variable (guard body) in
/-- Where an iteration brings about what makes the next one good, the first state decides. -/
theorem forall_visits_iff (Inv After Good : σ → Prop) (hinv : ∀ s, After s → Inv s)
    (hgood : ∀ s, After s → guard s = true → Good s)
    (hbody : ∀ s t, Inv s → guard s = true → body s = .done t → After t) {s : σ} (hs : Inv s) :
    (∀ t, Visits guard body s t → guard t = true → Good t) ↔ (guard s = true → Good s) := by
  constructor
  · intro h hg
    exact h s .start hg
  · intro h t ht
    have hcases : t = s ∨ After t := by
      induction ht with
      | start => exact Or.inl rfl
      | step _ hg hu ih =>
        right
        cases ih with
        | inl heq => exact hbody _ _ (heq ▸ hs) hg hu
        | inr hafter => exact hbody _ _ (hinv _ hafter) hg hu
    intro hg
    cases hcases with
    | inl heq =>
      subst heq
      exact h hg
    | inr hafter => exact hgood t hafter hg

end Loop

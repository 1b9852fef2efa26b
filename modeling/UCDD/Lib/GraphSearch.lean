import Mathlib.Data.Finset.Basic
import Mathlib.Data.List.Nodup

/-!
# Searching a graph with a stack

A search of the nodes of `K` that are reached from a start. It takes the node at the top of its
stack, marks the children that are not marked yet, and pushes them; the child that it pushes last
is next.
-/

namespace GraphSearch

variable {α : Type} [DecidableEq α]

/-- The nodes of the list that are in `K` and not marked, each once. -/
def unseen (K : Finset α) : Finset α → List α → List α
  | _, [] => []
  | seen, c :: cs =>
    if c ∈ K ∧ c ∉ seen then c :: unseen K (insert c seen) cs else unseen K seen cs

/-- The stacks and the marked nodes in the course of the search. -/
inductive Searched (children : α → List α) (K : Finset α) (first : α) : List α → Finset α → Prop
  | start : Searched children K first [first] {first}
  | visit {node : α} {top : List α} {seen : Finset α} :
      Searched children K first (node :: top) seen →
      Searched children K first ((unseen K seen (children node)).reverse ++ top)
        (seen ∪ (unseen K seen (children node)).toFinset)

variable {K seen : Finset α} {c : α} {cs : List α}

@[simp] theorem mem_unseen : c ∈ unseen K seen cs ↔ c ∈ cs ∧ c ∈ K ∧ c ∉ seen := by
  induction cs generalizing seen with
  | nil => simp [unseen]
  | cons d cs ih =>
    rw [unseen]
    split_ifs with h
    · rw [List.mem_cons, List.mem_cons, ih, Finset.mem_insert]
      constructor
      · intro hc
        cases hc with
        | inl heq => exact ⟨Or.inl heq, heq ▸ h⟩
        | inr hc => exact ⟨Or.inr hc.1, hc.2.1, fun hs ↦ hc.2.2 (Or.inr hs)⟩
      · intro hc
        by_cases heq : c = d
        · exact Or.inl heq
        · exact Or.inr ⟨hc.1.resolve_left heq, hc.2.1, fun hs ↦ hs.elim heq hc.2.2⟩
    · rw [List.mem_cons, ih]
      constructor
      · intro hc
        exact ⟨Or.inr hc.1, hc.2⟩
      · intro hc
        refine ⟨hc.1.resolve_left ?_, hc.2⟩
        intro heq
        exact h (heq ▸ hc.2)

theorem nodup_unseen : (unseen K seen cs).Nodup := by
  induction cs generalizing seen with
  | nil => exact List.nodup_nil
  | cons d cs ih =>
    rw [unseen]
    split_ifs with h
    · rw [List.nodup_cons]
      exact ⟨fun hd ↦ (mem_unseen.mp hd).2.2 (Finset.mem_insert_self d seen), ih⟩
    · exact ih

end GraphSearch

import Mathlib.Data.List.Nodup
import UCDD.Kernel.NodeTable

/-!
# The loops over the chains

What the sweep and the rehashing of `kernel.c:502–532, 801–832` do to the links. Both go down a
chain with cursors at the ends of the lists that they build from its nodes. The sweep keeps the
nodes with references and puts the others on the free list, the last one first; rehashing takes a
chain apart into two.
-/

namespace UCDD

namespace NodeTable

open HashChain Loop Links

variable {E : Env} {ref : ℤ → ℕ} {s free node x : ℤ} {i j : ℕ} {m m' : Links ℕ ℤ}
  {F l P Q : List ℤ} {chain : ℕ → List ℤ} {bucket : ℤ → ℕ}

/-- A node that nothing refers to. -/
def dead (ref : ℤ → ℕ) (a : ℤ) : Bool := decide (ref a = 0)

/-! ### The sweep -/

theorem sweepBody_dead {b : List ℤ} (h : ref node = 0) :
    sweepBody ref ⟨m, free, outlet j b, node⟩ =
      .done ⟨m.set (.next node) free, node, outlet j b, m.next node⟩ := by
  simp [sweepBody, h]

theorem sweepBody_alive {b : List ℤ} (h : ref node ≠ 0) :
    sweepBody ref ⟨m, free, outlet j b, node⟩ =
      .done ⟨m.set (outlet j b) node, free, outlet j (b ++ [node]), m.next node⟩ := by
  simp [sweepBody, h]

/-- The links when the sweep of a chain has kept the nodes of `b`, and `l` is still to come. -/
structure Sweeping (s : ℤ) (j : ℕ) (b l F : List ℤ) (t : Sweep) : Prop where
  p : t.p = outlet j b
  ends : t.links.Ends j b
  rest : Segment t.links.next s t.node l
  stop : s ∉ l
  nodup : (b ++ l).Nodup
  free : Segment t.links.next 0 t.free F
  disjoint : ∀ a ∈ b ++ l, a ∉ F

variable (ref) in
/-- The free list after the loop, and what the loop leaves alone. -/
theorem Sweeping.iterate {b : List ℤ} {fuel : ℕ} {t : Sweep} (h : Sweeping s j b l F t)
    (hfuel : l.length < fuel) :
    ∃ u, iterate (fun t : Sweep ↦ decide (t.node ≠ s)) (sweepBody ref) fuel t = .done u ∧
      Sweeping s j (b ++ l.filter fun a ↦ !dead ref a) []
        ((l.filter (dead ref)).reverse ++ F) u ∧
      (∀ i, i ≠ j → u.links.head i = t.links.head i) ∧
      ∀ a, a ∉ b ++ l → u.links.next a = t.links.next a := by
  induction l generalizing b fuel t F with
  | nil =>
    obtain ⟨n, rfl⟩ : ∃ n, fuel = n + 1 := Nat.exists_eq_succ_of_ne_zero (by omega)
    have hnode : t.node = s := h.rest
    refine ⟨t, ?_, ?_, fun i _ ↦ rfl, fun a _ ↦ rfl⟩
    · rw [Loop.iterate]
      simp [hnode]
    · simpa using h
  | cons a l ih =>
    obtain ⟨m, free, p, node⟩ := t
    obtain ⟨hp, hends, ⟨hnode, hrest⟩, hstop, hnodup, hfree, hdisj⟩ := h
    simp only at hp hends hnode hrest hfree
    subst hp hnode
    rw [List.length_cons] at hfuel
    obtain ⟨n, rfl⟩ : ∃ n, fuel = n + 1 := Nat.exists_eq_succ_of_ne_zero (by omega)
    have hne : node ≠ s := fun heq ↦ hstop (heq ▸ List.mem_cons_self)
    have hmid := List.nodup_append.mp hnodup
    have hb : node ∉ b := fun hb ↦ hmid.2.2 node hb node List.mem_cons_self rfl
    have hl : node ∉ l := (List.nodup_cons.mp hmid.2.1).1
    have hbl : ∀ c ∈ l, c ∉ b := fun c hc hcb ↦
      hmid.2.2 c hcb c (List.mem_cons_of_mem _ hc) rfl
    have hF : node ∉ F := hdisj node (by simp)
    rw [Loop.iterate, if_pos (by simpa using hne)]
    by_cases hdead : ref node = 0
    · -- the node goes to the free list
      have hother (c : ℤ) (hc : c ≠ node) : (m.set (.next node) free).next c = m.next c :=
        set_next_other hc
      have hsweep : Sweeping s j b l (node :: F)
          ⟨m.set (.next node) free, node, outlet j b, m.next node⟩ := by
        refine ⟨rfl, ?_, ?_, fun hs ↦ hstop (List.mem_cons_of_mem _ hs), ?_, ⟨rfl, ?_⟩, ?_⟩
        · exact hends.congr rfl fun c hc ↦ hother c fun heq ↦ hb (heq ▸ hc)
        · exact hrest.congr fun c hc ↦ hother c fun heq ↦ hl (heq ▸ hc)
        · exact hnodup.sublist (List.Sublist.append_left (List.sublist_cons_self _ _) _)
        · rw [set_next_self]
          exact hfree.congr fun c hc ↦ hother c fun heq ↦ hF (heq ▸ hc)
        · intro c hc
          rw [List.mem_cons, not_or]
          refine ⟨fun heq ↦ ?_, hdisj c (by simp at hc ⊢; tauto)⟩
          subst heq
          cases List.mem_append.mp hc with
          | inl hc => exact hb hc
          | inr hc => exact hl hc
      obtain ⟨u, hu, hdone, hhead, hnext⟩ := ih hsweep (show l.length < n by omega)
      refine ⟨u, ?_, ?_, hhead, ?_⟩
      · rw [sweepBody_dead hdead, Run.done_bind]
        exact hu
      · simpa [dead, hdead] using hdone
      · intro c hc
        rw [hnext c (by simp at hc ⊢; tauto)]
        exact hother c (by simp at hc; tauto)
    · -- the node stays
      have hsweep : Sweeping s j (b ++ [node]) l F
          ⟨m.set (outlet j b) node, free, outlet j (b ++ [node]), m.next node⟩ := by
        refine ⟨rfl, hends.push hb, ?_, fun hs ↦ hstop (List.mem_cons_of_mem _ hs), ?_, ?_, ?_⟩
        · exact hrest.congr fun c hc ↦ set_outlet_next (hbl c hc)
        · rwa [List.append_assoc]
        · exact hfree.congr fun c hc ↦ set_outlet_next fun hcb ↦ hdisj c (by simp [hcb]) hc
        · intro c hc
          exact hdisj c (by simpa [List.append_assoc] using hc)
      obtain ⟨u, hu, hdone, hhead, hnext⟩ := ih hsweep (show l.length < n by omega)
      refine ⟨u, ?_, ?_, ?_, ?_⟩
      · rw [sweepBody_alive hdead, Run.done_bind]
        exact hu
      · simpa [dead, hdead] using hdone
      · intro i hi
        rw [hhead i hi]
        exact set_outlet_head hi
      · intro c hc
        rw [hnext c (by simpa [List.append_assoc] using hc)]
        exact set_outlet_next (by simp at hc; tauto)

variable (ref) in
/-- The sweep of one bucket. -/
theorem sweepBucket_spec (h : Segment m.next s (m.head j) l) (hs : s ∉ l) (hnodup : l.Nodup)
    (hfree : Segment m.next 0 free F) (hdisj : ∀ a ∈ l, a ∉ F) (hfuel : l.length < E.fuel) :
    ∃ m' free', sweepBucket E ref s (m, free) j = .done (m', free') ∧
      Segment m'.next s (m'.head j) (l.filter fun a ↦ !dead ref a) ∧
      Segment m'.next 0 free' ((l.filter (dead ref)).reverse ++ F) ∧
      (∀ i, i ≠ j → m'.head i = m.head i) ∧ ∀ a, a ∉ l → m'.next a = m.next a := by
  have hstart : Sweeping s j [] l F ⟨m, free, .head j, m.head j⟩ :=
    ⟨rfl, ends_nil m j, h, hs, hnodup, hfree, hdisj⟩
  obtain ⟨u, hu, hdone, hhead, hnext⟩ := hstart.iterate ref hfuel
  have hkept := hdone.nodup
  have hapart := hdone.disjoint
  simp only [List.nil_append, List.append_nil] at hdone hkept hapart
  refine ⟨u.links.set u.p s, u.free, ?_, ?_, ?_, ?_, ?_⟩
  · rw [sweepBucket, hu]
    rfl
  · rw [hdone.p]
    exact hdone.ends.segment_set s
  · rw [hdone.p]
    apply hdone.free.congr
    intro a ha
    apply set_outlet_next
    intro hmem
    exact hapart a hmem ha
  · intro i hi
    rw [hdone.p, set_outlet_head hi]
    exact hhead i hi
  · intro a ha
    rw [hdone.p, set_outlet_next fun hmem ↦ ha (List.mem_of_mem_filter hmem)]
    exact hnext a ha

variable (ref) in
/-- The sweep of the buckets in a list. -/
theorem sweepBuckets_spec {L : List ℕ} (hL : L.Nodup)
    (h : ∀ j ∈ L, Segment m.next s (m.head j) (chain j)) (hs : s ∉ L.flatMap chain)
    (hnodup : (L.flatMap chain).Nodup) (hfree : Segment m.next 0 free F)
    (hdisj : ∀ a ∈ L.flatMap chain, a ∉ F) (hfuel : ∀ j ∈ L, (chain j).length < E.fuel) :
    ∃ m' free', L.foldlM (sweepBucket E ref s) (m, free) = .done (m', free') ∧
      (∀ j ∈ L, Segment m'.next s (m'.head j) ((chain j).filter fun a ↦ !dead ref a)) ∧
      Segment m'.next 0 free' (((L.flatMap chain).filter (dead ref)).reverse ++ F) ∧
      (∀ i, i ∉ L → m'.head i = m.head i) ∧ ∀ a, a ∉ L.flatMap chain → m'.next a = m.next a := by
  induction L generalizing m free F with
  | nil => exact ⟨m, free, rfl, by simp, hfree, fun i _ ↦ rfl, fun a _ ↦ rfl⟩
  | cons j L ih =>
    rw [List.nodup_cons] at hL
    rw [List.forall_mem_cons] at h hfuel
    simp only [List.flatMap_cons] at hs hnodup hdisj ⊢
    obtain ⟨hnj, hnL, hapart⟩ := List.nodup_append.mp hnodup
    rw [List.mem_append, not_or] at hs
    obtain ⟨m₁, free₁, hrun, hchain, hfree₁, hhead₁, hnext₁⟩ := sweepBucket_spec (E := E)
      ref h.1 hs.1 hnj hfree (fun a ha ↦ hdisj a (List.mem_append_left _ ha)) hfuel.1
    have hrest (a : ℤ) (ha : a ∈ L.flatMap chain) : a ∉ chain j :=
      fun hj ↦ hapart a hj a ha rfl
    have hmem (i : ℕ) (hi : i ∈ L) (a : ℤ) (ha : a ∈ chain i) : a ∈ L.flatMap chain :=
      List.mem_flatMap.mpr ⟨i, hi, ha⟩
    obtain ⟨m₂, free₂, hrun₂, hchain₂, hfree₂, hhead₂, hnext₂⟩ := ih (m := m₁) hL.2
      (fun i hi ↦ by
        rw [hhead₁ i fun heq ↦ hL.1 (heq ▸ hi)]
        exact (h.2 i hi).congr fun a ha ↦ hnext₁ a (hrest a (hmem i hi a ha)))
      hs.2 hnL hfree₁
      (fun a ha ↦ by
        rw [List.mem_append, not_or, List.mem_reverse]
        exact ⟨fun hj ↦ hrest a ha (List.mem_of_mem_filter hj),
          hdisj a (List.mem_append_right _ ha)⟩)
      hfuel.2
    refine ⟨m₂, free₂, ?_, ?_, ?_, ?_, ?_⟩
    · rw [List.foldlM_cons, hrun]
      exact hrun₂
    · rw [List.forall_mem_cons]
      refine ⟨?_, hchain₂⟩
      rw [hhead₂ j hL.1]
      apply hchain.congr
      intro a ha
      apply hnext₂
      intro hL'
      exact hrest a hL' (List.mem_of_mem_filter ha)
    · simpa [List.filter_append, List.append_assoc] using hfree₂
    · intro i hi
      rw [List.mem_cons, not_or] at hi
      rw [hhead₂ i hi.2, hhead₁ i hi.1]
    · intro a ha
      rw [List.mem_append, not_or] at ha
      rw [hnext₂ a ha.2, hnext₁ a ha.1]

/-! ### Rehashing -/

/-- The lowest bit of the new bucket. -/
def upper (bucket : ℤ → ℕ) (a : ℤ) : Bool := decide (bucket a % 2 = 1)

theorem splitBody_upper {p q : Cursor ℕ ℤ} (h : bucket node % 2 = 1) :
    splitBody bucket ⟨m, p, q, node⟩ =
      .done ⟨m.set q node, p, .next node, (m.set q node).next node⟩ := by
  simp [splitBody, h]

theorem splitBody_lower {p q : Cursor ℕ ℤ} (h : bucket node % 2 ≠ 1) :
    splitBody bucket ⟨m, p, q, node⟩ =
      .done ⟨m.set p node, .next node, q, (m.set p node).next node⟩ := by
  simp [splitBody, h]

/-- The links when rehashing has taken the nodes of `P` and of `Q` from an old chain, and `l` is
still to come. -/
structure Splitting (s : ℤ) (i : ℕ) (P Q l : List ℤ) (t : Split) : Prop where
  p : t.p = outlet (2 * i) P
  q : t.q = outlet (2 * i + 1) Q
  lower : t.links.Ends (2 * i) P
  upper : t.links.Ends (2 * i + 1) Q
  rest : Segment t.links.next s t.node l
  stop : s ∉ l
  apart : ∀ a ∈ P, a ∉ Q
  ahead : ∀ a ∈ l, a ∉ P ∧ a ∉ Q
  nodup : l.Nodup

variable (bucket) in
/-- The nodes go to the ends of the two new chains. -/
theorem Splitting.iterate {fuel : ℕ} {t : Split} (h : Splitting s i P Q l t)
    (hfuel : l.length < fuel) :
    ∃ u, iterate (fun t : Split ↦ decide (t.node ≠ s)) (splitBody bucket) fuel t = .done u ∧
      Splitting s i (P ++ l.filter fun a ↦ !NodeTable.upper bucket a)
        (Q ++ l.filter (NodeTable.upper bucket)) [] u ∧
      (∀ j, j ≠ 2 * i → j ≠ 2 * i + 1 → u.links.head j = t.links.head j) ∧
      ∀ a, a ∉ P → a ∉ Q → a ∉ l → u.links.next a = t.links.next a := by
  induction l generalizing P Q fuel t with
  | nil =>
    obtain ⟨n, rfl⟩ : ∃ n, fuel = n + 1 := Nat.exists_eq_succ_of_ne_zero (by omega)
    have hnode : t.node = s := h.rest
    refine ⟨t, ?_, ?_, fun j _ _ ↦ rfl, fun a _ _ _ ↦ rfl⟩
    · rw [Loop.iterate]
      simp [hnode]
    · simpa using h
  | cons a l ih =>
    obtain ⟨m, p, q, node⟩ := t
    obtain ⟨hp, hq, hlower, hupper, ⟨hnode, hrest⟩, hstop, hapart, hahead, hnodup⟩ := h
    simp only at hp hq hlower hupper hnode hrest
    subst hp hq hnode
    rw [List.length_cons] at hfuel
    rw [List.nodup_cons] at hnodup
    rw [List.forall_mem_cons] at hahead
    obtain ⟨⟨hP, hQ⟩, hahead⟩ := hahead
    obtain ⟨n, rfl⟩ : ∃ n, fuel = n + 1 := Nat.exists_eq_succ_of_ne_zero (by omega)
    have hne : node ≠ s := fun heq ↦ hstop (heq ▸ List.mem_cons_self)
    have hstop' : s ∉ l := fun hs ↦ hstop (List.mem_cons_of_mem _ hs)
    have hnot {c : ℤ} (hc : c ∈ l) : c ≠ node := fun heq ↦ hnodup.1 (heq ▸ hc)
    rw [Loop.iterate, if_pos (by simpa using hne)]
    by_cases hbit : bucket node % 2 = 1
    · have hsplit : Splitting s i P (Q ++ [node]) l
          ⟨m.set (outlet (2 * i + 1) Q) node, outlet (2 * i) P, .next node,
            (m.set (outlet (2 * i + 1) Q) node).next node⟩ := by
        refine ⟨rfl, (outlet_concat _ Q node).symm, ?_, hupper.push hQ, ?_, hstop', ?_, ?_,
          hnodup.2⟩
        · exact hlower.set_other (by omega) hapart node
        · rw [set_outlet_next hQ]
          exact hrest.congr fun c hc ↦ set_outlet_next (hahead c hc).2
        · intro c hc
          rw [List.mem_append, List.mem_singleton, not_or]
          exact ⟨hapart c hc, fun heq ↦ hP (heq ▸ hc)⟩
        · intro c hc
          rw [List.mem_append, List.mem_singleton, not_or]
          exact ⟨(hahead c hc).1, (hahead c hc).2, hnot hc⟩
      obtain ⟨u, hu, hdone, hhead, hnext⟩ := ih hsplit (show l.length < n by omega)
      refine ⟨u, ?_, ?_, ?_, ?_⟩
      · rw [splitBody_upper hbit, Run.done_bind]
        exact hu
      · simpa [NodeTable.upper, hbit] using hdone
      · intro j hj hj'
        rw [hhead j hj hj']
        exact set_outlet_head hj'
      · intro c hcP hcQ hcl
        rw [List.mem_cons, not_or] at hcl
        rw [hnext c hcP (by simp [hcQ, hcl.1]) hcl.2]
        exact set_outlet_next hcQ
    · have hsplit : Splitting s i (P ++ [node]) Q l
          ⟨m.set (outlet (2 * i) P) node, .next node, outlet (2 * i + 1) Q,
            (m.set (outlet (2 * i) P) node).next node⟩ := by
        refine ⟨(outlet_concat _ P node).symm, rfl, hlower.push hP, ?_, ?_, hstop', ?_, ?_,
          hnodup.2⟩
        · exact hupper.set_other (by omega) (fun c hc hcP ↦ hapart c hcP hc) node
        · rw [set_outlet_next hP]
          exact hrest.congr fun c hc ↦ set_outlet_next (hahead c hc).1
        · intro c hc
          cases List.mem_append.mp hc with
          | inl hc => exact hapart c hc
          | inr hc => exact List.mem_singleton.mp hc ▸ hQ
        · intro c hc
          rw [List.mem_append, List.mem_singleton, not_or]
          exact ⟨⟨(hahead c hc).1, hnot hc⟩, (hahead c hc).2⟩
      obtain ⟨u, hu, hdone, hhead, hnext⟩ := ih hsplit (show l.length < n by omega)
      refine ⟨u, ?_, ?_, ?_, ?_⟩
      · rw [splitBody_lower hbit, Run.done_bind]
        exact hu
      · simpa [NodeTable.upper, hbit] using hdone
      · intro j hj hj'
        rw [hhead j hj hj']
        exact set_outlet_head hj
      · intro c hcP hcQ hcl
        rw [List.mem_cons, not_or] at hcl
        rw [hnext c (by simp [hcP, hcl.1]) hcQ hcl.2]
        exact set_outlet_next hcP

variable (bucket) in
/-- Rehashing takes one old chain apart. -/
theorem splitBucket_spec {oldhash : ℕ → ℤ} (h : Segment m.next s (oldhash i) l) (hs : s ∉ l)
    (hnodup : l.Nodup) (hfuel : l.length < E.fuel) :
    ∃ m', splitBucket E bucket s oldhash m i = .done m' ∧
      Segment m'.next s (m'.head (2 * i)) (l.filter fun a ↦ !upper bucket a) ∧
      Segment m'.next s (m'.head (2 * i + 1)) (l.filter (upper bucket)) ∧
      (∀ j, j ≠ 2 * i → j ≠ 2 * i + 1 → m'.head j = m.head j) ∧
      ∀ a, a ∉ l → m'.next a = m.next a := by
  have hstart : Splitting s i [] [] l ⟨m, .head (2 * i), .head (2 * i + 1), oldhash i⟩ :=
    ⟨rfl, rfl, ends_nil m _, ends_nil m _, h, hs, by simp, by simp, hnodup⟩
  obtain ⟨u, hu, hdone, hhead, hnext⟩ := hstart.iterate bucket hfuel
  have hapart := hdone.apart
  simp only [List.nil_append] at hdone hapart
  have hlower := (hdone.lower.set_other (i := 2 * i + 1) (by omega) hapart s).segment_set s
  have hupper := hdone.upper.segment_set s
  refine ⟨(u.links.set u.q s).set u.p s, ?_, ?_, ?_, ?_, ?_⟩
  · rw [splitBucket, hu]
    rfl
  · rw [hdone.p, hdone.q]
    exact hlower
  · rw [hdone.p, hdone.q, set_outlet_head (by omega)]
    apply hupper.congr
    intro a ha
    apply set_outlet_next
    intro hmem
    exact hapart a hmem ha
  · intro j hj hj'
    rw [hdone.p, hdone.q, set_outlet_head hj, set_outlet_head hj']
    exact hhead j hj hj'
  · intro a ha
    rw [hdone.p, hdone.q, set_outlet_next fun hmem ↦ ha (List.mem_of_mem_filter hmem),
      set_outlet_next fun hmem ↦ ha (List.mem_of_mem_filter hmem)]
    exact hnext a (by simp) (by simp) ha

variable (bucket) in
/-- Rehashing of the old buckets in a list. -/
theorem splitBuckets_spec {oldhash : ℕ → ℤ} {L : List ℕ} (hL : L.Nodup)
    (h : ∀ i ∈ L, Segment m.next s (oldhash i) (chain i)) (hs : s ∉ L.flatMap chain)
    (hnodup : (L.flatMap chain).Nodup) (hfuel : ∀ i ∈ L, (chain i).length < E.fuel) :
    ∃ m', L.foldlM (splitBucket E bucket s oldhash) m = .done m' ∧
      (∀ i ∈ L, Segment m'.next s (m'.head (2 * i)) ((chain i).filter fun a ↦ !upper bucket a) ∧
        Segment m'.next s (m'.head (2 * i + 1)) ((chain i).filter (upper bucket))) ∧
      (∀ j, j / 2 ∉ L → m'.head j = m.head j) ∧
      ∀ a, a ∉ L.flatMap chain → m'.next a = m.next a := by
  induction L generalizing m with
  | nil => exact ⟨m, rfl, by simp, fun j _ ↦ rfl, fun a _ ↦ rfl⟩
  | cons i L ih =>
    rw [List.nodup_cons] at hL
    rw [List.forall_mem_cons] at h hfuel
    simp only [List.flatMap_cons] at hs hnodup ⊢
    obtain ⟨hni, hnL, hapart⟩ := List.nodup_append.mp hnodup
    rw [List.mem_append, not_or] at hs
    obtain ⟨m₁, hrun, hlower, hupper, hhead₁, hnext₁⟩ :=
      splitBucket_spec (E := E) bucket h.1 hs.1 hni hfuel.1
    have hrest (j : ℕ) (hj : j ∈ L) (a : ℤ) (ha : a ∈ chain j) : a ∉ chain i :=
      fun hi ↦ hapart a hi a (List.mem_flatMap.mpr ⟨j, hj, ha⟩) rfl
    obtain ⟨m₂, hrun₂, hchain₂, hhead₂, hnext₂⟩ := ih (m := m₁) hL.2
      (fun j hj ↦ (h.2 j hj).congr fun a ha ↦ hnext₁ a (hrest j hj a ha)) hs.2 hnL hfuel.2
    have hkeep (a : ℤ) (ha : a ∈ chain i) : m₂.next a = m₁.next a :=
      hnext₂ a fun hL' ↦ hapart a ha a hL' rfl
    refine ⟨m₂, ?_, ?_, ?_, ?_⟩
    · rw [List.foldlM_cons, hrun]
      exact hrun₂
    · rw [List.forall_mem_cons]
      refine ⟨⟨?_, ?_⟩, hchain₂⟩
      · have hhalf : 2 * i / 2 = i := by omega
        rw [hhead₂ (2 * i) (by rw [hhalf]; exact hL.1)]
        exact hlower.congr fun a ha ↦ hkeep a (List.mem_of_mem_filter ha)
      · have hhalf : (2 * i + 1) / 2 = i := by omega
        rw [hhead₂ (2 * i + 1) (by rw [hhalf]; exact hL.1)]
        exact hupper.congr fun a ha ↦ hkeep a (List.mem_of_mem_filter ha)
    · intro j hj
      rw [List.mem_cons, not_or] at hj
      rw [hhead₂ j hj.2, hhead₁ j (by omega) (by omega)]
    · intro a ha
      rw [List.mem_append, not_or] at ha
      rw [hnext₂ a ha.2, hnext₁ a ha.1]

end NodeTable

end UCDD

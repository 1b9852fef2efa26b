import Mathlib.Data.List.Nodup
import Mathlib.Data.List.Range
import Mathlib.Tactic.Linarith
import Mathlib.Tactic.Ring
import UCDD.Kernel.Chains

/-!
# Chunks and free lists

`cdd_alloc_chunk` of `kernel.c:398–423` puts nodes of equal size into a chunk, after its header, and
threads them onto the free list. All goes well as long as the chunk has room for one node.
-/

namespace UCDD

namespace NodeTable

open HashChain Loop Links Counter

/-- What the operating system promises: chunks on their boundaries, not at `NULL`, and never the
same one twice. -/
structure Env.Valid (E : Env) : Prop where
  aligned : ∀ n, E.os n % CHUNKSIZE = 0
  pos : ∀ n, 0 < E.os n
  injective : Function.Injective E.os

/-- A node size for which a chunk has room. -/
structure Fits (bytes : ℤ) : Prop where
  pos : 16 ≤ bytes
  words : bytes % 16 = 0
  le : bytes ≤ CHUNKSIZE - SIZEOF_CHUNK

/-- An address at which a node of this size starts in one of the chunks. -/
def IsSlot (bytes : ℤ) (nodes : List ℤ) (a : ℤ) : Prop :=
  cddNode2chunk a ∈ nodes ∧ ∃ j : ℤ, 0 ≤ j ∧ a = cddNode2chunk a + SIZEOF_CHUNK + j * bytes ∧
    (j + 1) * bytes ≤ CHUNKSIZE - SIZEOF_CHUNK

/-- The first `n` nodes of a chunk. -/
def chunkSlots (first bytes : ℤ) (n : ℕ) : List ℤ := (List.range n).map fun j : ℕ ↦ first + j * bytes

/-- The free list of a manager, and where its chunks and its free nodes are. -/
structure FreeOk (bytes : ℤ) (h : Heap) (man : NodeManager) (F : List ℤ) : Prop where
  nodesize : man.nodesize = bytes
  chunk : ∀ c ∈ man.nodes, c % CHUNKSIZE = 0 ∧ 0 < c
  segment : Segment h.next 0 man.free F
  nodup : F.Nodup
  slot : ∀ a ∈ F, IsSlot bytes man.nodes a

section

variable {E : Env} {bytes first chunk a b p : ℤ} {nodes F : List ℤ} {n : ℕ} {h : Heap}
  {man : NodeManager} {next next' : ℤ → ℤ}

theorem fits_nodeBytes {i : ℕ} (hi : nodeBytes i ≤ CHUNKSIZE - SIZEOF_CHUNK) :
    Fits (nodeBytes i) := by
  cases i with
  | zero => exact ⟨by decide, by decide, hi⟩
  | succ i =>
    refine ⟨?_, ?_, hi⟩
    · show 16 ≤ 16 + 16 * ((i : ℤ) + 1)
      omega
    · show (16 + 16 * ((i : ℤ) + 1)) % 16 = 0
      omega

theorem Fits.nodeStep_eq (hb : Fits bytes) : nodeStep bytes = bytes := by
  obtain ⟨hpos, hwords, hle⟩ := hb
  have hle' : bytes ≤ 65520 := hle
  have hmod : bytes % 2 ^ 64 = bytes := Int.emod_eq_of_lt (by omega) (by omega)
  rw [nodeStep, hmod, int32_of_mem (by omega) (by omega)]
  omega

theorem Fits.chunkNodes_eq (hb : Fits bytes) :
    chunkNodes bytes = (CHUNKSIZE - SIZEOF_CHUNK) / bytes := by
  obtain ⟨hpos, hwords, hle⟩ := hb
  have hle' : bytes ≤ 65520 := hle
  have hmod : bytes % 2 ^ 64 = bytes := Int.emod_eq_of_lt (by omega) (by omega)
  have hsize : CHUNKSIZE - SIZEOF_CHUNK = 65520 := rfl
  have hdiv : 65520 / bytes ≤ 65520 := Int.ediv_le_self bytes (by omega)
  have hnonneg : 0 ≤ 65520 / bytes := Int.ediv_nonneg (by omega) (by omega)
  rw [chunkNodes, hmod, hsize]
  exact int32_of_mem (by omega) (by omega)

/-- A chunk has room for at least one node, and for all that are put into it. -/
theorem Fits.chunkNodes_spec (hb : Fits bytes) :
    ∃ n : ℕ, chunkNodes bytes = n + 1 ∧ ((n : ℤ) + 1) * bytes ≤ CHUNKSIZE - SIZEOF_CHUNK ∧
      n < 4095 := by
  obtain ⟨hpos, hwords, hle⟩ := id hb
  have hsize : CHUNKSIZE - SIZEOF_CHUNK = 65520 := rfl
  rw [hb.chunkNodes_eq]
  rw [hsize] at hle ⊢
  have hone : 1 ≤ 65520 / bytes := Int.le_ediv_of_mul_le (by omega) (by omega)
  have hmul : 65520 / bytes * bytes ≤ 65520 := Int.ediv_mul_le 65520 (by omega)
  have hmost : 65520 / bytes ≤ 4095 := by
    apply Int.ediv_le_of_le_mul (by omega)
    omega
  obtain ⟨n, hn⟩ := Int.eq_ofNat_of_zero_le (a := 65520 / bytes - 1) (by omega)
  have heq : 65520 / bytes = n + 1 := by omega
  refine ⟨n, heq, ?_, by omega⟩
  rw [← heq]
  exact hmul

/-- A slot of a chunk lies in it. -/
theorem node2chunk_slot (hchunk : chunk % CHUNKSIZE = 0) {j : ℤ} (hpos : 0 ≤ bytes) (hj : 0 ≤ j)
    (hle : (j + 1) * bytes ≤ CHUNKSIZE - SIZEOF_CHUNK) (hb : 0 < bytes) :
    cddNode2chunk (chunk + SIZEOF_CHUNK + j * bytes) = chunk := by
  have hj0 : 0 ≤ j * bytes := Int.mul_nonneg hj hpos
  have hexp : (j + 1) * bytes = j * bytes + bytes := by ring
  have hsize : CHUNKSIZE = 65536 := rfl
  have hhead : SIZEOF_CHUNK = 16 := rfl
  unfold cddNode2chunk
  rw [hexp] at hle
  rw [hsize] at hchunk hle ⊢
  rw [hhead] at hle ⊢
  generalize j * bytes = x at *
  omega

theorem mem_chunkSlots : a ∈ chunkSlots first bytes n ↔ ∃ j : ℕ, j < n ∧ first + j * bytes = a := by
  simp [chunkSlots]

theorem chunkSlots_nodup (first : ℤ) (n : ℕ) (hb : 0 < bytes) : (chunkSlots first bytes n).Nodup := by
  refine List.Nodup.map ?_ List.nodup_range
  intro i j hij
  have hmul : (i : ℤ) * bytes = j * bytes := by
    simp only at hij
    omega
  exact_mod_cast Int.eq_of_mul_eq_mul_right (by omega) hmul

/-- The nodes of a new chunk are slots. -/
theorem isSlot_of_mem_chunkSlots (nodes : List ℤ) (hb : Fits bytes) (hchunk : chunk % CHUNKSIZE = 0)
    (hn : chunkNodes bytes = n) (ha : a ∈ chunkSlots (chunk + SIZEOF_CHUNK) bytes n) :
    cddNode2chunk a = chunk ∧ IsSlot bytes (chunk :: nodes) a := by
  obtain ⟨j, hj, rfl⟩ := mem_chunkSlots.mp ha
  obtain ⟨m, hm, hle, -⟩ := hb.chunkNodes_spec
  have hpos := hb.pos
  have hjle : ((j : ℤ) + 1) * bytes ≤ CHUNKSIZE - SIZEOF_CHUNK := by
    have hjm : (j : ℤ) + 1 ≤ m + 1 := by omega
    have hmul := mul_le_mul_of_nonneg_right hjm (show 0 ≤ bytes by omega)
    omega
  have hnode := node2chunk_slot (j := j) hchunk (by omega) (by omega) hjle (by omega)
  refine ⟨hnode, ?_, j, by omega, ?_, hjle⟩
  · rw [hnode]
    exact List.mem_cons_self
  · rw [hnode]

theorem IsSlot.mono (hs : IsSlot bytes nodes a) (c : ℤ) : IsSlot bytes (c :: nodes) a :=
  ⟨List.mem_cons_of_mem _ hs.1, hs.2⟩

theorem IsSlot.pos (hs : IsSlot bytes nodes a) (hb : 0 ≤ bytes)
    (hchunk : ∀ c ∈ nodes, c % CHUNKSIZE = 0 ∧ 0 < c) : 0 < a := by
  obtain ⟨hmem, j, hj, ha, -⟩ := hs
  have hc := (hchunk _ hmem).2
  have hj0 : 0 ≤ j * bytes := Int.mul_nonneg hj hb
  have hhead : SIZEOF_CHUNK = 16 := rfl
  omega

/-- Two nodes of one manager that are not the same do not overlap. -/
theorem IsSlot.apart (hs : IsSlot bytes nodes a) (hs' : IsSlot bytes nodes b)
    (hchunk : cddNode2chunk a = cddNode2chunk b) (hb : 0 < bytes) (hne : a ≠ b) :
    a + bytes ≤ b ∨ b + bytes ≤ a := by
  obtain ⟨-, i, -, ha, -⟩ := hs
  obtain ⟨-, j, -, hb', -⟩ := hs'
  have hij : i ≠ j := by
    intro heq
    rw [ha, hb', hchunk, heq] at hne
    exact hne rfl
  cases lt_or_gt_of_ne hij with
  | inl hlt =>
    left
    have hmul : (i + 1) * bytes ≤ j * bytes := mul_le_mul_of_nonneg_right hlt hb.le
    rw [add_mul, one_mul] at hmul
    omega
  | inr hlt =>
    right
    have hmul : (j + 1) * bytes ≤ i * bytes := mul_le_mul_of_nonneg_right hlt hb.le
    rw [add_mul, one_mul] at hmul
    omega

/-- A slot lies in its chunk, after the header. -/
theorem IsSlot.inside (hs : IsSlot bytes nodes a) (hb : 0 ≤ bytes) :
    cddNode2chunk a + SIZEOF_CHUNK ≤ a ∧ a + bytes ≤ cddNode2chunk a + CHUNKSIZE := by
  obtain ⟨-, j, hj, ha, hle⟩ := hs
  have hj0 : 0 ≤ j * bytes := Int.mul_nonneg hj hb
  rw [add_mul, one_mul] at hle
  omega

/-! ### A new chunk -/

/-- The threading loop with `k` nodes to come, when the others are threaded. -/
theorem threadNodes_spec (hb : 0 < bytes) {k fuel : ℕ} (hk : k ≤ n) (hfuel : k < fuel)
    (hseg : Segment next b (first + k * bytes) ((chunkSlots first bytes n).drop k ++ F))
    (hF : ∀ a ∈ F, a ∉ chunkSlots first bytes n) :
    ∃ next' q, iterate (fun s : (ℤ → ℤ) × ℤ ↦ decide (first ≤ s.2))
        (fun s ↦ .done (Function.update s.1 s.2 (s.2 + bytes), s.2 - bytes)) fuel
          (next, first + k * bytes - bytes) = .done (next', q) ∧
      Segment next' b first (chunkSlots first bytes n ++ F) ∧
      ∀ a, a ∉ chunkSlots first bytes n → next' a = next a := by
  induction k generalizing next fuel with
  | zero =>
    obtain ⟨m, rfl⟩ : ∃ m, fuel = m + 1 := Nat.exists_eq_succ_of_ne_zero (by omega)
    refine ⟨next, first + 0 * bytes - bytes, ?_, ?_, fun a _ ↦ rfl⟩
    · rw [Loop.iterate, if_neg (by simp; omega)]
      simp
    · simpa using hseg
  | succ k ih =>
    obtain ⟨m, rfl⟩ : ∃ m, fuel = m + 1 := Nat.exists_eq_succ_of_ne_zero (by omega)
    have hlen : (chunkSlots first bytes n).length = n := by simp [chunkSlots]
    have hp : first + ((k + 1 : ℕ) : ℤ) * bytes - bytes = first + k * bytes := by
      push_cast
      ring
    have hnext : first + k * bytes + bytes = first + ((k + 1 : ℕ) : ℤ) * bytes := by
      push_cast
      ring
    have hpos : 0 ≤ (k : ℤ) * bytes := Int.mul_nonneg (by omega) hb.le
    have hdrop : (chunkSlots first bytes n).drop k =
        (first + k * bytes) :: (chunkSlots first bytes n).drop (k + 1) := by
      rw [List.drop_eq_getElem_cons (by omega)]
      simp [chunkSlots]
    have hnodup := chunkSlots_nodup first n hb
    have hmem : first + (k : ℤ) * bytes ∈ chunkSlots first bytes n :=
      mem_chunkSlots.mpr ⟨k, by omega, rfl⟩
    have hnot : ∀ c ∈ (chunkSlots first bytes n).drop (k + 1) ++ F, c ≠ first + k * bytes := by
      intro c hc heq
      subst heq
      cases List.mem_append.mp hc with
      | inl hc =>
        have hsub := hnodup.sublist (List.drop_sublist k _)
        rw [hdrop, List.nodup_cons] at hsub
        exact hsub.1 hc
      | inr hc => exact hF _ hc hmem
    have hseg₁ : Segment (Function.update next (first + k * bytes) (first + k * bytes + bytes)) b
        (first + k * bytes) ((chunkSlots first bytes n).drop k ++ F) := by
      rw [hdrop, List.cons_append, segment_cons]
      refine ⟨rfl, ?_⟩
      rw [Function.update_self, hnext]
      exact hseg.congr fun c hc ↦ Function.update_of_ne (hnot c hc) _ _
    obtain ⟨next', q, hrun, hseg', hother⟩ := ih (by omega) (show k < m by omega) hseg₁
    refine ⟨next', q, ?_, hseg', ?_⟩
    · rw [Loop.iterate, hp, if_pos (by simpa using hpos), Run.done_bind]
      exact hrun
    · intro c hc
      have hne : c ≠ first + k * bytes := fun heq ↦ hc (by rw [heq]; exact hmem)
      rw [hother c hc, Function.update_of_ne hne]

/-- The nodes that a new chunk brings. -/
def newSlots (E : Env) (h : Heap) (bytes : ℤ) : List ℤ :=
  chunkSlots (E.os h.chunks + SIZEOF_CHUNK) bytes (chunkNodes bytes).toNat

/-- A new chunk puts its nodes in front of the free list, and other links are as before. -/
theorem cddAllocChunk_spec (hE : E.Valid) (hfuel : 4096 ≤ E.fuel) (hb : Fits bytes)
    (hman : FreeOk bytes h man F) (hnew : E.os h.chunks ∉ man.nodes) :
    ∃ next', cddAllocChunk E h man = .done ({ h with next := next', chunks := h.chunks + 1 },
        { man with
          nodes := E.os h.chunks :: man.nodes
          free := E.os h.chunks + SIZEOF_CHUNK
          freecnt := int32 (man.freecnt + (newSlots E h bytes).length)
          chunkcnt := int32 (man.chunkcnt + 1)
          alloccnt := int32 (man.alloccnt + (newSlots E h bytes).length) }) ∧
      Segment next' 0 (E.os h.chunks + SIZEOF_CHUNK) (newSlots E h bytes ++ F) ∧
      ∀ a, a ∉ newSlots E h bytes → next' a = h.next a := by
  obtain ⟨n, hn, hle, hlt⟩ := hb.chunkNodes_spec
  have hpos := hb.pos
  have hslots : newSlots E h bytes = chunkSlots (E.os h.chunks + SIZEOF_CHUNK) bytes (n + 1) := by
    rw [newSlots, hn]
    rfl
  have hchunk (a : ℤ) (ha : a ∈ newSlots E h bytes) : cddNode2chunk a = E.os h.chunks := by
    rw [hslots] at ha
    exact (isSlot_of_mem_chunkSlots [] hb (hE.aligned _)
      (by rw [hn]; push_cast; rfl) ha).1
  have hF (a : ℤ) (ha : a ∈ F) : a ∉ newSlots E h bytes := by
    intro hmem
    have hold := (hman.slot a ha).1
    rw [hchunk a hmem] at hold
    exact hnew hold
  have hlast : E.os h.chunks + SIZEOF_CHUNK + n * bytes ∈ newSlots E h bytes := by
    rw [hslots]
    exact mem_chunkSlots.mpr ⟨n, by omega, rfl⟩
  have hlen : (newSlots E h bytes).length = n + 1 := by
    rw [hslots]
    simp [chunkSlots]
  have hdrop : (newSlots E h bytes).drop n = [E.os h.chunks + SIZEOF_CHUNK + n * bytes] := by
    rw [List.drop_eq_getElem_cons (by omega), List.drop_eq_nil_of_le (by omega)]
    simp [hslots, chunkSlots]
  have hseg : Segment (Function.update h.next (E.os h.chunks + SIZEOF_CHUNK + n * bytes) man.free)
      0 (E.os h.chunks + SIZEOF_CHUNK + n * bytes) ((newSlots E h bytes).drop n ++ F) := by
    rw [hdrop, List.singleton_append, segment_cons]
    refine ⟨rfl, ?_⟩
    rw [Function.update_self]
    apply hman.segment.congr
    intro a ha
    apply Function.update_of_ne
    intro heq
    exact hF a ha (heq ▸ hlast)
  rw [hslots] at hseg hF
  obtain ⟨next', q, hrun, hseg', hother⟩ := threadNodes_spec (b := 0) (by omega)
    (show n ≤ n + 1 by omega) (show n < E.fuel by omega) hseg hF
  refine ⟨next', ?_, ?_, ?_⟩
  · have hcast : ((newSlots E h bytes).length : ℤ) = chunkNodes bytes := by
      rw [hlen, hn]
      push_cast
      rfl
    have hsub : chunkNodes bytes - 1 = n := by omega
    rw [cddAllocChunk, hman.nodesize, hb.nodeStep_eq, hcast, hsub, threadNodes, hrun]
    rfl
  · rw [hslots]
    exact hseg'
  · intro a hnot
    have hne : a ≠ E.os h.chunks + SIZEOF_CHUNK + n * bytes :=
      fun heq ↦ hnot (by rw [heq]; exact hlast)
    rw [hother a (hslots ▸ hnot), Function.update_of_ne hne]

theorem newSlots_nodup (hb : Fits bytes) : (newSlots E h bytes).Nodup := by
  have hpos := hb.pos
  exact chunkSlots_nodup _ _ (by omega)

theorem isSlot_newSlots (nodes : List ℤ) (hE : E.Valid) (hb : Fits bytes) (ha : a ∈ newSlots E h bytes) :
    cddNode2chunk a = E.os h.chunks ∧ IsSlot bytes (E.os h.chunks :: nodes) a := by
  obtain ⟨n, hn, -, -⟩ := hb.chunkNodes_spec
  apply isSlot_of_mem_chunkSlots nodes hb (hE.aligned _) _ ha
  rw [hn]
  rfl

theorem newSlots_ne_nil (hb : Fits bytes) : newSlots E h bytes ≠ [] := by
  obtain ⟨n, hn, -, -⟩ := hb.chunkNodes_spec
  have hlen : (newSlots E h bytes).length = n + 1 := by
    rw [newSlots, hn]
    simp [chunkSlots]
  intro hnil
  rw [hnil] at hlen
  cases hlen

end

end NodeTable

end UCDD

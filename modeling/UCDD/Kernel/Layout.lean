import UCDD.Kernel.UniqueTable

/-!
# The layout of the elements

The bytes of an array of `Elem`, `include/cdd/kernel.h:273–276`, on a machine with eight bytes to a
pointer: what is read back from them is what was written, the padding included.
-/

namespace UCDD

namespace NodeTable

open Counter

/-- The word whose bytes these are, the lowest first. -/
def readWord (bytes : List ℤ) : ℤ := bytes.foldr (fun b w ↦ b + 256 * w) 0

/-- The element at these bytes. -/
def readElem (bytes : List ℤ) : Elem where
  child := readWord (bytes.take 8)
  bnd := int32 (readWord ((bytes.drop 8).take 4))
  pad := readWord ((bytes.drop 12).take 4)

/-- The first `n` elements at these bytes. -/
def readElems : ℕ → List ℤ → List Elem
  | 0, _ => []
  | n + 1, bytes => readElem bytes :: readElems n (bytes.drop 16)

/-- The fields are in the ranges of their types. -/
structure Elem.Fits (e : Elem) : Prop where
  child : 0 ≤ e.child ∧ e.child < 2 ^ 64
  bnd : -2 ^ 31 ≤ e.bnd ∧ e.bnd < 2 ^ 31
  pad : 0 ≤ e.pad ∧ e.pad < 2 ^ 32

section

variable {e : Elem} {elem elem' : List Elem} {n : ℕ} {w : ℤ} {rest : List ℤ}

@[simp] theorem wordBytes_length (n : ℕ) (w : ℤ) : (wordBytes n w).length = n := by
  rw [wordBytes, List.length_map, List.length_range]

theorem wordBytes_succ (n : ℕ) (w : ℤ) :
    wordBytes (n + 1) w = w % 256 :: wordBytes n (w / 256) := by
  rw [wordBytes, List.range_succ_eq_map, List.map_cons, List.map_map]
  congr 1
  · rw [pow_zero, Int.ediv_one]
  · apply List.map_congr_left
    intro i _
    show w / 256 ^ (i + 1) % 256 = w / 256 / 256 ^ i % 256
    rw [pow_succ', Int.ediv_ediv_of_nonneg (by norm_num)]

theorem emod_byte {m : ℤ} (hm : 0 < m) (w : ℤ) :
    w % (256 * m) = w % 256 + 256 * (w / 256 % m) := by
  have hlow := Int.emod_add_mul_ediv w 256
  have hhigh := Int.emod_add_mul_ediv (w / 256) m
  have hsplit : w = w % 256 + 256 * (w / 256 % m) + 256 * m * (w / 256 / m) := by
    calc w = w % 256 + 256 * (w / 256) := hlow.symm
      _ = w % 256 + 256 * (w / 256 % m + m * (w / 256 / m)) := by rw [hhigh]
      _ = w % 256 + 256 * (w / 256 % m) + 256 * m * (w / 256 / m) := by ring
  have hb0 := Int.emod_nonneg w (show (256 : ℤ) ≠ 0 by norm_num)
  have hb := Int.emod_lt_of_pos w (show (0 : ℤ) < 256 by norm_num)
  have hr0 := Int.emod_nonneg (w / 256) hm.ne'
  have hr := Int.emod_lt_of_pos (w / 256) hm
  conv_lhs => rw [hsplit, Int.add_mul_emod_self_left]
  apply Int.emod_eq_of_lt
  · omega
  · omega

theorem readWord_wordBytes (n : ℕ) (w : ℤ) : readWord (wordBytes n w) = w % 256 ^ n := by
  induction n generalizing w with
  | zero =>
    rw [pow_zero, Int.emod_one]
    rfl
  | succ n ih =>
    have hcons : readWord (wordBytes (n + 1) w) =
        w % 256 + 256 * readWord (wordBytes n (w / 256)) := by
      rw [wordBytes_succ]
      rfl
    rw [hcons, ih, pow_succ', emod_byte (by positivity)]

theorem elemBytes_cons (e : Elem) (elem : List Elem) : elemBytes (e :: elem) =
    wordBytes 8 e.child ++ (wordBytes 4 e.bnd ++ (wordBytes 4 e.pad ++ elemBytes elem)) := by
  show (wordBytes 8 e.child ++ wordBytes 4 e.bnd ++ wordBytes 4 e.pad) ++ elemBytes elem = _
  rw [List.append_assoc, List.append_assoc]

theorem drop_append_wordBytes (n k : ℕ) (w : ℤ) (rest : List ℤ) :
    (wordBytes n w ++ rest).drop (n + k) = rest.drop k := by
  rw [← List.drop_drop, List.drop_left' (wordBytes_length n w)]

theorem take_append_wordBytes (n : ℕ) (w : ℤ) (rest : List ℤ) :
    (wordBytes n w ++ rest).take n = wordBytes n w := List.take_left' (wordBytes_length n w)

/-- What is written is read back. -/
theorem readElem_elemBytes (he : e.Fits) : readElem (elemBytes (e :: elem)) = e := by
  have hchild : e.child % 256 ^ 8 = e.child := by
    obtain ⟨h0, hlt⟩ := he.child
    exact Int.emod_eq_of_lt h0 (by norm_num; exact hlt)
  have hpad : e.pad % 256 ^ 4 = e.pad := by
    obtain ⟨h0, hlt⟩ := he.pad
    exact Int.emod_eq_of_lt h0 (by norm_num; exact hlt)
  have hbnd : int32 (e.bnd % 256 ^ 4) = e.bnd := by
    obtain ⟨hl, hu⟩ := he.bnd
    have hmod : int32 (e.bnd % 256 ^ 4) = int32 e.bnd := Int.emod_bmod (x := e.bnd) (n := 2 ^ 32)
    rw [hmod, int32_of_mem hl hu]
  have hdrop : (elemBytes (e :: elem)).drop 8 =
      wordBytes 4 e.bnd ++ (wordBytes 4 e.pad ++ elemBytes elem) := by
    rw [elemBytes_cons]
    exact drop_append_wordBytes 8 0 _ _
  have hdrop' : (elemBytes (e :: elem)).drop 12 = wordBytes 4 e.pad ++ elemBytes elem := by
    rw [elemBytes_cons, drop_append_wordBytes 8 4]
    exact drop_append_wordBytes 4 0 _ _
  have htake : (elemBytes (e :: elem)).take 8 = wordBytes 8 e.child := by
    rw [elemBytes_cons, take_append_wordBytes]
  rw [readElem, hdrop, hdrop', htake, take_append_wordBytes, take_append_wordBytes,
    readWord_wordBytes, readWord_wordBytes, readWord_wordBytes, hchild, hbnd, hpad]

theorem readElems_elemBytes (helem : ∀ e ∈ elem, e.Fits) :
    readElems elem.length (elemBytes elem) = elem := by
  induction elem with
  | nil => rfl
  | cons e elem ih =>
    obtain ⟨he, helem⟩ := List.forall_mem_cons.mp helem
    have hdrop : (elemBytes (e :: elem)).drop 16 = elemBytes elem := by
      rw [elemBytes_cons, drop_append_wordBytes 8 8, drop_append_wordBytes 4 4]
      exact drop_append_wordBytes 4 0 _ _
    rw [List.length_cons, readElems, readElem_elemBytes he, hdrop, ih helem]

/-- `memcmp` of two arrays finds no difference when they are equal, padding and all. -/
theorem elemBytes_inj (helem : ∀ e ∈ elem, e.Fits) (helem' : ∀ e ∈ elem', e.Fits) :
    elemBytes elem = elemBytes elem' ↔ elem = elem' := by
  constructor
  · intro h
    have hlen : elem.length = elem'.length := by
      have hbytes := congrArg List.length h
      rw [elemBytes_length, elemBytes_length] at hbytes
      omega
    rw [← readElems_elemBytes helem, ← readElems_elemBytes helem', h, hlen]
  · intro h
    rw [h]

end

end NodeTable

end UCDD

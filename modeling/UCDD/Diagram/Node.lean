import Mathlib.Data.ENat.Basic
import UCDD.Diagram.Bound
import UCDD.Diagram.Levels

/-!
# Nodes

The nodes of `include/cdd/kernel.h:231–303` and the pointers to them. A pointer carries its
negation bit, and equal nodes are one stored node, so a pointer is the tree below it and two
pointers are equal exactly when their trees are.
-/

namespace UCDD

open IntervalMap

/-- `ddNode*`. There is one terminal; `cddtrue` is its negated pointer. An extra terminal
carries its tautology id. -/
inductive DdNode where
  | terminal (neg : Bool)
  | xterm (neg : Bool) (id : ℕ)
  | bdd (neg : Bool) (level : ℕ) (low high : DdNode)
  | cdd (neg : Bool) (level : ℕ) (elem : List (DdNode × Raw))

namespace DdNode

/-- Induction over the children of a node. -/
@[elab_as_elim, induction_eliminator]
theorem induct {motive : DdNode → Prop} (terminal : ∀ neg, motive (.terminal neg))
    (xterm : ∀ neg id, motive (.xterm neg id))
    (bdd : ∀ neg level low high, motive low → motive high → motive (.bdd neg level low high))
    (cdd : ∀ neg level elem, (∀ e ∈ elem, motive e.1) → motive (.cdd neg level elem)) :
    ∀ d, motive d :=
  @DdNode.rec motive (fun es ↦ ∀ e ∈ es, motive e.1) (fun e ↦ motive e.1) terminal xterm bdd cdd
    (by simp) (fun _ _ h hs ↦ List.forall_mem_cons.mpr ⟨h, hs⟩) (fun _ _ h ↦ h)

mutual

/-- Equality of pointers is equality of trees. -/
def decEq : (c d : DdNode) → Decidable (c = d)
  | .terminal n, .terminal n' => decidable_of_iff (n = n') (by simp)
  | .xterm n i, .xterm n' i' => decidable_of_iff (n = n' ∧ i = i') (by simp)
  | .bdd n l c d, .bdd n' l' c' d' =>
    have := decEq c c'
    have := decEq d d'
    decidable_of_iff (n = n' ∧ l = l' ∧ c = c' ∧ d = d') (by simp)
  | .cdd n l es, .cdd n' l' es' =>
    have := decEqElem es es'
    decidable_of_iff (n = n' ∧ l = l' ∧ es = es') (by simp)
  | .terminal _, .xterm .. | .terminal _, .bdd .. | .terminal _, .cdd ..
  | .xterm .., .terminal _ | .xterm .., .bdd .. | .xterm .., .cdd ..
  | .bdd .., .terminal _ | .bdd .., .xterm .. | .bdd .., .cdd ..
  | .cdd .., .terminal _ | .cdd .., .xterm .. | .cdd .., .bdd .. => isFalse nofun

/-- Equality of the element arrays. -/
def decEqElem : (es fs : List (DdNode × Raw)) → Decidable (es = fs)
  | [], [] => isTrue rfl
  | [], _ :: _ | _ :: _, [] => isFalse nofun
  | (c, a) :: es, (d, b) :: fs =>
    have := decEq c d
    have := decEqElem es fs
    decidable_of_iff ((c = d ∧ a = b) ∧ es = fs) (by simp)

end

instance : DecidableEq DdNode := decEq

/-- `MAXLEVEL` of `include/cdd/kernel.h:95`, the level of the terminals. -/
def maxLevel : ℕ := 2 ^ 20 - 1

/-- The field `level` of the node. -/
def level : DdNode → ℕ
  | .terminal _ | .xterm _ _ => maxLevel
  | .bdd _ level _ _ | .cdd _ level _ => level

/-- The array `elem` of a CDD node. -/
def elem : DdNode → List (DdNode × Raw)
  | .cdd _ _ elem => elem
  | _ => []

/-- The field `low` of a BDD node. -/
def low : DdNode → DdNode
  | .bdd _ _ low _ => low
  | d => d

/-- The field `high` of a BDD node. -/
def high : DdNode → DdNode
  | .bdd _ _ _ high => high
  | d => d

end DdNode

open DdNode

/-- `cdd_mask`: the negation bit. -/
def cddMask : DdNode → Bool
  | .terminal neg | .xterm neg _ | .bdd neg _ _ _ | .cdd neg _ _ => neg

/-- `cdd_neg_cond`. -/
def cddNegCond (d : DdNode) (mask : Bool) : DdNode :=
  match d with
  | .terminal neg => .terminal (neg ^^ mask)
  | .xterm neg id => .xterm (neg ^^ mask) id
  | .bdd neg level low high => .bdd (neg ^^ mask) level low high
  | .cdd neg level elem => .cdd (neg ^^ mask) level elem

/-- `cdd_neg`. -/
def cddNeg (d : DdNode) : DdNode := cddNegCond d true

/-- `cdd_rglr`: the pointer without its negation bit. -/
def cddRglr (d : DdNode) : DdNode := cddNegCond d (cddMask d)

/-- `cddfalse`. -/
def cddfalse : DdNode := .terminal false

/-- `cddtrue`. -/
def cddtrue : DdNode := .terminal true

/-- `cdd_isterminal`. -/
def cddIsterminal : DdNode → Bool
  | .terminal _ | .xterm _ _ => true
  | .bdd .. | .cdd .. => false

/-- `cdd_is_extra_terminal`. -/
def cddIsExtraTerminal : DdNode → Bool
  | .xterm _ _ => true
  | _ => false

/-- `cdd_eval_true`, and `IS_TRUE` of `cddop.c:59`. -/
def cddEvalTrue (d : DdNode) : Bool := d = cddtrue || (cddIsExtraTerminal d && !cddMask d)

/-- `cdd_eval_false`, and `IS_FALSE` of `cddop.c:60`. -/
def cddEvalFalse (d : DdNode) : Bool := d = cddfalse || (cddIsExtraTerminal d && cddMask d)

@[simp] theorem cddMask_negCond (d : DdNode) (m : Bool) :
    cddMask (cddNegCond d m) = (cddMask d ^^ m) := by
  cases d <;> rfl

@[simp] theorem level_negCond (d : DdNode) (m : Bool) : (cddNegCond d m).level = d.level := by
  cases d <;> rfl

@[simp] theorem elem_negCond (d : DdNode) (m : Bool) : (cddNegCond d m).elem = d.elem := by
  cases d <;> rfl

@[simp] theorem cddNegCond_negCond (d : DdNode) (m n : Bool) :
    cddNegCond (cddNegCond d m) n = cddNegCond d (m ^^ n) := by
  cases d <;> simp [cddNegCond]

@[simp] theorem cddNegCond_false (d : DdNode) : cddNegCond d false = d := by
  cases d <;> simp [cddNegCond]

@[simp] theorem cddMask_rglr (d : DdNode) : cddMask (cddRglr d) = false := by
  simp [cddRglr]

@[simp] theorem cddNegCond_rglr (d : DdNode) : cddNegCond (cddRglr d) (cddMask d) = d := by
  simp [cddRglr]

theorem cddNegCond_injective (m : Bool) : Function.Injective (cddNegCond · m) := by
  intro c d h
  have := congrArg (cddNegCond · m) h
  simpa using this

@[simp] theorem cddRglr_negCond (d : DdNode) (m : Bool) : cddRglr (cddNegCond d m) = cddRglr d := by
  have : (m ^^ (cddMask d ^^ m)) = cddMask d := by cases m <;> simp
  simp [cddRglr, this]

@[simp] theorem cddNeg_cddfalse : cddNeg cddfalse = cddtrue := rfl

@[simp] theorem cddNeg_cddtrue : cddNeg cddtrue = cddfalse := rfl

@[simp] theorem cddIsterminal_negCond (d : DdNode) (m : Bool) :
    cddIsterminal (cddNegCond d m) = cddIsterminal d := by
  cases d <;> rfl

/-! ### Size -/

namespace DdNode

mutual

/-- The length of the longest path below the pointer. -/
def height : DdNode → ℕ
  | .terminal _ | .xterm _ _ => 0
  | .bdd _ _ low high => max low.height high.height + 1
  | .cdd _ _ elem => heightElem elem + 1

/-- The longest path below an element array. -/
def heightElem : List (DdNode × Raw) → ℕ
  | [] => 0
  | (d, _) :: es => max d.height (heightElem es)

end

@[simp] theorem height_negCond (d : DdNode) (m : Bool) : (cddNegCond d m).height = d.height := by
  cases d <;> rfl

theorem height_le_heightElem {es : List (DdNode × Raw)} :
    ∀ e ∈ es, e.1.height ≤ heightElem es := by
  induction es with
  | nil => simp
  | cons e es ih =>
    rintro x hx
    rcases List.mem_cons.mp hx with rfl | hx
    · exact le_max_left _ _
    · exact le_trans (ih x hx) (le_max_right _ _)

theorem height_lt_of_mem {neg : Bool} {level : ℕ} {es : List (DdNode × Raw)} :
    ∀ e ∈ es, e.1.height < (DdNode.cdd neg level es).height :=
  fun e he ↦ Nat.lt_succ_of_le (height_le_heightElem e he)

/-- Every CDD node at or below the pointer has at most `size` children. -/
inductive WidthLe (size : ℕ∞) : DdNode → Prop
  | terminal neg : WidthLe size (.terminal neg)
  | xterm neg id : WidthLe size (.xterm neg id)
  | bdd neg level {low high} : WidthLe size low → WidthLe size high →
      WidthLe size (.bdd neg level low high)
  | cdd neg level {elem} : (elem.length : ℕ∞) ≤ size → (∀ e ∈ elem, WidthLe size e.1) →
      WidthLe size (.cdd neg level elem)

theorem widthLe_negCond {size : ℕ∞} {d : DdNode} {m : Bool} :
    WidthLe size (cddNegCond d m) ↔ WidthLe size d := by
  cases d <;> constructor <;> rintro ⟨⟩ <;> constructor <;> assumption

/-- Every node at or below the pointer has a level in `P`, and the bounds in its array are in
`Q`. -/
inductive All (P : ℕ → Prop) (Q : Raw → Prop) : DdNode → Prop
  | terminal neg : All P Q (.terminal neg)
  | xterm neg id : All P Q (.xterm neg id)
  | bdd neg {level low high} : P level → All P Q low → All P Q high →
      All P Q (.bdd neg level low high)
  | cdd neg {level elem} : P level → (∀ e ∈ elem, Q e.2) → (∀ e ∈ elem, All P Q e.1) →
      All P Q (.cdd neg level elem)

section All

variable {P : ℕ → Prop} {Q : Raw → Prop}

theorem All.negCond {d : DdNode} (h : All P Q d) (m : Bool) : All P Q (cddNegCond d m) := by
  cases h <;> constructor <;> assumption

theorem All.mono {P' : ℕ → Prop} {Q' : Raw → Prop} {d : DdNode} (h : All P Q d)
    (hP : ∀ ℓ, P ℓ → P' ℓ) (hQ : ∀ b, Q b → Q' b) : All P' Q' d := by
  induction h with
  | terminal neg => exact .terminal neg
  | xterm neg id => exact .xterm neg id
  | bdd neg hp _ _ ihl ihh => exact .bdd neg (hP _ hp) ihl ihh
  | cdd neg hp hq _ ih => exact .cdd neg (hP _ hp) (fun e he ↦ hQ _ (hq e he)) ih

theorem All.of_bdd {neg : Bool} {level : ℕ} {low high : DdNode}
    (h : All P Q (.bdd neg level low high)) : P level ∧ All P Q low ∧ All P Q high := by
  cases h with
  | bdd _ hp hl hh => exact ⟨hp, hl, hh⟩

theorem All.of_cdd {neg : Bool} {level : ℕ} {elem : List (DdNode × Raw)}
    (h : All P Q (.cdd neg level elem)) :
    P level ∧ (∀ e ∈ elem, Q e.2) ∧ ∀ e ∈ elem, All P Q e.1 := by
  cases h with
  | cdd _ hp hq hs => exact ⟨hp, hq, hs⟩

/-- The level of an inner node. -/
theorem All.level {d : DdNode} (h : All P Q d) (hd : d.level ≠ maxLevel) : P d.level := by
  cases h with
  | terminal | xterm => exact absurd rfl hd
  | bdd _ hp _ _ => exact hp
  | cdd _ hp _ _ => exact hp

end All

end DdNode

/-! ### Evaluation -/

/-- A value for every level, independent of each other: a truth value for a BDD level and a
point of the line for a CDD level. -/
structure Assignment where
  bool : ℕ → Bool
  diff : ℕ → Cut INF

mutual

/-- The value of a diagram: follow the edges the assignment selects and count negations. A
regular pointer to an extra terminal counts as true. -/
def eval (a : Assignment) : DdNode → Bool
  | .terminal neg => neg
  | .xterm neg _ => !neg
  | .bdd neg level low high => neg ^^ bif a.bool level then eval a high else eval a low
  | .cdd neg level elem => neg ^^ evalElem a (a.diff level) elem

/-- The value of the child that the point `c` selects. -/
def evalElem (a : Assignment) (c : Cut INF) : List (DdNode × Raw) → Bool
  | [] => false
  | (d, b) :: es => bif c.below b then eval a d else evalElem a c es

end

@[simp] theorem eval_negCond (a : Assignment) (d : DdNode) (m : Bool) :
    eval a (cddNegCond d m) = (eval a d ^^ m) := by
  cases d <;> simp [cddNegCond, eval, Bool.xor_comm]

@[simp] theorem eval_neg (a : Assignment) (d : DdNode) : eval a (cddNeg d) = !eval a d := by
  simp [cddNeg]

/-- Taking the negation bit off a pointer and putting it back. -/
theorem eval_rglr (a : Assignment) (d : DdNode) : eval a (cddRglr d) = (cddMask d ^^ eval a d) := by
  rw [cddRglr, eval_negCond, Bool.xor_comm]

@[simp] theorem eval_cddfalse (a : Assignment) : eval a cddfalse = false := by
  simp [cddfalse, eval]

@[simp] theorem eval_cddtrue (a : Assignment) : eval a cddtrue = true := by
  simp [cddtrue, eval]

theorem evalElem_of_below {a : Assignment} {c : Cut INF} {e : DdNode × Raw} (es : List (DdNode × Raw))
    (h : c.below e.2 = true) : evalElem a c (e :: es) = eval a e.1 := by
  rw [evalElem, h, cond_true]

theorem evalElem_of_not_below {a : Assignment} {c : Cut INF} {e : DdNode × Raw}
    (es : List (DdNode × Raw)) (h : c.below e.2 = false) :
    evalElem a c (e :: es) = evalElem a c es := by
  rw [evalElem, h, cond_false]

theorem evalElem_of_select {a : Assignment} {c : Cut INF} {es : List (DdNode × Raw)} {d : DdNode}
    (h : select c es = some d) : evalElem a c es = eval a d := by
  induction es with
  | nil => cases h
  | cons e es ih =>
    rw [select_cons] at h
    cases hb : c.below e.2 with
    | true =>
      rw [if_pos hb] at h
      cases h
      exact evalElem_of_below es hb
    | false =>
      rw [if_neg (by simp [hb])] at h
      rw [evalElem_of_not_below es hb, ih h]

/-! ### The terminal reached -/

mutual

/-- The terminal that the assignment leads to, with the sign that the negations on the way
give it. -/
def reach (a : Assignment) : DdNode → DdNode
  | .terminal neg => .terminal neg
  | .xterm neg id => .xterm neg id
  | .bdd neg level low high =>
    cddNegCond (bif a.bool level then reach a high else reach a low) neg
  | .cdd neg level elem => cddNegCond (reachElem a (a.diff level) elem) neg

/-- The terminal below the child that the point `c` selects. -/
def reachElem (a : Assignment) (c : Cut INF) : List (DdNode × Raw) → DdNode
  | [] => cddfalse
  | (d, b) :: es => bif c.below b then reach a d else reachElem a c es

end

@[simp] theorem reach_negCond (a : Assignment) (d : DdNode) (m : Bool) :
    reach a (cddNegCond d m) = cddNegCond (reach a d) m := by
  cases d with
  | terminal | xterm => rfl
  | bdd neg level low high =>
    rw [reach, cddNegCond_negCond]
    rfl
  | cdd neg level elem =>
    rw [reach, cddNegCond_negCond]
    rfl

@[simp] theorem reach_neg (a : Assignment) (d : DdNode) :
    reach a (cddNeg d) = cddNeg (reach a d) :=
  reach_negCond a d true

theorem reachElem_of_select {a : Assignment} {c : Cut INF} {es : List (DdNode × Raw)} {d : DdNode}
    (h : select c es = some d) : reachElem a c es = reach a d := by
  induction es with
  | nil => cases h
  | cons e es ih =>
    rw [select_cons] at h
    cases hb : c.below e.2 with
    | true =>
      rw [if_pos hb] at h
      cases h
      rw [reachElem, hb, cond_true]
    | false =>
      rw [if_neg (by simp [hb])] at h
      rw [reachElem, hb, cond_false, ih h]

theorem cddIsterminal_reach (a : Assignment) (d : DdNode) : cddIsterminal (reach a d) = true := by
  induction d with
  | terminal | xterm => rfl
  | bdd neg level low high ihl ihh =>
    rw [reach, cddIsterminal_negCond]
    cases a.bool level
    · exact ihl
    · exact ihh
  | cdd neg level elem ih =>
    rw [reach, cddIsterminal_negCond]
    induction elem with
    | nil => rfl
    | cons e es ihes =>
      rw [reachElem]
      cases (a.diff level).below e.2
      · exact ihes fun x hx ↦ ih x (List.mem_cons_of_mem _ hx)
      · exact ih e (by simp)

theorem reach_of_isterminal {d : DdNode} (hd : cddIsterminal d = true) (a : Assignment) :
    reach a d = d := by
  cases d with
  | terminal | xterm => rfl
  | bdd | cdd => cases hd

theorem cddEvalTrue_negCond {d : DdNode} (hd : cddIsterminal d = true) (m : Bool) :
    cddEvalTrue (cddNegCond d m) = (cddEvalTrue d ^^ m) := by
  cases d with
  | terminal neg => cases neg <;> cases m <;> rfl
  | xterm neg id => cases neg <;> cases m <;> rfl
  | bdd | cdd => cases hd

/-- A diagram holds where it reaches a terminal that counts as true. -/
theorem eval_eq_cddEvalTrue (a : Assignment) (d : DdNode) :
    eval a d = cddEvalTrue (reach a d) := by
  induction d with
  | terminal neg => cases neg <;> rfl
  | xterm neg id => cases neg <;> rfl
  | bdd neg level low high ihl ihh =>
    rw [eval, reach]
    cases a.bool level
    · rw [cond_false, cond_false, cddEvalTrue_negCond (cddIsterminal_reach a low), ihl,
        Bool.xor_comm]
    · rw [cond_true, cond_true, cddEvalTrue_negCond (cddIsterminal_reach a high), ihh,
        Bool.xor_comm]
  | cdd neg level elem ih =>
    have helem : evalElem a (a.diff level) elem = cddEvalTrue (reachElem a (a.diff level) elem) ∧
        cddIsterminal (reachElem a (a.diff level) elem) = true := by
      induction elem with
      | nil => exact ⟨rfl, rfl⟩
      | cons e es ihes =>
        rw [evalElem, reachElem]
        cases (a.diff level).below e.2
        · exact ihes fun x hx ↦ ih x (List.mem_cons_of_mem _ hx)
        · exact ⟨ih e (by simp), cddIsterminal_reach a e.1⟩
    rw [eval, reach, helem.1, cddEvalTrue_negCond helem.2, Bool.xor_comm]

theorem evalElem_congr {a a' : Assignment} {c : Cut INF} {es : List (DdNode × Raw)}
    (hes : ∀ e ∈ es, eval a e.1 = eval a' e.1) : evalElem a c es = evalElem a' c es := by
  induction es with
  | nil => rfl
  | cons e es ih =>
    rw [evalElem, evalElem, hes e (by simp), ih fun x hx ↦ hes x (List.mem_cons_of_mem _ hx)]

/-- A diagram reads the levels it has a node on. -/
theorem eval_congr_of_all {P : ℕ → Prop} {Q : Raw → Prop} {d : DdNode} (h : All P Q d)
    {a a' : Assignment} (ha : ∀ ℓ, P ℓ → a.bool ℓ = a'.bool ℓ ∧ a.diff ℓ = a'.diff ℓ) :
    eval a d = eval a' d := by
  induction h with
  | terminal | xterm => simp [eval]
  | bdd neg hp _ _ ihl ihh => rw [eval, eval, ihl, ihh, (ha _ hp).1]
  | @cdd neg level elem hp _ _ ih =>
    rw [eval, eval, evalElem_congr ih, (ha _ hp).2]

/-! ### Well-formedness -/

/-- What the operations read of the library: the levels declared so far, and where a node is
stored. -/
structure Library extends Levels where
  addr : DdNode → ℕ

/-- The kind of a level. -/
def Library.isCdd (L : Library) (level : ℕ) : Prop := ∃ i j, L.levelinfo[level]? = some (.cdd i j)

/-- A well-formed ordered diagram with extra terminals below `xterms`: nodes are of the kind
of their level and levels strictly increase along every edge; the bounds of a CDD node
strictly increase and end in `INF`, it has two children or more and neighbouring ones differ;
the children of a BDD node differ; the first child is a regular pointer. -/
inductive Library.WellFormed (L : Library) (xterms : ℕ) : DdNode → Prop
  | terminal neg : L.WellFormed xterms (.terminal neg)
  | xterm neg {id} : id < xterms → L.WellFormed xterms (.xterm neg id)
  | bdd neg {level low high} : L.levelinfo[level]? = some .bdd → level < low.level →
      level < high.level → low ≠ high → cddMask low = false → L.WellFormed xterms low →
      L.WellFormed xterms high → L.WellFormed xterms (.bdd neg level low high)
  | cdd neg {level elem} : L.isCdd level → (∀ e ∈ elem, level < e.1.level) →
      Partition INF elem → Alternating elem → 2 ≤ elem.length →
      (∀ e ∈ elem.head?, cddMask e.1 = false) → (∀ e ∈ elem, L.WellFormed xterms e.1) →
      L.WellFormed xterms (.cdd neg level elem)

/-- The test of `Library.isCdd`. -/
instance (L : Library) (level : ℕ) : Decidable (L.isCdd level) :=
  match h : L.levelinfo[level]? with
  | some (.cdd i j) => isTrue ⟨i, j, h⟩
  | some .bdd => isFalse fun ⟨_, _, h'⟩ ↦ by rw [h] at h'; cases h'
  | none => isFalse fun ⟨_, _, h'⟩ ↦ by rw [h] at h'; cases h'

mutual

/-- A computable test of well-formedness. -/
def Library.checkWF (L : Library) (xterms : ℕ) : DdNode → Bool
  | .terminal _ => true
  | .xterm _ id => id < xterms
  | .bdd _ level low high =>
    L.levelinfo[level]? = some .bdd && level < low.level && level < high.level && low ≠ high &&
      cddMask low = false && L.checkWF xterms low && L.checkWF xterms high
  | .cdd _ level elem =>
    L.isCdd level && Partition INF elem && Alternating elem && 2 ≤ elem.length &&
      (∀ e ∈ elem.head?, cddMask e.1 = false) && L.checkElem xterms level elem

/-- The test of the children of a CDD node. -/
def Library.checkElem (L : Library) (xterms level : ℕ) : List (DdNode × Raw) → Bool
  | [] => true
  | (d, _) :: es => level < d.level && L.checkWF xterms d && L.checkElem xterms level es

end

theorem Library.checkElem_iff {L : Library} {xterms level : ℕ} {es : List (DdNode × Raw)} :
    L.checkElem xterms level es = true ↔
      ∀ e ∈ es, level < e.1.level ∧ L.checkWF xterms e.1 = true := by
  induction es with
  | nil => simp [checkElem]
  | cons e es ih =>
    obtain ⟨d, b⟩ := e
    simp [checkElem, ih, and_assoc]

theorem Library.checkWF_iff {L : Library} {xterms : ℕ} {d : DdNode} :
    L.checkWF xterms d = true ↔ L.WellFormed xterms d := by
  constructor
  · induction d with
    | terminal neg => exact fun _ ↦ .terminal neg
    | xterm neg id => exact fun h ↦ .xterm neg (by simpa [checkWF] using h)
    | bdd neg level low high ihl ihh =>
      intro h
      simp only [checkWF, Bool.and_eq_true, decide_eq_true_eq] at h
      obtain ⟨⟨⟨⟨⟨⟨hk, hl⟩, hh⟩, hne⟩, hm⟩, hwl⟩, hwh⟩ := h
      exact .bdd neg hk hl hh hne hm (ihl hwl) (ihh hwh)
    | cdd neg level elem ih =>
      intro h
      simp only [checkWF, Bool.and_eq_true, decide_eq_true_eq, checkElem_iff] at h
      obtain ⟨⟨⟨⟨⟨hk, hp⟩, ha⟩, h2⟩, hm⟩, hes⟩ := h
      exact .cdd neg hk (fun e he ↦ (hes e he).1) hp ha h2 hm fun e he ↦ ih e he (hes e he).2
  · intro h
    induction h with
    | terminal | xterm => simp_all [checkWF]
    | bdd _ hk hl hh hne hm _ _ ihl ihh => simp [checkWF, hk, hl, hh, hne, hm, ihl, ihh]
    | cdd _ hk hl hp ha h2 hm _ ih =>
      simp only [checkWF, Bool.and_eq_true, decide_eq_true_eq, checkElem_iff]
      exact ⟨⟨⟨⟨⟨hk, hp⟩, ha⟩, h2⟩, hm⟩, fun e he ↦ ⟨hl e he, ih e he⟩⟩

instance (L : Library) (xterms : ℕ) (d : DdNode) : Decidable (L.WellFormed xterms d) :=
  decidable_of_iff _ Library.checkWF_iff

/-- A well-formed diagram with the terminals `cddtrue` and `cddfalse` only. -/
abbrev Library.WF (L : Library) : DdNode → Prop := L.WellFormed 0

section

variable {L : Library} {xterms : ℕ}

theorem Library.WellFormed.negCond {d : DdNode} (h : L.WellFormed xterms d) (m : Bool) :
    L.WellFormed xterms (cddNegCond d m) := by
  cases h with
  | terminal neg => exact .terminal _
  | xterm neg hid => exact .xterm _ hid
  | bdd neg hk hl hh hne hm hwl hwh => exact .bdd _ hk hl hh hne hm hwl hwh
  | cdd neg hk hl hp ha h2 hm hw => exact .cdd _ hk hl hp ha h2 hm hw

theorem Library.WellFormed.neg {d : DdNode} (h : L.WellFormed xterms d) :
    L.WellFormed xterms (cddNeg d) := h.negCond true

theorem Library.WellFormed.rglr {d : DdNode} (h : L.WellFormed xterms d) :
    L.WellFormed xterms (cddRglr d) := h.negCond _

theorem wf_cddfalse : L.WellFormed xterms cddfalse := .terminal false

theorem wf_cddtrue : L.WellFormed xterms cddtrue := .terminal true

theorem Library.WellFormed.level_le {d : DdNode} (h : L.WellFormed xterms d) :
    d.level ≤ maxLevel := by
  induction h with
  | terminal | xterm => exact le_rfl
  | bdd _ _ hl _ _ _ _ _ ih _ => exact le_trans (le_of_lt hl) ih
  | cdd _ _ hl hp _ _ _ _ ih =>
    obtain ⟨e, es, rfl⟩ := List.exists_cons_of_ne_nil hp.ne_nil
    exact le_trans (le_of_lt (hl e (by simp))) (ih e (by simp))

/-- An inner node has a level below the terminals. -/
theorem Library.WellFormed.level_lt {d : DdNode} (h : L.WellFormed xterms d)
    (hd : cddIsterminal d = false) : d.level < maxLevel := by
  cases h with
  | terminal | xterm => cases hd
  | bdd _ _ hl _ _ _ hwl _ => exact lt_of_lt_of_le hl hwl.level_le
  | cdd _ _ hl hp _ _ _ hw =>
    obtain ⟨e, es, rfl⟩ := List.exists_cons_of_ne_nil hp.ne_nil
    exact lt_of_lt_of_le (hl e (by simp)) (hw e (by simp)).level_le

/-- A node at a CDD level is a CDD node. -/
theorem Library.WellFormed.eq_cdd {d : DdNode} (h : L.WellFormed xterms d) (hk : L.isCdd d.level)
    (hlt : d.level < maxLevel) : d = .cdd (cddMask d) d.level d.elem := by
  cases h with
  | terminal | xterm => exact absurd hlt (lt_irrefl _)
  | cdd => rfl
  | bdd _ hb =>
    obtain ⟨i, j, hij⟩ := hk
    exact absurd (hij.symm.trans hb) (by simp)

/-- A node at a BDD level is a BDD node. -/
theorem Library.WellFormed.eq_bdd {d : DdNode} (h : L.WellFormed xterms d)
    (hk : L.levelinfo[d.level]? = some .bdd) (hlt : d.level < maxLevel) :
    d = .bdd (cddMask d) d.level d.low d.high := by
  cases h with
  | terminal | xterm => exact absurd hlt (lt_irrefl _)
  | bdd => rfl
  | cdd _ hc =>
    obtain ⟨i, j, hij⟩ := hc
    exact absurd (hij.symm.trans hk) (by simp)

/-- A well-formed terminal is one of the two ordinary ones. -/
theorem Library.WF.eq_terminal {d : DdNode} (h : L.WF d) (hd : cddIsterminal d = true) :
    d = cddtrue ∨ d = cddfalse := by
  cases h with
  | terminal neg => cases neg <;> simp [cddtrue, cddfalse]
  | xterm neg hid => exact absurd hid (Nat.not_lt_zero _)
  | bdd | cdd => cases hd

/-- The child of a CDD node that an assignment selects. -/
theorem Library.WellFormed.select_elem {es : List (DdNode × Raw)} (hp : Partition INF es)
    (a : Assignment) (c : Cut INF) :
    ∃ d s, select c es = some d ∧ (d, s) ∈ es ∧ evalElem a c es = eval a d := by
  obtain ⟨d, s, hs, hm, _⟩ := hp.select_isSome c
  exact ⟨d, s, hs, hm, evalElem_of_select hs⟩

/-- A diagram reads the levels from its own on. -/
theorem reach_congr {d : DdNode} (h : L.WellFormed xterms d) {a a' : Assignment}
    (ha : ∀ ℓ, d.level ≤ ℓ → a.bool ℓ = a'.bool ℓ ∧ a.diff ℓ = a'.diff ℓ) :
    UCDD.reach a d = UCDD.reach a' d := by
  induction h with
  | terminal | xterm => rfl
  | @bdd neg level _ _ _ hl hh _ _ _ _ ihl ihh =>
    have hlow := ihl fun ℓ hℓ ↦ ha ℓ (le_trans (le_of_lt hl) hℓ)
    have hhigh := ihh fun ℓ hℓ ↦ ha ℓ (le_trans (le_of_lt hh) hℓ)
    have hbool : a.bool level = a'.bool level := (ha level le_rfl).1
    rw [UCDD.reach, UCDD.reach, hlow, hhigh, hbool]
  | @cdd neg level elem _ hl hp _ _ _ _ ih =>
    obtain ⟨d, s, hs, hm, -⟩ := Library.WellFormed.select_elem hp a (a.diff level)
    have hdiff : a.diff level = a'.diff level := (ha level le_rfl).2
    rw [UCDD.reach, UCDD.reach, reachElem_of_select hs, reachElem_of_select (hdiff ▸ hs)]
    rw [ih _ hm fun ℓ hℓ ↦ ha ℓ (le_trans (le_of_lt (hl _ hm)) hℓ)]

theorem eval_congr {d : DdNode} (h : L.WellFormed xterms d) {a a' : Assignment}
    (ha : ∀ ℓ, d.level ≤ ℓ → a.bool ℓ = a'.bool ℓ ∧ a.diff ℓ = a'.diff ℓ) :
    eval a d = eval a' d := by
  rw [eval_eq_cddEvalTrue, eval_eq_cddEvalTrue, reach_congr h ha]

/-- The terminal that a well-formed diagram reaches is well formed. -/
theorem Library.WellFormed.reach {d : DdNode} (h : L.WellFormed xterms d) (a : Assignment) :
    L.WellFormed xterms (reach a d) := by
  induction h with
  | terminal neg => exact .terminal neg
  | xterm neg hid => exact .xterm neg hid
  | @bdd neg level low high _ _ _ _ _ _ _ ihl ihh =>
    rw [UCDD.reach]
    cases a.bool level
    · exact ihl.negCond neg
    · exact ihh.negCond neg
  | @cdd neg level elem _ _ hp _ _ _ _ ih =>
    obtain ⟨d, s, hs, hm, -⟩ := Library.WellFormed.select_elem hp a (a.diff level)
    rw [UCDD.reach, reachElem_of_select hs]
    exact (ih _ hm).negCond neg

/-- Without extra terminals the value of a diagram says which terminal it reaches. -/
theorem Library.WF.reach_eq {d : DdNode} (h : L.WF d) (a : Assignment) :
    reach a d = .terminal (eval a d) := by
  rw [eval_eq_cddEvalTrue]
  rcases Library.WF.eq_terminal (h.reach a) (cddIsterminal_reach a d) with hd | hd <;> rw [hd] <;>
    rfl

theorem Library.WellFormed.mono {d : DdNode} (h : L.WellFormed xterms d) {n : ℕ}
    (hn : xterms ≤ n) : L.WellFormed n d := by
  induction h with
  | terminal neg => exact .terminal neg
  | xterm neg hid => exact .xterm neg (lt_of_lt_of_le hid hn)
  | bdd neg hk hl hh hne hm _ _ ihl ihh => exact .bdd neg hk hl hh hne hm ihl ihh
  | cdd neg hk hl hp ha h2 hm _ ih => exact .cdd neg hk hl hp ha h2 hm ih

/-! ### Edges at a level

A node above the level has its own edges there; a node below it has one edge, for the whole
line. Both operands of an operation are seen so at the smaller of their levels. -/

/-- The edges of a regular pointer at a CDD level not below its own. -/
def edgesAt (level : ℕ) (d : DdNode) : List (DdNode × Raw) :=
  if d.level ≤ level then d.elem else [(cddRglr d, INF)]

/-- The low edge of a regular pointer at a BDD level not below its own. -/
def lowAt (level : ℕ) (d : DdNode) : DdNode := if d.level ≤ level then d.low else cddRglr d

/-- The high edge of a regular pointer at a BDD level not below its own. -/
def highAt (level : ℕ) (d : DdNode) : DdNode := if d.level ≤ level then d.high else cddRglr d

section All

variable {P : ℕ → Prop} {Q : Raw → Prop} {d : DdNode}

theorem all_edgesAt (hQ : Q INF) (level : ℕ) (h : All P Q d) :
    ∀ e ∈ edgesAt level d, Q e.2 ∧ All P Q e.1 := by
  unfold edgesAt
  split
  · cases h with
    | cdd _ _ hb hs =>
      intro e he
      exact ⟨hb e he, hs e he⟩
    | terminal | xterm | bdd =>
      intro e he
      cases he
  · exact List.forall_mem_singleton.mpr ⟨hQ, h.negCond _⟩

theorem all_lowAt (level : ℕ) (h : All P Q d) : All P Q (lowAt level d) := by
  unfold lowAt
  split
  · cases h with
    | bdd _ _ hl _ => exact hl
    | terminal | xterm | cdd => constructor <;> assumption
  · exact h.negCond _

theorem all_highAt (level : ℕ) (h : All P Q d) : All P Q (highAt level d) := by
  unfold highAt
  split
  · cases h with
    | bdd _ _ _ hh => exact hh
    | terminal | xterm | cdd => constructor <;> assumption
  · exact h.negCond _

end All

/-- The level of an inner node is declared. -/
theorem Library.WellFormed.levelinfo {d : DdNode} (h : L.WellFormed xterms d)
    (hd : cddIsterminal d = false) : ∃ info, L.levelinfo[d.level]? = some info := by
  cases h with
  | terminal | xterm => cases hd
  | bdd _ hk => exact ⟨_, hk⟩
  | cdd _ hk =>
    obtain ⟨i, j, hij⟩ := hk
    exact ⟨_, hij⟩

theorem level_of_isterminal {d : DdNode} (h : cddIsterminal d = true) : d.level = maxLevel := by
  cases d with
  | terminal | xterm => rfl
  | bdd | cdd => cases h

/-- Of two operands that are not both terminals, the one with the smaller level is an inner
node. -/
theorem min_level_declared {l r : DdNode} (hl : L.WellFormed xterms l)
    (hr : L.WellFormed xterms r) (hterm : (cddIsterminal l && cddIsterminal r) = false) :
    min l.level r.level < maxLevel ∧ ∃ info, L.levelinfo[min l.level r.level]? = some info := by
  have hinner {c d : DdNode} (hc : L.WellFormed xterms c) (hd : L.WellFormed xterms d)
      (hle : c.level ≤ d.level) (h : cddIsterminal c = false ∨ cddIsterminal d = false) :
      cddIsterminal c = false := by
    by_contra hct
    have hcm := level_of_isterminal (Bool.of_not_eq_false hct)
    have := hd.level_lt (h.resolve_left hct)
    omega
  have hterm := Bool.and_eq_false_iff.mp hterm
  rcases le_total l.level r.level with hle | hle
  · have h := hinner hl hr hle hterm
    rw [min_eq_left hle]
    exact ⟨hl.level_lt h, hl.levelinfo h⟩
  · have h := hinner hr hl hle hterm.symm
    rw [min_eq_right hle]
    exact ⟨hr.level_lt h, hr.levelinfo h⟩

/-- Going down in the operand with the smaller level makes the pair smaller. -/
theorem height_add_lt {c d l r : DdNode} {n m : ℕ} (hc : c.height ≤ n) (hd : d.height ≤ m)
    (hcl : l.level = min l.level r.level → c.height < n)
    (hdr : r.level = min l.level r.level → d.height < m) : c.height + d.height < n + m := by
  rcases min_choice l.level r.level with h | h
  · exact add_lt_add_of_lt_of_le (hcl h.symm) hd
  · exact add_lt_add_of_le_of_lt hc (hdr h.symm)

/-- What holds of the edges of `d` at a CDD level. -/
structure EdgesAt (L : Library) (xterms level : ℕ) (d : DdNode) (es : List (DdNode × Raw)) :
    Prop where
  partition : Partition INF es
  alternating : Alternating es
  head : ∀ e ∈ es.head?, cddMask e.1 = false
  wf : ∀ e ∈ es, L.WellFormed xterms e.1
  level_lt : ∀ e ∈ es, level < e.1.level
  height_le : ∀ e ∈ es, e.1.height ≤ d.height
  height_lt : d.level = level → ∀ e ∈ es, e.1.height < d.height
  two_le : d.level = level → 2 ≤ es.length
  eval_eq : ∀ a, eval a d = (cddMask d ^^ evalElem a (a.diff level) es)

theorem edgesAt_spec {d : DdNode} {level : ℕ} (h : L.WellFormed xterms d) (hk : L.isCdd level)
    (hlt : level < maxLevel) (hle : level ≤ d.level) :
    EdgesAt L xterms level d (edgesAt level d) := by
  rcases eq_or_lt_of_le hle with rfl | hle
  · cases h with
    | terminal | xterm => exact absurd hlt (lt_irrefl _)
    | bdd _ hb =>
      obtain ⟨i, j, hij⟩ := hk
      exact absurd (hij.symm.trans hb) (by simp)
    | @cdd neg level es _ hl hp ha h2 hm hw =>
      have hes : edgesAt level (.cdd neg level es) = es := by simp [edgesAt, DdNode.level, elem]
      refine ⟨?_, ?_, ?_, ?_, ?_, ?_, ?_, ?_, ?_⟩ <;> simp only [DdNode.level, hes]
      · exact hp
      · exact ha
      · exact hm
      · exact hw
      · exact hl
      · exact fun e he ↦ le_of_lt (height_lt_of_mem e he)
      · exact fun _ e he ↦ height_lt_of_mem e he
      · exact fun _ ↦ h2
      · exact fun a ↦ rfl
  · have hes : edgesAt level d = [(cddRglr d, INF)] := by simp [edgesAt, not_le.mpr hle]
    have hlev : (cddRglr d).level = d.level := level_negCond d _
    have hhei : (cddRglr d).height = d.height := height_negCond d _
    refine ⟨?_, ?_, ?_, ?_, ?_, ?_, ?_, ?_, ?_⟩ <;> simp only [hes]
    · rfl
    · exact List.isChain_singleton _
    · simp
    · simpa using h.rglr
    · simpa [hlev] using hle
    · simp [hhei]
    · exact fun hd ↦ absurd hd (ne_of_gt hle)
    · exact fun hd ↦ absurd hd (ne_of_gt hle)
    · intro a
      simp [evalElem, (a.diff level).top_below, eval_rglr]

theorem reach_edgesAt {d : DdNode} {level : ℕ} (h : L.WellFormed xterms d) (hk : L.isCdd level)
    (hlt : level < maxLevel) (hle : level ≤ d.level) (a : Assignment) :
    reach a d = cddNegCond (reachElem a (a.diff level) (edgesAt level d)) (cddMask d) := by
  rcases eq_or_lt_of_le hle with rfl | hle
  · rw [edgesAt, if_pos le_rfl]
    nth_rewrite 1 [h.eq_cdd hk hlt]
    rw [reach]
  · rw [edgesAt, if_neg (not_le.mpr hle), reachElem, (a.diff level).top_below, cond_true,
      ← reach_negCond, cddNegCond_rglr]

/-- What holds of the edges of `d` at a BDD level. -/
structure BddEdgesAt (L : Library) (xterms level : ℕ) (d low high : DdNode) : Prop where
  mask : cddMask low = false
  wf_low : L.WellFormed xterms low
  wf_high : L.WellFormed xterms high
  level_low : level < low.level
  level_high : level < high.level
  height_low : low.height ≤ d.height
  height_high : high.height ≤ d.height
  height_lt : d.level = level → low.height < d.height ∧ high.height < d.height
  ne : d.level = level → low ≠ high
  eval_eq : ∀ a, eval a d = (cddMask d ^^ bif a.bool level then eval a high else eval a low)

theorem bddEdgesAt_spec {d : DdNode} {level : ℕ} (h : L.WellFormed xterms d)
    (hk : L.levelinfo[level]? = some .bdd) (hlt : level < maxLevel) (hle : level ≤ d.level) :
    BddEdgesAt L xterms level d (lowAt level d) (highAt level d) := by
  rcases eq_or_lt_of_le hle with rfl | hle
  · cases h with
    | terminal | xterm => exact absurd hlt (lt_irrefl _)
    | cdd _ hc =>
      obtain ⟨i, j, hij⟩ := hc
      exact absurd (hij.symm.trans hk) (by simp)
    | @bdd neg level low high _ hl hh hne hm hwl hwh =>
      have hlow : lowAt level (.bdd neg level low high) = low := by
        simp [lowAt, DdNode.level, DdNode.low]
      have hhigh : highAt level (.bdd neg level low high) = high := by
        simp [highAt, DdNode.level, DdNode.high]
      have hhei : low.height < (DdNode.bdd neg level low high).height ∧
          high.height < (DdNode.bdd neg level low high).height := by
        simp only [height]
        omega
      simp only [DdNode.level, hlow, hhigh]
      exact ⟨hm, hwl, hwh, hl, hh, le_of_lt hhei.1, le_of_lt hhei.2, fun _ ↦ hhei, fun _ ↦ hne,
        fun a ↦ rfl⟩
  · have hlow : lowAt level d = cddRglr d := by simp [lowAt, not_le.mpr hle]
    have hhigh : highAt level d = cddRglr d := by simp [highAt, not_le.mpr hle]
    have hlev : (cddRglr d).level = d.level := level_negCond d _
    have hhei : (cddRglr d).height = d.height := height_negCond d _
    rw [hlow, hhigh]
    refine ⟨cddMask_rglr d, h.rglr, h.rglr, hlev ▸ hle, hlev ▸ hle, le_of_eq hhei,
      le_of_eq hhei, fun hd ↦ absurd hd (ne_of_gt hle), fun hd ↦ absurd hd (ne_of_gt hle), ?_⟩
    intro a
    simp [eval_rglr]

theorem reach_bddEdgesAt {d : DdNode} {level : ℕ} (h : L.WellFormed xterms d)
    (hk : L.levelinfo[level]? = some .bdd) (hlt : level < maxLevel) (hle : level ≤ d.level)
    (a : Assignment) :
    reach a d = cddNegCond (bif a.bool level then reach a (highAt level d)
      else reach a (lowAt level d)) (cddMask d) := by
  rcases eq_or_lt_of_le hle with rfl | hle
  · rw [lowAt, highAt, if_pos le_rfl, if_pos le_rfl]
    nth_rewrite 1 [h.eq_bdd hk hlt]
    rw [reach]
  · rw [lowAt, highAt, if_neg (not_le.mpr hle), if_neg (not_le.mpr hle), Bool.cond_self,
      ← reach_negCond, cddNegCond_rglr]

end

end UCDD

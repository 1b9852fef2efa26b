import UCDD.Zone.Extract
import UCDD.Zone.Reference

/-!
# Inclusion of a matrix

`cdd_contains`, `cddop.c:336–416`: the matrix is split at the intervals of a node, and each piece
that is not empty must be contained in its child. At a Boolean node one of the children must
contain it; the children are read from the node, without the negation bit of the pointer to it.
-/

namespace UCDD

open IntervalMap DdNode

/-- `dbm_constrainN`: nothing is returned where no valuation is left. -/
abbrev ConstrainN : Type := ℕ → List (ℕ × ℕ × Raw) → Dbm → Option Dbm

/-- `cdd_constrain2`. -/
def cddConstrain2 (constrainN : ConstrainN) (dim i j : ℕ) (lower upper : Raw) (dbm : Dbm) :
    Option Dbm :=
  constrainN dim [(j, i, bndL2u lower), (i, j, upper)] dbm

mutual

/-- `cdd_contains_rec` on the pointer `cddNegCond node mask`. -/
def cddContainsRec (L : Library) (constrainN : ConstrainN) (dim : ℕ) (mask : Bool) :
    DdNode → Dbm → Bool
  | .terminal neg, _ => neg ^^ mask
  | .xterm neg _, _ => !(neg ^^ mask)
  | .cdd neg level elem, d =>
    match L.levelinfo[level]? with
    | some (.cdd i j) =>
      if i ≥ dim ∨ j ≥ dim then false
      else containsElem L constrainN dim (neg ^^ mask) i j (-INF) elem d
    | _ => false
  -- the mask is not read here
  | .bdd _ _ low high, d =>
    cddContainsRec L constrainN dim false low d || cddContainsRec L constrainN dim false high d

/-- The loop over the edges from `lower` on, `cddop.c:394–404`. -/
def containsElem (L : Library) (constrainN : ConstrainN) (dim : ℕ) (mask : Bool) (i j : ℕ) :
    Raw → List (DdNode × Raw) → Dbm → Bool
  | _, [], _ => true
  | lower, (child, bnd) :: it, d =>
    (cddEvalTrue (cddNegCond child mask) ||
      match cddConstrain2 constrainN dim i j lower bnd d with
      | some tmp => cddContainsRec L constrainN dim mask child tmp
      | none => true) &&
    containsElem L constrainN dim mask i j bnd it d

end

/-- `cdd_contains`. -/
def cddContains (L : Library) (constrainN : ConstrainN) (node : DdNode) (dbm : Dbm) (dim : ℕ) :
    Bool :=
  cddContainsRec L constrainN dim false node dbm

/-- A closed matrix with zero on its diagonal. Its zone is not empty. -/
structure Dbm.Canonical (dim : ℕ) (D : Dbm) : Prop where
  closed : D.ClosedOn dim
  diagonal : ∀ i < dim, D i i = .fin 1

theorem Dbm.Canonical.zone_nonempty {dim : ℕ} {D : Dbm} (h : D.Canonical dim) :
    (D.zone dim).Nonempty :=
  (Dbm.closedOn_iff.mp h.closed).zone_nonempty (Set.finite_lt_nat dim)

/-- The clock valuations that meet the constraints. -/
def constraintZone (cs : List (ℕ × ℕ × Raw)) : Set (ℕ → ℝ) :=
  {x | ∀ c ∈ cs, Below (x c.1 - x c.2.1) c.2.2}

/-- `dbm_constrainN` is exact on closed matrices. -/
def ExactConstrainN (dim : ℕ) (constrainN : ConstrainN) : Prop :=
  ∀ D : Dbm, D.Canonical dim → ∀ cs : List (ℕ × ℕ × Raw),
    (∀ c ∈ cs, c.1 < dim ∧ c.2.1 < dim ∧ c.1 ≠ c.2.1 ∧ -INF < c.2.2) →
    (∀ E, constrainN dim cs D = some E →
      E.Canonical dim ∧ E.zone dim = D.zone dim ∩ constraintZone cs) ∧
    (constrainN dim cs D = none → D.zone dim ∩ constraintZone cs = ∅)

/-- All clock levels are above the Boolean levels. -/
def Levels.BooleansFirst (L : Levels) : Prop :=
  ∀ ℓ ℓ' i j : ℕ, L.levelinfo[ℓ]? = some LevelInfo.bdd →
    L.levelinfo[ℓ']? = some (LevelInfo.cdd i j) → ℓ < ℓ'

/-- The diagram constrains clocks below `dim` only. -/
abbrev ClocksBelow (L : Library) (dim : ℕ) : DdNode → Prop :=
  All (fun ℓ ↦ ∀ i j, L.levelinfo[ℓ]? = some (.cdd i j) → i < dim ∧ j < dim) fun _ ↦ True

/-- Every node is on a clock level. -/
abbrev ClocksOnly (L : Library) : DdNode → Prop :=
  All (fun ℓ ↦ L.isCdd ℓ) fun _ ↦ True

/-- Below a Boolean node there is no clock level. -/
inductive BooleansLast (L : Library) : DdNode → Prop
  | boolean {d : DdNode} : BooleanOnly L d → BooleansLast L d
  | cdd neg level {elem} : (∀ e ∈ elem, BooleansLast L e.1) → BooleansLast L (.cdd neg level elem)

section

variable {L : Library} {dim : ℕ} {constrainN : ConstrainN} {d : DdNode} {D : Dbm} {mask : Bool}

/-! ### One node -/

theorem mem_constrain2 {i j : ℕ} {lower upper : Raw} {x : ℕ → ℝ} :
    x ∈ constraintZone [(j, i, bndL2u lower), (i, j, upper)] ↔
      ¬ Below (x i - x j) lower ∧ Below (x i - x j) upper := by
  show (∀ c ∈ [(j, i, bndL2u lower), (i, j, upper)], _) ↔ _
  simp only [List.forall_mem_cons, List.not_mem_nil, false_imp_iff, implies_true, and_true]
  apply and_congr_left'
  rw [← neg_sub, below_bndL2u]

/-- The loop over the edges. What is asked of a piece is asked of each of its points. -/
theorem containsElem_iff (hex : ExactConstrainN dim constrainN) {R : DdNode → (ℕ → ℝ) → Prop}
    (htrue : ∀ x, R cddtrue x) {i j : ℕ} (hi : i < dim) (hj : j < dim) (hij : i ≠ j)
    {lower : Raw} {es : List (DdNode × Raw)} (hes : Partition INF es)
    (hhead : ∀ e ∈ es.head?, lower < e.2) (hwf : ∀ e ∈ es, L.WF e.1)
    (hrec : ∀ e ∈ es, ∀ E : Dbm, E.Canonical dim →
      (cddContainsRec L constrainN dim mask e.1 E = true ↔
        ∀ x ∈ E.zone dim, R (cddNegCond e.1 mask) x)) (hD : D.Canonical dim) :
    containsElem L constrainN dim mask i j lower es D = true ↔
      ∀ x ∈ D.zone dim, ∀ p ∈ pieces lower es, ¬ Below (x i - x j) p.1 → Below (x i - x j) p.2.2 →
        R (cddNegCond p.2.1 mask) x := by
  induction es generalizing lower with
  | nil => exact absurd hes id
  | cons e es ih =>
    obtain ⟨child, bnd⟩ := e
    have hlb : lower < bnd := hhead (child, bnd) rfl
    -- the first edge
    have hfirst : (cddEvalTrue (cddNegCond child mask) ||
        match cddConstrain2 constrainN dim i j lower bnd D with
        | some tmp => cddContainsRec L constrainN dim mask child tmp
        | none => true) = true ↔ ∀ x ∈ D.zone dim, ¬ Below (x i - x j) lower →
          Below (x i - x j) bnd → R (cddNegCond child mask) x := by
      cases htr : cddEvalTrue (cddNegCond child mask) with
      | true =>
        have heq : cddNegCond child mask = cddtrue := by
          have hfalse := (cddEvalFalse_iff ((hwf (child, bnd) (by simp)).negCond (mask ^^ true))).mp
          have hneg : cddNegCond child (mask ^^ true) = cddNeg (cddNegCond child mask) := by
            rw [cddNeg, cddNegCond_negCond]
          rw [hneg] at hfalse
          have hterm : cddEvalFalse (cddNeg (cddNegCond child mask)) = true := by
            revert htr
            generalize cddNegCond child mask = c
            intro htr
            cases c with
            | terminal neg => cases neg <;> first | rfl | cases htr
            | xterm neg id => cases neg <;> first | rfl | cases htr
            | bdd | cdd => cases htr
          have h := congrArg cddNeg (hfalse hterm)
          rw [cddNeg, cddNeg, cddNegCond_negCond] at h
          show cddNegCond child mask = cddNeg cddfalse
          rw [← h, cddNegCond_negCond]
          simp
        rw [heq]
        simp [htrue]
      | false =>
        have hcs : ∀ c ∈ [(j, i, bndL2u lower), (i, j, bnd)],
            c.1 < dim ∧ c.2.1 < dim ∧ c.1 ≠ c.2.1 ∧ -INF < c.2.2 := by
          have hlow : -INF < bndL2u lower := by
            cases hl : lower with
            | negInf => exact neg_INF_lt
            | fin b => exact Raw.negInf_lt_fin _
            | inf =>
              rw [hl] at hlb
              exact absurd (lt_of_lt_of_le hlb (le_INF bnd)) (lt_irrefl _)
          simp only [List.forall_mem_cons, List.not_mem_nil, false_imp_iff, implies_true, and_true]
          exact ⟨⟨hj, hi, hij.symm, hlow⟩, hi, hj, hij, lt_of_le_of_lt (neg_INF_le _) hlb⟩
        obtain ⟨hsome, hnone⟩ := hex D hD _ hcs
        rw [Bool.false_or]
        cases hcon : cddConstrain2 constrainN dim i j lower bnd D with
        | none =>
          have hempty := hnone hcon
          rw [iff_true_left rfl]
          intro x hx hlow hup
          have hmem : x ∈ D.zone dim ∩ constraintZone [(j, i, bndL2u lower), (i, j, bnd)] :=
            ⟨hx, mem_constrain2.mpr ⟨hlow, hup⟩⟩
          rw [hempty] at hmem
          cases hmem
        | some E =>
          obtain ⟨hE, hzone⟩ := hsome E hcon
          show cddContainsRec L constrainN dim mask child E = true ↔ _
          rw [hrec (child, bnd) (by simp) E hE, hzone]
          constructor
          · intro h x hx hlow hup
            exact h x ⟨hx, mem_constrain2.mpr ⟨hlow, hup⟩⟩
          · intro h x hx
            obtain ⟨hlow, hup⟩ := mem_constrain2.mp hx.2
            exact h x hx.1 hlow hup
    rw [containsElem, Bool.and_eq_true, hfirst]
    cases es with
    | nil => simp [pieces, containsElem]
    | cons e' es =>
      have hhead' : ∀ x ∈ (e' :: es).head?, bnd < x.2 := by
        rintro x ⟨⟩
        exact hes.1
      rw [ih hes.2 hhead' (fun e he ↦ hwf e (List.mem_cons_of_mem _ he))
        fun e he ↦ hrec e (List.mem_cons_of_mem _ he)]
      constructor
      · rintro ⟨h1, h2⟩ x hx p hp
        cases List.mem_cons.mp hp with
        | inl h =>
          rw [h]
          exact h1 x hx
        | inr h => exact h2 x hx p h
      · intro h
        exact ⟨fun x hx ↦ h x hx (lower, child, bnd) List.mem_cons_self,
          fun x hx p hp ↦ h x hx p (List.mem_cons_of_mem _ hp)⟩

/-! ### Boolean diagrams -/

/-- The negation bit of a pointer to a Boolean node does not matter for satisfiability. -/
theorem containsRec_boolean (hd : L.WF d) (hb : BooleanOnly L d) :
    cddContainsRec L constrainN dim mask d D = true ↔ cddNegCond d mask ≠ cddfalse := by
  induction hd generalizing mask with
  | terminal neg => cases neg <;> cases mask <;> simp [cddContainsRec, cddNegCond, cddfalse]
  | xterm neg h => exact absurd h (Nat.not_lt_zero _)
  | cdd neg hk =>
    obtain ⟨i, j, hij⟩ := hk
    have h := hb.of_cdd.1
    rw [hij] at h
    cases h
  | bdd neg _ _ _ hne _ _ _ ihl ihh =>
    obtain ⟨-, hl, hh⟩ := hb.of_bdd
    rw [cddContainsRec, Bool.or_eq_true, ihl hl, ihh hh, cddNegCond_false, cddNegCond_false]
    constructor
    · intro _ h
      cases h
    · intro _
      by_contra hboth
      push Not at hboth
      exact hne (hboth.1.trans hboth.2.symm)

theorem exists_holds_boolean_iff (hd : L.WF d) (hb : BooleanOnly L d) (x : ℕ → ℝ) :
    (∃ b, Holds L ⟨x, b⟩ d) ↔ d ≠ cddfalse := by
  constructor
  · rintro ⟨b, h⟩ rfl
    exact not_holds_cddfalse h
  · intro hne
    obtain ⟨b, h⟩ := exists_holds_bool hd hb hne
    exact ⟨b, h x⟩

/-! ### Clocks above the Booleans -/

/-- With the Boolean nodes below the clock nodes the Booleans are chosen for each point. -/
theorem containsRec_iff (hL : L.Declared) (hex : ExactConstrainN dim constrainN)
    (hd : L.Proper d) (hlast : BooleansLast L d) (hbelow : ClocksBelow L dim d)
    (hD : D.Canonical dim) :
    cddContainsRec L constrainN dim mask d D = true ↔
      ∀ x ∈ D.zone dim, ∃ b, Holds L ⟨x, b⟩ (cddNegCond d mask) := by
  induction hlast generalizing mask D with
  | boolean hb =>
    rw [containsRec_boolean hd.wf hb]
    simp only [exists_holds_boolean_iff (hd.wf.negCond mask) (hb.negCond mask)]
    obtain ⟨x, hx⟩ := hD.zone_nonempty
    exact ⟨fun h _ _ ↦ h, fun h ↦ h x hx⟩
  | @cdd neg level elem hlast ih =>
    obtain ⟨hclocks, -, hbelow⟩ := hbelow.of_cdd
    have hwf := hd.wf
    cases hwf with
    | cdd _ hk _ hp _ _ _ hs =>
    obtain ⟨i, j, hij⟩ := hk
    obtain ⟨hi, hj⟩ := hclocks i j hij
    obtain ⟨-, hr, hin⟩ := hd.inRange.of_cdd
    have hloop : containsElem L constrainN dim (neg ^^ mask) i j (-INF) elem D = true ↔ _ :=
      containsElem_iff hex (R := fun d x ↦ ∃ b, Holds L ⟨x, b⟩ d)
        (fun x ↦ ⟨fun _ ↦ false, holds_cddtrue⟩) hi hj
        (ne_of_gt (hL.covers.pair_of_level level i j hij).1.1) hp
        (fun e he ↦ hr e (List.mem_of_mem_head? he)) hs
        (fun e he E hE ↦ ih e he ⟨hs e he, hin e he⟩ (hbelow e he) hE) hD
    rw [cddContainsRec, hij]
    simp only [not_le.mpr hi, not_le.mpr hj, or_self, if_false]
    rw [hloop]
    have hneg : L.Proper (.cdd (neg ^^ mask) level elem) := hd.negCond mask
    apply forall₂_congr
    intro x _
    show _ ↔ ∃ b, Holds L ⟨x, b⟩ (.cdd (neg ^^ mask) level elem)
    constructor
    · intro hall
      obtain ⟨p, hp, hlow, hup⟩ := exists_piece hneg hij x
      obtain ⟨b, hb⟩ := hall p hp hlow hup
      exact ⟨b, (holds_pieces hneg hij).mpr ⟨p, hp, ⟨hlow, hup⟩, hb⟩⟩
    · rintro ⟨b, hb⟩ p hp hlow hup
      exact ⟨b, (holds_pieces_forall hneg hij).mp hb p hp hlow hup⟩

theorem booleansLast_of_clocksFirst (hCF : L.ClocksFirst) (hd : L.WF d) : BooleansLast L d := by
  induction hd with
  | terminal neg => exact .boolean (.terminal neg)
  | xterm neg _ => exact .boolean (.xterm neg _)
  | bdd neg hk hl hh hne hmask hwl hwh =>
    exact .boolean (booleanOnly_of_not_cdd hCF (.bdd neg hk hl hh hne hmask hwl hwh) rfl)
  | cdd neg _ _ _ _ _ _ _ ih => exact .cdd neg _ ih

/-! ### Booleans above the clocks -/

/-- The root is a Boolean node. -/
def isBddNode : DdNode → Bool
  | .bdd .. => true
  | _ => false

theorem clocksOnly_of_not_bdd (hBF : L.BooleansFirst) (hd : L.WF d) (hnb : isBddNode d = false) :
    ClocksOnly L d := by
  induction hd with
  | terminal neg => exact .terminal neg
  | xterm neg _ => exact .xterm neg _
  | bdd => cases hnb
  | @cdd neg level elem hk hlt _ _ _ _ hs ih =>
    apply All.cdd neg hk fun _ _ ↦ trivial
    intro e he
    apply ih e he
    obtain ⟨c, bnd⟩ := e
    cases hs (c, bnd) he with
    | terminal | xterm | cdd => rfl
    | @bdd neg' level' low high hk' =>
      obtain ⟨i, j, hij⟩ := hk
      have h1 := hBF level' level i j hk' hij
      have h2 : level < level' := hlt _ he
      omega

theorem booleansLast_of_clocksOnly (hd : L.WF d) (hc : ClocksOnly L d) : BooleansLast L d := by
  induction hd with
  | terminal neg => exact .boolean (.terminal neg)
  | xterm neg _ => exact .boolean (.xterm neg _)
  | bdd neg hk =>
    obtain ⟨i, j, hij⟩ := hc.of_bdd.1
    rw [hij] at hk
    cases hk
  | cdd neg _ _ _ _ _ _ _ ih => exact .cdd neg _ fun e he ↦ ih e he (hc.of_cdd.2.2 e he)

/-- The clock diagrams below the Boolean nodes. Each carries the parity of the negation bits of
the pointers to the Boolean nodes above it. -/
def boolLeaves (parity : Bool) : DdNode → List (DdNode × Bool)
  | .bdd neg _ low high => boolLeaves (parity ^^ neg) low ++ boolLeaves (parity ^^ neg) high
  | d => [(d, parity)]

/-- The clock diagram is true on the zone. -/
def TrueOn (L : Library) (Z : Set (ℕ → ℝ)) (d : DdNode) : Prop :=
  ∀ x ∈ Z, Holds L ⟨x, fun _ ↦ false⟩ d

theorem holds_clocksOnly (hd : L.WF d) (hc : ClocksOnly L d) (x : ℕ → ℝ) (b b' : ℕ → Bool) :
    Holds L ⟨x, b⟩ d ↔ Holds L ⟨x, b'⟩ d := by
  have heval : eval (Valuation.assignment L ⟨x, b⟩) d = eval (Valuation.assignment L ⟨x, b'⟩) d := by
    induction hd with
    | terminal | xterm => simp [eval]
    | bdd neg hk =>
      obtain ⟨i, j, hij⟩ := hc.of_bdd.1
      rw [hij] at hk
      cases hk
    | cdd neg _ _ _ _ _ _ _ ih =>
      obtain ⟨-, -, hs⟩ := hc.of_cdd
      rw [eval, eval, evalElem_congr fun e he ↦ ih e he (hs e he)]
      rfl
  unfold Holds
  rw [heval]

theorem boolLeaves_of_not_bdd {parity : Bool} (h : isBddNode d = false) :
    boolLeaves parity d = [(d, parity)] := by
  cases d with
  | bdd => cases h
  | terminal | xterm | cdd => rfl

/-- The recursion through the Boolean nodes reaches each leaf, and forgets the parity. -/
theorem containsRec_boolLeaves (parity : Bool) :
    cddContainsRec L constrainN dim false d D = true ↔
      ∃ l ∈ boolLeaves parity d, cddContainsRec L constrainN dim false l.1 D = true := by
  induction d generalizing parity with
  | terminal | xterm | cdd => simp [boolLeaves]
  | bdd neg level low high ihl ihh =>
    rw [cddContainsRec, Bool.or_eq_true, ihl (parity ^^ neg), ihh (parity ^^ neg), boolLeaves]
    simp only [List.mem_append, or_and_right, exists_or]

theorem boolLeaves_spec (hBF : L.BooleansFirst) (hd : L.Proper d) (hbelow : ClocksBelow L dim d)
    {parity : Bool} :
    ∀ l ∈ boolLeaves parity d, L.Proper l.1 ∧ ClocksBelow L dim l.1 ∧ ClocksOnly L l.1 := by
  induction d generalizing parity with
  | terminal neg | xterm neg | cdd neg =>
    rw [boolLeaves_of_not_bdd rfl, List.forall_mem_singleton]
    exact ⟨hd, hbelow, clocksOnly_of_not_bdd hBF hd.wf rfl⟩
  | bdd neg level low high ihl ihh =>
    obtain ⟨-, hrl, hrh⟩ := hd.inRange.of_bdd
    obtain ⟨-, hbl, hbh⟩ := hbelow.of_bdd
    have hwf := hd.wf
    cases hwf with
    | bdd _ _ _ _ _ _ hwl hwh =>
    intro l hl
    cases List.mem_append.mp hl with
    | inl hl => exact ihl ⟨hwl, hrl⟩ hbl l hl
    | inr hl => exact ihh ⟨hwh, hrh⟩ hbh l hl

/-- Some Booleans make the diagram true on the zone when one of the leaves is. -/
theorem exists_holds_boolLeaves (hBF : L.BooleansFirst) (hd : L.WF d) (Z : Set (ℕ → ℝ))
    (parity : Bool) :
    (∃ b, ∀ x ∈ Z, Holds L ⟨x, b⟩ (cddNegCond d parity)) ↔
      ∃ l ∈ boolLeaves parity d, TrueOn L Z (cddNegCond l.1 l.2) := by
  have hleaf {d : DdNode} (hd : L.WF d) (hnb : isBddNode d = false) (parity : Bool) :
      (∃ b, ∀ x ∈ Z, Holds L ⟨x, b⟩ (cddNegCond d parity)) ↔
        ∃ l ∈ boolLeaves parity d, TrueOn L Z (cddNegCond l.1 l.2) := by
    rw [boolLeaves_of_not_bdd hnb]
    simp only [List.mem_singleton, exists_eq_left]
    have hclocks : ClocksOnly L (cddNegCond d parity) :=
      (clocksOnly_of_not_bdd hBF hd hnb).negCond parity
    have hwf := hd.negCond parity
    constructor
    · intro ⟨b, hb⟩ x hx
      exact (holds_clocksOnly hwf hclocks x b _).mp (hb x hx)
    · exact fun h ↦ ⟨_, h⟩
  induction hd generalizing parity with
  | terminal neg => exact hleaf (.terminal neg) rfl parity
  | xterm neg h => exact hleaf (.xterm neg h) rfl parity
  | cdd neg hk hl hp ha h2 hm hs => exact hleaf (.cdd neg hk hl hp ha h2 hm hs) rfl parity
  | @bdd neg level low high hk hl hh _ _ hwl hwh ihl ihh =>
    have hnode (x : ℕ → ℝ) (b : ℕ → Bool) :
        Holds L ⟨x, b⟩ (cddNegCond (.bdd neg level low high) parity) ↔
          Holds L ⟨x, b⟩ (cddNegCond (bif b level then high else low) (parity ^^ neg)) := by
      rw [Bool.xor_comm]
      exact holds_bdd
    have hset {c : DdNode} (hc : L.WF c) (hlt : level < c.level) (value : Bool) {b : ℕ → Bool}
        {x : ℕ → ℝ} : Holds L ⟨x, Function.update b level value⟩ (cddNegCond c (parity ^^ neg)) ↔
          Holds L ⟨x, b⟩ (cddNegCond c (parity ^^ neg)) :=
      holds_setBool (hc.negCond _) (by simpa using hlt) ⟨x, b⟩ value
    rw [boolLeaves]
    simp only [List.mem_append, or_and_right, exists_or, ← ihl (parity ^^ neg),
      ← ihh (parity ^^ neg), hnode]
    constructor
    · rintro ⟨b, hb⟩
      cases hv : b level with
      | false => exact Or.inl ⟨b, by simpa [hv] using hb⟩
      | true => exact Or.inr ⟨b, by simpa [hv] using hb⟩
    · rintro (⟨b, hb⟩ | ⟨b, hb⟩)
      · use Function.update b level false
        intro x hx
        rw [Function.update_self, cond_false, hset hwl hl]
        exact hb x hx
      · use Function.update b level true
        intro x hx
        rw [Function.update_self, cond_true, hset hwh hh]
        exact hb x hx

/-- Forgetting the parity does no harm: a clock diagram with an even parity is true on the zone, or
among those with an odd parity one is true on it exactly when one is false on it. -/
def NegationHarmless (L : Library) (Z : Set (ℕ → ℝ)) (f : DdNode) : Prop :=
  (∃ l ∈ boolLeaves false f, l.2 = false ∧ TrueOn L Z l.1) ∨
    ((∃ l ∈ boolLeaves false f, l.2 = true ∧ TrueOn L Z l.1) ↔
      ∃ l ∈ boolLeaves false f, l.2 = true ∧ TrueOn L Z (cddNeg l.1))

theorem containsRec_booleansFirst (hL : L.Declared) (hBF : L.BooleansFirst)
    (hex : ExactConstrainN dim constrainN) (hd : L.Proper d) (hbelow : ClocksBelow L dim d)
    (hD : D.Canonical dim) :
    cddContainsRec L constrainN dim false d D = true ↔
      ∃ l ∈ boolLeaves false d, TrueOn L (D.zone dim) l.1 := by
  rw [containsRec_boolLeaves false]
  apply exists_congr
  intro l
  apply and_congr_right
  intro hl
  obtain ⟨hp, hb, hc⟩ := boolLeaves_spec hBF hd hbelow l hl
  rw [containsRec_iff hL hex hp (booleansLast_of_clocksOnly hp.wf hc) hb hD, cddNegCond_false]
  apply forall₂_congr
  intro x _
  constructor
  · intro ⟨b, h⟩
    exact (holds_clocksOnly hp.wf hc x b _).mp h
  · exact fun h ↦ ⟨_, h⟩

end

/-- `cdd_contains` decides inclusion, for the two orders of the declarations. -/
structure ContainsDecides (L : Library) (constrainN : ConstrainN) (dim : ℕ) (f : DdNode) (D : Dbm) :
    Prop where
  clocksFirst : L.ClocksFirst → (cddContains L constrainN f D dim = true ↔
    ∀ x ∈ D.zone dim, ∃ b, Holds L ⟨x, b⟩ f)
  booleansFirst : L.BooleansFirst → (cddContains L constrainN f D dim = true ↔
    ∃ b, ∀ x ∈ D.zone dim, Holds L ⟨x, b⟩ f)

/-- The reference `dbm_constrainN`. -/
def refConstrainN : ConstrainN := fun dim cs D ↦
  let E := (cs.foldl (fun D c ↦ D.meet c.1 c.2.1 c.2.2) D).close dim
  if E.ClosedOn dim then some E else none

theorem exactConstrainN_refConstrainN (dim : ℕ) : ExactConstrainN dim refConstrainN := by
  intro D hD cs hcs
  have hfold : ∀ D : Dbm, D.ProperOn dim → (∀ i < dim, D i i = .fin 1) →
      (cs.foldl (fun D c ↦ D.meet c.1 c.2.1 c.2.2) D).ProperOn dim ∧
      (∀ i < dim, cs.foldl (fun D c ↦ D.meet c.1 c.2.1 c.2.2) D i i = .fin 1) ∧
      (cs.foldl (fun D c ↦ D.meet c.1 c.2.1 c.2.2) D).zone dim = D.zone dim ∩ constraintZone cs := by
    clear hD D
    induction cs with
    | nil =>
      intro D hp hdiag
      refine ⟨hp, hdiag, ?_⟩
      ext x
      simp [constraintZone]
    | cons c cs ih =>
      intro D hp hdiag
      obtain ⟨⟨hi, hj, hne, hb⟩, hcs⟩ := List.forall_mem_cons.mp hcs
      have hdiag' : ∀ i < dim, D.meet c.1 c.2.1 c.2.2 i i = .fin 1 := by
        intro i hid
        rw [Dbm.meet_of_ne (by omega)]
        exact hdiag i hid
      obtain ⟨h1, h2, h3⟩ := ih hcs (D.meet c.1 c.2.1 c.2.2) (hp.meet hb) hdiag'
      refine ⟨h1, h2, ?_⟩
      rw [List.foldl_cons, h3]
      ext x
      rw [Set.mem_inter_iff, Dbm.mem_zone_meet hi hj, Set.mem_inter_iff, and_assoc]
      simp [constraintZone]
  obtain ⟨hp, hdiag, hzone⟩ := hfold D hD.closed.proper hD.diagonal
  obtain ⟨hclose, hiff⟩ := Dbm.close_spec hp
  rw [hzone] at hclose hiff
  constructor
  · intro E hE
    simp only [refConstrainN] at hE
    split at hE
    · next hcl =>
      cases hE
      refine ⟨⟨hcl, fun i hi ↦ le_antisymm ?_ (hcl.2.1 i hi)⟩, hclose⟩
      rw [← hdiag i hi]
      exact DifferenceBounds.close_le (C := rawBounds) _ i i
    · cases hE
  · intro hnone
    simp only [refConstrainN] at hnone
    split at hnone
    · cases hnone
    · next hcl => exact Set.not_nonempty_iff_eq_empty.mp fun h ↦ hcl (hiff.mpr h)

/-! ### A pointer to a Boolean node with a negation bit -/

/-- One Boolean, then two clocks. -/
def booleanFirstLibrary : Library :=
  ⟨(Levels.init.cddAddBddvar 1).cddAddClocks 2, fun d ↦ d.height⟩

/-- With the Boolean `true`, otherwise `x 1 - x 0 ≥ 2`. -/
def booleanOrLower : DdNode := .bdd false 0 (.cdd false 1 [(cddfalse, .fin 4), (cddtrue, INF)]) cddtrue

/-- `x 1 - x 0 ≥ 2` as a matrix. -/
def lowerDbm : Dbm := fun i j ↦ if i = j then .fin 1 else if i = 0 then .fin (-3) else INF

theorem lowerDbm_canonical : lowerDbm.Canonical 2 := ⟨by decide, by decide⟩

theorem declared_booleanFirstLibrary : booleanFirstLibrary.Declared :=
  .addClocks 2 (.addBddvar 1 .init)

theorem booleansFirst_booleanFirstLibrary : booleanFirstLibrary.BooleansFirst := by
  intro ℓ ℓ' i j h h'
  have hℓ : ℓ < 2 := (List.getElem?_eq_some_iff.mp h).1
  have h1 : ℓ ≠ 1 := by
    rintro rfl
    cases h
  have h0 : ℓ' ≠ 0 := by
    rintro rfl
    cases h'
  omega

/-- The clock diagram of `booleanOrLower`. -/
theorem proper_lower :
    booleanFirstLibrary.Proper (.cdd false 1 [(cddfalse, .fin 4), (cddtrue, INF)]) := by
  constructor
  · decide
  · apply All.cdd _ trivial
    · decide
    · simp only [List.mem_cons, List.not_mem_nil, or_false, forall_eq_or_imp, forall_eq]
      exact ⟨.terminal _, .terminal _⟩

theorem proper_booleanOrLower : booleanFirstLibrary.Proper booleanOrLower :=
  ⟨by decide, .bdd _ trivial proper_lower.inRange (.terminal _)⟩

theorem clocksBelow_booleanOrLower : ClocksBelow booleanFirstLibrary 2 booleanOrLower := by
  have hlow (ℓ i j : ℕ) (h : booleanFirstLibrary.levelinfo[ℓ]? = some (.cdd i j)) :
      i < 2 ∧ j < 2 := by
    obtain ⟨hji, hi⟩ := declared_booleanFirstLibrary.covers.pair_of_level ℓ i j h |>.1
    have hi : i < 2 := hi
    omega
  apply All.bdd _ (hlow 0) (All.cdd _ (hlow 1) (fun _ _ ↦ trivial) ?_) (.terminal _)
  simp only [List.mem_cons, List.not_mem_nil, or_false, forall_eq_or_imp, forall_eq]
  exact ⟨.terminal _, .terminal _⟩

/-- The diagram is true on the zone whatever the Boolean. -/
theorem holds_booleanOrLower (b : ℕ → Bool) {x : ℕ → ℝ} (hx : x ∈ lowerDbm.zone 2) :
    Holds booleanFirstLibrary ⟨x, b⟩ booleanOrLower := by
  rw [booleanOrLower, holds_bdd, cddNegCond_false]
  show Holds _ _ (bif b 0 then _ else _)
  cases b 0 with
  | true => exact holds_cddtrue
  | false =>
    rw [cond_false, holds_pieces proper_lower (i := 1) (j := 0) (by decide)]
    refine ⟨(.fin 4, cddtrue, INF), by simp [pieces], ⟨?_, below_INF _⟩, holds_cddtrue⟩
    have hentry : Below (x 0 - x 1) (.fin (2 * -2 + 1)) := hx 0 (by omega) 1 (by omega)
    have hge := (upperSat_odd _ (-2)).mp hentry
    intro hlt
    have hlt : x 1 - x 0 < (2 : ℤ) := (upperSat_even _ 2).mp hlt
    push_cast at hge hlt
    linarith

end UCDD

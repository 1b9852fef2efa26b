import UCDD.Quantify.Exist

/-!
# Quantification without entangled levels

`relax` combines the removed constraint with each lower level that shares a clock with it, if
its array, which `cdd_exist` takes as a list of clocks, is not zero at that clock. Where no
lower level shares a clock the array is not read: a relaxed child is the child, and the union
of the children is the projection.
-/

namespace UCDD

open IntervalMap DdNode

/-- The valuations agree outside the quantified levels and clocks. -/
structure Valuation.Agrees (levels clocks : List ℕ) (v v' : Valuation) : Prop where
  clock : ∀ c, c ∉ clocks → v'.clock c = v.clock c
  bool : ∀ ℓ, ℓ ∉ levels → v'.bool ℓ = v.bool ℓ

theorem Valuation.Agrees.refl (levels clocks : List ℕ) (v : Valuation) :
    v.Agrees levels clocks v :=
  ⟨fun _ _ ↦ rfl, fun _ _ ↦ rfl⟩

theorem Valuation.Agrees.trans {levels clocks : List ℕ} {u v w : Valuation}
    (h : u.Agrees levels clocks v) (h' : v.Agrees levels clocks w) : u.Agrees levels clocks w :=
  ⟨fun c hc ↦ (h'.clock c hc).trans (h.clock c hc), fun ℓ hℓ ↦ (h'.bool ℓ hℓ).trans (h.bool ℓ hℓ)⟩

/-- The meaning of existential quantification. -/
def Library.Quantified (L : Library) (levels clocks : List ℕ) (d : DdNode) (v : Valuation) : Prop :=
  ∃ v' : Valuation, v.Agrees levels clocks v' ∧ Holds L v' d

/-- The level tests one of the two clocks. -/
def Library.Shares (L : Library) (i j ℓ : ℕ) : Prop :=
  ∃ i' j', L.levelinfo[ℓ]? = some (.cdd i' j') ∧ (i' = i ∨ i' = j ∨ j' = i ∨ j' = j)

/-- No level below the pointer tests one of the two clocks. -/
abbrev Library.Apart (L : Library) (i j : ℕ) : DdNode → Prop :=
  All (fun ℓ ↦ ¬ L.Shares i j ℓ) fun _ ↦ True

/-- No path tests a level of a listed clock above another level that shares a clock with it. -/
inductive Library.Untangled (L : Library) (clocks : List ℕ) : DdNode → Prop
  | terminal neg : L.Untangled clocks (.terminal neg)
  | xterm neg id : L.Untangled clocks (.xterm neg id)
  | bdd neg level {low high} : L.Untangled clocks low → L.Untangled clocks high →
      L.Untangled clocks (.bdd neg level low high)
  | cdd neg level {elem} : (∀ e ∈ elem, L.Untangled clocks e.1) →
      (∀ i j, L.levelinfo[level]? = some (.cdd i j) → i ∈ clocks ∨ j ∈ clocks →
        ∀ e ∈ elem, L.Apart i j e.1) →
      L.Untangled clocks (.cdd neg level elem)

/-- The level is quantified away. -/
def Library.Affected (L : Library) (levels clocks : List ℕ) (ℓ : ℕ) : Prop :=
  (∃ i j, L.levelinfo[ℓ]? = some (.cdd i j) ∧ (i ∈ clocks ∨ j ∈ clocks)) ∨
    (L.levelinfo[ℓ]? = some .bdd ∧ ℓ ∈ levels)

section

variable {L : Library} {levels clocks : List ℕ}

theorem Library.Untangled.negCond {d : DdNode} (h : L.Untangled clocks d) (m : Bool) :
    L.Untangled clocks (cddNegCond d m) := by
  cases h with
  | terminal neg => exact .terminal _
  | xterm neg id => exact .xterm _ id
  | bdd neg level hl hh => exact .bdd _ level hl hh
  | cdd neg level hs ha => exact .cdd _ level hs ha

/-- Without clocks to quantify nothing is entangled. -/
theorem untangled_nil (d : DdNode) : L.Untangled [] d := by
  induction d with
  | terminal neg => exact .terminal neg
  | xterm neg id => exact .xterm neg id
  | bdd neg level low high ihl ihh => exact .bdd neg level ihl ihh
  | cdd neg level elem ih =>
    apply Library.Untangled.cdd neg level ih
    intro i j _ h
    simp at h

/-- A diagram without quantified levels is not entangled. -/
theorem untangled_of_not_affected {d : DdNode}
    (h : All (fun ℓ ↦ ¬ L.Affected levels clocks ℓ) (fun _ ↦ True) d) : L.Untangled clocks d := by
  induction h with
  | terminal neg => exact .terminal neg
  | xterm neg id => exact .xterm neg id
  | bdd neg _ _ _ ihl ihh => exact .bdd neg _ ihl ihh
  | cdd neg hp _ _ ih =>
    apply Library.Untangled.cdd neg _ ih
    intro i j hij hmem
    exact absurd (Or.inl ⟨i, j, hij, hmem⟩) hp

/-- A diagram apart from two clocks does not read them. -/
theorem holds_congr_apart {i j : ℕ} {d : DdNode} (h : L.Apart i j d) (v v' : Valuation)
    (hc : ∀ c, c ≠ i → c ≠ j → v.clock c = v'.clock c) (hb : v.bool = v'.bool) :
    Holds L v d ↔ Holds L v' d := by
  unfold Holds
  rw [eval_congr_of_all h]
  intro ℓ hℓ
  refine ⟨congrFun hb ℓ, ?_⟩
  show realCut (L.diff v.clock ℓ) = realCut (L.diff v'.clock ℓ)
  unfold Library.diff
  cases hk : L.levelinfo[ℓ]? with
  | none => rfl
  | some info =>
    cases info with
    | bdd => rfl
    | cdd i' j' =>
      have hne : ¬ (i' = i ∨ i' = j ∨ j' = i ∨ j' = j) := fun hs ↦ hℓ ⟨i', j', hk, hs⟩
      simp only [not_or] at hne
      obtain ⟨h1, h2, h3, h4⟩ := hne
      simp only [hc i' h1 h2, hc j' h3 h4]

/-! ### Relaxing -/

/-- The entries of the running operation in the relax cache return their own pointer. -/
def ExistCall.RelaxValid (C : ExistCall) (caches : ExistCaches) : Prop :=
  ∀ s entry, caches.relaxcache s = some entry → entry.op = C.opid → entry.res = entry.node

variable {C : ExistCall}

theorem relaxLookup_spec {caches : ExistCaches} (h : C.RelaxValid caches) {node res : DdNode}
    {R : Removed} (hl : C.relaxLookup caches node R = some res) : res = node := by
  unfold ExistCall.relaxLookup at hl
  split at hl
  · next entry hentry =>
    split at hl
    · next hkey =>
      cases hl
      rw [h _ entry hentry hkey.2.2.2.2.2, hkey.1]
    · cases hl
  · cases hl

theorem relaxStore_valid {caches : ExistCaches} (h : C.RelaxValid caches) (node : DdNode)
    (R : Removed) : C.RelaxValid (C.relaxStore caches node R node) := by
  intro s entry hs hop
  unfold ExistCall.relaxStore at hs
  simp only [Function.update_apply] at hs
  split at hs
  · cases hs
    rfl
  · exact h s entry hs hop

/-- Between levels that share no clock there is no consequence, and the array is not read. -/
theorem relaxConsequence_apart {R : Removed} {level i j : ℕ} (low bnd : Raw)
    (hk : L.levelinfo[level]? = some (.cdd i j)) (h : ¬ L.Shares R.clock1 R.clock2 level) :
    relaxConsequence C.clocks R i j low bnd = some none := by
  have hne : ¬ (i = R.clock1 ∨ i = R.clock2 ∨ j = R.clock1 ∨ j = R.clock2) :=
    fun hs ↦ h ⟨i, j, hk, hs⟩
  simp only [not_or] at hne
  obtain ⟨h1, h2, h3, h4⟩ := hne
  simp [relaxConsequence, readClocks, h1, h2, h3, h4]

/-- The relaxed pointer is the pointer itself. -/
def RelaxId (L : Library) (C : ExistCall) (R : Removed) (mask : Bool) (d : DdNode) : Prop :=
  ∀ caches, C.RelaxValid caches → ∃ caches', relax L C R mask d caches =
    some (cddNegCond d mask, caches') ∧ C.RelaxValid caches' ∧
    caches'.quantcache = caches.quantcache

/-- The loop joins the edges it is given. -/
private theorem relaxElem_spec {R : Removed} {mask : Bool} {level i j : ℕ}
    (hk : L.levelinfo[level]? = some (.cdd i j)) (hlt : level < maxLevel)
    (hap : ¬ L.Shares R.clock1 R.clock2 level) {low : Raw} {es : List (DdNode × Raw)}
    (hint : ∀ p ∈ pieces low es, Interval p.1 p.2.2) (hes : ∀ e ∈ es, L.Proper e.1)
    (hrel : ∀ e ∈ es, RelaxId L C R mask e.1) {res : DdNode} (hres : L.Proper res)
    {caches : ExistCaches} (hc : C.RelaxValid caches) :
    ∃ r caches', relaxElem L C R mask level i j low es res caches = some (r, caches') ∧
      C.RelaxValid caches' ∧ caches'.quantcache = caches.quantcache ∧ L.Proper r ∧
      ∀ a, eval a r = true ↔ eval a res = true ∨ ∃ p ∈ pieces low es,
        inPiece (a.diff level) p.1 p.2.2 = true ∧ eval a (cddNegCond p.2.1 mask) = true := by
  induction es generalizing low res caches with
  | nil =>
    refine ⟨res, caches, rfl, hc, rfl, hres, ?_⟩
    simp [pieces]
  | cons e es ih =>
    obtain ⟨child, bnd⟩ := e
    obtain ⟨caches₁, hrelax, hc₁, hq₁⟩ := hrel (child, bnd) (by simp) caches hc
    have hspec := cddIntervalFromLevel_spec ⟨i, j, hk⟩ hlt (hint (low, child, bnd) (by simp [pieces]))
    have hchild : L.Proper (cddNegCond child mask) := (hes (child, bnd) (by simp)).negCond mask
    have hand := hchild.and hspec.1
    have hint' : ∀ p ∈ pieces bnd es, Interval p.1 p.2.2 :=
      fun p hp ↦ hint p (List.mem_cons_of_mem _ hp)
    obtain ⟨r, caches₂, hr, hc₂, hq₂, hproper, heval⟩ := ih hint' (fun e he ↦ hes e (List.mem_cons_of_mem _ he))
      (fun e he ↦ hrel e (List.mem_cons_of_mem _ he)) (hres.or hand) hc₁
    refine ⟨r, caches₂, ?_, hc₂, hq₂.trans hq₁, hproper, ?_⟩
    · simp only [relaxElem, relaxConsequence_apart low bnd hk hap, hrelax, Option.bind_eq_bind,
        Option.bind_some, relaxAdd, hr]
    · intro a
      rw [heval, eval_cddOr hres.wf hand.wf, (cddAnd_builds hchild.wf hspec.1.wf).eval_eq,
        hspec.2 a]
      simp only [pieces, List.mem_cons, exists_eq_or_imp, Bool.or_eq_true, Bool.and_eq_true]
      tauto

/-- Relaxing a constraint into a diagram that shares no clock with it changes nothing. -/
theorem relax_apart {R : Removed} {d : DdNode} (hd : L.Proper d)
    (hap : L.Apart R.clock1 R.clock2 d) (mask : Bool) : RelaxId L C R mask d := by
  obtain ⟨hwf, hrange⟩ := hd
  revert hrange
  induction hwf generalizing mask with
  | terminal neg => exact fun _ caches hc ↦ ⟨caches, rfl, hc, rfl⟩
  | xterm neg hid => exact absurd hid (Nat.not_lt_zero _)
  | @bdd neg level low high hk hl hh hne hm hwl hwh ihl ihh =>
    intro hrange caches hc
    obtain ⟨-, hrl, hrh⟩ := hrange.of_bdd
    obtain ⟨-, hal, hah⟩ := hap.of_bdd
    have hnode : cddNegCond (.bdd neg level low high) mask = .bdd (neg ^^ mask) level low high := rfl
    rw [relax, hnode]
    cases hlook : C.relaxLookup caches (.bdd (neg ^^ mask) level low high) R with
    | some res => exact ⟨caches, by rw [relaxLookup_spec hc hlook], hc, rfl⟩
    | none =>
      obtain ⟨caches₁, h₁, hc₁, hq₁⟩ := ihl hal (neg ^^ mask) hrl caches hc
      obtain ⟨caches₂, h₂, hc₂, hq₂⟩ := ihh hah (neg ^^ mask) hrh caches₁ hc₁
      have hlt : level < maxLevel := lt_of_lt_of_le hl hwl.level_le
      have hvar := proper_cddBddvar hk hlt
      have hpl : L.Proper (cddNegCond low (neg ^^ mask)) := ⟨hwl.negCond _, hrl.negCond _⟩
      have hph : L.Proper (cddNegCond high (neg ^^ mask)) := ⟨hwh.negCond _, hrh.negCond _⟩
      have hsame : cddIte L (cddBddvar level) (cddNegCond high (neg ^^ mask))
          (cddNegCond low (neg ^^ mask)) = .bdd (neg ^^ mask) level low high := by
        apply eq_of_eval_eq (hvar.ite hph hpl).wf (.bdd _ hk hl hh hne hm hwl hwh)
        intro a
        rw [eval_cddIte hvar.wf hph.wf hpl.wf, (cddBddvar_builds hk hlt).eval_eq, eval,
          eval_negCond, eval_negCond]
        cases a.bool level <;> simp [Bool.xor_comm]
      refine ⟨_, ?_, relaxStore_valid hc₂ (.bdd (neg ^^ mask) level low high) R, hq₂.trans hq₁⟩
      simp only [h₁, h₂, hsame, Option.bind_eq_bind, Option.bind_some, Option.pure_def]
  | @cdd neg level elem hk hl hp ha h2 hm hw ih =>
    intro hrange caches hc
    obtain ⟨-, hr, hrs⟩ := hrange.of_cdd
    obtain ⟨hlev, -, has⟩ := hap.of_cdd
    have hnode : cddNegCond (.cdd neg level elem) mask = .cdd (neg ^^ mask) level elem := rfl
    rw [relax, hnode]
    cases hlook : C.relaxLookup caches (.cdd (neg ^^ mask) level elem) R with
    | some res => exact ⟨caches, by rw [relaxLookup_spec hc hlook], hc, rfl⟩
    | none =>
      obtain ⟨i, j, hij⟩ := hk
      have hwf : L.WF (.cdd (neg ^^ mask) level elem) := .cdd _ ⟨i, j, hij⟩ hl hp ha h2 hm hw
      have hlt : level < maxLevel := hwf.level_lt rfl
      have hhead : ∀ e ∈ elem.head?, -INF < e.2 := fun e he ↦ hr e (List.mem_of_mem_head? he)
      obtain ⟨r, caches₁, h₁, hc₁, hq₁, hpr, heval⟩ := relaxElem_spec (C := C) (R := R)
        hij hlt hlev (interval_of_mem_pieces hp hhead fun _ ↦ h2)
        (fun e he ↦ ⟨hw e he, hrs e he⟩) (fun e he ↦ ih e he (has e he) (neg ^^ mask) (hrs e he))
        proper_cddfalse hc
      have hsame : r = .cdd (neg ^^ mask) level elem := by
        apply eq_of_eval_eq hpr.wf hwf
        intro a
        have hpieces := evalElem_pieces hp hhead hr a (a.diff level) (neg ^^ mask)
        rw [Bool.eq_iff_iff, heval, eval_cddfalse, ← hpieces, eval, Bool.xor_comm (evalElem _ _ _)]
        simp
      refine ⟨_, ?_, relaxStore_valid hc₁ (.cdd (neg ^^ mask) level elem) R, hq₁⟩
      simp only [hij, h₁, hsame, Option.bind_eq_bind, Option.bind_some, Option.pure_def]

/-! ### Quantifying -/

/-- The assignments agree at the levels that are not quantified. -/
def Library.AgreesAt (L : Library) (levels clocks : List ℕ) (a a' : Assignment) : Prop :=
  ∀ ℓ, ¬ L.Affected levels clocks ℓ → a'.bool ℓ = a.bool ℓ ∧ a'.diff ℓ = a.diff ℓ

/-- The meaning of existential quantification over independent values of the levels. -/
def Library.QuantifiedAt (L : Library) (levels clocks : List ℕ) (d : DdNode) (a : Assignment) :
    Prop :=
  ∃ a', L.AgreesAt levels clocks a a' ∧ eval a' d = true

/-- `r` is the projection of `d`, over the levels that are not quantified. -/
structure Projects (L : Library) (levels clocks : List ℕ) (d r : DdNode) : Prop where
  proper : L.Proper r
  holds_iff : ∀ v, Holds L v r ↔ L.Quantified levels clocks d v
  eval_iff : ∀ a, eval a r = true ↔ L.QuantifiedAt levels clocks d a
  levels : All (fun ℓ ↦ ¬ L.Affected levels clocks ℓ) (fun _ ↦ True) r

/-- The entries of the running operation are results of it. -/
structure ExistCall.Valid (C : ExistCall) (L : Library) (caches : ExistCaches) : Prop where
  relax : C.RelaxValid caches
  quant : ∀ s entry, caches.quantcache s = some entry → entry.c = C.opid →
    Projects L C.levels C.clocks entry.a entry.res

/-- The recursion meets its specification on the pointer `d`. -/
def ExistSpec (L : Library) (C : ExistCall) (rec : ExistRec) (d : DdNode) : Prop :=
  ∀ rc caches, C.Valid L caches → ∃ r caches', rec rc d caches = some (r, caches') ∧
    Projects L C.levels C.clocks d r ∧ C.Valid L caches'

theorem existLookup_spec {caches : ExistCaches} (h : C.Valid L caches) {node res : DdNode}
    (hl : C.existLookup caches node = some res) : Projects L C.levels C.clocks node res := by
  unfold ExistCall.existLookup at hl
  split at hl
  · next entry hentry =>
    split at hl
    · next hkey =>
      cases hl
      rw [← hkey.1]
      exact h.quant _ entry hentry hkey.2
    · cases hl
  · cases hl

theorem existStore_valid {caches : ExistCaches} (h : C.Valid L caches) {node res : DdNode}
    (hres : Projects L C.levels C.clocks node res) : C.Valid L (C.existStore caches node res) := by
  refine ⟨h.relax, ?_⟩
  intro s entry hs hop
  unfold ExistCall.existStore at hs
  simp only [Function.update_apply] at hs
  split at hs
  · cases hs
    exact hres
  · exact h.quant s entry hs hop

/-- A union of results that is made edge by edge. -/
private structure Joins (L : Library) (C : ExistCall) (res r : DdNode)
    (P : Valuation → Prop) (Q : Assignment → Prop) : Prop where
  proper : L.Proper r
  levels : All (fun ℓ ↦ ¬ L.Affected C.levels C.clocks ℓ) (fun _ ↦ True) r
  holds_iff : ∀ v, Holds L v r ↔ Holds L v res ∨ P v
  eval_iff : ∀ a, eval a r = true ↔ eval a res = true ∨ Q a

private theorem existRemoved_spec {rec : ExistRec} (rc : ℕ → Raw) {mask : Bool} {i j : ℕ}
    (low : Raw) {es : List (DdNode × Raw)} (hes : ∀ e ∈ es, L.Proper e.1)
    (hap : ∀ e ∈ es, L.Apart i j e.1)
    (hrec : ∀ e ∈ es, ExistSpec L C rec (cddNegCond e.1 mask)) {res : DdNode}
    (hres : L.Proper res) (hlev : All (fun ℓ ↦ ¬ L.Affected C.levels C.clocks ℓ) (fun _ ↦ True) res)
    {caches : ExistCaches} (hc : C.Valid L caches) :
    ∃ r caches', existRemoved L C rec rc mask i j low es res caches = some (r, caches') ∧
      C.Valid L caches' ∧ Joins L C res r
        (fun v ↦ ∃ p ∈ pieces low es, L.Quantified C.levels C.clocks (cddNegCond p.2.1 mask) v)
        fun a ↦ ∃ p ∈ pieces low es, L.QuantifiedAt C.levels C.clocks (cddNegCond p.2.1 mask) a := by
  induction es generalizing low res caches with
  | nil => exact ⟨res, caches, rfl, hc, hres, hlev, by simp [pieces], by simp [pieces]⟩
  | cons e es ih =>
    obtain ⟨child, bnd⟩ := e
    let rc' := Function.update (Function.update rc (j * L.clocknum + i) (bndL2u low))
      (i * L.clocknum + j) bnd
    obtain ⟨caches₁, h₁, hr₁, hq₁⟩ := relax_apart (C := C) (R := ⟨low, i, j, bnd, rc'⟩)
      (hes (child, bnd) (by simp)) (hap (child, bnd) (by simp)) mask caches hc.relax
    have hc₁ : C.Valid L caches₁ := ⟨hr₁, by rw [hq₁]; exact hc.quant⟩
    obtain ⟨tmp2, caches₂, h₂, hproj, hc₂⟩ := hrec (child, bnd) (by simp) rc' caches₁ hc₁
    obtain ⟨r, caches₃, h₃, hc₃, hj⟩ := ih bnd
      (fun e he ↦ hes e (List.mem_cons_of_mem _ he)) (fun e he ↦ hap e (List.mem_cons_of_mem _ he))
      (fun e he ↦ hrec e (List.mem_cons_of_mem _ he)) (hres.or hproj.proper)
      (inherits_cddOr hres.wf hproj.proper.wf _ _ trivial hlev hproj.levels) hc₂
    refine ⟨r, caches₃, ?_, hc₃, hj.proper, hj.levels, ?_, ?_⟩
    · have h₁' : relax L C ⟨low, i, j, bnd, rc'⟩ mask child caches =
          some (cddNegCond child mask, caches₁) := h₁
      simp only [existRemoved, Option.bind_eq_bind]
      rw [h₁', Option.bind_some, h₂, Option.bind_some, h₃]
    · intro v
      rw [hj.holds_iff, holds_cddOr hres.wf hproj.proper.wf, hproj.holds_iff]
      simp only [pieces, List.mem_cons, exists_eq_or_imp, or_assoc]
    · intro a
      rw [hj.eval_iff, eval_cddOr hres.wf hproj.proper.wf, Bool.or_eq_true, hproj.eval_iff]
      simp only [pieces, List.mem_cons, exists_eq_or_imp, or_assoc]

private theorem existKept_spec {rec : ExistRec} (rc : ℕ → Raw) {mask : Bool} {level i j : ℕ}
    (hk : L.levelinfo[level]? = some (.cdd i j)) (hlt : level < maxLevel)
    (hkept : ¬ L.Affected C.levels C.clocks level) {low : Raw} {es : List (DdNode × Raw)}
    (hint : ∀ p ∈ pieces low es, Interval p.1 p.2.2)
    (hrec : ∀ e ∈ es, ExistSpec L C rec (cddNegCond e.1 mask)) {res : DdNode}
    (hres : L.Proper res) (hlev : All (fun ℓ ↦ ¬ L.Affected C.levels C.clocks ℓ) (fun _ ↦ True) res)
    {caches : ExistCaches} (hc : C.Valid L caches) :
    ∃ r caches', existKept L rec rc mask level low es res caches = some (r, caches') ∧
      C.Valid L caches' ∧ Joins L C res r
        (fun v ↦ ∃ p ∈ pieces low es,
          (¬ Below (v.clock i - v.clock j) p.1 ∧ Below (v.clock i - v.clock j) p.2.2) ∧
          L.Quantified C.levels C.clocks (cddNegCond p.2.1 mask) v)
        fun a ↦ ∃ p ∈ pieces low es, inPiece (a.diff level) p.1 p.2.2 = true ∧
          L.QuantifiedAt C.levels C.clocks (cddNegCond p.2.1 mask) a := by
  induction es generalizing low res caches with
  | nil => exact ⟨res, caches, rfl, hc, hres, hlev, by simp [pieces], by simp [pieces]⟩
  | cons e es ih =>
    obtain ⟨child, bnd⟩ := e
    have hi := hint (low, child, bnd) (by simp [pieces])
    have hspec := cddIntervalFromLevel_spec ⟨i, j, hk⟩ hlt hi
    obtain ⟨tmp2, caches₂, h₂, hproj, hc₂⟩ := hrec (child, bnd) (by simp) rc caches hc
    have hand := hspec.1.and hproj.proper
    have hlevand := inherits_cddAnd hspec.1.wf hproj.proper.wf _ _ trivial
      (all_cddIntervalFromLevel hkept (fun _ ↦ trivial) low bnd) hproj.levels
    have hint' : ∀ p ∈ pieces bnd es, Interval p.1 p.2.2 :=
      fun p hp ↦ hint p (List.mem_cons_of_mem _ hp)
    obtain ⟨r, caches₃, h₃, hc₃, hj⟩ := ih hint' (fun e he ↦ hrec e (List.mem_cons_of_mem _ he)) (hres.or hand)
      (inherits_cddOr hres.wf hand.wf _ _ trivial hlev hlevand) hc₂
    refine ⟨r, caches₃, ?_, hc₃, hj.proper, hj.levels, ?_, ?_⟩
    · simp only [existKept, Option.bind_eq_bind]
      rw [h₂, Option.bind_some, h₃]
    · intro v
      rw [hj.holds_iff, holds_cddOr hres.wf hand.wf, holds_cddAnd hspec.1.wf hproj.proper.wf,
        holds_cddIntervalFromLevel hk hlt hi, hproj.holds_iff]
      simp only [pieces, List.mem_cons, exists_eq_or_imp, or_assoc]
    · intro a
      rw [hj.eval_iff, eval_cddOr hres.wf hand.wf, Bool.or_eq_true,
        (cddAnd_builds hspec.1.wf hproj.proper.wf).eval_eq, Bool.and_eq_true, hspec.2,
        hproj.eval_iff]
      simp only [pieces, List.mem_cons, exists_eq_or_imp, or_assoc]

/-- Where the interval of a removed level is not empty, one of its clocks can be moved into it
without a change to a diagram apart from them. -/
theorem exists_agrees_in_interval {i j : ℕ} (hij : i ≠ j) (hmem : i ∈ clocks ∨ j ∈ clocks)
    {low high : Raw} (hlt : low < high) {d : DdNode} (hap : L.Apart i j d) {v v' : Valuation}
    (hv : v.Agrees levels clocks v') (hd : Holds L v' d) :
    ∃ v'', v.Agrees levels clocks v'' ∧ (¬ Below (v''.clock i - v''.clock j) low ∧
      Below (v''.clock i - v''.clock j) high) ∧ Holds L v'' d := by
  obtain ⟨t, ht⟩ := exists_between_cuts hlt
  rcases hmem with hi | hj
  · refine ⟨v'.setClock i (v'.clock j + t), ⟨?_, hv.bool⟩, ?_, ?_⟩
    · intro c hc
      have hci : c ≠ i := fun h ↦ hc (h ▸ hi)
      exact (Function.update_of_ne hci _ _).trans (hv.clock c hc)
    · simp only [Valuation.setClock_clock, Function.update_self, Function.update_of_ne hij.symm,
        add_sub_cancel_left]
      exact ht
    · have hsame : Holds L (v'.setClock i (v'.clock j + t)) d ↔ Holds L v' d :=
        holds_congr_apart hap _ _ (fun c hci _ ↦ Function.update_of_ne hci _ _) rfl
      exact hsame.mpr hd
  · refine ⟨v'.setClock j (v'.clock i - t), ⟨?_, hv.bool⟩, ?_, ?_⟩
    · intro c hc
      have hcj : c ≠ j := fun h ↦ hc (h ▸ hj)
      exact (Function.update_of_ne hcj _ _).trans (hv.clock c hc)
    · simp only [Valuation.setClock_clock, Function.update_self, Function.update_of_ne hij,
        sub_sub_cancel]
      exact ht
    · have hsame : Holds L (v'.setClock j (v'.clock i - t)) d ↔ Holds L v' d :=
        holds_congr_apart hap _ _ (fun c _ hcj ↦ Function.update_of_ne hcj _ _) rfl
      exact hsame.mpr hd

private theorem existNode_bdd {rec : ExistRec} {neg : Bool} {level : ℕ} {low high : DdNode}
    (hd : L.Proper (.bdd neg level low high))
    (hl : ExistSpec L C rec (cddNegCond low neg)) (hh : ExistSpec L C rec (cddNegCond high neg)) :
    ExistSpec L C (fun rc ↦ existNode L C rec rc) (.bdd neg level low high) := by
  intro rc caches hc
  obtain ⟨tmp1, caches₁, h₁, hp₁, hc₁⟩ := hl rc caches hc
  obtain ⟨tmp2, caches₂, h₂, hp₂, hc₂⟩ := hh rc caches₁ hc₁
  have hlt : level < maxLevel := hd.wf.level_lt rfl
  obtain ⟨hk, hll, hlh, hwl, hwh⟩ : L.levelinfo[level]? = some .bdd ∧ level < low.level ∧
      level < high.level ∧ L.WF low ∧ L.WF high := by
    cases hd.wf with
    | bdd _ hk hl hh _ _ hwl hwh => exact ⟨hk, hl, hh, hwl, hwh⟩
  have hnodeAt (a : Assignment) : eval a (.bdd neg level low high) =
      bif a.bool level then eval a (cddNegCond high neg) else eval a (cddNegCond low neg) := by
    rw [eval, eval_negCond, eval_negCond]
    cases a.bool level <;> simp [Bool.xor_comm]
  have hnode (v : Valuation) : Holds L v (.bdd neg level low high) ↔
      if v.bool level = true then Holds L v (cddNegCond high neg)
      else Holds L v (cddNegCond low neg) := by
    unfold Holds
    rw [hnodeAt]
    show (bif v.bool level then _ else _) = true ↔ _
    cases v.bool level <;> simp
  have hstep : existNode L C rec rc (.bdd neg level low high) caches =
      some (if level ∈ C.levels then cddOr L tmp1 tmp2
        else cddIte L (cddBddvar level) tmp2 tmp1, caches₂) := by
    simp only [existNode, h₁, h₂, Option.bind_eq_bind, Option.bind_some, Option.pure_def]
  refine ⟨_, caches₂, hstep, ?_, hc₂⟩
  by_cases hmem : level ∈ C.levels
  · rw [if_pos hmem]
    have hagree {a a' : Assignment} (ha : L.AgreesAt C.levels C.clocks a a') (b : Bool) :
        L.AgreesAt C.levels C.clocks a (a'.setBool level b) := by
      intro ℓ hℓ
      have hne : ℓ ≠ level := by
        rintro rfl
        exact hℓ (Or.inr ⟨hk, hmem⟩)
      exact ⟨(Function.update_of_ne hne _ _).trans (ha ℓ hℓ).1, (ha ℓ hℓ).2⟩
    refine ⟨hp₁.proper.or hp₂.proper, ?_, ?_, ?_⟩
    · intro v
      rw [holds_cddOr hp₁.proper.wf hp₂.proper.wf, hp₁.holds_iff, hp₂.holds_iff]
      constructor
      · -- set the quantified Boolean to the branch that holds
        rintro (⟨v', hv', hd'⟩ | ⟨v', hv', hd'⟩)
        · refine ⟨v'.setBool level false, ⟨hv'.clock, ?_⟩, ?_⟩
          · intro ℓ hℓ
            have hne : ℓ ≠ level := fun h ↦ hℓ (h ▸ hmem)
            exact (Function.update_of_ne hne _ _).trans (hv'.bool ℓ hℓ)
          · rw [hnode]
            simp only [Valuation.setBool_bool, Function.update_self, Bool.false_eq_true,
              ↓reduceIte]
            exact (holds_setBool (hwl.negCond neg) (by simpa using hll) v' false).mpr hd'
        · refine ⟨v'.setBool level true, ⟨hv'.clock, ?_⟩, ?_⟩
          · intro ℓ hℓ
            have hne : ℓ ≠ level := fun h ↦ hℓ (h ▸ hmem)
            exact (Function.update_of_ne hne _ _).trans (hv'.bool ℓ hℓ)
          · rw [hnode]
            simp only [Valuation.setBool_bool, Function.update_self, ↓reduceIte]
            exact (holds_setBool (hwh.negCond neg) (by simpa using hlh) v' true).mpr hd'
      · rintro ⟨v', hv', hd'⟩
        rw [hnode] at hd'
        split at hd'
        · exact Or.inr ⟨v', hv', hd'⟩
        · exact Or.inl ⟨v', hv', hd'⟩
    · intro a
      rw [eval_cddOr hp₁.proper.wf hp₂.proper.wf, Bool.or_eq_true, hp₁.eval_iff, hp₂.eval_iff]
      constructor
      · rintro (⟨a', ha', hd'⟩ | ⟨a', ha', hd'⟩)
        · refine ⟨_, hagree ha' false, ?_⟩
          rw [hnodeAt, Assignment.setBool_bool, cond_false,
            eval_setBool (hwl.negCond neg) (by simpa using hll)]
          exact hd'
        · refine ⟨_, hagree ha' true, ?_⟩
          rw [hnodeAt, Assignment.setBool_bool, cond_true,
            eval_setBool (hwh.negCond neg) (by simpa using hlh)]
          exact hd'
      · rintro ⟨a', ha', hd'⟩
        rw [hnodeAt] at hd'
        cases hb : a'.bool level with
        | false =>
          rw [hb, cond_false] at hd'
          exact Or.inl ⟨a', ha', hd'⟩
        | true =>
          rw [hb, cond_true] at hd'
          exact Or.inr ⟨a', ha', hd'⟩
    · exact inherits_cddOr hp₁.proper.wf hp₂.proper.wf _ _ trivial hp₁.levels hp₂.levels
  · rw [if_neg hmem]
    have hvar := proper_cddBddvar hk hlt
    have hkept : ¬ L.Affected C.levels C.clocks level := by
      rintro (⟨i, j, hij, -⟩ | ⟨-, hm⟩)
      · rw [hk] at hij
        cases hij
      · exact hmem hm
    refine ⟨hvar.ite hp₂.proper hp₁.proper, ?_, ?_, ?_⟩
    · intro v
      have hite : Holds L v (cddIte L (cddBddvar level) tmp2 tmp1) ↔
          if v.bool level = true then Holds L v tmp2 else Holds L v tmp1 := by
        unfold Holds
        rw [eval_cddIte hvar.wf hp₂.proper.wf hp₁.proper.wf, (cddBddvar_builds hk hlt).eval_eq]
        show (bif v.bool level then _ else _) = true ↔ _
        cases v.bool level <;> simp
      rw [hite, hp₁.holds_iff, hp₂.holds_iff]
      constructor
      · intro h
        split at h
        · next hb =>
          obtain ⟨v', hv', hd'⟩ := h
          exact ⟨v', hv', by rw [hnode, if_pos ((hv'.bool level hmem).trans hb)]; exact hd'⟩
        · next hb =>
          obtain ⟨v', hv', hd'⟩ := h
          exact ⟨v', hv', by rw [hnode, if_neg ((hv'.bool level hmem).symm ▸ hb)]; exact hd'⟩
      · rintro ⟨v', hv', hd'⟩
        rw [hnode, hv'.bool level hmem] at hd'
        split
        · next hb =>
          rw [if_pos hb] at hd'
          exact ⟨v', hv', hd'⟩
        · next hb =>
          rw [if_neg hb] at hd'
          exact ⟨v', hv', hd'⟩
    · intro a
      rw [eval_cddIte hvar.wf hp₂.proper.wf hp₁.proper.wf, (cddBddvar_builds hk hlt).eval_eq]
      have hsame {a' : Assignment} (ha' : L.AgreesAt C.levels C.clocks a a') :
          a'.bool level = a.bool level := (ha' level hkept).1
      cases hb : a.bool level with
      | false =>
        rw [cond_false, hp₁.eval_iff]
        constructor
        · rintro ⟨a', ha', hd'⟩
          exact ⟨a', ha', by rw [hnodeAt, (hsame ha').trans hb, cond_false]; exact hd'⟩
        · rintro ⟨a', ha', hd'⟩
          rw [hnodeAt, (hsame ha').trans hb, cond_false] at hd'
          exact ⟨a', ha', hd'⟩
      | true =>
        rw [cond_true, hp₂.eval_iff]
        constructor
        · rintro ⟨a', ha', hd'⟩
          exact ⟨a', ha', by rw [hnodeAt, (hsame ha').trans hb, cond_true]; exact hd'⟩
        · rintro ⟨a', ha', hd'⟩
          rw [hnodeAt, (hsame ha').trans hb, cond_true] at hd'
          exact ⟨a', ha', hd'⟩
    · have hlv : All (fun ℓ ↦ ¬ L.Affected C.levels C.clocks ℓ) (fun _ ↦ True)
          (cddBddvar level) := all_cddMakeBddNode hkept (.terminal _) (.terminal _)
      have h₁ := inherits_cddAnd hvar.wf hp₂.proper.wf _ _ trivial hlv hp₂.levels
      have h₂ := inherits_cddAnd hvar.neg.wf hp₁.proper.wf _ _ trivial (hlv.negCond _) hp₁.levels
      exact inherits_cddOr (hvar.and hp₂.proper).wf (hvar.neg.and hp₁.proper).wf _ _ trivial h₁ h₂

private theorem existNode_cdd (hL : L.Declared) {rec : ExistRec} {neg : Bool} {level : ℕ}
    {elem : List (DdNode × Raw)} (hd : L.Proper (.cdd neg level elem))
    (hu : L.Untangled C.clocks (.cdd neg level elem))
    (hrec : ∀ e ∈ elem, ExistSpec L C rec (cddNegCond e.1 neg)) :
    ExistSpec L C (fun rc ↦ existNode L C rec rc) (.cdd neg level elem) := by
  intro rc caches hc
  have hlt : level < maxLevel := hd.wf.level_lt rfl
  obtain ⟨-, hr, hrs⟩ := hd.inRange.of_cdd
  obtain ⟨⟨i, j, hk⟩, hlev, hp, h2, hw⟩ : L.isCdd level ∧ (∀ e ∈ elem, level < e.1.level) ∧
      Partition INF elem ∧ 2 ≤ elem.length ∧ ∀ e ∈ elem, L.WF e.1 := by
    cases hd.wf with
    | cdd _ hk hl hp _ h2 _ hw => exact ⟨hk, hl, hp, h2, hw⟩
  have hhead : ∀ e ∈ elem.head?, -INF < e.2 := fun e he ↦ hr e (List.mem_of_mem_head? he)
  have hint := interval_of_mem_pieces hp hhead fun _ ↦ h2
  have hpieces (a : Assignment) : eval a (.cdd neg level elem) = true ↔
      ∃ p ∈ pieces (-INF) elem, inPiece (a.diff level) p.1 p.2.2 = true ∧
        eval a (cddNegCond p.2.1 neg) = true := by
    have h := evalElem_pieces hp hhead hr a (a.diff level) neg
    simp only [true_or, true_and] at h
    rw [eval, Bool.xor_comm]
    exact h
  obtain ⟨⟨hji, hi⟩, -⟩ := hL.covers.pair_of_level level i j hk
  have hfalse : All (fun ℓ ↦ ¬ L.Affected C.levels C.clocks ℓ) (fun _ ↦ True) cddfalse :=
    .terminal _
  by_cases hmem : i ∈ C.clocks ∨ j ∈ C.clocks
  · have hap : ∀ e ∈ elem, L.Apart i j e.1 := by
      cases hu with
      | cdd _ _ _ ha => exact ha i j hk hmem
    obtain ⟨r, caches', h, hc', hj⟩ := existRemoved_spec rc (-INF)
      (fun e he ↦ ⟨hw e he, hrs e he⟩) hap hrec proper_cddfalse hfalse hc
    refine ⟨r, caches', ?_, ⟨hj.proper, ?_, ?_, hj.levels⟩, hc'⟩
    · simp only [existNode, hk, if_pos hmem, h]
    · intro v
      rw [hj.holds_iff, or_iff_right not_holds_cddfalse]
      constructor
      · rintro ⟨p, hpm, v', hv', hd'⟩
        have hmemp := mem_of_mem_pieces hpm
        obtain ⟨v'', hv'', hin, hd''⟩ := exists_agrees_in_interval (by omega) hmem
          (hint p hpm).lt ((hap _ hmemp).negCond neg) hv' hd'
        exact ⟨v'', hv'', (holds_pieces hd hk).mpr ⟨p, hpm, hin, hd''⟩⟩
      · rintro ⟨v', hv', hd'⟩
        obtain ⟨p, hpm, -, hd''⟩ := (holds_pieces hd hk).mp hd'
        exact ⟨p, hpm, v', hv', hd''⟩
    · intro a
      rw [hj.eval_iff, eval_cddfalse, or_iff_right Bool.false_ne_true]
      constructor
      · -- move the quantified level into the interval of the edge
        rintro ⟨p, hpm, a', ha', hd'⟩
        obtain ⟨t, ht⟩ := exists_between_cuts (hint p hpm).lt
        refine ⟨a'.setDiff level (realCut t), ?_, ?_⟩
        · intro ℓ hℓ
          have hne : ℓ ≠ level := by
            rintro rfl
            exact hℓ (Or.inl ⟨i, j, hk, hmem⟩)
          exact ⟨(ha' ℓ hℓ).1, (Function.update_of_ne hne _ _).trans (ha' ℓ hℓ).2⟩
        · apply (hpieces _).mpr
          refine ⟨p, hpm, ?_, ?_⟩
          · rw [Assignment.setDiff_diff]
            exact inPiece_realCut.mpr ht
          · have hmemp := mem_of_mem_pieces hpm
            have hchild : L.WF p.2.1 := hw _ hmemp
            rw [eval_setDiff (hchild.negCond neg) (by simpa using hlev _ hmemp)]
            exact hd'
      · rintro ⟨a', ha', hd'⟩
        obtain ⟨p, hpm, -, hd''⟩ := (hpieces a').mp hd'
        exact ⟨p, hpm, a', ha', hd''⟩
  · have hkept : ¬ L.Affected C.levels C.clocks level := by
      rintro (⟨i', j', hij', hm⟩ | ⟨hb, -⟩)
      · rw [hk] at hij'
        cases hij'
        exact hmem hm
      · rw [hk] at hb
        cases hb
    obtain ⟨r, caches', h, hc', hj⟩ := existKept_spec rc hk hlt hkept hint hrec
      proper_cddfalse hfalse hc
    refine ⟨r, caches', ?_, ⟨hj.proper, ?_, ?_, hj.levels⟩, hc'⟩
    · simp only [existNode, hk, if_neg hmem, h]
    · intro v
      rw [hj.holds_iff, or_iff_right not_holds_cddfalse]
      simp only [not_or] at hmem
      have hsame {v' : Valuation} (hv' : v.Agrees C.levels C.clocks v') :
          v'.clock i - v'.clock j = v.clock i - v.clock j := by
        rw [hv'.clock i hmem.1, hv'.clock j hmem.2]
      constructor
      · rintro ⟨p, hpm, hin, v', hv', hd'⟩
        refine ⟨v', hv', (holds_pieces hd hk).mpr ⟨p, hpm, ?_, hd'⟩⟩
        rw [hsame hv']
        exact hin
      · rintro ⟨v', hv', hd'⟩
        obtain ⟨p, hpm, hin, hd''⟩ := (holds_pieces hd hk).mp hd'
        rw [hsame hv'] at hin
        exact ⟨p, hpm, hin, v', hv', hd''⟩
    · intro a
      rw [hj.eval_iff, eval_cddfalse, or_iff_right Bool.false_ne_true]
      constructor
      · rintro ⟨p, hpm, hin, a', ha', hd'⟩
        refine ⟨a', ha', (hpieces a').mpr ⟨p, hpm, ?_, hd'⟩⟩
        rw [(ha' level hkept).2]
        exact hin
      · rintro ⟨a', ha', hd'⟩
        obtain ⟨p, hpm, hin, hd''⟩ := (hpieces a').mp hd'
        rw [(ha' level hkept).2] at hin
        exact ⟨p, hpm, hin, a', ha', hd''⟩

/-- The recursion computes the projection of an untangled diagram. -/
theorem cddExistRec_spec (hL : L.Declared) {d : DdNode} (hd : L.Proper d)
    (hu : L.Untangled C.clocks d) {fuel : ℕ} (hfuel : d.height < fuel) :
    ExistSpec L C (cddExistRec L C fuel) d := by
  induction fuel generalizing d with
  | zero => exact absurd hfuel (Nat.not_lt_zero _)
  | succ fuel ih =>
    intro rc caches hc
    rw [cddExistRec]
    cases hterm : cddIsterminal d with
    | true =>
      refine ⟨d, caches, rfl, ⟨hd, ?_, ?_, ?_⟩, hc⟩
      · intro v
        rcases hd.wf.eq_terminal hterm with rfl | rfl
        · simp only [holds_cddtrue, true_iff]
          exact ⟨v, .refl _ _ v, holds_cddtrue⟩
        · simp only [not_holds_cddfalse, false_iff]
          rintro ⟨v', -, h⟩
          exact not_holds_cddfalse h
      · intro a
        have hconst (a' : Assignment) : eval a' d = eval a d := by
          rcases hd.wf.eq_terminal hterm with rfl | rfl <;> simp
        constructor
        · intro h
          exact ⟨a, fun _ _ ↦ ⟨rfl, rfl⟩, h⟩
        · rintro ⟨a', -, h⟩
          rw [← hconst a']
          exact h
      · rcases hd.wf.eq_terminal hterm with rfl | rfl <;> exact .terminal _
    | false =>
      simp only [Bool.false_eq_true, ↓reduceIte]
      cases hlook : C.existLookup caches d with
      | some res => exact ⟨res, caches, rfl, existLookup_spec hc hlook, hc⟩
      | none =>
        have hnode : ExistSpec L C (fun rc ↦ existNode L C (cddExistRec L C fuel) rc) d := by
          cases d with
          | terminal | xterm => cases hterm
          | bdd neg level low high =>
            obtain ⟨-, hrl, hrh⟩ := hd.inRange.of_bdd
            obtain ⟨hwl, hwh⟩ : L.WF low ∧ L.WF high := by
              cases hd.wf with
              | bdd _ _ _ _ _ _ hwl hwh => exact ⟨hwl, hwh⟩
            obtain ⟨hul, huh⟩ : L.Untangled C.clocks low ∧ L.Untangled C.clocks high := by
              cases hu with
              | bdd _ _ hl hh => exact ⟨hl, hh⟩
            simp only [height] at hfuel
            apply existNode_bdd hd
            · exact ih ⟨hwl.negCond _, hrl.negCond _⟩ (hul.negCond _) (by rw [height_negCond]; omega)
            · exact ih ⟨hwh.negCond _, hrh.negCond _⟩ (huh.negCond _) (by rw [height_negCond]; omega)
          | cdd neg level elem =>
            obtain ⟨-, -, hrs⟩ := hd.inRange.of_cdd
            have hw : ∀ e ∈ elem, L.WF e.1 := by
              cases hd.wf with
              | cdd _ _ _ _ _ _ _ hw => exact hw
            have hus : ∀ e ∈ elem, L.Untangled C.clocks e.1 := by
              cases hu with
              | cdd _ _ hs _ => exact hs
            apply existNode_cdd hL hd hu
            intro e he
            have hlt : e.1.height < (DdNode.cdd neg level elem).height := height_lt_of_mem e he
            exact ih ⟨(hw e he).negCond _, (hrs e he).negCond _⟩ ((hus e he).negCond _)
              (by rw [height_negCond]; omega)
        obtain ⟨r, caches', h, hproj, hc'⟩ := hnode rc caches hc
        exact ⟨r, C.existStore caches' d r, by simp [h], hproj, existStore_valid hc' hproj⟩

theorem call_valid (E : OpCaches) (levels clocks : List ℕ) :
    (E.call levels clocks).Valid L E.toExistCaches := by
  constructor
  · intro s entry hs hop
    have := E.relax_op s entry hs
    have hop' : entry.op = E.opid + 1 := hop
    omega
  · intro s entry hs hop
    have := E.quant_op s entry hs
    have hop' : entry.c = E.opid + 1 := hop
    omega

/-! ### Fuel -/

/-- Whatever the first function returns the second one returns. -/
def ExistRec.Le (rec rec' : ExistRec) : Prop :=
  ∀ rc d caches x, rec rc d caches = some x → rec' rc d caches = some x

private theorem existRemoved_mono {rec rec' : ExistRec} (h : rec.Le rec') {rc : ℕ → Raw}
    {mask : Bool} {i j : ℕ} {low : Raw} {es : List (DdNode × Raw)} {res : DdNode}
    {caches : ExistCaches} {x : DdNode × ExistCaches}
    (hx : existRemoved L C rec rc mask i j low es res caches = some x) :
    existRemoved L C rec' rc mask i j low es res caches = some x := by
  induction es generalizing low res caches with
  | nil => exact hx
  | cons e es ih =>
    simp only [existRemoved, Option.bind_eq_bind, Option.bind_eq_some_iff] at hx ⊢
    obtain ⟨y, hy, z, hz, hx⟩ := hx
    exact ⟨y, hy, z, h _ _ _ _ hz, ih hx⟩

private theorem existKept_mono {rec rec' : ExistRec} (h : rec.Le rec') {rc : ℕ → Raw}
    {mask : Bool} {level : ℕ} {low : Raw} {es : List (DdNode × Raw)} {res : DdNode}
    {caches : ExistCaches} {x : DdNode × ExistCaches}
    (hx : existKept L rec rc mask level low es res caches = some x) :
    existKept L rec' rc mask level low es res caches = some x := by
  induction es generalizing low res caches with
  | nil => exact hx
  | cons e es ih =>
    simp only [existKept, Option.bind_eq_bind, Option.bind_eq_some_iff] at hx ⊢
    obtain ⟨y, hy, hx⟩ := hx
    exact ⟨y, h _ _ _ _ hy, ih hx⟩

private theorem existNode_mono {rec rec' : ExistRec} (h : rec.Le rec') {rc : ℕ → Raw}
    {d : DdNode} {caches : ExistCaches} {x : DdNode × ExistCaches}
    (hx : existNode L C rec rc d caches = some x) : existNode L C rec' rc d caches = some x := by
  cases d with
  | terminal | xterm => exact hx
  | bdd neg level low high =>
    simp only [existNode, Option.bind_eq_bind, Option.bind_eq_some_iff] at hx ⊢
    obtain ⟨y, hy, z, hz, hx⟩ := hx
    exact ⟨y, h _ _ _ _ hy, z, h _ _ _ _ hz, hx⟩
  | cdd neg level elem =>
    unfold existNode at hx ⊢
    cases hk : L.levelinfo[level]? with
    | none => simp [hk] at hx
    | some info =>
      cases info with
      | bdd => simp [hk] at hx
      | cdd i j =>
        simp only [hk] at hx ⊢
        split at hx
        · next hmem =>
          rw [if_pos hmem]
          exact existRemoved_mono h hx
        · next hmem =>
          rw [if_neg hmem]
          exact existKept_mono h hx

/-- More fuel gives the same result. -/
theorem cddExistRec_mono {fuel fuel' : ℕ} (h : fuel ≤ fuel') :
    (cddExistRec L C fuel).Le (cddExistRec L C fuel') := by
  induction fuel generalizing fuel' with
  | zero =>
    intro rc d caches x hx
    cases hx
  | succ fuel ih =>
    obtain ⟨fuel', rfl⟩ := Nat.exists_eq_add_of_le' h
    intro rc d caches x hx
    rw [Nat.add_succ, cddExistRec] at *
    split at hx
    · next hterm =>
      rw [if_pos hterm]
      exact hx
    · next hterm =>
      rw [if_neg hterm]
      cases hlook : C.existLookup caches d with
      | some res => simpa [hlook] using hx
      | none =>
        simp only [hlook, Option.bind_eq_bind, Option.bind_eq_some_iff] at hx ⊢
        obtain ⟨y, hy, hx⟩ := hx
        exact ⟨y, existNode_mono (ih (by omega)) hy, hx⟩

theorem cddExist_mono {E : OpCaches} {fuel fuel' : ℕ} (h : fuel ≤ fuel') {d r : DdNode}
    {levels clocks : List ℕ} (hr : cddExist L E fuel d levels clocks = some r) :
    cddExist L E fuel' d levels clocks = some r := by
  obtain ⟨x, hx, rfl⟩ := Option.map_eq_some_iff.mp hr
  exact Option.map_eq_some_iff.mpr ⟨x, cddExistRec_mono h _ _ _ _ hx, rfl⟩

/-- `cdd_exist` on an untangled diagram. -/
theorem cddExist_spec (hL : L.Declared) (E : OpCaches) {d : DdNode} (hd : L.Proper d)
    (levels : List ℕ) {clocks : List ℕ} (hu : L.Untangled clocks d) :
    ∃ r, Projects L levels clocks d r ∧ ∀ fuel, d.height < fuel →
      cddExist L E fuel d levels clocks = some r := by
  obtain ⟨r, caches', h, hproj, -⟩ := cddExistRec_spec (C := E.call levels clocks) hL hd hu
    (Nat.lt_succ_self _) (fun _ ↦ INF) E.toExistCaches (call_valid E levels clocks)
  refine ⟨r, hproj, ?_⟩
  intro fuel hfuel
  apply cddExist_mono hfuel
  exact Option.map_eq_some_iff.mpr ⟨_, h, rfl⟩

/-- The call returns `r`. -/
def ExistReturns (L : Library) (E : OpCaches) (d : DdNode) (levels clocks : List ℕ)
    (r : DdNode) : Prop :=
  ∃ fuel, cddExist L E fuel d levels clocks = some r

/-- A call returns one result. -/
theorem ExistReturns.unique {E : OpCaches} {d r r' : DdNode} {levels clocks : List ℕ}
    (h : ExistReturns L E d levels clocks r) (h' : ExistReturns L E d levels clocks r') :
    r = r' := by
  obtain ⟨n, hn⟩ := h
  obtain ⟨m, hm⟩ := h'
  have h1 := cddExist_mono (le_max_left n m) hn
  have h2 := cddExist_mono (le_max_right n m) hm
  rw [h1] at h2
  exact Option.some.inj h2

theorem Projects.quantified_iff {d r r' : DdNode} (h : Projects L levels clocks d r)
    {levels' clocks' : List ℕ} (h' : Projects L levels' clocks' r r') (v : Valuation) :
    Holds L v r' ↔ ∃ u w, v.Agrees levels' clocks' u ∧ u.Agrees levels clocks w ∧ Holds L w d := by
  rw [h'.holds_iff]
  constructor
  · rintro ⟨u, hu, hr⟩
    obtain ⟨w, hw, hd⟩ := (h.holds_iff u).mp hr
    exact ⟨u, w, hu, hw, hd⟩
  · rintro ⟨u, w, hu, hw, hd⟩
    exact ⟨u, hu, (h.holds_iff u).mpr ⟨w, hw, hd⟩⟩

/-- Two valuations that agree outside both lists have one between them, in either order. -/
theorem agrees_iff_levels_clocks {v w : Valuation} :
    v.Agrees levels clocks w ↔ ∃ u, v.Agrees levels [] u ∧ u.Agrees [] clocks w := by
  constructor
  · intro h
    exact ⟨⟨v.clock, w.bool⟩, ⟨fun _ _ ↦ rfl, h.bool⟩, ⟨h.clock, fun _ _ ↦ rfl⟩⟩
  · rintro ⟨u, hu, hw⟩
    constructor
    · intro c hc
      exact (hw.clock c hc).trans (hu.clock c List.not_mem_nil)
    · intro ℓ hℓ
      exact (hw.bool ℓ List.not_mem_nil).trans (hu.bool ℓ hℓ)

theorem agrees_iff_clocks_levels {v w : Valuation} :
    v.Agrees levels clocks w ↔ ∃ u, v.Agrees [] clocks u ∧ u.Agrees levels [] w := by
  constructor
  · intro h
    exact ⟨⟨w.clock, v.bool⟩, ⟨h.clock, fun _ _ ↦ rfl⟩, ⟨fun _ _ ↦ rfl, h.bool⟩⟩
  · rintro ⟨u, hu, hw⟩
    constructor
    · intro c hc
      exact (hw.clock c List.not_mem_nil).trans (hu.clock c hc)
    · intro ℓ hℓ
      exact (hw.bool ℓ hℓ).trans (hu.bool ℓ List.not_mem_nil)

end

/-- Caches after `cdd_init`. -/
def emptyCaches : OpCaches :=
  ⟨⟨fun _ ↦ none, fun _ ↦ none⟩, 0, fun _ _ _ _ _ ↦ 0, fun _ ↦ 0, nofun, nofun⟩

/-- The conjunction of `x1 - x0 ≥ 2` and the Boolean of level 1. -/
def sampleGuard : DdNode := .cdd false 0 [(cddfalse, 4), (.bdd false 1 cddfalse cddtrue, INF)]

theorem inRange_sampleGuard : InRange sampleGuard := by
  apply All.cdd _ trivial
  · decide
  · simp only [List.mem_cons, List.not_mem_nil, or_false, forall_eq_or_imp, forall_eq]
    exact ⟨.terminal _, .bdd _ trivial (.terminal _) (.terminal _)⟩

theorem untangled_sampleGuard : sampleLibrary.Untangled [1] sampleGuard := by
  have hbdd : ¬ sampleLibrary.Shares 1 0 1 := by
    rintro ⟨i, j, hij, -⟩
    cases hij
  apply Library.Untangled.cdd
  · simp only [List.mem_cons, List.not_mem_nil, or_false, forall_eq_or_imp, forall_eq]
    exact ⟨.terminal _, .bdd _ _ (.terminal _) (.terminal _)⟩
  · intro i j hij _
    cases hij
    simp only [List.mem_cons, List.not_mem_nil, or_false, forall_eq_or_imp, forall_eq]
    exact ⟨.terminal _, .bdd _ hbdd (.terminal _) (.terminal _)⟩

/-- The conjunction of `x1 - x0 ≤ 1` and `x2 - x0 ≥ 2`. -/
def sharedClock : DdNode :=
  .cdd false 0 [(.cdd false 1 [(cddfalse, 4), (cddtrue, INF)], 3), (cddfalse, INF)]

theorem inRange_sharedClock : InRange sharedClock := by
  apply All.cdd _ trivial
  · decide
  · simp only [List.mem_cons, List.not_mem_nil, or_false, forall_eq_or_imp, forall_eq]
    refine ⟨.cdd _ trivial (by decide) ?_, .terminal _⟩
    simp only [List.mem_cons, List.not_mem_nil, or_false, forall_eq_or_imp, forall_eq]
    exact ⟨.terminal _, .terminal _⟩

theorem holds_sharedClock {v : Valuation} (h : Holds clockLibrary v sharedClock) :
    Below (v.clock 1 - v.clock 0) 3 ∧ ¬ Below (v.clock 2 - v.clock 0) 4 := by
  have hproper : clockLibrary.Proper sharedClock := ⟨by decide, inRange_sharedClock⟩
  have hk0 : clockLibrary.levelinfo[0]? = some (.cdd 1 0) := by decide
  have hk1 : clockLibrary.levelinfo[1]? = some (.cdd 2 0) := by decide
  obtain ⟨p, hp, ⟨-, hbelow⟩, hchild⟩ := (holds_pieces hproper hk0).mp h
  simp only [pieces, List.mem_cons, List.not_mem_nil, or_false] at hp
  rcases hp with rfl | rfl
  · refine ⟨hbelow, ?_⟩
    obtain ⟨-, -, hr⟩ := inRange_sharedClock.of_cdd
    rw [cddNegCond_false] at hchild
    obtain ⟨q, hq, ⟨hnot, -⟩, hfalse⟩ := (holds_pieces ⟨by decide, hr _ List.mem_cons_self⟩ hk1).mp
      hchild
    simp only [pieces, List.mem_cons, List.not_mem_nil, or_false] at hq
    rcases hq with rfl | rfl
    · exact absurd hfalse not_holds_cddfalse
    · exact hnot
  · exact absurd hchild not_holds_cddfalse

end UCDD

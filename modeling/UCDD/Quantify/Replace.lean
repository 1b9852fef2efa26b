import UCDD.Quantify.Correct

/-!
# Replacing levels and clocks

`cdd_replace`, `cddop.c:910–979`. The diagram is built again with `cdd_interval` and `cdd_ite`,
so the new levels need not be in the order of the old ones.
-/

namespace UCDD

open IntervalMap DdNode

/-- What a call of `cdd_replace` reads and does not change: its two arrays, the number of the
operation and the slots the cache uses. -/
structure ReplaceCall where
  levels : ℕ → ℕ
  clocks : ℕ → ℕ
  opid : ℕ
  slot : DdNode → ℕ

/-- The table `replacecache`. -/
abbrev ReplaceCache : Type := ℕ → Option CddCacheData

namespace ReplaceCall

variable (C : ReplaceCall)

/-- A hit in the cache, `cddop.c:930–935`. -/
def lookup (cache : ReplaceCache) (node : DdNode) : Option DdNode :=
  match cache (C.slot node) with
  | some entry => if entry.a = node ∧ entry.c = C.opid then some entry.res else none
  | none => none

/-- The entry that is written, `cddop.c:974–976`. -/
def store (cache : ReplaceCache) (node res : DdNode) : ReplaceCache :=
  Function.update cache (C.slot node) (some ⟨node, C.opid, res⟩)

end ReplaceCall

mutual

/-- `cdd_replace_rec` on the pointer `cddNegCond node mask`. -/
def cddReplaceRec (L : Library) (C : ReplaceCall) (mask : Bool) :
    DdNode → ReplaceCache → Option (DdNode × ReplaceCache)
  | .terminal neg, cache => some (.terminal (neg ^^ mask), cache)
  | .xterm neg id, cache => some (.xterm (neg ^^ mask) id, cache)
  | .bdd neg level low high, cache =>
    match C.lookup cache (.bdd (neg ^^ mask) level low high) with
    | some res => some (res, cache)
    | none => do
      let tmp1 := cddBddvar (C.levels level)
      let (tmp2, cache) ← cddReplaceRec L C (neg ^^ mask) low cache
      let (tmp3, cache) ← cddReplaceRec L C (neg ^^ mask) high cache
      let res := cddIte L tmp1 tmp3 tmp2
      return (res, C.store cache (.bdd (neg ^^ mask) level low high) res)
  | .cdd neg level elem, cache =>
    match C.lookup cache (.cdd (neg ^^ mask) level elem) with
    | some res => some (res, cache)
    | none =>
      match L.levelinfo[level]? with
      | some (.cdd i j) => do
        let (res, cache) ← replaceElem L C (neg ^^ mask) i j (-INF) elem cddfalse cache
        return (res, C.store cache (.cdd (neg ^^ mask) level elem) res)
      | _ => none

/-- The loop over the edges from `low` on, with the union `res` so far, `cddop.c:955–969`. -/
def replaceElem (L : Library) (C : ReplaceCall) (mask : Bool) (i j : ℕ) :
    Raw → List (DdNode × Raw) → DdNode → ReplaceCache → Option (DdNode × ReplaceCache)
  | _, [], res, cache => some (res, cache)
  | low, (child, bnd) :: it, res, cache => do
    let tmp1 := cddInterval L (C.clocks i) (C.clocks j) low bnd
    let (tmp2, cache) ← cddReplaceRec L C mask child cache
    replaceElem L C mask i j bnd it (cddOr L res (cddAnd L tmp1 tmp2)) cache

end

/-- The cache between two calls: no entry is newer than the last operation. -/
structure ReplaceTable where
  cache : ReplaceCache
  opid : ℕ
  slot : DdNode → ℕ
  older : ∀ s entry, cache s = some entry → entry.c ≤ opid

/-- `cdd_replace`: `opid` is increased first. -/
def cddReplace (L : Library) (E : ReplaceTable) (node : DdNode) (levels clocks : ℕ → ℕ) :
    Option DdNode :=
  (cddReplaceRec L ⟨levels, clocks, E.opid + 1, E.slot⟩ false node E.cache).map (·.1)

/-- The valuation in which clock `c` has the value of clock `clocks c`, and level `k` that of
level `levels k`. -/
def Valuation.rename (levels clocks : ℕ → ℕ) (v : Valuation) : Valuation :=
  ⟨fun c ↦ v.clock (clocks c), fun k ↦ v.bool (levels k)⟩

/-- The maps send a Boolean level to a Boolean level, and the clocks of a clock level to two
clocks. -/
def Library.Renames (L : Library) (levels clocks : ℕ → ℕ) (ℓ : ℕ) : Prop :=
  (L.levelinfo[ℓ]? = some .bdd → L.levelinfo[levels ℓ]? = some .bdd) ∧
    ∀ i j, L.levelinfo[ℓ]? = some (.cdd i j) →
      clocks i < L.clocknum ∧ clocks j < L.clocknum ∧ clocks i ≠ clocks j

/-- `r` is `d` with the levels and the clocks replaced. -/
structure Replaces (L : Library) (levels clocks : ℕ → ℕ) (d r : DdNode) : Prop where
  proper : L.Proper r
  holds_iff : ∀ v, Holds L v r ↔ Holds L (v.rename levels clocks) d

section

variable {L : Library} {C : ReplaceCall} {cache : ReplaceCache}

/-! ### The cache -/

/-- The entries of the running operation are results of it. -/
def ReplaceCall.Valid (C : ReplaceCall) (L : Library) (cache : ReplaceCache) : Prop :=
  ∀ s entry, cache s = some entry → entry.c = C.opid →
    Replaces L C.levels C.clocks entry.a entry.res

theorem replaceLookup_spec (h : C.Valid L cache) {node res : DdNode}
    (hl : C.lookup cache node = some res) : Replaces L C.levels C.clocks node res := by
  unfold ReplaceCall.lookup at hl
  split at hl
  · next entry hentry =>
    split at hl
    · next hkey =>
      cases hl
      rw [← hkey.1]
      exact h _ entry hentry hkey.2
    · cases hl
  · cases hl

theorem replaceStore_valid (h : C.Valid L cache) {node res : DdNode}
    (hres : Replaces L C.levels C.clocks node res) : C.Valid L (C.store cache node res) := by
  intro s entry hs hop
  unfold ReplaceCall.store at hs
  rw [Function.update_apply] at hs
  split at hs
  · cases hs
    exact hres
  · exact h s entry hs hop

/-! ### The recursion -/

/-- The recursion meets its specification on the pointer. -/
def ReplaceSpec (L : Library) (C : ReplaceCall) (mask : Bool) (d : DdNode) : Prop :=
  ∀ cache, C.Valid L cache → ∃ r cache', cddReplaceRec L C mask d cache = some (r, cache') ∧
    C.Valid L cache' ∧ Replaces L C.levels C.clocks (cddNegCond d mask) r

/-- What is found in the cache, or made and stored, is a replacement. -/
theorem replaceSpec_of_miss {mask : Bool} {d : DdNode}
    (hhit : ∀ cache res, C.lookup cache (cddNegCond d mask) = some res →
      cddReplaceRec L C mask d cache = some (res, cache))
    (hmiss : ∀ cache, C.Valid L cache → C.lookup cache (cddNegCond d mask) = none →
      ∃ r cache', cddReplaceRec L C mask d cache =
          some (r, C.store cache' (cddNegCond d mask) r) ∧
        C.Valid L cache' ∧ Replaces L C.levels C.clocks (cddNegCond d mask) r) :
    ReplaceSpec L C mask d := by
  intro cache hc
  cases hlook : C.lookup cache (cddNegCond d mask) with
  | some res => exact ⟨res, cache, hhit cache res hlook, hc, replaceLookup_spec hc hlook⟩
  | none =>
    obtain ⟨r, cache', hr, hc', hrep⟩ := hmiss cache hc hlook
    exact ⟨r, _, hr, replaceStore_valid hc' hrep, hrep⟩

/-- The loop joins the edges it is given. -/
theorem replaceElem_spec (hL : L.Declared) (hlen : L.levelinfo.length ≤ maxLevel) {mask : Bool}
    {i j : ℕ} (hi : C.clocks i < L.clocknum) (hj : C.clocks j < L.clocknum)
    (hij : C.clocks i ≠ C.clocks j) {low : Raw} {es : List (DdNode × Raw)}
    (hint : ∀ p ∈ pieces low es, Interval p.1 p.2.2) (hrec : ∀ e ∈ es, ReplaceSpec L C mask e.1)
    {res : DdNode} (hres : L.Proper res) (hc : C.Valid L cache) :
    ∃ r cache', replaceElem L C mask i j low es res cache = some (r, cache') ∧
      C.Valid L cache' ∧ L.Proper r ∧ ∀ v, Holds L v r ↔ Holds L v res ∨ ∃ p ∈ pieces low es,
        (¬ Below (v.clock (C.clocks i) - v.clock (C.clocks j)) p.1 ∧
          Below (v.clock (C.clocks i) - v.clock (C.clocks j)) p.2.2) ∧
        Holds L (v.rename C.levels C.clocks) (cddNegCond p.2.1 mask) := by
  induction es generalizing low res cache with
  | nil =>
    refine ⟨res, cache, rfl, hc, hres, ?_⟩
    simp [pieces]
  | cons e es ih =>
    obtain ⟨child, bnd⟩ := e
    obtain ⟨hint, hint'⟩ := List.forall_mem_cons.mp hint
    obtain ⟨hchild, hrec⟩ := List.forall_mem_cons.mp hrec
    obtain ⟨hproper, hholds⟩ := cddInterval_spec hL hlen hi hj hij hint
    obtain ⟨tmp2, cache₁, hrun, hc₁, hrep⟩ := hchild cache hc
    have hand := hproper.and hrep.proper
    obtain ⟨r, cache₂, hr, hc₂, hp, hiff⟩ := ih hint' hrec (hres.or hand) hc₁
    refine ⟨r, cache₂, ?_, hc₂, hp, ?_⟩
    · simp only [replaceElem, hrun, Option.bind_eq_bind, Option.bind_some, hr]
    · intro v
      rw [hiff, holds_cddOr hres.wf hand.wf, holds_cddAnd hproper.wf hrep.proper.wf, hholds,
        hrep.holds_iff, or_assoc]
      simp only [pieces, List.mem_cons, exists_eq_or_imp]

theorem replaceSpec_terminal (mask neg : Bool) : ReplaceSpec L C mask (.terminal neg) := by
  intro cache hc
  refine ⟨_, cache, rfl, hc, ⟨.terminal _, .terminal _⟩, ?_⟩
  intro v
  show Holds L v (.terminal (neg ^^ mask)) ↔ Holds L _ (.terminal (neg ^^ mask))
  cases neg ^^ mask with
  | true => exact iff_of_true holds_cddtrue holds_cddtrue
  | false => exact iff_of_false not_holds_cddfalse not_holds_cddfalse

theorem cddReplaceRec_spec (hL : L.Declared) (hlen : L.levelinfo.length ≤ maxLevel) {d : DdNode}
    (hd : L.Proper d) (hmaps : All (L.Renames C.levels C.clocks) (fun _ ↦ True) d) (mask : Bool) :
    ReplaceSpec L C mask d := by
  obtain ⟨hwf, hrange⟩ := hd
  induction hwf generalizing mask with
  | terminal neg => exact replaceSpec_terminal mask neg
  | xterm neg hid => exact absurd hid (Nat.not_lt_zero _)
  | @bdd neg level low high hk hl hh _ _ hwl hwh ihl ihh =>
    obtain ⟨-, hrl, hrh⟩ := hrange.of_bdd
    obtain ⟨hren, hml, hmh⟩ := hmaps.of_bdd
    have hk' := hren.1 hk
    have hlt := lt_of_lt_of_le (List.getElem?_eq_some_iff.mp hk').1 hlen
    have hvar := proper_cddBddvar hk' hlt
    apply replaceSpec_of_miss
    · intro cache res hlook
      rw [cddReplaceRec]
      simp only [show C.lookup cache (.bdd (neg ^^ mask) level low high) = some res from hlook]
    · intro cache hc hlook
      obtain ⟨tmp2, cache₁, h₁, hc₁, hrep₁⟩ := ihl hml (neg ^^ mask) hrl cache hc
      obtain ⟨tmp3, cache₂, h₂, hc₂, hrep₂⟩ := ihh hmh (neg ^^ mask) hrh cache₁ hc₁
      refine ⟨cddIte L (cddBddvar (C.levels level)) tmp3 tmp2, cache₂, ?_, hc₂,
        hvar.ite hrep₂.proper hrep₁.proper, ?_⟩
      · rw [cddReplaceRec]
        simp only [show C.lookup cache (.bdd (neg ^^ mask) level low high) = none from hlook, h₁, h₂,
          Option.bind_eq_bind, Option.bind_some, Option.pure_def]
        rfl
      · intro v
        rw [holds_cddIte_bddvar hk' hlt hrep₂.proper.wf hrep₁.proper.wf]
        show _ ↔ Holds L (v.rename C.levels C.clocks) (.bdd (neg ^^ mask) level low high)
        rw [holds_bdd]
        show _ ↔ Holds L _ (cddNegCond (bif v.bool (C.levels level) then high else low) _)
        cases v.bool (C.levels level) with
        | true => exact hrep₂.holds_iff v
        | false => exact hrep₁.holds_iff v
  | @cdd neg level elem hk hl hp ha h2 hm hw ih =>
    obtain ⟨-, hr, hrs⟩ := hrange.of_cdd
    obtain ⟨hren, -, hms⟩ := hmaps.of_cdd
    obtain ⟨i, j, hij⟩ := hk
    obtain ⟨hi, hj, hne⟩ := hren.2 i j hij
    have hproper : L.Proper (.cdd (neg ^^ mask) level elem) :=
      ⟨.cdd _ ⟨i, j, hij⟩ hl hp ha h2 hm hw, hrange.negCond mask⟩
    apply replaceSpec_of_miss
    · intro cache res hlook
      rw [cddReplaceRec]
      simp only [show C.lookup cache (.cdd (neg ^^ mask) level elem) = some res from hlook]
    · intro cache hc hlook
      have hhead : ∀ e ∈ elem.head?, -INF < e.2 := fun e he ↦ hr e (List.mem_of_mem_head? he)
      obtain ⟨r, cache₁, h₁, hc₁, hpr, hiff⟩ := replaceElem_spec (C := C) hL hlen hi hj hne
        (interval_of_mem_pieces hp hhead fun _ ↦ h2)
        (fun e he ↦ ih e he (hms e he) (neg ^^ mask) (hrs e he)) proper_cddfalse hc
      refine ⟨r, cache₁, ?_, hc₁, hpr, ?_⟩
      · rw [cddReplaceRec]
        simp only [show C.lookup cache (.cdd (neg ^^ mask) level elem) = none from hlook, hij, h₁,
          Option.bind_eq_bind, Option.bind_some, Option.pure_def]
        rfl
      · intro v
        show _ ↔ Holds L (v.rename C.levels C.clocks) (.cdd (neg ^^ mask) level elem)
        rw [hiff, holds_pieces hproper hij]
        simp [Valuation.rename]

end

/-- A table without entries. -/
def emptyReplaceTable : ReplaceTable := ⟨fun _ ↦ none, 0, fun _ ↦ 0, nofun⟩

theorem renames_clockLibrary (ℓ : ℕ) : clockLibrary.Renames id (2 - ·) ℓ := by
  refine ⟨fun h ↦ h, ?_⟩
  intro i j hij
  have hdeclared : clockLibrary.Declared := .addClocks 3 .init
  obtain ⟨⟨hji, hi⟩, -⟩ := hdeclared.covers.pair_of_level ℓ i j hij
  have hi : i < 3 := hi
  show 2 - i < 3 ∧ 2 - j < 3 ∧ 2 - i ≠ 2 - j
  omega

end UCDD

import UCDD.Diagram.Ops

/-!
# Existential quantification

`cdd_exist`, `cdd_exist_rec` and `relax`, `cddop.c:433–446, 640–907`. A node on a quantified
clock is removed: the constraint of each of its edges is relaxed into the child, which is
quantified in turn, and the results are joined. `removed_constraint` keeps the constraints
removed on the way down. Both recursions look their pointer up in a cache without collision
lists.
-/

namespace UCDD

open IntervalMap DdNode

/-- `CddRelaxCacheData` of `relax.h`. -/
structure CddRelaxCacheData where
  node : DdNode
  lower : Raw
  clock1 : ℕ
  clock2 : ℕ
  upper : Raw
  op : ℕ
  res : DdNode

/-- The fields of `CddCacheData` of `cache.h` that a unary operation uses. -/
structure CddCacheData where
  a : DdNode
  c : ℕ
  res : DdNode

/-- The tables `relaxcache` and `quantcache`. -/
structure ExistCaches where
  relaxcache : ℕ → Option CddRelaxCacheData
  quantcache : ℕ → Option CddCacheData

/-- What a call of `cdd_exist` reads and does not change: its two arrays, the number of the
operation and the slots the caches use. -/
structure ExistCall where
  levels : List ℕ
  clocks : List ℕ
  opid : ℕ
  relaxslot : DdNode → Raw → ℕ → ℕ → Raw → ℕ
  existslot : DdNode → ℕ

/-- The constraint whose removal `relax` propagates, and `removed_constraint`. -/
structure Removed where
  lower : Raw
  clock1 : ℕ
  clock2 : ℕ
  upper : Raw
  rc : ℕ → Raw

namespace ExistCall

variable (C : ExistCall)

/-- A hit in the relax cache, `cddop.c:661–669`. -/
def relaxLookup (caches : ExistCaches) (node : DdNode) (R : Removed) : Option DdNode :=
  match caches.relaxcache (C.relaxslot node R.lower R.clock1 R.clock2 R.upper) with
  | some entry =>
    if entry.node = node ∧ entry.lower = R.lower ∧ entry.upper = R.upper ∧
      entry.clock1 = R.clock1 ∧ entry.clock2 = R.clock2 ∧ entry.op = C.opid then some entry.res
    else none
  | none => none

/-- The entry `relax` writes, `cddop.c:765–773`. -/
def relaxStore (caches : ExistCaches) (node : DdNode) (R : Removed) (res : DdNode) : ExistCaches :=
  { caches with
    relaxcache := Function.update caches.relaxcache
      (C.relaxslot node R.lower R.clock1 R.clock2 R.upper)
      (some ⟨node, R.lower, R.clock1, R.clock2, R.upper, C.opid, res⟩) }

/-- A hit in the quantification cache, `cddop.c:797–802`. -/
def existLookup (caches : ExistCaches) (node : DdNode) : Option DdNode :=
  match caches.quantcache (C.existslot node) with
  | some entry => if entry.a = node ∧ entry.c = C.opid then some entry.res else none
  | none => none

/-- The entry `cdd_exist_rec` writes, `cddop.c:902–904`. -/
def existStore (caches : ExistCaches) (node : DdNode) (res : DdNode) : ExistCaches :=
  { caches with
    quantcache := Function.update caches.quantcache (C.existslot node)
      (some ⟨node, C.opid, res⟩) }

end ExistCall

/-- `shared && clocks[clock]`: the array is read only when the levels share the clock. There is
no value behind the end of the array. -/
def readClocks (clocks : List ℕ) (shared : Bool) (clock : ℕ) : Option Bool :=
  if shared then clocks[clock]?.map (· ≠ 0) else some false

/-- The consequence of the removed constraint and the edge from `low` to `bnd` on the
difference of clocks `i` and `j`, `cddop.c:679–701`: the positive and the negative clock of the
new difference and its bounds. -/
def relaxConsequence (clocks : List ℕ) (R : Removed) (i j : ℕ) (low bnd : Raw) :
    Option (Option (ℕ × ℕ × Raw × Raw)) := do
  if ← readClocks clocks (i = R.clock1) R.clock1 then
    return some (j, R.clock2, bndU2l (bndAdd bnd (bndL2u R.lower)), bndAdd R.upper (bndL2u low))
  else if ← readClocks clocks (i = R.clock2) R.clock2 then
    return some (R.clock1, j, bndU2l (bndAdd (bndL2u R.lower) (bndL2u low)), bndAdd R.upper bnd)
  else if ← readClocks clocks (j = R.clock1) R.clock1 then
    return some (i, R.clock2, bndU2l (bndAdd (bndL2u R.lower) (bndL2u low)), bndAdd R.upper bnd)
  else if ← readClocks clocks (j = R.clock2) R.clock2 then
    return some (i, R.clock1, bndU2l (bndAdd R.upper (bndL2u low)), bndAdd bnd (bndL2u R.lower))
  else return none

/-- Add the consequence if it is tighter than the constraints removed, `cddop.c:708–724`. -/
def relaxAdd (L : Library) (rc : ℕ → Raw) (tmp2 : DdNode) :
    Option (ℕ × ℕ × Raw × Raw) → DdNode
  | none => tmp2
  | some (pos, neg, l, u) =>
    if l > bndU2l (rc (neg * L.clocknum + pos)) ∨ u < rc (pos * L.clocknum + neg) then
      cddAnd L tmp2 (cddInterval L pos neg (max l (bndU2l (rc (neg * L.clocknum + pos))))
        (min u (rc (pos * L.clocknum + neg))))
    else tmp2

mutual

/-- `relax` on the pointer `cddNegCond node mask`. -/
def relax (L : Library) (C : ExistCall) (R : Removed) (mask : Bool) :
    DdNode → ExistCaches → Option (DdNode × ExistCaches)
  | .terminal neg, caches => some (.terminal (neg ^^ mask), caches)
  | .xterm neg id, caches => some (.xterm (neg ^^ mask) id, caches)
  | .bdd neg level low high, caches =>
    match C.relaxLookup caches (.bdd (neg ^^ mask) level low high) R with
    | some res => some (res, caches)
    | none => do
      let (tmp1, caches) ← relax L C R (neg ^^ mask) low caches
      let (tmp2, caches) ← relax L C R (neg ^^ mask) high caches
      let res := cddIte L (cddBddvar level) tmp2 tmp1
      return (res, C.relaxStore caches (.bdd (neg ^^ mask) level low high) R res)
  | .cdd neg level elem, caches =>
    match C.relaxLookup caches (.cdd (neg ^^ mask) level elem) R with
    | some res => some (res, caches)
    | none =>
      match L.levelinfo[level]? with
      | some (.cdd i j) => do
        let (res, caches) ← relaxElem L C R (neg ^^ mask) level i j (-INF) elem cddfalse caches
        return (res, C.relaxStore caches (.cdd (neg ^^ mask) level elem) R res)
      | _ => none

/-- The loop of `relax` over the edges from `low` on, with the union `res` so far. -/
def relaxElem (L : Library) (C : ExistCall) (R : Removed) (mask : Bool) (level i j : ℕ) :
    Raw → List (DdNode × Raw) → DdNode → ExistCaches → Option (DdNode × ExistCaches)
  | _, [], res, caches => some (res, caches)
  | low, (child, bnd) :: it, res, caches => do
    let consequence ← relaxConsequence C.clocks R i j low bnd
    let (tmp2, caches) ← relax L C R mask child caches
    let tmp4 := cddAnd L (relaxAdd L R.rc tmp2 consequence) (cddIntervalFromLevel level low bnd)
    relaxElem L C R mask level i j bnd it (cddOr L res tmp4) caches

end

/-- A recursive call of `cdd_exist_rec`: it is given `removed_constraint`. -/
abbrev ExistRec : Type := (ℕ → Raw) → DdNode → ExistCaches → Option (DdNode × ExistCaches)

/-- The loop over the edges of a node whose level is removed, `cddop.c:816–844`. -/
def existRemoved (L : Library) (C : ExistCall) (rec : ExistRec) (rc : ℕ → Raw) (mask : Bool)
    (i j : ℕ) : Raw → List (DdNode × Raw) → DdNode → ExistCaches → Option (DdNode × ExistCaches)
  | _, [], res, caches => some (res, caches)
  | low, (child, bnd) :: it, res, caches => do
    let rc' := Function.update (Function.update rc (j * L.clocknum + i) (bndL2u low))
      (i * L.clocknum + j) bnd
    let (tmp1, caches) ← relax L C ⟨low, i, j, bnd, rc'⟩ mask child caches
    let (tmp2, caches) ← rec rc' tmp1 caches
    existRemoved L C rec rc mask i j bnd it (cddOr L res tmp2) caches

/-- The loop over the edges of a node whose level is kept, `cddop.c:847–867`. -/
def existKept (L : Library) (rec : ExistRec) (rc : ℕ → Raw) (mask : Bool) (level : ℕ) :
    Raw → List (DdNode × Raw) → DdNode → ExistCaches → Option (DdNode × ExistCaches)
  | _, [], res, caches => some (res, caches)
  | low, (child, bnd) :: it, res, caches => do
    let tmp1 := cddIntervalFromLevel level low bnd
    let (tmp2, caches) ← rec rc (cddNegCond child mask) caches
    existKept L rec rc mask level bnd it (cddOr L res (cddAnd L tmp1 tmp2)) caches

/-- The body of `cdd_exist_rec` after a cache miss, over the recursive call `rec`. -/
def existNode (L : Library) (C : ExistCall) (rec : ExistRec) (rc : ℕ → Raw) :
    DdNode → ExistCaches → Option (DdNode × ExistCaches)
  | .cdd neg level elem, caches =>
    match L.levelinfo[level]? with
    | some (.cdd i j) =>
      if i ∈ C.clocks ∨ j ∈ C.clocks then
        existRemoved L C rec rc neg i j (-INF) elem cddfalse caches
      else existKept L rec rc neg level (-INF) elem cddfalse caches
    | _ => none
  | .bdd neg level low high, caches => do
    let (tmp1, caches) ← rec rc (cddNegCond low neg) caches
    let (tmp2, caches) ← rec rc (cddNegCond high neg) caches
    let res := if level ∈ C.levels then cddOr L tmp1 tmp2 else cddIte L (cddBddvar level) tmp2 tmp1
    return (res, caches)
  | node, caches => some (node, caches)

/-- `cdd_exist_rec`. A relaxed child can be higher than the child, so the depth of the
recursion is bounded by fuel. -/
def cddExistRec (L : Library) (C : ExistCall) : ℕ → ExistRec
  | 0, _, _, _ => none
  | fuel + 1, rc, node, caches =>
    if cddIsterminal node then some (node, caches)
    else match C.existLookup caches node with
      | some res => some (res, caches)
      | none => do
        let (res, caches) ← existNode L C (cddExistRec L C fuel) rc node caches
        return (res, C.existStore caches node res)

/-- The operation caches between two calls: no entry is newer than the last operation. -/
structure OpCaches extends ExistCaches where
  opid : ℕ
  relaxslot : DdNode → Raw → ℕ → ℕ → Raw → ℕ
  existslot : DdNode → ℕ
  relax_op : ∀ s entry, relaxcache s = some entry → entry.op ≤ opid
  quant_op : ∀ s entry, quantcache s = some entry → entry.c ≤ opid

/-- The call that `cdd_exist` makes of its arrays: `opid` is increased first. -/
def OpCaches.call (E : OpCaches) (levels clocks : List ℕ) : ExistCall :=
  ⟨levels, clocks, E.opid + 1, E.relaxslot, E.existslot⟩

/-- `cdd_exist`, with a recursion no deeper than `fuel`. -/
def cddExist (L : Library) (E : OpCaches) (fuel : ℕ) (node : DdNode) (levels clocks : List ℕ) :
    Option DdNode :=
  (cddExistRec L (E.call levels clocks) fuel (fun _ ↦ INF) node E.toExistCaches).map (·.1)

end UCDD

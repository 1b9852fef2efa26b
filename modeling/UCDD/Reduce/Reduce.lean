import UCDD.Diagram.Ops
import UCDD.Reduce.Solutions

/-!
# Reduction

`cdd_reduce` and `cdd_equiv`, `cddop.c:1246–1260, 1375–1491`. The recursion keeps the
constraints of the path to a node in the incremental graph, drops the edges that contradict
them and lets the neighbours of a dropped edge take its interval.
-/

namespace UCDD

open IntervalMap DdNode

mutual

/-- `cdd_tarjan_reduce_rec` on the pointer `cddNegCond node mask`. A reduced node has no more
children than the node it replaces, so `cdd_maxcddsize` plays no part. -/
def cddTarjanReduceRec (L : Library) (mask : Bool) :
    DdNode → Tarjan → Option (DdNode × Tarjan)
  | .terminal neg, graph => some (.terminal (neg ^^ mask), graph)
  | .xterm neg id, graph => some (.xterm (neg ^^ mask) id, graph)
  | .bdd neg level low high, graph => do
    let (n, graph) ← cddTarjanReduceRec L (neg ^^ mask) low graph
    let (m, graph) ← cddTarjanReduceRec L (neg ^^ mask) high graph
    return (cddMakeBddNode level n m, graph)
  | .cdd neg level elem, graph =>
    match L.levelinfo[level]? with
    | some (.cdd i j) =>
      reduceFirst L (neg ^^ mask) i j (.cdd (neg ^^ mask) level elem) elem false graph
    | _ => none

/-- The search for the first consistent child, `cddop.c:1399–1432`, and the new node,
`cddop.c:1461–1474`. -/
def reduceFirst (L : Library) (mask : Bool) (i j : ℕ) (node : DdNode) :
    List (DdNode × Raw) → Bool → Tarjan → Option (DdNode × Tarjan)
  | [], _, _ => none
  | (child, bnd) :: it, modified, graph =>
    -- all bounds except the last are inconsistent, so the node has no effect
    if modified && bnd = INF then cddTarjanReduceRec L mask child graph
    else do
      let (consistent, graph) ← cddTarjanConsistent (cddTarjanPush graph i j bnd.code)
      if consistent then
        let (m, graph) ← cddTarjanReduceRec L mask child graph
        let (elem, modified', graph) ←
          reduceRest L mask (cddMask m) i j it bnd m (cddTarjanPop graph i)
        if modified || m ≠ cddNegCond child mask || modified' then
          let n ← cddMakeCddNode ⊤ node.level elem
          return (cddNegCond n (cddMask m), graph)
        else return (node, graph)
      else reduceFirst L mask i j node it true (cddTarjanPop graph i)

/-- The later children, `cddop.c:1434–1459`: `m` is the last child not pushed yet and `low` the
bound where it ends; `mask0` is the mask of the first child. -/
def reduceRest (L : Library) (mask mask0 : Bool) (i j : ℕ) :
    List (DdNode × Raw) → Raw → DdNode → Tarjan → Option (List (DdNode × Raw) × Bool × Tarjan)
  | [], _, m, graph => some ([(cddNegCond m mask0, INF)], false, graph)
  | (child, bnd) :: it, low, m, graph => do
    let (consistent, graph) ← cddTarjanConsistent (cddTarjanPush graph j i (bndL2u low).code)
    if consistent then
      let (n, graph) ← (if bnd < INF then
          (cddTarjanReduceRec L mask child (cddTarjanPush graph i j bnd.code)).map fun r ↦
            (r.1, cddTarjanPop r.2 i)
        else cddTarjanReduceRec L mask child graph)
      let (elem, modified, graph) ← reduceRest L mask mask0 i j it bnd n (cddTarjanPop graph j)
      return (if m ≠ n then (cddNegCond m mask0, low) :: elem else elem,
        n ≠ cddNegCond child mask || modified, graph)
    else return ([(cddNegCond m mask0, INF)], true, cddTarjanPop graph j)

end

/-- `cdd_reduce`. -/
def cddReduce (L : Library) (node : DdNode) : Option DdNode :=
  (cddTarjanReduceRec L false node (cddTarjanInit L.clocknum)).map (·.1)

/-- `cdd_equiv`. -/
def cddEquiv (L : Library) (c d : DdNode) : Option Bool :=
  (cddReduce L (cddXor L c d)).map (· = cddfalse)

end UCDD

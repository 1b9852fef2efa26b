import Mathlib.Data.List.Basic
import Mathlib.Order.Lex
import Mathlib.Data.List.Lex
import UCDD.Lib.HashChain
import UCDD.Lib.Int32

/-!
# The unique tables

The node memory of `kernel.c:300–848`: chunks, free lists, the sweep, the subtables with their
buckets, the two functions that make nodes, and rehashing. Addresses count bytes and `0` is `NULL`.
The operating system hands out chunks, and what a chunk holds before it is written to is whatever
it is.
-/

namespace UCDD

namespace NodeTable

open HashChain Loop Counter

def CHUNKSIZE : ℤ := 0x10000

/-- `sizeof(Chunk)`, the header of a chunk. -/
def SIZEOF_CHUNK : ℤ := 16

def HASH_DENSITY : ℤ := 4

def MINFREE : ℤ := 20

/-- `MAXREF` of a count with ten bits. -/
def MAXREF : ℕ := 0x3FF

def DD_P1 : ℤ := 12582917

def DD_P2 : ℤ := 4256249

def cddMask (node : ℤ) : ℤ := node % 2

def cddRglr (node : ℤ) : ℤ := node - node % 2

/-- `cdd_neg_cond`, where `mask` is `0` or `1`. -/
def cddNegCond (node mask : ℤ) : ℤ := cddRglr node + (node + mask) % 2

/-- `cdd_node2chunk`. -/
def cddNode2chunk (node : ℤ) : ℤ := node - node % CHUNKSIZE

/-- What is not in the repository: where the chunks are that the operating system hands out, one
after the other, and `hash_computeU32`, of the bytes of an array and an initial value. The bound is
on the rounds of each loop. -/
structure Env where
  os : ℕ → ℤ
  computeU32 : List ℤ → ℤ → ℕ
  fuel : ℕ

/-- An element of a CDD node, with the four bytes of padding after the bound. -/
structure Elem where
  child : ℤ
  bnd : ℤ
  pad : ℤ

/-- The bytes of a word, the lowest first. -/
def wordBytes (n : ℕ) (w : ℤ) : List ℤ := (List.range n).map fun i ↦ w / 256 ^ i % 256

/-- The bytes of the elements. -/
def elemBytes (elem : List Elem) : List ℤ :=
  elem.flatMap fun e ↦ wordBytes 8 e.child ++ wordBytes 4 e.bnd ++ wordBytes 4 e.pad

/-- The fields of the nodes by their addresses, the number of chunks that have been handed out and
`cdd_gbccnt`. What `key` holds is `low` and `high` for a BDD node, and the bytes of `elem` for a CDD
node. -/
structure Heap where
  next : ℤ → ℤ
  level : ℤ → ℕ
  ref : ℤ → ℕ
  key : ℤ → List ℤ
  chunks : ℕ
  gbccnt : ℤ

/-- `low` of a BDD node. -/
def Heap.low (h : Heap) (node : ℤ) : ℤ := (h.key node).getD 0 0

/-- `high` of a BDD node. -/
def Heap.high (h : Heap) (node : ℤ) : ℤ := (h.key node).getD 1 0

/-- `SubTable`. -/
structure SubTable where
  deadcnt : ℤ
  shift : ℕ
  buckets : ℤ
  keys : ℤ
  maxkeys : ℤ
  hash : ℕ → ℤ

/-- `NodeManager`, with its chain of chunks as a list. -/
structure NodeManager where
  nodesize : ℤ
  freecnt : ℤ
  chunkcnt : ℤ
  alloccnt : ℤ
  usedcnt : ℤ
  deadcnt : ℤ
  free : ℤ
  nodes : List ℤ
  sentinel : ℤ
  hashfunc : List ℤ → ℕ
  subtables : ℕ → Option SubTable

/-- `bddHash`. -/
def bddHash (low high : ℤ) : ℕ :=
  ((low % 2 ^ 32 * DD_P1 + high % 2 ^ 32) * DD_P2 % 2 ^ 32).toNat

/-- `cddHash` of elements with these bytes. -/
def cddHash (E : Env) (elem : List ℤ) (len : ℤ) : ℕ := E.computeU32 elem len % 2 ^ 32

/-- `cdd_hash_func`. -/
def cddHashFunc (E : Env) (nodesize : ℤ) (elem : List ℤ) : ℕ :=
  cddHash E elem ((nodesize - 16) / 16)

/-- `bdd_hash_func`. -/
def bddHashFunc (key : List ℤ) : ℕ := bddHash (key.getD 0 0) (key.getD 1 0)

/-! ### Chunks -/

/-- The loop of `cdd_alloc_chunk`, which threads the nodes: `p -= size` while `p` is a node. -/
def threadNodes (E : Env) (first step : ℤ) (next : ℤ → ℤ) (p : ℤ) : Run ((ℤ → ℤ) × ℤ) :=
  iterate (fun s ↦ decide (first ≤ s.2))
    (fun s ↦ .done (Function.update s.1 s.2 (s.2 + step), s.2 - step)) E.fuel (next, p)

/-- The number of nodes in a chunk: `sizeof` makes the division one of 64-bit unsigned numbers. -/
def chunkNodes (nodesize : ℤ) : ℤ := int32 ((CHUNKSIZE - SIZEOF_CHUNK) / (nodesize % 2 ^ 64))

/-- The distance of two nodes in a chunk, in bytes. The code counts it in words. -/
def nodeStep (nodesize : ℤ) : ℤ := 8 * int32 (nodesize % 2 ^ 64 / 8)

/-- `cdd_alloc_chunk`. -/
def cddAllocChunk (E : Env) (h : Heap) (man : NodeManager) : Run (Heap × NodeManager) := do
  let size := nodeStep man.nodesize
  let nodes := chunkNodes man.nodesize
  let chunk := E.os h.chunks
  let first := chunk + SIZEOF_CHUNK
  let p := first + (nodes - 1) * size
  let (next, _) ← threadNodes E first size (Function.update h.next p man.free) (p - size)
  return ({ h with next, chunks := h.chunks + 1 },
    { man with
      nodes := chunk :: man.nodes
      free := first
      freecnt := int32 (man.freecnt + nodes)
      chunkcnt := int32 (man.chunkcnt + 1)
      alloccnt := int32 (man.alloccnt + nodes) })

/-! ### Garbage collection -/

/-- The loop over a chain in `cdd_gbc_nodemanager`, the free list included. -/
structure Sweep where
  links : Links ℕ ℤ
  free : ℤ
  p : Cursor ℕ ℤ
  node : ℤ

/-- One round: a dead node goes to the free list, another one stays in the chain. -/
def sweepBody (ref : ℤ → ℕ) (s : Sweep) : Run Sweep :=
  let next := s.links.next s.node
  if ref s.node = 0 then
    .done { s with links := s.links.set (.next s.node) s.free, free := s.node, node := next }
  else .done { s with links := s.links.set s.p s.node, p := .next s.node, node := next }

/-- The body of the loop over the buckets. -/
def sweepBucket (E : Env) (ref : ℤ → ℕ) (sentinel : ℤ) (s : Links ℕ ℤ × ℤ) (j : ℕ) :
    Run (Links ℕ ℤ × ℤ) := do
  let t ← iterate (fun t : Sweep ↦ decide (t.node ≠ sentinel)) (sweepBody ref) E.fuel
    ⟨s.1, s.2, .head j, s.1.head j⟩
  return (t.links.set t.p sentinel, t.free)

/-- The body of the loop over the levels. -/
def sweepTable (E : Env) (s : Heap × NodeManager) (i : ℕ) : Run (Heap × NodeManager) :=
  match s.2.subtables i with
  | none => return s
  | some tbl =>
    if tbl.deadcnt = 0 then return s
    else do
      let (links, free) ← (List.range tbl.buckets.toNat).foldlM
        (sweepBucket E s.1.ref s.2.sentinel) (⟨tbl.hash, s.1.next⟩, s.2.free)
      let tbl := { tbl with
        hash := links.head
        keys := int32 (tbl.keys - tbl.deadcnt)
        deadcnt := 0 }
      return ({ s.1 with next := links.next },
        { s.2 with free, subtables := Function.update s.2.subtables i (some tbl) })

/-- `cdd_gbc_nodemanager`, without the handlers and the clock. -/
def cddGbcNodemanager (E : Env) (levelcnt : ℕ) (h : Heap) (man : NodeManager) :
    Run (Heap × NodeManager) := do
  let (h, man) ← (List.range levelcnt).foldlM (sweepTable E) (h, man)
  return ({ h with gbccnt := int32 (h.gbccnt + 1) },
    { man with freecnt := int32 (man.freecnt + man.deadcnt), deadcnt := 0 })

/-! ### Nodes -/

/-- The test of `cdd_alloc_node` that chooses to collect, in 32-bit numbers. -/
def NodeManager.Collects (man : NodeManager) : Prop :=
  int32 (MINFREE * man.alloccnt) < int32 (100 * man.deadcnt)

instance (man : NodeManager) : Decidable man.Collects := inferInstanceAs (Decidable (_ < _))

/-- The refill step of `cdd_alloc_node`. -/
def refill (E : Env) (levelcnt : ℕ) (h : Heap) (man : NodeManager) : Run (Heap × NodeManager) :=
  if man.free = 0 then
    if man.Collects then cddGbcNodemanager E levelcnt h man else cddAllocChunk E h man
  else return (h, man)

/-- `cdd_alloc_node`, which follows `man->free`. -/
def cddAllocNode (E : Env) (levelcnt : ℕ) (h : Heap) (man : NodeManager) :
    Run (ℤ × Heap × NodeManager) := do
  let (h, man) ← refill E levelcnt h man
  if man.free = 0 then .failed
  else return (man.free, h,
    { man with
      free := h.next man.free
      usedcnt := int32 (man.usedcnt + 1)
      freecnt := int32 (man.freecnt - 1) })

/-- The manager in `cdd_alloc_nodemanager` before it has its sentinel. -/
def newManager (size : ℤ) (hashfunc : List ℤ → ℕ) : NodeManager :=
  ⟨size, 0, 0, 0, 0, 0, 0, [], 0, hashfunc, fun _ ↦ none⟩

/-- `cdd_alloc_nodemanager`. The sentinel is zero everywhere, and so are the words of its key. -/
def cddAllocNodemanager (E : Env) (levelcnt : ℕ) (h : Heap) (size : ℤ) (words : ℕ)
    (hashfunc : List ℤ → ℕ) : Run (Heap × NodeManager) := do
  let (node, h, man) ← cddAllocNode E levelcnt h (newManager size hashfunc)
  return ({ h with
      next := Function.update h.next node 0
      level := Function.update h.level node 0
      ref := Function.update h.ref node 0
      key := Function.update h.key node (List.replicate words 0) },
    { man with sentinel := node })

/-- `cdd_alloc_subtable`. -/
def cddAllocSubtable (man : NodeManager) : SubTable where
  deadcnt := 0
  shift := 24
  buckets := 256
  keys := 0
  maxkeys := 256 * HASH_DENSITY
  hash := fun _ ↦ man.sentinel

/-- The subtable of a level, which is made if there is none. -/
def openSubtable (man : NodeManager) (level : ℕ) : SubTable × NodeManager :=
  match man.subtables level with
  | some tbl => (tbl, man)
  | none =>
    let tbl := cddAllocSubtable man
    (tbl, { man with subtables := Function.update man.subtables level (some tbl) })

/-- The loop over an old chain in `cdd_rehash`. -/
structure Split where
  links : Links ℕ ℤ
  p : Cursor ℕ ℤ
  q : Cursor ℕ ℤ
  node : ℤ

/-- One round: the lowest bit of the new bucket decides for one of the two new chains. -/
def splitBody (bucket : ℤ → ℕ) (s : Split) : Run Split :=
  if bucket s.node % 2 = 1 then
    let links := s.links.set s.q s.node
    .done { s with links, q := .next s.node, node := links.next s.node }
  else
    let links := s.links.set s.p s.node
    .done { s with links, p := .next s.node, node := links.next s.node }

/-- The body of the loop over the old buckets. -/
def splitBucket (E : Env) (bucket : ℤ → ℕ) (sentinel : ℤ) (oldhash : ℕ → ℤ) (links : Links ℕ ℤ)
    (i : ℕ) : Run (Links ℕ ℤ) := do
  let s ← iterate (fun s : Split ↦ decide (s.node ≠ sentinel)) (splitBody bucket) E.fuel
    ⟨links, .head (2 * i), .head (2 * i + 1), oldhash i⟩
  return (s.links.set s.q sentinel).set s.p sentinel

/-- `cdd_rehash`. The size that `malloc` is given is that of a negative number when `buckets` has
wrapped around: there is no such block. -/
def cddRehash (E : Env) (h : Heap) (man : NodeManager) (tbl : SubTable) :
    Run (Heap × SubTable) := do
  let buckets := int32 (2 * tbl.buckets)
  let shift := tbl.shift - 1
  if buckets < 0 then .failed
  else
    let links ← (List.range tbl.buckets.toNat).foldlM
      (splitBucket E (fun node ↦ man.hashfunc (h.key node) / 2 ^ shift) man.sentinel tbl.hash)
      ⟨fun _ ↦ 0, h.next⟩
    return ({ h with next := links.next },
      { tbl with buckets, shift, maxkeys := int32 (2 * tbl.maxkeys), hash := links.head })

/-- `cdd_ref`. -/
def cddRef (ref : ℤ → ℕ) (node : ℤ) : ℤ → ℕ :=
  Function.update ref (cddRglr node)
    (ref (cddRglr node) + if ref (cddRglr node) ≠ MAXREF then 1 else 0)

/-- What a call looks for: its key, its hash value, the children that get a reference, and the loops
that search a chain. -/
structure Search where
  key : List ℤ
  hash : ℕ
  children : List ℤ
  find : Heap → Links ℕ ℤ → Cursor ℕ ℤ → Run (Cursor ℕ ℤ)

/-- The position is found again when garbage collection has occurred since `cdd_gbccnt` was
`cnt`. -/
def refind (S : Search) (cnt : ℤ) (h : Heap) (links : Links ℕ ℤ) (bucket : ℕ) (p : Cursor ℕ ℤ) :
    Run (Cursor ℕ ℤ) :=
  if cnt ≠ h.gbccnt then S.find h links (.head bucket) else .done p

/-- Check whether max keys has been reached. -/
def growTable (E : Env) (h : Heap) (man : NodeManager) (tbl : SubTable) : Run (Heap × SubTable) :=
  if tbl.maxkeys < tbl.keys then cddRehash E h man tbl else .done (h, tbl)

/-- What `cdd_make_bdd_node` and `cdd_make_cdd_node` do once they have a new node, from
`kernel.c:660` and `kernel.c:739` on. The cursor is the one that was found before the node was
allocated, when `cdd_gbccnt` was `cnt`. -/
def insertNode (E : Env) (level : ℕ) (S : Search) (bucket : ℕ) (p : Cursor ℕ ℤ) (cnt node : ℤ)
    (h : Heap) (man : NodeManager) : Run (Heap × NodeManager) :=
  match man.subtables level with
  | none => .failed
  | some tbl => do
    let links : Links ℕ ℤ := ⟨tbl.hash, h.next⟩
    let p ← refind S cnt h links bucket p
    let links := (links.set (.next node) (links.get p)).set p node
    let h := { h with
      next := links.next
      level := Function.update h.level node level
      ref := Function.update h.ref node 0
      key := Function.update h.key node S.key }
    let tbl := { tbl with hash := links.head, keys := int32 (tbl.keys + 1) }
    let (h, tbl) ← growTable E h man tbl
    return (h, { man with subtables := Function.update man.subtables level (some tbl) })

/-- The search of `cdd_make_bdd_node` and `cdd_make_cdd_node` in the subtable of the level: the
bucket and the cursor. -/
def findNode (tbl : SubTable) (S : Search) (h : Heap) : Run (Cursor ℕ ℤ) :=
  S.find h ⟨tbl.hash, h.next⟩ (.head (S.hash / 2 ^ tbl.shift))

/-- What `cdd_make_bdd_node` and `cdd_make_cdd_node` have in common, from `kernel.c:630` and
`kernel.c:717` on. What `cdd_reclaim` does to the counts of a node that is found is not part of
it. -/
def makeNode (E : Env) (levelcnt level : ℕ) (S : Search) (h : Heap) (man : NodeManager) :
    Run (ℤ × Heap × NodeManager) := do
  let (tbl, man) := openSubtable man level
  let p ← findNode tbl S h
  let node := (Links.mk tbl.hash h.next).get p
  if h.key node = S.key then return (node, h, man)
  else
    let h' := { h with ref := S.children.foldl cddRef h.ref }
    let (node, h', man) ← cddAllocNode E levelcnt h' man
    let (h', man) ← insertNode E level S (S.hash / 2 ^ tbl.shift) p h.gbccnt node h' man
    return (node, h', man)

/-- The search of `cdd_make_bdd_node`, in two loops. -/
def bddSearch (E : Env) (low high : ℤ) : Search where
  key := [low, high]
  hash := bddHash low high
  children := [low, high]
  find := fun h links p ↦ do
    let p ← links.advance (fun node ↦ decide (low < h.low node)) E.fuel p
    links.advance (fun node ↦ decide (low = h.low node ∧ high < h.high node)) E.fuel p

/-- The search of `cdd_make_cdd_node`. For arrays of one length `memcmp` is the lexicographic
order. -/
def cddSearch (E : Env) (elem : List Elem) : Search where
  key := elemBytes elem
  hash := cddHash E (elemBytes elem) elem.length
  children := elem.map Elem.child
  find := fun h links p ↦
    links.advance (fun node ↦ decide (elemBytes elem < h.key node)) E.fuel p

/-! ### The library -/

/-- The node memory, `cdd_levelcnt`, `cdd_maxcddsize` and the node managers: at `0` that of the BDD
nodes, and at `n` that of the CDD nodes with `n` children. -/
structure Kernel where
  heap : Heap
  levelcnt : ℕ
  maxcddsize : ℕ
  managers : ℕ → Option NodeManager

/-- `sizeof(bddNode)`, and for `n` children `sizeof(cddNode) + sizeof(Elem) * n`. -/
def nodeBytes : ℕ → ℤ
  | 0 => 32
  | n + 1 => 16 + 16 * (n + 1)

/-- The number of words in the key of a node: two pointers, or the bytes of the elements. -/
def keyWords : ℕ → ℕ
  | 0 => 2
  | n + 1 => 16 * (n + 1)

namespace Kernel

/-- Give the kernel back its heap and one of its managers. -/
def put (k : Kernel) (i : ℕ) (s : Heap × NodeManager) : Kernel :=
  { k with heap := s.1, managers := Function.update k.managers i (some s.2) }

/-- The part of `cdd_init` that makes `bddmanager`. -/
def init (E : Env) (h : Heap) (maxsize : ℕ) : Run Kernel := do
  let s ← cddAllocNodemanager E 0 h (nodeBytes 0) (keyWords 0) bddHashFunc
  return put ⟨h, 0, maxsize, fun _ ↦ none⟩ 0 s

/-- The manager of the nodes with `len` children, which is made if there is none. -/
def openManager (E : Env) (k : Kernel) (len : ℕ) : Run Kernel :=
  match k.managers len with
  | some _ => return k
  | none => do
    let size := int32 (nodeBytes len)
    let s ← cddAllocNodemanager E k.levelcnt k.heap size (keyWords len) (cddHashFunc E size)
    return k.put len s

/-- `makeNode` in one of the managers. A level out of range is out of the array. -/
def make (E : Env) (k : Kernel) (i level : ℕ) (S : Search) : Run (ℤ × Kernel) :=
  match k.managers i with
  | none => .failed
  | some man =>
    if level < k.levelcnt then do
      let (node, s) ← makeNode E k.levelcnt level S k.heap man
      return (node, k.put i s)
    else .failed

/-- `cdd_make_bdd_node`. -/
def cddMakeBddNode (E : Env) (k : Kernel) (level : ℕ) (low high : ℤ) : Run (ℤ × Kernel) :=
  if low = high then return (low, k)
  else do
    let mask := cddMask low
    let (node, k) ← k.make E 0 level (bddSearch E (cddRglr low) (cddNegCond high mask))
    return (cddNegCond node mask, k)

/-- `cdd_make_cdd_node`. -/
def cddMakeCddNode (E : Env) (k : Kernel) (level : ℕ) (elem : List Elem) : Run (ℤ × Kernel) :=
  if k.maxcddsize < elem.length then return (0, k)
  else
    match elem with
    | [e] => return (e.child, k)
    | elem => do
      let k ← k.openManager E elem.length
      k.make E elem.length level (cddSearch E elem)

/-- `makeNode` in a manager that is there, at a level that is declared. -/
theorem make_eq {E : Env} {k : Kernel} {i level : ℕ} {S : Search} {man : NodeManager}
    (hman : k.managers i = some man) (hlevel : level < k.levelcnt) :
    k.make E i level S = (do
      let (node, s) ← makeNode E k.levelcnt level S k.heap man
      return (node, k.put i s)) := by
  simp only [make, hman, if_pos hlevel]

end Kernel

/-- What changes the node memory, from one call to the next. The counts of the nodes are changed
by `cdd_ref`, `cdd_rec_deref` and `cdd_reclaim`, in whatever way, and the last two add to `deadcnt`
of a subtable what they add to that of its manager. -/
inductive KernelCall where
  | makeBddNode (level : ℕ) (low high : ℤ)
  | makeCddNode (level : ℕ) (elem : List Elem)
  | gbcNodemanager (i : ℕ)
  | addLevels (n : ℕ)
  | reference (ref : ℤ → ℕ)
  | tally (i level : ℕ) (dead : ℤ)

namespace Kernel

/-- One call. -/
def call (E : Env) (k : Kernel) : KernelCall → Run Kernel
  | .makeBddNode level low high => do return (← k.cddMakeBddNode E level low high).2
  | .makeCddNode level elem => do return (← k.cddMakeCddNode E level elem).2
  | .gbcNodemanager i =>
    match k.managers i with
    | none => return k
    | some man => do return k.put i (← cddGbcNodemanager E k.levelcnt k.heap man)
  | .addLevels n => return { k with levelcnt := k.levelcnt + n }
  | .reference ref => return { k with heap := { k.heap with ref } }
  | .tally i level dead =>
    match k.managers i with
    | none => .failed
    | some man =>
      match man.subtables level with
      | none => .failed
      | some tbl => return k.put i (k.heap,
        { man with
          usedcnt := int32 (man.usedcnt - dead)
          deadcnt := int32 (man.deadcnt + dead)
          subtables := Function.update man.subtables level
            (some { tbl with deadcnt := int32 (tbl.deadcnt + dead) }) })

/-- A run of calls. -/
def run (E : Env) (k : Kernel) : List KernelCall → Run Kernel
  | [] => return k
  | c :: cs => do (← k.call E c).run E cs

end Kernel

end NodeTable

end UCDD

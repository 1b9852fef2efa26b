import UCDD.Diagram.Apply
import UCDD.Output.Marks

/-!
# Marks over whole runs

The mark bits of the node memory, `kernel.c:398–768`. A chunk comes from `memalign` with whatever
its bytes are; a node takes over a cell with the bit that it finds there, and a node that is swept
leaves its bit in the cell.
-/

namespace UCDD

open DdNode Counter

/-- The nodes in the unique tables, the number of extra terminals, the marks of both, and for each
node manager the mark bits of the cells on its free list. Manager `0` is that of the Boolean nodes,
and manager `n` that of the CDD nodes with `n` children. -/
structure NodeMemory where
  stored : Finset DdNode
  xterms : ℕ
  marks : Marks
  free : ℕ → List Bool

/-- The node manager of a node. -/
def managerOf : DdNode → ℕ
  | .cdd _ _ elem => elem.length
  | _ => 0

/-- What changes the node memory. A public operation makes nodes, takes chunks and sweeps. -/
inductive MemoryCall where
  | allocChunk (man : ℕ) (flags : List Bool)
  | allocSentinel (man : ℕ)
  | makeNode (d : DdNode)
  | sweep (d : DdNode)
  | addTautologies (n : ℕ)
  | nodecount (d : DdNode)
  | edgecount (d : DdNode)
  | fprintdot (d : DdNode) (pushNegate : Bool)
  | fprintCode (d : DdNode)
  | fprintGraph (d : DdNode)

namespace NodeMemory

/-- The memory after `cdd_init`. -/
def init : NodeMemory := ⟨∅, 0, ∅, fun _ ↦ []⟩

/-- A well-formed diagram of stored nodes. -/
def Holds (L : Library) (m : NodeMemory) (d : DdNode) : Prop :=
  L.WellFormed m.xterms d ∧ innerNodes d ⊆ m.stored

instance (L : Library) (m : NodeMemory) (d : DdNode) : Decidable (m.Holds L d) :=
  inferInstanceAs (Decidable (_ ∧ _))

/-- `cdd_alloc_node` once a cell is there: the mark bit of the cell, and the other cells. -/
def allocNode (m : NodeMemory) (man : ℕ) : Option (Bool × NodeMemory) :=
  match m.free man with
  | [] => none
  | flag :: flags => some (flag, { m with free := Function.update m.free man flags })

/-- A node that is not in the table yet, `kernel.c:656–683` and `kernel.c:735–760`: the field `flag`
stays as it is. -/
def newNode (m : NodeMemory) (d : DdNode) : Option NodeMemory := do
  let (flag, m) ← m.allocNode (managerOf d)
  return { m with
    stored := insert d m.stored
    marks := if flag then cddSetmark m.marks d else m.marks }

/-- A node that a sweep of its manager frees, `kernel.c:522–524`. -/
def freeNode (m : NodeMemory) (d : DdNode) : NodeMemory :=
  { m with
    stored := m.stored.erase d
    marks := cddResetmark m.marks d
    free := Function.update m.free (managerOf d)
      (cddIsmarked m.marks d :: m.free (managerOf d)) }

/-- A traversal of a diagram. -/
def traverse (L : Library) (m : NodeMemory) (d : DdNode) (marks : Marks) : Option NodeMemory :=
  if m.Holds L d then some { m with marks } else none

/-- One call. -/
def call (L : Library) (m : NodeMemory) : MemoryCall → Option NodeMemory
  | .allocChunk man flags => some { m with
      free := Function.update m.free man (flags ++ m.free man) }
  | .allocSentinel man => (m.allocNode man).map (·.2)
  | .makeNode d =>
    if d ∈ m.stored then some m
    else if L.WellFormed m.xterms d ∧ innerNodes d ⊆ insert d m.stored then m.newNode d
    else none
  | .sweep d => if d ∈ m.stored then some (m.freeNode d) else none
  | .addTautologies n => some { m with xterms := m.xterms + n }
  | .nodecount d => m.traverse L d (cddNodecount m.marks d).2
  | .edgecount d => m.traverse L d (cddEdgecount m.marks d).2
  | .fprintdot d pushNegate => m.traverse L d (cddFprintdot m.marks d pushNegate).2
  | .fprintCode d => m.traverse L d (cddFprintCode m.marks d).2
  | .fprintGraph d => m.traverse L d (cddFprintGraph m.marks d).2

/-- A run of calls. -/
def run (L : Library) (m : NodeMemory) (calls : List MemoryCall) : Option NodeMemory :=
  calls.foldlM (call L) m

/-- Nothing is marked, on the free lists neither. -/
structure Clear (m : NodeMemory) : Prop where
  marks : m.marks = ∅
  free : ∀ man, ∀ flag ∈ m.free man, flag = false

end NodeMemory

/-- The mark bits in the memory of a new chunk are clear. -/
def MemoryCall.Clear : MemoryCall → Prop
  | .allocChunk _ flags => ∀ flag ∈ flags, flag = false
  | _ => True

section

variable {L : Library} {m m' : NodeMemory} {d : DdNode}

open NodeMemory

theorem NodeMemory.Clear.update (h : m.Clear) {man : ℕ} {flags : List Bool}
    (hf : ∀ flag ∈ flags, flag = false) : ∀ man', ∀ flag ∈ Function.update m.free man flags man',
      flag = false := by
  intro man' flag hflag
  by_cases hman : man' = man
  · rw [hman, Function.update_self] at hflag
    exact hf flag hflag
  · rw [Function.update_of_ne hman] at hflag
    exact h.free man' flag hflag

theorem NodeMemory.Clear.allocNode (h : m.Clear) {man : ℕ} {flag : Bool}
    (ha : m.allocNode man = some (flag, m')) : flag = false ∧ m'.Clear := by
  unfold NodeMemory.allocNode at ha
  cases hfree : m.free man with
  | nil =>
    rw [hfree] at ha
    cases ha
  | cons first flags =>
    rw [hfree] at ha
    cases ha
    have hall := h.free man
    rw [hfree, List.forall_mem_cons] at hall
    exact ⟨hall.1, h.marks, h.update hall.2⟩

theorem NodeMemory.Clear.freeNode (h : m.Clear) (d : DdNode) : (m.freeNode d).Clear := by
  constructor
  · rw [NodeMemory.freeNode, h.marks]
    rfl
  · apply h.update
    rw [List.forall_mem_cons]
    refine ⟨?_, h.free _⟩
    rw [h.marks]
    rfl

theorem NodeMemory.Clear.traverse (h : m.Clear) {marks : Marks}
    (hm : m.Holds L d → marks = ∅) (ht : m.traverse L d marks = some m') : m'.Clear := by
  unfold NodeMemory.traverse at ht
  split_ifs at ht with hd
  cases ht
  exact ⟨hm hd, h.free⟩

/-- One call keeps the memory clear, if it brings no marks from outside. -/
theorem NodeMemory.Clear.call (h : m.Clear) {c : MemoryCall} (hc : c.Clear)
    (hcall : m.call L c = some m') : m'.Clear := by
  cases c with
  | allocChunk man flags =>
    cases hcall
    refine ⟨h.marks, h.update ?_⟩
    rw [List.forall_mem_append]
    exact ⟨hc, h.free man⟩
  | allocSentinel man =>
    obtain ⟨⟨flag, m₁⟩, ha, rfl⟩ := Option.map_eq_some_iff.mp hcall
    exact (h.allocNode ha).2
  | makeNode d =>
    rw [NodeMemory.call] at hcall
    split_ifs at hcall
    · cases hcall
      exact h
    · obtain ⟨⟨flag, m₁⟩, ha, hnew⟩ := Option.bind_eq_some_iff.mp hcall
      obtain ⟨rfl, h₁⟩ := h.allocNode ha
      cases hnew
      exact ⟨h₁.marks, h₁.free⟩
  | sweep d =>
    rw [NodeMemory.call] at hcall
    split_ifs at hcall
    cases hcall
    exact h.freeNode d
  | addTautologies n =>
    cases hcall
    exact ⟨h.marks, h.free⟩
  | nodecount d =>
    refine h.traverse (fun _ ↦ ?_) hcall
    rw [h.marks, cddNodecount_spec]
  | edgecount d =>
    refine h.traverse (fun _ ↦ ?_) hcall
    rw [h.marks, cddEdgecount_spec]
  | fprintdot d pushNegate =>
    refine h.traverse (fun hd ↦ ?_) hcall
    rw [h.marks, cddFprintdot_marks hd.1]
  | fprintCode d =>
    refine h.traverse (fun _ ↦ ?_) hcall
    rw [h.marks, cddFprintCode_marks]
  | fprintGraph d =>
    refine h.traverse (fun _ ↦ ?_) hcall
    rw [h.marks, cddFprintGraph_marks]

theorem NodeMemory.Clear.run (h : m.Clear) {calls : List MemoryCall}
    (hc : ∀ c ∈ calls, c.Clear) (hrun : m.run L calls = some m') : m'.Clear := by
  induction calls generalizing m with
  | nil =>
    cases hrun
    exact h
  | cons c calls ih =>
    rw [List.forall_mem_cons] at hc
    obtain ⟨m₁, hcall, hrest⟩ := Option.bind_eq_some_iff.mp (List.foldlM_cons.symm.trans hrun)
    exact ih (h.call hc.1 hcall) hc.2 hrest

/-- The Boolean of level 1. -/
def sampleBool : DdNode := .bdd false 1 cddfalse cddtrue

/-- The Boolean is made in a chunk with one cell. -/
def markSample (flag : Bool) : List MemoryCall := [.allocChunk 0 [flag], .makeNode sampleBool]

theorem run_markSample (flag : Bool) :
    ∃ m, NodeMemory.init.run sampleLibrary (markSample flag) = some m ∧
      m.Holds sampleLibrary sampleBool ∧ m.marks = if flag then {sampleBool} else ∅ := by
  have hwf : sampleLibrary.WellFormed 0 sampleBool := by decide
  have hinner : innerNodes sampleBool = {sampleBool} := rfl
  cases flag with
  | false =>
    refine ⟨_, rfl, ⟨hwf, ?_⟩, rfl⟩
    exact hinner ▸ Finset.Subset.refl _
  | true =>
    refine ⟨_, rfl, ⟨hwf, ?_⟩, rfl⟩
    exact hinner ▸ Finset.Subset.refl _

end

end UCDD

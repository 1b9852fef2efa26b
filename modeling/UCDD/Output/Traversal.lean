import Mathlib.Data.Finset.Basic
import UCDD.Diagram.Node
import UCDD.Lib.Int32

/-!
# Marks

The mark bit of the nodes and the functions that follow it, `kernel.c:899–1007`. The bit belongs
to the stored node, so it is looked up under the regular pointer.
-/

namespace UCDD

open DdNode Counter

/-- The nodes whose mark bit is set. -/
abbrev Marks := Finset DdNode

/-- `cdd_ismarked`. -/
def cddIsmarked (M : Marks) (d : DdNode) : Bool := cddRglr d ∈ M

/-- `cdd_setmark`. -/
def cddSetmark (M : Marks) (d : DdNode) : Marks := insert (cddRglr d) M

/-- `cdd_resetmark`. -/
def cddResetmark (M : Marks) (d : DdNode) : Marks := M.erase (cddRglr d)

mutual

/-- The recursion of `cdd_markcount` and `cdd_markedgecount`, which add `node` for a node that
was not marked and `edge` for each edge out of it. -/
def markAdd (node edge : ℤ) : DdNode → Marks × ℤ → Marks × ℤ
  | .terminal _, s | .xterm _ _, s => s
  | .bdd neg level low high, (M, cnt) =>
    if cddIsmarked M (.bdd neg level low high) then (M, cnt)
    else
      let s := (cddSetmark M (.bdd neg level low high), int32 (cnt + (node + 2 * edge)))
      markAdd node edge high (markAdd node edge low s)
  | .cdd neg level elem, (M, cnt) =>
    if cddIsmarked M (.cdd neg level elem) then (M, cnt)
    else markAddElem node edge elem (cddSetmark M (.cdd neg level elem), int32 (cnt + node))

/-- The loop over the children of a CDD node. -/
def markAddElem (node edge : ℤ) : List (DdNode × Raw) → Marks × ℤ → Marks × ℤ
  | [], s => s
  | (child, _) :: es, (M, cnt) =>
    markAddElem node edge es (markAdd node edge child (M, int32 (cnt + edge)))

end

/-- `cdd_markcount`. -/
def cddMarkcount : DdNode → Marks × ℤ → Marks × ℤ := markAdd 1 0

/-- `cdd_markedgecount`. -/
def cddMarkedgecount : DdNode → Marks × ℤ → Marks × ℤ := markAdd 0 1

mutual

/-- The recursion of `cdd_unmark` and `cdd_force_unmark`. Only the first stops at a node that is
not marked. -/
def clearMarks (force : Bool) : DdNode → Marks → Marks
  | .terminal _, M => M
  | .xterm neg id, M => if cddIsmarked M (.xterm neg id) || force then
      cddResetmark M (.xterm neg id) else M
  | .bdd neg level low high, M => if cddIsmarked M (.bdd neg level low high) || force then
      clearMarks force high (clearMarks force low (cddResetmark M (.bdd neg level low high)))
      else M
  | .cdd neg level elem, M => if cddIsmarked M (.cdd neg level elem) || force then
      clearMarksElem force elem (cddResetmark M (.cdd neg level elem)) else M

/-- The loop over the children of a CDD node. -/
def clearMarksElem (force : Bool) : List (DdNode × Raw) → Marks → Marks
  | [], M => M
  | (child, _) :: es, M => clearMarksElem force es (clearMarks force child M)

end

/-- `cdd_unmark`. -/
def cddUnmark : DdNode → Marks → Marks := clearMarks false

/-- `cdd_force_unmark`. -/
def cddForceUnmark : DdNode → Marks → Marks := clearMarks true

/-- `cdd_nodecount`: the number returned and the marks left. -/
def cddNodecount (M : Marks) (d : DdNode) : ℤ × Marks :=
  let (M, cnt) := cddMarkcount d (M, 0)
  (cnt, cddUnmark d M)

/-- `cdd_edgecount`. -/
def cddEdgecount (M : Marks) (d : DdNode) : ℤ × Marks :=
  let (M, cnt) := cddMarkedgecount d (M, 0)
  (cnt, cddUnmark d M)

@[simp] theorem cddIsmarked_iff {M : Marks} {d : DdNode} :
    cddIsmarked M d = true ↔ cddRglr d ∈ M := by
  simp [cddIsmarked]

@[simp] theorem mem_cddSetmark {M : Marks} {c d : DdNode} :
    c ∈ cddSetmark M d ↔ c = cddRglr d ∨ c ∈ M := by
  simp [cddSetmark]

@[simp] theorem mem_cddResetmark {M : Marks} {c d : DdNode} :
    c ∈ cddResetmark M d ↔ c ≠ cddRglr d ∧ c ∈ M := by
  simp [cddResetmark]

end UCDD

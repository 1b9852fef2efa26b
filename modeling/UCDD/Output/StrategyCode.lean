import UCDD.Output.Traversal

/-!
# Diagrams as code

`cdd_fprint_code` and `cdd_fprint_graph`, `print.c:284–492`. A Boolean node becomes a line that
tests several Booleans at once: as long as a child shares the branch not taken, it is folded into
the test of its parent.
-/

namespace UCDD

open DdNode

/-- What `print_node2label` writes: `_error`, `_action<id>` or the label of a node. -/
inductive CodeLabel where
  | error
  | action (id : ℕ)
  | node (node : DdNode)
  deriving DecidableEq

/-- `print_node2label`. -/
def printNode2label (node : DdNode) : CodeLabel :=
  match node with
  | .terminal false => .error
  | .xterm _ id => .action id
  | node => .node node

/-- A line of the output. The two clocks that are printed are those of the level, and the bits
of a test are given by the levels. -/
inductive CodeLine where
  | dotAction (r : DdNode) (id : ℕ)
  | dotDiff (node : DdNode) (level : ℕ)
  | dotInterval (node child : DdNode) (dashed : Bool) (lower upper : Raw)
  | dotNode (node : DdNode)
  | dotEdge (node child : DdNode) (dashed : Bool)
  | ifInterval (node : DdNode) (level : ℕ) (lower upper : Raw) (target : CodeLabel)
  | elseError
  | ifMask (node : DdNode) (mask value : Finset ℕ) (current other : CodeLabel)

/-- `infor_`. -/
structure Infor where
  current : DdNode
  other : DdNode
  mask : Finset ℕ
  value : Finset ℕ
  stringFound : Bool

/-- The marks and what is printed so far. -/
structure Dump where
  marks : Marks
  out : List CodeLine

namespace Dump

/-- `fprintf`. -/
def print (s : Dump) (lines : List CodeLine) : Dump := { s with out := s.out ++ lines }

/-- `cdd_setmark`. -/
def setmark (s : Dump) (r : DdNode) : Dump := { s with marks := cddSetmark s.marks r }

end Dump

/-- The lines for a Boolean node, `print.c:412–431`. -/
def printTest (dotFormat : Bool) (node : DdNode) (myInfo : Infor) : List CodeLine :=
  if dotFormat then
    .dotNode node ::
      (if myInfo.current ≠ cddfalse then [.dotEdge node myInfo.current false] else []) ++
      if myInfo.other ≠ cddfalse then [.dotEdge node myInfo.other true] else []
  else
    [.ifMask node myInfo.mask myInfo.value (printNode2label myInfo.current)
      (printNode2label myInfo.other)]

/-- The line for a child of a CDD node, `print.c:346–366`. -/
def printChild (dotFormat : Bool) (node : DdNode) (level : ℕ) (child : DdNode)
    (lower upper : Raw) : CodeLine :=
  if dotFormat then .dotInterval node (cddRglr child) (cddMask child) lower upper
  else .ifInterval node level lower upper (printNode2label (cddRglr child))

mutual

/-- `cdd_freduce_dump_rec` for the pointer `cddNegCond d m`. The record of the parent, when
there is one, comes back with the changes made to it. -/
def cddFreduceDumpRec (dotFormat : Bool) : DdNode → Bool → Option Infor → Dump →
    Option Infor × Dump
  | .terminal _, _, parentInfo, s => (parentInfo, s)
  | .xterm neg id, m, parentInfo, s =>
    if cddIsmarked s.marks (.xterm neg id) then (parentInfo, s)
    else
      let s := s.print (if dotFormat then [.dotAction (.xterm (neg ^^ m) id) id] else [])
      (parentInfo, s.setmark (.xterm neg id))
  | .cdd neg level elem, _, parentInfo, s =>
    if cddIsmarked s.marks (.cdd neg level elem) then (parentInfo, s)
    else
      let node := .cdd false level elem
      let s := s.print (if dotFormat then [.dotDiff node level] else [])
      let (ifstatement, s) := cddFreduceDumpElem dotFormat node level elem (-INF) false s
      let s := s.print (if ifstatement then [.elseError] else [])
      (parentInfo, s.setmark node)
  | .bdd neg level low high, _, parentInfo, s =>
    if cddIsmarked s.marks (.bdd neg level low high) then (parentInfo, s)
    else
      let node := .bdd false level low high
      match parentInfo.filter fun p ↦ p.other = high || p.other = low with
      | none =>
        -- no possible reduction: first the low child, then the high one
        let myInfo : Infor := ⟨low, high, {level}, ∅, false⟩
        let (info, s) := cddFreduceDumpRec dotFormat low false (some myInfo) s
        let myInfo := info.getD myInfo
        let (info, s) :=
          if myInfo.stringFound then
            (some myInfo, (cddFreduceDumpRec dotFormat high false none s).2)
          else
            cddFreduceDumpRec dotFormat high false (some { myInfo with
              current := high
              other := low
              value := insert level myInfo.value }) s
        let s := s.print (printTest dotFormat node (info.getD myInfo))
        (parentInfo, s.setmark node)
      | some p =>
        let p := { p with stringFound := true, mask := insert level p.mask }
        if p.other = high then
          let (info, s) := cddFreduceDumpRec dotFormat low false
            (some { p with current := low }) s
          (info, (cddFreduceDumpRec dotFormat high false none s).2)
        else
          let (info, s) := cddFreduceDumpRec dotFormat high false
            (some { p with current := high, value := insert level p.value }) s
          (info, (cddFreduceDumpRec dotFormat low false none s).2)

/-- The loop over the children of a CDD node. The flag is `ifstatement`. -/
def cddFreduceDumpElem (dotFormat : Bool) (node : DdNode) (level : ℕ) :
    List (DdNode × Raw) → Raw → Bool → Dump → Bool × Dump
  | [], _, ifstatement, s => (ifstatement, s)
  | (child, upper) :: es, lower, ifstatement, s =>
    let (ifstatement, s) :=
      if child = cddfalse then (ifstatement, s)
      else
        let s := (cddFreduceDumpRec dotFormat child (cddMask child) none s).2
        (ifstatement || !dotFormat, s.print [printChild dotFormat node level child lower upper])
    if upper < INF then cddFreduceDumpElem dotFormat node level es upper ifstatement s
    else (ifstatement, s)

end

/-- The output of `cdd_fprint_code`: the label of the first `goto`, and the lines. -/
structure PrintedCode where
  start : CodeLabel
  lines : List CodeLine

/-- `cdd_fprint_code`, with the marks it leaves. -/
def cddFprintCode (M : Marks) (r : DdNode) : PrintedCode × Marks :=
  let s := (cddFreduceDumpRec false r (cddMask r) none ⟨M, []⟩).2
  (⟨.node r, s.out⟩, cddForceUnmark r s.marks)

/-- `cdd_fprint_graph`, with the marks it leaves. -/
def cddFprintGraph (M : Marks) (r : DdNode) : List CodeLine × Marks :=
  let s := (cddFreduceDumpRec true r (cddMask r) none ⟨M, []⟩).2
  (s.out, cddForceUnmark r s.marks)

/-! ### Executing the code -/

/-- The variables under the mask equal the value. -/
def Matches (a : Assignment) (mask value : Finset ℕ) : Prop :=
  ∀ level ∈ mask, a.bool level = decide (level ∈ value)

instance (a : Assignment) (mask value : Finset ℕ) : Decidable (Matches a mask value) :=
  inferInstanceAs (Decidable (∀ level ∈ mask, a.bool level = decide (level ∈ value)))

/-- The label a line starts with. -/
def CodeLine.label : CodeLine → Option DdNode
  | .ifInterval node _ _ _ _ | .ifMask node _ _ _ _ => some node
  | _ => none

/-- The labels a line jumps to. -/
def CodeLine.targets : CodeLine → List CodeLabel
  | .ifInterval _ _ _ _ target => [target]
  | .elseError => [.error]
  | .ifMask _ _ _ current other => [current, other]
  | _ => []

/-- The labels that the lines define, with repetitions. -/
def definedLabels (lines : List CodeLine) : List DdNode := lines.filterMap CodeLine.label

namespace PrintedCode

variable (code : PrintedCode)

/-- The labels that are jumped to. -/
def targets : List CodeLabel := code.start :: code.lines.flatMap CodeLine.targets

/-- One jump from the line with the label of a node. -/
def jump (a : Assignment) (node : DdNode) : Option CodeLabel :=
  match code.lines.find? fun line ↦ line.label = some node with
  | some (.ifMask _ mask value current other) =>
    some (if Matches a mask value then current else other)
  | _ => none

/-- The run from a label, with a bound on the jumps. -/
def execute (a : Assignment) : ℕ → CodeLabel → Option CodeLabel
  | _, .error => some .error
  | _, .action id => some (.action id)
  | 0, .node _ => none
  | n + 1, .node node => (code.jump a node).bind (execute a n)

end PrintedCode

/-! ### What is printed -/

/-- The ordered and reduced Boolean diagrams without negations whose terminals are `cddfalse`
or extra terminals. -/
inductive Strategy : DdNode → Prop
  | cddfalse : Strategy cddfalse
  | xterm id : Strategy (.xterm false id)
  | bdd {level low high} : level < low.level → level < high.level → low ≠ high → Strategy low →
    Strategy high → Strategy (.bdd false level low high)

section

variable {d : DdNode} {s s' t : Dump} {lines lines' : List CodeLine}

/-- A fresh level is fixed by the test to the value it gets there. -/
theorem matches_insert {a : Assignment} {mask value : Finset ℕ} {level : ℕ}
    (hmask : level ∉ mask) (hvalue : value ⊆ mask) (b : Bool) :
    Matches a (insert level mask) (bif b then insert level value else value) ↔
      a.bool level = b ∧ Matches a mask value := by
  have hlevel : level ∉ value := fun h ↦ hmask (hvalue h)
  have hmem : ∀ ℓ ∈ mask, ℓ ∈ (bif b then insert level value else value) ↔ ℓ ∈ value := by
    intro ℓ hℓ
    have hne : ℓ ≠ level := fun h ↦ hmask (h ▸ hℓ)
    cases b <;> simp [hne]
  have hself : level ∈ (bif b then insert level value else value) ↔ b = true := by
    cases b <;> simp [hlevel]
  unfold Matches
  rw [Finset.forall_mem_insert]
  simp only [hself, Bool.decide_eq_true]
  constructor
  · intro h
    refine ⟨h.1, fun ℓ hℓ ↦ ?_⟩
    rw [h.2 ℓ hℓ, decide_eq_decide]
    exact hmem ℓ hℓ
  · intro h
    refine ⟨h.1, fun ℓ hℓ ↦ ?_⟩
    rw [h.2 ℓ hℓ, decide_eq_decide]
    exact (hmem ℓ hℓ).symm

/-- A jump to the node finds a label. -/
def Defined (lines : List CodeLine) (d : DdNode) : Prop :=
  cddIsterminal d = true ∨ d ∈ definedLabels lines

theorem Defined.mono (h : Defined lines d) (hl : definedLabels lines ⊆ definedLabels lines') :
    Defined lines' d :=
  h.imp_right (hl ·)

/-- A node that the code of `node` may jump to. -/
structure Target (lines : List CodeLine) (node d : DdNode) : Prop where
  strategy : Strategy d
  level_lt : node.level < d.level
  defined : Defined lines d

theorem Target.mono {node : DdNode} (h : Target lines node d)
    (hl : definedLabels lines ⊆ definedLabels lines') : Target lines' node d :=
  ⟨h.strategy, h.level_lt, h.defined.mono hl⟩

/-- The line tests some Booleans and jumps to the node that reaches the same terminal. -/
inductive Decides (lines : List CodeLine) : CodeLine → Prop
  | ifMask {node current other : DdNode} {mask value : Finset ℕ} : Target lines node current →
    Target lines node other → (∀ a, reach a node =
      if Matches a mask value then reach a current else reach a other) →
    Decides lines (.ifMask node mask value (printNode2label current) (printNode2label other))

theorem Decides.mono {line : CodeLine} (h : Decides lines line)
    (hl : definedLabels lines ⊆ definedLabels lines') : Decides lines' line := by
  cases h with
  | ifMask hc ho hr => exact .ifMask (hc.mono hl) (ho.mono hl) hr

namespace Dump

/-- Each inner node that is marked has its line, and the lines decide as the nodes do. -/
structure Printed (s : Dump) : Prop where
  nodup : (definedLabels s.out).Nodup
  inner : ∀ c ∈ definedLabels s.out, cddIsterminal c = false ∧ c ∈ s.marks
  marked : ∀ c ∈ s.marks, Defined s.out c
  decides : ∀ line ∈ s.out, Decides s.out line

/-- The labels that are new are of nodes from the level on. -/
structure Grows (level : ℕ) (s s' : Dump) : Prop where
  subset : definedLabels s.out ⊆ definedLabels s'.out
  fresh : ∀ c ∈ definedLabels s'.out, c ∈ definedLabels s.out ∨ level ≤ c.level

theorem Grows.refl (level : ℕ) (s : Dump) : Grows level s s :=
  ⟨List.Subset.refl _, fun _ hc ↦ .inl hc⟩

theorem Grows.trans {level : ℕ} (h : Grows level s s') (h' : Grows level s' t) :
    Grows level s t := by
  constructor
  · exact List.Subset.trans h.subset h'.subset
  · intro c hc
    cases h'.fresh c hc with
    | inl hc => exact h.fresh c hc
    | inr hc => exact .inr hc

theorem Grows.mono {level level' : ℕ} (h : Grows level s s') (hl : level' ≤ level) :
    Grows level' s s' := by
  constructor
  · exact h.subset
  · intro c hc
    exact (h.fresh c hc).imp_right fun hc ↦ le_trans hl hc

end Dump

/-- What a call with the child `d` leaves in the record of the parent: the tests of the nodes
folded so far, and the first node below them that was not folded. -/
structure Explored (lines : List CodeLine) (d : DdNode) (p p' : Infor) (mask value : Finset ℕ) :
    Prop where
  other_eq : p'.other = p.other
  mask_eq : p'.mask = mask ∪ p.mask
  value_eq : p'.value = value ∪ p.value
  levels : ∀ level ∈ mask, d.level ≤ level
  subset : value ⊆ mask
  strategy : Strategy p'.current
  level_le : d.level ≤ p'.current.level
  defined : Defined lines p'.current
  unfolded : p'.stringFound = false → p' = p
  reach : ∀ a, reach a d = if Matches a mask value then reach a p'.current else reach a p.other

/-- The child is not folded. -/
theorem Explored.kept {p : Infor} (hp : p.current = d) (hd : Strategy d)
    (hdef : Defined lines d) : Explored lines d p p ∅ ∅ where
  other_eq := rfl
  mask_eq := (Finset.empty_union _).symm
  value_eq := (Finset.empty_union _).symm
  levels := by simp
  subset := Finset.Subset.refl _
  strategy := hp ▸ hd
  level_le := hp ▸ le_rfl
  defined := hp ▸ hdef
  unfolded _ := rfl
  reach a := by simp [Matches, hp]

theorem Explored.mono {p p' : Infor} {mask value : Finset ℕ} (h : Explored lines d p p' mask value)
    (hl : definedLabels lines ⊆ definedLabels lines') : Explored lines' d p p' mask value :=
  { h with defined := h.defined.mono hl }

/-- The two children of a node, the one that is explored and the one that is shared. -/
theorem reach_bdd (a : Assignment) (level : ℕ) (low high : DdNode) (b : Bool) :
    reach a (.bdd false level low high) =
      if a.bool level = b then reach a (bif b then high else low)
      else reach a (bif b then low else high) := by
  rw [reach, cddNegCond_false]
  cases b <;> cases a.bool level <;> rfl

/-- A test that starts at a child, extended by the node. -/
theorem reach_test {a : Assignment} {level : ℕ} {low high current : DdNode} (b : Bool)
    {mask value : Finset ℕ} (hmask : level ∉ mask) (hvalue : value ⊆ mask)
    (h : reach a (bif b then high else low) = if Matches a mask value then reach a current
      else reach a (bif b then low else high)) :
    reach a (.bdd false level low high) =
      if Matches a (insert level mask) (bif b then insert level value else value)
      then reach a current else reach a (bif b then low else high) := by
  rw [reach_bdd a level low high b, h, ← ite_and]
  simp only [matches_insert hmask hvalue]

/-- The node is folded into the test of its parent, which goes on with one of the children. -/
theorem Explored.fold {level : ℕ} {low high : DdNode} (b : Bool) {p p' : Infor}
    {mask value : Finset ℕ} (hother : p.other = bif b then low else high)
    (hlevel : level < (bif b then high else low).level)
    (h : Explored lines (bif b then high else low)
      ⟨bif b then high else low, p.other, insert level p.mask,
        bif b then insert level p.value else p.value, true⟩ p' mask value) :
    Explored lines (.bdd false level low high) p p' (insert level mask)
      (bif b then insert level value else value) := by
  have hfresh : level ∉ mask := fun hm ↦ absurd (h.levels level hm) (Nat.not_le.mpr hlevel)
  constructor
  · exact h.other_eq
  · rw [h.mask_eq, Finset.union_insert, Finset.insert_union]
  · rw [h.value_eq]
    cases b
    · rfl
    · exact (Finset.union_insert _ _ _).trans (Finset.insert_union _ _ _).symm
  · intro ℓ hℓ
    rw [Finset.mem_insert] at hℓ
    cases hℓ with
    | inl hℓ => exact hℓ.ge
    | inr hℓ => exact le_trans hlevel.le (h.levels ℓ hℓ)
  · cases b
    · exact h.subset.trans (Finset.subset_insert _ _)
    · exact Finset.insert_subset_insert _ h.subset
  · exact h.strategy
  · exact le_trans hlevel.le h.level_le
  · exact h.defined
  · intro hf
    rw [h.unfolded hf] at hf
    cases hf
  · intro a
    have hr := h.reach a
    rw [hother] at hr ⊢
    exact reach_test b hfresh h.subset hr

/-- The line that is printed for a node, after the exploration of one child. -/
theorem Explored.decides {level : ℕ} {low high : DdNode} (b : Bool) {p' : Infor}
    {mask value : Finset ℕ} (hlevel : level < (bif b then high else low).level)
    (hother : Target lines (.bdd false level low high) (bif b then low else high))
    (h : Explored lines (bif b then high else low)
      ⟨bif b then high else low, bif b then low else high, {level}, bif b then insert level ∅ else ∅, false⟩
      p' mask value) :
    Decides lines (.ifMask (.bdd false level low high) p'.mask p'.value
      (printNode2label p'.current) (printNode2label p'.other)) := by
  have hfresh : level ∉ mask := fun hm ↦ absurd (h.levels level hm) (Nat.not_le.mpr hlevel)
  have ho : p'.other = bif b then low else high := h.other_eq
  refine .ifMask ⟨h.strategy, lt_of_lt_of_le hlevel h.level_le, h.defined⟩ (ho ▸ hother) ?_
  intro a
  have hmask : p'.mask = insert level mask := by
    rw [h.mask_eq, Finset.union_comm]
    rfl
  have hvalue : p'.value = bif b then insert level value else value := by
    rw [h.value_eq]
    cases b
    · exact Finset.union_empty _
    · exact Finset.union_comm _ _
  rw [hmask, hvalue, ho]
  exact reach_test b hfresh h.subset (h.reach a)

namespace Dump

theorem Printed.init (M : Marks) (hM : M = ∅) : Printed ⟨M, []⟩ := by
  subst hM
  exact ⟨List.nodup_nil, nofun, nofun, nofun⟩

/-- Marking a terminal. -/
theorem Printed.setmark (h : s.Printed) {r : DdNode} (hr : cddIsterminal r = true) :
    (s.setmark r).Printed := by
  constructor
  · exact h.nodup
  · intro c hc
    exact ⟨(h.inner c hc).1, mem_cddSetmark.mpr (.inr (h.inner c hc).2)⟩
  · intro c hc
    rw [Dump.setmark, mem_cddSetmark] at hc
    cases hc with
    | inl hc =>
      subst hc
      exact .inl ((cddIsterminal_negCond r _).trans hr)
    | inr hc => exact h.marked c hc
  · exact h.decides

variable {node : DdNode} {mask value : Finset ℕ} {current other : CodeLabel}

theorem definedLabels_print (s : Dump) (node : DdNode) (mask value : Finset ℕ)
    (current other : CodeLabel) :
    definedLabels (s.print [.ifMask node mask value current other]).out =
      definedLabels s.out ++ [node] := by
  rw [Dump.print, definedLabels, List.filterMap_append]
  rfl

/-- The line of a node, after the lines of the nodes below it. -/
theorem Printed.print (h : s.Printed) (hinner : cddIsterminal node = false)
    (hmask : cddMask node = false) (hnew : node ∉ definedLabels s.out)
    (hline : Decides s.out (.ifMask node mask value current other)) :
    ((s.print [.ifMask node mask value current other]).setmark node).Printed := by
  have hlabels := definedLabels_print s node mask value current other
  have hrglr : cddRglr node = node := by rw [cddRglr, hmask, cddNegCond_false]
  have hsub : definedLabels s.out ⊆
      definedLabels (s.print [.ifMask node mask value current other]).out := by
    rw [hlabels]
    exact List.subset_append_left _ _
  constructor
  · show (definedLabels (s.print [.ifMask node mask value current other]).out).Nodup
    rw [hlabels]
    exact List.nodup_append.mpr ⟨h.nodup, List.nodup_singleton _, by
      intro c hc c' hc' heq
      rw [List.mem_singleton] at hc'
      exact hnew (hc' ▸ heq ▸ hc)⟩
  · intro c hc
    have hc : c ∈ definedLabels (s.print [.ifMask node mask value current other]).out := hc
    rw [hlabels, List.mem_append, List.mem_singleton] at hc
    cases hc with
    | inl hc => exact ⟨(h.inner c hc).1, mem_cddSetmark.mpr (.inr (h.inner c hc).2)⟩
    | inr hc =>
      subst hc
      exact ⟨hinner, mem_cddSetmark.mpr (.inl hrglr.symm)⟩
  · intro c hc
    rw [Dump.setmark, mem_cddSetmark, hrglr] at hc
    cases hc with
    | inl hc =>
      right
      show c ∈ definedLabels (s.print [.ifMask node mask value current other]).out
      rw [hlabels, hc]
      exact List.mem_append_right _ (List.mem_singleton_self _)
    | inr hc => exact (h.marked c hc).mono hsub
  · intro line hl
    have hl : line ∈ s.out ++ [.ifMask node mask value current other] := hl
    rw [List.mem_append, List.mem_singleton] at hl
    cases hl with
    | inl hl => exact (h.decides line hl).mono hsub
    | inr hl => exact hl ▸ hline.mono hsub

end Dump

/-- What a call guarantees: the node has its label, or its test is in the record of the parent. -/
structure Dumped (d : DdNode) (parentInfo : Option Infor) (s : Dump) (r : Option Infor × Dump) :
    Prop where
  printed : r.2.Printed
  grows : s.Grows d.level r.2
  defined : parentInfo = none → Defined r.2.out d
  explored : ∀ p, parentInfo = some p → p.current = d →
    ∃ p' mask value, r.1 = some p' ∧ Explored r.2.out d p p' mask value

theorem Dumped.kept {parentInfo : Option Infor} (hd : Strategy d) (hs : s'.Printed)
    (hg : s.Grows d.level s') (hdef : Defined s'.out d) :
    Dumped d parentInfo s (parentInfo, s') := by
  constructor
  · exact hs
  · exact hg
  · exact fun _ ↦ hdef
  · intro p hp hc
    exact ⟨p, ∅, ∅, hp, .kept hc hd hdef⟩

/-- A node that gets its own line, once its children are done. -/
theorem Dumped.own {level : ℕ} {low high : DdNode} {parentInfo : Option Infor} {info : Infor}
    (hd : Strategy (.bdd false level low high)) (hs : s.Printed)
    (hm : cddIsmarked s.marks (.bdd false level low high) = false) (hs' : s'.Printed)
    (hg : s.Grows (level + 1) s')
    (hline : Decides s'.out (.ifMask (.bdd false level low high) info.mask info.value
      (printNode2label info.current) (printNode2label info.other))) :
    Dumped (.bdd false level low high) parentInfo s (parentInfo,
      (s'.print (printTest false (.bdd false level low high) info)).setmark
        (.bdd false level low high)) := by
  have hnew : DdNode.bdd false level low high ∉ definedLabels s'.out := by
    intro hmem
    cases hg.fresh _ hmem with
    | inl hmem =>
      have hmark := (hs.inner _ hmem).2
      rw [cddIsmarked, decide_eq_false_iff_not] at hm
      exact hm hmark
    | inr hlt => exact absurd hlt (Nat.not_succ_le_self level)
  have hlabels := Dump.definedLabels_print s' (.bdd false level low high) info.mask info.value
    (printNode2label info.current) (printNode2label info.other)
  refine .kept hd (hs'.print rfl rfl hnew hline) ?_ ?_
  · have hgrow : s.Grows level s' := hg.mono (Nat.le_succ level)
    refine ⟨?_, ?_⟩
    · intro c hc
      show c ∈ definedLabels (s'.print [_]).out
      rw [hlabels]
      exact List.mem_append_left _ (hgrow.subset hc)
    · intro c hc
      have hc : c ∈ definedLabels (s'.print [.ifMask (.bdd false level low high) info.mask
        info.value (printNode2label info.current) (printNode2label info.other)]).out := hc
      rw [hlabels, List.mem_append, List.mem_singleton] at hc
      cases hc with
      | inl hc => exact hgrow.fresh c hc
      | inr hc => exact .inr (hc ▸ le_rfl)
  · right
    show _ ∈ definedLabels (s'.print [_]).out
    rw [hlabels]
    exact List.mem_append_right _ (List.mem_singleton_self _)

/-- A node that is folded into its parent, once both its children are done. -/
theorem Dumped.folded {level : ℕ} {low high : DdNode} (b : Bool) {p : Infor}
    (hother : p.other = bif b then low else high)
    (hlevel : level < (bif b then high else low).level)
    (hlevel' : level < (bif b then low else high).level) {r : Option Infor × Dump} {t : Dump}
    (hr : Dumped (bif b then high else low) (some ⟨bif b then high else low, p.other,
      insert level p.mask, bif b then insert level p.value else p.value, true⟩) s r)
    (ht : t.Printed) (hg : r.2.Grows (bif b then low else high).level t) :
    Dumped (.bdd false level low high) (some p) s (r.1, t) := by
  obtain ⟨p', mask, value, hp', he⟩ := hr.explored _ rfl rfl
  constructor
  · exact ht
  · exact (hr.grows.mono hlevel.le).trans (hg.mono hlevel'.le)
  · exact nofun
  · intro q hq _
    cases hq
    exact ⟨p', _, _, hp', .fold b hother hlevel (he.mono hg.subset)⟩

theorem cddFreduceDumpRec_spec (hd : Strategy d) (m : Bool) (parentInfo : Option Infor)
    (hs : s.Printed) : Dumped d parentInfo s (cddFreduceDumpRec false d m parentInfo s) := by
  induction hd generalizing m parentInfo s with
  | cddfalse => exact .kept .cddfalse hs (.refl _ _) (.inl rfl)
  | xterm id =>
    rw [cddFreduceDumpRec]
    by_cases hm : cddIsmarked s.marks (.xterm false id) = true
    · rw [if_pos hm]
      exact .kept (.xterm id) hs (.refl _ _) (.inl rfl)
    · have hprint : s.print [] = s := by simp [Dump.print]
      rw [if_neg hm, if_neg Bool.false_ne_true, hprint]
      exact .kept (.xterm id) (hs.setmark rfl) ⟨List.Subset.refl _, fun _ hc ↦ .inl hc⟩ (.inl rfl)
  | @bdd level low high hl hh hne hsl hsh ihl ihh =>
    have hd : Strategy (.bdd false level low high) := .bdd hl hh hne hsl hsh
    rw [cddFreduceDumpRec]
    cases hm : cddIsmarked s.marks (.bdd false level low high) with
    | true =>
      rw [if_pos rfl]
      exact .kept hd hs (.refl _ _) (hs.marked _ (cddIsmarked_iff.mp hm))
    | false =>
      rw [if_neg Bool.false_ne_true]
      cases hp : parentInfo.filter fun p ↦ p.other = high || p.other = low with
      | none =>
        have hlow := ihl false (some ⟨low, high, {level}, ∅, false⟩) hs
        obtain ⟨info, mask, value, hinfo, he⟩ := hlow.explored _ rfl rfl
        dsimp only
        rw [hinfo, Option.getD_some]
        cases hf : info.stringFound with
        | true =>
          rw [if_pos rfl, Option.getD_some]
          have hhigh := ihh false none hlow.printed
          have hg := (hlow.grows.mono hl).trans (hhigh.grows.mono hh)
          refine .own hd hs hm hhigh.printed hg ?_
          exact (he.mono hhigh.grows.subset).decides false hl
            ⟨hsh, hh, hhigh.defined rfl⟩
        | false =>
          rw [if_neg Bool.false_ne_true]
          have hkept := he.unfolded hf
          subst hkept
          have hhigh := ihh false (some ⟨high, low, {level}, insert level ∅, false⟩) hlow.printed
          have hg := (hlow.grows.mono hl).trans (hhigh.grows.mono hh)
          obtain ⟨info', mask', value', hinfo', he'⟩ := hhigh.explored _ rfl rfl
          rw [hinfo', Option.getD_some]
          refine .own hd hs hm hhigh.printed hg ?_
          exact he'.decides true hh ⟨hsl, hl, he.defined.mono hhigh.grows.subset⟩
      | some p =>
        obtain ⟨hpar, hcond⟩ := Option.filter_eq_some_iff.mp hp
        subst hpar
        dsimp only
        by_cases hother : p.other = high
        · rw [if_pos hother]
          have hlow := ihl false (some ⟨low, p.other, insert level p.mask, p.value, true⟩) hs
          have hhigh := ihh false none hlow.printed
          exact .folded false hother hl hh hlow hhigh.printed hhigh.grows
        · have hother' : p.other = low := by simpa [hother] using hcond
          rw [if_neg hother]
          have hhigh := ihh false
            (some ⟨high, p.other, insert level p.mask, insert level p.value, true⟩) hs
          have hlow := ihl false none hhigh.printed
          exact .folded true hother' hh hl hhigh hlow.printed hlow.grows

/-! ### The run of the code -/

theorem Strategy.level_le (h : Strategy d) : d.level ≤ maxLevel := by
  induction h with
  | cddfalse | xterm => exact le_rfl
  | bdd hl _ _ _ _ ihl _ => exact le_trans hl.le ihl

theorem Strategy.eq_terminal (h : Strategy d) (ht : cddIsterminal d = true) :
    d = UCDD.cddfalse ∨ ∃ id, d = .xterm false id := by
  cases h with
  | cddfalse => exact .inl rfl
  | xterm id => exact .inr ⟨id, rfl⟩
  | bdd => cases ht

theorem Strategy.reach (h : Strategy d) (a : Assignment) : Strategy (reach a d) := by
  induction h with
  | cddfalse => exact .cddfalse
  | xterm id => exact .xterm id
  | @bdd level low high _ _ _ _ _ ihl ihh =>
    rw [reach_bdd a level low high true]
    split_ifs
    · exact ihh
    · exact ihl

theorem printNode2label_of_inner (h : cddIsterminal d = false) : printNode2label d = .node d := by
  cases d with
  | terminal | xterm => cases h
  | bdd | cdd => rfl

/-- The line with the label of a node takes the jump that the assignment asks for. -/
theorem Dump.Printed.jump (h : s.Printed) (hd : d ∈ definedLabels s.out) (start : CodeLabel)
    (a : Assignment) :
    ∃ c, PrintedCode.jump ⟨start, s.out⟩ a d = some (printNode2label c) ∧
      Target s.out d c ∧ UCDD.reach a d = UCDD.reach a c := by
  obtain ⟨line, hline, hlabel⟩ := List.mem_filterMap.mp hd
  have hsome : (s.out.find? fun line ↦ line.label = some d).isSome = true :=
    List.find?_isSome.mpr ⟨line, hline, by simpa using hlabel⟩
  obtain ⟨found, hfound⟩ := Option.isSome_iff_exists.mp hsome
  have hlabel : found.label = some d := by simpa using List.find?_some hfound
  have hdec := h.decides found (List.mem_of_find?_eq_some hfound)
  unfold PrintedCode.jump
  dsimp only
  rw [hfound]
  cases hdec with
  | @ifMask node current other mask value hc ho hr =>
    cases hlabel
    dsimp only
    by_cases hm : Matches a mask value
    · exact ⟨current, by rw [if_pos hm], hc, by rw [hr a, if_pos hm]⟩
    · exact ⟨other, by rw [if_neg hm], ho, by rw [hr a, if_neg hm]⟩

/-- Levels increase along the jumps, so the run ends, at the terminal of the diagram. -/
theorem Dump.Printed.execute (h : s.Printed) (hd : Strategy d) (hdef : Defined s.out d)
    (start : CodeLabel) (a : Assignment) {n : ℕ} (hn : maxLevel - d.level ≤ n) :
    PrintedCode.execute ⟨start, s.out⟩ a n (printNode2label d) =
      some (printNode2label (UCDD.reach a d)) := by
  induction n generalizing d with
  | zero =>
    cases hd with
    | cddfalse | xterm => rfl
    | bdd hl _ _ hsl _ =>
      have hle := hsl.level_le
      rw [DdNode.level] at hn
      omega
  | succ n ih =>
    cases hdef with
    | inl ht =>
      rw [reach_of_isterminal ht a]
      rcases hd.eq_terminal ht with rfl | ⟨id, rfl⟩ <;> rfl
    | inr hmem =>
      obtain ⟨c, hjump, hc, hreach⟩ := h.jump hmem start a
      rw [printNode2label_of_inner (h.inner d hmem).1, PrintedCode.execute, hjump, hreach]
      have hlt := hc.level_lt
      exact ih hc.strategy hc.defined (by omega)

/-- A target of a line is a terminal or has its line. -/
theorem Dump.Printed.targets (h : s.Printed) {target : CodeLabel}
    (ht : target ∈ s.out.flatMap CodeLine.targets) :
    ∃ c, target = printNode2label c ∧ Strategy c ∧ Defined s.out c := by
  obtain ⟨line, hline, ht⟩ := List.mem_flatMap.mp ht
  cases h.decides line hline with
  | @ifMask node current other mask value hc ho hr =>
    rw [CodeLine.targets, List.mem_pair] at ht
    cases ht with
    | inl ht => exact ⟨current, ht, hc.strategy, hc.defined⟩
    | inr ht => exact ⟨other, ht, ho.strategy, ho.defined⟩

/-- The printed code defines each label it jumps to once, and its run ends at the terminal that
the diagram reaches. -/
theorem cddFprintCode_correct {f : DdNode} (hf : Strategy f) (hinner : cddIsterminal f = false) :
    let code := (cddFprintCode ∅ f).1
    (∀ line ∈ code.lines, ∃ node mask value current other,
      line = .ifMask node mask value current other) ∧
    (∀ target ∈ code.targets, target = .error ∨ (∃ id, target = .action id) ∨
      ∃ node, target = .node node ∧ (definedLabels code.lines).count node = 1) ∧
    ∀ a, ∃ n, (∃ id, reach a f = .xterm false id ∧
        code.execute a n code.start = some (.action id)) ∨
      reach a f = cddfalse ∧ code.execute a n code.start = some .error := by
  intro code
  have hdump := cddFreduceDumpRec_spec hf (cddMask f) none (Dump.Printed.init ∅ rfl)
  have hprinted := hdump.printed
  have hdef := hdump.defined rfl
  have hstart : code.start = printNode2label f := (printNode2label_of_inner hinner).symm
  refine ⟨?_, ?_, ?_⟩
  · intro line hline
    cases hprinted.decides line hline with
    | ifMask => exact ⟨_, _, _, _, _, rfl⟩
  · intro target ht
    have hlabel : ∃ c, target = printNode2label c ∧ Strategy c ∧ Defined code.lines c := by
      rw [PrintedCode.targets, List.mem_cons] at ht
      cases ht with
      | inl ht => exact ⟨f, ht.trans hstart, hf, hdef⟩
      | inr ht => exact hprinted.targets ht
    obtain ⟨c, rfl, hc, hcdef⟩ := hlabel
    cases hcdef with
    | inl hterm =>
      cases hc.eq_terminal hterm with
      | inl h => exact .inl (by rw [h]; rfl)
      | inr h =>
        obtain ⟨id, rfl⟩ := h
        exact .inr (.inl ⟨id, rfl⟩)
    | inr hmem =>
      refine .inr (.inr ⟨c, printNode2label_of_inner (hprinted.inner c hmem).1, ?_⟩)
      exact List.count_eq_one_of_mem hprinted.nodup hmem
  · intro a
    have hrun := hprinted.execute hf hdef code.start a (le_refl (maxLevel - f.level))
    refine ⟨maxLevel - f.level, ?_⟩
    rw [hstart]
    cases (hf.reach a).eq_terminal (cddIsterminal_reach a f) with
    | inl h => exact .inr ⟨h, hrun.trans (by rw [h]; rfl)⟩
    | inr h =>
      obtain ⟨id, hid⟩ := h
      exact .inl ⟨id, hid, hrun.trans (by rw [hid]; rfl)⟩

/-- A strategy with one folded node: the action when one of two Booleans holds. -/
def sampleStrategy : DdNode :=
  .bdd false 0 (.bdd false 1 cddfalse (.xterm false 7)) (.xterm false 7)

theorem cddFprintCode_correct_sample :
    let code := (cddFprintCode ∅ sampleStrategy).1
    (definedLabels code.lines).length = 1 ∧
    ∀ a, ∃ n, (∃ id, reach a sampleStrategy = .xterm false id ∧
        code.execute a n code.start = some (.action id)) ∨
      reach a sampleStrategy = cddfalse ∧ code.execute a n code.start = some .error := by
  have hinner : Strategy (.bdd false 1 cddfalse (.xterm false 7)) := by
    refine .bdd ?_ ?_ (fun h ↦ by cases h) .cddfalse (.xterm 7) <;> simp [cddfalse, level, maxLevel]
  have hf : Strategy sampleStrategy := by
    refine .bdd ?_ ?_ (fun h ↦ by cases h) hinner (.xterm 7) <;> simp [level, maxLevel]
  exact ⟨rfl, (cddFprintCode_correct hf rfl).2.2⟩

end

end UCDD

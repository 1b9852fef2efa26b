import UCDD.Diagram.Canonical
import UCDD.Output.Traversal

/-!
# Diagrams as graphs

`cdd_fprintdot`, `print.c:119–282`. A node is printed under its pointer and an annotation, `0` when
it is reached with an even number of negations and `1` otherwise. Boolean nodes already printed are
kept in an array under both, CDD nodes are marked.
-/

namespace UCDD

open IntervalMap DdNode

/-- A pointer with its annotation; terminals have none. -/
abbrev DotName := DdNode × Option Bool

/-- A line of the output. -/
inductive DotLine where
  | terminal (r : DdNode) (label : Bool)
  | bool (name : DotName) (red : Bool) (level : ℕ)
  | diff (name : DotName) (red : Bool) (level : ℕ)
  | arrow (source target : DotName) (dashed : Bool)
  | interval (source target : DotName) (dashed : Bool) (lower upper : Raw)
  deriving DecidableEq

/-- The marks, the array of the Boolean nodes that are printed, and the output. -/
structure Dot where
  marks : Marks
  array : List (DdNode × Bool)
  out : List DotLine

namespace Dot

/-- `fprintf`. -/
def print (s : Dot) (lines : List DotLine) : Dot := { s with out := s.out ++ lines }

/-- `cdd_setmark`. -/
def setmark (s : Dot) (r : DdNode) : Dot := { s with marks := cddSetmark s.marks r }

/-- `insertArray`. -/
def insertArray (s : Dot) (r : DdNode) (negated : Bool) : Dot :=
  { s with array := s.array ++ [(r, negated)] }

end Dot

/-- The target of an arrow of a Boolean node, `print.c:173–198`. The flag is the annotation of the
children. -/
def arrowTarget (flipNegated appendix : Bool) (child : DdNode) : DotName :=
  if flipNegated && appendix && cddIsterminal child then (cddNeg child, none)
  else (child, if cddIsterminal child then none else some appendix)

mutual

/-- `cdd_fprintdot_rec`. -/
def cddFprintdotRec (flipNegated : Bool) : DdNode → Bool → Dot → Dot
  | .terminal _, _, s | .xterm _ _, _, s => s
  | .bdd neg level low high, negated, s =>
    let r := DdNode.bdd neg level low high
    let s :=
      if (r, negated) ∈ s.array then s
      else
        let s := (s.insertArray r negated).print [
          .bool (r, some negated) neg level,
          .arrow (r, some negated) (arrowTarget flipNegated (neg ^^ negated) high) false,
          .arrow (r, some negated) (arrowTarget flipNegated (neg ^^ negated) low) true]
        cddFprintdotRec flipNegated low (negated ^^ neg)
          (cddFprintdotRec flipNegated high (negated ^^ neg) s)
    s.setmark r
  | .cdd neg level elem, negated, s =>
    let r := DdNode.cdd neg level elem
    if cddIsmarked s.marks r then s
    else
      let s := s.print [.diff (r, some negated) neg level]
      (cddFprintdotElem flipNegated (r, some negated) (negated ^^ neg) elem
        (some (neg ^^ negated)) (-INF) s).setmark r

/-- The loop over the children of a CDD node. A child `cddtrue` clears the annotation of the
children, also for those that follow. -/
def cddFprintdotElem (flipNegated : Bool) (name : DotName) (negated : Bool) :
    List (DdNode × Raw) → Option Bool → Raw → Dot → Dot
  | [], _, _, s => s
  | (child, upper) :: es, appendix, bnd, s =>
    let appendix := if child = cddtrue then none else appendix
    let s :=
      if child = cddfalse then s
      else cddFprintdotRec flipNegated child negated
        (s.print [.interval name (child, appendix) (cddMask child) bnd upper])
    if upper < INF then cddFprintdotElem flipNegated name negated es appendix upper s else s

end

/-- `cdd_fprintdot`: the lines between the braces, and the marks left. -/
def cddFprintdot (M : Marks) (r : DdNode) (pushNegate : Bool) : List DotLine × Marks :=
  let s : Dot := ⟨M, [], []⟩
  let s :=
    if cddIsterminal r then s.print [.terminal r (cddMask r)]
    else cddFprintdotRec pushNegate r false
      (s.print [.terminal cddtrue true, .terminal cddfalse false])
  (s.out, cddUnmark r s.marks)

/-! ### The graph -/

/-- The name of the root. -/
def rootName (r : DdNode) : DotName := (r, if cddIsterminal r then none else some false)

/-- The node that a line declares. -/
def DotLine.declared : DotLine → Option DotName
  | .terminal r _ => some (r, none)
  | .bool name _ _ | .diff name _ _ => some name
  | .arrow .. | .interval .. => none

/-- The nodes that the line, an edge, joins. -/
def DotLine.joins : DotLine → List DotName
  | .arrow source target _ | .interval source target _ _ _ => [source, target]
  | _ => []

/-- The point is in the interval that is printed. -/
def InInterval (c : Cut INF) (lower upper : Raw) : Prop :=
  (lower = -INF ∨ c.below lower = false) ∧ c.below upper = true

/-- The edges that match the assignment lead from the node to a terminal with the label. Where no
interval of a CDD node matches, the value is false. -/
inductive Leads (out : List DotLine) (a : Assignment) : DotName → Bool → Prop
  | terminal {r label} : .terminal r label ∈ out → Leads out a (r, none) label
  | bool {name red level target dashed label} : .bool name red level ∈ out →
    .arrow name target dashed ∈ out → a.bool level = !dashed → Leads out a target label →
    Leads out a name label
  | diff {name red level target dashed lower upper label} : .diff name red level ∈ out →
    .interval name target dashed lower upper ∈ out → InInterval (a.diff level) lower upper →
    Leads out a target label → Leads out a name label
  | missing {name red level} : .diff name red level ∈ out →
    (∀ target dashed lower upper, .interval name target dashed lower upper ∈ out →
      ¬ InInterval (a.diff level) lower upper) → Leads out a name false

/-- The graph shows the function: its edges join declared nodes, and the terminal reached is the
value. -/
structure ShowsFunction (out : List DotLine) (r : DdNode) : Prop where
  joined : ∀ line ∈ out, ∀ name ∈ line.joins, ∃ decl ∈ out, decl.declared = some name
  value : ∀ a, Leads out a (rootName r) true ↔ eval a r = true

/-! ### What is printed for a node -/

/-- The children that the recursion enters. -/
def dotChildren : DdNode → List DdNode
  | .terminal _ | .xterm _ _ => []
  | .bdd _ _ low high => [high, low]
  | .cdd _ _ elem => (elem.map (·.1)).filter (· ≠ cddfalse)

/-- The edges out of a CDD node. -/
def intervalLines (name : DotName) : List (DdNode × Raw) → Option Bool → Raw → List DotLine
  | [], _, _ => []
  | (child, upper) :: es, appendix, bnd =>
    let appendix := if child = cddtrue then none else appendix
    (if child = cddfalse then [] else [.interval name (child, appendix) (cddMask child) bnd upper])
      ++ if upper < INF then intervalLines name es appendix upper else []

/-- The lines of a node. -/
def nodeLines (flipNegated : Bool) : DdNode → Bool → List DotLine
  | .terminal _, _ | .xterm _ _, _ => []
  | .bdd neg level low high, negated =>
    let name := (.bdd neg level low high, some negated)
    [.bool name neg level,
      .arrow name (arrowTarget flipNegated (neg ^^ negated) high) false,
      .arrow name (arrowTarget flipNegated (neg ^^ negated) low) true]
  | .cdd neg level elem, negated =>
    let name := (.cdd neg level elem, some negated)
    .diff name neg level :: intervalLines name elem (some (neg ^^ negated)) (-INF)

/-- The recursion does not enter the node: it is a terminal, or printed under this annotation, or
a CDD node that is marked. -/
def Dot.Done (s : Dot) : DdNode → Bool → Prop
  | .terminal _, _ | .xterm _ _, _ => True
  | .bdd neg level low high, negated => (.bdd neg level low high, negated) ∈ s.array
  | .cdd _ level elem, _ => DdNode.cdd false level elem ∈ s.marks

/-- After the nodes of `N` are printed, the recursion does not enter the node. -/
def Settled (N : Set (DdNode × Bool)) : DdNode → Bool → Prop
  | .terminal _, _ | .xterm _ _, _ => True
  | .bdd neg level low high, negated => (.bdd neg level low high, negated) ∈ N
  | .cdd _ level elem, _ => ∃ n ∈ N, cddRglr n.1 = .cdd false level elem

/-- The pointers that are reached, with the negations on the way. -/
inductive Visited (f : DdNode) : DdNode → Bool → Prop
  | root : Visited f f false
  | child {r negated c} : Visited f r negated → c ∈ dotChildren r →
    Visited f c (negated ^^ cddMask r)

section

variable {L : Library} {f r : DdNode} {flip negated : Bool} {s s' t : Dot} {level : ℕ}
  {X Y : List DotLine} {N N' : Set (DdNode × Bool)}

theorem Settled.of_mem (h : (r, negated) ∈ N) : Settled N r negated := by
  cases r with
  | terminal | xterm => trivial
  | bdd => exact h
  | cdd neg level elem =>
    refine ⟨_, h, ?_⟩
    cases neg <;> rfl

theorem settled_union : Settled (N ∪ N') r negated ↔ Settled N r negated ∨ Settled N' r negated := by
  cases r with
  | terminal | xterm => exact ⟨fun _ ↦ .inl trivial, fun _ ↦ trivial⟩
  | bdd => exact Iff.rfl
  | cdd neg level elem =>
    constructor
    · rintro ⟨n, hn, hr⟩
      exact hn.imp (⟨n, ·, hr⟩) (⟨n, ·, hr⟩)
    · rintro (⟨n, hn, hr⟩ | ⟨n, hn, hr⟩)
      · exact ⟨n, .inl hn, hr⟩
      · exact ⟨n, .inr hn, hr⟩

theorem Settled.mono (h : Settled N r negated) (hN : N ⊆ N') : Settled N' r negated := by
  rw [← Set.union_eq_self_of_subset_left hN, settled_union]
  exact .inl h

theorem Settled.symm {n n' : DdNode × Bool} (h : Settled {n} n'.1 n'.2)
    (hinner : cddIsterminal n'.1 = false) : Settled {n'} n.1 n.2 := by
  obtain ⟨r, q⟩ := n
  obtain ⟨r', q'⟩ := n'
  cases r' with
  | terminal | xterm => cases hinner
  | bdd neg level low high =>
    cases h
    exact Settled.of_mem rfl
  | cdd neg level elem =>
    obtain ⟨_, rfl, hr⟩ := h
    cases r with
    | terminal | xterm | bdd => cases hr
    | cdd neg' level' elem' =>
      have hreg : ∀ m, cddRglr (.cdd m level' elem') = .cdd false level' elem' := by
        intro m
        cases m <;> rfl
      rw [hreg] at hr
      cases hr
      exact ⟨_, rfl, hreg neg⟩

theorem inner_of_not_done (h : ¬ s.Done r negated) : cddIsterminal r = false := by
  cases r with
  | terminal | xterm => exact absurd trivial h
  | bdd | cdd => rfl

/-- What part of the recursion adds: the lines `X` of the node it is in, and the nodes of `N` with
their lines. -/
structure DotWalk (f : DdNode) (flip : Bool) (level : ℕ) (s s' : Dot) (X : List DotLine)
    (N : Set (DdNode × Bool)) : Prop where
  lines : ∀ line, line ∈ s'.out ↔
    line ∈ s.out ∨ line ∈ X ∨ ∃ n ∈ N, line ∈ nodeLines flip n.1 n.2
  done : ∀ c q, s'.Done c q ↔ s.Done c q ∨ Settled N c q
  above : ∀ n ∈ N, level ≤ n.1.level
  visited : ∀ n ∈ N, Visited f n.1 n.2
  fresh : ∀ n ∈ N, ¬ s.Done n.1 n.2
  unique : ∀ n ∈ N, ∀ n' ∈ N, Settled {n} n'.1 n'.2 → n = n'

theorem DotWalk.refl (f : DdNode) (flip : Bool) (level : ℕ) (s : Dot) : DotWalk f flip level s s [] ∅ where
  lines := by simp
  done c q := by
    have h : Settled ∅ c q → s.Done c q := by
      cases c with
      | terminal | xterm => exact id
      | bdd => exact False.elim
      | cdd => exact fun ⟨_, hn, _⟩ ↦ hn.elim
    exact ⟨.inl, fun h' ↦ h'.elim id h⟩
  above := nofun
  visited := nofun
  fresh := nofun
  unique := nofun

theorem DotWalk.mono {level' : ℕ} (h : DotWalk f flip level s s' X N) (hl : level' ≤ level) :
    DotWalk f flip level' s s' X N :=
  { h with above := fun n hn ↦ le_trans hl (h.above n hn) }

theorem DotWalk.trans (h : DotWalk f flip level s s' X N) (h' : DotWalk f flip level s' t Y N') :
    DotWalk f flip level s t (X ++ Y) (N ∪ N') := by
  constructor
  · intro line
    rw [h'.lines, h.lines, List.mem_append]
    constructor
    · rintro ((hs | hX | ⟨n, hn, hl⟩) | hY | ⟨n, hn, hl⟩)
      · exact .inl hs
      · exact .inr (.inl (.inl hX))
      · exact .inr (.inr ⟨n, .inl hn, hl⟩)
      · exact .inr (.inl (.inr hY))
      · exact .inr (.inr ⟨n, .inr hn, hl⟩)
    · rintro (hs | (hX | hY) | ⟨n, hn | hn, hl⟩)
      · exact .inl (.inl hs)
      · exact .inl (.inr (.inl hX))
      · exact .inr (.inl hY)
      · exact .inl (.inr (.inr ⟨n, hn, hl⟩))
      · exact .inr (.inr ⟨n, hn, hl⟩)
  · intro c q
    rw [h'.done, h.done, settled_union, or_assoc]
  · intro n hn
    exact hn.elim (h.above n) (h'.above n)
  · intro n hn
    exact hn.elim (h.visited n) (h'.visited n)
  · intro n hn
    cases hn with
    | inl hn => exact h.fresh n hn
    | inr hn => exact fun hd ↦ h'.fresh n hn ((h.done _ _).mpr (.inl hd))
  · intro n hn n' hn' hset
    have hcross : ∀ m ∈ N, ∀ m' ∈ N', ¬ Settled {m} m'.1 m'.2 := by
      intro m hm m' hm' hset
      have hsub : ({m} : Set (DdNode × Bool)) ⊆ N := Set.singleton_subset_iff.mpr hm
      exact h'.fresh m' hm' ((h.done _ _).mpr (.inr (hset.mono hsub)))
    cases hn with
    | inl hn =>
      cases hn' with
      | inl hn' => exact h.unique n hn n' hn' hset
      | inr hn' => exact absurd hset (hcross n hn n' hn')
    | inr hn =>
      cases hn' with
      | inl hn' =>
        have hinner := inner_of_not_done (h.fresh n' hn')
        exact absurd (hset.symm hinner) (hcross n' hn' n hn)
      | inr hn' => exact h'.unique n hn n' hn' hset

theorem done_setmark_bdd {neg : Bool} {ℓ : ℕ} {low high : DdNode} (c : DdNode) (q : Bool) :
    (s.setmark (.bdd neg ℓ low high)).Done c q ↔ s.Done c q := by
  cases c with
  | terminal | xterm | bdd => exact Iff.rfl
  | cdd =>
    show _ ∈ cddSetmark _ _ ↔ _
    rw [mem_cddSetmark]
    exact or_iff_right nofun

theorem Dot.Done.setmark {c : DdNode} {q : Bool} (h : s.Done c q) (r : DdNode) :
    (s.setmark r).Done c q := by
  cases c with
  | terminal | xterm | bdd => exact h
  | cdd => exact mem_cddSetmark.mpr (.inr h)

/-- Marking a Boolean node at the end of its visit. -/
theorem DotWalk.setmark {neg : Bool} {ℓ : ℕ} {low high : DdNode} (h : DotWalk f flip level s s' X N) :
    DotWalk f flip level s (s'.setmark (.bdd neg ℓ low high)) X N :=
  { h with done := fun c q ↦ (done_setmark_bdd c q).trans (h.done c q) }

/-- The lines of a Boolean node, before those of its children. -/
theorem DotWalk.open (flip : Bool) {neg : Bool} {ℓ : ℕ} {low high : DdNode}
    (hv : Visited f (.bdd neg ℓ low high) negated) (hd : ¬ s.Done (.bdd neg ℓ low high) negated) :
    DotWalk f flip ℓ s ((s.insertArray (.bdd neg ℓ low high) negated).print
      (nodeLines flip (.bdd neg ℓ low high) negated)) [] {(.bdd neg ℓ low high, negated)} := by
  constructor
  · intro line
    simp [Dot.print, Dot.insertArray]
  · intro c q
    cases c with
    | terminal | xterm => exact ⟨.inl, fun _ ↦ trivial⟩
    | bdd =>
      show _ ∈ s.array ++ [_] ↔ _
      rw [List.mem_append, List.mem_singleton]
      exact Iff.rfl
    | cdd neg' level' elem' =>
      refine ⟨.inl, fun h ↦ h.elim id ?_⟩
      rintro ⟨_, rfl, hr⟩
      cases hr
  · exact fun n hn ↦ hn ▸ le_rfl
  · exact fun n hn ↦ hn ▸ hv
  · exact fun n hn ↦ hn ▸ hd
  · intro n hn n' hn' _
    exact hn.trans hn'.symm

/-- A line of the node that the recursion is in. -/
theorem DotWalk.print (h : DotWalk f flip level s s' X N) (Y : List DotLine) :
    DotWalk f flip level s (s'.print Y) (X ++ Y) N := by
  refine { h with lines := ?_, done := ?_ }
  · intro line
    rw [Dot.print, List.mem_append, h.lines, List.mem_append]
    generalize (∃ n ∈ N, line ∈ nodeLines flip n.1 n.2) = nodes
    tauto
  · intro c q
    rw [← h.done]
    cases c <;> exact Iff.rfl

/-- Marking a CDD node after its lines and its children. -/
theorem DotWalk.close {neg : Bool} {ℓ : ℕ} {elem : List (DdNode × Raw)}
    (hv : Visited f (.cdd neg ℓ elem) negated) (hd : ¬ s.Done (.cdd neg ℓ elem) negated)
    (h : DotWalk f flip (ℓ + 1) s s' (nodeLines flip (.cdd neg ℓ elem) negated) N) :
    DotWalk f flip ℓ s (s'.setmark (.cdd neg ℓ elem)) [] (insert (.cdd neg ℓ elem, negated) N) := by
  have hreg : ∀ m, cddRglr (.cdd m ℓ elem) = .cdd false ℓ elem := by
    intro m
    cases m <;> rfl
  have hlevel : ∀ n ∈ N, n.1.level ≠ ℓ := fun n hn he ↦ absurd (h.above n hn) (by omega)
  constructor
  · intro line
    show line ∈ s'.out ↔ _
    rw [h.lines, Set.exists_mem_insert]
    simp
  · intro c q
    rw [Set.insert_eq, settled_union]
    cases c with
    | terminal | xterm => exact ⟨fun _ ↦ .inl trivial, fun _ ↦ trivial⟩
    | bdd neg' level' low' high' =>
      show s'.Done (.bdd neg' level' low' high') q ↔ _
      rw [h.done]
      refine or_congr_right ⟨.inr, fun hc ↦ hc.elim ?_ id⟩
      intro hc
      cases hc
    | cdd neg' level' elem' =>
      have hmark : (s'.setmark (.cdd neg ℓ elem)).Done (.cdd neg' level' elem') q ↔
          DdNode.cdd false level' elem' = .cdd false ℓ elem ∨
            s'.Done (.cdd neg' level' elem') q := by
        show _ ∈ cddSetmark _ _ ↔ _
        rw [mem_cddSetmark, hreg]
        exact Iff.rfl
      have hself : Settled {(DdNode.cdd neg ℓ elem, negated)} (.cdd neg' level' elem') q ↔
          DdNode.cdd false level' elem' = .cdd false ℓ elem := by
        constructor
        · rintro ⟨_, rfl, hr⟩
          exact hr.symm.trans (hreg neg)
        · intro hr
          exact ⟨_, rfl, (hreg neg).trans hr.symm⟩
      rw [hmark, hself, h.done]
      tauto
  · rw [Set.forall_mem_insert]
    exact ⟨le_rfl, fun n hn ↦ le_trans (Nat.le_succ ℓ) (h.above n hn)⟩
  · rw [Set.forall_mem_insert]
    exact ⟨hv, h.visited⟩
  · rw [Set.forall_mem_insert]
    exact ⟨hd, h.fresh⟩
  · have hother : ∀ n ∈ N, ¬ Settled {(DdNode.cdd neg ℓ elem, negated)} n.1 n.2 := by
      intro n hn hset
      have hinner := inner_of_not_done (h.fresh n hn)
      obtain ⟨r, q⟩ := n
      cases r with
      | terminal | xterm => cases hinner
      | bdd => cases hset
      | cdd neg' level' elem' =>
        obtain ⟨_, rfl, hr⟩ := hset
        rw [hreg] at hr
        cases hr
        exact hlevel _ hn rfl
    intro n hn n' hn' hset
    rw [Set.mem_insert_iff] at hn hn'
    cases hn with
    | inl hn =>
      cases hn' with
      | inl hn' => exact hn.trans hn'.symm
      | inr hn' => exact absurd (hn ▸ hset) (hother n' hn')
    | inr hn =>
      cases hn' with
      | inl hn' =>
        subst hn'
        exact absurd (hset.symm rfl) (hother n hn)
      | inr hn' => exact h.unique n hn n' hn' hset

/-- What a call guarantees for the nodes of `N`: the recursion enters none of their children
again. -/
def DotClosed (s : Dot) (N : Set (DdNode × Bool)) : Prop :=
  ∀ n ∈ N, ∀ c ∈ dotChildren n.1, s.Done c (n.2 ^^ cddMask n.1)

theorem DotClosed.walk (h : DotClosed s' N) (hw : DotWalk f flip level s' t X N') : DotClosed t N :=
  fun n hn c hc ↦ (hw.done _ _).mpr (.inl (h n hn c hc))

/-- A call prints the node if the recursion may enter it, and closes what it adds. -/
structure Called (f : DdNode) (flip : Bool) (r : DdNode) (negated : Bool) (s s' : Dot)
    (N : Set (DdNode × Bool)) : Prop where
  walk : DotWalk f flip r.level s s' [] N
  closed : DotClosed s' N
  self : ¬ s.Done r negated → (r, negated) ∈ N

theorem Called.done (h : Called f flip r negated s s' N) : s'.Done r negated := by
  rw [h.walk.done]
  by_cases hd : s.Done r negated
  · exact .inl hd
  · exact .inr (.of_mem (h.self hd))

/-- The loop over the children of a CDD node, for one child. -/
theorem cddFprintdotElem_spec {xterms : ℕ} {name : DotName} {q : Bool} {es : List (DdNode × Raw)}
    (hp : Partition INF es)
    (hes : ∀ e ∈ es, level < e.1.level ∧ L.WellFormed xterms e.1 ∧
      (e.1 ≠ cddfalse → Visited f e.1 q))
    (ih : ∀ e ∈ es, ∀ s, e.1 ≠ cddfalse → ∃ N, Called f flip e.1 q s (cddFprintdotRec flip e.1 q s) N)
    (appendix : Option Bool) (bnd : Raw) (s : Dot) :
    ∃ N, DotWalk f flip (level + 1) s (cddFprintdotElem flip name q es appendix bnd s)
        (intervalLines name es appendix bnd) N ∧
      DotClosed (cddFprintdotElem flip name q es appendix bnd s) N ∧
      ∀ e ∈ es, e.1 ≠ cddfalse → (cddFprintdotElem flip name q es appendix bnd s).Done e.1 q := by
  induction es generalizing appendix bnd s with
  | nil => exact hp.elim
  | cons e es ihes =>
    obtain ⟨child, upper⟩ := e
    rw [cddFprintdotElem, intervalLines]
    generalize (if child = cddtrue then none else appendix) = appendix'
    -- the child itself
    have hchild : ∃ N, DotWalk f flip (level + 1) s
        (if child = cddfalse then s else cddFprintdotRec flip child q
          (s.print [.interval name (child, appendix') (cddMask child) bnd upper]))
        (if child = cddfalse then [] else
          [.interval name (child, appendix') (cddMask child) bnd upper]) N ∧
        DotClosed (if child = cddfalse then s else cddFprintdotRec flip child q
          (s.print [.interval name (child, appendix') (cddMask child) bnd upper])) N ∧
        (child ≠ cddfalse → (if child = cddfalse then s else cddFprintdotRec flip child q
          (s.print [.interval name (child, appendix') (cddMask child) bnd upper])).Done child q) := by
      by_cases hf : child = cddfalse
      · rw [if_pos hf, if_pos hf]
        exact ⟨∅, .refl f flip _ s, nofun, fun h ↦ absurd hf h⟩
      · rw [if_neg hf, if_neg hf]
        obtain ⟨N, hN⟩ := ih _ List.mem_cons_self
          (s.print [.interval name (child, appendix') (cddMask child) bnd upper]) hf
        have hw := (hN.walk.mono (hes _ List.mem_cons_self).1)
        have hline := (DotWalk.refl f flip (level + 1) s).print
          [.interval name (child, appendix') (cddMask child) bnd upper]
        have hboth := hline.trans hw
        rw [List.nil_append, List.append_nil, Set.empty_union] at hboth
        exact ⟨N, hboth, hN.closed, fun _ ↦ hN.done⟩
    obtain ⟨N, hw, hc, hd⟩ := hchild
    generalize (if child = cddfalse then s else _) = s₁ at hw hc hd ⊢
    -- the children that follow
    cases hp.tail_cases with
    | inl hlast =>
      obtain ⟨rfl, htop⟩ := hlast
      have htop : ¬ upper < INF := not_lt.mpr (le_of_eq htop.symm)
      rw [if_neg htop, if_neg htop, List.append_nil]
      refine ⟨N, hw, hc, ?_⟩
      intro x hx
      rw [List.mem_singleton] at hx
      exact hx ▸ hd
    | inr hmore =>
      have hlt : upper < INF := by
        obtain ⟨x, xs, rfl⟩ := List.exists_cons_of_ne_nil hmore.1.ne_nil
        exact lt_of_lt_of_le (hmore.2 x rfl) (le_INF _)
      rw [if_pos hlt, if_pos hlt]
      obtain ⟨N', hw', hc', hd'⟩ := ihes hmore.1 (fun x hx ↦ hes x (List.mem_cons_of_mem _ hx))
        (fun x hx ↦ ih x (List.mem_cons_of_mem _ hx)) appendix' upper s₁
      refine ⟨N ∪ N', hw.trans hw', ?_, ?_⟩
      · intro n hn
        exact hn.elim (hc.walk hw' n) (hc' n)
      · rw [List.forall_mem_cons]
        exact ⟨fun hne ↦ (hw'.done _ _).mpr (.inl (hd hne)), hd'⟩

theorem mem_dotChildren_cdd {neg : Bool} {elem : List (DdNode × Raw)} {c : DdNode} :
    c ∈ dotChildren (.cdd neg level elem) ↔ c ≠ cddfalse ∧ ∃ e ∈ elem, e.1 = c := by
  rw [dotChildren, List.mem_filter, List.mem_map, decide_eq_true_eq]
  exact And.comm

/-- The recursion prints a node once for each annotation it meets it under, or once if it is a CDD
node. -/
theorem cddFprintdotRec_spec (flip : Bool) {xterms : ℕ} (hr : L.WellFormed xterms r)
    (hv : Visited f r negated) (s : Dot) :
    ∃ N, Called f flip r negated s (cddFprintdotRec flip r negated s) N := by
  induction hr generalizing negated s with
  | terminal | xterm => exact ⟨∅, .refl f flip _ s, nofun, fun h ↦ absurd trivial h⟩
  | @bdd neg level low high hk hl hh hne hm hwl hwh ihl ihh =>
    rw [cddFprintdotRec]
    by_cases hd : (DdNode.bdd neg level low high, negated) ∈ s.array
    · rw [if_pos hd]
      exact ⟨∅, (DotWalk.refl f flip _ s).setmark, nofun, fun h ↦ absurd hd h⟩
    · rw [if_neg hd]
      have hopen := DotWalk.open flip hv hd
      have hvh : Visited f high (negated ^^ neg) := hv.child (by simp [dotChildren])
      have hvl : Visited f low (negated ^^ neg) := hv.child (by simp [dotChildren])
      obtain ⟨N, hN⟩ := ihh hvh ((s.insertArray (.bdd neg level low high) negated).print
        (nodeLines flip (.bdd neg level low high) negated))
      obtain ⟨N', hN'⟩ := ihl hvl (cddFprintdotRec flip high (negated ^^ neg)
        ((s.insertArray (.bdd neg level low high) negated).print
          (nodeLines flip (.bdd neg level low high) negated)))
      have hall := ((hopen.trans (hN.walk.mono hh.le)).trans (hN'.walk.mono hl.le))
      refine ⟨_, hall.setmark, ?_, fun _ ↦ .inl (.inl rfl)⟩
      intro n hn c hc
      rw [done_setmark_bdd]
      rcases hn with (rfl | hn) | hn
      · rcases List.mem_pair.mp hc with rfl | rfl
        · exact (hN'.walk.done _ _).mpr (.inl hN.done)
        · exact hN'.done
      · exact (hN.closed.walk hN'.walk) n hn c hc
      · exact hN'.closed n hn c hc
  | @cdd neg level elem hk hl hp ha h2 hm hw ih =>
    have hreg : cddRglr (.cdd neg level elem) = .cdd false level elem := by cases neg <;> rfl
    rw [cddFprintdotRec]
    by_cases hd : DdNode.cdd false level elem ∈ s.marks
    · rw [if_pos (cddIsmarked_iff.mpr (hreg ▸ hd))]
      exact ⟨∅, .refl f flip _ s, nofun, fun h ↦ absurd hd h⟩
    · rw [if_neg (fun h ↦ hd (hreg ▸ cddIsmarked_iff.mp h))]
      have hchildren : ∀ e ∈ elem, level < e.1.level ∧ L.WellFormed xterms e.1 ∧
          (e.1 ≠ cddfalse → Visited f e.1 (negated ^^ neg)) := by
        intro e he
        exact ⟨hl e he, hw e he, fun hne ↦ hv.child (mem_dotChildren_cdd.mpr ⟨hne, e, he, rfl⟩)⟩
      obtain ⟨N, hN, hc, hdone⟩ := cddFprintdotElem_spec hp hchildren
        (fun e he s hne ↦ ih e he ((hchildren e he).2.2 hne) s) (some (neg ^^ negated)) (-INF)
        (s.print [.diff (.cdd neg level elem, some negated) neg level])
      have hall := ((DotWalk.refl f flip (level + 1) s).print
        [.diff (.cdd neg level elem, some negated) neg level]).trans hN
      rw [Set.empty_union] at hall
      have hclose := DotWalk.close hv hd hall
      refine ⟨_, hclose, ?_, fun _ ↦ Set.mem_insert _ _⟩
      rw [DotClosed, Set.forall_mem_insert]
      constructor
      · intro c hc
        obtain ⟨hne, e, he, rfl⟩ := mem_dotChildren_cdd.mp hc
        exact (hdone e he hne).setmark _
      · exact fun n hn c hcn ↦ (hc n hn c hcn).setmark _

end

end UCDD

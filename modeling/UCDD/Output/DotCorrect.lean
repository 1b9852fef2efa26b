import UCDD.Diagram.Apply
import UCDD.Diagram.Valuation
import UCDD.Output.Dot

/-!
# What the printed graph shows

With `push_negate` the terminal reached should be the value of the diagram. The children of a CDD
node are printed as they are, so this holds as long as no CDD node is reached with an odd number
of negations and has a terminal child, and as long as each is reached in one way only.
-/

namespace UCDD

open IntervalMap DdNode

/-- The lines printed for a diagram, and the nodes of `N` they declare. -/
structure DotGraph (f : DdNode) (out : List DotLine) (N : Set (DdNode × Bool)) : Prop where
  lines : ∀ line, line ∈ out ↔ line ∈ [.terminal cddtrue true, .terminal cddfalse false] ∨
    ∃ n ∈ N, line ∈ nodeLines true n.1 n.2
  root : (f, false) ∈ N
  visited : ∀ n ∈ N, Visited f n.1 n.2
  inner : ∀ n ∈ N, cddIsterminal n.1 = false
  settled : ∀ n ∈ N, ∀ c ∈ dotChildren n.1, Settled N c (n.2 ^^ cddMask n.1)
  unique : ∀ n ∈ N, ∀ n' ∈ N, Settled {n} n'.1 n'.2 → n = n'

section

variable {L : Library} {f r c : DdNode} {out : List DotLine} {N : Set (DdNode × Bool)}
  {a : Assignment} {v p : Bool} {level : ℕ}

theorem exists_dotGraph (hf : L.WF f) (hinner : cddIsterminal f = false) :
    ∃ N, DotGraph f (cddFprintdot ∅ f true).1 N := by
  obtain ⟨N, hN⟩ := cddFprintdotRec_spec true hf .root
    ((⟨∅, [], []⟩ : Dot).print [.terminal cddtrue true, .terminal cddfalse false])
  have hempty : ∀ c q, ((⟨∅, [], []⟩ : Dot).print
      [.terminal cddtrue true, .terminal cddfalse false]).Done c q → cddIsterminal c = true := by
    intro c q h
    cases c with
    | terminal | xterm => rfl
    | bdd => cases h
    | cdd => exact absurd h (Finset.notMem_empty _)
  have hout : (cddFprintdot ∅ f true).1 = (cddFprintdotRec true f false
      ((⟨∅, [], []⟩ : Dot).print [.terminal cddtrue true, .terminal cddfalse false])).out := by
    unfold cddFprintdot
    rw [hinner]
    rfl
  refine ⟨N, ?_, ?_, hN.walk.visited, ?_, ?_, hN.walk.unique⟩
  · intro line
    rw [hout, hN.walk.lines]
    simp [Dot.print]
  · exact hN.self fun h ↦ absurd (hempty f false h) (by simp [hinner])
  · exact fun n hn ↦ inner_of_not_done (hN.walk.fresh n hn)
  · intro n hn c hc
    cases (hN.walk.done _ _).mp (hN.closed n hn c hc) with
    | inl h =>
      have hterm := hempty _ _ h
      cases c with
      | terminal | xterm => trivial
      | bdd | cdd => cases hterm
    | inr h => exact h

/-! ### The intervals of a CDD node -/

/-- The edge that the point selects, with the annotation that its target gets. -/
def chosen (c : Cut INF) : List (DdNode × Raw) → Option Bool → Option DotName
  | [], _ => none
  | (child, upper) :: es, appendix =>
    let appendix := if child = cddtrue then none else appendix
    if c.below upper then some (child, appendix) else chosen c es appendix

theorem chosen_eq_select (c : Cut INF) (es : List (DdNode × Raw)) (appendix : Option Bool) :
    (chosen c es appendix).map (·.1) = select c es := by
  induction es generalizing appendix with
  | nil => rfl
  | cons e es ih =>
    obtain ⟨child, upper⟩ := e
    rw [chosen, select_cons]
    cases c.below upper with
    | true => rfl
    | false => exact ih _

variable {name t : DotName} {es : List (DdNode × Raw)} {appendix : Option Bool} {bnd : Raw}

theorem mem_intervalLines_cons {child : DdNode} {upper lower upper' : Raw} {dashed : Bool}
    (hp : Partition INF ((child, upper) :: es)) :
    DotLine.interval name t dashed lower upper' ∈
        intervalLines name ((child, upper) :: es) appendix bnd ↔
      child ≠ cddfalse ∧ t = (child, if child = cddtrue then none else appendix) ∧
          dashed = cddMask child ∧ lower = bnd ∧ upper' = upper ∨
        DotLine.interval name t dashed lower upper' ∈
          intervalLines name es (if child = cddtrue then none else appendix) upper := by
  have htail : DotLine.interval name t dashed lower upper' ∈ (if upper < INF then
      intervalLines name es (if child = cddtrue then none else appendix) upper else []) ↔
      DotLine.interval name t dashed lower upper' ∈
        intervalLines name es (if child = cddtrue then none else appendix) upper := by
    cases hp.tail_cases with
    | inl hlast =>
      obtain ⟨rfl, htop⟩ := hlast
      rw [if_neg (not_lt.mpr (le_of_eq htop.symm)), intervalLines]
    | inr hmore =>
      obtain ⟨x, xs, rfl⟩ := List.exists_cons_of_ne_nil hmore.1.ne_nil
      rw [if_pos (lt_of_lt_of_le (hmore.2 x rfl) (le_INF _))]
  rw [intervalLines, List.mem_append, htail]
  refine or_congr_left ?_
  by_cases hf : child = cddfalse
  · simp [hf]
  · simp [hf]

/-- Beyond the point there are no more intervals that it meets. -/
theorem not_inInterval_of_below {c : Cut INF} (hp : Partition INF es) (hbnd : -INF < bnd)
    (hhead : ∀ e ∈ es, bnd < e.2) (hc : c.below bnd = true) :
    ∀ t dashed lower upper, DotLine.interval name t dashed lower upper ∈
      intervalLines name es appendix bnd → ¬ InInterval c lower upper := by
  induction es generalizing appendix bnd with
  | nil => exact nofun
  | cons e es ih =>
    obtain ⟨child, u⟩ := e
    intro t dashed lower upper hline hmeets
    have hu : bnd < u := hhead _ List.mem_cons_self
    rw [mem_intervalLines_cons hp] at hline
    cases hline with
    | inl h =>
      obtain ⟨-, -, -, rfl, rfl⟩ := h
      cases hmeets.1 with
      | inl h => exact absurd h hbnd.ne'
      | inr h => exact absurd (hc.symm.trans h) nofun
    | inr h =>
      cases hp.tail_cases with
      | inl hlast =>
        rw [hlast.1] at h
        cases h
      | inr hmore =>
        exact ih hmore.1 (lt_trans hbnd hu) hp.lt_of_mem (c.mono hu.le hc) t dashed lower upper h
          hmeets

/-- The edges that match are those of the selected child, unless it is `cddfalse`. -/
theorem exists_interval_iff (name : DotName) {c : Cut INF} (hp : Partition INF es) (hr : ∀ e ∈ es, -INF < e.2)
    (hbnd : bnd = -INF ∨ c.below bnd = false) :
    (∃ dashed lower upper, DotLine.interval name t dashed lower upper ∈
        intervalLines name es appendix bnd ∧ InInterval c lower upper) ↔
      chosen c es appendix = some t ∧ t.1 ≠ cddfalse := by
  induction es generalizing appendix bnd with
  | nil => exact hp.elim
  | cons e es ih =>
    obtain ⟨child, u⟩ := e
    have hu : -INF < u := hr _ List.mem_cons_self
    rw [chosen]
    simp only [mem_intervalLines_cons hp]
    cases hc : c.below u with
    | true =>
      rw [if_pos rfl]
      constructor
      · rintro ⟨dashed, lower, upper, ⟨hf, rfl, -, -, -⟩ | hline, hmeets⟩
        · exact ⟨rfl, hf⟩
        · cases hp.tail_cases with
          | inl hlast =>
            rw [hlast.1] at hline
            cases hline
          | inr hmore =>
            exact absurd hmeets (not_inInterval_of_below hmore.1 hu hp.lt_of_mem hc _ _ _ _ hline)
      · rintro ⟨hsome, hf⟩
        cases hsome
        exact ⟨_, bnd, u, .inl ⟨hf, rfl, rfl, rfl, rfl⟩, hbnd, hc⟩
    | false =>
      rw [if_neg Bool.false_ne_true]
      cases hp.tail_cases with
      | inl hlast =>
        have htop : u = INF := hlast.2
        rw [htop, c.top_below] at hc
        cases hc
      | inr hmore =>
        rw [← ih hmore.1 (fun x hx ↦ hr x (List.mem_cons_of_mem _ hx)) (.inr hc)]
        constructor
        · rintro ⟨dashed, lower, upper, ⟨-, -, -, -, rfl⟩ | hline, hmeets⟩
          · exact absurd (hc.symm.trans hmeets.2) nofun
          · exact ⟨dashed, lower, upper, hline, hmeets⟩
        · rintro ⟨dashed, lower, upper, hline, hmeets⟩
          exact ⟨dashed, lower, upper, .inr hline, hmeets⟩

/-- The point just below a bound. -/
def upTo (b : Raw) : Cut INF where
  below x := b ≤ x
  mono h hb := by
    rw [decide_eq_true_eq] at hb ⊢
    exact le_trans hb h
  top_below := decide_eq_true (le_INF b)

/-- The point just below the bound of an edge selects that edge. -/
theorem select_upTo (hp : Partition INF es) {e : DdNode × Raw} (he : e ∈ es) :
    select (upTo e.2) es = some e.1 := by
  induction es with
  | nil => cases he
  | cons x es ih =>
    rw [select_cons]
    cases List.mem_cons.mp he with
    | inl h =>
      subst h
      have hself : (upTo e.2).below e.2 = true := decide_eq_true le_rfl
      rw [if_pos hself]
    | inr h =>
      have hlt := hp.lt_of_mem e h
      have hbelow : ¬ (upTo e.2).below x.2 = true := by
        rw [upTo, decide_eq_true_eq]
        exact not_le.mpr hlt
      rw [if_neg hbelow]
      cases hp.tail_cases with
      | inl hlast =>
        rw [hlast.1] at h
        cases h
      | inr hmore => exact ih hmore.1 h

/-- No inner child follows a child `cddtrue`. -/
def InnerFirst (es : List (DdNode × Raw)) : Prop :=
  es.Pairwise fun e e' ↦ e.1 = cddtrue → cddIsterminal e'.1 = true

/-- The name of the target of an edge is the one under which it is printed. -/
structure Named (q : Bool) (t : DotName) : Prop where
  ne_false : t.1 ≠ cddfalse
  terminal : t.1 = cddtrue → t.2 = none
  inner : cddIsterminal t.1 = false → t.2 = some q

theorem named_of_interval {q dashed : Bool} {lower upper : Raw} (hp : Partition INF es)
    (hes : InnerFirst es) (happ : appendix = some q ∨ ∀ e ∈ es, cddIsterminal e.1 = true)
    (h : DotLine.interval name t dashed lower upper ∈ intervalLines name es appendix bnd) :
    Named q t ∧ ∃ e ∈ es, e.1 = t.1 := by
  induction es generalizing appendix bnd with
  | nil => cases h
  | cons e es ih =>
    obtain ⟨child, u⟩ := e
    obtain ⟨hfirst, hes⟩ := List.pairwise_cons.mp hes
    rw [mem_intervalLines_cons hp] at h
    cases h with
    | inl h =>
      obtain ⟨hf, rfl, -, -, -⟩ := h
      refine ⟨⟨hf, fun ht ↦ if_pos ht, ?_⟩, _, List.mem_cons_self, rfl⟩
      intro hinner
      have hinner : cddIsterminal child = false := hinner
      have hne : child ≠ cddtrue := by
        rintro rfl
        cases hinner
      show (if child = cddtrue then none else appendix) = some q
      rw [if_neg hne]
      cases happ with
      | inl happ => exact happ
      | inr happ => exact absurd ((happ _ List.mem_cons_self).symm.trans hinner) nofun
    | inr h =>
      cases hp.tail_cases with
      | inl hlast =>
        rw [hlast.1] at h
        cases h
      | inr hmore =>
        have happ' : (if child = cddtrue then none else appendix) = some q ∨
            ∀ e ∈ es, cddIsterminal e.1 = true := by
          by_cases ht : child = cddtrue
          · exact .inr fun e he ↦ hfirst e he ht
          · rw [if_neg ht]
            exact happ.imp_right fun happ e he ↦ happ e (List.mem_cons_of_mem _ he)
        obtain ⟨hname, e, he, het⟩ := ih hmore.1 hes happ' h
        exact ⟨hname, e, List.mem_cons_of_mem _ he, het⟩

/-- If the edges without an annotation lead to terminals, no inner child follows `cddtrue`. -/
theorem innerFirst_of_interval (hp : Partition INF es)
    (h : ∀ t dashed lower upper, DotLine.interval name t dashed lower upper ∈
      intervalLines name es appendix bnd → t.2 = none → cddIsterminal t.1 = true) :
    InnerFirst es ∧ (appendix = none → ∀ e ∈ es, cddIsterminal e.1 = true) := by
  induction es generalizing appendix bnd with
  | nil => exact hp.elim
  | cons e es ih =>
    obtain ⟨child, u⟩ := e
    simp only [mem_intervalLines_cons hp] at h
    have htail : InnerFirst es ∧ ((if child = cddtrue then none else appendix) = none →
        ∀ e ∈ es, cddIsterminal e.1 = true) := by
      cases hp.tail_cases with
      | inl hlast =>
        rw [hlast.1]
        exact ⟨List.Pairwise.nil, fun _ ↦ nofun⟩
      | inr hmore => exact ih hmore.1 fun t d lo up hline ↦ h t d lo up (.inr hline)
    refine ⟨List.pairwise_cons.mpr ⟨fun e he ht ↦ htail.2 (if_pos ht) e he, htail.1⟩, ?_⟩
    intro happ
    have happ' : (if child = cddtrue then none else appendix) = none := by
      rw [happ, ite_self]
    rw [List.forall_mem_cons]
    refine ⟨?_, htail.2 happ'⟩
    by_cases hf : child = cddfalse
    · rw [hf]
      rfl
    · exact h _ _ _ _ (.inl ⟨hf, rfl, rfl, rfl, rfl⟩) happ'

/-- The child that the point selects, with its name. -/
theorem exists_chosen {c : Cut INF} {q : Bool} (hp : Partition INF es)
    (hr : ∀ e ∈ es, -INF < e.2) (hes : InnerFirst es) :
    ∃ t, chosen c es (some q) = some t ∧ select c es = some t.1 ∧
      (t.1 ≠ cddfalse → Named q t) := by
  obtain ⟨d, u, hsel, hmem, -⟩ := hp.select_isSome c
  have hmap := chosen_eq_select c es (some q)
  rw [hsel, Option.map_eq_some_iff] at hmap
  obtain ⟨t, ht, rfl⟩ := hmap
  refine ⟨t, ht, hsel, ?_⟩
  intro hne
  obtain ⟨dashed, lower, upper, hline, -⟩ :=
    (exists_interval_iff (t.1, none) (t := t) hp hr (.inl rfl)).mpr ⟨ht, hne⟩
  exact (named_of_interval hp hes (.inl rfl) hline).1

/-! ### One step through the graph -/

/-- The node that a line is about. -/
def DotLine.owner : DotLine → DotName
  | .terminal r _ => (r, none)
  | .bool name _ _ | .diff name _ _ => name
  | .arrow source _ _ | .interval source _ _ _ _ => source

theorem interval_of_intervalLines {line : DotLine}
    (h : line ∈ intervalLines name es appendix bnd) :
    ∃ t dashed lower upper, line = .interval name t dashed lower upper := by
  induction es generalizing appendix bnd with
  | nil => cases h
  | cons e es ih =>
    rw [intervalLines, List.mem_append] at h
    cases h with
    | inl h =>
      split_ifs at h
      · cases h
      all_goals exact ⟨_, _, _, _, List.mem_singleton.mp h⟩
    | inr h =>
      split_ifs at h
      · exact ih h
      · exact ih h
      · cases h

theorem owner_of_intervalLines {line : DotLine} (h : line ∈ intervalLines name es appendix bnd) :
    line.owner = name ∧ line.declared = none := by
  obtain ⟨t, dashed, lower, upper, rfl⟩ := interval_of_intervalLines h
  exact ⟨rfl, rfl⟩

theorem owner_of_nodeLines {flip : Bool} {line : DotLine} (h : line ∈ nodeLines flip r p) :
    line.owner = (r, some p) := by
  cases r with
  | terminal | xterm => cases h
  | bdd neg level low high =>
    rw [nodeLines, List.mem_cons, List.mem_pair] at h
    rcases h with rfl | rfl | rfl <;> rfl
  | cdd neg level elem =>
    rw [nodeLines, List.mem_cons] at h
    cases h with
    | inl h => rw [h]; rfl
    | inr h => exact (owner_of_intervalLines h).1

namespace DotGraph

variable {line : DotLine}

/-- The lines about an inner node are its own. -/
theorem mem_iff (G : DotGraph f out N) (hn : (r, p) ∈ N) (hl : line.owner = (r, some p)) :
    line ∈ out ↔ line ∈ nodeLines true r p := by
  rw [G.lines]
  constructor
  · rintro (h | ⟨⟨d, q⟩, -, h⟩)
    · rcases List.mem_pair.mp h with rfl | rfl <;> cases hl
    · have howner := owner_of_nodeLines h
      rw [hl] at howner
      cases howner
      exact h
  · exact fun h ↦ .inr ⟨(r, p), hn, h⟩

/-- The lines about a terminal declare it. -/
theorem eq_terminal (G : DotGraph f out N) (h : line ∈ out) (hl : line.owner = (r, none)) :
    ∃ b, r = .terminal b ∧ line = .terminal (.terminal b) b := by
  rcases (G.lines line).mp h with h | ⟨⟨d, q⟩, -, h⟩
  · rcases List.mem_pair.mp h with rfl | rfl
    · cases hl
      exact ⟨true, rfl, rfl⟩
    · cases hl
      exact ⟨false, rfl, rfl⟩
  · have howner := owner_of_nodeLines h
    rw [hl] at howner
    cases howner

theorem terminal_mem (G : DotGraph f out N) (b : Bool) :
    DotLine.terminal (.terminal b) b ∈ out := by
  rw [G.lines]
  left
  cases b
  · exact List.mem_cons_of_mem _ List.mem_cons_self
  · exact List.mem_cons_self

/-- A terminal leads to its label. -/
theorem leads_terminal (G : DotGraph f out N) {b : Bool} :
    Leads out a (.terminal b, none) v ↔ v = b := by
  constructor
  · intro h
    cases h with
    | terminal h =>
      obtain ⟨b', hr, hl⟩ := G.eq_terminal h rfl
      cases hr
      cases hl
      rfl
    | bool h =>
      obtain ⟨_, _, hl⟩ := G.eq_terminal h rfl
      cases hl
    | diff h =>
      obtain ⟨_, _, hl⟩ := G.eq_terminal h rfl
      cases hl
    | missing h =>
      obtain ⟨_, _, hl⟩ := G.eq_terminal h rfl
      cases hl
  · rintro rfl
    exact .terminal (G.terminal_mem v)

/-- A Boolean node leads where the child that the assignment picks leads. -/
theorem leads_bdd (G : DotGraph f out N) {neg : Bool} {low high : DdNode}
    (hn : (.bdd neg level low high, p) ∈ N) :
    Leads out a (.bdd neg level low high, some p) v ↔
      Leads out a (arrowTarget true (neg ^^ p) (bif a.bool level then high else low)) v := by
  have hbool : ∀ red ℓ, DotLine.bool (.bdd neg level low high, some p) red ℓ ∈ out ↔
      red = neg ∧ ℓ = level := by
    intro red ℓ
    rw [G.mem_iff hn rfl]
    simp [nodeLines]
  have harrow : ∀ t dashed, DotLine.arrow (.bdd neg level low high, some p) t dashed ∈ out ↔
      t = arrowTarget true (neg ^^ p) (bif dashed then low else high) := by
    intro t dashed
    rw [G.mem_iff hn rfl]
    cases dashed <;> simp [nodeLines]
  constructor
  · intro h
    cases h with
    | bool hb ht hd hl =>
      obtain ⟨-, rfl⟩ := (hbool _ _).mp hb
      rw [harrow] at ht
      subst ht
      rw [hd]
      rename_i dashed
      cases dashed
      · exact hl
      · exact hl
    | diff h =>
      rw [G.mem_iff hn rfl] at h
      simp [nodeLines] at h
    | missing h =>
      rw [G.mem_iff hn rfl] at h
      simp [nodeLines] at h
  · intro h
    refine .bool ((hbool neg level).mpr ⟨rfl, rfl⟩) ((harrow _ (!a.bool level)).mpr ?_) ?_ h
    · cases a.bool level <;> rfl
    · rw [Bool.not_not]

/-- A CDD node leads where the child that the point selects leads, or to false when that is
`cddfalse`. -/
theorem leads_cdd (G : DotGraph f out N) {neg : Bool} {elem : List (DdNode × Raw)}
    (hn : (.cdd neg level elem, p) ∈ N) (hp : Partition INF elem) (hr : ∀ e ∈ elem, -INF < e.2)
    {t : DotName} (ht : chosen (a.diff level) elem (some (neg ^^ p)) = some t) :
    Leads out a (.cdd neg level elem, some p) v ↔
      if t.1 = cddfalse then v = false else Leads out a t v := by
  have hdiff : ∀ red ℓ, DotLine.diff (.cdd neg level elem, some p) red ℓ ∈ out ↔
      red = neg ∧ ℓ = level := by
    intro red ℓ
    rw [G.mem_iff hn rfl, nodeLines, List.mem_cons]
    constructor
    · rintro (h | h)
      · cases h
        exact ⟨rfl, rfl⟩
      · exact absurd (owner_of_intervalLines h).2 nofun
    · rintro ⟨rfl, rfl⟩
      exact .inl rfl
  have hedge : ∀ t', (∃ dashed lower upper,
      DotLine.interval (.cdd neg level elem, some p) t' dashed lower upper ∈ out ∧
        InInterval (a.diff level) lower upper) ↔ t = t' ∧ t'.1 ≠ cddfalse := by
    intro t'
    have hline : ∀ dashed lower upper,
        DotLine.interval (.cdd neg level elem, some p) t' dashed lower upper ∈ out ↔
          DotLine.interval (.cdd neg level elem, some p) t' dashed lower upper ∈ intervalLines
            (.cdd neg level elem, some p) elem (some (neg ^^ p)) (-INF) := by
      intro dashed lower upper
      rw [G.mem_iff hn rfl, nodeLines, List.mem_cons]
      exact or_iff_right nofun
    simp only [hline]
    rw [exists_interval_iff _ hp hr (.inl rfl), ht, Option.some_inj]
  constructor
  · intro h
    cases h with
    | bool h =>
      rw [G.mem_iff hn rfl, nodeLines, List.mem_cons] at h
      cases h with
      | inl h => cases h
      | inr h => exact absurd (owner_of_intervalLines h).2 nofun
    | diff hd he hm hl =>
      obtain ⟨-, rfl⟩ := (hdiff _ _).mp hd
      obtain ⟨rfl, hne⟩ := (hedge _).mp ⟨_, _, _, he, hm⟩
      rw [if_neg hne]
      exact hl
    | missing hd hnone =>
      obtain ⟨-, rfl⟩ := (hdiff _ _).mp hd
      by_cases hf : t.1 = cddfalse
      · rw [if_pos hf]
      · obtain ⟨dashed, lower, upper, hline, hm⟩ := (hedge t).mpr ⟨rfl, hf⟩
        exact absurd hm (hnone t dashed lower upper hline)
  · intro h
    have hdecl := (hdiff neg level).mpr ⟨rfl, rfl⟩
    split_ifs at h with hf
    · subst h
      refine .missing hdecl ?_
      intro t' dashed lower upper hline hm
      obtain ⟨rfl, hne⟩ := (hedge t').mp ⟨dashed, lower, upper, hline, hm⟩
      exact hne hf
    · obtain ⟨dashed, lower, upper, hline, hm⟩ := (hedge t).mpr ⟨rfl, hf⟩
      exact .diff hdecl hline hm h

/-- The names that are declared. -/
theorem declared_iff (G : DotGraph f out N) {name : DotName} :
    (∃ decl ∈ out, decl.declared = some name) ↔
      (∃ b, name = (.terminal b, none)) ∨ ∃ n ∈ N, name = (n.1, some n.2) := by
  constructor
  · rintro ⟨decl, hdecl, hname⟩
    rcases (G.lines decl).mp hdecl with h | ⟨n, hn, h⟩
    · left
      rcases List.mem_pair.mp h with rfl | rfl
      · exact ⟨true, (Option.some.inj hname).symm⟩
      · exact ⟨false, (Option.some.inj hname).symm⟩
    · right
      have howner : decl.declared = some decl.owner := by
        cases decl with
        | terminal | bool | diff => rfl
        | arrow | interval => cases hname
      rw [owner_of_nodeLines h, hname] at howner
      exact ⟨n, hn, Option.some.inj howner⟩
  · rintro (⟨b, rfl⟩ | ⟨n, hn, rfl⟩)
    · exact ⟨_, G.terminal_mem b, rfl⟩
    · have hinner := G.inner n hn
      obtain ⟨r, p⟩ := n
      cases r with
      | terminal | xterm => cases hinner
      | bdd neg level low high =>
        exact ⟨_, (G.mem_iff hn rfl).mpr List.mem_cons_self, rfl⟩
      | cdd neg level elem =>
        exact ⟨.diff (.cdd neg level elem, some p) neg level,
          (G.mem_iff hn rfl).mpr List.mem_cons_self, rfl⟩

end DotGraph

/-! ### When the graph shows the function -/

/-- What the printing of CDD nodes asks of the diagram: a node that is reached with an odd number
of negations, its own included, has no terminal child; no inner child follows `cddtrue`; and no
stored CDD node is reached under two pointers or annotations. -/
structure DotExact (f : DdNode) : Prop where
  flipped : ∀ neg level elem p, Visited f (.cdd neg level elem) p → (neg ^^ p) = true →
    ∀ e ∈ elem, cddIsterminal e.1 = false
  innerFirst : ∀ neg level elem p, Visited f (.cdd neg level elem) p → InnerFirst elem
  once : ∀ neg neg' level elem p p', Visited f (.cdd neg level elem) p →
    Visited f (.cdd neg' level elem) p' → neg = neg' ∧ p = p'

theorem Visited.wf (hf : L.WF f) (h : Visited f r p) : L.WF r := by
  induction h with
  | root => exact hf
  | child _ hc ih =>
    cases ih with
    | terminal | xterm => cases hc
    | bdd _ _ _ _ _ _ hl hh =>
      rcases List.mem_pair.mp hc with rfl | rfl
      · exact hh
      · exact hl
    | cdd _ _ _ _ _ _ _ hw =>
      obtain ⟨-, e, he, rfl⟩ := mem_dotChildren_cdd.mp hc
      exact hw e he

theorem Visited.inRange (hf : InRange f) (h : Visited f r p) : InRange r := by
  induction h with
  | root => exact hf
  | child _ hc ih =>
    cases ih with
    | terminal | xterm => cases hc
    | bdd _ _ hl hh =>
      rcases List.mem_pair.mp hc with rfl | rfl
      · exact hh
      · exact hl
    | cdd _ _ _ hw =>
      obtain ⟨-, e, he, rfl⟩ := mem_dotChildren_cdd.mp hc
      exact hw e he

namespace DotGraph

/-- A node that is settled is printed, when no CDD node is reached in two ways. -/
theorem mem_of_settled (G : DotGraph f out N) (hf : DotExact f) (hv : Visited f r p)
    (hs : Settled N r p) (hinner : cddIsterminal r = false) : (r, p) ∈ N := by
  cases r with
  | terminal | xterm => cases hinner
  | bdd => exact hs
  | cdd neg level elem =>
    obtain ⟨⟨d, q⟩, hn, hr⟩ := hs
    have hv' := G.visited _ hn
    cases d with
    | terminal | xterm | bdd => cases hr
    | cdd neg' level' elem' =>
      have hreg : cddRglr (.cdd neg' level' elem') = .cdd false level' elem' := by
        cases neg' <;> rfl
      cases hreg.symm.trans hr
      obtain ⟨rfl, rfl⟩ := hf.once neg' neg level elem q p hv' hv
      exact hn

theorem child_mem (G : DotGraph f out N) (hf : DotExact f) (hn : (r, p) ∈ N)
    (hc : c ∈ dotChildren r) (hinner : cddIsterminal c = false) : (c, cddMask r ^^ p) ∈ N := by
  rw [Bool.xor_comm]
  exact G.mem_of_settled hf ((G.visited _ hn).child hc) (G.settled _ hn c hc) hinner

/-- The graph leads from a node to its value, flipped when it is reached with an odd number of
negations. -/
theorem leads_iff (G : DotGraph f out N) (hwf : L.WF f) (hrange : InRange f) (hf : DotExact f)
    (hn : (r, p) ∈ N) : Leads out a (r, some p) v ↔ v = (eval a r ^^ p) := by
  induction r generalizing p v with
  | terminal | xterm => cases G.inner _ hn
  | bdd neg level low high ihl ihh =>
    have hchild : ∀ b, Leads out a
        (arrowTarget true (neg ^^ p) (bif b then high else low)) v ↔
          v = (eval a (bif b then high else low) ^^ (neg ^^ p)) := by
      intro b
      have hmem : (bif b then high else low) ∈ dotChildren (.bdd neg level low high) := by
        cases b <;> simp [dotChildren]
      have hih : ∀ p', ((bif b then high else low), p') ∈ N →
          (Leads out a ((bif b then high else low), some p') v ↔
            v = (eval a (bif b then high else low) ^^ p')) := by
        intro p' hp'
        cases b
        · exact ihl hp'
        · exact ihh hp'
      have hwfc := ((G.visited _ hn).child hmem).wf hwf
      generalize (bif b then high else low) = d at hmem hih hwfc ⊢
      cases hterm : cddIsterminal d with
      | true =>
        obtain ⟨b', rfl⟩ : ∃ b', d = .terminal b' := by
          cases hwfc.eq_terminal hterm with
          | inl h => exact ⟨true, h⟩
          | inr h => exact ⟨false, h⟩
        have htarget : arrowTarget true (neg ^^ p) (.terminal b') =
            (.terminal (b' ^^ (neg ^^ p)), none) := by
          cases neg ^^ p <;> simp [arrowTarget, cddIsterminal, cddNeg, cddNegCond]
        rw [htarget, G.leads_terminal, eval]
      | false =>
        have htarget : arrowTarget true (neg ^^ p) d = (d, some (neg ^^ p)) := by
          simp [arrowTarget, hterm]
        rw [htarget]
        exact hih _ (G.child_mem hf hn hmem hterm)
    rw [G.leads_bdd hn, hchild, eval]
    have hcase : eval a (bif a.bool level then high else low) =
        bif a.bool level then eval a high else eval a low := by
      cases a.bool level <;> rfl
    rw [hcase, ← Bool.xor_assoc, Bool.xor_comm _ neg]
  | cdd neg level elem ih =>
    have hv := G.visited _ hn
    cases hv.wf hwf with
    | cdd _ _ hl hp _ _ _ hw =>
      have hr : ∀ e ∈ elem, -INF < e.2 := (hv.inRange hrange).of_cdd.2.1
      obtain ⟨t, ht, hsel, hname⟩ :=
        exists_chosen (c := a.diff level) (q := neg ^^ p) hp hr (hf.innerFirst _ _ _ _ hv)
      obtain ⟨e, he, het⟩ := mem_of_select hsel
      rw [G.leads_cdd hn hp hr ht, eval, evalElem_of_select hsel]
      cases hterm : cddIsterminal t.1 with
      | true =>
        have hq : (neg ^^ p) = false := by
          rw [← Bool.not_eq_true]
          intro hq
          have hinner := hf.flipped _ _ _ _ hv hq e he
          rw [het, hterm] at hinner
          cases hinner
        have hval : ∀ b, (neg ^^ b ^^ p) = b := by
          intro b
          rw [Bool.xor_comm neg, Bool.xor_assoc, hq, Bool.xor_false]
        rw [hval]
        cases (het ▸ hw e he : L.WF t.1).eq_terminal hterm with
        | inl htrue =>
          have hne : t.1 ≠ cddfalse := by
            rw [htrue]
            intro h
            cases h
          have htt : t = (.terminal true, none) := Prod.ext htrue ((hname hne).terminal htrue)
          rw [if_neg hne, htt, G.leads_terminal, eval]
        | inr hfalse => rw [if_pos hfalse, hfalse, eval_cddfalse]
      | false =>
        have hne : t.1 ≠ cddfalse := by
          intro h
          rw [h] at hterm
          cases hterm
        have hmem : t.1 ∈ dotChildren (.cdd neg level elem) :=
          mem_dotChildren_cdd.mpr ⟨hne, e, he, het⟩
        have htt : t = (e.1, some (neg ^^ p)) := Prod.ext het.symm ((hname hne).inner hterm)
        have hchild := G.child_mem hf hn hmem hterm
        rw [if_neg hne, htt, ih e he (het ▸ hchild)]
        rw [← Bool.xor_assoc, Bool.xor_comm _ neg]

theorem joined (G : DotGraph f out N) (hwf : L.WF f) (hf : DotExact f) :
    ∀ line ∈ out, ∀ name ∈ line.joins, ∃ decl ∈ out, decl.declared = some name := by
  intro line hline name hname
  rw [G.declared_iff]
  rcases (G.lines line).mp hline with h | ⟨⟨r, p⟩, hn, h⟩
  · rcases List.mem_pair.mp h with rfl | rfl <;> cases hname
  · have hv := G.visited _ hn
    have hwfr := hv.wf hwf
    have hself : ∃ n ∈ N, ((r, some p) : DotName) = (n.1, some n.2) := ⟨_, hn, rfl⟩
    cases r with
    | terminal | xterm => cases h
    | bdd neg level low high =>
      have hchild : ∀ c ∈ dotChildren (.bdd neg level low high),
          (∃ b, arrowTarget true (neg ^^ p) c = (.terminal b, none)) ∨
            ∃ n ∈ N, arrowTarget true (neg ^^ p) c = (n.1, some n.2) := by
        intro c hc
        cases hterm : cddIsterminal c with
        | true =>
          left
          rcases ((hv.child hc).wf hwf).eq_terminal hterm with rfl | rfl <;>
            cases neg ^^ p <;> exact ⟨_, rfl⟩
        | false =>
          right
          refine ⟨_, G.child_mem hf hn hc hterm, ?_⟩
          simp [arrowTarget, hterm, cddMask]
      rw [nodeLines, List.mem_cons, List.mem_pair] at h
      rcases h with rfl | rfl | rfl
      · cases hname
      · rcases List.mem_pair.mp hname with rfl | rfl
        · exact .inr hself
        · exact hchild high (by simp [dotChildren])
      · rcases List.mem_pair.mp hname with rfl | rfl
        · exact .inr hself
        · exact hchild low (by simp [dotChildren])
    | cdd neg level elem =>
      rw [nodeLines, List.mem_cons] at h
      cases h with
      | inl h =>
        subst h
        cases hname
      | inr h =>
        cases hwfr with
        | cdd _ _ _ hp =>
          obtain ⟨t, dashed, lower, upper, rfl⟩ := interval_of_intervalLines h
          obtain ⟨hnamed, e, he, het⟩ :=
            named_of_interval hp (hf.innerFirst _ _ _ _ hv) (.inl rfl) h
          rcases List.mem_pair.mp hname with rfl | rfl
          · exact .inr hself
          · have hmem : name.1 ∈ dotChildren (.cdd neg level elem) :=
              mem_dotChildren_cdd.mpr ⟨hnamed.ne_false, e, he, het⟩
            cases hterm : cddIsterminal name.1 with
            | true =>
              left
              have htrue := (((hv.child hmem).wf hwf).eq_terminal hterm).resolve_right
                hnamed.ne_false
              exact ⟨true, Prod.ext htrue (hnamed.terminal htrue)⟩
            | false =>
              right
              exact ⟨_, G.child_mem hf hn hmem hterm, Prod.ext rfl (hnamed.inner hterm)⟩

/-! ### What is needed -/

section

variable (hjoined : ∀ line ∈ out, ∀ name ∈ line.joins, ∃ decl ∈ out, decl.declared = some name)

include hjoined

/-- The target of an edge is a terminal without annotation or a node with one. -/
theorem target_of_joined (G : DotGraph f out N) {line : DotLine} (hl : line ∈ out) {t : DotName}
    (ht : t ∈ line.joins) : (t.2 = none → cddIsterminal t.1 = true) ∧
      ∀ q, t.2 = some q → (t.1, q) ∈ N := by
  rcases G.declared_iff.mp (hjoined line hl t ht) with ⟨b, rfl⟩ | ⟨n, hn, rfl⟩
  · exact ⟨fun _ ↦ rfl, nofun⟩
  · refine ⟨nofun, ?_⟩
    rintro q ⟨⟩
    exact hn

theorem innerFirst_of_joined (G : DotGraph f out N) (hwf : L.WF f) {neg : Bool}
    {elem : List (DdNode × Raw)} (hn : (.cdd neg level elem, p) ∈ N) : InnerFirst elem := by
  cases (G.visited _ hn).wf hwf with
  | cdd _ _ _ hp =>
    have htarget : ∀ t dashed lower upper, DotLine.interval (.cdd neg level elem, some p) t dashed
        lower upper ∈ intervalLines (.cdd neg level elem, some p) elem (some (neg ^^ p)) (-INF) →
        t.2 = none → cddIsterminal t.1 = true := by
      intro t dashed lower upper hline hnone
      have hmem := (G.mem_iff hn rfl).mpr (List.mem_cons_of_mem _ hline)
      exact (G.target_of_joined hjoined hmem (List.mem_cons_of_mem _ List.mem_cons_self)).1 hnone
    exact (innerFirst_of_interval hp htarget).1

/-- All nodes that are visited are printed. -/
theorem mem_of_joined (G : DotGraph f out N) (hwf : L.WF f) (hrange : InRange f)
    (hv : Visited f r p) (hinner : cddIsterminal r = false) : (r, p) ∈ N := by
  induction hv with
  | root => exact G.root
  | @child r p c hv hc ih =>
    have hwfr := hv.wf hwf
    cases r with
    | terminal | xterm => cases hc
    | bdd neg level low high =>
      have hn := ih rfl
      have htarget : ∀ dashed, arrowTarget true (neg ^^ p) c = (c, some (p ^^ neg)) ∧
          (DotLine.arrow (.bdd neg level low high, some p) (arrowTarget true (neg ^^ p) c) dashed ∈
            nodeLines true (.bdd neg level low high) p → (c, p ^^ neg) ∈ N) := by
        intro dashed
        have heq : arrowTarget true (neg ^^ p) c = (c, some (p ^^ neg)) := by
          simp [arrowTarget, hinner, Bool.xor_comm]
        refine ⟨heq, fun hline ↦ ?_⟩
        have hmem := (G.mem_iff hn rfl).mpr hline
        have htarget := G.target_of_joined hjoined hmem (List.mem_cons_of_mem _ List.mem_cons_self)
        rw [heq] at htarget
        exact htarget.2 _ rfl
      rcases List.mem_pair.mp hc with rfl | rfl
      · exact (htarget false).2 (by simp [nodeLines])
      · exact (htarget true).2 (by simp [nodeLines])
    | cdd neg level elem =>
      have hn := ih rfl
      obtain ⟨hne, e, he, rfl⟩ := mem_dotChildren_cdd.mp hc
      have hfirst := G.innerFirst_of_joined hjoined hwf hn
      cases hwfr with
      | cdd _ _ _ hp =>
        have hr : ∀ e ∈ elem, -INF < e.2 := (hv.inRange hrange).of_cdd.2.1
        obtain ⟨t, ht, hsel, hname⟩ :=
          exists_chosen (c := upTo e.2) (q := neg ^^ p) hp hr hfirst
        rw [select_upTo hp he] at hsel
        have het : e.1 = t.1 := Option.some.inj hsel
        obtain ⟨dashed, lower, upper, hline, -⟩ := (exists_interval_iff
          (.cdd neg level elem, some p) hp hr (.inl rfl)).mpr ⟨ht, het ▸ hne⟩
        have hmem := (G.mem_iff hn rfl).mpr (List.mem_cons_of_mem _ hline)
        have hin := (G.target_of_joined hjoined hmem
          (List.mem_cons_of_mem _ List.mem_cons_self)).2 _ ((hname (het ▸ hne)).inner (het ▸ hinner))
        rw [het, cddMask, Bool.xor_comm]
        exact hin

end

/-- Some values of the levels above a node lead to it, in the graph as in the diagram. -/
theorem exists_path_to (G : DotGraph f out N) (hwf : L.WF f) (hrange : InRange f)
    (hprinted : ∀ r p, Visited f r p → cddIsterminal r = false → (r, p) ∈ N)
    (hfirst : ∀ neg level elem p, (.cdd neg level elem, p) ∈ N → InnerFirst elem)
    (hv : Visited f r p) (hinner : cddIsterminal r = false) :
    ∃ a : Assignment, ∀ a' : Assignment,
      (∀ ℓ < r.level, a'.bool ℓ = a.bool ℓ ∧ a'.diff ℓ = a.diff ℓ) →
      (∀ v, Leads out a' (f, some false) v ↔ Leads out a' (r, some p) v) ∧
        eval a' f = (eval a' r ^^ p) := by
  induction hv with
  | root =>
    refine ⟨.lowest, fun a' _ ↦ ⟨fun v ↦ Iff.rfl, ?_⟩⟩
    rw [Bool.xor_false]
  | @child r p c hv hc ih =>
    have hwfr := hv.wf hwf
    cases r with
    | terminal | xterm => cases hc
    | bdd neg level low high =>
      obtain ⟨a, ha⟩ := ih rfl
      obtain ⟨b, hb⟩ : ∃ b, c = bif b then high else low := by
        rcases List.mem_pair.mp hc with rfl | rfl
        · exact ⟨true, rfl⟩
        · exact ⟨false, rfl⟩
      have hlevel : level < c.level := by
        cases hwfr with
        | bdd _ _ hl hh =>
          cases b
          · exact hb ▸ hl
          · exact hb ▸ hh
      refine ⟨a.setBool level b, ?_⟩
      intro a' ha'
      have hbit : a'.bool level = b := by
        rw [(ha' level hlevel).1, Assignment.setBool_bool]
      obtain ⟨hleads, heval⟩ := ha a' fun ℓ hℓ ↦ by
        have hℓ : ℓ < level := hℓ
        rw [(ha' ℓ (lt_trans hℓ hlevel)).1, (ha' ℓ (lt_trans hℓ hlevel)).2]
        exact ⟨Function.update_of_ne hℓ.ne _ _, rfl⟩
      constructor
      · intro v
        have htarget : arrowTarget true (neg ^^ p) c = (c, some (p ^^ neg)) := by
          simp [arrowTarget, hinner, Bool.xor_comm]
        rw [hleads, G.leads_bdd (hprinted _ _ hv rfl), hbit, ← hb, htarget, cddMask]
      · have hcase : (bif b then eval a' high else eval a' low) = eval a' c := by
          rw [hb]
          cases b <;> rfl
        rw [heval, eval, hbit, hcase, cddMask, Bool.xor_comm neg, Bool.xor_assoc,
          Bool.xor_comm neg p]
    | cdd neg level elem =>
      obtain ⟨a, ha⟩ := ih rfl
      have hn := hprinted _ _ hv rfl
      obtain ⟨hne, e, he, rfl⟩ := mem_dotChildren_cdd.mp hc
      cases hwfr with
      | cdd _ _ hl hp =>
        have hlevel := hl e he
        have hr : ∀ e ∈ elem, -INF < e.2 := (hv.inRange hrange).of_cdd.2.1
        refine ⟨a.setDiff level (upTo e.2), ?_⟩
        intro a' ha'
        have hpoint : a'.diff level = upTo e.2 := by
          rw [(ha' level hlevel).2, Assignment.setDiff_diff]
        obtain ⟨hleads, heval⟩ := ha a' fun ℓ hℓ ↦ by
          have hℓ : ℓ < level := hℓ
          rw [(ha' ℓ (lt_trans hℓ hlevel)).1, (ha' ℓ (lt_trans hℓ hlevel)).2]
          exact ⟨rfl, Function.update_of_ne hℓ.ne _ _⟩
        constructor
        · intro v
          obtain ⟨t, ht, hsel, hname⟩ := exists_chosen (c := a'.diff level) (q := neg ^^ p) hp hr
            (hfirst _ _ _ _ hn)
          rw [hpoint, select_upTo hp he] at hsel
          have het : e.1 = t.1 := Option.some.inj hsel
          have htt : t = (e.1, some (neg ^^ p)) :=
            Prod.ext het.symm ((hname (het ▸ hne)).inner (het ▸ hinner))
          rw [hleads, G.leads_cdd hn hp hr ht, if_neg (het ▸ hne), htt, cddMask,
            Bool.xor_comm p]
        · rw [heval, eval, hpoint, evalElem_of_select (select_upTo hp he), cddMask,
            Bool.xor_comm neg, Bool.xor_assoc, Bool.xor_comm neg p]

end DotGraph

theorem dotExact_of_terminal (h : cddIsterminal f = true) : DotExact f := by
  have hno : ∀ neg level elem p, ¬ Visited f (.cdd neg level elem) p := by
    intro neg level elem p hv
    have hroot : ∀ r p, Visited f r p → r = f := by
      intro r p hv
      induction hv with
      | root => rfl
      | child _ hc ih =>
        rw [ih] at hc
        cases f with
        | terminal | xterm => cases hc
        | bdd | cdd => cases h
    rw [← hroot _ _ hv] at h
    cases h
  constructor
  · intro neg level elem p hv
    exact absurd hv (hno _ _ _ _)
  · intro neg level elem p hv
    exact absurd hv (hno _ _ _ _)
  · intro neg neg' level elem p p' hv
    exact absurd hv (hno _ _ _ _)

theorem showsFunction_terminal {b : Bool} :
    ShowsFunction (cddFprintdot ∅ (.terminal b) true).1 (.terminal b) := by
  have hout : (cddFprintdot ∅ (.terminal b) true).1 = [.terminal (.terminal b) b] := rfl
  rw [hout]
  constructor
  · intro line hl name hname
    rw [List.mem_singleton] at hl
    subst hl
    cases hname
  · intro a
    rw [eval]
    constructor
    · intro h
      cases h with
      | terminal h =>
        cases List.mem_singleton.mp h
        rfl
      | bool h | diff h => cases List.mem_singleton.mp h
    · rintro rfl
      exact .terminal (List.mem_singleton_self _)

/-- A graph that shows the function has no CDD node with a terminal child that is reached with an
odd number of negations. -/
theorem ShowsFunction.flipped (h : ShowsFunction out f) (G : DotGraph f out N) (hwf : L.WF f)
    (hrange : InRange f) {neg : Bool} {elem : List (DdNode × Raw)}
    (hv : Visited f (.cdd neg level elem) p) (hq : (neg ^^ p) = true) :
    ∀ e ∈ elem, cddIsterminal e.1 = false := by
  have hprinted : ∀ r p, Visited f r p → cddIsterminal r = false → (r, p) ∈ N :=
    fun r p hv hinner ↦ G.mem_of_joined h.joined hwf hrange hv hinner
  have hfirst : ∀ neg level elem p, (.cdd neg level elem, p) ∈ N → InnerFirst elem :=
    fun neg level elem p hn ↦ G.innerFirst_of_joined h.joined hwf hn
  have hn := hprinted _ _ hv rfl
  obtain ⟨a, ha⟩ := G.exists_path_to hwf hrange hprinted hfirst hv rfl
  have hr : ∀ e ∈ elem, -INF < e.2 := (hv.inRange hrange).of_cdd.2.1
  have hroot : rootName f = (f, some false) := by
    rw [rootName, G.inner _ G.root]
    rfl
  cases hv.wf hwf with
  | cdd _ _ hl hp _ _ _ hw =>
    intro e he
    rw [← Bool.not_eq_true]
    intro hterm
    -- an assignment that leads to the terminal child
    obtain ⟨hleads, heval⟩ := ha (a.setDiff level (upTo e.2)) fun ℓ hℓ ↦
      ⟨rfl, Function.update_of_ne (Nat.ne_of_lt hℓ) _ _⟩
    obtain ⟨t, ht, hsel, hname⟩ := exists_chosen
      (c := (a.setDiff level (upTo e.2)).diff level) (q := neg ^^ p) hp hr (hfirst _ _ _ _ hn)
    rw [Assignment.setDiff_diff, select_upTo hp he] at hsel
    have het : e.1 = t.1 := Option.some.inj hsel
    have hvalue := h.value (a.setDiff level (upTo e.2))
    rw [hroot, hleads, G.leads_cdd hn hp hr ht, heval, eval, Assignment.setDiff_diff,
      evalElem_of_select (select_upTo hp he), Bool.xor_comm neg, Bool.xor_assoc, hq] at hvalue
    cases Library.WF.eq_terminal (hw e he) hterm with
    | inl htrue =>
      have hne : t.1 ≠ cddfalse := by
        rw [← het, htrue]
        intro h
        cases h
      have htt : t = (.terminal true, none) :=
        Prod.ext (het.symm.trans htrue) ((hname hne).terminal (het.symm.trans htrue))
      rw [if_neg hne, htt, G.leads_terminal, htrue, eval_cddtrue] at hvalue
      exact absurd (hvalue.mp rfl) (fun h ↦ by cases h)
    | inr hfalse =>
      rw [if_pos (het.symm.trans hfalse), hfalse, eval_cddfalse] at hvalue
      exact absurd (hvalue.mpr rfl) (fun h ↦ by cases h)

/-- The graph printed with `push_negate` shows the function exactly when no CDD node is printed
wrongly. -/
theorem showsFunction_iff (hwf : L.WF f) (hrange : InRange f) :
    ShowsFunction (cddFprintdot ∅ f true).1 f ↔ DotExact f := by
  cases hinner : cddIsterminal f with
  | true =>
    rcases hwf.eq_terminal hinner with rfl | rfl
    · exact ⟨fun _ ↦ dotExact_of_terminal hinner, fun _ ↦ showsFunction_terminal⟩
    · exact ⟨fun _ ↦ dotExact_of_terminal hinner, fun _ ↦ showsFunction_terminal⟩
  | false =>
    obtain ⟨N, G⟩ := exists_dotGraph hwf hinner
    constructor
    · intro h
      constructor
      · exact fun neg level elem p hv hq ↦ h.flipped G hwf hrange hv hq
      · intro neg level elem p hv
        exact G.innerFirst_of_joined h.joined hwf (G.mem_of_joined h.joined hwf hrange hv rfl)
      · intro neg neg' level elem p p' hv hv'
        have hn := G.mem_of_joined h.joined hwf hrange hv rfl
        have hn' := G.mem_of_joined h.joined hwf hrange hv' rfl
        have hset : Settled {(DdNode.cdd neg level elem, p)} (.cdd neg' level elem) p' := by
          refine ⟨_, rfl, ?_⟩
          cases neg <;> rfl
        cases G.unique _ hn _ hn' hset
        exact ⟨rfl, rfl⟩
    · intro hf
      constructor
      · exact G.joined hwf hf
      · intro a
        rw [rootName, hinner]
        have hleads := G.leads_iff (a := a) (v := true) hwf hrange hf G.root
        rw [Bool.xor_false] at hleads
        exact hleads.trans eq_comm

/-- The test `x1 - x0 ≥ 2` and its negation. -/
def sampleLower (neg : Bool) : DdNode := .cdd neg 0 [(cddfalse, 4), (cddtrue, INF)]

theorem inRange_sampleLower (neg : Bool) : InRange (sampleLower neg) := by
  apply All.cdd _ trivial
  · decide
  · rw [List.forall_mem_cons, List.forall_mem_singleton]
    exact ⟨.terminal _, .terminal _⟩

theorem visited_sampleLower {neg : Bool} (h : Visited (sampleLower neg) r p) :
    r = sampleLower neg ∧ p = false ∨ r = cddtrue := by
  induction h with
  | root => exact .inl ⟨rfl, rfl⟩
  | child _ hc ih =>
    rcases ih with ⟨rfl, rfl⟩ | rfl
    · obtain ⟨hne, e, he, rfl⟩ := mem_dotChildren_cdd.mp hc
      rcases List.mem_pair.mp he with rfl | rfl
      · exact absurd rfl hne
      · exact .inr rfl
    · cases hc

/-- The graph of the test, and that of its negation. -/
theorem showsFunction_iff_sample :
    ShowsFunction (cddFprintdot ∅ (sampleLower false) true).1 (sampleLower false) ∧
      (ShowsFunction (cddFprintdot ∅ (sampleLower true) true).1 (sampleLower true) ↔
        DotExact (sampleLower true)) := by
  have hexact : DotExact (sampleLower false) := by
    have hroot : ∀ neg level elem p, Visited (sampleLower false) (.cdd neg level elem) p →
        DdNode.cdd neg level elem = sampleLower false ∧ p = false := by
      intro neg level elem p hv
      exact (visited_sampleLower hv).resolve_right nofun
    constructor
    · intro neg level elem p hv hq
      obtain ⟨hr, rfl⟩ := hroot _ _ _ _ hv
      cases hr
      cases hq
    · intro neg level elem p hv
      obtain ⟨hr, rfl⟩ := hroot _ _ _ _ hv
      cases hr
      exact List.pairwise_pair.mpr nofun
    · intro neg neg' level elem p p' hv hv'
      obtain ⟨hr, rfl⟩ := hroot _ _ _ _ hv
      obtain ⟨hr', rfl⟩ := hroot _ _ _ _ hv'
      cases hr
      cases hr'
      exact ⟨rfl, rfl⟩
  have hwf : ∀ neg, sampleLibrary.WF (sampleLower neg) := by decide
  exact ⟨(showsFunction_iff (hwf false) (inRange_sampleLower false)).mpr hexact,
    showsFunction_iff (hwf true) (inRange_sampleLower true)⟩

/-- The graph of the negation leads to false where the test fails. -/
theorem not_showsFunction_negated :
    sampleLibrary.WF (sampleLower true) ∧
      ¬ ShowsFunction (cddFprintdot ∅ (sampleLower true) true).1 (sampleLower true) := by
  have hwf : sampleLibrary.WF (sampleLower true) := by decide
  refine ⟨hwf, ?_⟩
  intro h
  obtain ⟨N, G⟩ := exists_dotGraph hwf rfl
  have hvalue := h.value .lowest
  have heval : eval .lowest (sampleLower true) = true := rfl
  have hleads := G.leads_cdd (a := .lowest) (v := true) G.root (by decide) (by decide)
    (t := (cddfalse, some true)) rfl
  rw [if_pos rfl] at hleads
  exact absurd (hleads.mp (hvalue.mpr heval)) nofun

end

end UCDD

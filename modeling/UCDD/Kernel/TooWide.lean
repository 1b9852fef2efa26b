import UCDD.Kernel.Memory
import UCDD.Reduce.ApplyReduceCorrect

/-!
# Nodes that are too wide

What `cdd_apply` and `cdd_apply_reduce` do when a node needs more than `cdd_maxcddsize` children:
`cdd_make_cdd_node` returns `NULL` and `cdd_error` does not set `cdd_errorcond`, so every frame goes
on with the pointer. `cddop.c:1495–1760` is here with its stack and its references; it reads the
cache and does not write it. `cdd_tarjan_reduce_rec` never makes a wider node than it is given and
gives back what it takes.
-/

namespace UCDD

open IntervalMap DdNode

/-- The later children, `cddop.c:1664–1702`. -/
def applyReduceLoop (call : DdNode → DdNode → Fused → Memory → Option (Pointer × Fused × Memory))
    (mask0 : Bool) (i j : ℕ) : List ((DdNode × DdNode) × Raw) → Raw → DdNode → Fused → Memory →
      Option (DdNode × Fused × Memory)
  | [], _, prev, s, m => some (prev, s, m)
  | ((lp, rp), bnd) :: it, lower, prev, s, m => do
    let (consistent, graph) ← cddTarjanConsistent (cddTarjanPush s.graph j i (bndL2u lower).code)
    let s := { s with graph }
    if consistent then
      let (n, s, m) ← (if bnd < INF then
          (call lp rp { s with graph := cddTarjanPush s.graph i j bnd.code } m).map fun r ↦
            (r.1, { r.2.1 with graph := cddTarjanPop r.2.1.graph i }, r.2.2)
        else call lp rp s m)
      let s := { s with graph := cddTarjanPop s.graph j }
      if n = .node prev then applyReduceLoop call mask0 i j it bnd prev s m
      else
        let (n, m) ← (m.push (cddNegCond prev mask0) lower).ref n
        applyReduceLoop call mask0 i j it bnd n s m
    else return (prev, { s with graph := cddTarjanPop s.graph j }, m)

/-- The children from the first consistent one on, and the new node, `cddop.c:1649–1721`. The stack
goes back to `top`. -/
def applyReduceChildren (maxcddsize : ℕ∞)
    (call : DdNode → DdNode → Fused → Memory → Option (Pointer × Fused × Memory))
    (level i j : ℕ) (top : List (DdNode × Raw)) (lp rp : DdNode) (bnd : Raw)
    (it : List ((DdNode × DdNode) × Raw)) (s : Fused) (m : Memory) :
    Option (Pointer × Fused × Memory) := do
  let first := m.stack.length
  let (prev, s, m) ← call lp rp s m
  let (prev, m) ← m.ref prev
  let mask := cddMask prev
  let s := { s with graph := cddTarjanPop s.graph i }
  let (prev, s, m) ← applyReduceLoop call mask i j it bnd prev s m
  let m := m.push (cddNegCond prev mask) INF
  let (res, m) := m.makeCddNode maxcddsize level first
  return (res.negCond mask, s, { m.release first with stack := top })

/-- The search for the first consistent child, `cddop.c:1634–1648`. -/
def applyReduceSearch (maxcddsize : ℕ∞)
    (call : DdNode → DdNode → Fused → Memory → Option (Pointer × Fused × Memory))
    (level i j : ℕ) (top : List (DdNode × Raw)) :
    List ((DdNode × DdNode) × Raw) → Bool → Fused → Memory → Option (Pointer × Fused × Memory)
  | [], _, _, _ => none
  | ((lp, rp), bnd) :: it, next, s, m =>
    if next && bnd = INF then call lp rp s { m with stack := top }
    else do
      let (consistent, graph) ← cddTarjanConsistent (cddTarjanPush s.graph i j bnd.code)
      if consistent then
        applyReduceChildren maxcddsize call level i j top lp rp bnd it { s with graph } m
      else
        applyReduceSearch maxcddsize call level i j top it true
          { s with graph := cddTarjanPop graph i } m

/-- One frame of `cdd_apply_reduce_rec`, `cddop.c:1597–1742`. -/
def applyReduceFrame (L : Library) (maxcddsize : ℕ∞)
    (rec : DdNode → DdNode → Fused → Memory → Option (Pointer × Fused × Memory)) (l r : DdNode)
    (s : Fused) (m : Memory) : Option (Pointer × Fused × Memory) :=
  let call (c d : DdNode) := rec (cddNegCond c (cddMask l)) (cddNegCond d (cddMask r))
  let level := min l.level r.level
  match L.levelinfo[level]? with
  | some (.cdd i j) =>
    let top := m.stack
    let m := if l.level ≤ r.level then m else m.push (cddRglr l) INF
    let m := if r.level ≤ l.level then m else m.push (cddRglr r) INF
    applyReduceSearch maxcddsize call level i j top
      (refine INF (edgesAt level l) (edgesAt level r)) false s m
  | some .bdd => do
    let (n, s, m) ← call (lowAt level l) (lowAt level r) s m
    let (n, m) ← m.ref n
    let (h, s, m) ← call (highAt level l) (highAt level r) s m
    let res ← makeBddNode level n h
    return (.node res, s, m.deref n)
  | none => none

/-- `cdd_apply_reduce_rec`. -/
def applyReduceRec (L : Library) (maxcddsize : ℕ∞) (slot : DdNode → DdNode → CddOp → ℕ)
    (op : CddOp) :
    ℕ → DdNode → DdNode → Fused → Memory → Option (Pointer × Fused × Memory)
  | 0, _, _, _, _ => none
  | fuel + 1, l, r, s, m =>
    match cddTarjanConsistent s.graph with
    | some (true, graph) =>
      let s := { s with graph }
      if m.errorcond ≠ 0 then some (.null false, s, m)
      else
        match cddApplyReduceTerminal op l r with
        | some (.done d) => some (.node d, s, m)
        | some (.reduce d) => (s.reduce L d).map fun r ↦ (.node r.1, r.2, m)
        | none =>
          let (l, r) := if L.addr l > L.addr r then (r, l) else (l, r)
          let next := { s with lookups := s.lookups + 1 }
          match m.lookup (slot l r op) l r op with
          | some (.node res) =>
            (next.reduce L res).map fun r ↦ (.node r.1, r.2, (m.hold res 1).deref res)
          | some (.null _) => none
          | none =>
            applyReduceFrame L maxcddsize (applyReduceRec L maxcddsize slot op fuel) l r next m
    | _ => none

/-- `cdd_apply_reduce`. -/
def applyReduce (L : Library) (maxcddsize : ℕ∞) (slot : DdNode → DdNode → CddOp → ℕ) (op : CddOp)
    (l r : DdNode) (m : Memory) : Option (Pointer × Memory) := do
  let (res, _, m) ← applyReduceRec L maxcddsize slot op (l.height + r.height + 1) l r
    ⟨cddTarjanInit L.clocknum, 0⟩ m
  if m.errorcond ≠ 0 then return (.null false, (cddError m.errorcond m).2)
  else return (res, m)

/-- What the lookups in the cache find. -/
def Memory.found (m : Memory) (slot : DdNode → DdNode → CddOp → ℕ) : ApplyCache := fun _ l r op ↦
  match m.lookup (slot l r op) l r op with
  | some (.node d) => some d
  | _ => none

/-! ### Calls that do not write to the cache -/

section

open Memory

variable {L : Library} {size : ℕ∞} {m₀ : Memory}
  {callP : DdNode → DdNode → Fused → Option (DdNode × Fused)}
  {callM : DdNode → DdNode → Fused → Memory → Option (Pointer × Fused × Memory)}

/-- The cache and `cdd_errorcond` of the start. -/
structure SameCache (m₀ m : Memory) : Prop where
  cache : m.cache = m₀.cache
  errorcond : m.errorcond = 0

/-- A call that returns what the call without a limit returns unless that is too wide, and leaves
the memory as it is; a call whose diagram is too wide returns no node. -/
def Mimics (size : ℕ∞) (m₀ : Memory) (callP : Fused → Option (DdNode × Fused))
    (callM : Fused → Memory → Option (Pointer × Fused × Memory)) : Prop :=
  ∀ s m d s', SameCache m₀ m → callP s = some (d, s') →
    (WidthLe size d → callM s m = some (.node d, s', m)) ∧
    (¬ WidthLe size d → ∀ n t u, callM s m ≠ some (.node n, t, u))

/-- The call for a later child, with the bounds of its interval. -/
theorem Mimics.bounded {lp rp : DdNode} (h : Mimics size m₀ (callP lp rp) (callM lp rp)) {i j : ℕ} {bnd : Raw} :
    Mimics size m₀
      (fun s ↦ if bnd < INF then
          (callP lp rp { s with graph := cddTarjanPush s.graph i j bnd.code }).map fun r ↦
            (r.1, { r.2 with graph := cddTarjanPop r.2.graph i })
        else callP lp rp s)
      (fun s m ↦ if bnd < INF then
          (callM lp rp { s with graph := cddTarjanPush s.graph i j bnd.code } m).map fun r ↦
            (r.1, { r.2.1 with graph := cddTarjanPop r.2.1.graph i }, r.2.2)
        else callM lp rp s m) := by
  intro s m d s' hm hd
  by_cases hlt : bnd < INF
  · simp only [if_pos hlt] at hd ⊢
    obtain ⟨⟨d', t⟩, hcall, heq⟩ := Option.map_eq_some_iff.mp hd
    cases heq
    obtain ⟨hok, hbad⟩ := h _ m d' t hm hcall
    constructor
    · intro hw
      rw [hok hw]
      rfl
    · intro hw n u v hn
      obtain ⟨⟨p, t', u'⟩, hp, heq⟩ := Option.map_eq_some_iff.mp hn
      cases heq
      exact hbad hw n t' u' hp
  · simp only [if_neg hlt] at hd ⊢
    exact h s m d s' hm hd

/-- The new children on the stack, and the references that are held to them. -/
theorem applyReduceLoop_spec (mask0 : Bool) {i j : ℕ} {ps : List ((DdNode × DdNode) × Raw)}
    {lower : Raw} {prev : DdNode} {s s' : Fused} {elem : List (DdNode × Raw)}
    (hcall : ∀ e ∈ ps, Mimics size m₀ (callP e.1.1 e.1.2) (callM e.1.1 e.1.2))
    (h : applyReduceRest callP mask0 i j ps lower prev s = some (elem, s')) {m : Memory}
    (hm : SameCache m₀ m) :
    ((∀ e ∈ elem, WidthLe size e.1) → ∃ last t,
      applyReduceLoop callM mask0 i j ps lower prev s m = some (last, s', t) ∧ SameCache m₀ t ∧
      (t.push (cddNegCond last mask0) INF).stack = elem.reverse ++ m.stack ∧
      ∀ c, t.held c + (if cddRglr prev = c then 1 else 0) =
        m.held c + ((elem.map fun e ↦ cddRglr e.1).count c : ℤ)) ∧
    ((∃ e ∈ elem, ¬ WidthLe size e.1) → WidthLe size prev →
      applyReduceLoop callM mask0 i j ps lower prev s m = none) ∧
    ∃ e ∈ elem, e.1 = cddNegCond prev mask0 := by
  have hlast {t : Memory} (ht : SameCache m₀ t) (last : DdNode) :
      ((∀ e ∈ [(cddNegCond last mask0, INF)], WidthLe size e.1) → SameCache m₀ t ∧
      (t.push (cddNegCond last mask0) INF).stack =
        [(cddNegCond last mask0, INF)].reverse ++ t.stack ∧
      ∀ c, t.held c + (if cddRglr last = c then 1 else 0) = t.held c +
        (([(cddNegCond last mask0, INF)].map fun e ↦ cddRglr e.1).count c : ℤ)) ∧
      ((∃ e ∈ [(cddNegCond last mask0, INF)], ¬ WidthLe size e.1) → ¬ WidthLe size last) := by
    refine ⟨fun _ ↦ ⟨ht, rfl, fun c ↦ ?_⟩, fun hwide ↦ ?_⟩
    · by_cases hc : cddRglr last = c <;> simp [hc]
    · obtain ⟨e, he, hw⟩ := hwide
      rw [List.mem_singleton.mp he] at hw
      exact fun h ↦ hw (widthLe_negCond.mpr h)
  induction ps generalizing lower prev s s' elem m with
  | nil =>
    cases h
    obtain ⟨hone, htwo⟩ := hlast hm prev
    exact ⟨fun hall ↦ ⟨prev, m, rfl, hone hall⟩, fun hwide hw ↦ absurd hw (htwo hwide),
      _, List.mem_singleton_self _, rfl⟩
  | cons e it ih =>
    obtain ⟨⟨lp, rp⟩, bnd⟩ := e
    have hhere : Mimics size m₀ (callP lp rp) (callM lp rp) := hcall ((lp, rp), bnd) (by simp)
    have hcall' : ∀ e ∈ it, Mimics size m₀ (callP e.1.1 e.1.2) (callM e.1.1 e.1.2) :=
      fun e he ↦ hcall e (List.mem_cons_of_mem _ he)
    rw [applyReduceRest] at h
    rw [applyReduceLoop]
    cases hc : cddTarjanConsistent (cddTarjanPush s.graph j i (bndL2u lower).code) with
    | none => simp [hc] at h
    | some x =>
    obtain ⟨consistent, graph⟩ := x
    simp only [hc, Option.bind_eq_bind, Option.bind_some] at h ⊢
    cases consistent with
    | false =>
      cases h
      obtain ⟨hone, htwo⟩ := hlast hm prev
      exact ⟨fun hall ↦ ⟨prev, m, rfl, hone hall⟩, fun hwide hw ↦ absurd hw (htwo hwide),
        _, List.mem_singleton_self _, rfl⟩
    | true =>
      simp only [if_true] at h ⊢
      obtain ⟨⟨n, s₁⟩, hn, h⟩ := Option.bind_eq_some_iff.mp h
      obtain ⟨⟨out, s₂⟩, hout, h⟩ := Option.bind_eq_some_iff.mp h
      obtain ⟨hok, hbad⟩ :=
        hhere.bounded (i := i) (j := j) { s with graph := graph } m n s₁ hm hn
      obtain ⟨-, -, e, he, hen⟩ := ih hcall' hout hm
      beta_reduce at hok hbad
      simp only [Option.pure_def, Option.some.injEq, Prod.mk.injEq] at h
      obtain ⟨rfl, rfl⟩ := h
      by_cases heq : n = prev
      · subst heq
        rw [if_neg fun h ↦ h rfl]
        refine ⟨fun hall ↦ ?_, fun hwide hw ↦ ?_, e, he, hen⟩
        · have hw : WidthLe size n := widthLe_negCond.mp (hen ▸ hall e he)
          rw [hok hw]
          simp only [Option.bind_some, if_true]
          exact (ih hcall' hout hm).1 hall
        · rw [hok hw]
          simp only [Option.bind_some, if_true]
          exact (ih hcall' hout hm).2.1 hwide hw
      · have hne : (Pointer.node n : Pointer) ≠ .node prev := fun h ↦ heq (Pointer.node.inj h)
        have hm' : SameCache m₀ ((m.push (cddNegCond prev mask0) lower).hold n 1) :=
          ⟨hm.cache, hm.errorcond⟩
        rw [if_pos heq]
        refine ⟨fun hall ↦ ?_, fun hwide hprev ↦ ?_, _, List.mem_cons_self, rfl⟩
        · obtain ⟨-, hall⟩ := List.forall_mem_cons.mp hall
          have hw : WidthLe size n := widthLe_negCond.mp (hen ▸ hall e he)
          obtain ⟨last, t, ht, htm, hstack, hheld⟩ := (ih hcall' hout hm').1 hall
          refine ⟨last, t, ?_, htm, ?_, fun c ↦ ?_⟩
          · rw [hok hw]
            simp only [Option.bind_some, if_neg hne]
            exact ht
          · rw [hstack, List.reverse_cons, List.append_assoc]
            rfl
          · have hc := hheld c
            rw [hold_held] at hc
            have hpush : (m.push (cddNegCond prev mask0) lower).held c = m.held c := rfl
            rw [List.map_cons, List.count_cons, cddRglr_negCond]
            simp only [beq_iff_eq]
            split_ifs at hc ⊢ <;> omega
        · have hwide' : ∃ e ∈ out, ¬ WidthLe size e.1 := by
            obtain ⟨x, hx, hxw⟩ := hwide
            cases List.mem_cons.mp hx with
            | inl hxe =>
              rw [hxe] at hxw
              exact absurd (widthLe_negCond.mpr hprev) hxw
            | inr hx => exact ⟨x, hx, hxw⟩
          by_cases hw : WidthLe size n
          · rw [hok hw]
            simp only [Option.bind_some, if_neg hne]
            exact (ih hcall' hout hm').2.1 hwide' hw
          · have hbad := hbad hw
            revert hbad
            generalize (if bnd < INF then _ else _ : Option (Pointer × Fused × Memory)) = o
            intro hbad
            cases o with
            | none => rfl
            | some x =>
              obtain ⟨ptr, t, u⟩ := x
              cases ptr with
              | node d => exact absurd rfl (hbad d t u)
              | null k =>
                simp only [Option.bind_some]
                rw [if_neg fun h ↦ by cases h]
                rfl

theorem Memory.eq_of_sameCache {m t : Memory} (hm : SameCache m₀ m) (ht : SameCache m₀ t)
    (hheld : t.held = m.held) : { t with stack := m.stack } = m := by
  obtain ⟨stack, held, cache, errorcond⟩ := m
  obtain ⟨hcache, herror⟩ := hm
  have hc : t.cache = cache := ht.cache.trans hcache.symm
  have he : t.errorcond = errorcond := ht.errorcond.trans herror.symm
  have hh : t.held = held := hheld
  rw [hc, he, hh]

/-- The children and the node: `NULL` when only the node is too wide, and a crash when a child
is. -/
theorem applyReduceChildren_spec {level i j : ℕ} {lp rp : DdNode} {bnd : Raw}
    {it : List ((DdNode × DdNode) × Raw)} {s s₁ s₂ : Fused} {prev node : DdNode}
    {elem : List (DdNode × Raw)} (hpos : 1 ≤ size)
    (hhere : Mimics size m₀ (callP lp rp) (callM lp rp))
    (hit : ∀ e ∈ it, Mimics size m₀ (callP e.1.1 e.1.2) (callM e.1.1 e.1.2))
    (hprev : callP lp rp s = some (prev, s₁))
    (hrest : applyReduceRest callP (cddMask prev) i j it bnd prev
      { s₁ with graph := cddTarjanPop s₁.graph i } = some (elem, s₂))
    (hnode : cddMakeCddNode ⊤ level elem = some node) {m : Memory} (hm : SameCache m₀ m)
    (stack : List (DdNode × Raw)) :
    ((∀ e ∈ elem, WidthLe size e.1) →
      (applyReduceChildren size callM level i j m.stack lp rp bnd it s { m with stack := stack } =
        some (.node (cddNegCond node (cddMask prev)), s₂, m) ∧ WidthLe size node) ∨
      applyReduceChildren size callM level i j m.stack lp rp bnd it s { m with stack := stack } =
        some (.null (cddMask prev), s₂, m) ∧ ¬ WidthLe size node) ∧
    ((∃ e ∈ elem, ¬ WidthLe size e.1) →
      applyReduceChildren size callM level i j m.stack lp rp bnd it s { m with stack := stack } =
        none) := by
  have hm₁ : SameCache m₀ { m with stack := stack } := ⟨hm.cache, hm.errorcond⟩
  obtain ⟨hok, hbad⟩ := hhere s { m with stack := stack } prev s₁ hm₁ hprev
  have hm₂ : SameCache m₀ (Memory.hold { m with stack := stack } prev 1) :=
    ⟨hm.cache, hm.errorcond⟩
  obtain ⟨hloop, hloopw, e, he, hep⟩ := applyReduceLoop_spec (cddMask prev) hit hrest hm₂
  unfold applyReduceChildren
  constructor
  · intro hall
    have hw : WidthLe size prev := widthLe_negCond.mp (hep ▸ hall e he)
    obtain ⟨last, t, ht, htm, hstack, hheld⟩ := hloop hall
    have hstack : (t.push (cddNegCond last (cddMask prev)) INF).stack = elem.reverse ++ stack :=
      hstack
    obtain ⟨hmake, hrelease⟩ := makeCddNode_spec hpos hnode hall hstack
    rw [hok hw]
    simp only [Option.bind_eq_bind, Option.bind_some, ref, ht, Option.pure_def]
    have hback : { (t.push (cddNegCond last (cddMask prev)) INF).release stack.length with
        stack := m.stack } = m := by
      rw [hrelease]
      apply Memory.eq_of_sameCache (t := { t with
        held := fun c ↦ t.held c - ((elem.map fun e ↦ cddRglr e.1).count c : ℤ) }) hm
          ⟨htm.cache, htm.errorcond⟩
      ext c
      have hc := hheld c
      rw [hold_held] at hc
      show t.held c - _ = m.held c
      have hm : (({ m with stack := stack } : Memory).held c) = m.held c := rfl
      omega
    cases hmake with
    | inl h =>
      rw [h.1]
      exact Or.inl ⟨congrArg (fun m ↦ some (_, s₂, m)) hback, h.2⟩
    | inr h =>
      rw [h.1]
      refine Or.inr ⟨?_, h.2⟩
      have hmask : (Pointer.null false).negCond (cddMask prev) = .null (cddMask prev) :=
        congrArg Pointer.null (Bool.false_xor _)
      rw [hmask]
      exact congrArg (fun m ↦ some (_, s₂, m)) hback
  · intro hwide
    by_cases hw : WidthLe size prev
    · rw [hok hw]
      simp only [Option.bind_eq_bind, Option.bind_some, ref, hloopw hwide hw]
      rfl
    · cases hx : callM lp rp s { m with stack := stack } with
      | none => rfl
      | some x =>
        obtain ⟨ptr, t, u⟩ := x
        cases ptr with
        | node d => exact absurd hx (hbad hw d t u)
        | null k => rfl

/-- What holds of the reductions of the children: they are not too wide. -/
def NarrowReduced (L : Library) (size : ℕ∞) (d : DdNode) : Prop :=
  ∀ mask g n g', cddTarjanReduceRec L mask d g = some (n, g') → WidthLe size n

theorem reduceRest_narrow {mask mask0 : Bool} {i j : ℕ} {it : List (DdNode × Raw)} {low : Raw}
    {m : DdNode} {g g' : Tarjan} {elem : List (DdNode × Raw)} {modified : Bool}
    (hit : ∀ e ∈ it, NarrowReduced L size e.1) (hm : WidthLe size m)
    (h : reduceRest L mask mask0 i j it low m g = some (elem, modified, g')) :
    elem.length ≤ it.length + 1 ∧ ∀ e ∈ elem, WidthLe size e.1 := by
  have hlast : ∀ e ∈ [(cddNegCond m mask0, INF)], WidthLe size e.1 :=
    List.forall_mem_singleton.mpr (widthLe_negCond.mpr hm)
  induction it generalizing low m g g' elem modified with
  | nil =>
    rw [reduceRest] at h
    cases h
    exact ⟨le_refl _, hlast⟩
  | cons e it ih =>
    obtain ⟨child, bnd⟩ := e
    have hchild : NarrowReduced L size child := hit (child, bnd) (by simp)
    have hit' : ∀ e ∈ it, NarrowReduced L size e.1 := fun e he ↦ hit e (List.mem_cons_of_mem _ he)
    rw [reduceRest] at h
    obtain ⟨⟨consistent, graph⟩, -, h⟩ := Option.bind_eq_some_iff.mp h
    cases consistent with
    | false =>
      cases h
      exact ⟨by simp, hlast⟩
    | true =>
      simp only [if_true] at h
      obtain ⟨⟨n, graph'⟩, hn, h⟩ := Option.bind_eq_some_iff.mp h
      obtain ⟨⟨out, modified', graph''⟩, hout, h⟩ := Option.bind_eq_some_iff.mp h
      have hnw : WidthLe size n := by
        split_ifs at hn with hlt
        · obtain ⟨⟨n', g₁⟩, hn', heq⟩ := Option.map_eq_some_iff.mp hn
          cases heq
          exact hchild _ _ _ _ hn'
        · exact hchild _ _ _ _ hn
      obtain ⟨hlen, hall⟩ := ih hit' hnw hout
        (List.forall_mem_singleton.mpr (widthLe_negCond.mpr hnw))
      cases h
      split_ifs
      · exact ⟨Nat.succ_le_succ hlen, List.forall_mem_cons.mpr ⟨widthLe_negCond.mpr hm, hall⟩⟩
      · exact ⟨le_trans hlen (Nat.le_succ _), hall⟩

theorem widthLe_of_length {level : ℕ} {elem : List (DdNode × Raw)} {n : DdNode}
    (hn : cddMakeCddNode ⊤ level elem = some n) (hlen : (elem.length : ℕ∞) ≤ size)
    (hall : ∀ e ∈ elem, WidthLe size e.1) : WidthLe size n := by
  have hsize : cddMakeCddNode size level elem = some n := by
    unfold cddMakeCddNode at hn ⊢
    rw [if_neg (not_lt.mpr le_top)] at hn
    rw [if_neg (not_lt.mpr hlen), hn]
  exact widthLe_of_cddMakeCddNode hsize hall

theorem reduceFirst_narrow {mask : Bool} {i j : ℕ} {node : DdNode} {it : List (DdNode × Raw)}
    {modified : Bool} {g g' : Tarjan} {n : DdNode} (hit : ∀ e ∈ it, NarrowReduced L size e.1)
    (hnode : WidthLe size node) (hlen : (it.length : ℕ∞) ≤ size)
    (h : reduceFirst L mask i j node it modified g = some (n, g')) : WidthLe size n := by
  induction it generalizing modified g with
  | nil =>
    rw [reduceFirst] at h
    cases h
  | cons e it ih =>
    obtain ⟨child, bnd⟩ := e
    have hchild : NarrowReduced L size child := hit (child, bnd) (by simp)
    have hit' : ∀ e ∈ it, NarrowReduced L size e.1 := fun e he ↦ hit e (List.mem_cons_of_mem _ he)
    rw [reduceFirst] at h
    split_ifs at h with hend
    · exact hchild _ _ _ _ h
    · obtain ⟨⟨consistent, graph⟩, -, h⟩ := Option.bind_eq_some_iff.mp h
      cases consistent with
      | false =>
        refine ih hit' (le_trans ?_ hlen) h
        exact_mod_cast Nat.le_succ _
      | true =>
        simp only [if_true] at h
        obtain ⟨⟨m, graph'⟩, hm, h⟩ := Option.bind_eq_some_iff.mp h
        obtain ⟨⟨elem, modified', graph''⟩, helem, h⟩ := Option.bind_eq_some_iff.mp h
        obtain ⟨hle, hall⟩ := reduceRest_narrow hit' (hchild _ _ _ _ hm) helem
        split_ifs at h with hmod
        · obtain ⟨n', hn', h⟩ := Option.bind_eq_some_iff.mp h
          cases h
          have helem : (elem.length : ℕ∞) ≤ size := le_trans (by exact_mod_cast hle) hlen
          exact widthLe_negCond.mpr (widthLe_of_length hn' helem hall)
        · cases h
          exact hnode

/-- A reduced diagram has no wider nodes. -/
theorem narrowReduced {d : DdNode} (hd : WidthLe size d) : NarrowReduced L size d := by
  induction d with
  | terminal neg =>
    intro mask g n g' h
    cases h
    exact .terminal _
  | xterm neg id =>
    intro mask g n g' h
    cases h
    exact .xterm _ _
  | bdd neg level low high ihl ihh =>
    cases hd with
    | bdd _ _ hl hh =>
    intro mask g n g' h
    rw [cddTarjanReduceRec] at h
    obtain ⟨⟨a, g₁⟩, ha, h⟩ := Option.bind_eq_some_iff.mp h
    obtain ⟨⟨b, g₂⟩, hb, h⟩ := Option.bind_eq_some_iff.mp h
    cases h
    exact widthLe_of_cddMakeBddNode (ihl hl _ _ _ _ ha) (ihh hh _ _ _ _ hb)
  | cdd neg level elem ih =>
    intro mask g n g' h
    cases hd with
    | cdd _ _ hlen hall =>
    rw [cddTarjanReduceRec] at h
    split at h
    · exact reduceFirst_narrow (fun e he ↦ ih e he (hall e he)) (.cdd _ _ hlen hall) hlen h
    · cases h

theorem applyReduceSearch_mimics {level i j : ℕ} {ps : List ((DdNode × DdNode) × Raw)}
    {next : Bool} {s s' : Fused} {d : DdNode} (hpos : 1 ≤ size)
    (hcall : ∀ e ∈ ps, Mimics size m₀ (callP e.1.1 e.1.2) (callM e.1.1 e.1.2))
    (h : applyReduceFirst ⊤ callP level i j ps next s = some (d, s')) {m : Memory}
    (hm : SameCache m₀ m) (stack : List (DdNode × Raw)) :
    (WidthLe size d →
      applyReduceSearch size callM level i j m.stack ps next s { m with stack := stack } =
        some (.node d, s', m)) ∧
    (¬ WidthLe size d → ∀ n t u,
      applyReduceSearch size callM level i j m.stack ps next s { m with stack := stack } ≠
        some (.node n, t, u)) := by
  induction ps generalizing next s with
  | nil =>
    rw [applyReduceFirst] at h
    cases h
  | cons e it ih =>
    obtain ⟨⟨lp, rp⟩, bnd⟩ := e
    have hhere : Mimics size m₀ (callP lp rp) (callM lp rp) := hcall ((lp, rp), bnd) (by simp)
    have hit : ∀ e ∈ it, Mimics size m₀ (callP e.1.1 e.1.2) (callM e.1.1 e.1.2) :=
      fun e he ↦ hcall e (List.mem_cons_of_mem _ he)
    rw [applyReduceFirst] at h
    rw [applyReduceSearch]
    by_cases hend : (next && decide (bnd = INF)) = true
    · rw [if_pos hend] at h ⊢
      exact hhere s m d s' hm h
    · rw [if_neg hend] at h ⊢
      obtain ⟨⟨consistent, graph⟩, hc, h⟩ := Option.bind_eq_some_iff.mp h
      simp only [hc, Option.bind_eq_bind, Option.bind_some]
      cases consistent with
      | false => exact ih hit h
      | true =>
        simp only [if_true] at h ⊢
        obtain ⟨⟨prev, s₁⟩, hprev, h⟩ := Option.bind_eq_some_iff.mp h
        obtain ⟨⟨elem, s₂⟩, hrest, h⟩ := Option.bind_eq_some_iff.mp h
        obtain ⟨node, hnode, h⟩ := Option.bind_eq_some_iff.mp h
        cases h
        obtain ⟨hnarrow, hwide⟩ :=
          applyReduceChildren_spec hpos hhere hit hprev hrest hnode hm stack
        rw [widthLe_negCond]
        by_cases hall : ∀ e ∈ elem, WidthLe size e.1
        · cases hnarrow hall with
          | inl h => exact ⟨fun _ ↦ h.1, fun hw ↦ absurd h.2 hw⟩
          | inr h =>
            refine ⟨fun hw ↦ absurd hw h.2, fun _ n t u heq ↦ ?_⟩
            rw [h.1] at heq
            cases heq
        · have hnot : ¬ WidthLe size node := fun hw ↦
            hall (widthLe_cddMakeCddNode hnode hw hpos).2
          push Not at hall
          refine ⟨fun hw ↦ absurd hw hnot, fun _ n t u heq ↦ ?_⟩
          rw [hwide hall] at heq
          cases heq

variable {recP : DdNode → DdNode → Fused → Option (DdNode × Fused)}
  {recM : DdNode → DdNode → Fused → Memory → Option (Pointer × Fused × Memory)} {l r : DdNode}

/-- The stack with the operands that are not on the level. -/
def Memory.pushed (m : Memory) (l r : DdNode) : List (DdNode × Raw) :=
  let stack := if l.level ≤ r.level then m.stack else (cddRglr l, INF) :: m.stack
  if r.level ≤ l.level then stack else (cddRglr r, INF) :: stack

theorem applyReduceFrame_cdd {i j : ℕ} (hk : L.levelinfo[min l.level r.level]? = some (.cdd i j))
    (s : Fused) (m : Memory) : applyReduceFrame L size recM l r s m =
      applyReduceSearch size
        (fun c d ↦ recM (cddNegCond c (cddMask l)) (cddNegCond d (cddMask r))) (min l.level r.level)
        i j m.stack (refine INF (edgesAt (min l.level r.level) l) (edgesAt (min l.level r.level) r))
        false s { m with stack := m.pushed l r } := by
  rw [applyReduceFrame]
  simp only [hk]
  congr 1
  unfold Memory.pushed
  split_ifs <;> rfl

/-- The calls for the children of a CDD frame. -/
theorem mimics_refine {i j : ℕ} (hk : L.levelinfo[min l.level r.level]? = some (.cdd i j))
    (hl : L.WF l) (hr : L.WF r) (hlt : min l.level r.level < maxLevel)
    (hcall : ∀ c d, Child L (min l.level r.level) l c → Child L (min l.level r.level) r d →
      Mimics size m₀ (recP c d) (recM c d)) :
    ∀ e ∈ refine INF (edgesAt (min l.level r.level) l) (edgesAt (min l.level r.level) r),
      Child L (min l.level r.level) l (cddNegCond e.1.1 (cddMask l)) ∧
      Child L (min l.level r.level) r (cddNegCond e.1.2 (cddMask r)) ∧
      Mimics size m₀ (recP (cddNegCond e.1.1 (cddMask l)) (cddNegCond e.1.2 (cddMask r)))
        (recM (cddNegCond e.1.1 (cddMask l)) (cddNegCond e.1.2 (cddMask r))) := by
  have hel := edgesAt_spec hl ⟨i, j, hk⟩ hlt (min_le_left _ _)
  have her := edgesAt_spec hr ⟨i, j, hk⟩ hlt (min_le_right _ _)
  intro e he
  obtain ⟨⟨a, ha, hae⟩, b, hb, hbe⟩ := (refine_spec hel.partition her.partition).values e he
  have hca : Child L (min l.level r.level) l (cddNegCond e.1.1 (cddMask l)) :=
    .inl ⟨⟨i, j, hk⟩, a, ha, by rw [hae]⟩
  have hcb : Child L (min l.level r.level) r (cddNegCond e.1.2 (cddMask r)) :=
    .inl ⟨⟨i, j, hk⟩, b, hb, by rw [hbe]⟩
  exact ⟨hca, hcb, hcall _ _ hca hcb⟩

theorem one_le_of_level {i j : ℕ} (hk : L.levelinfo[min l.level r.level]? = some (.cdd i j))
    (hl : L.WF l) (hr : L.WF r) (hlt : min l.level r.level < maxLevel) (hwl : WidthLe size l)
    (hwr : WidthLe size r) : 1 ≤ size := by
  rcases min_choice l.level r.level with h | h
  · have hel := edgesAt_spec hl ⟨i, j, hk⟩ hlt (min_le_left _ _)
    obtain ⟨e, es, hes⟩ := List.exists_cons_of_ne_nil hel.partition.ne_nil
    exact one_le_of_edgesAt hwl (le_of_eq h.symm) hes
  · have her := edgesAt_spec hr ⟨i, j, hk⟩ hlt (min_le_right _ _)
    obtain ⟨e, es, hes⟩ := List.exists_cons_of_ne_nil her.partition.ne_nil
    exact one_le_of_edgesAt hwr (le_of_eq h.symm) hes

theorem applyReduceFrame_mimics (hl : L.WF l) (hr : L.WF r) (hwl : WidthLe size l)
    (hwr : WidthLe size r) (hlt : min l.level r.level < maxLevel)
    (hcall : ∀ c d, Child L (min l.level r.level) l c → Child L (min l.level r.level) r d →
      Mimics size m₀ (recP c d) (recM c d)) :
    Mimics size m₀ (cddApplyReduceNode L ⊤ recP l r) (applyReduceFrame L size recM l r) := by
  intro s m d s' hm h
  rw [cddApplyReduceNode] at h
  cases hk : L.levelinfo[min l.level r.level]? with
  | none => simp [hk] at h
  | some info =>
    cases info with
    | cdd i j =>
      simp only [hk] at h
      rw [applyReduceFrame_cdd hk]
      exact applyReduceSearch_mimics (one_le_of_level hk hl hr hlt hwl hwr)
        (fun e he ↦ (mimics_refine hk hl hr hlt hcall e he).2.2) h hm (m.pushed l r)
    | bdd =>
      simp only [hk] at h
      obtain ⟨⟨low, s₁⟩, hlow, h⟩ := Option.bind_eq_some_iff.mp h
      obtain ⟨⟨high, s₂⟩, hhigh, h⟩ := Option.bind_eq_some_iff.mp h
      cases h
      obtain ⟨hokl, hbadl⟩ :=
        hcall _ _ (.inr ⟨hk, .inl rfl⟩) (.inr ⟨hk, .inl rfl⟩) s m low s₁ hm hlow
      obtain ⟨hokh, hbadh⟩ := hcall _ _ (.inr ⟨hk, .inr rfl⟩) (.inr ⟨hk, .inr rfl⟩) s₁
        (m.hold low 1) high s₂ ⟨hm.cache, hm.errorcond⟩ hhigh
      rw [applyReduceFrame]
      simp only [hk, Option.bind_eq_bind, Option.pure_def]
      constructor
      · intro hw
        obtain ⟨hwlow, hwhigh⟩ := widthLe_cddMakeBddNode hw
        rw [hokl hwlow]
        simp only [Option.bind_some, ref, hokh hwhigh, makeBddNode, hold_deref]
      · intro hw n t u
        by_cases hwlow : WidthLe size low
        · have hbadh := hbadh fun h ↦ hw (widthLe_of_cddMakeBddNode hwlow h)
          rw [hokl hwlow]
          simp only [Option.bind_some, ref]
          cases hx : recM (cddNegCond (highAt (min l.level r.level) l) (cddMask l))
              (cddNegCond (highAt (min l.level r.level) r) (cddMask r)) s₁ (m.hold low 1) with
          | none => exact fun h ↦ by cases h
          | some x =>
            obtain ⟨ptr, t', u'⟩ := x
            cases ptr with
            | node k => exact absurd hx (hbadh k t' u')
            | null k => exact fun h ↦ by cases h
        · have hbadl := hbadl hwlow
          cases hx : recM (cddNegCond (lowAt (min l.level r.level) l) (cddMask l))
              (cddNegCond (lowAt (min l.level r.level) r) (cddMask r)) s m with
          | none => exact fun h ↦ by cases h
          | some x =>
            obtain ⟨ptr, t', u'⟩ := x
            cases ptr with
            | node k => exact absurd hx (hbadl k t' u')
            | null k => exact fun h ↦ by cases h

theorem widthLe_cddApplyReduceTerminal {op : CddOp} {sc : Shortcut} (hl : WidthLe size l)
    (hr : WidthLe size r) (h : cddApplyReduceTerminal op l r = some sc) :
    WidthLe size sc.diagram := by
  have hfalse : WidthLe size cddfalse := .terminal false
  have htrue : WidthLe size cddtrue := .terminal true
  have hnegl : WidthLe size (cddNeg l) := widthLe_negCond.mpr hl
  have hnegr : WidthLe size (cddNeg r) := widthLe_negCond.mpr hr
  cases op <;> unfold cddApplyReduceTerminal at h <;> split_ifs at h <;> cases h <;> assumption

/-- The lookups find what the cache of the start holds. -/
theorem SameCache.lookup_eq {m : Memory} (hm : SameCache m₀ m) (k : ℕ) (op : CddOp) :
    m.lookup k l r op = m₀.lookup k l r op := by
  unfold Memory.lookup
  rw [hm.cache]

theorem Memory.Valid.lookup {m : Memory} (hm : m.Valid L size) {k : ℕ} {op : CddOp} {ptr : Pointer}
    (h : m.lookup k l r op = some ptr) :
    ∃ d, ptr = .node d ∧ WidthLe size d ∧ cddApply L ⊤ op l r = some d := by
  unfold Memory.lookup at h
  split at h
  · next entry hentry =>
    obtain ⟨d, hd, hw, happ⟩ := hm.cached _ _ hentry
    split_ifs at h with heq
    cases h
    obtain ⟨rfl, rfl, rfl⟩ := heq
    exact ⟨d, hd, hw, happ⟩
  · cases h

/-- The reduction of a diagram that is not too wide. -/
theorem Fused.reduce_mimics {d : DdNode} (hd : WidthLe size d) {m : Memory} {s s' : Fused}
    {n : DdNode} (h : s.reduce L d = some (n, s')) :
    WidthLe size n ∧
      ((s.reduce L d).map fun r ↦ ((.node r.1, r.2, m) : Pointer × Fused × Memory)) =
        some (.node n, s', m) := by
  constructor
  · obtain ⟨⟨n', g⟩, hn, heq⟩ := Option.map_eq_some_iff.mp h
    cases heq
    exact narrowReduced hd _ _ _ _ hn
  · rw [h]
    rfl

/-- The lookup, and on a miss the frame. -/
theorem applyReduceLookup_mimics (slot : DdNode → DdNode → CddOp → ℕ) (op : CddOp)
    (hm₀ : m₀.Valid L size)
    (hframe : Mimics size m₀ (cddApplyReduceNode L ⊤ recP l r) (applyReduceFrame L size recM l r)) :
    Mimics size m₀
      (fun s ↦ match m₀.found slot s.lookups l r op with
        | some res => s.reduce L res
        | none => cddApplyReduceNode L ⊤ recP l r s)
      (fun s m ↦ match m.lookup (slot l r op) l r op with
        | some (.node res) =>
          (s.reduce L res).map fun r ↦ (.node r.1, r.2, (m.hold res 1).deref res)
        | some (.null _) => none
        | none => applyReduceFrame L size recM l r s m) := by
  intro s m d s' hm h
  unfold found at h
  simp only [hm.lookup_eq]
  cases hlook : m₀.lookup (slot l r op) l r op with
  | none =>
    simp only [hlook] at h
    exact hframe s m d s' hm h
  | some ptr =>
    obtain ⟨res, rfl, hw, -⟩ := hm₀.lookup hlook
    simp only [hlook] at h
    obtain ⟨hd, hres⟩ := Fused.reduce_mimics hw (m := (m.hold res 1).deref res) h
    refine ⟨fun _ ↦ ?_, fun hnot ↦ absurd hd hnot⟩
    rw [hold_deref] at hres
    simp only [hold_deref]
    exact hres

/-- Every pair of terminals has a shortcut. -/
theorem not_terminal_of_no_shortcut {op : CddOp} (hl : L.WF l)
    (h : cddApplyReduceTerminal op l r = none) : (cddIsterminal l && cddIsterminal r) = false := by
  rw [Bool.eq_false_iff]
  intro htt
  obtain ⟨hlt, hrt⟩ := Bool.and_eq_true_iff.mp htt
  cases op with
  | and => simp [(inner_of_no_shortcut h).1] at hlt
  | xor =>
    have hcomb := combines_of_no_shortcut h hlt hrt ⟨fun _ ↦ false, fun _ ↦ realCut 0⟩
    exact not_combines_of_wf hl _ hcomb

/-- The recursion returns what it returns without a limit unless that is too wide. -/
theorem applyReduceRec_mimics (slot : DdNode → DdNode → CddOp → ℕ) (op : CddOp)
    (hm₀ : m₀.Valid L size) {fuel : ℕ} (hl : L.WF l) (hr : L.WF r) (hwl : WidthLe size l)
    (hwr : WidthLe size r) :
    Mimics size m₀ (cddApplyReduceRec L ⊤ (m₀.found slot) op fuel l r)
      (applyReduceRec L size slot op fuel l r) := by
  induction fuel generalizing l r with
  | zero =>
    intro s m d s' _ h
    cases h
  | succ fuel ih =>
    intro s m d s' hm h
    rw [cddApplyReduceRec] at h
    rw [applyReduceRec]
    cases hc : cddTarjanConsistent s.graph with
    | none => simp [hc] at h
    | some x =>
    obtain ⟨consistent, graph⟩ := x
    cases consistent with
    | false => simp [hc] at h
    | true =>
    simp only [hc] at h ⊢
    simp only [hm.errorcond, ne_eq, not_true_eq_false, if_false]
    cases hterm : cddApplyReduceTerminal op l r with
    | some sc =>
      have hw := widthLe_cddApplyReduceTerminal hwl hwr hterm
      cases sc with
      | done n =>
        simp only [hterm, Option.some.injEq, Prod.mk.injEq] at h
        obtain ⟨rfl, rfl⟩ := h
        exact ⟨fun _ ↦ rfl, fun hnot ↦ absurd hw hnot⟩
      | reduce n =>
        simp only [hterm] at h
        obtain ⟨hd, hres⟩ := Fused.reduce_mimics hw (m := m) h
        exact ⟨fun _ ↦ hres, fun hnot ↦ absurd hd hnot⟩
    | none =>
      simp only [hterm] at h
      have hlook (l' r' : DdNode) (hl' : L.WF l') (hr' : L.WF r') (hwl' : WidthLe size l')
          (hwr' : WidthLe size r') (htt : (cddIsterminal l' && cddIsterminal r') = false) :=
        applyReduceLookup_mimics slot op hm₀
          (applyReduceFrame_mimics hl' hr' hwl' hwr' (min_level_declared hl' hr' htt).1
            fun c d hc hd ↦ ih (hc.wf hl' (min_level_declared hl' hr' htt).1 (min_le_left _ _))
              (hd.wf hr' (min_level_declared hl' hr' htt).1 (min_le_right _ _))
              (hc.widthLe hwl') (hd.widthLe hwr'))
      have htt := not_terminal_of_no_shortcut hl hterm
      by_cases haddr : L.addr l > L.addr r
      · simp only [if_pos haddr] at h ⊢
        exact hlook r l hr hl hwr hwl (by rw [Bool.and_comm, htt])
          { s with graph := graph, lookups := s.lookups + 1 } m d s' hm h
      · simp only [if_neg haddr] at h ⊢
        exact hlook l r hl hr hwl hwr htt
          { s with graph := graph, lookups := s.lookups + 1 } m d s' hm h

end

/-! ### What a failing call leaves behind -/

/-- A call that returns `NULL`, leaves the stack and the references as they were, and no cache entry
without a stored node. -/
def Clean (call : Memory → Option (Pointer × Memory)) (s : Memory) : Prop :=
  ∃ t, call s = some (.null false, t) ∧ s.Balanced t ∧
    ∀ k entry, t.cache k = some entry → ∃ d, entry.res = .node d

section

open Memory

variable {L : Library} {size : ℕ∞} {slot : DdNode → DdNode → CddOp → ℕ} {op : CddOp} {l r : DdNode}

/-- A call that returns `NULL` has stored the `NULL`. -/
theorem applyCached_null {frame : Memory → Option (Pointer × Memory)} {s t : Memory} {mask : Bool}
    (h : applyCached slot op l r frame s = some (.null mask, t)) :
    ∃ k entry, t.cache k = some entry ∧ entry.res = .null mask := by
  unfold applyCached at h
  cases hlook : s.lookup (slot l r op) l r op with
  | some ptr =>
    simp only [hlook] at h
    cases ptr <;> cases h
  | none =>
    simp only [hlook] at h
    obtain ⟨⟨ptr, u⟩, -, heq⟩ := Option.bind_eq_some_iff.mp h
    cases heq
    exact ⟨slot l r op, ⟨l, r, op, .null mask⟩, Function.update_self .., rfl⟩

theorem applyRec_null {fuel : ℕ} {s t : Memory} {mask : Bool} (hs : s.errorcond = 0)
    (h : applyRec L size slot op fuel l r s = some (.null mask, t)) :
    ∃ k entry, t.cache k = some entry ∧ entry.res = .null mask := by
  cases fuel with
  | zero => cases h
  | succ fuel =>
    rw [applyRec] at h
    simp only [hs, ne_eq, not_true_eq_false, if_false] at h
    cases hterm : cddApplyTerminal op l r with
    | some d =>
      rw [hterm] at h
      cases h
    | none =>
      simp only [hterm] at h
      by_cases haddr : L.addr l > L.addr r
      · simp only [if_pos haddr] at h
        split_ifs at h
        · cases h
        · exact applyCached_null h
      · simp only [if_neg haddr] at h
        split_ifs at h
        · cases h
        · exact applyCached_null h

/-- `cdd_apply` returns `NULL` only after it has stored a `NULL`. -/
theorem not_clean_apply {s : Memory} (hs : s.Valid L size) {n : DdNode}
    (hkeep : Keeps L size n (applyRec L size slot op (l.height + r.height + 1) l r))
    (hw : ¬ WidthLe size n) : ¬ Clean (apply L size slot op l r) s := by
  rintro ⟨t, ht, -, hcache⟩
  rw [apply] at ht
  obtain ⟨⟨ptr, u⟩, hu, ht⟩ := Option.bind_eq_some_iff.mp ht
  obtain rfl : u = t := by
    simp only at ht
    split_ifs at ht <;> cases ht <;> rfl
  cases ptr with
  | node d => exact (hkeep s hs).2 hw d u hu
  | null mask =>
    obtain ⟨k, entry, hentry, hres⟩ := applyRec_null hs.errorcond hu
    obtain ⟨d, hd⟩ := hcache k entry hentry
    rw [hres] at hd
    cases hd

/-- What a call does whose result `d` is too wide: it returns `NULL` with the mask of `d` where `d` is
the node of the level and its children are not too wide, and crashes otherwise. -/
def RootFails (size : ℕ∞) (level : ℕ) (d : DdNode) (m : Memory)
    (result : Option (Pointer × Fused × Memory)) : Prop :=
  (∃ mask elem t, d = .cdd mask level elem ∧ (∀ e ∈ elem, WidthLe size e.1) ∧
    result = some (.null mask, t, m)) ∨
  (result = none ∧ ∀ mask elem, d = .cdd mask level elem → ∃ e ∈ elem, ¬ WidthLe size e.1)

theorem eq_of_cddMakeCddNode {level : ℕ} {elem : List (DdNode × Raw)} {node : DdNode}
    (h : cddMakeCddNode ⊤ level elem = some node) :
    (∃ e, elem = [e] ∧ node = e.1) ∨ node = .cdd false level elem := by
  unfold cddMakeCddNode at h
  rw [if_neg (not_lt.mpr le_top)] at h
  match elem with
  | [] =>
    cases h
    exact .inr rfl
  | [e] =>
    cases h
    exact .inl ⟨e, rfl, rfl⟩
  | _ :: _ :: _ =>
    cases h
    exact .inr rfl

variable {m₀ m : Memory} {callP : DdNode → DdNode → Fused → Option (DdNode × Fused)}
  {callM : DdNode → DdNode → Fused → Memory → Option (Pointer × Fused × Memory)}

/-- The search that finds its first child consistent. -/
theorem applyReduceSearch_root {level i j : ℕ} {lp rp : DdNode} {bnd : Raw}
    {it : List ((DdNode × DdNode) × Raw)} {s s' : Fused} {g : Tarjan} {d : DdNode} (hpos : 1 ≤ size)
    (hcall : ∀ e ∈ ((lp, rp), bnd) :: it, Mimics size m₀ (callP e.1.1 e.1.2) (callM e.1.1 e.1.2))
    (hc : cddTarjanConsistent (cddTarjanPush s.graph i j bnd.code) = some (true, g))
    (hlevel : ∀ prev t, callP lp rp { s with graph := g } = some (prev, t) → level < prev.level)
    (h : applyReduceFirst ⊤ callP level i j (((lp, rp), bnd) :: it) false s = some (d, s'))
    (hw : ¬ WidthLe size d) (hm : SameCache m₀ m) (stack : List (DdNode × Raw)) :
    RootFails size level d m (applyReduceSearch size callM level i j m.stack
      (((lp, rp), bnd) :: it) false s { m with stack := stack }) := by
  have hhere : Mimics size m₀ (callP lp rp) (callM lp rp) := hcall ((lp, rp), bnd) (by simp)
  have hit : ∀ e ∈ it, Mimics size m₀ (callP e.1.1 e.1.2) (callM e.1.1 e.1.2) :=
    fun e he ↦ hcall e (List.mem_cons_of_mem _ he)
  rw [applyReduceFirst, Bool.false_and, if_neg Bool.false_ne_true, hc] at h
  rw [applyReduceSearch, Bool.false_and, if_neg Bool.false_ne_true, hc]
  simp only [Option.bind_eq_bind, Option.bind_some, if_true] at h ⊢
  obtain ⟨⟨prev, s₁⟩, hprev, h⟩ := Option.bind_eq_some_iff.mp h
  obtain ⟨⟨elem, s₂⟩, hrest, h⟩ := Option.bind_eq_some_iff.mp h
  obtain ⟨node, hnode, h⟩ := Option.bind_eq_some_iff.mp h
  cases h
  obtain ⟨hnarrow, hwide⟩ := applyReduceChildren_spec hpos hhere hit hprev hrest hnode hm stack
  rw [widthLe_negCond] at hw
  by_cases hall : ∀ e ∈ elem, WidthLe size e.1
  · cases hnarrow hall with
    | inl h => exact absurd h.2 hw
    | inr h =>
      cases eq_of_cddMakeCddNode hnode with
      | inl hone =>
        obtain ⟨e, rfl, rfl⟩ := hone
        exact absurd (hall e (by simp)) hw
      | inr hcdd =>
        refine .inl ⟨cddMask prev, elem, s₂, ?_, hall, h.1⟩
        rw [hcdd, cddNegCond, Bool.false_xor]
  · push Not at hall
    refine .inr ⟨hwide hall, fun mask elem' heq ↦ ?_⟩
    cases eq_of_cddMakeCddNode hnode with
    | inl hone =>
      -- a single child is on a level below
      obtain ⟨e, rfl, rfl⟩ := hone
      obtain ⟨-, -, e', he', hprev'⟩ :=
        applyReduceLoop_spec (cddMask prev) hit hrest hm
      rw [List.mem_singleton.mp he'] at hprev'
      have hlt := hlevel prev s₁ hprev
      have hle : (cddNegCond e.1 (cddMask prev)).level = level := by rw [heq, DdNode.level]
      rw [hprev', level_negCond, level_negCond] at hle
      exact absurd hle (ne_of_gt hlt)
    | inr hcdd =>
      rw [hcdd, cddNegCond] at heq
      cases heq
      exact hall

theorem Memory.Valid.found (hm : m₀.Valid L size) : (m₀.found slot).Valid L := by
  intro n l r op res h
  unfold Memory.found at h
  cases hlook : m₀.lookup (slot l r op) l r op with
  | none => simp [hlook] at h
  | some ptr =>
    obtain ⟨d, rfl, -, happ⟩ := hm.lookup hlook
    simp only [hlook, Option.some.injEq] at h
    rw [← h]
    exact happ

/-- A call for children of a node returns a diagram on the level of the children or below. -/
theorem level_le_cddApplyReduceRec (hL : L.Declared) {cache : ApplyCache} (hcache : cache.Valid L)
    {fuel : ℕ} {c d n : DdNode} (hc : L.WF c) (hci : InRange c) (hd : L.WF d) (hdi : InRange d)
    (hfuel : c.height + d.height < fuel) {s t : Fused} (hvalid : s.graph.Valid)
    (hdim : s.graph.dim = L.clocknum) (hz : s.graph.zone.Nonempty)
    (h : cddApplyReduceRec L ⊤ cache op fuel c d s = some (n, t)) :
    L.WF n ∧ min c.level d.level ≤ n.level := by
  have hok : ∀ x ∈ s.graph.zone, x ∉ Clashes L op c d := by
    rintro x - ⟨-, v, -, hcomb⟩
    exact not_combines_of_wf hc _ hcomb
  have hstands : CallStands L False (cddApplyReduceRec L ⊤ cache op fuel c d) (Clashes L op c d)
      (Stands L 0 False op (min c.level d.level) c d) :=
    cddApplyReduceRec_stands hL False.elim hcache False.elim ⟨hc, hci⟩ ⟨hd, hdi⟩ hfuel
  obtain ⟨e, s', hs', -, he⟩ := hstands.call_eq s hvalid hdim hz hok
  rw [h, Option.some.injEq, Prod.mk.injEq] at hs'
  have hred := reduceIn_spec he.loose he.inRange false _ (convex_zone s.graph) hz
  rw [cddNegCond_false] at hred
  rw [hs'.1]
  exact ⟨hred.wf, le_trans he.level_le hred.level_le⟩

/-- The outermost frame, whose graph has no constraints. -/
theorem applyReduceFrame_root (hL : L.Declared) (hm₀ : m₀.Valid L size) (hl : L.WF l)
    (hil : InRange l) (hr : L.WF r) (hir : InRange r) (hwl : WidthLe size l) (hwr : WidthLe size r)
    (htt : (cddIsterminal l && cddIsterminal r) = false) {fuel : ℕ}
    (hfuel : l.height + r.height ≤ fuel) {s s' : Fused} (hvalid : s.graph.Valid)
    (hdim : s.graph.dim = L.clocknum) (hz : s.graph.zone = Set.univ) {d : DdNode}
    (h : cddApplyReduceNode L ⊤ (cddApplyReduceRec L ⊤ (m₀.found slot) op fuel) l r s = some (d, s'))
    (hd : L.WF d) (hw : ¬ WidthLe size d) (hm : SameCache m₀ m) :
    RootFails size (min l.level r.level) d m
      (applyReduceFrame L size (applyReduceRec L size slot op fuel) l r s m) := by
  obtain ⟨hlt, info, hk⟩ := min_level_declared hl hr htt
  have hll := min_le_left l.level r.level
  have hlr := min_le_right l.level r.level
  have hcall (c e : DdNode) (hc : Child L (min l.level r.level) l c)
      (he : Child L (min l.level r.level) r e) :
      Mimics size m₀ (cddApplyReduceRec L ⊤ (m₀.found slot) op fuel c e)
        (applyReduceRec L size slot op fuel c e) :=
    applyReduceRec_mimics slot op hm₀ (hc.wf hl hlt hll) (he.wf hr hlt hlr) (hc.widthLe hwl)
      (he.widthLe hwr)
  cases info with
  | bdd =>
    have hnot := (applyReduceFrame_mimics hl hr hwl hwr hlt hcall s m d s' hm h).2 hw
    refine .inr ⟨?_, fun mask elem heq ↦ ?_⟩
    · rw [Option.eq_none_iff_forall_not_mem]
      rintro ⟨ptr, t, u⟩ hx
      have hx : _ = some (ptr, t, u) := hx
      have hnode := hx
      rw [applyReduceFrame] at hnode
      simp only [hk] at hnode
      obtain ⟨⟨n, s₁, m₁⟩, -, hnode⟩ := Option.bind_eq_some_iff.mp hnode
      obtain ⟨⟨low, m₂⟩, -, hnode⟩ := Option.bind_eq_some_iff.mp hnode
      obtain ⟨⟨high, s₂, m₃⟩, -, hnode⟩ := Option.bind_eq_some_iff.mp hnode
      obtain ⟨res, -, hnode⟩ := Option.bind_eq_some_iff.mp hnode
      cases hnode
      exact hnot _ _ _ hx
    · rw [heq] at hd
      cases hd with
      | cdd _ hcdd =>
        obtain ⟨i, j, hij⟩ := hcdd
        rw [hk] at hij
        cases hij
  | cdd i j =>
    have hel := edgesAt_spec hl ⟨i, j, hk⟩ hlt hll
    have her := edgesAt_spec hr ⟨i, j, hk⟩ hlt hlr
    have hall := all_edgesAt neg_INF_lt (min l.level r.level) hil
    have harr := all_edgesAt neg_INF_lt (min l.level r.level) hir
    have href := refine_spec hel.partition her.partition
    have h2 : 2 ≤ (refine INF (edgesAt (min l.level r.level) l)
        (edgesAt (min l.level r.level) r)).length := by
      apply href.two_le hel.partition her.partition
      rcases min_choice l.level r.level with h | h
      · exact .inl (hel.two_le h.symm)
      · exact .inr (her.two_le h.symm)
    have hmim := mimics_refine hk hl hr hlt hcall
    rw [cddApplyReduceNode] at h
    simp only [hk] at h
    rw [applyReduceFrame_cdd hk]
    cases hps : refine INF (edgesAt (min l.level r.level) l) (edgesAt (min l.level r.level) r) with
    | nil =>
      rw [hps] at h2
      simp at h2
    | cons e it =>
    obtain ⟨⟨lp, rp⟩, bnd⟩ := e
    rw [hps] at h h2 hmim
    have hpart := href.partition
    have hvalues := href.values ((lp, rp), bnd)
    have hbounds := href.bounds ((lp, rp), bnd)
    rw [hps] at hpart hvalues hbounds
    have hlow : -INF < bnd := by
      cases hbounds (by simp) with
      | inl h =>
        obtain ⟨a, ha, rfl⟩ := h
        exact (hall a ha).1
      | inr h =>
        obtain ⟨b, hb, rfl⟩ := h
        exact (harr b hb).1
    have hupp : bnd < INF := by
      cases it with
      | nil => simp at h2
      | cons e it => exact lt_of_lt_of_le hpart.1 (le_INF e.2)
    have hij : i < s.graph.dim ∧ j < s.graph.dim ∧ i ≠ j := by
      obtain ⟨⟨hji, hi⟩, -⟩ := hL.covers.pair_of_level _ i j hk
      omega
    obtain ⟨hzone, c, g, hc, hg, hiff⟩ :=
      push_upper hk hvalid hij.1 hij.2.1 hij.2.2 hlow hupp
    have hne : (L.below (min l.level r.level) bnd s.graph.zone).Nonempty := by
      obtain ⟨y, -, hy⟩ := exists_between_cuts hlow
      rw [hz]
      refine ⟨fun k ↦ if k = i then y else 0, Set.mem_univ _, ?_⟩
      rw [diff_of_levelinfo hk, if_pos rfl, if_neg (Ne.symm hij.2.2), sub_zero]
      exact hy
    rw [hiff.mpr hne] at hc
    apply applyReduceSearch_root (one_le_of_level hk hl hr hlt hwl hwr)
      (fun e he ↦ (hmim e he).2.2) hc _ h hw hm
    intro prev t hprev
    obtain ⟨⟨a, ha, hae⟩, b, hb, hbe⟩ := hvalues (by simp)
    have hae : a.1 = lp := hae
    have hbe : b.1 = rp := hbe
    rw [← hae, ← hbe] at hprev
    have hle := level_le_cddApplyReduceRec hL hm₀.found ((hel.wf a ha).negCond (cddMask l))
      ((hall a ha).2.negCond _) ((her.wf b hb).negCond (cddMask r)) ((harr b hb).2.negCond _) (by
        simp only [height_negCond]
        exact lt_of_lt_of_le (height_add_lt (hel.height_le a ha) (her.height_le b hb)
          (fun h ↦ hel.height_lt h a ha) fun h ↦ her.height_lt h b hb) hfuel) hg.valid
      (hg.dim.trans hdim) (hg.zone.symm ▸ hzone.symm ▸ hne) hprev
    rw [level_negCond, level_negCond] at hle
    exact lt_of_lt_of_le (lt_min (hel.level_lt a ha) (her.level_lt b hb)) hle.2

/-- What is found in the cache is not too wide. -/
theorem applyReduceLookup_root (hm₀ : m₀.Valid L size) {level : ℕ} {s s' : Fused} {d : DdNode}
    (hm : SameCache m₀ m) (hw : ¬ WidthLe size d)
    (hframe : cddApplyReduceNode L ⊤ callP l r s = some (d, s') →
      RootFails size level d m (applyReduceFrame L size callM l r s m))
    (h : (match m₀.found slot s.lookups l r op with
      | some res => s.reduce L res
      | none => cddApplyReduceNode L ⊤ callP l r s) = some (d, s')) :
    RootFails size level d m (match m.lookup (slot l r op) l r op with
      | some (.node res) =>
        (s.reduce L res).map fun r ↦ (.node r.1, r.2, (m.hold res 1).deref res)
      | some (.null _) => none
      | none => applyReduceFrame L size callM l r s m) := by
  unfold found at h
  simp only [hm.lookup_eq]
  cases hlook : m₀.lookup (slot l r op) l r op with
  | none =>
    simp only [hlook] at h
    exact hframe h
  | some ptr =>
    obtain ⟨res, rfl, hres, -⟩ := hm₀.lookup hlook
    simp only [hlook] at h
    exact absurd (Fused.reduce_mimics hres (m := m) h).1 hw

/-- The outermost call fails in its own frame or not at all. -/
theorem applyReduceRec_root (hL : L.Declared) (hm₀ : m₀.Valid L size) (hl : L.WF l)
    (hil : InRange l) (hr : L.WF r) (hir : InRange r) (hwl : WidthLe size l) (hwr : WidthLe size r)
    {fuel : ℕ} (hfuel : l.height + r.height ≤ fuel) {s s' : Fused} (hvalid : s.graph.Valid)
    (hdim : s.graph.dim = L.clocknum) (hz : s.graph.zone = Set.univ) {d : DdNode}
    (h : cddApplyReduceRec L ⊤ (m₀.found slot) op (fuel + 1) l r s = some (d, s'))
    (hw : ¬ WidthLe size d) (hm : SameCache m₀ m) :
    RootFails size (min l.level r.level) d m
      (applyReduceRec L size slot op (fuel + 1) l r s m) := by
  have hd := (level_le_cddApplyReduceRec hL hm₀.found hl hil hr hir (Nat.lt_succ_of_le hfuel) hvalid
    hdim (hz ▸ Set.univ_nonempty) h).1
  obtain ⟨b, g, hb, hgv, hedges, hgdim, -⟩ := cddTarjanConsistent_zone hvalid
  have hg : Restores s.graph g := ⟨hedges, hgdim, hgv⟩
  rw [cddApplyReduceRec, hb] at h
  rw [applyReduceRec, hb]
  cases b with
  | false => cases h
  | true =>
  simp only [hm.errorcond, ne_eq, not_true_eq_false, if_false] at h ⊢
  cases hterm : cddApplyReduceTerminal op l r with
  | some sc =>
    have hwsc := widthLe_cddApplyReduceTerminal hwl hwr hterm
    cases sc with
    | done n =>
      simp only [hterm, Option.some.injEq, Prod.mk.injEq] at h
      rw [← h.1] at hw
      exact absurd hwsc hw
    | reduce n =>
      simp only [hterm] at h
      exact absurd (Fused.reduce_mimics hwsc (m := m) h).1 hw
  | none =>
    simp only [hterm] at h
    have htt := not_terminal_of_no_shortcut hl hterm
    by_cases haddr : L.addr l > L.addr r
    · simp only [if_pos haddr] at h ⊢
      rw [min_comm]
      apply applyReduceLookup_root (s := { s with graph := g, lookups := s.lookups + 1 }) hm₀ hm hw
        _ h
      intro h
      exact applyReduceFrame_root hL hm₀ hr hir hl hil hwr hwl (by rw [Bool.and_comm, htt])
        (by omega) hg.valid (hg.dim.trans hdim) (hg.zone.trans hz) h hd hw hm
    · simp only [if_neg haddr] at h ⊢
      apply applyReduceLookup_root (s := { s with graph := g, lookups := s.lookups + 1 }) hm₀ hm hw
        _ h
      intro h
      exact applyReduceFrame_root hL hm₀ hl hil hr hir hwl hwr htt hfuel hg.valid
        (hg.dim.trans hdim) (hg.zone.trans hz) h hd hw hm

end

/-- The memory after `cdd_init`. -/
def Memory.init : Memory := ⟨[], fun _ ↦ 0, fun _ ↦ none, 0⟩

theorem Memory.valid_init (L : Library) (size : ℕ∞) : Memory.init.Valid L size :=
  ⟨fun _ _ h ↦ (nomatch h), rfl⟩

/-- The test `x1 - x0 ≥ b / 2`. -/
def lowerTest (b : ℤ) : DdNode := .cdd false 0 [(cddfalse, .fin b), (cddtrue, INF)]

theorem inRange_lowerTest (b : ℤ) : InRange (lowerTest b) := by
  apply All.cdd _ trivial
  · simp only [List.mem_cons, List.not_mem_nil, or_false, forall_eq_or_imp, forall_eq]
    exact ⟨Raw.negInf_lt_fin b, neg_INF_lt⟩
  · simp only [List.mem_cons, List.not_mem_nil, or_false, forall_eq_or_imp, forall_eq]
    exact ⟨.terminal _, .terminal _⟩

theorem widthLe_lowerTest (b : ℤ) : WidthLe 2 (lowerTest b) := by
  apply WidthLe.cdd _ _ (by simp)
  simp only [List.mem_cons, List.not_mem_nil, or_false, forall_eq_or_imp, forall_eq]
  exact ⟨.terminal _, .terminal _⟩

end UCDD

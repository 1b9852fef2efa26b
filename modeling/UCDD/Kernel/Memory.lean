import UCDD.Diagram.Apply
import UCDD.Diagram.Canonical

/-!
# Apply and its memory

`cdd_apply` of `cddop.c:141–332` once more, with what it does to memory: the reference stack, the
references that it takes and gives back, and the cache. `cdd_make_cdd_node` returns `NULL` where a
node is too wide; a caller that follows such a pointer crashes, which is `none`. Garbage collection
is left out: it drops cache entries and frees nodes that nothing refers to.
-/

namespace UCDD

open IntervalMap DdNode

/-- A pointer that a call returns: to a stored node, or `NULL` with the mask in its last bit. -/
inductive Pointer where
  | node (d : DdNode)
  | null (mask : Bool)
  deriving DecidableEq

/-- `cdd_neg_cond`. -/
def Pointer.negCond : Pointer → Bool → Pointer
  | .node d, mask => .node (cddNegCond d mask)
  | .null neg, mask => .null (neg ^^ mask)

/-- `CddCacheData`. -/
structure CacheEntry where
  a : DdNode
  b : DdNode
  c : CddOp
  res : Pointer

/-- The reference stack with its top first, the references that were taken and not given back, the
slots of the apply cache, and `cdd_errorcond`. -/
structure Memory where
  stack : List (DdNode × Raw)
  held : DdNode → ℤ
  cache : ℕ → Option CacheEntry
  errorcond : ℤ

/-- `CDD_MAXSIZE` of `include/cdd/cdd.h`. -/
def CDD_MAXSIZE : ℤ := -21

/-- `cdd_error` prints the code and returns it. -/
def cddError (e : ℤ) (s : Memory) : ℤ × Memory := (e, s)

namespace Memory

/-- `cdd_push`. -/
def push (s : Memory) (node : DdNode) (bound : Raw) : Memory :=
  { s with stack := (node, bound) :: s.stack }

/-- Add `n` to the references that are held to the node of `d`. -/
def hold (s : Memory) (d : DdNode) (n : ℤ) : Memory :=
  { s with held := Function.update s.held (cddRglr d) (s.held (cddRglr d) + n) }

/-- `cdd_ref`, which follows the pointer. -/
def ref (s : Memory) : Pointer → Option (DdNode × Memory)
  | .node d => some (d, s.hold d 1)
  | .null _ => none

/-- `cdd_deref`. -/
def deref (s : Memory) (d : DdNode) : Memory := s.hold d (-1)

/-- The elements from the position `first` of the stack on, in the order in which they were
pushed. -/
def elems (s : Memory) (first : ℕ) : List (DdNode × Raw) :=
  (s.stack.take (s.stack.length - first)).reverse

/-- Give back the references to the elements from `first` on. -/
def release (s : Memory) (first : ℕ) : Memory :=
  (s.elems first).foldl (fun s e ↦ s.deref e.1) s

/-- The lookup in a slot. -/
def lookup (s : Memory) (slot : ℕ) (l r : DdNode) (op : CddOp) : Option Pointer :=
  match s.cache slot with
  | some entry => if entry.a = l ∧ entry.b = r ∧ entry.c = op then some entry.res else none
  | none => none

/-- The update of a slot. -/
def write (s : Memory) (slot : ℕ) (entry : CacheEntry) : Memory :=
  { s with cache := Function.update s.cache slot (some entry) }

/-- `cdd_make_cdd_node` with the elements from `first` on. -/
def makeCddNode (s : Memory) (maxcddsize : ℕ∞) (level first : ℕ) : Pointer × Memory :=
  match cddMakeCddNode maxcddsize level (s.elems first) with
  | some d => (.node d, s)
  | none => (.null false, (cddError CDD_MAXSIZE s).2)

end Memory

/-- `cdd_make_bdd_node`. Where the children differ, it follows both pointers. -/
def makeBddNode (level : ℕ) (low : DdNode) : Pointer → Option DdNode
  | .node high => some (cddMakeBddNode level low high)
  | .null _ => none

/-- The loop over the later children, `cddop.c:279–289`: `prev` is the last child not pushed yet.
The fuel bounds its rounds. -/
def applyLoop (call : DdNode → DdNode → Memory → Option (Pointer × Memory)) (mask : Bool) :
    ℕ → List (DdNode × Raw) → List (DdNode × Raw) → DdNode → Memory → Option (DdNode × Memory)
  | fuel + 1, lp :: ls, rp :: rs, prev, s =>
    let bnd := min lp.2 rp.2
    if bnd < INF then
      match skip bnd (lp :: ls), skip bnd (rp :: rs) with
      | lp :: ls, rp :: rs => do
        let (n, s) ← call lp.1 rp.1 s
        if n = .node prev then applyLoop call mask fuel (lp :: ls) (rp :: rs) prev s
        else do
          let (n, s) ← (s.push (cddNegCond prev mask) bnd).ref n
          applyLoop call mask fuel (lp :: ls) (rp :: rs) n s
      | _, _ => none
    else some (prev, s)
  | _, _, _, _, _ => none

/-- One frame of `cdd_apply_rec`, `cddop.c:242–324`, over the recursive call `rec`. -/
def applyFrame (L : Library) (maxcddsize : ℕ∞)
    (rec : DdNode → DdNode → Memory → Option (Pointer × Memory)) (l r : DdNode) (s : Memory) :
    Option (Pointer × Memory) :=
  let lmask := cddMask l
  let rmask := cddMask r
  let call (c d : DdNode) := rec (cddNegCond c lmask) (cddNegCond d rmask)
  let level := min l.level r.level
  match L.levelinfo[level]? with
  | some (.cdd _ _) =>
    let top := s.stack
    let s := if l.level ≤ r.level then s else s.push (cddRglr l) INF
    let s := if r.level ≤ l.level then s else s.push (cddRglr r) INF
    let first := s.stack.length
    match edgesAt level l, edgesAt level r with
    | lp :: ls, rp :: rs => do
      let (prev, s) ← call lp.1 rp.1 s
      let (prev, s) ← s.ref prev
      let mask := cddMask prev
      let (prev, s) ← applyLoop call mask ((lp :: ls).length + (rp :: rs).length) (lp :: ls)
        (rp :: rs) prev s
      let s := s.push (cddNegCond prev mask) INF
      let (res, s) := s.makeCddNode maxcddsize level first
      return (res.negCond mask, { s.release first with stack := top })
    | _, _ => none
  | some .bdd => do
    let (n, s) ← call (lowAt level l) (lowAt level r) s
    let (n, s) ← s.ref n
    let (m, s) ← call (highAt level l) (highAt level r) s
    let res ← makeBddNode level n m
    return (.node res, s.deref n)
  | none => none

/-- The lookup in the cache, and on a miss the frame and the update. The count of a result that is
found is read. -/
def applyCached (slot : DdNode → DdNode → CddOp → ℕ) (op : CddOp) (l r : DdNode)
    (frame : Memory → Option (Pointer × Memory)) (s : Memory) : Option (Pointer × Memory) :=
  match s.lookup (slot l r op) l r op with
  | some (.null _) => none
  | some (.node res) => some (.node res, s)
  | none => do
    let (res, s) ← frame s
    return (res, s.write (slot l r op) ⟨l, r, op, res⟩)

/-- `cdd_apply_rec` with the cache; `slot` is `APPLYHASH` in the size of the cache. -/
def applyRec (L : Library) (maxcddsize : ℕ∞) (slot : DdNode → DdNode → CddOp → ℕ) (op : CddOp) :
    ℕ → DdNode → DdNode → Memory → Option (Pointer × Memory)
  | 0, _, _, _ => none
  | fuel + 1, l, r, s =>
    if s.errorcond ≠ 0 then some (.null false, s)
    else
      match cddApplyTerminal op l r with
      | some res => some (.node res, s)
      | none =>
        let (l, r) := if L.addr l > L.addr r then (r, l) else (l, r)
        if cddIsterminal l && cddIsterminal r then some (.node l, s)
        else applyCached slot op l r (applyFrame L maxcddsize (applyRec L maxcddsize slot op fuel) l r) s

/-- `cdd_apply`. -/
def apply (L : Library) (maxcddsize : ℕ∞) (slot : DdNode → DdNode → CddOp → ℕ) (op : CddOp)
    (l r : DdNode) (s : Memory) : Option (Pointer × Memory) := do
  let (res, s) ← applyRec L maxcddsize slot op (l.height + r.height + 1) l r s
  if s.errorcond ≠ 0 then return (.null false, (cddError s.errorcond s).2)
  else return (res, s)

/-! ### Balanced calls -/

namespace Memory

variable {L : Library} {size : ℕ∞} {s t u : Memory}

/-- Every entry of the cache holds what `cdd_apply` returned, and `cdd_errorcond` is zero. -/
structure Valid (L : Library) (size : ℕ∞) (s : Memory) : Prop where
  cached : ∀ k entry, s.cache k = some entry → ∃ d, entry.res = .node d ∧ WidthLe size d ∧
    cddApply L ⊤ entry.c entry.a entry.b = some d
  errorcond : s.errorcond = 0

/-- The stack is as before, and the references that were taken have been given back. -/
structure Balanced (s t : Memory) : Prop where
  stack : t.stack = s.stack
  held : t.held = s.held

theorem hold_held (d : DdNode) (n : ℤ) (c : DdNode) :
    (s.hold d n).held c = s.held c + if cddRglr d = c then n else 0 := by
  show Function.update s.held _ _ c = _
  rw [Function.update_apply]
  by_cases h : c = cddRglr d
  · subst h
    simp
  · simp [h, Ne.symm h]

/-- A reference that is given back. -/
theorem hold_deref (d : DdNode) : (s.hold d 1).deref d = s := by
  have hheld : ((s.hold d 1).deref d).held = s.held := by
    ext c
    rw [deref, hold_held, hold_held]
    split_ifs <;> omega
  show { s with held := ((s.hold d 1).deref d).held } = s
  rw [hheld]

@[simp] theorem hold_stack (d : DdNode) (n : ℤ) : (s.hold d n).stack = s.stack := rfl

theorem Valid.hold (h : s.Valid L size) (d : DdNode) (n : ℤ) : (s.hold d n).Valid L size :=
  ⟨h.cached, h.errorcond⟩

theorem Valid.push (h : s.Valid L size) (d : DdNode) (b : Raw) : (s.push d b).Valid L size :=
  ⟨h.cached, h.errorcond⟩

/-- The elements on top of the stack. -/
theorem elems_eq {es base : List (DdNode × Raw)} (h : s.stack = es.reverse ++ base) :
    s.elems base.length = es := by
  have hlen : (es.reverse ++ base).length - base.length = es.reverse.length := by simp
  rw [elems, h, hlen, List.take_left, List.reverse_reverse]

/-- The references to the elements are given back. -/
theorem foldl_deref (es : List (DdNode × Raw)) (s : Memory) :
    es.foldl (fun s e ↦ s.deref e.1) s =
      { s with held := fun c ↦ s.held c - ((es.map fun e ↦ cddRglr e.1).count c : ℤ) } := by
  induction es generalizing s with
  | nil => simp
  | cons e es ih =>
    rw [List.foldl_cons, ih]
    have hheld (c : DdNode) : (s.deref e.1).held c - ((es.map fun e ↦ cddRglr e.1).count c : ℤ) =
        s.held c - (((e :: es).map fun e ↦ cddRglr e.1).count c : ℤ) := by
      rw [deref, hold_held, List.map_cons, List.count_cons]
      simp only [beq_iff_eq]
      split_ifs <;> omega
    rw [funext hheld]
    rfl

end Memory

section

open Memory

variable {L : Library} {size : ℕ∞} {f : DdNode → DdNode → Option DdNode}
  {call : DdNode → DdNode → Memory → Option (Pointer × Memory)}

/-- A call that returns the diagram `f` gives unless it is too wide, and leaves the memory balanced;
a call whose diagram is too wide returns no node. -/
def Keeps (L : Library) (size : ℕ∞) (n : DdNode) (call : Memory → Option (Pointer × Memory)) :
    Prop :=
  ∀ s : Memory, s.Valid L size →
    (WidthLe size n → ∃ t, call s = some (.node n, t) ∧ s.Balanced t ∧ t.Valid L size) ∧
    (¬ WidthLe size n → ∀ d t, call s ≠ some (.node d, t))

/-- The new children on the stack, and the references that are held to them. -/
theorem applyLoop_spec (mask : Bool) {fuel : ℕ} {p q : List (DdNode × Raw)} {prev : DdNode}
    {out : List (DdNode × Raw)}
    (hcall : ∀ a ∈ p, ∀ b ∈ q, ∀ n, f a.1 b.1 = some n → Keeps L size n (call a.1 b.1))
    (h : mergeLoop f INF fuel p q prev = some out) {s : Memory} (hs : s.Valid L size) :
    ((∀ e ∈ out, WidthLe size e.1) → ∃ last t, applyLoop call mask fuel p q prev s = some (last, t) ∧
      t.Valid L size ∧
      (t.push (cddNegCond last mask) INF).stack =
        (out.map fun e ↦ (cddNegCond e.1 mask, e.2)).reverse ++ s.stack ∧
      ∀ c, t.held c + (if cddRglr prev = c then 1 else 0) =
        s.held c + ((out.map fun e ↦ cddRglr e.1).count c : ℤ)) ∧
    ((∃ e ∈ out, ¬ WidthLe size e.1) → WidthLe size prev →
      applyLoop call mask fuel p q prev s = none) ∧ ∃ e ∈ out, e.1 = prev := by
  induction fuel generalizing p q prev out s with
  | zero => cases h
  | succ fuel ih =>
    cases p with
    | nil => cases h
    | cons lp ls =>
    cases q with
    | nil => cases h
    | cons rp rs =>
    rw [mergeLoop] at h
    rw [applyLoop]
    by_cases hlt : min lp.2 rp.2 < INF
    · simp only [if_pos hlt] at h ⊢
      cases hp : skip (min lp.2 rp.2) (lp :: ls) with
      | nil => simp [hp] at h
      | cons a p' =>
      cases hq : skip (min lp.2 rp.2) (rp :: rs) with
      | nil => simp [hp, hq] at h
      | cons b q' =>
      simp only [hp, hq] at h ⊢
      have hpp : ∀ x ∈ a :: p', x ∈ lp :: ls := fun x hx ↦ mem_skip (hp ▸ hx)
      have hqq : ∀ x ∈ b :: q', x ∈ rp :: rs := fun x hx ↦ mem_skip (hq ▸ hx)
      have hcall' : ∀ x ∈ a :: p', ∀ y ∈ b :: q', ∀ n, f x.1 y.1 = some n →
          Keeps L size n (call x.1 y.1) := fun x hx y hy ↦ hcall x (hpp x hx) y (hqq y hy)
      cases hn : f a.1 b.1 with
      | none => simp [hn] at h
      | some n =>
      simp only [hn] at h
      obtain ⟨hok, hbad⟩ := hcall' a (by simp) b (by simp) n hn s hs
      by_cases heq : n = prev
      · subst heq
        rw [if_pos rfl] at h
        obtain ⟨-, -, e, he, hen⟩ := ih hcall' h hs
        constructor
        · intro hall
          obtain ⟨s₁, hs₁, hbal, hv⟩ := hok (hen ▸ hall e he)
          obtain ⟨last, t, ht, htv, hstack, hheld⟩ := (ih hcall' h hv).1 hall
          refine ⟨last, t, ?_, htv, hbal.stack ▸ hstack, hbal.held ▸ hheld⟩
          rw [hs₁]
          simp only [Option.bind_eq_bind, Option.bind_some, if_true]
          exact ht
        · refine ⟨fun hwide hn ↦ ?_, e, he, hen⟩
          obtain ⟨s₁, hs₁, -, hv⟩ := hok hn
          rw [hs₁]
          simp only [Option.bind_eq_bind, Option.bind_some, if_true]
          exact (ih hcall' h hv).2.1 hwide hn
      · rw [if_neg heq] at h
        obtain ⟨out, hout, rfl⟩ := Option.map_eq_some_iff.mp h
        obtain ⟨-, -, e, he, hen⟩ := ih hcall' hout hs
        have hne : (Pointer.node n : Pointer) ≠ .node prev := fun h ↦ heq (Pointer.node.inj h)
        refine ⟨fun hall ↦ ?_, fun hwide hprev ↦ ?_, _, List.mem_cons_self, rfl⟩
        · obtain ⟨hprev, hall⟩ := List.forall_mem_cons.mp hall
          obtain ⟨s₁, hs₁, hbal, hv⟩ := hok (hen ▸ hall e he)
          obtain ⟨last, t, ht, htv, hstack, hheld⟩ :=
            (ih hcall' hout ((hv.push (cddNegCond prev mask) (min lp.2 rp.2)).hold n 1)).1 hall
          refine ⟨last, t, ?_, htv, ?_, fun c ↦ ?_⟩
          · rw [hs₁]
            simp only [Option.bind_eq_bind, Option.bind_some, if_neg hne]
            exact ht
          · rw [hstack, List.map_cons, List.reverse_cons, List.append_assoc]
            show _ ++ (_ :: s₁.stack) = _
            rw [hbal.stack]
            rfl
          · have hc := hheld c
            rw [hold_held] at hc
            have hpush : (s₁.push (cddNegCond prev mask) (min lp.2 rp.2)).held c = s.held c :=
              congrFun hbal.held c
            rw [List.map_cons, List.count_cons]
            simp only [beq_iff_eq]
            split_ifs at hc ⊢ <;> omega
        · have hwide' : ∃ e ∈ out, ¬ WidthLe size e.1 := by
            obtain ⟨x, hx, hxw⟩ := hwide
            cases List.mem_cons.mp hx with
            | inl hxe =>
              rw [hxe] at hxw
              exact absurd hprev hxw
            | inr hx => exact ⟨x, hx, hxw⟩
          by_cases hnw : WidthLe size n
          · obtain ⟨s₁, hs₁, -, hv⟩ := hok hnw
            rw [hs₁]
            simp only [Option.bind_eq_bind, Option.bind_some, if_neg hne]
            exact (ih hcall' hout ((hv.push (cddNegCond prev mask) (min lp.2 rp.2)).hold n 1)).2.1
              hwide' hnw
          · cases hx : call a.1 b.1 s with
            | none => rfl
            | some x =>
              obtain ⟨ptr, s₁⟩ := x
              cases ptr with
              | node d => exact absurd hx (hbad hnw d s₁)
              | null m =>
                simp only [Option.bind_eq_bind, Option.bind_some]
                rw [if_neg fun h ↦ by cases h]
                rfl
    · simp only [if_neg hlt] at h ⊢
      cases h
      refine ⟨fun _ ↦ ⟨prev, s, rfl, hs, rfl, fun c ↦ ?_⟩, fun hbad hprev ↦ ?_,
        _, List.mem_singleton_self _, rfl⟩
      · by_cases hc : cddRglr prev = c <;> simp [hc]
      · obtain ⟨e, he, hwide⟩ := hbad
        rw [List.mem_singleton.mp he] at hwide
        exact absurd hprev hwide

theorem widthLe_of_cddMakeBddNode {level : ℕ} {low high : DdNode} (hl : WidthLe size low)
    (hh : WidthLe size high) : WidthLe size (cddMakeBddNode level low high) := by
  rw [cddMakeBddNode]
  split_ifs
  · exact hl
  · exact .bdd _ _ (widthLe_negCond.mpr hl) (widthLe_negCond.mpr hh)

theorem widthLe_of_cddMakeCddNode {level : ℕ} {elem : List (DdNode × Raw)} {n : DdNode}
    (hn : cddMakeCddNode size level elem = some n) (hall : ∀ e ∈ elem, WidthLe size e.1) :
    WidthLe size n := by
  unfold cddMakeCddNode at hn
  split at hn
  · cases hn
  · next hlen =>
    split at hn
    · cases hn
      exact hall _ List.mem_cons_self
    · cases hn
      exact .cdd false level (not_lt.mp hlen) hall

/-- The new node from the elements on the stack, which are given back. -/
theorem makeCddNode_spec {level : ℕ} {elem : List (DdNode × Raw)} {node : DdNode}
    (hpos : 1 ≤ size) (hnode : cddMakeCddNode ⊤ level elem = some node)
    (hall : ∀ e ∈ elem, WidthLe size e.1) {s : Memory} {base : List (DdNode × Raw)}
    (hstack : s.stack = elem.reverse ++ base) :
    (s.makeCddNode size level base.length = (.node node, s) ∧ WidthLe size node ∨
      s.makeCddNode size level base.length = (.null false, s) ∧ ¬ WidthLe size node) ∧
    s.release base.length =
      { s with held := fun c ↦ s.held c - ((elem.map fun e ↦ cddRglr e.1).count c : ℤ) } := by
  have helems := elems_eq hstack
  constructor
  · rw [makeCddNode, helems]
    by_cases hw : WidthLe size node
    · left
      rw [(widthLe_cddMakeCddNode hnode hw hpos).1]
      exact ⟨rfl, hw⟩
    · right
      cases hsize : cddMakeCddNode size level elem with
      | none => exact ⟨rfl, hw⟩
      | some d =>
        have hdn : d = node :=
          Option.some_injective _ ((cddMakeCddNode_of_size hsize).symm.trans hnode)
        subst hdn
        exact absurd (widthLe_of_cddMakeCddNode hsize hall) hw
  · rw [release, helems, foldl_deref]

variable {rec : DdNode → DdNode → Option DdNode}
  {call : DdNode → DdNode → Memory → Option (Pointer × Memory)} {l r n : DdNode}

/-- A BDD frame over calls that keep the memory balanced. -/
theorem applyFrame_bdd (hk : L.levelinfo[min l.level r.level]? = some .bdd)
    (hcall : ∀ c d n, Child L (min l.level r.level) l c → Child L (min l.level r.level) r d →
      rec c d = some n → Keeps L size n (call c d))
    (hn : cddApplyNode L ⊤ rec l r = some n) : Keeps L size n (applyFrame L size call l r) := by
  intro s hs
  rw [cddApplyNode] at hn
  rw [applyFrame]
  simp only [hk, Option.bind_eq_bind, Option.bind_eq_some_iff, Option.pure_def,
    Option.some.injEq] at hn
  simp only [hk, Option.bind_eq_bind, Option.pure_def]
  obtain ⟨low, hlow, high, hhigh, rfl⟩ := hn
  obtain ⟨hokl, hbadl⟩ := hcall _ _ _ (.inr ⟨hk, .inl rfl⟩) (.inr ⟨hk, .inl rfl⟩) hlow s hs
  have hkeep := hcall _ _ _ (.inr ⟨hk, .inr rfl⟩) (.inr ⟨hk, .inr rfl⟩) hhigh
  constructor
  · intro hw
    obtain ⟨hwlow, hwhigh⟩ := widthLe_cddMakeBddNode hw
    obtain ⟨s₁, hs₁, hbal₁, hv₁⟩ := hokl hwlow
    obtain ⟨s₂, hs₂, hbal₂, hv₂⟩ := (hkeep _ (hv₁.hold low 1)).1 hwhigh
    refine ⟨s₂.deref low, ?_, ⟨?_, ?_⟩, hv₂.hold low (-1)⟩
    · simp only [hs₁, Option.bind_some, ref, hs₂, makeBddNode]
    · exact hbal₂.stack.trans hbal₁.stack
    · ext c
      rw [deref, hold_held, hbal₂.held, hold_held, hbal₁.held]
      split_ifs <;> omega
  · intro hw d t
    by_cases hwlow : WidthLe size low
    · obtain ⟨s₁, hs₁, -, hv₁⟩ := hokl hwlow
      have hwhigh : ¬ WidthLe size high := fun h ↦ hw (widthLe_of_cddMakeBddNode hwlow h)
      have hbadh := (hkeep _ (hv₁.hold low 1)).2 hwhigh
      simp only [hs₁, Option.bind_some, ref]
      cases hx : call (cddNegCond (highAt (min l.level r.level) l) (cddMask l))
          (cddNegCond (highAt (min l.level r.level) r) (cddMask r)) (s₁.hold low 1) with
      | none => exact fun h ↦ by cases h
      | some x =>
        obtain ⟨ptr, s₂⟩ := x
        cases ptr with
        | node m => exact absurd hx (hbadh m s₂)
        | null m => exact fun h ↦ by cases h
    · have hbad := hbadl hwlow
      cases hx : call (cddNegCond (lowAt (min l.level r.level) l) (cddMask l))
          (cddNegCond (lowAt (min l.level r.level) r) (cddMask r)) s with
      | none => exact fun h ↦ by cases h
      | some x =>
        obtain ⟨ptr, s₁⟩ := x
        cases ptr with
        | node m => exact absurd hx (hbad m s₁)
        | null m => exact fun h ↦ by cases h

/-- A CDD frame over calls that keep the memory balanced. -/
theorem applyFrame_cdd {i j : ℕ} (hk : L.levelinfo[min l.level r.level]? = some (.cdd i j))
    (hwl : WidthLe size l) (hwr : WidthLe size r)
    (hcall : ∀ c d n, Child L (min l.level r.level) l c → Child L (min l.level r.level) r d →
      rec c d = some n → Keeps L size n (call c d))
    (hn : cddApplyNode L ⊤ rec l r = some n) : Keeps L size n (applyFrame L size call l r) := by
  intro s hs
  rw [cddApplyNode] at hn
  rw [applyFrame]
  simp only [hk] at hn ⊢
  cases hlp : edgesAt (min l.level r.level) l with
  | nil => simp [hlp] at hn
  | cons lp ls =>
  cases hrp : edgesAt (min l.level r.level) r with
  | nil => simp [hlp, hrp] at hn
  | cons rp rs =>
  have hpos : 1 ≤ size := by
    rcases min_choice l.level r.level with h | h
    · exact one_le_of_edgesAt hwl (le_of_eq h.symm) hlp
    · exact one_le_of_edgesAt hwr (le_of_eq h.symm) hrp
  simp only [hlp, hrp, Option.bind_eq_bind, Option.bind_eq_some_iff, Option.pure_def,
    Option.some.injEq] at hn
  simp only [Option.bind_eq_bind, Option.pure_def]
  obtain ⟨prev, hprev, out, hout, node, hnode, rfl⟩ := hn
  have hkeeps : ∀ a ∈ lp :: ls, ∀ b ∈ rp :: rs, ∀ n,
      rec (cddNegCond a.1 (cddMask l)) (cddNegCond b.1 (cddMask r)) = some n →
      Keeps L size n (call (cddNegCond a.1 (cddMask l)) (cddNegCond b.1 (cddMask r))) :=
    fun a ha b hb n ↦ hcall _ _ n (.inl ⟨⟨i, j, hk⟩, a, hlp ▸ ha, rfl⟩)
      (.inl ⟨⟨i, j, hk⟩, b, hrp ▸ hb, rfl⟩)
  -- the operands that are not on the level are pushed
  set s₀ := if r.level ≤ l.level then (if l.level ≤ r.level then s else s.push (cddRglr l) INF)
    else (if l.level ≤ r.level then s else s.push (cddRglr l) INF).push (cddRglr r) INF with hs₀
  have hv₀ : s₀.Valid L size := by
    rw [hs₀]
    split_ifs
    · exact hs
    · exact hs.push _ _
    · exact hs.push _ _
    · exact (hs.push _ _).push _ _
  have hheld₀ : s₀.held = s.held := by
    rw [hs₀]
    split_ifs <;> rfl
  obtain ⟨hok, hbad⟩ := hkeeps lp (by simp) rp (by simp) prev hprev s₀ hv₀
  have hloop {t : Memory} (ht : t.Valid L size) :=
    @applyLoop_spec L size _
      (fun c d ↦ call (cddNegCond c (cddMask l)) (cddNegCond d (cddMask r))) (cddMask prev) _ _ _ _ _
      hkeeps hout t ht
  obtain ⟨-, -, e, he, hep⟩ := hloop hs
  -- the run when all children are narrow enough
  have hrun (hall : ∀ e ∈ out, WidthLe size e.1) : ∃ s₁ last s₂,
      call (cddNegCond lp.1 (cddMask l)) (cddNegCond rp.1 (cddMask r)) s₀ = some (.node prev, s₁) ∧
      applyLoop (fun c d ↦ call (cddNegCond c (cddMask l)) (cddNegCond d (cddMask r)))
        (cddMask prev) ((lp :: ls).length + (rp :: rs).length) (lp :: ls) (rp :: rs) prev
        (s₁.hold prev 1) = some (last, s₂) ∧
      s₂.Valid L size ∧ (s₂.push (cddNegCond last (cddMask prev)) INF).stack =
        (out.map fun e ↦ (cddNegCond e.1 (cddMask prev), e.2)).reverse ++ s₀.stack ∧
      ∀ c, s₂.held c = s.held c + ((out.map fun e ↦ cddRglr e.1).count c : ℤ) := by
    obtain ⟨s₁, hs₁, hbal₁, hv₁⟩ := hok (hep ▸ hall e he)
    obtain ⟨last, s₂, hs₂, hv₂, hstack, hheld⟩ := (hloop (hv₁.hold prev 1)).1 hall
    refine ⟨s₁, last, s₂, hs₁, hs₂, hv₂, ?_, fun c ↦ ?_⟩
    · rw [hstack, hold_stack, hbal₁.stack]
    · have hc := hheld c
      rw [hold_held, hbal₁.held, hheld₀] at hc
      omega
  by_cases hall : ∀ e ∈ out, WidthLe size e.1
  · obtain ⟨s₁, last, s₂, hs₁, hs₂, hv₂, hstack, hheld⟩ := hrun hall
    obtain ⟨hmake, hrelease⟩ := makeCddNode_spec hpos hnode
      (List.forall_mem_map.mpr fun e he ↦ widthLe_negCond.mpr (hall e he)) hstack
    have hmap : (out.map fun e ↦ (cddNegCond e.1 (cddMask prev), e.2)).map (fun e ↦ cddRglr e.1) =
        out.map fun e ↦ cddRglr e.1 := by
      rw [List.map_map]
      apply List.map_congr_left
      intro e _
      exact cddRglr_negCond e.1 (cddMask prev)
    rw [hmap] at hrelease
    simp only [hs₁, Option.bind_some, ref, hs₂]
    rw [widthLe_negCond]
    cases hmake with
    | inl h =>
      obtain ⟨hmake, hw⟩ := h
      refine ⟨fun _ ↦ ⟨_, by rw [hmake]; rfl, ?_, ?_⟩, fun h ↦ absurd hw h⟩
      · rw [hrelease]
        refine ⟨rfl, funext fun c ↦ ?_⟩
        show s₂.held c - _ = s.held c
        have := hheld c
        omega
      · rw [hrelease]
        exact ⟨hv₂.cached, hv₂.errorcond⟩
    | inr h =>
      obtain ⟨hmake, hw⟩ := h
      refine ⟨fun h ↦ absurd h hw, fun _ d t ↦ ?_⟩
      rw [hmake]
      exact fun h ↦ nomatch h
  · have hwide : ¬ WidthLe size node := fun hw ↦ hall fun e he ↦
      widthLe_negCond.mp (List.forall_mem_map.mp (widthLe_cddMakeCddNode hnode hw hpos).2 e he)
    refine ⟨fun hw ↦ absurd (widthLe_negCond.mp hw) hwide, fun _ d t ↦ ?_⟩
    push Not at hall
    by_cases hwp : WidthLe size prev
    · obtain ⟨s₁, hs₁, -, hv₁⟩ := hok hwp
      simp only [hs₁, Option.bind_some, ref, (hloop (hv₁.hold prev 1)).2.1 hall hwp]
      exact fun h ↦ nomatch h
    · cases hx : call (cddNegCond lp.1 (cddMask l)) (cddNegCond rp.1 (cddMask r)) s₀ with
      | none => exact fun h ↦ nomatch h
      | some x =>
        obtain ⟨ptr, s₁⟩ := x
        cases ptr with
        | node m => exact absurd hx (hbad hwp m s₁)
        | null m => exact fun h ↦ nomatch h

theorem applyFrame_spec (hwl : WidthLe size l) (hwr : WidthLe size r)
    (hcall : ∀ c d n, Child L (min l.level r.level) l c → Child L (min l.level r.level) r d →
      rec c d = some n → Keeps L size n (call c d))
    (hn : cddApplyNode L ⊤ rec l r = some n) : Keeps L size n (applyFrame L size call l r) := by
  cases hk : L.levelinfo[min l.level r.level]? with
  | none =>
    rw [cddApplyNode] at hn
    simp [hk] at hn
  | some info =>
    cases info with
    | bdd => exact applyFrame_bdd hk hcall hn
    | cdd i j => exact applyFrame_cdd hk hwl hwr hcall hn

theorem Child.widthLe {level : ℕ} {c d : DdNode} (hd : WidthLe size d) (hc : Child L level d c) :
    WidthLe size c := by
  cases hc with
  | inl h =>
    obtain ⟨-, e, he, rfl⟩ := h
    exact widthLe_negCond.mpr (widthLe_edgesAt level hd e he)
  | inr h =>
    cases h.2 with
    | inl h =>
      rw [h]
      exact widthLe_negCond.mpr (widthLe_lowAt hd)
    | inr h =>
      rw [h]
      exact widthLe_negCond.mpr (widthLe_highAt hd)

theorem widthLe_cddApplyTerminal {op : CddOp} {d : DdNode} (hl : WidthLe size l)
    (hr : WidthLe size r) (h : cddApplyTerminal op l r = some d) : WidthLe size d := by
  have hfalse : WidthLe size cddfalse := .terminal false
  have htrue : WidthLe size cddtrue := .terminal true
  have hnegl : WidthLe size (cddNeg l) := widthLe_negCond.mpr hl
  have hnegr : WidthLe size (cddNeg r) := widthLe_negCond.mpr hr
  cases op <;> unfold cddApplyTerminal at h <;> split_ifs at h <;> cases h <;> assumption

/-- There is one diagram that `cdd_apply` can give. -/
theorem cddApply_eq_of_eval {op : CddOp} (hl : L.WF l) (hr : L.WF r) (hw : L.WF n)
    (heval : ∀ a, eval a n = op.eval (eval a l) (eval a r)) : cddApply L ⊤ op l r = some n := by
  obtain ⟨m, hm, hb, -⟩ := cddApply_spec op hl hr
  have hmn : m = n := eq_of_eval_eq hb.wf hw fun a ↦ (hb.eval_eq a).trans (heval a).symm
  exact hmn ▸ hm

/-- The lookup, the frame and the update of the cache. -/
theorem applyCached_spec {slot : DdNode → DdNode → CddOp → ℕ} {op : CddOp}
    {frame : Memory → Option (Pointer × Memory)} (hn : cddApply L ⊤ op l r = some n)
    (hframe : Keeps L size n frame) :
    Keeps L size n (applyCached slot op l r frame) := by
  intro s hs
  unfold applyCached
  cases hlook : s.lookup (slot l r op) l r op with
  | some ptr =>
    obtain ⟨d, hd, hw, happ⟩ : ∃ d, ptr = .node d ∧ WidthLe size d ∧
        cddApply L ⊤ op l r = some d := by
      unfold lookup at hlook
      split at hlook
      · next entry hentry =>
        obtain ⟨d, hd, hw, happ⟩ := hs.cached _ _ hentry
        split_ifs at hlook with h
        cases hlook
        obtain ⟨rfl, rfl, rfl⟩ := h
        exact ⟨d, hd, hw, happ⟩
      · cases hlook
    have hdn : d = n := Option.some_injective _ (happ.symm.trans hn)
    subst hdn hd
    exact ⟨fun _ ↦ ⟨s, rfl, ⟨rfl, rfl⟩, hs⟩, fun h ↦ absurd hw h⟩
  | none =>
    obtain ⟨hok, hbad⟩ := hframe s hs
    constructor
    · intro hw
      obtain ⟨t, ht, hbal, hv⟩ := hok hw
      refine ⟨t.write (slot l r op) ⟨l, r, op, .node n⟩, ?_, ⟨hbal.stack, hbal.held⟩, ?_, hv.errorcond⟩
      · simp only [ht]
        rfl
      · intro k entry hentry
        have hentry : Function.update t.cache _ _ k = some entry := hentry
        rw [Function.update_apply] at hentry
        split_ifs at hentry
        · cases hentry
          exact ⟨n, rfl, hw, hn⟩
        · exact hv.cached k entry hentry
    · intro hw d t ht
      cases hx : frame s with
      | none =>
        rw [hx] at ht
        cases ht
      | some x =>
        rw [hx] at ht
        obtain ⟨ptr, u⟩ := x
        cases ht
        exact hbad hw d u hx

/-- The recursion keeps the memory balanced where the diagram is not too wide, and returns no node
where it is. -/
theorem applyRec_spec (slot : DdNode → DdNode → CddOp → ℕ) (op : CddOp) {fuel : ℕ} (hl : L.WF l)
    (hr : L.WF r) (hwl : WidthLe size l) (hwr : WidthLe size r)
    (hfuel : l.height + r.height < fuel) (hn : cddApplyRec L ⊤ op fuel l r = some n) :
    Keeps L size n (applyRec L size slot op fuel l r) := by
  induction fuel generalizing l r n with
  | zero => cases hn
  | succ fuel ih =>
    obtain ⟨m, hm, hb, -⟩ := cddApplyRec_spec op hl hr hfuel
    obtain rfl : n = m := Option.some_injective _ (hn.symm.trans hm)
    intro s hs
    rw [applyRec]
    simp only [hs.errorcond, ne_eq, not_true_eq_false, if_false]
    rw [cddApplyRec] at hn
    cases hterm : cddApplyTerminal op l r with
    | some d =>
      simp only [hterm, Option.some.injEq] at hn
      subst hn
      exact ⟨fun _ ↦ ⟨s, rfl, ⟨rfl, rfl⟩, hs⟩,
        fun h ↦ absurd (widthLe_cddApplyTerminal hwl hwr hterm) h⟩
    | none =>
      simp only [hterm] at hn
      have htt : (cddIsterminal l && cddIsterminal r) = false := by
        rw [Bool.eq_false_iff]
        intro h
        exact cddApplyTerminal_of_isterminal op hl hr h hterm
      -- one frame, with the operands in either order
      have hframe (l' r' : DdNode) (hl' : L.WF l') (hr' : L.WF r') (hwl' : WidthLe size l')
          (hwr' : WidthLe size r') (htt' : (cddIsterminal l' && cddIsterminal r') = false)
          (hh : l'.height + r'.height = l.height + r.height)
          (heval : ∀ a, eval a n = op.eval (eval a l') (eval a r'))
          (hn : cddApplyNode L ⊤ (cddApplyRec L ⊤ op fuel) l' r' = some n) :
          Keeps L size n (applyCached slot op l' r'
            (applyFrame L size (applyRec L size slot op fuel) l' r')) := by
        apply applyCached_spec (cddApply_eq_of_eval hl' hr' hb.wf heval)
        obtain ⟨hlt, -⟩ := min_level_declared hl' hr' htt'
        apply applyFrame_spec hwl' hwr' _ hn
        intro c d m hc hd hm
        obtain ⟨hch, hcl⟩ := hc.height_le hl' hlt (min_le_left _ _)
        obtain ⟨hdh, hdl⟩ := hd.height_le hr' hlt (min_le_right _ _)
        have hlower := height_add_lt hch hdh hcl hdl
        exact ih (hc.wf hl' hlt (min_le_left _ _)) (hd.wf hr' hlt (min_le_right _ _))
          (hc.widthLe hwl') (hd.widthLe hwr') (by omega) hm
      simp only [htt, Bool.false_eq_true, if_false] at hn
      by_cases haddr : L.addr l > L.addr r
      · rw [if_pos haddr] at hn
        have htt' : (cddIsterminal r && cddIsterminal l) = false := by rw [Bool.and_comm, htt]
        simp only [if_pos haddr, htt', Bool.false_eq_true, if_false]
        exact hframe r l hr hl hwr hwl htt' (Nat.add_comm _ _)
          (fun a ↦ (hb.eval_eq a).trans (op.eval_comm _ _)) hn s hs
      · rw [if_neg haddr] at hn
        simp only [if_neg haddr, htt, Bool.false_eq_true, if_false]
        exact hframe l r hl hr hwl hwr htt rfl hb.eval_eq hn s hs

end

end UCDD

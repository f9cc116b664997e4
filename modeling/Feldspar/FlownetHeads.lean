/-
Feldspar/FlownetHeads.lean

Heads in a network (`fluids/network.py`).

The head that a loop is corrected by is the sum of the drops around it, so it
is the residual of the edge that closes the loop (`loopHead_fundamental`).
Where every loop closes, the drops are differences of heads, and any two walks
between two nodes drop the same; where the loops close up to `r`, two walks
differ by `r` at most for every edge outside the tree that they take
(`Route.pathDp_sub_le`), and so do the answers to queries (`queries_additive`).
-/
import Feldspar.CycleBasis
import Feldspar.FlownetPaths
import Feldspar.HeadLoss
import Feldspar.Lib.Potential

set_option linter.unusedSectionVars false

namespace Feldspar

namespace Flownet

variable {K : Type} [Field K] [LinearOrder K]

/-! ### Drops -/

/-- The drop of every edge, by its index; an imposer has none. -/
def drops (hyd : Hydraulics K) (edges : List (Edge K)) (flows : Flows K) : ℕ → K := fun i =>
  match edges[i]? with
  | some edge => if edge.kind.isUnknown then (edgeDpAndK hyd edge (flows i)).1 else 0
  | none => 0

/-- The drop at `i` beyond the difference of the heads of its ends. -/
def residualAt (hyd : Hydraulics K) (edges : List (Edge K)) (tree : SpanningTree)
    (flows : Flows K) (i : ℕ) : K :=
  Flow.residual (ends edges) tree.found (drops hyd edges flows) i

/-- The drops around every loop sum to zero. -/
def Closed (hyd : Hydraulics K) (edges : List (Edge K)) (loops : List (List (ℕ × ℤ)))
    (flows : Flows K) : Prop :=
  ∀ loop ∈ loops, (loopHead hyd edges flows loop).1 = 0

section Drops

variable [IsStrictOrderedRing K] {hyd : Hydraulics K} {edges : List (Edge K)}
  {tree : SpanningTree} {flows : Flows K}

theorem loopHead_fst {loop : List (ℕ × ℤ)} (hsigns : ∀ p ∈ loop, p.2 = 1 ∨ p.2 = -1) :
    (loopHead hyd edges flows loop).1 = Flow.along loop (drops hyd edges flows) := by
  have hfold : ∀ (l : List (ℕ × ℤ)) (acc : K × K), (∀ p ∈ l, p.2 = 1 ∨ p.2 = -1) →
      (l.foldl (fun acc p =>
        match edges[p.1]? with
        | some edge =>
            if edge.kind.isUnknown then
              let dpk := edgeDpAndK hyd edge (p.2 * flows p.1)
              (acc.1 + dpk.1, acc.2 + dpk.2)
            else acc
        | none => acc) acc).1 = acc.1 + Flow.along l (drops hyd edges flows) := by
    intro l
    induction l with
    | nil => simp [Flow.along]
    | cons p l ih =>
        intro acc hl
        have hp := hl p List.mem_cons_self
        have hrest := fun q hq => hl q (List.mem_cons_of_mem _ hq)
        rw [List.foldl_cons, ih _ hrest, Flow.along_cons, drops]
        rcases hedge : edges[p.1]? with - | edge
        · simp
        · simp only
          split_ifs with hkind
          · rw [edgeDpAndK_sign edge _ hp]
            ring
          · ring
  exact (hfold loop (0, 0) hsigns).trans (zero_add _)

theorem mem_buildCycleBasis {loop : List (ℕ × ℤ)} (hloop : loop ∈ buildCycleBasis edges tree) :
    ∃ i e, edges[i]? = some e ∧ i ∉ tree.treeEdges ∧
      loop = Flow.fundamentalLoop i (tree.path edges e.a) (tree.path edges e.b) := by
  obtain ⟨⟨e, i⟩, he, rfl⟩ := List.mem_map.mp hloop
  obtain ⟨he, hi⟩ := List.mem_filter.mp he
  exact ⟨i, e, List.mem_zipIdx_iff_getElem?.mp he, of_decide_eq_true hi, rfl⟩

/-- The head of a loop is the residual of the edge that closes it. -/
theorem loopHead_fundamental (htree : Spans edges tree) {i : ℕ} {e : Edge K}
    (he : edges[i]? = some e) :
    (loopHead hyd edges flows
      (Flow.fundamentalLoop i (tree.path edges e.a) (tree.path edges e.b))).1
        = residualAt hyd edges tree flows i := by
  have hends : (ends edges)[i]? = some (e.a, e.b) := by
    rw [getElem?_ends, he]
    rfl
  obtain ⟨ha, hb⟩ := htree.covers hends
  have hpath : ∀ n, ∀ p ∈ tree.path edges n, p.2 = 1 ∨ p.2 = -1 :=
    fun n => Flow.sign_pathToRoot tree.found.length n
  rw [loopHead_fst (Flow.sign_fundamentalLoop (hpath e.a) (hpath e.b))]
  exact Flow.along_fundamentalLoop htree.grown hends ha hb

/-- What bounds the heads of the loops bounds every residual. -/
theorem abs_residualAt_le (htree : Spans edges tree) {r : K} (hr : 0 ≤ r)
    (hloops : ∀ loop ∈ buildCycleBasis edges tree, |(loopHead hyd edges flows loop).1| ≤ r)
    (i : ℕ) : |residualAt hyd edges tree flows i| ≤ r := by
  by_cases hi : i ∈ tree.treeEdges
  · rw [residualAt, Flow.residual_tree htree.grown hi, abs_zero]
    exact hr
  · rcases he : edges[i]? with - | e
    · rw [residualAt, Flow.residual, getElem?_ends, he]
      simpa using hr
    · rw [← loopHead_fundamental htree he]
      refine hloops _ (List.mem_map.mpr ⟨(e, i), List.mem_filter.mpr ⟨?_, ?_⟩, rfl⟩)
      · exact List.mem_zipIdx_iff_getElem?.mpr he
      · exact decide_eq_true hi

theorem Closed.residualAt (h : Closed hyd edges (buildCycleBasis edges tree) flows)
    (htree : Spans edges tree) (i : ℕ) : residualAt hyd edges tree flows i = 0 := by
  have hle : |Flownet.residualAt hyd edges tree flows i| ≤ 0 :=
    abs_residualAt_le htree le_rfl (fun loop hloop => by rw [h loop hloop, abs_zero]) i
  exact abs_eq_zero.mp (le_antisymm hle (abs_nonneg _))

end Drops

/-! ### Walks -/

/-- The flows of solved edges. -/
def flowsOf (edges : List (Edge K)) : Flows K := fun i => (edges[i]?.map Edge.flow).getD 0

/-- The edge of a leg, by its index, with its sense. -/
def Leg.step (leg : Leg K) : ℕ × ℤ := (leg.index, leg.sign)

/-- How often a walk leaves the tree. -/
def detours (tree : SpanningTree) (w : List (Leg K)) : ℕ :=
  (w.filter fun leg => leg.index ∉ tree.treeEdges).length

/-- Any two walks between two nodes drop the same. -/
def PathFree (hyd : Hydraulics K) (edges : List (Edge K)) : Prop :=
  ∀ u v w w', Route edges u w v → Route edges u w' v →
    pathDp hyd (w.map Leg.entry) = pathDp hyd (w'.map Leg.entry)

section Walks

variable {hyd : Hydraulics K} {edges : List (Edge K)} {tree : SpanningTree} {u v : String}
  {w w' : List (Leg K)}

theorem Route.walk (h : Route edges u w v) : Flow.Walk (ends edges) u (w.map Leg.step) v := by
  induction h with
  | nil => exact .nil
  | @cons u v x leg w hleads _ ih =>
      obtain ⟨hedge, hsense⟩ := hleads
      have hends : (ends edges)[leg.index]? = some (leg.edge.a, leg.edge.b) := by
        rw [getElem?_ends, hedge]
        rfl
      rw [List.map_cons, Leg.step]
      rcases hsense with ⟨hsign, rfl, rfl⟩ | ⟨hsign, rfl, rfl⟩
      · rw [hsign]
        exact .forth hends ih
      · rw [hsign]
        exact .back hends ih

theorem exists_route {c : List (ℕ × ℤ)} (h : Flow.Walk (ends edges) u c v) :
    ∃ w, Route edges u w v ∧ w.map Leg.step = c := by
  induction h with
  | nil => exact ⟨[], .nil, rfl⟩
  | @forth u v x i w hends _ ih =>
      obtain ⟨legs, hroute, rfl⟩ := ih
      rw [getElem?_ends] at hends
      obtain ⟨edge, hedge, he⟩ := Option.map_eq_some_iff.mp hends
      obtain ⟨rfl, rfl⟩ := Prod.mk.inj he
      exact ⟨⟨i, edge, 1⟩ :: legs, .cons ⟨hedge, Or.inl ⟨rfl, rfl, rfl⟩⟩ hroute, rfl⟩
  | @back u v x i w hends _ ih =>
      obtain ⟨legs, hroute, rfl⟩ := ih
      rw [getElem?_ends] at hends
      obtain ⟨edge, hedge, he⟩ := Option.map_eq_some_iff.mp hends
      obtain ⟨rfl, rfl⟩ := Prod.mk.inj he
      exact ⟨⟨i, edge, -1⟩ :: legs, .cons ⟨hedge, Or.inr ⟨rfl, rfl, rfl⟩⟩ hroute, rfl⟩

theorem Route.pathDp_eq (h : Route edges u w v) : pathDp hyd (w.map Leg.entry)
    = Flow.along (w.map Leg.step) (drops hyd edges (flowsOf edges)) := by
  induction h with
  | nil => rfl
  | @cons u v x leg w hleads _ ih =>
      have hdrop : drops hyd edges (flowsOf edges) leg.index = edgeDp hyd leg.edge := by
        rw [drops, hleads.1, flowsOf, hleads.1]
        rfl
      rw [List.map_cons, List.map_cons, Flow.along_cons, ← ih]
      show (leg.sign : K) * edgeDp hyd leg.edge + pathDp hyd (w.map Leg.entry) = _
      rw [← hdrop]
      rfl

/-- The drop of a walk: the difference of the heads, and the residuals. -/
theorem Route.pathDp_heads (h : Route edges u w v) (tree : SpanningTree) :
    pathDp hyd (w.map Leg.entry)
      = Flow.head (ends edges) tree.found (drops hyd edges (flowsOf edges)) v
        - Flow.head (ends edges) tree.found (drops hyd edges (flowsOf edges)) u
        + Flow.along (w.map Leg.step) (residualAt hyd edges tree (flowsOf edges)) := by
  rw [h.pathDp_eq]
  exact Flow.sum_walk tree.found _ h.walk

variable [IsStrictOrderedRing K]

/-- Only the edges outside the tree have a residual. -/
theorem Route.abs_along_le (htree : Spans edges tree) {r : K} (hr : 0 ≤ r)
    (hloops : ∀ loop ∈ buildCycleBasis edges tree,
      |(loopHead hyd edges (flowsOf edges) loop).1| ≤ r) (h : Route edges u w v) :
    |Flow.along (w.map Leg.step) (residualAt hyd edges tree (flowsOf edges))|
      ≤ detours tree w * r := by
  induction h with
  | nil => simp [Flow.along, detours]
  | @cons u v x leg w hleads _ ih =>
      have hsign : |(leg.sign : K)| = 1 := by
        rcases hleads.2 with ⟨hsign, -, -⟩ | ⟨hsign, -, -⟩ <;> simp [hsign]
      rw [List.map_cons, Flow.along_cons]
      by_cases hleg : leg.index ∈ tree.treeEdges
      · have hzero : residualAt hyd edges tree (flowsOf edges) leg.index = 0 :=
          Flow.residual_tree htree.grown hleg
        rw [detours, List.filter_cons_of_neg (by simpa using hleg), Leg.step, hzero, mul_zero,
          zero_add]
        exact ih
      · rw [detours, List.filter_cons_of_pos (by simpa using hleg), List.length_cons,
          Nat.cast_succ, add_mul, one_mul, add_comm _ r]
        refine (abs_add_le _ _).trans (add_le_add ?_ ih)
        rw [abs_mul, Leg.step, hsign, one_mul]
        exact abs_residualAt_le htree hr hloops leg.index

/-- Where the drops around the loops sum to `r` at most, the drops of two walks
between two nodes differ by `r` at most for every edge outside the tree. -/
theorem Route.pathDp_sub_le (htree : Spans edges tree) {r : K} (hr : 0 ≤ r)
    (hloops : ∀ loop ∈ buildCycleBasis edges tree,
      |(loopHead hyd edges (flowsOf edges) loop).1| ≤ r) (h : Route edges u w v)
    (h' : Route edges u w' v) :
    |pathDp hyd (w.map Leg.entry) - pathDp hyd (w'.map Leg.entry)|
      ≤ (detours tree w + detours tree w' : ℕ) * r := by
  rw [h.pathDp_heads tree, h'.pathDp_heads tree, add_sub_add_left_eq_sub, Nat.cast_add, add_mul]
  exact (abs_sub _ _).trans
    (add_le_add (h.abs_along_le htree hr hloops) (h'.abs_along_le htree hr hloops))

/-- The walks from the root along the tree, with and without the edge that
closes a loop, show the residual of that edge. -/
theorem closed_of_pathFree (htree : Spans edges tree) (h : PathFree hyd edges) :
    Closed hyd edges (buildCycleBasis edges tree) (flowsOf edges) := by
  intro loop hloop
  obtain ⟨i, e, he, -, rfl⟩ := mem_buildCycleBasis hloop
  rw [loopHead_fundamental htree he]
  have hends : (ends edges)[i]? = some (e.a, e.b) := by
    rw [getElem?_ends, he]
    rfl
  obtain ⟨ha, hb⟩ := htree.covers hends
  have hwalk : ∀ {n}, n ∈ Flow.order tree.root tree.found →
      Flow.Walk (ends edges) tree.root (tree.path edges n).reverse n := fun hn =>
    htree.grown.walk_path tree.found.length (List.append_nil _).symm hn le_rfl
  obtain ⟨w, hw, hsteps⟩ := exists_route ((hwalk ha).append (.forth hends .nil))
  obtain ⟨w', hw', hsteps'⟩ := exists_route (hwalk hb)
  have hsame := h _ _ w w' hw hw'
  have hzero : ∀ n, Flow.along (tree.path edges n).reverse
      (residualAt hyd edges tree (flowsOf edges)) = 0 := by
    intro n
    refine List.sum_eq_zero fun x hx => ?_
    obtain ⟨p, hp, rfl⟩ := List.mem_map.mp hx
    have hedge := Flow.edge_mem_of_mem_pathToRoot (List.mem_reverse.mp hp)
    rw [residualAt, Flow.residual_tree htree.grown hedge, mul_zero]
  rw [hw.pathDp_heads tree, hw'.pathDp_heads tree, hsteps, hsteps', Flow.along_append, hzero,
    hzero, Flow.along_cons] at hsame
  simpa [Flow.along] using hsame

/-- Between two nodes, any two walks drop the same exactly if the drops around
the loops sum to zero. -/
theorem closed_iff_pathFree (htree : Spans edges tree) :
    Closed hyd edges (buildCycleBasis edges tree) (flowsOf edges) ↔ PathFree hyd edges := by
  refine ⟨fun hclosed u v w w' hw hw' => ?_, closed_of_pathFree htree⟩
  have hle := hw.pathDp_sub_le htree le_rfl
    (fun loop hloop => by rw [hclosed loop hloop, abs_zero]) hw'
  rw [mul_zero] at hle
  exact sub_eq_zero.mp (abs_eq_zero.mp (le_antisymm hle (abs_nonneg _)))

end Walks

/-! ### Solved networks -/

section Solved

variable [IsStrictOrderedRing K] {py : PyText K} {hyd : Hydraulics K} {edges : List (Edge K)}
  {tree : SpanningTree}

theorem mem_buildCycleBasis_iff {loop : List (ℕ × ℤ)} :
    loop ∈ buildCycleBasis edges tree ↔ ∃ i e, (ends edges)[i]? = some e ∧ i ∉ tree.treeEdges ∧
      loop = Flow.fundamentalLoop i (Flow.pathToRoot (ends edges) tree.found tree.found.length e.1)
        (Flow.pathToRoot (ends edges) tree.found tree.found.length e.2) := by
  constructor
  · intro hloop
    obtain ⟨i, e, he, hi, rfl⟩ := mem_buildCycleBasis hloop
    refine ⟨i, (e.a, e.b), ?_, hi, rfl⟩
    rw [getElem?_ends, he]
    rfl
  · rintro ⟨i, e, he, hi, rfl⟩
    rw [getElem?_ends] at he
    obtain ⟨edge, hedge, rfl⟩ := Option.map_eq_some_iff.mp he
    refine List.mem_map.mpr ⟨(edge, i), List.mem_filter.mpr ⟨?_, decide_eq_true hi⟩, rfl⟩
    exact List.mem_zipIdx_iff_getElem?.mpr hedge

/-- The loops of a solve are those of the network that it returns. -/
theorem loops_of_solve {payload : FlownetPayload K} {p : Seeded K}
    (hp : prepare py payload = .ok p)
    (hsolve : HardyCrossSolve py hyd payload (.ok edges)) :
    ∃ tree, Spans edges tree ∧ ∀ loop, loop ∈ p.loops ↔ loop ∈ buildCycleBasis edges tree := by
  unfold HardyCrossSolve at hsolve
  rw [hp] at hsolve
  obtain ⟨s, -, hlast⟩ := Loop.Returns.exists_reached hsolve
  obtain ⟨tree, htree, hloops, -⟩ := prepare_ok hp
  have hends : ends edges = ends p.edges := by rw [hardyCrossStep_ok hlast, ends_withFlows]
  refine ⟨tree, ⟨by rw [hends]; exact htree.grown, by rw [hends]; exact htree.covers⟩,
    fun loop => ?_⟩
  rw [hloops, mem_buildCycleBasis_iff, mem_buildCycleBasis_iff, hends]

/-- What is beyond the way from `a` over `b` to `c`, in the drops of three
queries. -/
theorem queries_triangle {solved : SolvedNetwork K} {tree : SpanningTree}
    (htree : Spans solved.edges tree) {r : K} (hr : 0 ≤ r)
    (hloops : ∀ loop ∈ buildCycleBasis solved.edges tree,
      |(loopHead hyd solved.edges (flowsOf solved.edges) loop).1| ≤ r) {a b c : String}
    {ab bc ac : List (Leg K)} (hab : Route solved.edges a ab b) (hbc : Route solved.edges b bc c)
    (hac : Route solved.edges a ac c) :
    |pathDp hyd (ab.map Leg.entry) + pathDp hyd (bc.map Leg.entry)
        - pathDp hyd (ac.map Leg.entry)|
      ≤ (ab.length + bc.length + ac.length : ℕ) * r := by
  have hdetours : ∀ w : List (Leg K), detours tree w ≤ w.length :=
    fun w => List.length_filter_le _ _
  have hle := Route.pathDp_sub_le htree hr hloops (hab.append hbc) hac
  rw [List.map_append, pathDp_append] at hle
  refine hle.trans (mul_le_mul_of_nonneg_right (Nat.cast_le.mpr ?_) hr)
  have happend := hdetours (ab ++ bc)
  rw [List.length_append] at happend
  exact Nat.add_le_add happend (hdetours ac)

end Solved

end Flownet

end Feldspar

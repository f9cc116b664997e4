/-
Feldspar/FlownetChecked.lean

The solve with its partial operations.

The search, the loops and the seed of the checked solve look up only what is
there, so they are the plain ones (`checked_prepare`).  A correction evaluates
the edges of its loop, which squares and divides: it raises exactly where one of
these overflows or a divisor is zero, and is the plain correction otherwise
(`checked_step`).
-/
import Feldspar.FlownetRecords
import Feldspar.Lib.Bfs

namespace Feldspar

namespace Flownet

variable {K : Type}

/-! ### The partial operations -/

section HeadLoss

/-- What the solve relies on of the comparisons of floats. -/
class FloatOrder (K : Type) [Arith K] : Prop where
  lt_irrefl : ∀ x : K, ¬ x < x
  abs_le_zero : ∀ x : K, Arith.abs x ≤ 0 ↔ Arith.abs x = 0
  step_pos : (0 : K) < 1e-12

variable [Arith K]

/-- The square of a finite number does not overflow. -/
def SquareFits (x : K) : Prop := Arith.isFinite x → Arith.isFinite (Arith.square x)

variable (hyd : Hydraulics K)

/-- No square overflows and no divisor is zero in the head loss of the edge, at
some flow. -/
def Edge.Evaluable (edge : Edge K) (flow : K) : Prop :=
  match edge.kind with
  | .pipe => Arith.abs flow = 0 ∨ SquareFits (edge.diameter / 2.0)
  | .orifice => SquareFits (edge.boreDiameter / 2.0) ∧
      let area := circleArea hyd edge.boreDiameter
      (0 < area → SquareFits (edge.cd * area) ∧ 2.0 * Arith.square (edge.cd * area) ≠ 0)
  | .hxSegment => SquareFits (edge.diameter / 2.0) ∧
      let area := circleArea hyd edge.diameter
      (0 < area → 2.0 * area * area ≠ 0)
  | .imposer => True

variable {hyd}

theorem checked_divide {x y : K} (h : y ≠ 0) : Checked.divide x y = .ok (x / y) := if_neg h

theorem checked_square {x : K} (h : SquareFits x) : Checked.square x = .ok (Arith.square x) :=
  if_neg fun hover => hover.2 (h hover.1)

theorem checked_square_overflow {x : K} (h : ¬ SquareFits x) :
    Checked.square x = .error (.raised .overflowError) :=
  if_pos (Classical.not_imp.mp h)

theorem checked_circleArea {d : K} (h : SquareFits (d / 2.0)) :
    Checked.circleArea hyd d = .ok (circleArea hyd d) := by
  rw [Checked.circleArea, checked_square h]
  rfl

theorem checked_circleArea_overflow {d : K} (h : ¬ SquareFits (d / 2.0)) :
    Checked.circleArea hyd d = .error (.raised .overflowError) := by
  rw [Checked.circleArea, checked_square_overflow h]
  rfl

variable [FloatOrder K]

theorem ne_zero_of_pos {x : K} (h : 0 < x) : x ≠ 0 := fun heq =>
  FloatOrder.lt_irrefl (0 : K) (by rwa [heq] at h)

/-- The step of the difference quotient. -/
theorem step_ne_zero (m : K) : Arith.maxOf (m * 1e-6) 1e-12 ≠ 0 := by
  have hpos := FloatOrder.step_pos (K := K)
  unfold Arith.maxOf
  split_ifs with h
  · exact ne_zero_of_pos hpos
  · exact fun heq => h (heq ▸ hpos)

theorem checked_pipeDpMag {edge : Edge K} {m : K} (h : m ≤ 0 ∨ SquareFits (edge.diameter / 2.0)) :
    Checked.pipeDpMag hyd edge m = .ok (pipeDpMag hyd edge m) := by
  unfold Checked.pipeDpMag pipeDpMag
  by_cases hm : m ≤ 0
  · rw [if_pos hm, if_pos hm]
    rfl
  · rw [if_neg hm, if_neg hm, checked_circleArea (h.resolve_left hm)]
    by_cases harea : 0 < circleArea hyd edge.diameter
    · by_cases hd : edge.diameter ≠ 0
      · simp only [if_pos harea, if_pos hd, checked_divide (ne_zero_of_pos harea),
          checked_divide hd, pure, Except.pure, bind, Except.bind]
        split_ifs <;> rfl
      · simp only [if_pos harea, if_neg hd, checked_divide (ne_zero_of_pos harea), pure, Except.pure,
          bind, Except.bind]
        split_ifs <;> rfl
    · by_cases hd : edge.diameter ≠ 0
      · simp only [if_neg harea, if_pos hd, checked_divide hd, pure, Except.pure, bind, Except.bind]
        split_ifs <;> rfl
      · simp only [if_neg harea, if_neg hd, pure, Except.pure, bind, Except.bind]
        split_ifs <;> rfl

theorem checked_pipeDpAndK {edge : Edge K} {flow : K}
    (h : Arith.abs flow = 0 ∨ SquareFits (edge.diameter / 2.0)) :
    Checked.pipeDpAndK hyd edge flow = .ok (pipeDpAndK hyd edge flow) := by
  unfold Checked.pipeDpAndK pipeDpAndK
  by_cases hm : Arith.abs flow = 0
  · have hmag : Checked.pipeDpMag hyd edge (Arith.abs flow)
        = .ok (pipeDpMag hyd edge (Arith.abs flow)) :=
      checked_pipeDpMag (Or.inl ((FloatOrder.abs_le_zero flow).mpr hm))
    simp only [hmag, if_pos hm, bind, Except.bind]
    rfl
  · have hmag : ∀ m, Checked.pipeDpMag hyd edge m = .ok (pipeDpMag hyd edge m) :=
      fun m => checked_pipeDpMag (Or.inr (h.resolve_left hm))
    simp only [hmag, if_neg hm, checked_divide (step_ne_zero _), bind, Except.bind]
    rfl

/-- **One edge**: evaluated where nothing overflows and no divisor is zero. -/
theorem checked_edgeDpAndK {edge : Edge K} {flow : K} (h : edge.Evaluable hyd flow) :
    Checked.edgeDpAndK hyd edge flow = .ok (edgeDpAndK hyd edge flow) := by
  unfold Edge.Evaluable at h
  unfold Checked.edgeDpAndK edgeDpAndK
  cases hkind : edge.kind with
  | pipe =>
      rw [hkind] at h
      exact checked_pipeDpAndK h
  | imposer => rfl
  | orifice =>
      simp only [hkind] at h
      unfold Checked.orificeDpAndK orificeDpAndK
      rw [checked_circleArea h.1]
      by_cases harea : 0 < circleArea hyd edge.boreDiameter
      · obtain ⟨hfits, hne⟩ := h.2 harea
        simp only [if_pos harea, checked_square hfits, checked_divide hne, bind, Except.bind]
        rfl
      · simp only [if_neg harea, bind, Except.bind]
        rfl
  | hxSegment =>
      simp only [hkind] at h
      unfold Checked.hxSegmentDpAndK hxSegmentDpAndK
      rw [checked_circleArea h.1]
      by_cases harea : 0 < circleArea hyd edge.diameter
      · simp only [if_pos harea, checked_divide (ne_zero_of_pos harea),
          checked_divide (h.2 harea), bind, Except.bind]
        rfl
      · simp only [if_neg harea, bind, Except.bind]
        rfl

/-- And it raises otherwise. -/
theorem checked_edgeDpAndK_raises {edge : Edge K} {flow : K} (h : ¬ edge.Evaluable hyd flow) :
    ∃ e, Checked.edgeDpAndK hyd edge flow = .error (.raised e) := by
  unfold Edge.Evaluable at h
  unfold Checked.edgeDpAndK
  cases hkind : edge.kind with
  | pipe =>
      rw [hkind] at h
      obtain ⟨hm, hover⟩ := not_or.mp h
      have hle : ¬ Arith.abs flow ≤ 0 := fun hle => hm ((FloatOrder.abs_le_zero flow).mp hle)
      have hmag : Checked.pipeDpMag hyd edge (Arith.abs flow)
          = .error (.raised .overflowError) := by
        rw [Checked.pipeDpMag, if_neg hle, checked_circleArea_overflow hover]
        rfl
      refine ⟨.overflowError, ?_⟩
      simp only [Checked.pipeDpAndK, hmag]
      rfl
  | imposer =>
      rw [hkind] at h
      exact absurd trivial h
  | orifice =>
      simp only [hkind] at h
      simp only [Checked.orificeDpAndK]
      by_cases hbore : SquareFits (edge.boreDiameter / 2.0)
      · obtain ⟨harea, hrest⟩ := Classical.not_imp.mp fun h' => h ⟨hbore, h'⟩
        rw [checked_circleArea hbore]
        by_cases hfits : SquareFits (edge.cd * circleArea hyd edge.boreDiameter)
        · have hzero := not_not.mp fun hne => hrest ⟨hfits, hne⟩
          refine ⟨.zeroDivisionError, ?_⟩
          simp only [if_pos harea, checked_square hfits, Checked.divide, if_pos hzero, bind,
            Except.bind]
        · refine ⟨.overflowError, ?_⟩
          simp only [if_pos harea, checked_square_overflow hfits, bind, Except.bind]
      · rw [checked_circleArea_overflow hbore]
        exact ⟨_, rfl⟩
  | hxSegment =>
      simp only [hkind] at h
      simp only [Checked.hxSegmentDpAndK]
      by_cases hdiameter : SquareFits (edge.diameter / 2.0)
      · obtain ⟨harea, hzero⟩ := Classical.not_imp.mp fun h' => h ⟨hdiameter, h'⟩
        rw [checked_circleArea hdiameter]
        refine ⟨.zeroDivisionError, ?_⟩
        simp only [if_pos harea, Checked.divide, if_neg (ne_zero_of_pos harea),
          if_pos (not_not.mp hzero), bind, Except.bind]
      · rw [checked_circleArea_overflow hdiameter]
        exact ⟨_, rfl⟩

end HeadLoss

section Lookups

variable {nodes : List String} {edges : List (Edge K)}

theorem checked_nodeKey {n : String} (h : n ∈ nodes) :
    (Checked.nodeKey nodes n : Except (HardyCrossError K) Unit) = .ok () := if_pos h

theorem checked_edgeAt {i : ℕ} {edge : Edge K} (h : edges[i]? = some edge) :
    Checked.edgeAt edges i = .ok edge := by
  rw [Checked.edgeAt, h]

/-! ### The search -/

theorem adjacencyFrom_ordered (n : String) : ∀ (ends : List (String × String)) (k : ℕ),
    (adjacencyFrom n ends k).Pairwise fun p q => p.2 ≤ q.2 ∧ (q.1 ≠ n → p.2 < q.2)
  | [], _ => List.Pairwise.nil
  | (a, b) :: ends, k => by
      have hrest : ∀ p ∈ adjacencyFrom n ends (k + 1), k < p.2 := by
        intro p hp
        obtain ⟨i, hi, -⟩ := mem_adjacencyFrom hp
        omega
      rw [adjacencyFrom]
      refine List.pairwise_append.mpr ⟨?_, adjacencyFrom_ordered n ends (k + 1), ?_⟩
      · by_cases ha : a = n
        · by_cases hb : b = n
          · -- an edge from the node to itself is listed twice
            rw [if_pos ha, if_pos hb]
            exact List.pairwise_pair.mpr ⟨le_rfl, fun hne => absurd ha hne⟩
          · rw [if_pos ha, if_neg hb]
            exact List.pairwise_singleton _ _
        · rw [if_neg ha, List.nil_append]
          split_ifs
          · exact List.pairwise_singleton _ _
          · exact List.Pairwise.nil
      · intro p hp q hq
        have hpk : p.2 = k := by
          rcases List.mem_append.mp hp with hp | hp
          · split_ifs at hp
            · rw [List.mem_singleton.mp hp]
            · cases hp
          · split_ifs at hp
            · rw [List.mem_singleton.mp hp]
            · cases hp
        have hlt : p.2 < q.2 := hpk ▸ hrest q hq
        exact ⟨hlt.le, fun _ => hlt⟩

theorem adjacency_ordered (ends : List (String × String)) : Bfs.Ordered (adjacency ends) id :=
  fun n => adjacencyFrom_ordered n ends 0

/-- The search's links, as nodes found. -/
def toFound (g : Bfs.Link String ℕ) : Flow.Found String := ⟨g.node, g.parent, g.label⟩

def toBfsState (s : Bfs.State String ℕ) : BfsState := (s.1.map toFound, s.2)

theorem order_toFound (root : String) (l : List (Bfs.Link String ℕ)) :
    Flow.order root (l.map toFound) = Bfs.seen root l := by
  rw [Flow.order, List.map_map]
  rfl

theorem visit_toBfsState (root node : String) (s : Bfs.State String ℕ) (p : String × ℕ) :
    visit root node (toBfsState s) p = toBfsState (Bfs.visit root node s p) := by
  unfold visit Bfs.visit toBfsState
  rw [order_toFound]
  split_ifs
  · rfl
  · simp [toFound]

theorem foldl_visit_toBfsState (root node : String) (l : List (String × ℕ))
    (s : Bfs.State String ℕ) :
    l.foldl (visit root node) (toBfsState s) = toBfsState (l.foldl (Bfs.visit root node) s) := by
  induction l generalizing s with
  | nil => rfl
  | cons p l ih =>
      show l.foldl (visit root node) (visit root node (toBfsState s) p) = _
      rw [visit_toBfsState, ih]
      rfl

/-- The queue's loop is a search that nothing stops. -/
theorem bfs_toBfsState (ends : List (String × String)) (root : String) : ∀ (k : ℕ)
    (s : Bfs.State String ℕ), bfs ends root k (toBfsState s)
      = toBfsState (Bfs.search (adjacency ends) root (fun _ => false) k s)
  | 0, _ => rfl
  | _ + 1, (_, []) => rfl
  | k + 1, (found, node :: queue) => by
      show bfs ends root k ((adjacency ends node).foldl (visit root node)
        (toBfsState (found, queue))) = _
      rw [foldl_visit_toBfsState, bfs_toBfsState]
      rfl

section Listed

variable (hmem : ∀ edge ∈ edges, edge.a ∈ nodes ∧ edge.b ∈ nodes)
include hmem

theorem adjacency_mem : ∀ u ∈ nodes, ∀ p ∈ adjacency (ends edges) u, p.1 ∈ nodes := by
  intro u _ p hp
  rcases mem_adjacency hp with h | h
  · exact (mem_nodes_of_ends hmem h).2
  · exact (mem_nodes_of_ends hmem h).1

/-- The queue is empty before the fuel is out. -/
theorem checked_bfs {root : String} (hroot : root ∈ nodes) : ∀ (k : ℕ) {done : List String}
    {s : Bfs.State String ℕ}, Bfs.Running (adjacency (ends edges)) id root done s →
      nodes.length ≤ done.length + k →
      (Checked.bfs nodes (ends edges) root k (toBfsState s) : Except (HardyCrossError K) _)
        = .ok (bfs (ends edges) root k (toBfsState s))
  | 0, _, (_, []), _, _ => rfl
  | _ + 1, _, (_, []), _, _ => rfl
  | 0, done, (found, node :: queue), h, hk => by
      have hle := h.length_le hroot (adjacency_mem hmem)
      simp only [List.length_cons] at hle
      omega
  | k + 1, done, (found, node :: queue), h, hk => by
      have hnode : node ∈ nodes := by
        refine h.subset hroot (adjacency_mem hmem) ?_
        rw [h.queue]
        exact List.mem_append_right _ List.mem_cons_self
      have hnext := checked_bfs hroot k (h.step (adjacency_ordered (ends edges))) (by
        rw [List.length_append, List.length_singleton]
        omega)
      rw [← foldl_visit_toBfsState] at hnext
      show (Checked.nodeKey nodes node >>= fun _ => Checked.bfs nodes (ends edges) root k
        ((adjacency (ends edges) node).foldl (visit root node) (toBfsState (found, queue)))) = _
      rw [checked_nodeKey hnode]
      exact hnext

end Listed

theorem checked_listed (edge : Edge K) :
    (do
      Checked.nodeKey nodes edge.a
      Checked.nodeKey nodes edge.b : Except (HardyCrossError K) Unit)
      = (do
      if edge.a ∉ nodes then throw (.raised (.keyError edge.a))
      if edge.b ∉ nodes then throw (.raised (.keyError edge.b))) := by
  unfold Checked.nodeKey
  by_cases ha : edge.a ∈ nodes
  · by_cases hb : edge.b ∈ nodes
    · simp [ha, hb]
      rfl
    · simp [ha, hb]
      rfl
  · simp [ha]
    rfl

theorem checked_spanningTree (nodes : List String) (edges : List (Edge K)) :
    Checked.spanningTree nodes edges = spanningTree nodes edges := by
  unfold Checked.spanningTree spanningTree
  rw [funext checked_listed]
  refine Fallible.bind_congr_right fun _ hends => ?_
  have hmem := listed_of_forM hends
  cases nodes with
  | nil => rfl
  | cons root nodes =>
      have hbfs := checked_bfs hmem List.mem_cons_self (root :: nodes).length
        (Bfs.Running.start (adjacency (ends edges)) id root) (Nat.le_add_left _ _)
      show (Checked.bfs _ _ _ _ (toBfsState (Bfs.start root)) >>= _) = _
      rw [hbfs]
      rfl

/-! ### The loops -/

/-- The path of a node among the first ones found. -/
theorem checked_pathToRoot {root : String} {found : List (Flow.Found String)}
    (h : Flow.Grown (ends edges) root found) : ∀ (k : ℕ) {l r : List (Flow.Found String)}
    {n : String}, found = l ++ r → n ∈ Flow.order root l → l.length ≤ k →
      Checked.pathToRoot edges found k n = .ok (Flow.pathToRoot (ends edges) found k n) := by
  have hroot : ∀ k, Checked.pathToRoot edges found k root
      = .ok (Flow.pathToRoot (ends edges) found k root) := by
    intro k
    cases k with
    | zero => rw [Checked.pathToRoot, Flow.find?_root h]; rfl
    | succ k => rw [Checked.pathToRoot, Flow.pathToRoot, Flow.find?_root h]; rfl
  intro k
  induction k with
  | zero =>
      intro l r n _ hn hk
      obtain rfl : l = [] := List.eq_nil_of_length_eq_zero (Nat.le_zero.mp hk)
      obtain rfl : n = root := by simpa [Flow.order] using hn
      exact hroot 0
  | succ k ih =>
      intro l r n hfound hn hk
      rcases List.mem_cons.mp hn with rfl | hn
      · exact hroot (k + 1)
      · obtain ⟨g, hg, rfl⟩ := List.mem_map.mp hn
        obtain ⟨l₁, l₂, rfl⟩ := List.append_of_mem hg
        rw [List.append_assoc, List.cons_append] at hfound
        subst hfound
        obtain ⟨-, hparent, hnode, hjoins⟩ := h.split rfl
        have hlen : l₁.length ≤ k := by
          simp only [List.length_append, List.length_cons] at hk
          omega
        -- the edge a node was found by is listed, since it joins the node to its parent
        obtain ⟨e, he, hb⟩ : ∃ e, edges[g.edge]? = some e ∧
            (Flow.foundSign (ends edges) g = if e.b = g.node then 1 else -1) := by
          unfold Flow.foundSign
          rcases hedge : edges[g.edge]? with _ | e
          · rcases hjoins with hjoins | hjoins <;> rw [getElem?_ends, hedge] at hjoins <;>
              cases hjoins
          · refine ⟨e, rfl, ?_⟩
            rw [getElem?_ends, hedge]
            simp
        rw [Checked.pathToRoot, Flow.pathToRoot, Flow.find?_node h]
        show (Checked.edgeAt edges g.edge >>= fun e => Checked.pathToRoot edges _ k g.parent >>= _)
          = _
        rw [checked_edgeAt he]
        show (Checked.pathToRoot edges _ k g.parent >>= _) = _
        rw [ih rfl hparent hlen]
        show Except.ok ((g.edge, _) :: _) = Except.ok ((g.edge, Flow.foundSign (ends edges) g) :: _)
        rw [hb]

theorem checked_buildCycleBasis {tree : SpanningTree} (h : spanningTree nodes edges = .ok tree) :
    Checked.buildCycleBasis nodes edges tree = .ok (buildCycleBasis edges tree) := by
  obtain ⟨hmem, -⟩ := spanningTree_ok_cases h
  have hgrown := (spanningTree_ok h).grown
  have hpath : ∀ n ∈ nodes, Checked.pathToRoot edges tree.found tree.found.length n
      = .ok (tree.path edges n) := by
    intro n hn
    exact checked_pathToRoot hgrown _ (List.append_nil _).symm
      ((spanningTree_perm h).mem_iff.mpr hn) le_rfl
  have hdepth : (nodes.mapM fun n => do
      pure (n, ← Checked.pathToRoot edges tree.found tree.found.length n) :
        Except (HardyCrossError K) _) = .ok (nodes.map fun n => (n, tree.path edges n)) := by
    rw [Fallible.mapM_eq_ok, List.forall₂_map_right_iff, List.forall₂_same]
    intro n hn
    rw [hpath n hn]
    rfl
  have hfind : ∀ n ∈ nodes, ((nodes.map fun n => (n, tree.path edges n)).find? fun p => p.1 = n)
      = some (n, tree.path edges n) := by
    intro n hn
    obtain ⟨m, hm⟩ := Option.isSome_iff_exists.mp
      (List.find?_isSome (p := fun m => decide (m = n)).mpr ⟨n, hn, by simp⟩)
    have hmn : m = n := by simpa using List.find?_some hm
    rw [List.find?_map, Function.comp_def, hm, hmn]
    rfl
  unfold Checked.buildCycleBasis
  rw [hdepth]
  show List.mapM _ _ = _
  rw [Fallible.mapM_eq_ok, buildCycleBasis, List.forall₂_map_right_iff, List.forall₂_same]
  rintro ⟨e, i⟩ he
  have hedge : e ∈ edges :=
    List.mem_of_getElem? (List.mem_zipIdx_iff_getElem?.mp (List.mem_of_mem_filter he))
  obtain ⟨ha, hb⟩ := hmem e hedge
  simp only [hfind e.a ha, hfind e.b hb]
  rfl

/-! ### The seed -/

/-- The edges of a chain are edges of the network. -/
def InRange (edges : List (Edge K)) (chain : List (ℕ × ℤ)) : Prop :=
  ∀ p ∈ chain, p.1 < edges.length

theorem inRange_incident (edges : List (Edge K)) (n : String) :
    InRange edges (Flow.incident (ends edges) n) := by
  intro p hp
  have hlt := incidentFrom_lt p hp
  rwa [Nat.zero_add, ends, List.length_map] at hlt

theorem checked_edgeAt_lt {i : ℕ} (h : i < edges.length) :
    ∃ edge, edges[i]? = some edge ∧ Checked.edgeAt edges i = .ok edge :=
  ⟨edges[i], List.getElem?_eq_getElem h, checked_edgeAt (List.getElem?_eq_getElem h)⟩

theorem inRange_cycleBasis {tree : SpanningTree} (htree : Spans edges tree) :
    ∀ loop ∈ buildCycleBasis edges tree, InRange edges loop := by
  intro loop hloop p hp
  obtain ⟨⟨e, i⟩, he, rfl⟩ := List.mem_map.mp hloop
  obtain ⟨he, hchord⟩ := List.mem_filter.mp he
  have hi : edges[i]? = some e := List.mem_zipIdx_iff_getElem?.mp he
  have hends : (ends edges)[i]? = some (e.a, e.b) := by
    rw [getElem?_ends, hi]
    rfl
  obtain ⟨ha, hb⟩ := htree.covers hends
  obtain ⟨rest, hrest, hedges, -⟩ :=
    Flow.fundamentalLoop_spec htree.grown (of_decide_eq_true hchord) ha hb
  simp only [SpanningTree.path, hrest] at hp
  rcases List.mem_cons.mp hp with rfl | hp
  · exact (List.getElem?_eq_some_iff.mp hi).1
  · obtain ⟨g, hg, hedge⟩ := List.mem_map.mp (hedges p hp).2
    have hlt : g.edge < (ends edges).length := by
      rcases htree.grown.joins hg with h | h
      · exact (List.getElem?_eq_some_iff.mp h).1
      · exact (List.getElem?_eq_some_iff.mp h).1
    rw [hedge, ends, List.length_map] at hlt
    exact hlt

theorem checked_incidentAt {n : String} (h : n ∈ nodes) :
    Checked.incidentAt nodes edges n = .ok (Flow.incident (ends edges) n) := by
  rw [Checked.incidentAt, checked_nodeKey h]
  rfl

variable [Arith K]

theorem checked_flowAlong {chain : List (ℕ × ℤ)} (h : InRange edges chain) (flows : Flows K) :
    Checked.flowAlong edges flows chain = .ok (flowAlong flows chain) := by
  have hforM : (chain.forM fun p => do
      let _ ← Checked.edgeAt edges p.1
      pure () : Except (HardyCrossError K) Unit) = .ok () := by
    refine Fallible.forM_eq_ok.mpr fun p hp => ?_
    obtain ⟨edge, -, hedge⟩ := checked_edgeAt_lt (h p hp)
    rw [hedge]
    rfl
  unfold Checked.flowAlong
  rw [hforM]
  rfl

theorem checked_seedNode {tree : SpanningTree} (h : spanningTree nodes edges = .ok tree)
    {g : Flow.Found String} (hg : g ∈ tree.found) (flows : Flows K) :
    Checked.seedNode nodes edges tree flows g.node = seedNode conservationTol edges flows g := by
  have hgrown := (spanningTree_ok h).grown
  have hnode : g.node ∈ nodes :=
    (spanningTree_perm h).mem_iff.mp (List.mem_cons_of_mem _ (List.mem_map_of_mem hg))
  have hroot : g.node ≠ tree.root := fun heq =>
    (List.nodup_cons.mp hgrown.nodup_order).1 (heq ▸ List.mem_map_of_mem hg)
  have hfind : (tree.found.find? fun g' => g'.node = g.node) = some g := by
    obtain ⟨l, r, hsplit⟩ := List.append_of_mem hg
    rw [hsplit] at hgrown ⊢
    exact Flow.find?_node hgrown
  obtain ⟨edge, hedge⟩ : ∃ edge, edges[g.edge]? = some edge := by
    rcases hedge : edges[g.edge]? with _ | edge
    · rcases hgrown.joins hg with hjoins | hjoins <;> rw [getElem?_ends, hedge] at hjoins <;>
        cases hjoins
    · exact ⟨edge, rfl⟩
  have hothers : InRange edges
      ((Flow.incident (ends edges) g.node).filter fun p => p.1 ≠ g.edge) :=
    fun p hp => inRange_incident edges g.node p (List.mem_of_mem_filter hp)
  have hbalance := checked_flowAlong hothers flows
  unfold Checked.seedNode seedNode
  rw [if_neg hroot, hfind]
  simp only [checked_edgeAt hedge, checked_incidentAt hnode, isUnknownAt_eq hedge, hedge,
    Option.map_some, Option.some.injEq, bind, Except.bind]
  by_cases hdegree : (Flow.incident (ends edges) g.node).length = 1
  · rw [if_pos hdegree, if_pos hdegree]
    rfl
  · rw [if_neg hdegree, if_neg hdegree, hbalance]
    rfl

theorem checked_seed {tree : SpanningTree} (h : spanningTree nodes edges = .ok tree) :
    Checked.seedContinuityRespectingFlows nodes edges tree
      = seedContinuityRespectingFlows edges tree := by
  obtain ⟨hmem, hhead, -⟩ := spanningTree_ok_cases h
  have hincident : (edges.forM fun e => do
      Checked.nodeKey nodes e.a
      Checked.nodeKey nodes e.b : Except (HardyCrossError K) Unit) = .ok () := by
    refine Fallible.forM_eq_ok.mpr fun e he => ?_
    obtain ⟨ha, hb⟩ := hmem e he
    rw [checked_nodeKey ha]
    exact checked_nodeKey hb
  -- the root comes last, and is passed over
  have hfold : ∀ flows, (Flow.order tree.root tree.found).reverse.foldlM
      (Checked.seedNode nodes edges tree) flows
        = tree.found.reverse.foldlM (seedNode conservationTol edges) flows := by
    intro flows
    rw [Flow.order, List.reverse_cons, List.foldlM_append, ← List.map_reverse, List.foldlM_map]
    rw [Fallible.foldlM_congr_left fun g hg s => checked_seedNode h (List.mem_reverse.mp hg) s]
    have hlast : ∀ s, [tree.root].foldlM (Checked.seedNode nodes edges tree) s = .ok s := by
      intro s
      show (Checked.seedNode nodes edges tree s tree.root >>= fun s => .ok s) = .ok s
      rw [Checked.seedNode, if_pos rfl]
      rfl
    simp only [hlast]
    rcases tree.found.reverse.foldlM (seedNode conservationTol edges) flows with e | s
    · rfl
    · rfl
  unfold Checked.seedContinuityRespectingFlows seedContinuityRespectingFlows seedWithin
  rw [hincident]
  show ((Flow.order tree.root tree.found).reverse.foldlM (Checked.seedNode nodes edges tree)
    (chordSeeds edges tree) >>= _) = _
  rw [hfold]
  refine Fallible.bind_congr_right fun flows _ => ?_
  rw [checked_incidentAt (List.mem_of_mem_head? hhead)]
  show (if (Flow.incident (ends edges) tree.root).length > 1 then _ else _) = _
  rw [checked_flowAlong (inRange_incident edges tree.root)]
  by_cases hdegree : (Flow.incident (ends edges) tree.root).length > 1
  · by_cases hbalance : Arith.abs (flowAlong flows (Flow.incident (ends edges) tree.root))
        > conservationTol
    · simp only [if_pos hdegree, if_pos hbalance, if_pos (And.intro hdegree hbalance), bind,
        Except.bind]
    · simp only [if_pos hdegree, if_neg hbalance, bind, Except.bind,
        if_neg fun h : _ ∧ _ => hbalance h.2]
  · simp only [if_neg hdegree, if_neg fun h : _ ∧ _ => hdegree h.1]

theorem checked_prepare (py : PyText K) (payload : FlownetPayload K) :
    Checked.prepare py payload = prepare py payload := by
  unfold Checked.prepare prepare
  refine Fallible.bind_congr_right fun edges _ => ?_
  rw [checked_spanningTree]
  refine Fallible.bind_congr_right fun tree htree => ?_
  rw [checked_buildCycleBasis htree, checked_seed htree]
  rfl

/-! ### The corrections -/

theorem checked_correctLoop {loop : List (ℕ × ℤ)} (h : InRange edges loop) (flows : Flows K)
    (dq : K) : Checked.correctLoop edges flows dq loop = .ok (correctLoop edges flows dq loop) := by
  unfold Checked.correctLoop correctLoop
  induction loop generalizing flows with
  | nil => rfl
  | cons p loop ih =>
      obtain ⟨edge, hedge, hat⟩ := checked_edgeAt_lt (h p List.mem_cons_self)
      rw [List.foldlM_cons, List.foldl_cons, hat, isUnknownAt_eq hedge]
      exact ih (fun q hq => h q (List.mem_cons_of_mem p hq)) _

variable [FloatOrder K] {hyd : Hydraulics K}

/-- Every edge of unknown flow on the loop can be evaluated. -/
def LoopEvaluable (hyd : Hydraulics K) (edges : List (Edge K)) (flows : Flows K)
    (loop : List (ℕ × ℤ)) : Prop :=
  ∀ p ∈ loop, ∀ edge, edges[p.1]? = some edge → edge.kind.isUnknown →
    edge.Evaluable hyd (p.2 * flows p.1)

theorem checked_loopHead {loop : List (ℕ × ℤ)} (h : InRange edges loop) {flows : Flows K}
    (heval : LoopEvaluable hyd edges flows loop) :
    Checked.loopHead hyd edges flows loop = .ok (loopHead hyd edges flows loop) := by
  unfold Checked.loopHead loopHead
  generalize ((0, 0) : K × K) = acc
  induction loop generalizing acc with
  | nil => rfl
  | cons p loop ih =>
      obtain ⟨edge, hedge, hat⟩ := checked_edgeAt_lt (h p List.mem_cons_self)
      have hih := fun acc => ih (fun q hq => h q (List.mem_cons_of_mem p hq))
        (fun q hq => heval q (List.mem_cons_of_mem p hq)) acc
      rw [List.foldlM_cons, List.foldl_cons, hat, hedge]
      by_cases hunknown : edge.kind.isUnknown
      · simp only [checked_edgeDpAndK (heval p List.mem_cons_self edge hedge hunknown),
          if_pos hunknown, bind, Except.bind]
        exact hih _
      · simp only [if_neg hunknown, bind, Except.bind]
        exact hih _

theorem checked_loopHead_raises {loop : List (ℕ × ℤ)} (h : InRange edges loop) {flows : Flows K}
    (heval : ¬ LoopEvaluable hyd edges flows loop) :
    ∃ e, Checked.loopHead hyd edges flows loop = .error (.raised e) := by
  unfold Checked.loopHead
  generalize ((0, 0) : K × K) = acc
  induction loop generalizing acc with
  | nil => exact absurd (fun p hp => absurd hp List.not_mem_nil) heval
  | cons p loop ih =>
      obtain ⟨edge, hedge, hat⟩ := checked_edgeAt_lt (h p List.mem_cons_self)
      have hih := fun hrest acc => ih (fun q hq => h q (List.mem_cons_of_mem p hq)) hrest acc
      have hcons : (edge.kind.isUnknown → edge.Evaluable hyd (p.2 * flows p.1)) →
          ¬ LoopEvaluable hyd edges flows loop := by
        intro hfirst hrest
        refine heval fun q hq edge' hedge' hunknown => ?_
        rcases List.mem_cons.mp hq with rfl | hq
        · obtain rfl := Option.some.inj (hedge.symm.trans hedge')
          exact hfirst hunknown
        · exact hrest q hq edge' hedge' hunknown
      rw [List.foldlM_cons, hat]
      by_cases hunknown : edge.kind.isUnknown
      · by_cases hfirst : edge.Evaluable hyd (p.2 * flows p.1)
        · simp only [checked_edgeDpAndK hfirst, if_pos hunknown, bind, Except.bind]
          exact hih (hcons fun _ => hfirst) _
        · obtain ⟨e, he⟩ := checked_edgeDpAndK_raises hfirst
          refine ⟨e, ?_⟩
          simp only [he, if_pos hunknown, bind, Except.bind]
      · simp only [if_neg hunknown, bind, Except.bind]
        exact hih (hcons fun h => absurd h hunknown) _

/-- The next correction evaluates its edges. -/
def StepEvaluable (hyd : Hydraulics K) (edges : List (Edge K)) (s : Iterate K) : Prop :=
  ∀ loop ∈ s.pending.head?, LoopEvaluable hyd edges s.flows loop

/-- **One iteration**: the plain one where its edges are evaluated. -/
theorem checked_step {loops : List (List (ℕ × ℤ))} {s : Iterate K}
    (h : ∀ loop ∈ s.pending, InRange edges loop) (heval : StepEvaluable hyd edges s) :
    Checked.hardyCrossStep hyd edges loops s = hardyCrossStep hyd edges loops s := by
  unfold Checked.hardyCrossStep hardyCrossStep
  rcases hpending : s.pending with _ | ⟨loop, rest⟩
  · rfl
  · have hloop : InRange edges loop := h loop (hpending ▸ List.mem_cons_self)
    have hhead := checked_loopHead hloop (heval loop (by rw [hpending]; rfl))
    simp only [Checked.correct, hhead, bind, Except.bind]
    by_cases hslope : (loopHead hyd edges s.flows loop).2 = 0
    · rw [if_pos hslope, if_pos hslope]
      rfl
    · rw [if_neg hslope, if_neg hslope, checked_divide hslope]
      simp only [checked_correctLoop hloop]
      rfl

theorem checked_step_raises (loops : List (List (ℕ × ℤ))) {s : Iterate K}
    (h : ∀ loop ∈ s.pending, InRange edges loop) (heval : ¬ StepEvaluable hyd edges s) :
    ∃ e, Checked.hardyCrossStep hyd edges loops s = .inl (.error (.raised e)) := by
  unfold StepEvaluable at heval
  unfold Checked.hardyCrossStep
  rcases hpending : s.pending with _ | ⟨loop, rest⟩
  · rw [hpending] at heval
    exact absurd (fun loop hloop => nomatch hloop) heval
  · have hloop : ¬ LoopEvaluable hyd edges s.flows loop := by
      rw [hpending] at heval
      simpa using heval
    obtain ⟨e, he⟩ := checked_loopHead_raises (h loop (hpending ▸ List.mem_cons_self)) hloop
    refine ⟨e, ?_⟩
    simp only [Checked.correct, he, bind, Except.bind]

end Lookups

end Flownet

end Feldspar

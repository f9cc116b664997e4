/-
Feldspar/FlownetRun.lean

The spanning tree and the run of the network solver, whatever the arithmetic.

The breadth-first search grows a tree of the listed nodes (`spanningTree_ok`).
An iteration corrects a loop or starts over (`hardyCrossStep_cases`), so the run
ends (`hardyCross_halts`), and what is solved are the edges with the flows of its
last state (`hardyCrossStep_ok`).
-/
import Feldspar.Flownet
import Feldspar.Lib.Fallible

namespace Feldspar

namespace Flownet

/-! ### The spanning tree -/

section Tree

variable {ends : List (String × String)} {root : String}

theorem mem_adjacencyFrom {n : String} {p : String × ℕ} : ∀ {ends : List (String × String)} {k : ℕ},
    p ∈ adjacencyFrom n ends k →
      ∃ i, p.2 = k + i ∧ (ends[i]? = some (n, p.1) ∨ ends[i]? = some (p.1, n))
  | [], k, h => by cases h
  | (a, b) :: ends, k, h => by
      rw [adjacencyFrom, List.mem_append, List.mem_append] at h
      rcases h with (h | h) | h
      · split_ifs at h with ha
        · obtain rfl := List.mem_singleton.mp h
          exact ⟨0, rfl, Or.inl (by simp [ha])⟩
        · cases h
      · split_ifs at h with hb
        · obtain rfl := List.mem_singleton.mp h
          exact ⟨0, rfl, Or.inr (by simp [hb])⟩
        · cases h
      · obtain ⟨i, hi, hends⟩ := mem_adjacencyFrom h
        refine ⟨i + 1, by omega, ?_⟩
        rwa [List.getElem?_cons_succ]

theorem mem_adjacency {n : String} {p : String × ℕ} (h : p ∈ adjacency ends n) :
    ends[p.2]? = some (n, p.1) ∨ ends[p.2]? = some (p.1, n) := by
  obtain ⟨i, hi, hends⟩ := mem_adjacencyFrom h
  rwa [hi, Nat.zero_add]

/-- What the search keeps: a grown tree, and a queue of its nodes. -/
structure Searching (ends : List (String × String)) (root : String) (s : BfsState) : Prop where
  grown : Flow.Grown ends root s.1
  queue : ∀ n ∈ s.2, n ∈ Flow.order root s.1

theorem mem_order_snoc {n : String} {found : List (Flow.Found String)} {g : Flow.Found String} :
    n ∈ Flow.order root (found ++ [g]) ↔ n ∈ Flow.order root found ∨ n = g.node := by
  rw [Flow.order_append, List.mem_append, List.map_singleton, List.mem_singleton]

theorem Searching.visit {s : BfsState} (h : Searching ends root s) {node : String}
    (hnode : node ∈ Flow.order root s.1) {p : String × ℕ}
    (hp : ends[p.2]? = some (node, p.1) ∨ ends[p.2]? = some (p.1, node)) :
    Searching ends root (visit root node s p) ∧
      node ∈ Flow.order root (Flownet.visit root node s p).1 := by
  unfold Flownet.visit
  split_ifs with hvisited
  · exact ⟨h, hnode⟩
  · refine ⟨⟨h.grown.snoc hnode hvisited hp, ?_⟩, mem_order_snoc.mpr (Or.inl hnode)⟩
    intro n hn
    rw [mem_order_snoc]
    rcases List.mem_append.mp hn with hn | hn
    · exact Or.inl (h.queue n hn)
    · exact Or.inr (List.mem_singleton.mp hn)

theorem Searching.neighbors {node : String} : ∀ {l : List (String × ℕ)} {s : BfsState},
    Searching ends root s → node ∈ Flow.order root s.1 →
    (∀ p ∈ l, ends[p.2]? = some (node, p.1) ∨ ends[p.2]? = some (p.1, node)) →
    Searching ends root (l.foldl (Flownet.visit root node) s)
  | [], _, h, _, _ => h
  | p :: l, s, h, hnode, hl => by
      obtain ⟨h', hnode'⟩ := h.visit hnode (hl p List.mem_cons_self)
      exact h'.neighbors hnode' fun q hq => hl q (List.mem_cons_of_mem _ hq)

theorem Searching.bfs : ∀ (k : ℕ) {s : BfsState}, Searching ends root s →
    Searching ends root (Flownet.bfs ends root k s)
  | 0, _, h => h
  | _ + 1, (_, []), h => h
  | k + 1, (found, node :: queue), h => by
      have hnode : node ∈ Flow.order root found := h.queue node List.mem_cons_self
      have htail : Searching ends root (found, queue) :=
        ⟨h.grown, fun n hn => h.queue n (List.mem_cons_of_mem _ hn)⟩
      exact (htail.neighbors hnode fun p hp => mem_adjacency hp).bfs k

theorem grown_bfs (k : ℕ) : Flow.Grown ends root (bfs ends root k ([], [root])).1 := by
  refine (Searching.bfs k ⟨.nil, ?_⟩).grown
  intro n hn
  rw [List.mem_singleton.mp hn]
  exact List.mem_cons_self

theorem order_subset {ends : List (String × String)} {root : String} {nodes : List String}
    {found : List (Flow.Found String)} (hgrown : Flow.Grown ends root found) (hroot : root ∈ nodes)
    (hends : ∀ {i : ℕ} {e : String × String}, ends[i]? = some e → e.1 ∈ nodes ∧ e.2 ∈ nodes) :
    Flow.order root found ⊆ nodes := by
  intro n hn
  rcases List.mem_cons.mp hn with rfl | hn
  · exact hroot
  · obtain ⟨g, hg, rfl⟩ := List.mem_map.mp hn
    rcases hgrown.joins hg with h | h
    · exact (hends h).2
    · exact (hends h).1

theorem incidentFrom_eq_nil {n : String} : ∀ {ends : List (String × String)} {k : ℕ},
    (∀ e ∈ ends, e.1 ≠ n ∧ e.2 ≠ n) → Flow.incidentFrom n ends k = []
  | [], _, _ => rfl
  | (a, b) :: ends, k, h => by
      obtain ⟨ha, hb⟩ := h (a, b) List.mem_cons_self
      rw [Flow.incidentFrom, if_neg ha, if_neg hb,
        incidentFrom_eq_nil fun e he => h e (List.mem_cons_of_mem _ he)]
      rfl

theorem incidentFrom_lt {n : String} : ∀ {ends : List (String × String)} {k : ℕ},
    ∀ p ∈ Flow.incidentFrom n ends k, p.1 < k + ends.length
  | [], _, p, hp => by cases hp
  | (a, b) :: ends, k, p, hp => by
      rw [Flow.incidentFrom, List.mem_append, List.mem_append] at hp
      rw [List.length_cons]
      rcases hp with (hp | hp) | hp
      · split_ifs at hp
        · rw [List.mem_singleton.mp hp]
          omega
        · cases hp
      · split_ifs at hp
        · rw [List.mem_singleton.mp hp]
          omega
        · cases hp
      · have hlt := incidentFrom_lt p hp
        omega

end Tree

variable {K : Type}

/-- What a spanning tree is. -/
structure Spans (edges : List (Edge K)) (tree : SpanningTree) : Prop where
  grown : Flow.Grown (ends edges) tree.root tree.found
  covers : ∀ {i : ℕ} {e : String × String}, (ends edges)[i]? = some e →
    e.1 ∈ Flow.order tree.root tree.found ∧ e.2 ∈ Flow.order tree.root tree.found

theorem getElem?_ends (edges : List (Edge K)) (i : ℕ) :
    (ends edges)[i]? = edges[i]?.map fun e => (e.a, e.b) :=
  List.getElem?_map

theorem listed_of_forM {nodes : List String} {edges : List (Edge K)}
    (h : (edges.forM fun e => do
      if e.a ∉ nodes then throw (.raised (.keyError e.a))
      if e.b ∉ nodes then throw (.raised (.keyError e.b)) :
        Except (HardyCrossError K) Unit) = .ok ()) :
    ∀ edge ∈ edges, edge.a ∈ nodes ∧ edge.b ∈ nodes := by
  intro edge hedge
  have hchecked := Fallible.forM_eq_ok.mp h edge hedge
  by_cases ha : edge.a ∈ nodes
  · by_cases hb : edge.b ∈ nodes
    · exact ⟨ha, hb⟩
    · simp [ha, hb, throw, throwThe, MonadExceptOf.throw] at hchecked
  · simp [ha, bind, Except.bind, throw, throwThe, MonadExceptOf.throw] at hchecked

/-- What a tree is grown from: listed ends, from the first node. -/
theorem spanningTree_ok_cases {nodes : List String} {edges : List (Edge K)} {tree : SpanningTree}
    (h : spanningTree nodes edges = .ok tree) :
    (∀ edge ∈ edges, edge.a ∈ nodes ∧ edge.b ∈ nodes) ∧ nodes.head? = some tree.root ∧
      tree.found = (bfs (ends edges) tree.root nodes.length ([], [tree.root])).1 ∧
      (Flow.order tree.root tree.found).length = nodes.length := by
  obtain ⟨⟨⟩, hends, h⟩ := Fallible.bind_eq_ok.mp h
  cases nodes with
  | nil => cases h
  | cons root nodes =>
      simp only at h
      split_ifs at h with hlen
      · cases h
      · obtain rfl := (Except.ok.inj h).symm
        exact ⟨listed_of_forM hends, rfl, rfl, not_not.mp hlen⟩

theorem mem_nodes_of_ends {nodes : List String} {edges : List (Edge K)}
    (hmem : ∀ edge ∈ edges, edge.a ∈ nodes ∧ edge.b ∈ nodes) {i : ℕ} {e : String × String}
    (he : (ends edges)[i]? = some e) : e.1 ∈ nodes ∧ e.2 ∈ nodes := by
  rw [getElem?_ends] at he
  obtain ⟨edge, hedge, rfl⟩ := Option.map_eq_some_iff.mp he
  exact hmem edge (List.mem_of_getElem? hedge)

/-- The tree's nodes are the payload's. -/
theorem spanningTree_perm {nodes : List String} {edges : List (Edge K)} {tree : SpanningTree}
    (h : spanningTree nodes edges = .ok tree) :
    (Flow.order tree.root tree.found).Perm nodes := by
  obtain ⟨hmem, hroot, hfound, hlen⟩ := spanningTree_ok_cases h
  have hgrown : Flow.Grown (ends edges) tree.root tree.found := hfound ▸ grown_bfs nodes.length
  exact (List.subperm_of_subset hgrown.nodup_order
    (order_subset hgrown (List.mem_of_mem_head? hroot) (mem_nodes_of_ends hmem))).perm_of_length_le
      hlen.ge

theorem spanningTree_ok {nodes : List String} {edges : List (Edge K)} {tree : SpanningTree}
    (h : spanningTree nodes edges = .ok tree) : Spans edges tree := by
  obtain ⟨hmem, -, hfound, -⟩ := spanningTree_ok_cases h
  have hperm := spanningTree_perm h
  refine ⟨hfound ▸ grown_bfs nodes.length, fun he => ?_⟩
  obtain ⟨ha, hb⟩ := mem_nodes_of_ends hmem he
  exact ⟨hperm.mem_iff.mpr ha, hperm.mem_iff.mpr hb⟩

theorem isUnknownAt_eq {i : ℕ} {edge : Edge K} (h : edges[i]? = some edge) :
    isUnknownAt edges i = edge.kind.isUnknown := by
  rw [isUnknownAt, h]
  rfl

theorem getElem?_withFlows (edges : List (Edge K)) (flows : Flows K) (i : ℕ) :
    (withFlows edges flows)[i]? = edges[i]?.map fun edge => { edge with flow := flows i } :=
  List.getElem?_mapIdx

theorem ends_withFlows (edges : List (Edge K)) (flows : Flows K) :
    ends (withFlows edges flows) = ends edges := by
  apply List.ext_getElem?
  intro i
  rw [getElem?_ends, getElem?_ends, getElem?_withFlows, Option.map_map]
  rfl

/-! ### The run -/

section Run

variable [Arith K] {py : PyText K} {hyd : Hydraulics K} {payload : FlownetPayload K}

theorem prepare_ok {py : PyText K} {payload : FlownetPayload K} {p : Seeded K}
    (h : prepare py payload = .ok p) : ∃ tree, Spans p.edges tree ∧
      p.loops = buildCycleBasis p.edges tree ∧
      seedContinuityRespectingFlows p.edges tree = .ok p.flows := by
  obtain ⟨edges, -, h⟩ := Fallible.bind_eq_ok.mp h
  obtain ⟨tree, htree, h⟩ := Fallible.bind_eq_ok.mp h
  obtain ⟨flows, hflows, h⟩ := Fallible.bind_eq_ok.mp h
  obtain rfl := Except.ok.inj h
  exact ⟨tree, spanningTree_ok htree, rfl, hflows⟩

theorem prepare_edges {p : Seeded K} (h : prepare py payload = .ok p) :
    List.Forall₂ (fun edge e => Edge.ofPayload py edge = .ok e) payload.edges p.edges ∧
      ∃ tree, spanningTree payload.nodes p.edges = .ok tree := by
  obtain ⟨edges, hedges, h⟩ := Fallible.bind_eq_ok.mp h
  obtain ⟨tree, htree, h⟩ := Fallible.bind_eq_ok.mp h
  obtain ⟨flows, -, h⟩ := Fallible.bind_eq_ok.mp h
  obtain rfl := Except.ok.inj h
  exact ⟨Fallible.mapM_eq_ok.mp (Fallible.mapError_eq_ok.mp hedges), tree, htree⟩

/-- What one iteration does. -/
theorem hardyCrossStep_cases {hyd : Hydraulics K} {edges : List (Edge K)}
    {loops : List (List (ℕ × ℤ))} {s s' : Iterate K}
    (h : hardyCrossStep hyd edges loops s = .inr s') :
    (∃ loop rest, s.pending = loop :: rest ∧ (loopHead hyd edges s.flows loop).2 ≠ 0 ∧
      s'.iteration = s.iteration ∧ s'.pending = rest ∧
      s'.flows = correctLoop edges s.flows
        (-(loopHead hyd edges s.flows loop).1 / (loopHead hyd edges s.flows loop).2) loop) ∨
    (s.pending = [] ∧ s.iteration < hcMaxIter ∧ s'.iteration = s.iteration + 1 ∧
      s'.pending = loops ∧ s'.flows = s.flows) := by
  unfold hardyCrossStep at h
  rcases hpending : s.pending with _ | ⟨loop, rest⟩
  · simp only [hpending] at h
    split_ifs at h with htol hiter
    obtain rfl := Sum.inr.inj h
    exact Or.inr ⟨rfl, not_le.mp hiter, rfl, rfl, rfl⟩
  · simp only [hpending] at h
    split_ifs at h with hslope
    obtain rfl := Sum.inr.inj h
    exact Or.inl ⟨loop, rest, rfl, hslope, rfl, rfl, rfl⟩

theorem hardyCrossStep_ok {hyd : Hydraulics K} {edges : List (Edge K)}
    {loops : List (List (ℕ × ℤ))} {s : Iterate K} {solved : List (Edge K)}
    (h : hardyCrossStep hyd edges loops s = .inl (.ok solved)) :
    solved = withFlows edges s.flows := by
  unfold hardyCrossStep at h
  rcases hpending : s.pending with _ | ⟨loop, rest⟩
  · simp only [hpending] at h
    split_ifs at h with htol hiter
    · exact (Except.ok.inj (Sum.inl.inj h)).symm
    · cases Sum.inl.inj h
  · simp only [hpending] at h
    split_ifs at h with hslope
    cases Sum.inl.inj h

/-- The iterations end. -/
theorem hardyCross_halts (hyd : Hydraulics K) (edges : List (Edge K)) (loops : List (List (ℕ × ℤ)))
    (s : Iterate K) : Loop.Halts (hardyCrossStep hyd edges loops) s := by
  refine Loop.halts_of_measure (I := fun _ => True)
    (fun s => (hcMaxIter - s.iteration) * (loops.length + 1) + s.pending.length) ?_ trivial
  intro s s' _ h
  refine ⟨trivial, ?_⟩
  rcases hardyCrossStep_cases h with
    ⟨loop, rest, hpending, -, hiteration, hrest, -⟩ | ⟨hpending, hiteration, hnext, hloops, -⟩
  · rw [hiteration, hrest, hpending, List.length_cons]
    omega
  · have hsub : hcMaxIter - s.iteration = (hcMaxIter - (s.iteration + 1)) + 1 := by omega
    rw [hnext, hloops, hpending, hsub, add_mul, List.length_nil]
    omega

theorem hardyCrossSolve_total (py : PyText K) (hyd : Hydraulics K) (payload : FlownetPayload K) :
    ∃ r, HardyCrossSolve py hyd payload r := by
  unfold HardyCrossSolve
  rcases prepare py payload with e | p
  · exact ⟨_, rfl⟩
  · exact hardyCross_halts hyd p.edges p.loops p.start

theorem hardyCrossSolve_unique {r r' : Except (HardyCrossError K) (List (Edge K))}
    (h : HardyCrossSolve py hyd payload r) (h' : HardyCrossSolve py hyd payload r') : r = r' := by
  unfold HardyCrossSolve at h h'
  rcases hp : prepare py payload with e | p
  · rw [hp] at h h'
    exact h.trans h'.symm
  · rw [hp] at h h'
    exact h.unique h'

/-- `_hardy_cross_solve`, with at most `k` steps. -/
def solveWithin (py : PyText K) (hyd : Hydraulics K) (payload : FlownetPayload K) (k : ℕ) :
    Option (Except (HardyCrossError K) (List (Edge K))) :=
  match prepare py payload with
  | .error e => some (.error e)
  | .ok p => (Loop.iter (hardyCrossStep hyd p.edges p.loops) k p.start).getLeft?

theorem solveWithin_eq_some {py : PyText K} {hyd : Hydraulics K} {payload : FlownetPayload K}
    {k : ℕ} {r : Except (HardyCrossError K) (List (Edge K))}
    (h : solveWithin py hyd payload k = some r) : HardyCrossSolve py hyd payload r := by
  unfold solveWithin at h
  unfold HardyCrossSolve
  rcases hp : prepare py payload with e | p
  · rw [hp] at h
    exact (Option.some.inj h).symm
  · rw [hp] at h
    exact ⟨k, Sum.getLeft?_eq_some_iff.mp h⟩

/-- The loops that are left are loops of the basis. -/
theorem pending_of_reaches {p : Seeded K} {s : Iterate K}
    (hs : Loop.Reaches (hardyCrossStep hyd p.edges p.loops) p.start s) :
    ∀ loop ∈ s.pending, loop ∈ p.loops := by
  induction hs with
  | refl => exact fun loop hloop => hloop
  | tail _ hstep ih =>
      intro loop hloop
      rcases hardyCrossStep_cases hstep with
        ⟨_, rest, hpending, -, -, hrest, -⟩ | ⟨-, -, -, hpending, -⟩
      · exact ih loop (hpending ▸ List.mem_cons_of_mem _ (hrest ▸ hloop))
      · exact hpending ▸ hloop

end Run

/-! ### Small networks -/

section Networks

variable {K : Type} [Arith K]

def scalarParams (values : List (String × K)) : List (String × Json K) :=
  [("source", .str "scalars"), ("values", .obj (values.map fun v => (v.1, .num v.2)))]

def imposerEdge (id a b : String) (flowRate : K) : FlowEdge K :=
  { id := id, a := a, b := b, kind := "imposer", params := scalarParams [("flow_rate", flowRate)] }

def segmentEdge (id a b : String) (kFactor : K) : FlowEdge K :=
  { id := id, a := a, b := b, kind := "hx_segment",
    params := scalarParams [("k_factor", kFactor), ("diameter", 1.0), ("density", 1.0)] }

/-- The text functions and the Colebrook root are not called on these networks. -/
def noText : PyText K :=
  { format := fun _ => "", parseFloat := fun _ => none, ofInt := fun z => some z }

/-- With the double nearest to pi. -/
def doublePi : Hydraulics K :=
  { pi := ((884279719003555 : ℕ) : K) / ((281474976710656 : ℕ) : K)
    colebrookFrictionFactor := fun _ _ => 0 }

/-- Two parallel segments between a source and a sink. -/
def parallelSegments : FlownetPayload K :=
  { nodes := ["source", "split", "join", "sink"]
    edges := [imposerEdge "feed" "source" "split" 1e-3, segmentEdge "one" "split" "join" 1.0,
      segmentEdge "two" "split" "join" 2.0, imposerEdge "drain" "join" "sink" 1e-3] }

end Networks

end Flownet

end Feldspar

/-
Feldspar/CycleBasis.lean

The loops of a network are a basis of its cycles (`_build_cycle_basis` in
`fluids/network.py`).

A connected multigraph has a spanning tree (`spanningTree_of_isConnected`), and
every edge outside of it closes one loop: itself, and distinct edges of the
tree (`closes_fundamentalLoop`).  There are as many as edges, less the edges of
the tree, of which there is one for every node but the root
(`length_chords`).  A multiple of a loop changes no balance, since the loop has
no boundary.

An edge from a node to itself is never in the tree; its loop is the edge alone.
-/
import Feldspar.FlownetRooting

set_option linter.unusedSectionVars false

namespace Feldspar

namespace Flownet

variable {K : Type} [Field K] [LinearOrder K]

/-- The edges outside the tree. -/
def chords (edges : List (Edge K)) (tree : SpanningTree) : List ℕ :=
  (List.range edges.length).filter fun i => i ∉ tree.treeEdges

/-- The loop has the edge `i` once, and else distinct edges of the tree. -/
structure Closes (tree : SpanningTree) (i : ℕ) (loop : List (ℕ × ℤ)) : Prop where
  split : ∃ rest, loop = (i, 1) :: rest ∧ ∀ p ∈ rest, p.1 ∈ tree.treeEdges
  signs : ∀ p ∈ loop, p.2 = 1 ∨ p.2 = -1
  nodup : (loop.map Prod.fst).Nodup

/-- What the loops of a spanning tree are. -/
structure IsCycleBasis (nodes : List String) (edges : List (Edge K)) (tree : SpanningTree) :
    Prop where
  count : ((buildCycleBasis edges tree).length : ℤ) = edges.length - nodes.length + 1
  loops : List.Forall₂ (Closes tree) (chords edges tree) (buildCycleBasis edges tree)
  balance : ∀ loop ∈ buildCycleBasis edges tree, ∀ (flows : Flows K) (dq : K) (n : String),
    Flow.balance (ends edges) (Flow.addChain flows dq loop) n = Flow.balance (ends edges) flows n

section Basis

variable {nodes : List String} {edges : List (Edge K)} {tree : SpanningTree}

theorem chords_eq_map :
    chords edges tree = (edges.zipIdx.filter fun e => e.2 ∉ tree.treeEdges).map Prod.snd := by
  have hsnd : edges.zipIdx.map Prod.snd = List.range edges.length := by
    rw [List.zipIdx_map_snd, List.range_eq_range']
  rw [chords, ← hsnd, List.filter_map]
  rfl

/-- One edge of the tree for each node but the root. -/
theorem length_chords (htree : Spans edges tree) :
    (chords edges tree).length + tree.found.length = edges.length := by
  have hinside : ((List.range edges.length).filter fun i => !decide (i ∉ tree.treeEdges)).Perm
      tree.treeEdges := by
    refine (List.perm_ext_iff_of_nodup (List.nodup_range.filter _) htree.grown.nodup_edges).mpr
      fun i => ?_
    rw [List.mem_filter, List.mem_range, Bool.not_eq_true', decide_eq_false_iff_not, not_not]
    refine ⟨fun h => h.2, fun h => ⟨?_, h⟩⟩
    obtain ⟨g, hg, rfl⟩ := List.mem_map.mp h
    have hlength : (ends edges).length = edges.length := List.length_map _
    rw [← hlength]
    rcases htree.grown.joins hg with hends | hends
    · exact (List.getElem?_eq_some_iff.mp hends).1
    · exact (List.getElem?_eq_some_iff.mp hends).1
  have hcount := (List.range edges.length).length_eq_length_filter_add
    fun i => decide (i ∉ tree.treeEdges)
  rw [List.length_range, hinside.length_eq, SpanningTree.treeEdges, List.length_map] at hcount
  exact hcount.symm

theorem closes_fundamentalLoop (htree : Spans edges tree) {e : Edge K} {i : ℕ}
    (he : edges[i]? = some e) (hi : i ∉ tree.treeEdges) :
    Closes tree i (Flow.fundamentalLoop i (tree.path edges e.a) (tree.path edges e.b)) := by
  have hends : (ends edges)[i]? = some (e.a, e.b) := by
    rw [getElem?_ends, he]
    rfl
  obtain ⟨ha, hb⟩ := htree.covers hends
  obtain ⟨rest, hrest, hedges, hnodup⟩ := Flow.fundamentalLoop_spec htree.grown hi ha hb
  have hpath : ∀ n, ∀ p ∈ tree.path edges n, p.2 = 1 ∨ p.2 = -1 :=
    fun n => Flow.sign_pathToRoot tree.found.length n
  have hsigns : ∀ p ∈ Flow.fundamentalLoop i (tree.path edges e.a) (tree.path edges e.b), _ :=
    Flow.sign_fundamentalLoop (hpath e.a) (hpath e.b)
  simp only [SpanningTree.path] at hsigns ⊢
  rw [hrest] at hsigns ⊢
  exact ⟨⟨rest, rfl, fun p hp => (hedges p hp).2⟩, hsigns, hnodup⟩

theorem isCycleBasis_of_spanningTree (h : spanningTree nodes edges = .ok tree) :
    IsCycleBasis nodes edges tree := by
  have htree := spanningTree_ok h
  have hnodes : tree.found.length + 1 = nodes.length := by
    rw [← (spanningTree_perm h).length_eq, Flow.order, List.length_cons, List.length_map]
  have hlength : (buildCycleBasis edges tree).length = (chords edges tree).length := by
    rw [buildCycleBasis, chords_eq_map, List.length_map, List.length_map]
  refine ⟨?_, ?_, fun loop hloop flows dq n => ?_⟩
  · have hcount := length_chords htree
    omega
  · rw [chords_eq_map, buildCycleBasis, List.forall₂_map_left_iff, List.forall₂_map_right_iff,
      List.forall₂_same]
    rintro ⟨e, i⟩ hmem
    obtain ⟨he, hi⟩ := List.mem_filter.mp hmem
    exact closes_fundamentalLoop htree (List.mem_zipIdx_iff_getElem?.mp he) (of_decide_eq_true hi)
  · rw [Flow.balance_addChain, buildCycleBasis_isCycle htree loop hloop n, Int.cast_zero, zero_mul,
      add_zero]

/-- **The loops of a connected multigraph** are a basis of its cycles, for the
spanning tree that is built from it. -/
theorem buildCycleBasis_spec (nodes : List String) (edges : List (Edge K)) :
    (nodes ≠ [] → nodes.Nodup → IsConnected nodes (ends edges) →
      ∃ tree, spanningTree nodes edges = .ok tree) ∧
    ∀ tree, spanningTree nodes edges = .ok tree → IsCycleBasis nodes edges tree := by
  refine ⟨fun hne hnodup hconnected => ?_, fun tree h => isCycleBasis_of_spanningTree h⟩
  obtain ⟨root, nodes, rfl⟩ := List.exists_cons_of_ne_nil hne
  obtain ⟨found, h, -⟩ := spanningTree_of_isConnected hconnected hnodup
  exact ⟨⟨root, found⟩, h⟩

end Basis

def plainEdge (a b : String) : Edge ℚ :=
  { id := a ++ b, a := a, b := b, kind := .hxSegment, length := 0, diameter := 1, roughness := 0,
    density := 1, viscosity := 0, flow := 0, cd := 0, boreDiameter := 0, resistance := 1 }

/-- Two parallel edges, and one from a node to itself. -/
def parallelEdges : List (Edge ℚ) := [plainEdge "a" "b", plainEdge "b" "a", plainEdge "b" "b"]

theorem isConnected_parallelEdges : IsConnected ["a", "b"] (ends parallelEdges) where
  listed := by decide
  joined := by
    have hab : Flow.Grouped (fun _ => True) (ends parallelEdges) "a" "b" :=
      Relation.ReflTransGen.single ⟨0, trivial, Or.inl rfl⟩
    intro u hu v hv
    rcases List.mem_pair.mp hu with rfl | rfl <;> rcases List.mem_pair.mp hv with rfl | rfl
    · exact Relation.ReflTransGen.refl
    · exact hab
    · exact hab.symm
    · exact Relation.ReflTransGen.refl

theorem buildCycleBasis_spec_parallelEdges :
    ∃ tree, spanningTree ["a", "b"] parallelEdges = .ok tree ∧
      IsCycleBasis ["a", "b"] parallelEdges tree := by
  obtain ⟨hbuilt, hbasis⟩ := buildCycleBasis_spec ["a", "b"] parallelEdges
  obtain ⟨tree, htree⟩ := hbuilt (by decide) (by decide) isConnected_parallelEdges
  exact ⟨tree, htree, hbasis tree htree⟩

end Flownet

end Feldspar

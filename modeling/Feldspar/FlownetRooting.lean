/-
Feldspar/FlownetRooting.lean

The seed of a tree network, from its root.

In a tree the seed is the whole solve: it balances every node over an edge of
unknown flow exactly (`seed_rooted`), so a group of nodes that such edges join
leaves what the imposers bring in at one node, its top.  The seed checks it
there only if the node has two edges.  What it depends on is the branches of the
network and its root (`exists_rootedFlow`).
-/
import Feldspar.FlownetChecked
import Feldspar.FlownetContinuity
import Feldspar.Lib.Rooted

namespace Feldspar

namespace Flownet

variable {K : Type} [Field K] [LinearOrder K]

/-! ### Trees -/

/-- A connected graph of the nodes without a cycle: no edge's ends are joined by
the other edges. -/
structure IsTree (nodes : List String) (ends : List (String × String)) : Prop where
  nonempty : nodes ≠ []
  listed : ∀ e ∈ ends, e.1 ∈ nodes ∧ e.2 ∈ nodes
  connected : ∀ u ∈ nodes, ∀ v ∈ nodes, Flow.Grouped (fun _ => True) ends u v
  acyclic : ∀ before e after, ends = before ++ e :: after →
    ¬ Flow.Grouped (fun _ => True) (before ++ after) e.1 e.2

/-- A graph of the nodes, with parallel edges and loops, in which any two nodes
are joined. -/
structure IsConnected (nodes : List String) (ends : List (String × String)) : Prop where
  listed : ∀ e ∈ ends, e.1 ∈ nodes ∧ e.2 ∈ nodes
  joined : ∀ u ∈ nodes, ∀ v ∈ nodes, Flow.Grouped (fun _ => True) ends u v

section Tree

variable {nodes : List String} {ends : List (String × String)} {root : String}

theorem IsTree.isConnected (h : IsTree nodes ends) : IsConnected nodes ends :=
  ⟨h.listed, h.connected⟩

theorem freeStep_true {u v : String} :
    Flow.FreeStep (fun _ => True) ends u v ↔ (u, v) ∈ ends ∨ (v, u) ∈ ends := by
  unfold Flow.FreeStep
  rw [List.mem_iff_getElem?, List.mem_iff_getElem?, ← exists_or]
  exact exists_congr fun i => and_iff_right trivial

theorem grouped_mono {ends ends' : List (String × String)} (h : ends ⊆ ends') {u v : String}
    (huv : Flow.Grouped (fun _ => True) ends u v) : Flow.Grouped (fun _ => True) ends' u v := by
  refine Relation.ReflTransGen.mono (fun a b hab => ?_) _ _ huv
  rw [freeStep_true] at hab ⊢
  exact hab.imp (fun hm => h hm) fun hm => h hm

theorem IsTree.perm (h : IsTree nodes ends) {nodes' : List String}
    {ends' : List (String × String)} (hnodes : nodes'.Perm nodes) (hends : ends'.Perm ends) :
    IsTree nodes' ends' where
  nonempty := fun hnil => h.nonempty (List.Perm.nil_eq (hnil ▸ hnodes)).symm
  listed := fun e he => by
    obtain ⟨ha, hb⟩ := h.listed e (hends.mem_iff.mp he)
    exact ⟨hnodes.mem_iff.mpr ha, hnodes.mem_iff.mpr hb⟩
  connected := fun u hu v hv =>
    grouped_mono hends.symm.subset (h.connected u (hnodes.mem_iff.mp hu) v (hnodes.mem_iff.mp hv))
  acyclic := fun before e after hsplit hgrouped => by
    obtain ⟨before', after', hsplit'⟩ := List.append_of_mem
      (hends.mem_iff.mp (hsplit ▸ List.mem_append_right before List.mem_cons_self))
    have hrest : (before ++ after).Perm (before' ++ after') := by
      rw [← List.perm_cons e]
      calc (e :: (before ++ after)).Perm (before ++ e :: after) := List.perm_middle.symm
        _ = ends' := hsplit.symm
        List.Perm _ ends := hends
        _ = before' ++ e :: after' := hsplit'
        List.Perm _ (e :: (before' ++ after')) := List.perm_middle
    exact h.acyclic before' e after' hsplit' (grouped_mono hrest.subset hgrouped)

theorem mem_adjacencyFrom_of {u v : String} : ∀ {ends : List (String × String)} {k i : ℕ},
    (ends[i]? = some (u, v) ∨ ends[i]? = some (v, u)) → (v, k + i) ∈ adjacencyFrom u ends k
  | [], _, _, h => by
      rcases h with h | h <;> cases h
  | (a, b) :: ends, k, 0, h => by
      rw [adjacencyFrom, List.mem_append, List.mem_append]
      left
      rcases h with h | h <;> obtain ⟨rfl, rfl⟩ := Prod.mk.inj (Option.some.inj h)
      · left
        rw [if_pos rfl]
        exact List.mem_singleton.mpr rfl
      · right
        rw [if_pos rfl]
        exact List.mem_singleton.mpr rfl
  | (a, b) :: ends, k, i + 1, h => by
      have hrest : (v, k + 1 + i) ∈ adjacencyFrom u ends (k + 1) := mem_adjacencyFrom_of h
      rw [adjacencyFrom, show k + (i + 1) = k + 1 + i by omega]
      exact List.mem_append_right _ hrest

/-- What is joined to the root, a walk leads to. -/
theorem walk_of_grouped {v : String} (h : Flow.Grouped (fun _ => True) ends root v) :
    ∃ w, Bfs.Walk (adjacency ends) root w v := by
  induction h with
  | refl => exact ⟨[], Bfs.Walk.nil⟩
  | @tail u v _ hstep ih =>
      obtain ⟨w, hw⟩ := ih
      obtain ⟨i, -, hends⟩ := hstep
      have hmem := mem_adjacencyFrom_of (k := 0) hends
      rw [Nat.zero_add] at hmem
      exact ⟨_, hw.snoc hmem⟩

theorem IsConnected.adjacency_mem (h : IsConnected nodes ends) :
    ∀ u ∈ nodes, ∀ p ∈ adjacency ends u, p.1 ∈ nodes := by
  intro u _ p hp
  rcases mem_adjacency hp with hends | hends
  · exact (h.listed _ (List.mem_of_getElem? hends)).2
  · exact (h.listed _ (List.mem_of_getElem? hends)).1

/-- The search from any node finds every node. -/
theorem IsConnected.mem_bfs (h : IsConnected nodes ends) (hroot : root ∈ nodes) {v : String}
    (hv : v ∈ nodes) : v ∈ Flow.order root (bfs ends root nodes.length ([], [root])).1 := by
  obtain ⟨w, hw⟩ := walk_of_grouped (h.joined root hroot v hv)
  show v ∈ Flow.order root (bfs ends root nodes.length (toBfsState (Bfs.start root))).1
  rw [bfs_toBfsState]
  show v ∈ Flow.order root (List.map toFound _)
  rw [order_toFound]
  exact Bfs.search_complete (adjacency_ordered ends) hroot h.adjacency_mem hw

/-- A node found is joined to the root by edges of the tree. -/
theorem grouped_of_grown {found : List (Flow.Found String)} (h : Flow.Grown ends root found) :
    ∀ v ∈ Flow.order root found,
      Flow.Grouped (fun i => i ∈ found.map Flow.Found.edge) ends root v := by
  refine h.order_induction Relation.ReflTransGen.refl fun g hg hparent => ?_
  exact hparent.tail (((h.joins hg).freeStep _ (List.mem_map_of_mem hg)).symm)

/-- A tree has no other edges. -/
theorem IsTree.covers (h : IsTree nodes ends) {found : List (Flow.Found String)}
    (hgrown : Flow.Grown ends root found) (hall : ∀ v ∈ nodes, v ∈ Flow.order root found) :
    Flow.Covers ends found := by
  intro i hi
  by_contra hnot
  have hends : ends[i]? = some ends[i] := List.getElem?_eq_getElem hi
  obtain ⟨ha, hb⟩ := h.listed _ (List.mem_of_getElem? hends)
  have hjoined := ((grouped_of_grown hgrown _ (hall _ ha)).symm).trans
    (grouped_of_grown hgrown _ (hall _ hb))
  have hsplit : ends = ends.take i ++ ends[i] :: ends.drop (i + 1) := by
    rw [List.getElem_cons_drop, List.take_append_drop]
  refine h.acyclic _ _ _ hsplit (Relation.ReflTransGen.mono (fun a b hab => ?_) _ _ hjoined)
  obtain ⟨j, hj, hjends⟩ := hab
  have hji : j ≠ i := fun heq => hnot (heq ▸ hj)
  have hmem : ∀ {e}, ends[j]? = some e → e ∈ ends.take i ++ ends.drop (i + 1) := by
    intro e he
    rw [List.mem_append]
    rcases lt_or_gt_of_ne hji with hlt | hlt
    · left
      refine List.mem_of_getElem? (i := j) ?_
      rwa [List.getElem?_take_of_lt hlt]
    · right
      refine List.mem_of_getElem? (i := j - (i + 1)) ?_
      rw [List.getElem?_drop]
      rwa [show i + 1 + (j - (i + 1)) = j by omega]
  rw [freeStep_true]
  exact hjends.imp hmem hmem

end Tree

section Rooted

variable {nodes : List String} {edges : List (Edge K)} {root : String}

omit [Field K] [LinearOrder K] in
theorem forM_listed (h : IsConnected nodes (ends edges)) : (edges.forM fun e => do
      if e.a ∉ nodes then throw (.raised (.keyError e.a))
      if e.b ∉ nodes then throw (.raised (.keyError e.b)) :
        Except (HardyCrossError K) Unit) = .ok () := by
  refine Fallible.forM_eq_ok.mpr fun e he => ?_
  obtain ⟨ha, hb⟩ := h.listed (e.a, e.b) (List.mem_map_of_mem he)
  rw [if_neg (not_not.mpr ha), if_neg (not_not.mpr hb)]
  rfl

omit [Field K] [LinearOrder K] in
/-- A connected graph of distinct nodes has a spanning tree. -/
theorem spanningTree_of_isConnected (h : IsConnected (root :: nodes) (ends edges))
    (hnodup : (root :: nodes).Nodup) : ∃ found,
      spanningTree (root :: nodes) edges = .ok ⟨root, found⟩ ∧
        Flow.Grown (ends edges) root found ∧ (Flow.order root found).Perm (root :: nodes) := by
  set found := (bfs (ends edges) root (root :: nodes).length ([], [root])).1 with hfound
  have hgrown : Flow.Grown (ends edges) root found := grown_bfs _
  have hall : ∀ v ∈ root :: nodes, v ∈ Flow.order root found :=
    fun v hv => h.mem_bfs List.mem_cons_self hv
  have hperm : (Flow.order root found).Perm (root :: nodes) := by
    refine (List.perm_ext_iff_of_nodup hgrown.nodup_order hnodup).mpr fun v => ⟨?_, hall v⟩
    exact fun hv => order_subset hgrown List.mem_cons_self
      (fun he => h.listed _ (List.mem_of_getElem? he)) hv
  refine ⟨found, ?_, hgrown, hperm⟩
  unfold spanningTree
  rw [forM_listed h]
  show (if (Flow.order root found).length ≠ (root :: nodes).length then _ else _) = _
  rw [if_neg (not_not.mpr hperm.length_eq)]
  rfl

omit [Field K] [LinearOrder K] in
/-- In a tree with distinct nodes the spanning tree is the tree. -/
theorem spanningTree_of_isTree (h : IsTree (root :: nodes) (ends edges))
    (hnodup : (root :: nodes).Nodup) : ∃ found,
      spanningTree (root :: nodes) edges = .ok ⟨root, found⟩ ∧
        Flow.Grown (ends edges) root found ∧ Flow.Covers (ends edges) found ∧
        (Flow.order root found).Perm (root :: nodes) := by
  obtain ⟨found, htree, hgrown, hperm⟩ := spanningTree_of_isConnected h.isConnected hnodup
  exact ⟨found, htree, hgrown, h.covers hgrown fun v hv => hperm.mem_iff.mpr hv, hperm⟩

omit [Field K] [LinearOrder K] in
/-- A repeated node is never found. -/
theorem spanningTree_of_not_nodup (h : IsTree (root :: nodes) (ends edges))
    (hnodup : ¬ (root :: nodes).Nodup) :
    spanningTree (root :: nodes) edges = .error (.outOfDomain "disconnected_network") := by
  have hgrown : Flow.Grown (ends edges) root _ := grown_bfs (root :: nodes).length
  unfold spanningTree
  rw [forM_listed h.isConnected]
  show (if (Flow.order root _).length ≠ (root :: nodes).length then _ else _) = _
  rw [if_pos]
  · rfl
  · intro hlen
    refine hnodup ?_
    have hsub := order_subset hgrown List.mem_cons_self
      fun he => h.listed _ (List.mem_of_getElem? he)
    exact ((List.subperm_of_subset hgrown.nodup_order hsub).perm_of_length_le
      hlen.ge).nodup_iff.mp hgrown.nodup_order

/-! ### The seed of a tree -/

variable [IsStrictOrderedRing K] {tol : K} {found : List (Flow.Found String)}

/-- The node's balance is not checked, or within the tolerance. -/
def Passes (tol : K) (edges : List (Edge K)) (flows : Flows K) (g : Flow.Found String) : Prop :=
  isUnknownAt edges g.edge ∨ (Flow.incident (ends edges) g.node).length = 1 ∨
    |Flow.balance (ends edges) flows g.node| ≤ tol

/-- The flows, where the nodes of `done` have been gone through. -/
structure SeededSoFar (edges : List (Edge K)) (start final : Flows K)
    (done : List (Flow.Found String)) (flows : Flows K) : Prop where
  settled : ∀ g ∈ done, isUnknownAt edges g.edge → flows g.edge = final g.edge
  rest : ∀ i, (∀ g ∈ done, g.edge = i → ¬ isUnknownAt edges i) → flows i = start i

theorem mem_incidentFrom_of {n : String} : ∀ {ends : List (String × String)} {k i : ℕ}
    {e : String × String}, ends[i]? = some e → (e.1 = n ∨ e.2 = n) →
      ∃ s, (k + i, s) ∈ Flow.incidentFrom n ends k
  | [], _, _, _, h, _ => by cases h
  | (a, b) :: ends, k, 0, e, h, hn => by
      obtain rfl := Option.some.inj h
      rcases hn with hn | hn
      · refine ⟨-1, ?_⟩
        rw [Flow.incidentFrom, if_pos hn]
        simp
      · refine ⟨1, ?_⟩
        rw [Flow.incidentFrom, if_pos hn]
        simp
  | (a, b) :: ends, k, i + 1, e, h, hn => by
      obtain ⟨s, hs⟩ : ∃ s, (k + 1 + i, s) ∈ Flow.incidentFrom n ends (k + 1) :=
        mem_incidentFrom_of h hn
      refine ⟨s, ?_⟩
      rw [Flow.incidentFrom, show k + (i + 1) = k + 1 + i by omega]
      exact List.mem_append_right _ hs

omit [LinearOrder K] [IsStrictOrderedRing K] in
/-- The only edge of a node is its balance. -/
theorem balance_of_degree_one {g : Flow.Found String} (hjoins : Flow.Joins (ends edges) g)
    (hdegree : (Flow.incident (ends edges) g.node).length = 1) (flows : Flows K) :
    Flow.balance (ends edges) flows g.node
      = Flow.coef (ends edges) g.node g.edge * flows g.edge := by
  obtain ⟨s, hs⟩ : ∃ s, (g.edge, s) ∈ Flow.incident (ends edges) g.node := by
    have hmem : ∃ s, (0 + g.edge, s) ∈ Flow.incidentFrom g.node (ends edges) 0 := by
      rcases hjoins with h | h
      · exact mem_incidentFrom_of h (Or.inr rfl)
      · exact mem_incidentFrom_of h (Or.inl rfl)
    rwa [Nat.zero_add] at hmem
  have hnone : ((Flow.incident (ends edges) g.node).filter fun p => p.1 ≠ g.edge) = [] := by
    obtain ⟨p, hp⟩ := List.length_eq_one_iff.mp hdegree
    rw [hp] at hs ⊢
    rw [← List.mem_singleton.mp hs]
    simp
  have hrest : Flow.along ((Flow.incident (ends edges) g.node).filter fun p => p.1 ≠ g.edge) flows
      = Flow.balance (ends edges) flows g.node
        - Flow.coef (ends edges) g.node g.edge * flows g.edge := Flow.along_filter_ne g.edge
  rw [hnone] at hrest
  exact (sub_eq_zero.mp hrest.symm)

omit [Field K] [LinearOrder K] [IsStrictOrderedRing K] in
theorem SeededSoFar.snoc_update {start final flows : Flows K} {done : List (Flow.Found String)}
    {g : Flow.Found String} (h : SeededSoFar edges start final done flows)
    (hnew : ∀ g' ∈ done, g'.edge ≠ g.edge) (hunknown : isUnknownAt edges g.edge) :
    SeededSoFar edges start final (done ++ [g])
      (Function.update flows g.edge (final g.edge)) where
  settled := fun g' hg' hunknown' => by
    rcases List.mem_append.mp hg' with hg' | hg'
    · rw [Function.update_of_ne (hnew g' hg')]
      exact h.settled g' hg' hunknown'
    · rw [List.mem_singleton.mp hg', Function.update_self]
  rest := fun i hi => by
    have hne : i ≠ g.edge := fun heq =>
      hi g (List.mem_append_right _ (List.mem_singleton.mpr rfl)) heq.symm (heq ▸ hunknown)
    rw [Function.update_of_ne hne]
    exact h.rest i fun g' hg' => hi g' (List.mem_append_left _ hg')

omit [Field K] [LinearOrder K] [IsStrictOrderedRing K] in
theorem SeededSoFar.snoc {start final flows : Flows K} {done : List (Flow.Found String)}
    {g : Flow.Found String} (h : SeededSoFar edges start final done flows)
    (hknown : ¬ isUnknownAt edges g.edge) :
    SeededSoFar edges start final (done ++ [g]) flows where
  settled := fun g' hg' hunknown => by
    rcases List.mem_append.mp hg' with hg' | hg'
    · exact h.settled g' hg' hunknown
    · exact absurd (List.mem_singleton.mp hg' ▸ hunknown) hknown
  rest := fun i hi => h.rest i fun g' hg' => hi g' (List.mem_append_left _ hg')

/-- What the seed ends with: the imposers' flows, and the others balanced. -/
structure FinalFlows (edges : List (Edge K)) (found : List (Flow.Found String))
    (start final : Flows K) : Prop where
  changed : ∀ i, final i ≠ start i → isUnknownAt edges i ∧ i ∈ found.map Flow.Found.edge
  determined : Flow.Determined (fun i => isUnknownAt edges i = true) (ends edges) found final

omit [IsStrictOrderedRing K] in
/-- Before a node is gone through, the flows of its other edges are final. -/
theorem flows_rooted (hgrown : Flow.Grown (ends edges) root found)
    (hcovers : Flow.Covers (ends edges) found) {start final : Flows K}
    (hfinal : FinalFlows edges found start final)
    {done rest : List (Flow.Found String)} {g : Flow.Found String}
    (hsplit : found = rest ++ g :: done.reverse) {flows : Flows K}
    (hflows : SeededSoFar edges start final done flows) {i : ℕ} (hi : i ≠ g.edge)
    (hcoef : Flow.coef (ends edges) g.node i ≠ 0) : flows i = final i := by
  obtain ⟨hrest, -, hnode, -⟩ := hgrown.split hsplit
  have hlt : i < (ends edges).length := by
    by_contra hge
    exact hcoef (Flow.coef_of_length_le (not_lt.mp hge))
  obtain ⟨g', hg', rfl⟩ := List.mem_map.mp (hcovers i hlt)
  rw [hsplit, List.mem_append, List.mem_cons, List.mem_reverse] at hg'
  rcases hg' with hg' | rfl | hg'
  · exact absurd (hrest.coef_eq_zero_of_not_mem hnode hg') hcoef
  · exact absurd rfl hi
  · by_cases hunknown : isUnknownAt edges g'.edge
    · exact hflows.settled g' hg' hunknown
    · rw [hflows.rest g'.edge fun _ _ _ => hunknown]
      by_contra hne
      exact hunknown (hfinal.changed _ (Ne.symm hne)).1

omit [IsStrictOrderedRing K] in
theorem balance_rooted (hgrown : Flow.Grown (ends edges) root found)
    (hcovers : Flow.Covers (ends edges) found) {start final : Flows K}
    (hfinal : FinalFlows edges found start final)
    {done rest : List (Flow.Found String)} {g : Flow.Found String}
    (hsplit : found = rest ++ g :: done.reverse) {flows : Flows K}
    (hflows : SeededSoFar edges start final done flows) :
    Flow.balance (ends edges) flows g.node + Flow.coef (ends edges) g.node g.edge *
      (final g.edge - flows g.edge) = Flow.balance (ends edges) final g.node := by
  rw [← Flow.balance_update]
  refine Flow.balance_congr fun i hcoef => ?_
  by_cases hi : i = g.edge
  · rw [hi, Function.update_self]
  · rw [Function.update_of_ne hi]
    exact flows_rooted hgrown hcovers hfinal hsplit hflows hi hcoef

/-- An imposer misses the flow that its node requires of it by the node's
imbalance. -/
theorem required_rooted (hgrown : Flow.Grown (ends edges) root found)
    (hcovers : Flow.Covers (ends edges) found) {start final : Flows K}
    (hfinal : FinalFlows edges found start final)
    {done rest : List (Flow.Found String)} {g : Flow.Found String}
    (hsplit : found = rest ++ g :: done.reverse) {flows : Flows K}
    (hflows : SeededSoFar edges start final done flows)
    (hknown : ¬ isUnknownAt edges g.edge) {c : K}
    (hc : c = Flow.coef (ends edges) g.node g.edge) :
    -(Flow.balance (ends edges) flows g.node - c * flows g.edge) * c - flows g.edge
      = -c * Flow.balance (ends edges) final g.node := by
  obtain ⟨-, hparent, hnode, hjoins⟩ := hgrown.split hsplit
  have hself := Flow.coef_node_sq (R := K) hjoins (Flow.parent_ne_node hparent hnode)
  have hbalance := balance_rooted hgrown hcovers hfinal hsplit hflows
  have hfixed : flows g.edge = final g.edge := by
    rw [hflows.rest g.edge fun _ _ _ => hknown]
    by_contra hne
    exact hknown (hfinal.changed _ (Ne.symm hne)).1
  rw [← hc] at hself hbalance
  rw [← hfixed, sub_self, mul_zero, add_zero] at hbalance
  rw [← hbalance]
  linear_combination flows g.edge * hself

/-- One node: the check on it fails, or its flow is the final one. -/
theorem seedNode_rooted (hgrown : Flow.Grown (ends edges) root found)
    (hcovers : Flow.Covers (ends edges) found) {start final : Flows K}
    (hfinal : FinalFlows edges found start final)
    {done rest : List (Flow.Found String)} {g : Flow.Found String}
    (hsplit : found = rest ++ g :: done.reverse) {flows : Flows K}
    (hflows : SeededSoFar edges start final done flows) :
    (Passes tol edges final g → ∃ flows', seedNode tol edges flows g = .ok flows' ∧
      SeededSoFar edges start final (done ++ [g]) flows') ∧
    (¬ Passes tol edges final g →
      seedNode tol edges flows g = .error (.outOfDomain "overconstrained_demand")) := by
  obtain ⟨-, hparent, hnode, hjoins⟩ := hgrown.split hsplit
  have hne := Flow.parent_ne_node hparent hnode
  have hg : g ∈ found := hsplit ▸ List.mem_append_right _ List.mem_cons_self
  have hself := Flow.coef_node_sq (R := K) hjoins hne
  have hbalance := balance_rooted hgrown hcovers hfinal hsplit hflows
  have hnew : ∀ g' ∈ done, g'.edge ≠ g.edge := by
    intro g' hg' heq
    have hnodup := hgrown.nodup_edges
    rw [hsplit, List.map_append, List.map_cons] at hnodup
    refine (List.nodup_cons.mp (List.Nodup.of_append_right hnodup)).1 ?_
    rw [← heq]
    exact List.mem_map_of_mem (List.mem_reverse.mpr hg')
  simp only [seedNode, flowAlong_eq, signHere_eq hjoins hne, Flow.along_filter_ne, Arith.abs_eq]
  set c : K := (Flow.coef (ends edges) g.node g.edge : K) with hc
  set b : K := Flow.balance (ends edges) flows g.node with hb
  -- what the node requires of its edge is the flow the final balance determines, when that edge
  -- is an unknown; when it is not, it misses the edge's flow by the final imbalance
  by_cases hunknown : isUnknownAt edges g.edge
  · have hsettled : Flow.balance (ends edges) final g.node = 0 :=
      hfinal.determined g hg hunknown
    have hrequired : -(b - c * flows g.edge) * c = final g.edge := by
      rw [hsettled] at hbalance
      linear_combination (-c) * hbalance + final g.edge * hself
    have hzero : (Flow.incident (ends edges) g.node).length = 1 → final g.edge = 0 := by
      intro hdegree
      rw [balance_of_degree_one hjoins hdegree, ← hc] at hsettled
      linear_combination c * hsettled - final g.edge * hself
    refine ⟨fun _ => ⟨_, ?_, hflows.snoc_update hnew hunknown⟩,
      fun hfails => absurd (Or.inl hunknown) hfails⟩
    by_cases hdegree : (Flow.incident (ends edges) g.node).length = 1
    · rw [if_pos hdegree, if_pos hunknown, hzero hdegree]
    · rw [if_neg hdegree, if_pos hunknown, hrequired]
  · have hrequired : |-(b - c * flows g.edge) * c - flows g.edge|
        = |Flow.balance (ends edges) final g.node| := by
      have heq := required_rooted hgrown hcovers hfinal hsplit hflows hunknown hc
      have habs : |c| = 1 := by
        rw [← sq_eq_sq₀ (abs_nonneg c) zero_le_one, sq_abs, one_pow, sq, hself]
      rw [heq, abs_mul, abs_neg, habs, one_mul]
    by_cases hdegree : (Flow.incident (ends edges) g.node).length = 1
    · rw [if_pos hdegree, if_neg hunknown]
      exact ⟨fun _ => ⟨_, rfl, hflows.snoc hunknown⟩,
        fun hfails => absurd (Or.inr (Or.inl hdegree)) hfails⟩
    · rw [if_neg hdegree, if_neg hunknown, hrequired]
      constructor
      · intro hpasses
        have hwithin : |Flow.balance (ends edges) final g.node| ≤ tol :=
          (hpasses.resolve_left hunknown).resolve_left hdegree
        rw [if_neg (not_lt.mpr hwithin)]
        exact ⟨_, rfl, hflows.snoc hunknown⟩
      · intro hfails
        rw [if_pos (not_le.mp fun hwithin => hfails (Or.inr (Or.inr hwithin)))]

theorem seedNode_rooted_ok (hgrown : Flow.Grown (ends edges) root found)
    (hcovers : Flow.Covers (ends edges) found) {start final : Flows K}
    (hfinal : FinalFlows edges found start final)
    {done rest : List (Flow.Found String)} {g : Flow.Found String}
    (hsplit : found = rest ++ g :: done.reverse) {flows flows' : Flows K}
    (hflows : SeededSoFar edges start final done flows)
    (h : seedNode tol edges flows g = .ok flows') :
    SeededSoFar edges start final (done ++ [g]) flows' := by
  by_cases hpasses : Passes tol edges final g
  · obtain ⟨flows'', hstep, hnext⟩ :=
      (seedNode_rooted hgrown hcovers hfinal hsplit hflows).1 hpasses
    obtain rfl := Except.ok.inj (hstep.symm.trans h)
    exact hnext
  · rw [(seedNode_rooted hgrown hcovers hfinal hsplit hflows).2 hpasses] at h
    cases h

/-- The nodes from `l` on. -/
theorem seedNodes_rooted (hgrown : Flow.Grown (ends edges) root found)
    (hcovers : Flow.Covers (ends edges) found) {start final : Flows K}
    (hfinal : FinalFlows edges found start final) : ∀ {l done : List (Flow.Found String)}
    {flows : Flows K}, found.reverse = done ++ l → SeededSoFar edges start final done flows →
      ((∀ g ∈ l, Passes tol edges final g) → ∃ flows', l.foldlM (seedNode tol edges) flows = .ok flows' ∧
        SeededSoFar edges start final (done ++ l) flows') ∧
      ((∃ g ∈ l, ¬ Passes tol edges final g) →
        l.foldlM (seedNode tol edges) flows = .error (.outOfDomain "overconstrained_demand"))
  | [], done, flows, _, h => by
      refine ⟨fun _ => ⟨flows, rfl, ?_⟩, fun ⟨g, hg, _⟩ => absurd hg List.not_mem_nil⟩
      rwa [List.append_nil]
  | g :: l, done, flows, hsplit, h => by
      have hsplit' : found = l.reverse ++ g :: done.reverse := by
        rw [← List.reverse_reverse found, hsplit]
        simp
      obtain ⟨hok, herror⟩ := seedNode_rooted hgrown hcovers hfinal hsplit' h
      rw [List.foldlM_cons]
      by_cases hpasses : Passes tol edges final g
      · obtain ⟨flows', hflows', h'⟩ := hok hpasses
        have hnext : found.reverse = (done ++ [g]) ++ l := by
          rw [hsplit, List.append_assoc]
          rfl
        obtain ⟨hok', herror'⟩ := seedNodes_rooted hgrown hcovers hfinal hnext h'
        rw [hflows']
        refine ⟨fun hall => ?_, fun ⟨g', hg', hfails⟩ => ?_⟩
        · obtain ⟨flows'', hflows'', h''⟩ := hok' fun g' hg' => hall g' (List.mem_cons_of_mem g hg')
          refine ⟨flows'', hflows'', ?_⟩
          rwa [List.append_assoc] at h''
        · rcases List.mem_cons.mp hg' with rfl | hg'
          · exact absurd hpasses hfails
          · exact herror' ⟨g', hg', hfails⟩
      · rw [herror hpasses]
        exact ⟨fun hall => absurd (hall g List.mem_cons_self) hpasses, fun _ => rfl⟩

theorem seedNodes_rooted_ok (hgrown : Flow.Grown (ends edges) root found)
    (hcovers : Flow.Covers (ends edges) found) {start final : Flows K}
    (hfinal : FinalFlows edges found start final) {l done : List (Flow.Found String)}
    {flows flows' : Flows K} (hsplit : found.reverse = done ++ l)
    (hflows : SeededSoFar edges start final done flows)
    (h : l.foldlM (seedNode tol edges) flows = .ok flows') :
    SeededSoFar edges start final (done ++ l) flows' := by
  by_cases hpasses : ∀ g ∈ l, Passes tol edges final g
  · obtain ⟨flows'', hsteps, hnext⟩ :=
      (seedNodes_rooted hgrown hcovers hfinal hsplit hflows).1 hpasses
    obtain rfl := Except.ok.inj (hsteps.symm.trans h)
    exact hnext
  · obtain ⟨g, hg, hfails⟩ := not_forall₂.mp hpasses
    rw [(seedNodes_rooted hgrown hcovers hfinal hsplit hflows).2 ⟨g, hg, hfails⟩] at h
    cases h

omit [IsStrictOrderedRing K] in
theorem SeededSoFar.eq_final {start final flows : Flows K}
    (hfinal : FinalFlows edges found start final)
    (h : SeededSoFar edges start final found.reverse flows) : flows = final := by
  funext i
  by_cases hi : isUnknownAt edges i ∧ i ∈ found.map Flow.Found.edge
  · obtain ⟨hunknown, hi⟩ := hi
    obtain ⟨g, hg, rfl⟩ := List.mem_map.mp hi
    exact h.settled g (List.mem_reverse.mpr hg) hunknown
  · rw [h.rest i fun g hg heq hunknown =>
      hi ⟨hunknown, heq ▸ List.mem_map_of_mem (List.mem_reverse.mp hg)⟩]
    by_contra hne
    exact hi (hfinal.changed i (Ne.symm hne))

/-- The tops with two edges are within the tolerance. -/
def Balanced (tol : K) (edges : List (Edge K)) (found : List (Flow.Found String)) (root : String)
    (final : Flows K) : Prop :=
  ∀ v ∈ Flow.order root found, Flow.top (fun i => isUnknownAt edges i = true) found v = v →
    2 ≤ (Flow.incident (ends edges) v).length →
      |Flow.balance (ends edges) final v| ≤ tol

theorem balanced_iff (htol : 0 ≤ tol) (hgrown : Flow.Grown (ends edges) root found) {start final : Flows K}
    (hfinal : FinalFlows edges found start final) : Balanced tol edges found root final ↔
      (∀ g ∈ found.reverse, Passes tol edges final g) ∧
        (2 ≤ (Flow.incident (ends edges) root).length →
          |Flow.balance (ends edges) final root| ≤ tol) := by
  constructor
  · intro h
    refine ⟨fun g hg => ?_, h root List.mem_cons_self (hgrown.top_root _)⟩
    have hg' := List.mem_reverse.mp hg
    by_cases hunknown : isUnknownAt edges g.edge
    · exact Or.inl hunknown
    · by_cases hdegree : (Flow.incident (ends edges) g.node).length = 1
      · exact Or.inr (Or.inl hdegree)
      · have hpos : 0 < (Flow.incident (ends edges) g.node).length := by
          have hmem : ∃ s, (0 + g.edge, s) ∈ Flow.incidentFrom g.node (ends edges) 0 := by
            rcases hgrown.joins hg' with hj | hj
            · exact mem_incidentFrom_of hj (Or.inr rfl)
            · exact mem_incidentFrom_of hj (Or.inl rfl)
          obtain ⟨s, hs⟩ := hmem
          exact List.length_pos_of_mem hs
        refine Or.inr (Or.inr (h g.node (List.mem_cons_of_mem _ (List.mem_map_of_mem hg')) ?_
          (by omega)))
        rw [hgrown.top_node _ g hg', if_neg hunknown]
  · rintro ⟨hnodes, hroot⟩ v hv htop hdegree
    rcases List.mem_cons.mp hv with rfl | hv
    · exact hroot hdegree
    · obtain ⟨g, hg, rfl⟩ := List.mem_map.mp hv
      rcases hnodes g (List.mem_reverse.mpr hg) with hunknown | hone | hwithin
      · rw [hfinal.determined g hg hunknown, abs_zero]
        exact htol
      · omega
      · exact hwithin

/-- **The seed of a tree.** -/
theorem seed_rooted (htol : 0 ≤ tol) (tree : SpanningTree)
    (hgrown : Flow.Grown (ends edges) tree.root tree.found)
    (hcovers : Flow.Covers (ends edges) tree.found) {final : Flows K}
    (hfinal : FinalFlows edges tree.found (chordSeeds edges tree) final) :
    (Balanced tol edges tree.found tree.root final → seedWithin tol edges tree = .ok final) ∧
    (¬ Balanced tol edges tree.found tree.root final →
      ∃ feature, seedWithin tol edges tree = .error (.outOfDomain feature)) := by
  have hstart : SeededSoFar edges (chordSeeds edges tree) final [] (chordSeeds edges tree) :=
    ⟨fun g hg => absurd hg List.not_mem_nil, fun _ _ => rfl⟩
  obtain ⟨hok, herror⟩ := seedNodes_rooted hgrown hcovers hfinal
    (l := tree.found.reverse) rfl hstart
  rw [balanced_iff htol hgrown hfinal]
  unfold seedWithin
  by_cases hnodes : ∀ g ∈ tree.found.reverse, Passes tol edges final g
  · obtain ⟨flows, hflows, hseeded⟩ := hok hnodes
    rw [List.nil_append] at hseeded
    obtain rfl := hseeded.eq_final hfinal
    rw [hflows, and_iff_right hnodes]
    simp only [flowAlong_eq, Arith.abs_eq, bind, Except.bind]
    constructor
    · intro hroot
      rw [if_neg fun h => absurd (hroot h.1) (not_le.mpr h.2)]
      rfl
    · intro hroot
      obtain ⟨hdegree, hover⟩ := Classical.not_imp.mp hroot
      rw [if_pos ⟨hdegree, not_le.mp hover⟩]
      exact ⟨_, rfl⟩
  · obtain ⟨g, hg, hfails⟩ := not_forall₂.mp hnodes
    rw [herror ⟨g, hg, hfails⟩]
    exact ⟨fun h => absurd h.1 hnodes, fun _ => ⟨_, rfl⟩⟩

end Rooted

/-! ### Branches -/

/-- What decides the flows of a tree: the ends of an edge, and its flow if it is
an imposer. -/
structure Branch (K : Type) where
  a : String
  b : String
  fixed : Option K
  deriving DecidableEq

def Branch.ends (e : Branch K) : String × String := (e.a, e.b)

def Edge.branch (e : Edge K) : Branch K :=
  { a := e.a, b := e.b, fixed := if e.kind.isUnknown then none else some e.flow }

def degree (net : List (Branch K)) (n : String) : ℕ :=
  (Flow.incident (net.map Branch.ends) n).length

/-- Two nodes in one group: joined by edges of unknown flow. -/
def Linked (net : List (Branch K)) : String → String → Prop :=
  Relation.ReflTransGen fun u v => ∃ e ∈ net, e.fixed = none ∧ (e.ends = (u, v) ∨ e.ends = (v, u))

open Classical in
/-- What the imposers bring into the group of a node. -/
noncomputable def supplied (net : List (Branch K)) (v : String) : K :=
  (net.map fun e =>
    match e.fixed with
    | some x => (((if Linked net v e.b then 1 else 0) - if Linked net v e.a then 1 else 0 : ℤ) : K)
        * x
    | none => 0).sum

def nodeBalance (net : List (Branch K)) (flow : Branch K → K) (n : String) : K :=
  (net.map fun e => (Flow.endCoef e.ends n : K) * flow e).sum

section Branches

omit [LinearOrder K] in
theorem sum_range_eq_sum_map {α : Type} {l : List α} {f : ℕ → K} {g : α → K}
    (h : ∀ i a, l[i]? = some a → f i = g a) : ∑ i ∈ Finset.range l.length, f i = (l.map g).sum := by
  induction l generalizing f with
  | nil => rfl
  | cons a l ih =>
      rw [List.length_cons, Finset.sum_range_succ', List.map_cons, List.sum_cons,
        ih (f := fun i => f (i + 1)) fun i b hb => h (i + 1) b hb, h 0 a rfl, add_comm]

variable {edges : List (Edge K)}

omit [Field K] [LinearOrder K] in
theorem map_branch_ends (edges : List (Edge K)) :
    (edges.map Edge.branch).map Branch.ends = ends edges := by
  rw [List.map_map]
  rfl

omit [Field K] [LinearOrder K] in
theorem degree_branch (edges : List (Edge K)) (n : String) :
    degree (edges.map Edge.branch) n = (Flow.incident (ends edges) n).length := by
  rw [degree, map_branch_ends]

omit [Field K] [LinearOrder K] in
theorem fixed_branch {i : ℕ} {e : Edge K} (h : edges[i]? = some e) :
    e.branch.fixed = none ↔ isUnknownAt edges i := by
  rw [isUnknownAt_eq h, Edge.branch]
  cases e.kind.isUnknown <;> simp

omit [Field K] [LinearOrder K] in
theorem linked_branch (u v : String) : Linked (edges.map Edge.branch) u v ↔
    Flow.Grouped (fun i => isUnknownAt edges i = true) (ends edges) u v := by
  have hstep : (fun u v => ∃ e ∈ edges.map Edge.branch, e.fixed = none ∧
      (e.ends = (u, v) ∨ e.ends = (v, u)))
        = Flow.FreeStep (fun i => isUnknownAt edges i = true) (ends edges) := by
    funext u v
    refine propext ⟨?_, ?_⟩
    · rintro ⟨_, hmem, hfixed, hends⟩
      obtain ⟨edge, hedge, rfl⟩ := List.mem_map.mp hmem
      obtain ⟨i, hi⟩ := List.mem_iff_getElem?.mp hedge
      refine ⟨i, (fixed_branch hi).mp hfixed, ?_⟩
      rw [getElem?_ends, hi]
      exact hends.imp (congrArg some) (congrArg some)
    · rintro ⟨i, hunknown, hends⟩
      rw [getElem?_ends] at hends
      rcases hi : edges[i]? with _ | e
      · rw [hi] at hends
        rcases hends with h | h <;> cases h
      · rw [hi] at hends
        exact ⟨e.branch, List.mem_map_of_mem (List.mem_of_getElem? hi), (fixed_branch hi).mpr hunknown,
          hends.imp Option.some.inj Option.some.inj⟩
  rw [Linked, Flow.Grouped, hstep]

/-- Flows that are a function of the branch. -/
def FlowsOf (edges : List (Edge K)) (flow : Branch K → K) (flows : Flows K) : Prop :=
  ∀ i e, edges[i]? = some e → flows i = flow e.branch

omit [LinearOrder K] in
theorem balance_branch {flow : Branch K → K} {flows : Flows K} (h : FlowsOf edges flow flows)
    (n : String) :
    Flow.balance (ends edges) flows n = nodeBalance (edges.map Edge.branch) flow n := by
  have hlen : (ends edges).length = (edges.map Edge.branch).length := by
    rw [ends, List.length_map, List.length_map]
  rw [Flow.balance_eq_sum, nodeBalance, hlen]
  refine sum_range_eq_sum_map fun i e he => ?_
  rw [List.getElem?_map] at he
  obtain ⟨edge, hedge, rfl⟩ := Option.map_eq_some_iff.mp he
  rw [h i edge hedge, Flow.coef, getElem?_ends, hedge]
  rfl

omit [LinearOrder K] in
theorem nodeBalance_sub (net : List (Branch K)) (flow flow' : Branch K → K) (n : String) :
    nodeBalance net (fun e => flow e - flow' e) n
      = nodeBalance net flow n - nodeBalance net flow' n := by
  induction net with
  | nil => exact (sub_zero 0).symm
  | cons e net ih =>
      simp only [nodeBalance, List.map_cons, List.sum_cons] at ih ⊢
      rw [ih]
      ring

omit [LinearOrder K] in
theorem supply_branch {flows : Flows K}
    (h : ∀ i e x, edges[i]? = some e → e.branch.fixed = some x → flows i = x) (v : String) :
    Flow.supply (fun i => isUnknownAt edges i = true) (ends edges) flows v
      = supplied (edges.map Edge.branch) v := by
  have hlen : (ends edges).length = (edges.map Edge.branch).length := by
    rw [ends, List.length_map, List.length_map]
  rw [Flow.supply, supplied, hlen]
  refine sum_range_eq_sum_map fun i e he => ?_
  rw [List.getElem?_map] at he
  obtain ⟨edge, hedge, rfl⟩ := Option.map_eq_some_iff.mp he
  rcases hfixed : edge.branch.fixed with _ | x
  · rw [if_pos ((fixed_branch hedge).mp hfixed)]
  · have hknown : ¬ isUnknownAt edges i = true := by
      rw [← fixed_branch hedge, hfixed]
      exact Option.some_ne_none x
    rw [if_neg hknown, getElem?_ends, hedge, h i edge x hedge hfixed]
    classical
    have hgroup : ∀ w, (if Flow.Grouped (fun i => isUnknownAt edges i = true) (ends edges) v w then 1
        else 0 : ℤ) = if Linked (edges.map Edge.branch) v w then 1 else 0 :=
      fun w => if_congr (linked_branch v w).symm rfl rfl
    simp only [Option.map_some, hgroup]
    rfl

end Branches

/-! ### The flow from a root -/

/-- The flow of a tree network from one root; `top v` is the node where the
group of `v` is left unbalanced. -/
structure RootedFlow (nodes : List String) (net : List (Branch K)) (root : String)
    (flow : Branch K → K) (top : String → String) : Prop where
  balance : ∀ v ∈ nodes, nodeBalance net flow v = if top v = v then supplied net v else 0
  top_root : top root = root
  top_mem : ∀ v ∈ nodes, top v ∈ nodes
  top_top : ∀ v ∈ nodes, top (top v) = top v
  top_linked : ∀ v ∈ nodes, Linked net v (top v)
  top_eq : ∀ {u v}, Linked net u v → top u = top v
  alone : ∀ v ∈ nodes, v ≠ root → top v = v → degree net v < 2 → ∀ {u}, Linked net v u → u = v
  unique : ∀ {flow' : Branch K → K}, (∀ v ∈ nodes, nodeBalance net flow' v = nodeBalance net flow v) →
    ∀ e ∈ net, flow' e = flow e

/-- The seed's checks: a top with two edges is supplied within the tolerance. -/
def TopsBalanced (tol : K) (nodes : List String) (net : List (Branch K)) (top : String → String) : Prop :=
  ∀ v ∈ nodes, top v = v → 2 ≤ degree net v → |supplied net v| ≤ tol

/-- The solved edges, by their branches. -/
def withBranchFlows (edges : List (Edge K)) (flow : Branch K → K) : List (Edge K) :=
  edges.map fun e => { e with flow := flow e.branch }

section RootedFlow

variable {nodes : List String} {edges : List (Edge K)} {root : String}

theorem nodup_of_split {α : Type} : ∀ {l : List α},
    (∀ before e after, l = before ++ e :: after → e ∉ after) → l.Nodup
  | [], _ => List.nodup_nil
  | a :: l, h => by
      refine List.nodup_cons.mpr ⟨h [] a l rfl, nodup_of_split fun before e after hsplit => ?_⟩
      exact h (a :: before) e after (by rw [hsplit, List.cons_append])

theorem IsTree.ends_ne {ends : List (String × String)} (h : IsTree nodes ends) :
    ∀ e ∈ ends, e.1 ≠ e.2 := by
  intro e he heq
  obtain ⟨before, after, hsplit⟩ := List.append_of_mem he
  refine h.acyclic before e after hsplit ?_
  rw [heq]
  exact Relation.ReflTransGen.refl

theorem IsTree.nodup_ends {ends : List (String × String)} (h : IsTree nodes ends) : ends.Nodup := by
  refine nodup_of_split fun before e after hsplit he => h.acyclic before e after hsplit ?_
  exact Relation.ReflTransGen.single (freeStep_true.mpr (Or.inl (List.mem_append_right before he)))

omit [Field K] [LinearOrder K] in
theorem IsTree.nodup_branches (h : IsTree nodes (ends edges)) : (edges.map Edge.branch).Nodup := by
  refine List.Nodup.of_map Branch.ends ?_
  rw [map_branch_ends]
  exact h.nodup_ends

/-- Flows by index, as flows by branch. -/
def branchFlow (edges : List (Edge K)) (flows : Flows K) (e : Branch K) : K :=
  flows ((edges.map Edge.branch).idxOf e)

omit [Field K] in
theorem flowsOf_branchFlow (hnodup : (edges.map Edge.branch).Nodup) (flows : Flows K) :
    FlowsOf edges (branchFlow edges flows) flows := by
  intro i e he
  have hi : (edges.map Edge.branch)[i]? = some e.branch := by
    rw [List.getElem?_map, he]
    rfl
  obtain ⟨hlt, heq⟩ := List.getElem?_eq_some_iff.mp hi
  rw [branchFlow, ← heq, hnodup.idxOf_getElem i hlt]

omit [Field K] [LinearOrder K] in
theorem withFlows_eq {flow : Branch K → K} {flows : Flows K} (h : FlowsOf edges flow flows) :
    withFlows edges flows = withBranchFlows edges flow := by
  refine List.ext_getElem? fun i => ?_
  rw [getElem?_withFlows, withBranchFlows, List.getElem?_map]
  rcases he : edges[i]? with _ | e
  · rfl
  · rw [Option.map_some, Option.map_some, h i e he]

omit [Field K] [LinearOrder K] in
/-- A dead end whose edge is an imposer is a group of its own. -/
theorem alone_of_top {found : List (Flow.Found String)}
    (hgrown : Flow.Grown (ends edges) root found) {v : String} (hv : v ∈ Flow.order root found)
    (hne : v ≠ root) (htop : Flow.top (fun i => isUnknownAt edges i = true) found v = v)
    (hdegree : (Flow.incident (ends edges) v).length < 2) {u : String}
    (hgroup : Flow.Grouped (fun i => isUnknownAt edges i = true) (ends edges) v u) : u = v := by
  obtain ⟨g, hg, rfl⟩ := List.mem_map.mp ((List.mem_cons.mp hv).resolve_left hne)
  have hknown : ¬ isUnknownAt edges g.edge := by
    intro hunknown
    rw [hgrown.top_node _ g hg, if_pos hunknown] at htop
    exact hgrown.top_parent_ne _ g hg htop
  have hat : ∀ {i : ℕ} {w : String}, (ends edges)[i]? = some (g.node, w) ∨
      (ends edges)[i]? = some (w, g.node) → ∃ s, (i, s) ∈ Flow.incident (ends edges) g.node := by
    intro i w hends
    have hmem : ∃ s, (0 + i, s) ∈ Flow.incidentFrom g.node (ends edges) 0 := by
      rcases hends with hends | hends
      · exact mem_incidentFrom_of hends (Or.inl rfl)
      · exact mem_incidentFrom_of hends (Or.inr rfl)
    rwa [Nat.zero_add] at hmem
  rcases Relation.ReflTransGen.cases_head hgroup with heq | ⟨w, ⟨i, hunknown, hends⟩, -⟩
  · exact heq.symm
  · -- the node has no second edge
    obtain ⟨s, hs⟩ := hat hends
    obtain ⟨s', hs'⟩ := hat (hgrown.joins hg).symm
    have hone : (Flow.incident (ends edges) g.node).length = 1 := by
      have hpos := List.length_pos_of_mem hs
      omega
    obtain ⟨p, hp⟩ := List.length_eq_one_iff.mp hone
    rw [hp, List.mem_singleton] at hs hs'
    have hedge : i = g.edge := congrArg Prod.fst (hs.trans hs'.symm)
    exact absurd (hedge ▸ hunknown) hknown

variable [IsStrictOrderedRing K]

omit [IsStrictOrderedRing K] in
/-- **The flow of a tree**, from the first node. -/
theorem exists_rootedFlow (h : IsTree (root :: nodes) (ends edges))
    {found : List (Flow.Found String)} (hgrown : Flow.Grown (ends edges) root found)
    (hcovers : Flow.Covers (ends edges) found)
    (hperm : (Flow.order root found).Perm (root :: nodes)) :
    ∃ final, FinalFlows edges found (chordSeeds edges ⟨root, found⟩) final ∧
      FlowsOf edges (branchFlow edges final) final ∧
      RootedFlow (root :: nodes) (edges.map Edge.branch) root (branchFlow edges final)
        (Flow.top (fun i => isUnknownAt edges i = true) found) := by
  obtain ⟨final, hchanged, hdetermined⟩ := hgrown.exists_flow
    (fun i => isUnknownAt edges i = true) (chordSeeds edges ⟨root, found⟩)
  have hflows := flowsOf_branchFlow h.nodup_branches final
  refine ⟨final, ⟨hchanged, hdetermined⟩, hflows, ?_⟩
  have hmem : ∀ v, v ∈ root :: nodes ↔ v ∈ Flow.order root found := fun v => hperm.mem_iff.symm
  have hgiven : ∀ i e x, edges[i]? = some e → e.branch.fixed = some x → final i = x := by
    intro i e x he hfixed
    have hknown : ¬ isUnknownAt edges i = true := by
      rw [← fixed_branch he, hfixed]
      exact Option.some_ne_none x
    have hseed : final i = chordSeeds edges ⟨root, found⟩ i := by
      by_contra hne
      exact hknown (hchanged i hne).1
    rw [hseed, chordSeeds, if_neg fun hboth => hknown hboth.1, he]
    rw [isUnknownAt_eq he] at hknown
    rw [Edge.branch, if_neg hknown] at hfixed
    exact Option.some.inj hfixed
  have hspec := hgrown.top_spec fun i => isUnknownAt edges i = true
  exact {
    balance := fun v hv => by
      rw [← balance_branch hflows, hgrown.balance_eq_supply hcovers hdetermined ((hmem v).mp hv),
        supply_branch hgiven]
    top_root := hgrown.top_root _
    top_mem := fun v hv => (hmem _).mpr (hspec v ((hmem v).mp hv)).1
    top_top := fun v hv => (hspec v ((hmem v).mp hv)).2.1
    top_linked := fun v hv => (linked_branch _ _).mpr (hspec v ((hmem v).mp hv)).2.2
    top_eq := fun hlinked => hgrown.top_eq hcovers ((linked_branch _ _).mp hlinked)
    alone := fun v hv hne htop hdegree u hlinked => by
      rw [degree_branch] at hdegree
      exact alone_of_top hgrown ((hmem v).mp hv) hne htop hdegree ((linked_branch _ _).mp hlinked)
    unique := fun {flow'} hbalance e he => by
      -- the difference is balanced everywhere
      set d : Flows K := fun i =>
        (edges[i]?.map fun e => flow' e.branch - branchFlow edges final e.branch).getD 0 with hd
      have hdiff : FlowsOf edges (fun e => flow' e - branchFlow edges final e) d := by
        intro i e he
        rw [hd]
        simp only [he, Option.map_some, Option.getD_some]
      have hzero := hgrown.eq_zero (f := d) (fun i hi => hcovers i ?_) fun g hg _ => ?_
      · obtain ⟨edge, hedge, rfl⟩ := List.mem_map.mp he
        obtain ⟨i, hi⟩ := List.mem_iff_getElem?.mp hedge
        exact sub_eq_zero.mp ((hdiff i edge hi).symm.trans (hzero i))
      · by_contra hge
        have hnone : edges[i]? = none := by
          rw [ends, List.length_map] at hge
          exact List.getElem?_eq_none (not_lt.mp hge)
        refine hi ?_
        rw [hd]
        simp only [hnone, Option.map_none, Option.getD_none]
      · have hnode : g.node ∈ root :: nodes :=
          (hmem _).mpr (List.mem_cons_of_mem _ (List.mem_map_of_mem hg))
        rw [balance_branch hdiff, nodeBalance_sub]
        exact sub_eq_zero.mpr (hbalance g.node hnode) }

end RootedFlow

end Flownet

end Feldspar

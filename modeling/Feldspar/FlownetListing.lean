/-
Feldspar/FlownetListing.lean

When the listing order of a tree network does not matter.

Any listed node can come first, so the question is whether the flows from all
roots agree (`RootedFlow`).  They do unless a group of nodes is supplied by the
imposers with something: then its top is where the group meets the path from
the root, and with it the flows change; and a supply over the tolerance passes
only at a dead end.  That is so where no sum is rounded (`Unrounded`): a rounded
sum also depends on the order in which it is taken.
-/
import Feldspar.FlownetRounding

namespace Feldspar

namespace Flownet

section Numbers

variable {K : Type} [Field K] [LinearOrder K]

/-! ### The same branches in another order -/

section Perm

variable {net net' : List (Branch K)}

omit [Field K] [LinearOrder K] in
theorem linked_perm (h : net.Perm net') : Linked net = Linked net' := by
  unfold Linked
  congr 1
  funext u v
  refine propext (exists_congr fun e => ?_)
  rw [h.mem_iff]

omit [LinearOrder K] in
theorem supplied_perm (h : net.Perm net') (v : String) : supplied net v = supplied net' v := by
  unfold supplied
  rw [linked_perm h]
  exact (h.map _).sum_eq

omit [LinearOrder K] in
theorem nodeBalance_perm (h : net.Perm net') (flow : Branch K → K) (n : String) :
    nodeBalance net flow n = nodeBalance net' flow n := (h.map _).sum_eq

theorem length_incidentFrom (n : String) : ∀ (ends : List (String × String)) (k : ℕ),
    (Flow.incidentFrom n ends k).length
      = (ends.map fun e => (if e.1 = n then 1 else 0) + if e.2 = n then 1 else 0).sum
  | [], _ => rfl
  | (a, b) :: ends, k => by
      rw [Flow.incidentFrom, List.length_append, List.length_append, length_incidentFrom n ends,
        List.map_cons, List.sum_cons]
      congr 1
      congr 1 <;> split_ifs <;> rfl

omit [Field K] [LinearOrder K] in
theorem degree_perm (h : net.Perm net') (n : String) : degree net n = degree net' n := by
  unfold degree Flow.incident
  rw [length_incidentFrom, length_incidentFrom]
  exact ((h.map _).map _).sum_eq

omit [LinearOrder K] in
theorem RootedFlow.perm {nodes nodes' : List String} {root : String} {flow : Branch K → K}
    {top : String → String} (h : RootedFlow nodes net root flow top)
    (hnodes : nodes'.Perm nodes) (hnet : net'.Perm net) : RootedFlow nodes' net' root flow top where
  balance := fun v hv => by
    rw [nodeBalance_perm hnet, supplied_perm hnet]
    exact h.balance v (hnodes.mem_iff.mp hv)
  top_root := h.top_root
  top_mem := fun v hv => hnodes.mem_iff.mpr (h.top_mem v (hnodes.mem_iff.mp hv))
  top_top := fun v hv => h.top_top v (hnodes.mem_iff.mp hv)
  top_linked := fun v hv => by
    rw [linked_perm hnet]
    exact h.top_linked v (hnodes.mem_iff.mp hv)
  top_eq := fun huv => h.top_eq (linked_perm hnet ▸ huv)
  alone := fun v hv hne htop hdegree u huv =>
    h.alone v (hnodes.mem_iff.mp hv) hne htop (degree_perm hnet v ▸ hdegree)
      (linked_perm hnet ▸ huv)
  unique := fun hbalance e he => by
    refine h.unique (fun v hv => ?_) e (hnet.mem_iff.mp he)
    rw [← nodeBalance_perm hnet, ← nodeBalance_perm hnet]
    exact hbalance v (hnodes.mem_iff.mpr hv)

theorem topsBalanced_perm {tol : K} {nodes nodes' : List String} {top : String → String}
    (hnodes : nodes'.Perm nodes) (hnet : net'.Perm net) :
    TopsBalanced tol nodes' net' top ↔ TopsBalanced tol nodes net top := by
  unfold TopsBalanced
  refine forall_congr' fun v => ?_
  rw [hnodes.mem_iff, degree_perm hnet, supplied_perm hnet]

end Perm

/-! ### Two roots -/

omit [Field K] [LinearOrder K] in
theorem Linked.symm {net : List (Branch K)} {u v : String} (h : Linked net u v) :
    Linked net v u := by
  induction h with
  | refl => exact Relation.ReflTransGen.refl
  | tail _ hstep ih =>
      obtain ⟨e, he, hfixed, hends⟩ := hstep
      exact ih.head ⟨e, he, hfixed, hends.symm⟩

omit [LinearOrder K] in
/-- A group is supplied as a whole. -/
theorem supplied_congr {net : List (Branch K)} {u v : String} (h : Linked net u v) :
    supplied net u = supplied net v := by
  have hgroup : Linked net u = Linked net v := by
    funext w
    exact propext ⟨fun hw => h.symm.trans hw, fun hw => h.trans hw⟩
  rw [supplied, supplied, hgroup]

/-- The group of the node is supplied over the tolerance. -/
def Unbalanced (tol : K) (net : List (Branch K)) (v : String) : Prop := tol < |supplied net v|

/-- Nothing is supplied where a flow is to be found. -/
def Settled (net : List (Branch K)) : Prop := ∀ e ∈ net, e.fixed = none → supplied net e.a = 0

/-- An unbalanced group without a dead end. -/
def Unescapable (tol : K) (nodes : List String) (net : List (Branch K)) : Prop :=
  ∃ v ∈ nodes, Unbalanced tol net v ∧ ∀ u ∈ nodes, Linked net v u → 2 ≤ degree net u

/-- Two unbalanced groups, neither of them only a dead end. -/
def TwoUnbalanced (tol : K) (nodes : List String) (net : List (Branch K)) : Prop :=
  ∃ u ∈ nodes, ∃ v ∈ nodes, ¬ Linked net u v ∧ (2 ≤ degree net u ∧ Unbalanced tol net u) ∧
    2 ≤ degree net v ∧ Unbalanced tol net v

section Roots

variable {nodes : List String} {net : List (Branch K)} {root root' : String}
variable {flow flow' : Branch K → K} {top top' : String → String}

omit [Field K] [LinearOrder K] in
theorem Linked.mem (hlisted : ∀ e ∈ net, e.a ∈ nodes ∧ e.b ∈ nodes) {u v : String}
    (h : Linked net u v) (hu : u ∈ nodes) : v ∈ nodes := by
  induction h with
  | refl => exact hu
  | tail _ hstep ih =>
      obtain ⟨e, he, -, hends⟩ := hstep
      obtain ⟨ha, hb⟩ := hlisted e he
      rcases hends with hends | hends
      · exact (Prod.mk.inj hends).2 ▸ hb
      · exact (Prod.mk.inj hends).1 ▸ ha

omit [LinearOrder K] in
/-- A node of a supplied group has no group, if the network is settled. -/
theorem Settled.alone (h : Settled net) {v : String} (hv : supplied net v ≠ 0) {u : String}
    (hvu : Linked net v u) : u = v := by
  rcases Relation.ReflTransGen.cases_head hvu with heq | ⟨w, ⟨e, he, hfixed, hends⟩, -⟩
  · exact heq.symm
  · refine absurd ?_ hv
    rcases hends with hends | hends
    · rw [← (Prod.mk.inj hends).1]
      exact h e he hfixed
    · rw [← (Prod.mk.inj hends).2]
      rw [← supplied_congr (Relation.ReflTransGen.single ⟨e, he, hfixed, Or.inl rfl⟩)]
      exact h e he hfixed

/-- **A settled network** has the same flow from every root, and the same checks. -/
theorem Settled.flow_eq (hsettled : Settled net) (h : RootedFlow nodes net root flow top)
    (h' : RootedFlow nodes net root' flow' top') : ∀ e ∈ net, flow' e = flow e := by
  refine h.unique fun v hv => ?_
  rw [h.balance v hv, h'.balance v hv]
  by_cases hsupplied : supplied net v = 0
  · rw [hsupplied, ite_self, ite_self]
  · rw [if_pos (hsettled.alone hsupplied (h.top_linked v hv)),
      if_pos (hsettled.alone hsupplied (h'.top_linked v hv))]

variable [IsStrictOrderedRing K] {tol : K}

theorem Unbalanced.ne_zero (htol : 0 ≤ tol) {v : String} (h : Unbalanced tol net v) : supplied net v ≠ 0 := by
  intro hzero
  rw [Unbalanced, hzero, abs_zero] at h
  exact absurd h (not_lt.mpr htol)

theorem Settled.topsBalanced (htol : 0 ≤ tol) (hsettled : Settled net) (h : RootedFlow nodes net root flow top)
    (htops : TopsBalanced tol nodes net top) : TopsBalanced tol nodes net top' := by
  intro v hv _ hdegree
  by_contra hnot
  have hunbalanced : Unbalanced tol net v := not_le.mp hnot
  have htop := hsettled.alone (hunbalanced.ne_zero htol) (h.top_linked v hv)
  exact absurd (htops v hv htop hdegree) hnot

omit [IsStrictOrderedRing K] in
/-- An unbalanced group without a dead end fails from every root. -/
theorem Unescapable.not_topsBalanced (h : Unescapable tol nodes net)
    (hrooted : RootedFlow nodes net root flow top) : ¬ TopsBalanced tol nodes net top := by
  obtain ⟨v, hv, hunbalanced, hdegree⟩ := h
  intro htops
  have hlinked := hrooted.top_linked v hv
  have hmem := hrooted.top_mem v hv
  have htol := htops (top v) hmem (hrooted.top_top v hv) (hdegree _ hmem hlinked)
  rw [← supplied_congr hlinked] at htol
  exact absurd hunbalanced (not_lt.mpr htol)

omit [IsStrictOrderedRing K] in
/-- Away from the root an unbalanced group fails. -/
theorem RootedFlow.not_topsBalanced (hrooted : RootedFlow nodes net root flow top) {v : String}
    (hv : v ∈ nodes) (hroot : ¬ Linked net root v) (hdegree : 2 ≤ degree net v)
    (hunbalanced : Unbalanced tol net v) : ¬ TopsBalanced tol nodes net top := by
  intro htops
  have hlinked := hrooted.top_linked v hv
  have hmem := hrooted.top_mem v hv
  have htop := hrooted.top_top v hv
  have hne : top v ≠ root := fun heq => hroot (heq ▸ hlinked.symm)
  have htopDegree : 2 ≤ degree net (top v) := by
    by_contra hlt
    have heq := hrooted.alone (top v) hmem hne htop (not_le.mp hlt) hlinked.symm
    exact hlt (heq ▸ hdegree)
  have htol := htops (top v) hmem htop htopDegree
  rw [← supplied_congr hlinked] at htol
  exact absurd hunbalanced (not_lt.mpr htol)

omit [IsStrictOrderedRing K] in
theorem TwoUnbalanced.not_topsBalanced (h : TwoUnbalanced tol nodes net)
    (hrooted : RootedFlow nodes net root flow top) : ¬ TopsBalanced tol nodes net top := by
  obtain ⟨u, hu, v, hv, hapart, ⟨hudegree, huunbalanced⟩, hvdegree, hvunbalanced⟩ := h
  by_cases hroot : Linked net root u
  · refine hrooted.not_topsBalanced hv (fun hrootv => hapart ?_) hvdegree hvunbalanced
    exact hroot.symm.trans hrootv
  · exact hrooted.not_topsBalanced hu hroot hudegree huunbalanced

omit [IsStrictOrderedRing K] in
/-- From a dead end of the one unbalanced group the checks pass. -/
theorem RootedFlow.topsBalanced_of_dead_end (hrooted : RootedFlow nodes net root flow top)
    (hdead : degree net root < 2) {w : String} (hw : w ∈ nodes) (hroot : Linked net w root)
    (hdegree : 2 ≤ degree net w) (hunbalanced : Unbalanced tol net w)
    (hone : ¬ TwoUnbalanced tol nodes net) : TopsBalanced tol nodes net top := by
  intro v hv htop hvdegree
  by_contra hnot
  have hlinked : Linked net w v := by
    by_contra hapart
    exact hone ⟨w, hw, v, hv, hapart, ⟨hdegree, hunbalanced⟩, hvdegree, not_le.mp hnot⟩
  have heq := hrooted.top_eq (hroot.symm.trans hlinked)
  rw [hrooted.top_root, htop] at heq
  exact absurd hvdegree (not_le.mpr (heq ▸ hdead))

end Roots

end Numbers

/-! ### Relistings -/

section Relisting

variable {K : Type} [Arith K] {py : PyText K} {hyd : Hydraulics K}
variable {payload payload' : FlownetPayload K}

/-- The payload with its nodes and its edges in another order. -/
structure Relisted (payload payload' : FlownetPayload K) : Prop where
  nodes : payload'.nodes.Perm payload.nodes
  edges : payload'.edges.Perm payload.edges

/-- Both `Ok`, with the same flow on each edge, or both `Err`. -/
def SameOutcome : Except (HardyCrossError K) (List (Edge K)) →
    Except (HardyCrossError K) (List (Edge K)) → Prop
  | .ok edges, .ok edges' => edges.Perm edges'
  | .error e, .error e' => ¬ e.IsFault ∧ ¬ e'.IsFault
  | _, _ => False

/-- The outcome does not depend on the listing order. -/
def ListingFree (py : PyText K) (hyd : Hydraulics K) (payload : FlownetPayload K) : Prop :=
  ∀ payload', Relisted payload payload' → ∃ r r', Checked.HardyCrossSolve py hyd payload r ∧
    Checked.HardyCrossSolve py hyd payload' r' ∧ SameOutcome r r'

omit [Arith K] in
theorem Relisted.refl (payload : FlownetPayload K) : Relisted payload payload :=
  ⟨List.Perm.refl _, List.Perm.refl _⟩

theorem Relisted.branches (h : Relisted payload payload') :
    (payload'.branches py).Perm (payload.branches py) := h.edges.map _

omit [Arith K] in
theorem Relisted.isTree (h : Relisted payload payload')
    (htree : IsTree payload.nodes (payload.edges.map FlowEdge.ends)) :
    IsTree payload'.nodes (payload'.edges.map FlowEdge.ends) :=
  htree.perm h.nodes (h.edges.map _)

/-- Some node first. -/
def FlownetPayload.rootAt (payload : FlownetPayload K) (root : String) : FlownetPayload K :=
  { payload with nodes := root :: payload.nodes.erase root }

omit [Arith K] in
theorem relisted_rootAt {root : String} (h : root ∈ payload.nodes) :
    Relisted payload (payload.rootAt root) :=
  ⟨(List.perm_cons_erase h).symm, List.Perm.refl _⟩

theorem supported_of_ok {edges : List (Edge K)} (h : HardyCrossSolve py hyd payload (.ok edges)) :
    ∀ edge ∈ payload.edges, edge.Supported py := by
  intro edge hedge
  unfold HardyCrossSolve at h
  rcases hp : prepare py payload with e | p
  · rw [hp] at h
    cases h
  · obtain ⟨e, -, he⟩ := Fallible.exists_of_mem_left (prepare_edges hp).1 hedge
    exact succeeds_ofPayload.mp ⟨e, he⟩

theorem nodup_of_ok (htree : IsTree payload.nodes (payload.edges.map FlowEdge.ends))
    {edges : List (Edge K)} (h : HardyCrossSolve py hyd payload (.ok edges)) :
    payload.nodes.Nodup := by
  unfold HardyCrossSolve at h
  rcases hp : prepare py payload with e | p
  · rw [hp] at h
    cases h
  · obtain ⟨hbuilt, tree, hspanning⟩ := prepare_edges hp
    have hends := ends_ofPayload (Fallible.mapM_eq_ok.mpr hbuilt)
    rw [← hends] at htree
    by_contra hnodup
    rcases hnodes : payload.nodes with _ | ⟨root, rest⟩
    · exact hnodup (hnodes ▸ List.nodup_nil)
    · rw [hnodes] at htree hnodup hspanning
      rw [spanningTree_of_not_nodup htree hnodup] at hspanning
      cases hspanning

theorem solvable_of_reads (htree : IsTree payload.nodes (payload.edges.map FlowEdge.ends))
    (hreads : ∀ edge ∈ payload.edges, edge.Reads py) : payload.Solvable py where
  reads := by
    generalize payload.edges = edges at hreads
    induction edges with
    | nil => exact trivial
    | cons edge edges ih =>
        refine ⟨hreads edge List.mem_cons_self, fun _ => ih fun edge' hedge' => ?_⟩
        exact hreads edge' (List.mem_cons_of_mem edge hedge')
  listed := fun _ => ⟨htree.nonempty, fun edge hedge =>
    htree.listed edge.ends (List.mem_map_of_mem hedge)⟩

/-- An error of the solve is a `Result`, where every record is read. -/
theorem not_fault_of_reads (htree : IsTree payload.nodes (payload.edges.map FlowEdge.ends))
    (hreads : ∀ edge ∈ payload.edges, edge.Reads py) {e : HardyCrossError K}
    (h : HardyCrossSolve py hyd payload (.error e)) : ¬ e.IsFault := fun hfault =>
  (hardyCrossSolve_fault h).mp ⟨e, rfl, hfault⟩ (solvable_of_reads htree hreads)

/-- The edges built, in any order. -/
theorem mapM_relisted (h : Relisted payload payload') {edges : List (Edge K)}
    (hedges : payload.edges.mapM (Edge.ofPayload py) = .ok edges) : ∃ edges',
      payload'.edges.mapM (Edge.ofPayload py) = .ok edges' ∧ edges'.Perm edges := by
  have hsupported := Fallible.succeeds_mapM.mp ⟨edges, hedges⟩
  obtain ⟨edges', hedges'⟩ := Fallible.succeeds_mapM.mpr fun edge hedge =>
    hsupported edge (h.edges.mem_iff.mp hedge)
  refine ⟨edges', hedges', ?_⟩
  rw [Fallible.eq_filterMap_of_mapM hedges, Fallible.eq_filterMap_of_mapM hedges']
  exact h.edges.filterMap _

omit [Arith K] in
theorem withBranchFlows_perm {edges edges' : List (Edge K)} (h : edges'.Perm edges)
    {flow flow' : Branch K → K} (hflow : ∀ e ∈ edges.map Edge.branch, flow' e = flow e) :
    (withBranchFlows edges' flow').Perm (withBranchFlows edges flow) := by
  have hcongr : withBranchFlows edges flow = withBranchFlows edges flow' := by
    unfold withBranchFlows
    refine List.map_congr_left fun e he => ?_
    rw [hflow e.branch (List.mem_map_of_mem he)]
  rw [hcongr]
  exact h.map _

/-- A tree has no loop to correct. -/
theorem evaluable_of_isTree (htree : IsTree payload.nodes (payload.edges.map FlowEdge.ends)) :
    payload.Evaluable py hyd := by
  intro p hp s hs loop hloop
  obtain ⟨edges, hedges, hp⟩ := Fallible.bind_eq_ok.mp hp
  obtain ⟨tree, hspanning, hp⟩ := Fallible.bind_eq_ok.mp hp
  obtain ⟨flows, -, hp⟩ := Fallible.bind_eq_ok.mp hp
  obtain rfl := Except.ok.inj hp
  rw [← ends_ofPayload (Fallible.mapError_eq_ok.mp hedges)] at htree
  have hcovers := htree.covers (spanningTree_ok hspanning).grown fun v hv =>
    (spanningTree_perm hspanning).mem_iff.mpr hv
  have hmem : loop ∈ buildCycleBasis edges tree :=
    pending_of_reaches hs loop (List.mem_of_mem_head? hloop)
  rw [buildCycleBasis_of_covers tree hcovers] at hmem
  cases hmem

theorem checked_solve_of_isTree [FloatOrder K]
    (htree : IsTree payload.nodes (payload.edges.map FlowEdge.ends))
    (r : Except (HardyCrossError K) (List (Edge K))) :
    Checked.HardyCrossSolve py hyd payload r ↔ HardyCrossSolve py hyd payload r :=
  checked_solve_of_evaluable (evaluable_of_isTree htree) r

end Relisting

/-! ### When the order does not matter -/

section Listing

open FloatValue (Rounding Value)
open FloatValue.Value (Representable fin)

variable {R : Type} [Field R] [LinearOrder R] [IsStrictOrderedRing R] [Rounding R]
variable {py : PyText (Value R)} {hyd : Hydraulics (Value R)}
variable {payload payload' : FlownetPayload (Value R)}

/-- The flows from all roots agree, or none is returned. -/
def RootFree (py : PyText (Value R)) (payload : FlownetPayload (Value R)) : Prop :=
  payload.nodes.Nodup → (∀ edge ∈ payload.edges, edge.Supported py) →
    Settled (payload.exactBranches py) ∨
      Unescapable (floatTol R) payload.nodes (payload.exactBranches py) ∨
      TwoUnbalanced (floatTol R) payload.nodes (payload.exactBranches py)

/-- The solve does not sum up, or no sum is rounded. -/
def Unrounded (py : PyText (Value R)) (payload : FlownetPayload (Value R)) : Prop :=
  payload.nodes.Nodup → (∀ edge ∈ payload.edges, edge.Supported py) →
    SumsExact payload.nodes (payload.branches py)

omit [IsStrictOrderedRing R] in
theorem SumsExact.perm {nodes nodes' : List String} {net net' : List (Branch (Value R))}
    (h : SumsExact nodes net) (hnodes : nodes'.Perm nodes) (hnet : net'.Perm net) :
    SumsExact nodes' net' where
  numbers e he := h.numbers e (hnet.mem_iff.mp he)
  sums root flow top hrooted n l hl := by
    have hexact : (net'.map Branch.exact).Perm (net.map Branch.exact) := hnet.map _
    exact h.sums root flow top (hrooted.perm hnodes.symm hexact.symm) n l
      (hexact.subperm_left.mp hl)

omit [IsStrictOrderedRing R] in
theorem Relisted.exactBranches (h : Relisted payload payload') :
    (payload'.exactBranches py).Perm (payload.exactBranches py) := h.branches.map _

/-- The solve of a relisted tree, in terms of the tree. -/
theorem solve_relisted (hyd : Hydraulics (Value R))
    (htree : IsTree payload.nodes (payload.edges.map FlowEdge.ends))
    (hnodup : payload.nodes.Nodup) (hsums : SumsExact payload.nodes (payload.branches py))
    {edges : List (Edge (Value R))} (hedges : payload.edges.mapM (Edge.ofPayload py) = .ok edges)
    (h : Relisted payload payload') {root : String} {rest : List String}
    (hnodes : payload'.nodes = root :: rest) : ∃ edges' flow top, edges'.Perm edges ∧
      RootedFlow payload.nodes (payload.exactBranches py) root flow top ∧
      (TopsBalanced (floatTol R) payload.nodes (payload.exactBranches py) top →
        HardyCrossSolve py hyd payload'
          (.ok (withBranchFlows edges' fun e => fin (flow e.exact)))) ∧
      (¬ TopsBalanced (floatTol R) payload.nodes (payload.exactBranches py) top →
        ∃ feature, HardyCrossSolve py hyd payload' (.error (.outOfDomain feature))) := by
  obtain ⟨edges', hedges', hperm⟩ := mapM_relisted h hedges
  obtain ⟨flow, top, hrooted, hsolve⟩ := solve_rooted hyd hnodes
    (h.nodes.nodup_iff.mpr hnodup) (h.isTree htree) hedges' (hsums.perm h.nodes h.branches)
  refine ⟨edges', flow, top, hperm, hrooted.perm h.nodes.symm h.exactBranches.symm, ?_⟩
  rwa [topsBalanced_perm h.nodes h.exactBranches] at hsolve

/-- A node's balance, read off the solved edges. -/
def solvedBalance (edges : List (Edge (Value R))) (n : String) : R :=
  (edges.map fun e => (Flow.endCoef (e.a, e.b) n : R) * e.flow.number).sum

omit [LinearOrder R] [IsStrictOrderedRing R] [Rounding R] in
theorem solvedBalance_withBranchFlows (edges : List (Edge (Value R))) (flow : Branch R → R)
    (n : String) : solvedBalance (withBranchFlows edges fun e => fin (flow e.exact)) n
      = nodeBalance ((edges.map Edge.branch).map Branch.exact) flow n := by
  rw [solvedBalance, withBranchFlows, nodeBalance, List.map_map, List.map_map, List.map_map]
  rfl

theorem ListingFree.reads (htree : IsTree payload.nodes (payload.edges.map FlowEdge.ends))
    (h : ListingFree py hyd payload) : ∀ edge ∈ payload.edges, edge.Reads py := by
  intro edge hedge
  by_contra hnot
  -- listed first, the record is raised on before another is refused
  obtain ⟨before, after, hsplit⟩ := List.append_of_mem hedge
  set payload' : FlownetPayload (Value R) := { payload with edges := edge :: (before ++ after) } with hp
  have hrelisted : Relisted payload payload' :=
    ⟨List.Perm.refl _, hsplit ▸ List.perm_middle.symm⟩
  obtain ⟨r, r', -, hr', hsame⟩ := h payload' hrelisted
  rw [checked_solve_of_isTree (hrelisted.isTree htree)] at hr'
  have hunsolvable : ¬ payload'.Solvable py := fun hs => hnot hs.reads.1
  obtain ⟨e, rfl, hfault⟩ := (hardyCrossSolve_fault hr').mpr hunsolvable
  rcases r with e' | edges
  · exact hsame.2 hfault
  · exact hsame

/-- Where the order does not matter, it does not matter which node is first. -/
theorem ListingFree.rootAt (htree : IsTree payload.nodes (payload.edges.map FlowEdge.ends))
    (h : ListingFree py hyd payload) {root root' : String} (hroot : root ∈ payload.nodes) (hroot' : root' ∈ payload.nodes)
    {r r' : Except (HardyCrossError (Value R)) (List (Edge (Value R)))}
    (hr : HardyCrossSolve py hyd (payload.rootAt root) r)
    (hr' : HardyCrossSolve py hyd (payload.rootAt root') r') : SameOutcome r r' := by
  obtain ⟨r₀, r₁, h₀, h₁, hsame⟩ := h _ (relisted_rootAt hroot)
  obtain ⟨r₀', r₁', h₀', h₁', hsame'⟩ := h _ (relisted_rootAt hroot')
  rw [checked_solve_of_isTree htree] at h₀ h₀'
  rw [checked_solve_of_isTree ((relisted_rootAt hroot).isTree htree)] at h₁
  rw [checked_solve_of_isTree ((relisted_rootAt hroot').isTree htree)] at h₁'
  obtain rfl := hardyCrossSolve_unique h₀ h₀'
  obtain rfl := hardyCrossSolve_unique h₁ hr
  obtain rfl := hardyCrossSolve_unique h₁' hr'
  rcases r₀ with e₀ | edges₀ <;> rcases r₁ with e | edges <;> rcases r₁' with e' | edges'
  · exact ⟨hsame.2, hsame'.2⟩
  all_goals first | exact hsame.elim | exact hsame'.elim | skip
  exact hsame.symm.trans hsame'

omit [IsStrictOrderedRing R] in
theorem IsTree.listed_branches (h : IsTree payload.nodes (payload.edges.map FlowEdge.ends)) :
    ∀ e ∈ payload.exactBranches py, e.a ∈ payload.nodes ∧ e.b ∈ payload.nodes := by
  intro e he
  obtain ⟨branch, hbranch, rfl⟩ := List.mem_map.mp he
  obtain ⟨edge, hedge, rfl⟩ := List.mem_map.mp hbranch
  exact h.listed edge.ends (List.mem_map_of_mem hedge)

/-- Where the order does not matter, the flows from all roots agree. -/
theorem ListingFree.rootFree (htree : IsTree payload.nodes (payload.edges.map FlowEdge.ends))
    (hsums : Unrounded py payload) (h : ListingFree py hyd payload) : RootFree py payload := by
  intro hnodup hsupported
  by_contra hnot
  obtain ⟨hsettled, hnot⟩ := not_or.mp hnot
  obtain ⟨hescape, hone⟩ := not_or.mp hnot
  obtain ⟨edges, hedges⟩ : Fallible.Succeeds (payload.edges.mapM (Edge.ofPayload py)) :=
    Fallible.succeeds_mapM.mpr fun edge hedge => succeeds_ofPayload.mpr (hsupported edge hedge)
  have hsolve : ∀ root ∈ payload.nodes, ∃ edges' flow top, edges'.Perm edges ∧
      RootedFlow payload.nodes (payload.exactBranches py) root flow top ∧
      (TopsBalanced (floatTol R) payload.nodes (payload.exactBranches py) top →
        HardyCrossSolve py hyd (payload.rootAt root) 
          (.ok (withBranchFlows edges' fun e => fin (flow e.exact)))) ∧
      (¬ TopsBalanced (floatTol R) payload.nodes (payload.exactBranches py) top →
        ∃ feature, HardyCrossSolve py hyd (payload.rootAt root) (.error (.outOfDomain feature))) :=
    fun root hroot =>
      solve_relisted hyd htree hnodup (hsums hnodup hsupported) hedges (relisted_rootAt hroot) rfl
  by_cases hbad : ∃ w ∈ payload.nodes, 2 ≤ degree (payload.exactBranches py) w ∧
      Unbalanced (floatTol R) (payload.exactBranches py) w
  · -- one unbalanced group: a dead end of it passes, and `w` does not
    obtain ⟨w, hw, hdegree, hunbalanced⟩ := hbad
    obtain ⟨u, hu, hlinked, hdead⟩ : ∃ u ∈ payload.nodes,
        Linked (payload.exactBranches py) w u ∧ degree (payload.exactBranches py) u < 2 := by
      by_contra hnone
      refine hescape ⟨w, hw, hunbalanced, fun u hu hlinked => ?_⟩
      by_contra hlt
      exact hnone ⟨u, hu, hlinked, not_le.mp hlt⟩
    obtain ⟨_, flow, top, -, hrooted, hok, -⟩ := hsolve u hu
    obtain ⟨_, flow', top', -, hrooted', -, herror⟩ := hsolve w hw
    have htops := hrooted.topsBalanced_of_dead_end hdead hw hlinked hdegree hunbalanced hone
    have htops' : ¬ TopsBalanced (floatTol R) payload.nodes (payload.exactBranches py) top' := fun htops' =>
      absurd hunbalanced (not_lt.mpr (htops' w hw hrooted'.top_root hdegree))
    obtain ⟨feature, herror⟩ := herror htops'
    exact h.rootAt htree hu hw (hok htops) herror
  · -- the checks pass from every root, but the two ends of `e` leave different nodes unbalanced
    have htops : ∀ top, TopsBalanced (floatTol R) payload.nodes (payload.exactBranches py) top := by
      intro top v hv _ hdegree
      by_contra hnot
      exact hbad ⟨v, hv, hdegree, not_le.mp hnot⟩
    obtain ⟨e, he, hunsettled⟩ := not_forall₂.mp hsettled
    obtain ⟨hfixed, hsupplied⟩ := Classical.not_imp.mp hunsettled
    obtain ⟨ha, hb⟩ := htree.listed_branches e he
    have hne : e.a ≠ e.b := by
      obtain ⟨branch, hbranch, rfl⟩ := List.mem_map.mp he
      obtain ⟨edge, hedge, rfl⟩ := List.mem_map.mp hbranch
      exact htree.ends_ne edge.ends (List.mem_map_of_mem hedge)
    obtain ⟨edges₁, flow, top, hperm, hrooted, hok, -⟩ := hsolve e.a ha
    obtain ⟨edges₂, flow', top', hperm', hrooted', hok', -⟩ := hsolve e.b hb
    have hsame : (withBranchFlows edges₁ fun e => fin (flow e.exact)).Perm
        (withBranchFlows edges₂ fun e => fin (flow' e.exact)) :=
      h.rootAt htree ha hb (hok (htops top)) (hok' (htops top'))
    have hbalance : nodeBalance (payload.exactBranches py) flow e.a
        = nodeBalance (payload.exactBranches py) flow' e.a := by
      have hsum : solvedBalance (withBranchFlows edges₁ fun e => fin (flow e.exact)) e.a
          = solvedBalance (withBranchFlows edges₂ fun e => fin (flow' e.exact)) e.a :=
        (hsame.map _).sum_eq
      rw [solvedBalance_withBranchFlows, solvedBalance_withBranchFlows,
        nodeBalance_perm ((hperm.map _).map _), nodeBalance_perm ((hperm'.map _).map _)] at hsum
      rwa [branches_ofPayload hedges] at hsum
    have hlinked : Linked (payload.exactBranches py) e.a e.b :=
      Relation.ReflTransGen.single ⟨e, he, hfixed, Or.inl rfl⟩
    have htop' : top' e.a ≠ e.a := by
      rw [hrooted'.top_eq hlinked, hrooted'.top_root]
      exact hne.symm
    rw [hrooted.balance _ ha, hrooted'.balance _ ha, if_pos hrooted.top_root, if_neg htop']
      at hbalance
    exact hsupplied hbalance

end Listing

/-! ### Two chains -/

section Chains

theorem isTree_chain : IsTree ["a", "b", "c"] [("a", "b"), ("b", "c")] where
  nonempty := List.cons_ne_nil _ _
  listed := by decide
  connected := by
    have hab : Flow.Grouped (fun _ => True) [("a", "b"), ("b", "c")] "a" "b" :=
      Relation.ReflTransGen.single ⟨0, trivial, Or.inl rfl⟩
    have hbc : Flow.Grouped (fun _ => True) [("a", "b"), ("b", "c")] "b" "c" :=
      Relation.ReflTransGen.single ⟨1, trivial, Or.inl rfl⟩
    have hroot : ∀ v ∈ ["a", "b", "c"],
        Flow.Grouped (fun _ => True) [("a", "b"), ("b", "c")] "b" v := by
      intro v hv
      rcases List.mem_cons.mp hv with rfl | hv
      · exact hab.symm
      · rcases List.mem_cons.mp hv with rfl | hv
        · exact Relation.ReflTransGen.refl
        · rw [List.mem_singleton.mp hv]
          exact hbc
    exact fun u hu v hv => (hroot u hu).symm.trans (hroot v hv)
  acyclic := by
    -- without its edge the first node and the last one have no neighbor
    have hstuck : ∀ {e : String × String} {u v : String}, u ≠ e.1 → u ≠ e.2 →
        Flow.Grouped (fun _ => True) [e] u v → v = u := by
      intro e u v hne₁ hne₂ h
      rcases Relation.ReflTransGen.cases_head h with heq | ⟨w, hstep, -⟩
      · exact heq.symm
      · rcases freeStep_true.mp hstep with hmem | hmem
        · exact absurd (congrArg Prod.fst (List.mem_singleton.mp hmem)) hne₁
        · exact absurd (congrArg Prod.snd (List.mem_singleton.mp hmem)) hne₂
    rintro (_ | ⟨x, _ | ⟨y, before⟩⟩) e after hsplit h
    · obtain ⟨rfl, rfl⟩ := List.cons.inj hsplit
      exact absurd (hstuck (by decide) (by decide) h) (by decide)
    · obtain ⟨rfl, hrest⟩ := List.cons.inj hsplit
      obtain ⟨rfl, rfl⟩ := List.cons.inj hrest
      exact absurd (hstuck (by decide) (by decide) h.symm) (by decide)
    · cases before with
      | nil => cases hsplit
      | cons z before => cases hsplit

open FloatValue (Value)

def twoSegments : FlownetPayload (Value ℚ) :=
  { nodes := ["a", "b", "c"]
    edges := [segmentEdge "one" "a" "b" 1.0, segmentEdge "two" "b" "c" 1.0] }

/-- A dead end, and an imposer that nothing balances. -/
def deadEnd : FlownetPayload (Value ℚ) :=
  { nodes := ["a", "b", "c"]
    edges := [segmentEdge "one" "a" "b" 1.0, imposerEdge "drain" "b" "c" 1.0] }

end Chains

end Flownet

end Feldspar

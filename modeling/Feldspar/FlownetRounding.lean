/-
Feldspar/FlownetRounding.lean

The solve of a tree network over floats.

The seed sums up the flows at a node in the order of the edges, and rounds.
Where no sum of flows at a node is rounded (`SumsExact`), it is the seed over
numbers:

    seedWithin (fin tol) edges tree = liftSeed (seedWithin tol (edges.map exact) tree)

and so the flows of the solve are those from the root (`solve_rooted`).
-/
import Feldspar.FlownetRooting
import Feldspar.FlownetTotality

namespace Feldspar

namespace Flownet

open FloatValue (Rounding Value)
open FloatValue.Value (Representable fin)

/-! ### The branches of a payload -/

section Payload

variable {K : Type} [Arith K] {py : PyText K} {payload : FlownetPayload K} {edges : List (Edge K)}

def FlowEdge.ends (edge : FlowEdge K) : String × String := (edge.a, edge.b)

/-- The branch, read off the payload. -/
def FlowEdge.branch (py : PyText K) (edge : FlowEdge K) : Branch K :=
  { a := edge.a
    b := edge.b
    fixed := if edge.kind = "imposer" then (param py edge.values "flow_rate").toOption else none }

/-- The branches of a payload. -/
def FlownetPayload.branches (py : PyText K) (payload : FlownetPayload K) : List (Branch K) :=
  payload.edges.map (FlowEdge.branch py)

theorem branch_ofPayload {edge : FlowEdge K} {e : Edge K} (h : Edge.ofPayload py edge = .ok e) :
    e.branch = edge.branch py := by
  obtain ⟨hbuilt, ⟨hkind, hunknown⟩ | ⟨hkind, hknown, hflow⟩⟩ := ofPayload_ok h
  · rw [Edge.branch, FlowEdge.branch, hbuilt.a, hbuilt.b, if_pos hunknown, if_neg hkind]
  · rw [Edge.branch, FlowEdge.branch, hbuilt.a, hbuilt.b, hknown, if_pos hkind, hflow]
    rfl

theorem branches_ofPayload (h : payload.edges.mapM (Edge.ofPayload py) = .ok edges) :
    edges.map Edge.branch = payload.branches py := by
  have hbuilt := Fallible.mapM_eq_ok.mp h
  rw [FlownetPayload.branches, ← List.forall₂_eq_eq_eq, List.forall₂_map_left_iff,
    List.forall₂_map_right_iff]
  exact hbuilt.flip.imp fun e edge he => branch_ofPayload he

theorem ends_ofPayload (h : payload.edges.mapM (Edge.ofPayload py) = .ok edges) :
    ends edges = payload.edges.map FlowEdge.ends := by
  rw [← map_branch_ends, branches_ofPayload h, FlownetPayload.branches, List.map_map]
  rfl

omit [Arith K] in
/-- Where every edge is in the spanning tree there is no loop. -/
theorem buildCycleBasis_of_covers (tree : SpanningTree)
    (hcovers : Flow.Covers (ends edges) tree.found) : buildCycleBasis edges tree = [] := by
  rw [buildCycleBasis, List.map_eq_nil_iff, List.filter_eq_nil_iff]
  rintro ⟨e, i⟩ he
  have hi : i < (ends edges).length := by
    have hlt := (List.getElem?_eq_some_iff.mp (List.mem_zipIdx_iff_getElem?.mp he)).1
    rwa [ends, List.length_map]
  rw [decide_eq_true_eq, not_not]
  exact hcovers i hi

end Payload

/-! ### Sums at a node -/

section Sums

variable {R : Type} [Field R]

/-- The branch with the number of its flow. -/
def Branch.exact (e : Branch (Value R)) : Branch R :=
  { a := e.a, b := e.b, fixed := e.fixed.map Value.number }

theorem branch_exact (e : Edge (Value R)) : e.exact.branch = e.branch.exact := by
  unfold Edge.branch Branch.exact
  cases hunknown : e.kind.isUnknown with
  | true => simp [Edge.exact, hunknown]
  | false => simp [Edge.exact, hunknown]

theorem map_branch_exact (edges : List (Edge (Value R))) :
    (edges.map Edge.exact).map Edge.branch = (edges.map Edge.branch).map Branch.exact := by
  rw [List.map_map, List.map_map]
  exact List.map_congr_left fun e _ => branch_exact e

theorem coef_of_mem_incidentFrom {n : String} {p : ℕ × ℤ} :
    ∀ {ends : List (String × String)} {k : ℕ}, (∀ e ∈ ends, e.1 ≠ e.2) →
      p ∈ Flow.incidentFrom n ends k → ∃ e, ends[p.1 - k]? = some e ∧ k ≤ p.1 ∧
        Flow.endCoef e n = p.2
  | [], _, _, h => absurd h List.not_mem_nil
  | (a, b) :: ends, k, hne, h => by
      have hab : a ≠ b := hne (a, b) List.mem_cons_self
      rw [Flow.incidentFrom, List.mem_append, List.mem_append] at h
      rcases h with (h | h) | h
      · split_ifs at h with ha
        · obtain rfl := List.mem_singleton.mp h
          subst ha
          exact ⟨(a, b), by simp, le_rfl, by simp [Flow.endCoef, hab.symm]⟩
        · exact absurd h List.not_mem_nil
      · split_ifs at h with hb
        · obtain rfl := List.mem_singleton.mp h
          subst hb
          exact ⟨(a, b), by simp, le_rfl, by simp [Flow.endCoef, hab]⟩
        · exact absurd h List.not_mem_nil
      · obtain ⟨e, he, hk, hcoef⟩ :=
          coef_of_mem_incidentFrom (fun e he => hne e (List.mem_cons_of_mem _ he)) h
        refine ⟨e, ?_, by omega, hcoef⟩
        rw [show p.1 - k = p.1 - (k + 1) + 1 by omega, List.getElem?_cons_succ]
        exact he

/-- Without an edge from a node to itself, the sign is that of the edge. -/
theorem coef_of_mem_incident {ends : List (String × String)} (hne : ∀ e ∈ ends, e.1 ≠ e.2)
    {n : String} {p : ℕ × ℤ} (hp : p ∈ Flow.incident ends n) : Flow.coef ends n p.1 = p.2 := by
  obtain ⟨e, he, -, hcoef⟩ := coef_of_mem_incidentFrom hne hp
  rw [Nat.sub_zero] at he
  rw [Flow.coef, he]
  exact hcoef

/-- Some of the edges of a node are some of the branches. -/
theorem exists_sublist_branches {flows : Flows R} {flow : Branch R → R} {n : String} :
    ∀ {net : List (Branch R)} {k : ℕ} {chain : List (ℕ × ℤ)}, (∀ e ∈ net, e.a ≠ e.b) →
      (∀ i e, net[i]? = some e → flows (k + i) = flow e) →
      chain.Sublist (Flow.incidentFrom n (net.map Branch.ends) k) →
      ∃ l : List (Branch R), l.Sublist net ∧ Flow.along chain flows = nodeBalance l flow n
  | [], k, chain, _, _, hchain => by
      obtain rfl := List.sublist_nil.mp hchain
      exact ⟨[], List.Sublist.refl [], rfl⟩
  | e :: net, k, chain, hne, hflows, hchain => by
      obtain ⟨c, rest, rfl, hc, hrest⟩ := List.sublist_append_iff.mp hchain
      obtain ⟨l, hl, hsum⟩ := exists_sublist_branches
        (fun e' he' => hne e' (List.mem_cons_of_mem e he'))
        (fun i e' he' => by rw [add_assoc, add_comm 1 i]; exact hflows (i + 1) e' he') hrest
      have hab : e.a ≠ e.b := hne e List.mem_cons_self
      have hfirst : flows k = flow e := hflows 0 e rfl
      -- the edge is left out, or it is the one end of an edge here
      have hcases : c = [] ∨ c = [(k, Flow.endCoef e.ends n)] := by
        have hends : ((if e.a = n then [(k, -1)] else []) ++ if e.b = n then [(k, 1)] else [] :
            List (ℕ × ℤ)).Sublist [(k, Flow.endCoef e.ends n)] := by
          unfold Flow.endCoef Branch.ends
          by_cases ha : e.a = n
          · have hb : e.b ≠ n := fun hb => hab (ha.trans hb.symm)
            simp [ha, hb]
          · by_cases hb : e.b = n
            · simp [ha, hb]
            · simp [ha, hb]
        rcases List.sublist_singleton.mp (hc.trans hends) with h | h
        · exact Or.inl h
        · exact Or.inr h
      rcases hcases with rfl | rfl
      · exact ⟨l, hl.cons e, by rw [List.nil_append, hsum]⟩
      · refine ⟨e :: l, hl.cons_cons e, ?_⟩
        rw [Flow.along_append, hsum, Flow.along, List.map_singleton, List.sum_singleton, hfirst,
          nodeBalance, nodeBalance, List.map_cons, List.sum_cons]

end Sums

/-! ### The seed -/

section Seed

variable {R : Type} [Field R] [LinearOrder R] [IsStrictOrderedRing R] [Rounding R]
variable {edges : List (Edge (Value R))} {tol : R} {root : String}
variable {found : List (Flow.Found String)} {start final : Flows R}

/-- One node of the seed over floats. -/
theorem seedNode_rooted_fin (hgrown : Flow.Grown (ends edges) root found)
    (hcovers : Flow.Covers (ends edges) found) (hne : ∀ e ∈ ends edges, e.1 ≠ e.2)
    (hfinal : FinalFlows (edges.map Edge.exact) found start final)
    (hsums : ∀ n, SumsFit final (Flow.incident (ends edges) n))
    {done rest : List (Flow.Found String)} {g : Flow.Found String}
    (hsplit : found = rest ++ g :: done.reverse) {flows : Flows R}
    (hflows : SeededSoFar (edges.map Edge.exact) start final done flows) :
    seedNode (fin tol) edges (finFlows flows) g
      = liftSeed (seedNode tol (edges.map Edge.exact) flows g) := by
  have hgrown' := hgrown
  have hcovers' := hcovers
  rw [← ends_exact] at hgrown' hcovers'
  obtain ⟨-, hparent, hnode, hjoins⟩ := hgrown.split hsplit
  have hsign := signHere_eq hjoins (Flow.parent_ne_node hparent hnode)
  set others := (Flow.incident (ends edges) g.node).filter fun p => p.1 ≠ g.edge with hothers
  -- the other edges of the node have their final flows
  have hfinals : ∀ p ∈ others, flows p.1 = final p.1 := by
    intro p hp
    obtain ⟨hp, hother⟩ := List.mem_filter.mp hp
    have hcoef := coef_of_mem_incident hne hp
    refine flows_rooted hgrown' hcovers' hfinal hsplit hflows (of_decide_eq_true hother) ?_
    rw [ends_exact, hcoef]
    rcases sign_of_mem_incident p hp with h | h <;> rw [h] <;> decide
  refine seedNode_fin (fun l hl => ?_) fun hknown => ?_
  · have hsame : Flow.along l flows = Flow.along l final := by
      unfold Flow.along
      exact congrArg _ (List.map_congr_left fun p hp => by rw [hfinals p (hl.subset hp)])
    rw [hsame]
    exact hsums g.node l (hl.trans List.filter_sublist)
  · rw [← isUnknownAt_exact] at hknown
    have hrequired := required_rooted hgrown' hcovers' hfinal hsplit hflows hknown rfl
    rw [ends_exact, ← Flow.along_filter_ne, ← hsign] at hrequired
    rw [hrequired]
    have hbalance : Representable (Flow.balance (ends edges) final g.node) :=
      hsums g.node _ (List.Sublist.refl _)
    split_ifs
    · rw [Int.cast_neg, Int.cast_one, neg_neg, one_mul]
      exact hbalance
    · rw [Int.cast_one, neg_mul, one_mul]
      exact hbalance.neg

/-- The nodes from `l` on. -/
theorem seedNodes_rooted_fin (hgrown : Flow.Grown (ends edges) root found)
    (hcovers : Flow.Covers (ends edges) found) (hne : ∀ e ∈ ends edges, e.1 ≠ e.2)
    (hfinal : FinalFlows (edges.map Edge.exact) found start final)
    (hsums : ∀ n, SumsFit final (Flow.incident (ends edges) n)) :
    ∀ {l done : List (Flow.Found String)} {flows : Flows R}, found.reverse = done ++ l →
      SeededSoFar (edges.map Edge.exact) start final done flows →
      l.foldlM (seedNode (fin tol) edges) (finFlows flows)
        = liftSeed (l.foldlM (seedNode tol (edges.map Edge.exact)) flows)
  | [], _, _, _, _ => rfl
  | g :: l, done, flows, hreverse, h => by
      have hsplit : found = l.reverse ++ g :: done.reverse := by
        rw [← List.reverse_reverse found, hreverse]
        simp
      have hgrown' := hgrown
      have hcovers' := hcovers
      rw [← ends_exact] at hgrown' hcovers'
      rw [List.foldlM_cons, List.foldlM_cons,
        seedNode_rooted_fin hgrown hcovers hne hfinal hsums hsplit h]
      rcases hstep : seedNode tol (edges.map Edge.exact) flows g with e | flows'
      · rfl
      · have hnext : found.reverse = (done ++ [g]) ++ l := by
          rw [hreverse, List.append_assoc]
          rfl
        exact seedNodes_rooted_fin hgrown hcovers hne hfinal hsums hnext
          (seedNode_rooted_ok hgrown' hcovers' hfinal hsplit h hstep)

/-- **The seed of a tree over floats**, where no sum at a node is rounded. -/
theorem seed_rooted_fin (htol : 0 ≤ tol) (tree : SpanningTree)
    (hgrown : Flow.Grown (ends edges) tree.root tree.found)
    (hcovers : Flow.Covers (ends edges) tree.found) (hne : ∀ e ∈ ends edges, e.1 ≠ e.2)
    (hnumbers : ∀ e ∈ edges, e.flow.IsNumber)
    (hfinal : FinalFlows (edges.map Edge.exact) tree.found
      (chordSeeds (edges.map Edge.exact) tree) final)
    (hsums : ∀ n, SumsFit final (Flow.incident (ends edges) n)) :
    (Balanced tol (edges.map Edge.exact) tree.found tree.root final →
      seedWithin (fin tol) edges tree = .ok (finFlows final)) ∧
    (¬ Balanced tol (edges.map Edge.exact) tree.found tree.root final →
      ∃ feature, seedWithin (fin tol) edges tree = .error (.outOfDomain feature)) := by
  have hgrown' := hgrown
  have hcovers' := hcovers
  rw [← ends_exact] at hgrown' hcovers'
  have hchords : chordSeeds edges tree = finFlows (chordSeeds (edges.map Edge.exact) tree) := by
    refine chordSeeds_fin hnumbers fun i hunknown hchord => absurd (hcovers i ?_) hchord
    by_contra hge
    rw [ends, List.length_map] at hge
    rw [isUnknownAt, List.getElem?_eq_none (not_lt.mp hge)] at hunknown
    cases hunknown
  have hstart : SeededSoFar (edges.map Edge.exact) (chordSeeds (edges.map Edge.exact) tree) final []
      (chordSeeds (edges.map Edge.exact) tree) :=
    ⟨fun g hg => absurd hg List.not_mem_nil, fun _ _ => rfl⟩
  have hlift : seedWithin (fin tol) edges tree
      = liftSeed (seedWithin tol (edges.map Edge.exact) tree) := by
    refine seedWithin_fin_of_steps hchords (seedNodes_rooted_fin hgrown hcovers hne hfinal hsums
      (List.nil_append tree.found.reverse).symm hstart) fun f hf => ?_
    have hseeded := seedNodes_rooted_ok hgrown' hcovers' hfinal
      (List.nil_append tree.found.reverse).symm hstart hf
    rw [List.nil_append] at hseeded
    rw [hseeded.eq_final hfinal]
    exact hsums tree.root
  obtain ⟨hok, herror⟩ := seed_rooted htol tree hgrown' hcovers' hfinal
  rw [hlift]
  refine ⟨fun h => by rw [hok h]; rfl, fun h => ?_⟩
  obtain ⟨feature, hfeature⟩ := herror h
  exact ⟨feature, by rw [hfeature]; rfl⟩

end Seed

/-! ### The solve -/

section Solve

variable {R : Type} [Field R] [LinearOrder R] [IsStrictOrderedRing R] [Rounding R]

/-- The imposers' flows are numbers, and no sum of some of the flows at a node is
rounded, whichever root they are counted from. -/
structure SumsExact (nodes : List String) (net : List (Branch (Value R))) : Prop where
  numbers : ∀ e ∈ net, ∀ v ∈ e.fixed, v.IsNumber
  sums : ∀ root flow top, RootedFlow nodes (net.map Branch.exact) root flow top →
    ∀ n l, l.Subperm (net.map Branch.exact) → Representable (nodeBalance l flow n)

/-- The tolerance as a number. -/
def floatTol (R : Type) [Field R] [LinearOrder R] [Rounding R] : R :=
  (conservationTol : Value R).number

theorem floatTol_spec : 0 ≤ floatTol R ∧ (conservationTol : Value R) = fin (floatTol R) := by
  have hscale : (1 : R) ≤ 1e-9 * 10 ^ 12 := by norm_num
  obtain ⟨y, hy, heq⟩ := Value.exists_round_pos hscale (by norm_num)
  have htol : (conservationTol : Value R) = fin y := heq
  rw [floatTol, htol]
  exact ⟨hy.le, rfl⟩

theorem hcTol_pos : Arith.lt (fin 0) (hcTol : Value R) := by
  have hscale : (1 : R) ≤ 1e-6 * 10 ^ 12 := by norm_num
  obtain ⟨y, hy, heq⟩ := Value.exists_round_pos hscale (by norm_num)
  have htol : (hcTol : Value R) = fin y := heq
  rw [htol]
  exact Value.lt_iff.mpr hy

variable {edges : List (Edge (Value R))}

omit [IsStrictOrderedRing R] in
/-- The sums of the flows at a node are not rounded. -/
theorem SumsExact.sumsFit {nodes : List String} {root : String} {flow : Branch R → R}
    {top : String → String} {final : Flows R} (h : SumsExact nodes (edges.map Edge.branch))
    (hrooted : RootedFlow nodes ((edges.map Edge.branch).map Branch.exact) root flow top)
    (hflows : FlowsOf (edges.map Edge.exact) flow final) (hne : ∀ e ∈ ends edges, e.1 ≠ e.2)
    (n : String) : SumsFit final (Flow.incident (ends edges) n) := by
  intro chain hchain
  have hnet : ∀ e ∈ (edges.map Edge.branch).map Branch.exact, e.a ≠ e.b := by
    intro e he
    rw [List.map_map] at he
    obtain ⟨edge, hedge, rfl⟩ := List.mem_map.mp he
    exact hne (edge.a, edge.b) (List.mem_map_of_mem hedge)
  have hends : ((edges.map Edge.branch).map Branch.exact).map Branch.ends = ends edges := by
    rw [← map_branch_exact, map_branch_ends, ends_exact]
  rw [← hends] at hchain
  have hbranches : ∀ i e, ((edges.map Edge.branch).map Branch.exact)[i]? = some e →
      final (0 + i) = flow e := by
    intro i e he
    rw [← map_branch_exact, List.getElem?_map] at he
    obtain ⟨edge, hedge, rfl⟩ := Option.map_eq_some_iff.mp he
    rw [Nat.zero_add]
    exact hflows i edge hedge
  obtain ⟨l, hl, hsum⟩ := exists_sublist_branches hnet hbranches hchain
  rw [hsum]
  exact h.sums root flow top hrooted n l hl.subperm

/-- The branches with the numbers of their flows. -/
def FlownetPayload.exactBranches (py : PyText (Value R)) (payload : FlownetPayload (Value R)) :
    List (Branch R) :=
  (payload.branches py).map Branch.exact

variable {py : PyText (Value R)} {payload : FlownetPayload (Value R)}

omit [IsStrictOrderedRing R] in
theorem SumsExact.isNumber (h : SumsExact payload.nodes (payload.branches py))
    (hedges : payload.edges.mapM (Edge.ofPayload py) = .ok edges) :
    ∀ e ∈ edges, e.flow.IsNumber := by
  intro e he
  obtain ⟨edge, -, hbuilt⟩ :=
    Fallible.exists_of_mem_right (Fallible.mapM_eq_ok.mp hedges) he
  cases hunknown : e.kind.isUnknown with
  | true =>
      rw [(built_ofPayload hbuilt).flow hunknown]
      exact Value.isNumber_fin 0
  | false =>
      have hbranch : e.branch ∈ payload.branches py :=
        branches_ofPayload hedges ▸ List.mem_map_of_mem he
      refine h.numbers e.branch hbranch e.flow ?_
      simp [Edge.branch, hunknown]

/-- **The solve of a tree network** from its first node. -/
theorem solve_rooted (hyd : Hydraulics (Value R)) {root : String} {rest : List String}
    (hnodes : payload.nodes = root :: rest) (hnodup : payload.nodes.Nodup)
    (htree : IsTree payload.nodes (payload.edges.map FlowEdge.ends))
    (hedges : payload.edges.mapM (Edge.ofPayload py) = .ok edges)
    (hsums : SumsExact payload.nodes (payload.branches py)) : ∃ flow top,
      RootedFlow payload.nodes (payload.exactBranches py) root flow top ∧
      (TopsBalanced (floatTol R) payload.nodes (payload.exactBranches py) top →
        HardyCrossSolve py hyd payload
          (.ok (withBranchFlows edges fun e => fin (flow e.exact)))) ∧
      (¬ TopsBalanced (floatTol R) payload.nodes (payload.exactBranches py) top →
        ∃ feature, HardyCrossSolve py hyd payload (.error (.outOfDomain feature))) := by
  have hnumbers := hsums.isNumber hedges
  rw [← ends_ofPayload hedges] at htree
  rw [FlownetPayload.exactBranches, ← branches_ofPayload hedges]
  rw [← branches_ofPayload hedges] at hsums
  obtain ⟨found, hspanning, hgrown, hcovers, hperm⟩ :
      ∃ found, spanningTree payload.nodes edges = .ok ⟨root, found⟩ ∧
        Flow.Grown (ends edges) root found ∧ Flow.Covers (ends edges) found ∧
        (Flow.order root found).Perm payload.nodes := by
    rw [hnodes] at htree hnodup ⊢
    exact spanningTree_of_isTree htree hnodup
  have hne := htree.ends_ne
  obtain ⟨final, hfinal, hflows, hrooted⟩ : ∃ final,
      FinalFlows (edges.map Edge.exact) found
          (chordSeeds (edges.map Edge.exact) ⟨root, found⟩) final ∧
        FlowsOf (edges.map Edge.exact) (branchFlow (edges.map Edge.exact) final) final ∧
        RootedFlow payload.nodes ((edges.map Edge.exact).map Edge.branch) root
          (branchFlow (edges.map Edge.exact) final)
          (Flow.top (fun i => isUnknownAt (edges.map Edge.exact) i = true) found) := by
    rw [hnodes] at htree hperm ⊢
    rw [← ends_exact] at htree hgrown hcovers
    exact exists_rootedFlow htree hgrown hcovers hperm
  have hbalanced : Balanced (floatTol R) (edges.map Edge.exact) found root final ↔
      TopsBalanced (floatTol R) payload.nodes ((edges.map Edge.exact).map Edge.branch)
        (Flow.top (fun i => isUnknownAt (edges.map Edge.exact) i = true) found) := by
    constructor
    · intro h v hv htop hdegree
      rw [degree_branch] at hdegree
      have htol := h v (hperm.mem_iff.mpr hv) htop hdegree
      rwa [balance_branch hflows, hrooted.balance v hv, if_pos htop] at htol
    · intro h v hv htop hdegree
      have hv' := hperm.mem_iff.mp hv
      rw [balance_branch hflows, hrooted.balance v hv', if_pos htop]
      rw [← degree_branch] at hdegree
      exact h v hv' htop hdegree
  rw [map_branch_exact] at hrooted hbalanced
  obtain ⟨htol, hconservation⟩ := floatTol_spec (R := R)
  obtain ⟨hok, herror⟩ := seed_rooted_fin htol ⟨root, found⟩ hgrown hcovers hne hnumbers hfinal
    (hsums.sumsFit hrooted hflows hne)
  have hprepare : prepare py payload = (do
      let flows ← seedWithin (fin (floatTol R)) edges ⟨root, found⟩
      pure ⟨edges, [], flows⟩) := by
    unfold prepare
    rw [hedges]
    show (spanningTree payload.nodes edges >>= _) = _
    rw [hspanning, ← buildCycleBasis_of_covers ⟨root, found⟩ hcovers, ← hconservation]
    rfl
  have hsolved : withFlows edges (finFlows final) = withBranchFlows edges fun e =>
      fin (branchFlow (edges.map Edge.exact) final e.exact) := by
    refine withFlows_eq fun i e he => ?_
    have he' : (edges.map Edge.exact)[i]? = some e.exact := by
      rw [List.getElem?_map, he]
      rfl
    rw [← branch_exact]
    exact congrArg fin (hflows i e.exact he')
  refine ⟨_, _, hrooted, fun htops => ?_, fun htops => ?_⟩
  · unfold HardyCrossSolve
    rw [hprepare, hok (hbalanced.mpr htops), ← hsolved]
    refine Loop.returns_of_step ?_
    -- there is no loop to correct
    exact if_pos hcTol_pos
  · obtain ⟨feature, hseed⟩ := herror fun h => htops (hbalanced.mp h)
    refine ⟨feature, ?_⟩
    unfold HardyCrossSolve
    rw [hprepare, hseed]
    rfl

end Solve

end Flownet

end Feldspar

/-
Feldspar/RouteCost.lean

The reported cost of a route against the cost it was chosen by.

The search orders candidates by an additive cost, which counts a step once for
each of its consumers; `total_cost` sums the steps of the route, which holds
every step once.  Every label of the arena is priced by the node that made it
(`Priced`), and every step of a route but the last is consumed by another one,
so the reported cost is at most the cost of the winner
(`Searches.totalCost_le`).
-/
import Feldspar.SearchArena
import Feldspar.SearchOptimal

set_option linter.unusedSectionVars false

namespace Feldspar

variable {K : Type} [Field K] [LinearOrder K]

/-! ### Prices -/

/-- What a node charges for each of its outputs. -/
def StepNode.price (node : StepNode K) : K :=
  node.ownCost + ((OrdMap.vals node.inputs).map Label.cost).sum

/-- A known value is free, and an output costs what its node charges. -/
def Paid (nodes : List (StepNode K)) (l : Label K) : Prop :=
  match l.node with
  | none => l.cost = 0
  | some j => ∃ node, nodes[j]? = some node ∧ l.cost = node.price

/-- The labels, the candidates and the nodes of a state are paid for. -/
structure Priced (rq : PlanRequest K) (s : SearchState rq.solvers) : Prop where
  labels : ∀ p, ∀ l ∈ s.labels.at p, Paid s.nodes l
  frontier : ∀ c ∈ s.frontier, c.cost = comboCost c.solver c.inputs ∧
    ∀ (p : Port) (l : Label K), c.inputs[p]? = some l → Paid s.nodes l
  nodes : ∀ node ∈ s.nodes, (∃ v ∈ rq.solvers, node.ownCost = v.cost) ∧
    ∀ (p : Port) (l : Label K), node.inputs[p]? = some l → Paid s.nodes l

theorem Paid.append {nodes : List (StepNode K)} {l : Label K} (h : Paid nodes l)
    (new : List (StepNode K)) : Paid (nodes ++ new) l := by
  unfold Paid at h ⊢
  rcases hl : l.node with - | j
  · rw [hl] at h
    exact h
  · rw [hl] at h
    obtain ⟨node, hnode, hcost⟩ := h
    refine ⟨node, ?_, hcost⟩
    rw [List.getElem?_append_left (List.getElem?_eq_some_iff.mp hnode).1, hnode]

section Step

variable [ToBits K] {rq : PlanRequest K}

theorem Priced.regenerate {s : SearchState rq.solvers} (h : Priced rq s) :
    Priced rq (regenerateCandidates rq s) := by
  obtain ⟨new, hp⟩ := regenerateCandidates_spec s
  refine ⟨?_, fun c hc => ?_, ?_⟩
  · rw [hp.nodes, hp.labels]
    exact h.labels
  · rw [hp.nodes]
    rw [hp.frontier, List.mem_append] at hc
    rcases hc with hc | hc
    · exact h.frontier c hc
    · obtain ⟨pr, hpr, rfl⟩ := hp.proposed hc
      exact ⟨rfl, fun p l hl => h.labels p l ((mem_proposals.mp hpr).2.2 p l hl)⟩
  · rw [hp.nodes]
    exact h.nodes

/-- An expanded candidate charges its own cost for its outputs. -/
theorem Priced.expand {s : SearchState rq.solvers} (h : Priced rq s) {c : Candidate rq.solvers}
    {rest : List (Candidate rq.solvers)} (hc : c ∈ s.frontier)
    (hsub : ∀ c ∈ rest, c ∈ s.frontier) : Priced rq (expand s c rest).1 := by
  have hcommit := commitOutputs_spec s.labels (stepNode c).outputs c.cost s.nodes.length
  have hnodes : (Feldspar.expand s c rest).1.nodes = s.nodes ++ [stepNode c] := rfl
  obtain ⟨hcost, hinputs⟩ := h.frontier c hc
  refine ⟨fun p l hl => ?_, fun c' hc' => ?_, fun node hnode => ?_⟩
  · rw [hnodes]
    rcases hcommit.origin p l hl with hl | ⟨e, -, rfl, -⟩
    · exact (h.labels p l hl).append _
    · rw [comboCost, Arith.sum_eq] at hcost
      exact ⟨stepNode c, by simp, hcost⟩
  · obtain ⟨hcost', hinputs'⟩ := h.frontier c' (hsub c' hc')
    exact ⟨hcost', fun p l hl => (hinputs' p l hl).append _⟩
  · rw [hnodes] at hnode ⊢
    rcases List.mem_append.mp hnode with hnode | hnode
    · obtain ⟨hown, hpaid⟩ := h.nodes node hnode
      exact ⟨hown, fun p l hl => (hpaid p l hl).append _⟩
    · rw [List.mem_singleton.mp hnode]
      exact ⟨⟨c.solver, List.get_mem _ _, rfl⟩, fun p l hl => (hinputs p l hl).append _⟩

theorem Priced.step {s s' : SearchState rq.solvers} (h : Priced rq s)
    (hs : searchStep rq s = .inr s') : Priced rq s' := by
  have hcase := searchStep_cases s
  rw [hs] at hcase
  have h₁ := h.regenerate
  cases hcase with
  | rejected hpop hd =>
      exact ⟨h₁.labels, fun c hc => h₁.frontier c (mem_rest_of_popMin hpop hc), h₁.nodes⟩
  | expanded hpop hd hw =>
      exact h₁.expand (mem_of_popMin hpop) fun c' hc' => mem_rest_of_popMin hpop hc'

theorem priced_init : Priced rq (initState rq) := by
  refine ⟨fun p l hl => ?_, by simp [initState], by simp [initState]⟩
  rcases hp : rq.known[p]? with - | iv
  · simp [initState, Labels.at, hp] at hl
  · simp only [initState, Labels.at, Std.ExtTreeMap.getElem?_map, hp, Option.map_some,
      Option.getD_some, List.mem_singleton] at hl
    subst hl
    rfl

/-- The arena of a found route is priced, and so is the winner. -/
theorem Searches.priced {f : Found K} (h : Searches rq (.ok f)) :
    Paid f.nodes f.winner ∧ ∀ node ∈ f.nodes, (∃ v ∈ rq.solvers, node.ownCost = v.cost) ∧
      ∀ (p : Port) (l : Label K), node.inputs[p]? = some l → Paid f.nodes l := by
  obtain ⟨s, hinv, hret⟩ := Loop.Returns.exists_last (I := Priced rq)
    (fun _ _ hi hstep => hi.step hstep) h priced_init
  have hcase := searchStep_cases s
  rw [hret] at hcase
  cases hcase with
  | won hpop hd hw =>
      have h₁ := hinv.regenerate.expand (mem_of_popMin hpop)
        fun c' hc' => mem_rest_of_popMin hpop hc'
      exact ⟨h₁.labels _ _ (winner_eq_some hw).1, h₁.nodes⟩

end Step

/-! ### The steps of a route -/

section Total

variable [IsStrictOrderedRing K]

/-- The node of a step, where the arena has it. -/
def priceAt (nodes : List (StepNode K)) (i : ℕ) : K := (nodes[i]?.map StepNode.price).getD 0

def ownAt (nodes : List (StepNode K)) (i : ℕ) : K := (nodes[i]?.map StepNode.ownCost).getD 0

/-- The prices of the steps that the step `i` consumes, each input counted. -/
def consumedAt (nodes : List (StepNode K)) (i : ℕ) : List ℕ :=
  (nodes[i]?.map fun node => (OrdMap.vals node.inputs).filterMap Label.node).getD []

theorem mem_consumedAt {nodes : List (StepNode K)} {i j : ℕ} :
    j ∈ consumedAt nodes i ↔ Consumes nodes i j := by
  unfold consumedAt Consumes
  rcases hi : nodes[i]? with - | node
  · simp
  · simp only [Option.map_some, Option.getD_some, List.mem_filterMap, Option.some.injEq,
      exists_eq_left', OrdMap.mem_vals]
    constructor
    · rintro ⟨l, ⟨p, hp⟩, hl⟩
      exact ⟨p, l, hp, hl⟩
    · rintro ⟨p, l, hp, hl⟩
      exact ⟨l, ⟨p, hp⟩, hl⟩

/-- In a priced arena a step charges its own cost and the prices of the steps
that it consumes. -/
theorem priceAt_eq {nodes : List (StepNode K)}
    (hpaid : ∀ node ∈ nodes, ∀ (p : Port) (l : Label K), node.inputs[p]? = some l → Paid nodes l)
    (i : ℕ) : priceAt nodes i
      = ownAt nodes i + ((consumedAt nodes i).map (priceAt nodes)).sum := by
  unfold priceAt ownAt consumedAt
  rcases hi : nodes[i]? with - | node
  · simp
  · have hlabels : ∀ l ∈ OrdMap.vals node.inputs, Paid nodes l := by
      intro l hl
      obtain ⟨p, hp⟩ := OrdMap.mem_vals.mp hl
      exact hpaid node (List.mem_of_getElem? hi) p l hp
    simp only [Option.map_some, Option.getD_some, StepNode.price]
    congr 1
    generalize OrdMap.vals node.inputs = ls at hlabels
    induction ls with
    | nil => rfl
    | cons l ls ih =>
        have hl := hlabels l List.mem_cons_self
        have ih := ih fun l' hl' => hlabels l' (List.mem_cons_of_mem _ hl')
        unfold Paid at hl
        rw [List.map_cons, List.sum_cons, ih]
        rcases hnode : l.node with - | j
        · rw [hnode] at hl
          rw [List.filterMap_cons_none hnode, hl, zero_add]
        · rw [hnode] at hl
          obtain ⟨made, hmade, hcost⟩ := hl
          rw [List.filterMap_cons_some hnode, List.map_cons, List.sum_cons, hcost, hmade]
          rfl

theorem priceAt_nonneg {nodes : List (StepNode K)} (hac : Acyclic nodes)
    (hown : ∀ node ∈ nodes, 0 ≤ node.ownCost)
    (hpaid : ∀ node ∈ nodes, ∀ (p : Port) (l : Label K), node.inputs[p]? = some l → Paid nodes l)
    (i : ℕ) : 0 ≤ priceAt nodes i := by
  induction i using Nat.strong_induction_on with
  | _ i ih =>
      rw [priceAt_eq hpaid]
      refine add_nonneg ?_ (List.sum_nonneg fun x hx => ?_)
      · unfold ownAt
        rcases hi : nodes[i]? with - | node
        · exact le_rfl
        · exact hown node (List.mem_of_getElem? hi)
      · obtain ⟨j, hj, rfl⟩ := List.mem_map.mp hx
        exact ih j (hac i j (mem_consumedAt.mp hj))

/-- Steps each of which, but for the last, is consumed by another one cost
together no more than the last one charges. -/
theorem sum_ownAt_le {nodes : List (StepNode K)} (hac : Acyclic nodes)
    (hown : ∀ node ∈ nodes, 0 ≤ node.ownCost)
    (hpaid : ∀ node ∈ nodes, ∀ (p : Port) (l : Label K), node.inputs[p]? = some l → Paid nodes l)
    {init : List ℕ} {last : ℕ} (hnodup : (init ++ [last]).Nodup)
    (hconsumed : ∀ i ∈ init, ∃ j ∈ init ++ [last], Consumes nodes j i) :
    ((init ++ [last]).map (ownAt nodes)).sum ≤ priceAt nodes last := by
  have hsplit : ∀ l : List ℕ, (l.map (priceAt nodes)).sum = (l.map (ownAt nodes)).sum
      + ((l.flatMap (consumedAt nodes)).map (priceAt nodes)).sum := by
    intro l
    induction l with
    | nil => simp
    | cons i l ih =>
        rw [List.map_cons, List.map_cons, List.sum_cons, List.sum_cons, List.flatMap_cons,
          List.map_append, List.sum_append, ih, priceAt_eq hpaid i]
        exact add_add_add_comm _ _ _ _
  -- every step but the last is among those that the steps consume
  have hinit : init ⊆ (init ++ [last]).flatMap (consumedAt nodes) := by
    intro i hi
    obtain ⟨j, hj, hji⟩ := hconsumed i hi
    exact List.mem_flatMap.mpr ⟨j, hj, mem_consumedAt.mpr hji⟩
  obtain ⟨l, hperm, hsub⟩ := List.subperm_of_subset (List.nodup_append.mp hnodup).1 hinit
  have hle : (init.map (priceAt nodes)).sum
      ≤ (((init ++ [last]).flatMap (consumedAt nodes)).map (priceAt nodes)).sum := by
    rw [← (hperm.map _).sum_eq]
    refine (hsub.map (priceAt nodes)).sum_le_sum fun x hx => ?_
    obtain ⟨i, -, rfl⟩ := List.mem_map.mp hx
    exact priceAt_nonneg hac hown hpaid i
  have htotal := hsplit (init ++ [last])
  rw [List.map_append (f := priceAt nodes), List.sum_append, List.map_singleton,
    List.sum_singleton] at htotal
  linarith

end Total

/-- **The reported cost of a route** is at most the cost of its winner. -/
theorem Searches.totalCost_le [IsStrictOrderedRing K] [ToBits K] {rq : PlanRequest K}
    (hpos : ∀ v ∈ rq.solvers, 0 < v.cost) {f : Found K} (h : Searches rq (.ok f)) :
    (buildRoute rq.target f).totalCost ≤ f.winner.cost := by
  obtain ⟨hnodes, hsourced⟩ := h.arena
  obtain ⟨hwinner, hpriced⟩ := h.priced
  have hac := acyclic_of_nodeOk hnodes
  have hown : ∀ node ∈ f.nodes, 0 ≤ node.ownCost := by
    intro node hnode
    obtain ⟨⟨v, hv, hcost⟩, -⟩ := hpriced node hnode
    rw [hcost]
    exact (hpos v hv).le
  have hcosts : (buildRoute rq.target f).totalCost
      = ((walkFrom f.nodes f.winner).map (ownAt f.nodes)).sum := by
    rw [buildRoute, Arith.sum_eq]
    induction walkFrom f.nodes f.winner with
    | nil => rfl
    | cons i steps ih =>
        rw [List.map_cons, List.sum_cons, ← ih, ownAt]
        rcases hi : f.nodes[i]? with - | node
        · simp [hi]
        · simp [hi, routeStep]
  rw [hcosts]
  unfold Paid at hwinner
  unfold Sourced at hsourced
  rcases hnode : f.winner.node with - | ptr
  · rw [hnode] at hwinner
    simp [walkFrom, hnode, hwinner]
  · rw [hnode] at hwinner hsourced
    obtain ⟨node, hget, hcost⟩ := hwinner
    obtain ⟨horder, init, hwalk, hconsumed⟩ := walkFrom_spec hac hnode hsourced.1
    rw [hwalk] at horder hconsumed ⊢
    have hle := sum_ownAt_le hac hown (fun node hnode => (hpriced node hnode).2) horder.nodup
      hconsumed
    rwa [priceAt, hget, Option.map_some, Option.getD_some, ← hcost] at hle

end Feldspar

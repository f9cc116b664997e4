/-
Feldspar/SearchOrder.lean

The planner's answer does not depend on the order of the solver list.

Two searches over permuted lists run in lockstep (`SameSearch`): the same
labels and nodes, the same candidates up to the solver's index, the same
pushed keys up to that index.  The order of the frontier list is free, because
the frontier order has no ties: two candidates of one cost, solver id and tie
key are one candidate.  The entry checks agree as well; for the cycle check
this is `detectPortEquivalenceCycle_iff`, which says what it detects.
-/
import Feldspar.SearchInvariant

set_option linter.unusedSectionVars false

namespace Feldspar

variable {K : Type} [Field K] [LinearOrder K]

/-! ### The cycle check -/

/-- Some one-input one-output solver of the list renames `a` to `b`. -/
def PortEquivalence (solvers : List (SolverSummary K)) (a b : Port) : Prop :=
  ∃ s ∈ solvers, s.inputs = [a] ∧ s.outputs = [b]

theorem mem_portEquivalences {solvers : List (SolverSummary K)} {a b : Port} :
    (a, b) ∈ portEquivalences solvers ↔ PortEquivalence solvers a b := by
  simp only [portEquivalences, List.mem_filterMap, PortEquivalence]
  refine exists_congr fun s => and_congr_right fun _ => ?_
  split
  · simp_all
  · rename_i hne
    simp only [reduceCtorEq, false_iff, not_and]
    exact fun hi ho => hne a b hi ho

/-- The successors of a node in an adjacency map. -/
def successors (adj : PortMap (List Port)) (node : Port) : List Port := adj[node]?.getD []

theorem mem_adjacency {edges : List (Port × Port)} {a b : Port} :
    b ∈ successors (adjacency edges) a ↔ (a, b) ∈ edges := by
  unfold successors adjacency
  induction edges using List.reverseRecOn with
  | nil => simp
  | append_singleton edges e ih =>
      rw [List.foldl_append, List.foldl_cons, List.foldl_nil, OrdMap.getElem?_alter_eq,
        List.mem_append, List.mem_singleton, ← ih]
      by_cases he : e.1 = a
      · subst he
        simp [Prod.ext_iff]
      · simp [he, Prod.ext_iff, Ne.symm he]

theorem mem_adjacency_keys {edges : List (Port × Port)} {a : Port} :
    a ∈ adjacency edges ↔ ∃ b, (a, b) ∈ edges := by
  unfold adjacency
  induction edges using List.reverseRecOn with
  | nil => simp
  | append_singleton edges e ih =>
      rw [List.foldl_append, List.foldl_cons, List.foldl_nil, OrdMap.mem_iff_exists]
      simp only [OrdMap.getElem?_alter_eq, List.mem_append, List.mem_singleton]
      by_cases he : e.1 = a
      · subst he
        simp only [if_true, Option.some.injEq, exists_eq', true_iff]
        exact ⟨e.2, Or.inr rfl⟩
      · simp only [if_neg he, ← OrdMap.mem_iff_exists, ih]
        refine exists_congr fun b => ⟨Or.inl, fun h => h.resolve_right ?_⟩
        rintro rfl
        exact he rfl

/-- The search from every port with a successor, with a bound on its depth. -/
def cycleSearch (solvers : List (SolverSummary K)) (depth : ℕ) : Option Bool :=
  Dfs.hasCycle (successors (adjacency (portEquivalences solvers))) depth
    (adjacency (portEquivalences solvers)).keys

/-- It answers once the bound is over the number of ports there are, and finds
exactly the cyclic port equivalences. -/
theorem exists_cycleSearch {solvers : List (SolverSummary K)} {depth : ℕ}
    (hdepth : 2 * (portEquivalences solvers).length < depth) :
    ∃ b, cycleSearch solvers depth = some b ∧
      (b = true ↔ ∃ p, Relation.TransGen (PortEquivalence solvers) p p) := by
  let U : Finset Port := ((portEquivalences solvers).map Prod.fst
    ++ (portEquivalences solvers).map Prod.snd).toFinset
  have hmem : ∀ a b, (a, b) ∈ portEquivalences solvers → a ∈ U ∧ b ∈ U := by
    intro a b h
    simp only [U, List.mem_toFinset, List.mem_append]
    exact ⟨Or.inl (List.mem_map_of_mem h), Or.inr (List.mem_map_of_mem h)⟩
  have hedge : Dfs.Edge (successors (adjacency (portEquivalences solvers)))
      = PortEquivalence solvers := by
    funext a b
    exact propext (mem_adjacency.trans mem_portEquivalences)
  rw [← hedge]
  refine Dfs.hasCycle_spec (U := U) (fun a _ b hb => (hmem a b (mem_adjacency.mp hb)).2)
    (fun v hv => ?_) (fun v hv => ?_) ?_
  · obtain ⟨w, hw⟩ := mem_adjacency_keys.mp (Std.ExtTreeMap.mem_keys.mp hv)
    exact (hmem v w hw).1
  · obtain ⟨w, hw⟩ := List.exists_mem_of_ne_nil _ hv
    exact Std.ExtTreeMap.mem_keys.mpr (mem_adjacency_keys.mpr ⟨w, mem_adjacency.mp hw⟩)
  · refine lt_of_le_of_lt ((List.toFinset_card_le _).trans ?_) hdepth
    simp only [List.length_append, List.length_map]
    omega

theorem detectPortEquivalenceCycle_of_cycleSearch {solvers : List (SolverSummary K)} {b : Bool}
    (h : cycleSearch solvers (2 * (portEquivalences solvers).length + 1) = some b) :
    detectPortEquivalenceCycle solvers = b := by
  have hdetect : detectPortEquivalenceCycle solvers
      = (cycleSearch solvers (2 * (portEquivalences solvers).length + 1) == some true) := rfl
  rw [hdetect, h]
  cases b <;> rfl

/-- The check finds exactly the cyclic port equivalences. -/
theorem detectPortEquivalenceCycle_iff {solvers : List (SolverSummary K)} :
    detectPortEquivalenceCycle solvers = true ↔
      ∃ p, Relation.TransGen (PortEquivalence solvers) p p := by
  obtain ⟨b, hb, hiff⟩ := exists_cycleSearch (Nat.lt_succ_self (2 * (portEquivalences solvers).length))
  rw [detectPortEquivalenceCycle_of_cycleSearch hb, hiff]

/-- **The check ends, on every list of solvers**: no bound on the depth from
the number of ports on changes its answer, which is whether some port is
renamed back to itself. -/
theorem cycleSearch_eq_detectPortEquivalenceCycle (solvers : List (SolverSummary K)) :
    (∀ depth, 2 * (portEquivalences solvers).length < depth →
      cycleSearch solvers depth = some (detectPortEquivalenceCycle solvers)) ∧
      (detectPortEquivalenceCycle solvers = true ↔
        ∃ p, Relation.TransGen (PortEquivalence solvers) p p) := by
  refine ⟨fun depth hdepth => ?_, detectPortEquivalenceCycle_iff⟩
  obtain ⟨b, hb, hiff⟩ := exists_cycleSearch hdepth
  rw [hb, Option.some_inj, Bool.eq_iff_iff, hiff, detectPortEquivalenceCycle_iff]

/-! ### Lockstep -/

/-- The same request over a permuted list of solvers with distinct ids. -/
structure Reordered (rq rq' : PlanRequest K) : Prop where
  solvers : rq.solvers.Perm rq'.solvers
  ids : (rq.solvers.map SolverSummary.solverId).Nodup
  known : rq.known = rq'.known
  tags : rq.tags = rq'.tags
  target : rq.target = rq'.target
  epsBudget : rq.epsBudget = rq'.epsBudget
  sense : rq.sense = rq'.sense

/-- What a candidate says, whatever the position of its solver. -/
def Candidate.view {solvers : List (SolverSummary K)} (c : Candidate solvers) :
    SolverSummary K × K × String × PortMap (Label K) := (c.solver, c.cost, c.tieKey, c.inputs)

namespace Reordered

variable {rq rq' : PlanRequest K}

theorem symm (h : Reordered rq rq') : Reordered rq' rq where
  solvers := h.solvers.symm
  ids := (h.solvers.map SolverSummary.solverId).nodup_iff.mp h.ids
  known := h.known.symm
  tags := h.tags.symm
  target := h.target.symm
  epsBudget := h.epsBudget.symm
  sense := h.sense.symm

/-- Distinct positions hold distinct solver ids. -/
theorem idx_eq (h : Reordered rq rq') {i j : Fin rq.solvers.length}
    (hij : (rq.solvers.get i).solverId = (rq.solvers.get j).solverId) : i = j := by
  have hlen : rq.solvers.length = (rq.solvers.map SolverSummary.solverId).length := by simp
  refine Fin.cast_injective hlen (h.ids.get_inj_iff.mp ?_)
  simpa using hij

theorem exists_idx (h : Reordered rq rq') (i : Fin rq.solvers.length) :
    ∃ i' : Fin rq'.solvers.length, rq'.solvers.get i' = rq.solvers.get i := by
  exact List.get_of_mem (h.solvers.mem_iff.mp (List.get_mem _ i))

theorem passesFilter (h : Reordered rq rq') {s : SolverSummary K} :
    passesFilter rq s ↔ Feldspar.passesFilter rq' s := by
  rw [Feldspar.passesFilter, Feldspar.passesFilter, h.sense, h.target]

theorem entryChecks (h : Reordered rq rq') :
    entryChecks rq = Feldspar.entryChecks rq' := by
  have hprod : (rq.solvers.any fun s => s.outputs.any fun o => o == rq'.target)
      = rq'.solvers.any fun s => s.outputs.any fun o => o == rq'.target := by
    rw [Bool.eq_iff_iff, List.any_eq_true, List.any_eq_true]
    exact exists_congr fun s => and_congr_left fun _ => h.solvers.mem_iff
  have hcycle : detectPortEquivalenceCycle rq.solvers = detectPortEquivalenceCycle rq'.solvers := by
    have heq : PortEquivalence rq.solvers = PortEquivalence rq'.solvers := by
      funext a b
      exact propext (exists_congr fun s => and_congr_left fun _ => h.solvers.mem_iff)
    rw [Bool.eq_iff_iff, detectPortEquivalenceCycle_iff, detectPortEquivalenceCycle_iff, heq]
  simp only [Feldspar.entryChecks, hcycle, h.known, h.target, h.epsBudget, hprod]

end Reordered

theorem order_eq_of_view {solvers solvers' : List (SolverSummary K)} {c : Candidate solvers}
    {c' : Candidate solvers'} (h : c.view = c'.view) : c.order = c'.order := by
  simp only [Candidate.view, Prod.mk.injEq] at h
  simp only [Candidate.order, h.1, h.2.1, h.2.2.1]

namespace Reordered

variable {rq rq' : PlanRequest K}

/-- Equal views have corresponding keys. -/
theorem key_eq (hR : Reordered rq rq') {c : Candidate rq.solvers} {c' : Candidate rq'.solvers}
    (hview : c.view = c'.view) {i : Fin rq.solvers.length} {i' : Fin rq'.solvers.length}
    {k : String} (hk : c'.key = (i', k)) (he : rq.solvers.get i = rq'.solvers.get i') :
    c.key = (i, k) := by
  simp only [Candidate.view, Prod.mk.injEq] at hview
  obtain ⟨hi, rfl⟩ := Prod.mk.inj hk
  have hs : c.solver = rq.solvers.get i := by
    rw [hview.1, he, ← hi]
    rfl
  rw [Candidate.key, hview.2.2.1, hR.idx_eq (i := c.solverIdx) (j := i) (congrArg _ hs)]

/-- The frontier order has no ties between different keys. -/
theorem key_eq_of_order (hR : Reordered rq rq') {c c' : Candidate rq.solvers}
    (h : c.order = c'.order) : c.key = c'.key := by
  simp only [Candidate.order, toLex_inj, Prod.mk.injEq] at h
  rw [Candidate.key, Candidate.key, hR.idx_eq (i := c.solverIdx) (j := c'.solverIdx) h.2.1, h.2.2]

theorem mem_rest (hR : Reordered rq rq') {frontier rest : List (Candidate rq.solvers)}
    {c : Candidate rq.solvers} (hnd : (frontier.map Candidate.key).Nodup)
    (hperm : frontier.Perm (c :: rest)) {v : SolverSummary K × K × String × PortMap (Label K)} :
    v ∈ rest.map Candidate.view ↔ v ∈ frontier.map Candidate.view ∧ v ≠ c.view := by
  have hnd' := (hperm.map Candidate.key).nodup_iff.mp hnd
  rw [List.map_cons, List.nodup_cons] at hnd'
  rw [(hperm.map Candidate.view).mem_iff, List.map_cons, List.mem_cons]
  constructor
  · intro hv
    refine ⟨Or.inr hv, ?_⟩
    rintro rfl
    obtain ⟨x, hx, he⟩ := List.mem_map.mp hv
    exact hnd'.1 (List.mem_map.mpr ⟨x, hx, hR.key_eq_of_order (order_eq_of_view he)⟩)
  · rintro ⟨hv, hne⟩
    exact hv.resolve_left hne

end Reordered

private theorem find?_flatMap_of_unique {α β : Type*} {f : α → List β} {p : β → Bool} {i : α} :
    ∀ {xs : List α}, i ∈ xs → (∀ j ∈ xs, j ≠ i → ∀ y ∈ f j, p y = false) →
      (xs.flatMap f).find? p = (f i).find? p
  | [], hi, _ => by cases hi
  | j :: xs, hi, h => by
      rw [List.flatMap_cons, List.find?_append]
      by_cases hji : j = i
      · subst hji
        rcases e : (f j).find? p with - | y
        · rw [Option.none_or, List.find?_eq_none]
          intro y hy
          obtain ⟨k, hk, hy⟩ := List.mem_flatMap.mp hy
          by_cases hkj : k = j
          · subst hkj
            exact List.find?_eq_none.mp e y hy
          · simp [h k (List.mem_cons_of_mem _ hk) hkj y hy]
        · rfl
      · have hnone : (f j).find? p = none :=
          List.find?_eq_none.mpr fun y hy => by simp [h j List.mem_cons_self hji y hy]
        rw [hnone, Option.none_or]
        exact find?_flatMap_of_unique ((List.mem_cons.mp hi).resolve_left (Ne.symm hji))
          fun k hk => h k (List.mem_cons_of_mem _ hk)

section Step

variable [ToBits K] {rq rq' : PlanRequest K}

/-- The first proposal of a key is the first combo of its solver with that tie
key. -/
theorem find?_proposals (labels : Labels K) (i : Fin rq.solvers.length) (k : String) :
    (proposals rq labels).find? (fun x => (candidateOf rq x).key = (i, k))
      = if passesFilter rq (rq.solvers.get i) then
          ((combosFor (rq.solvers.get i).inputs labels).find? fun c => tieKeyFor c = k).map
            fun c => (i, c)
        else none := by
  rw [proposals, find?_flatMap_of_unique (List.mem_finRange i)]
  · split
    · have hkey : (fun x => decide ((candidateOf rq x).key = (i, k))) ∘ (fun c => (i, c))
          = fun c => decide (tieKeyFor c = k) := by
        funext c
        simp [candidateOf, Candidate.key]
      rw [List.find?_map, hkey]
    · rfl
  · intro j _ hji y hy
    split at hy
    · obtain ⟨c, -, rfl⟩ := List.mem_map.mp hy
      simp [candidateOf, Candidate.key, hji]
    · cases hy

/-- Two searches in lockstep. -/
structure SameSearch (rq rq' : PlanRequest K) (s : SearchState rq.solvers)
    (s' : SearchState rq'.solvers) : Prop where
  inv : SearchInv rq s
  inv' : SearchInv rq' s'
  labels : s.labels = s'.labels
  nodes : s.nodes = s'.nodes
  frontier : ∀ v, v ∈ s.frontier.map Candidate.view ↔ v ∈ s'.frontier.map Candidate.view
  pushed : ∀ (i : Fin rq.solvers.length) (i' : Fin rq'.solvers.length) (k : String),
    rq.solvers.get i = rq'.solvers.get i' → ((i, k) ∈ s.pushed ↔ (i', k) ∈ s'.pushed)

theorem SameSearch.symm {s : SearchState rq.solvers} {s' : SearchState rq'.solvers}
    (h : SameSearch rq rq' s s') : SameSearch rq' rq s' s where
  inv := h.inv'
  inv' := h.inv
  labels := h.labels.symm
  nodes := h.nodes.symm
  frontier v := (h.frontier v).symm
  pushed i i' k he := (h.pushed i' i k he.symm).symm

/-- A candidate pushed on one side is pushed on the other. -/
theorem SameSearch.mem_new (hR : Reordered rq rq') {s s₁ : SearchState rq.solvers}
    {s' s₁' : SearchState rq'.solvers} {new : List (Candidate rq.solvers)}
    {new' : List (Candidate rq'.solvers)} (h : SameSearch rq rq' s s')
    (hp : Pushes (proposals rq s.labels) s s₁ new)
    (hp' : Pushes (proposals rq' s'.labels) s' s₁' new') {c : Candidate rq.solvers}
    (hc : c ∈ new) : c.view ∈ new'.map Candidate.view := by
  obtain ⟨⟨i, combo⟩, hfind, rfl⟩ := hp.first c hc
  obtain ⟨i', hi'⟩ := hR.exists_idx i
  -- the same combo is the first of its tie key on the other side
  have hfind' : (proposals rq' s'.labels).find?
      (fun x => (candidateOf rq' x).key = (i', tieKeyFor combo)) = some (i', combo) := by
    have hkey : (candidateOf rq (i, combo)).key = (i, tieKeyFor combo) := rfl
    rw [hkey, find?_proposals] at hfind
    rw [find?_proposals, hi', ← h.labels]
    split at hfind
    · rw [if_pos (hR.passesFilter.mp ‹_›)]
      obtain ⟨x, hx, he⟩ := Option.map_eq_some_iff.mp hfind
      obtain rfl : x = combo := (Prod.mk.inj he).2
      rw [hx]
      rfl
    · cases hfind
  have hpushed := hp'.saturated _ (List.mem_of_find?_eq_some hfind')
  rcases (hp'.pushed _).mp hpushed with hold | hnew
  · exact absurd ((h.pushed i i' _ hi'.symm).mpr hold) (hp.fresh _ hc)
  · obtain ⟨c', hc', hkey'⟩ := List.mem_map.mp hnew
    obtain ⟨pr, hpr, rfl⟩ := hp'.first c' hc'
    rw [hkey'] at hpr
    obtain rfl : (i', combo) = pr := Option.some.inj (hfind'.symm.trans hpr)
    refine List.mem_map.mpr ⟨_, hc', ?_⟩
    simp only [Candidate.view, Candidate.solver, candidateOf, hi']

theorem SameSearch.regenerate [IsStrictOrderedRing K] (hR : Reordered rq rq')
    {s : SearchState rq.solvers} {s' : SearchState rq'.solvers} (h : SameSearch rq rq' s s') :
    SameSearch rq rq' (regenerateCandidates rq s) (regenerateCandidates rq' s') := by
  obtain ⟨new, hp⟩ := regenerateCandidates_spec s
  obtain ⟨new', hp'⟩ := regenerateCandidates_spec s'
  have hnew : ∀ v, v ∈ new.map Candidate.view ↔ v ∈ new'.map Candidate.view := by
    intro v
    constructor
    · rintro hv
      obtain ⟨c, hc, rfl⟩ := List.mem_map.mp hv
      exact h.mem_new hR hp hp' hc
    · rintro hv
      obtain ⟨c, hc, rfl⟩ := List.mem_map.mp hv
      exact h.symm.mem_new hR.symm hp' hp hc
  have hkey : ∀ (i : Fin rq.solvers.length) (i' : Fin rq'.solvers.length) (k : String),
      rq.solvers.get i = rq'.solvers.get i' →
      ((i, k) ∈ new.map Candidate.key ↔ (i', k) ∈ new'.map Candidate.key) := by
    intro i i' k he
    constructor
    · intro hk
      obtain ⟨c, hc, hck⟩ := List.mem_map.mp hk
      obtain ⟨c', hc', hview⟩ := List.mem_map.mp ((hnew _).mp (List.mem_map_of_mem hc))
      exact List.mem_map.mpr ⟨c', hc', hR.symm.key_eq hview hck he.symm⟩
    · intro hk
      obtain ⟨c, hc, hck⟩ := List.mem_map.mp hk
      obtain ⟨c', hc', hview⟩ := List.mem_map.mp ((hnew _).mpr (List.mem_map_of_mem hc))
      exact List.mem_map.mpr ⟨c', hc', hR.key_eq hview hck he⟩
  refine ⟨h.inv.regenerate.1, h.inv'.regenerate.1, ?_, ?_, fun v => ?_, fun i i' k he => ?_⟩
  · rw [hp.labels, hp'.labels, h.labels]
  · rw [hp.nodes, hp'.nodes, h.nodes]
  · rw [hp.frontier, hp'.frontier, List.map_append, List.map_append, List.mem_append,
      List.mem_append, h.frontier, hnew]
  · rw [hp.pushed, hp'.pushed, h.pushed i i' k he, hkey i i' k he]

/-- The least candidates of the two frontiers are one candidate, and the rest
still agree. -/
theorem SameSearch.pop (hR : Reordered rq rq') {s : SearchState rq.solvers}
    {s' : SearchState rq'.solvers} (h : SameSearch rq rq' s s') {c : Candidate rq.solvers}
    {rest : List (Candidate rq.solvers)}
    (hpop : Pareto.popMin Candidate.order s.frontier = some (c, rest)) :
    ∃ c' rest', Pareto.popMin Candidate.order s'.frontier = some (c', rest') ∧
      c.view = c'.view ∧ ∀ v, v ∈ rest.map Candidate.view ↔ v ∈ rest'.map Candidate.view := by
  have hperm := Pareto.popMin_perm hpop
  have hc : c ∈ s.frontier := hperm.mem_iff.mpr List.mem_cons_self
  obtain ⟨x', hx', hview⟩ := List.mem_map.mp ((h.frontier _).mp (List.mem_map_of_mem hc))
  rcases hpop' : Pareto.popMin Candidate.order s'.frontier with - | ⟨c', rest'⟩
  · rw [Pareto.popMin_eq_none.mp hpop'] at hx'
    cases hx'
  have hperm' := Pareto.popMin_perm hpop'
  have hc' : c' ∈ s'.frontier := hperm'.mem_iff.mpr List.mem_cons_self
  obtain ⟨x, hx, hview'⟩ := List.mem_map.mp ((h.frontier _).mpr (List.mem_map_of_mem hc'))
  -- both are least, so their order keys agree, and these determine the candidate
  have horder : c.order = c'.order := by
    refine le_antisymm ?_ ?_
    · rw [← order_eq_of_view hview']
      exact Pareto.popMin_le hpop hx
    · rw [← order_eq_of_view hview]
      exact Pareto.popMin_le hpop' hx'
  have hcc' : c.view = c'.view := by
    rw [← hview]
    congr 1
    refine List.inj_on_of_nodup_map h.inv'.distinct hx' hc' (hR.symm.key_eq_of_order ?_)
    rw [order_eq_of_view hview, horder]
  refine ⟨c', rest', rfl, hcc', fun v => ?_⟩
  rw [hR.mem_rest h.inv.distinct hperm, hR.symm.mem_rest h.inv'.distinct hperm', h.frontier, hcc']

theorem Reordered.admits (hR : Reordered rq rq') {s : SolverSummary K}
    {combo : PortMap (Label K)} : Admits rq s combo ↔ Admits rq' s combo := by
  rw [Admits, Admits, hR.tags]

theorem Reordered.winner (hR : Reordered rq rq') (labels : Labels K) :
    winner rq labels = Feldspar.winner rq' labels := by
  simp only [Feldspar.winner, hR.target, hR.epsBudget]

theorem Reordered.exhausted (hR : Reordered rq rq') (labels : Labels K) :
    exhausted rq labels = Feldspar.exhausted rq' labels := by
  simp only [Feldspar.exhausted, hR.target]

/-- Expanding one candidate on both sides. -/
theorem expand_eq_of_view {s : SearchState rq.solvers} {s' : SearchState rq'.solvers}
    (hl : s.labels = s'.labels) (hn : s.nodes = s'.nodes) {c : Candidate rq.solvers}
    {c' : Candidate rq'.solvers} (h : c.view = c'.view) (rest : List (Candidate rq.solvers))
    (rest' : List (Candidate rq'.solvers)) :
    (expand s c rest).1.labels = (expand s' c' rest').1.labels ∧
      (expand s c rest).1.nodes = (expand s' c' rest').1.nodes ∧
      (expand s c rest).2 = (expand s' c' rest').2 := by
  simp only [Candidate.view, Prod.mk.injEq] at h
  have hnode : stepNode c = stepNode c' := by
    simp only [stepNode, h.1, h.2.2.2]
  simp only [expand, hnode, hl, hn, h.2.1, and_self]

/-- **Lockstep**: an iteration ends both searches alike, or leaves them in
lockstep. -/
theorem SameSearch.step [IsStrictOrderedRing K] (hR : Reordered rq rq')
    {s : SearchState rq.solvers} {s' : SearchState rq'.solvers} (h : SameSearch rq rq' s s') :
    (∃ r, searchStep rq s = .inl r ∧ searchStep rq' s' = .inl r) ∨
      ∃ t t', searchStep rq s = .inr t ∧ searchStep rq' s' = .inr t' ∧ SameSearch rq rq' t t' := by
  have h₁ := h.regenerate hR
  -- where both go on, only the frontiers are left to compare
  have hgoon : ∀ {t t'}, searchStep rq s = .inr t → searchStep rq' s' = .inr t' →
      t.labels = t'.labels → t.nodes = t'.nodes →
      (∀ v, v ∈ t.frontier.map Candidate.view ↔ v ∈ t'.frontier.map Candidate.view) →
      t.pushed = (regenerateCandidates rq s).pushed →
      t'.pushed = (regenerateCandidates rq' s').pushed → SameSearch rq rq' t t' := by
    intro t t' ht ht' hl hn hf hp hp'
    refine ⟨h.inv.step ht, h.inv'.step ht', hl, hn, hf, fun i i' k he => ?_⟩
    rw [hp, hp']
    exact h₁.pushed i i' k he
  -- frontiers with the same candidates are both empty, or give the same one
  rcases hpop : Pareto.popMin Candidate.order (regenerateCandidates rq s).frontier with
    - | ⟨c, rest⟩
  · have hnil := Pareto.popMin_eq_none.mp hpop
    have hnil' : (regenerateCandidates rq' s').frontier = [] := by
      rw [List.eq_nil_iff_forall_not_mem]
      intro c hc
      have := (h₁.frontier _).mpr (List.mem_map_of_mem hc)
      rw [hnil] at this
      cases this
    refine Or.inl ⟨_, searchStep_of_nil hnil, ?_⟩
    rw [searchStep_of_nil hnil', hR.exhausted, h₁.labels]
  obtain ⟨c', rest', hpop', hview, hrest⟩ := h₁.pop hR hpop
  have hsolver : c.solver = c'.solver := congrArg Prod.fst hview
  have hinputs : c.inputs = c'.inputs := congrArg (fun v => v.2.2.2) hview
  by_cases hd : Admits rq c.solver c.inputs
  · have hd' : Admits rq' c'.solver c'.inputs := by
      rw [← hsolver, ← hinputs]
      exact hR.admits.mp hd
    obtain ⟨hl, hn, hany⟩ := expand_eq_of_view h₁.labels h₁.nodes hview rest rest'
    have e := searchStep_of_admitted hpop hd
    have e' := searchStep_of_admitted hpop' hd'
    rw [← hany, ← hl, ← hn, ← hR.winner] at e'
    split at e
    · rw [if_pos ‹_›] at e'
      split at e
      · rw [‹winner rq _ = some _›] at e'
        exact Or.inl ⟨_, e, e'⟩
      · rw [‹winner rq _ = none›] at e'
        exact Or.inr ⟨_, _, e, e', hgoon e e' hl hn hrest rfl rfl⟩
    · rw [if_neg ‹_›] at e'
      exact Or.inr ⟨_, _, e, e', hgoon e e' hl hn hrest rfl rfl⟩
  · have hd' : ¬ Admits rq' c'.solver c'.inputs := by
      rw [← hsolver, ← hinputs]
      exact fun h => hd (hR.admits.mpr h)
    have e := searchStep_of_rejected hpop hd
    have e' := searchStep_of_rejected hpop' hd'
    exact Or.inr ⟨_, _, e, e', hgoon e e' h₁.labels h₁.nodes hrest rfl rfl⟩

theorem sameSearch_init [IsStrictOrderedRing K] (hR : Reordered rq rq')
    (ht : rq.target ∉ rq.known) : SameSearch rq rq' (initState rq) (initState rq') where
  inv := searchInv_init ht
  inv' := searchInv_init (by rwa [← hR.target, ← hR.known])
  labels := by simp only [initState, hR.known]
  nodes := rfl
  frontier v := by simp [initState]
  pushed i i' k _ := by simp [initState]

/-- **Registration-order independence**: over a permuted solver list with
distinct ids, `plan` returns the same result. -/
theorem plans_reordered [IsStrictOrderedRing K] (hR : Reordered rq rq')
    {r : Except (PlanError K) (Route K)} : Plans rq r ↔ Plans rq' r := by
  have oneWay : ∀ {rq rq' : PlanRequest K}, Reordered rq rq' → Plans rq r → Plans rq' r := by
    intro rq rq' hR h
    rcases hentry : entryChecks rq with - | r'
    · have hentry' := hR.entryChecks.symm.trans hentry
      obtain ⟨f, hf, rfl⟩ := (plans_iff_searches hentry).mp h
      refine (plans_iff_searches hentry').mpr ⟨f, ?_, by rw [hR.target]⟩
      exact Loop.Returns.simulate (fun s s' hs => hs.step hR)
        (sameSearch_init hR (entryChecks_eq_none.mp hentry).2.1) hf
    · obtain ⟨fuel, hfuel⟩ := h
      rw [plan, hentry] at hfuel
      obtain rfl := Option.some.inj hfuel
      exact plans_of_entryChecks (hR.entryChecks.symm.trans hentry)
  exact ⟨oneWay hR, oneWay hR.symm⟩

end Step

/-- Three solvers that cost the same, two of them interchangeable. -/
def tieRequest (first second : SolverId) : PlanRequest ℚ :=
  plainRequest
    [plainSolver first ["x"] [("y", 0)] 1 .both, plainSolver second ["x"] [("y", 0)] 1 .both,
      plainSolver "c" ["x"] [("m", 0)] 1 .both] [("x", 5)] "y" 2 .both

theorem tieRequest_reordered : Reordered (tieRequest "b" "a") (tieRequest "a" "b") :=
  ⟨List.Perm.swap _ _ _, by decide, rfl, rfl, rfl, rfl, rfl⟩

/-- The smaller id wins in either order. -/
theorem plans_reordered_ties :
    Plans (tieRequest "b" "a")
      (.ok ⟨"y", [⟨"a", ⟨OrdMap.ofFn ["x"] fun _ => .point 5, ∅⟩, 0, 1⟩], 0, 1⟩) :=
  (plans_reordered tieRequest_reordered).mpr ⟨4, by decide +kernel⟩

end Feldspar

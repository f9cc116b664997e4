/-
Feldspar/SearchOptimal.lean

The planner is sound, complete and cost-optimal.

The key fact is `coverage`: once the frontier is saturated, every admissible
derivation is either dominated by a label its port already has, or some
candidate of the frontier costs no more than it.  So a popped candidate of
least cost bounds every derivation that no label covers, and an empty frontier
means that all of them are covered.
-/
import Feldspar.SearchInvariant

set_option linter.unusedSectionVars false

namespace Feldspar

variable {K : Type} [Field K] [LinearOrder K] [IsStrictOrderedRing K] {rq : PlanRequest K}

/-! ### Costs -/

theorem add_le_comboCost {s : SolverSummary K} {combo : PortMap (Label K)}
    (hc : ∀ (p : Port) (l : Label K), combo[p]? = some l → 0 ≤ l.cost) {p : Port} {l : Label K}
    (hl : combo[p]? = some l) : s.cost + l.cost ≤ comboCost s combo := by
  have hsum : l.cost ≤ ((OrdMap.vals combo).map Label.cost).sum := by
    refine List.single_le_sum (fun x hx => ?_) _ (List.mem_map_of_mem (OrdMap.mem_vals.mpr ⟨p, hl⟩))
    obtain ⟨l', hl', rfl⟩ := List.mem_map.mp hx
    obtain ⟨q, hq⟩ := OrdMap.mem_vals.mp hl'
    exact hc q l' hq
  simp only [comboCost, Arith.sum_eq]
  linarith

theorem le_comboCost_own {s : SolverSummary K} {combo : PortMap (Label K)}
    (hc : ∀ (p : Port) (l : Label K), combo[p]? = some l → 0 ≤ l.cost) : s.cost ≤ comboCost s combo := by
  have : 0 ≤ ((OrdMap.vals combo).map Label.cost).sum := by
    refine List.sum_nonneg fun x hx => ?_
    obtain ⟨l', hl', rfl⟩ := List.mem_map.mp hx
    obtain ⟨q, hq⟩ := OrdMap.mem_vals.mp hl'
    exact hc q l' hq
  simp only [comboCost, Arith.sum_eq]
  linarith

theorem Admissible.cost_nonneg (hpos : ∀ s ∈ rq.solvers, 0 < s.cost) {p : Port} {t : Deriv K}
    (h : Admissible rq p t) : 0 ≤ t.cost rq := by
  induction h with
  | leaf hp => exact le_rfl
  | node hs hf ho hk hd ih =>
      refine (hpos _ hs).le.trans (le_comboCost_own fun p l hl => ?_)
      obtain ⟨hp, rfl⟩ := getElem?_combo.mp hl
      exact ih p hp

/-- A derivation costs at least its solver and any one of its kids. -/
theorem Admissible.add_cost_le (hpos : ∀ s ∈ rq.solvers, 0 < s.cost) {s : SolverSummary K}
    {o : Port} {kids : Port → Deriv K} (hk : ∀ p ∈ s.inputs, Admissible rq p (kids p)) {p : Port}
    (hp : p ∈ s.inputs) : s.cost + (kids p).cost rq ≤ (Deriv.node s o kids).cost rq := by
  refine add_le_comboCost (fun q l hl => ?_) (getElem?_combo.mpr ⟨hp, rfl⟩)
  obtain ⟨hq, rfl⟩ := getElem?_combo.mp hl
  exact (hk q hq).cost_nonneg hpos

/-! ### Coverage -/

section Coverage

variable [ToBits K]

/-- A derivation whose inputs are covered by labels is covered itself, or its
candidate is waiting in the frontier. -/
private theorem coverage_node {s : SearchState rq.solvers} (hinv : SearchInv rq s)
    (hsat : Saturated rq s) {v : SolverSummary K} {o : Port} {kids : Port → Deriv K}
    (hv : v ∈ rq.solvers) (hf : passesFilter rq v) (ho : o ∈ v.outputs)
    (hd : Admits rq v (Deriv.combo rq.known v kids))
    (hcov : ∀ p ∈ v.inputs,
      Pareto.Covered Label.dominates (s.labels.at p) ((kids p).label rq.known)) :
    Pareto.Covered Label.dominates (s.labels.at o) ((Deriv.node v o kids).label rq.known) ∨
      ∃ c ∈ s.frontier, c.cost ≤ (Deriv.node v o kids).cost rq := by
  have hchoice : ∀ p, ∃ l : Label K, p ∈ v.inputs →
      l ∈ s.labels.at p ∧ l.dominates ((kids p).label rq.known) := by
    intro p
    by_cases hp : p ∈ v.inputs
    · obtain ⟨l, hl⟩ := hcov p hp
      exact ⟨l, fun _ => hl⟩
    · exact ⟨Label.known (Interval.point 0), fun h => absurd h hp⟩
  choose l hl using hchoice
  obtain ⟨idx, rfl⟩ := List.get_of_mem hv
  -- the combo of the covering labels has been pushed
  let combo := OrdMap.ofFn (rq.solvers.get idx).inputs l
  have hmem : (idx, combo) ∈ proposals rq s.labels := by
    refine mem_proposals.mpr ⟨hf, fun p => ?_, fun p x hx => ?_⟩
    · simp [combo, OrdMap.mem_iff_exists, OrdMap.getElem?_ofFn_eq_some]
    · obtain ⟨hp, rfl⟩ := OrdMap.getElem?_ofFn_eq_some.mp hx
      exact (hl p hp).1
  have hdom : OrdMap.Rel Label.dominates combo (Deriv.combo rq.known (rq.solvers.get idx) kids) :=
    OrdMap.rel_ofFn fun p hp => (hl p hp).2
  -- any sound candidate of that key is as good as the combo
  have hkey : ∀ c : Candidate rq.solvers, Sound rq c →
      c.key = (candidateOf rq (idx, combo)).key →
      c.solver = rq.solvers.get idx ∧
        OrdMap.Rel Label.dominates c.inputs (Deriv.combo rq.known (rq.solvers.get idx) kids) := by
    intro c hc he
    obtain ⟨hi, ht⟩ := Prod.mk.inj he
    have hsolver : c.solver = rq.solvers.get idx :=
      congrArg rq.solvers.get hi
    refine ⟨hsolver, ?_⟩
    have hsame : SameKey c.inputs combo := by
      refine tieKeyFor_inj (fun p => ?_) (hc.tieKey.symm.trans ht)
      rw [hc.ports, hsolver]
      simp [combo, OrdMap.mem_iff_exists, OrdMap.getElem?_ofFn_eq_some]
    exact hsame.dominates.trans hdom fun _ _ _ h h' => trans_of Label.dominates h h'
  rcases hinv.done _ (hsat _ hmem) with ⟨c, hc, he⟩ | ⟨c, hs, he, hout⟩
  · obtain ⟨hsolver, hrel⟩ := hkey c (hinv.sound c hc) he
    refine Or.inr ⟨c, hc, ?_⟩
    rw [(hinv.sound c hc).cost, hsolver]
    exact comboCost_mono hrel
  · obtain ⟨hsolver, hrel⟩ := hkey c hs he
    left
    have hproper := hs.properCombo
    rw [hsolver] at hout
    obtain ⟨x, hx, hxd⟩ := hout (admits_mono hrel hd) o ho
    exact ⟨x, hx, trans_of Label.dominates hxd (outLabel_dominates hproper hrel o)⟩

/-- **Coverage**: at a saturated state every admissible derivation is
dominated by a label, or a candidate of the frontier costs no more. -/
theorem coverage {s : SearchState rq.solvers} (hpos : ∀ v ∈ rq.solvers, 0 < v.cost)
    (hinv : SearchInv rq s) (hsat : Saturated rq s) {p : Port} {t : Deriv K}
    (ht : Admissible rq p t) :
    Pareto.Covered Label.dominates (s.labels.at p) (t.label rq.known) ∨
      ∃ c ∈ s.frontier, c.cost ≤ t.cost rq := by
  induction ht with
  | @leaf p hp =>
      obtain ⟨iv, hiv⟩ := OrdMap.mem_iff_exists.mp hp
      left
      simpa only [Deriv.label, hiv, Option.getD_some] using hinv.known p iv hiv
  | @node v o kids hv hf ho hk hd ih =>
      by_cases hcov : ∀ p ∈ v.inputs,
          Pareto.Covered Label.dominates (s.labels.at p) ((kids p).label rq.known)
      · exact coverage_node hinv hsat hv hf ho hd hcov
      · simp only [not_forall] at hcov
        obtain ⟨p, hp, hn⟩ := hcov
        obtain ⟨c, hc, hle⟩ := (ih p hp).resolve_left hn
        have hkid := Admissible.add_cost_le (o := o) hpos hk hp
        have := (hpos v hv).le
        exact Or.inr ⟨c, hc, by linarith⟩

/-- The invariant holds in the state whose iteration ends the search. -/
theorem Searches.exists_last {f : Except (PlanError K) (Found K)} (h : Searches rq f)
    (ht : rq.target ∉ rq.known) :
    ∃ s, SearchInv rq s ∧ StepCase rq (regenerateCandidates rq s) (.inl f) := by
  obtain ⟨s, hs, hret⟩ := Loop.Returns.exists_last (I := SearchInv rq)
    (fun _ _ hi hstep => hi.step hstep) h (searchInv_init ht)
  exact ⟨s, hs, hret ▸ searchStep_cases s⟩

/-- A popped candidate is the cheapest of the frontier. -/
theorem popMin_cost_le {solvers : List (SolverSummary K)} {frontier rest : List (Candidate solvers)}
    {c c' : Candidate solvers} (hpop : Pareto.popMin Candidate.order frontier = some (c, rest))
    (hc' : c' ∈ frontier) : c.cost ≤ c'.cost := by
  have hord := Pareto.popMin_le hpop hc'
  rw [Candidate.order, Candidate.order, Prod.Lex.toLex_le_toLex] at hord
  rcases hord with hlt | ⟨he, -⟩
  · exact hlt.le
  · exact he.le

/-- The winner is realized within the budget and no admissible derivation
within the budget is cheaper. -/
theorem searches_ok (hpos : ∀ v ∈ rq.solvers, 0 < v.cost) (ht : rq.target ∉ rq.known)
    {f : Found K} (h : Searches rq (.ok f)) :
    Realized rq rq.target f.winner ∧ f.winner.totalError ≤ rq.epsBudget ∧
      ∀ t, Admissible rq rq.target t → t.totalError rq ≤ rq.epsBudget →
        f.winner.cost ≤ t.cost rq := by
  obtain ⟨s, hinv, hcase⟩ := h.exists_last ht
  obtain ⟨h₁, hsat⟩ := hinv.regenerate
  revert h₁ hsat hcase
  generalize regenerateCandidates rq s = s₁
  intro hcase h₁ hsat
  cases hcase with
  | @won c rest l hpop hd hw =>
      have hc : c ∈ s₁.frontier := (Pareto.popMin_perm hpop).mem_iff.mpr List.mem_cons_self
      have hs := h₁.sound c hc
      have hcommit := commitOutputs_spec s₁.labels (stepNode c).outputs c.cost s₁.nodes.length
      obtain ⟨hmem, hbudget, hmin⟩ := winner_eq_some hw
      -- the winner is new: no old target label is within the budget
      rcases hcommit.origin _ _ hmem with hold | ⟨e, he, hl, -⟩
      · exact absurd hbudget (not_le_of_gt (h₁.unmet l hold))
      · obtain ⟨ho, hlabel⟩ := hs.mem_stepNode_outputs.mp he
        have hcost : l.cost = c.cost := by rw [hl]; rfl
        refine ⟨?_, hbudget, fun t ht hb => ?_⟩
        · obtain ⟨t, ht, hte⟩ := hs.realized_outLabel hd ho
          refine ⟨t, ht, ?_⟩
          rw [hte, ← hlabel, hl]
          rfl
        · rcases coverage hpos h₁ hsat ht with ⟨x, hx, hxd⟩ | ⟨c', hc', hle⟩
          · have := h₁.unmet x hx
            have hx' := Label.totalError_le hxd
            exact absurd (hx'.trans hb) (not_le_of_gt this)
          · rw [hcost]
            exact (popMin_cost_le hpop hc').trans hle

/-- A search that runs out of candidates has covered every derivation. -/
theorem searches_error (hpos : ∀ v ∈ rq.solvers, 0 < v.cost) (ht : rq.target ∉ rq.known)
    {e : PlanError K} (h : Searches rq (.error e)) :
    ∃ labels : Labels K, e = exhausted rq labels ∧
      (∀ p, ∀ l ∈ labels.at p, Realized rq p l) ∧
      (∀ l ∈ labels.at rq.target, rq.epsBudget < l.totalError) ∧
      ∀ p t, Admissible rq p t →
        Pareto.Covered Label.dominates (labels.at p) (t.label rq.known) := by
  obtain ⟨s, hinv, hcase⟩ := h.exists_last ht
  obtain ⟨h₁, hsat⟩ := hinv.regenerate
  revert h₁ hsat hcase
  generalize regenerateCandidates rq s = s₁
  intro hcase h₁ hsat
  cases hcase with
  | exhausted hf =>
      refine ⟨s₁.labels, rfl, h₁.realized, h₁.unmet, fun p t htree => ?_⟩
      refine (coverage hpos h₁ hsat htree).resolve_right ?_
      rintro ⟨c, hc, -⟩
      rw [hf] at hc
      cases hc

/-! ### Optimality -/

theorem exhausted_cases (labels : Labels K) :
    (labels.at rq.target = [] ∧ exhausted rq labels = .noApplicableSolver) ∨
      ∃ l ∈ labels.at rq.target, exhausted rq labels = .budgetUnreachable l.totalError ∧
        ∀ l' ∈ labels.at rq.target, l.totalError ≤ l'.totalError := by
  unfold exhausted
  rcases hmin : ((labels.at rq.target).map Label.totalError).min? with - | best
  · rw [List.min?_eq_none_iff, List.map_eq_nil_iff] at hmin
    exact Or.inl ⟨hmin, rfl⟩
  · obtain ⟨hmem, hle⟩ := List.min?_eq_some_iff.mp hmin
    obtain ⟨l, hl, rfl⟩ := List.mem_map.mp hmem
    exact Or.inr ⟨l, hl, rfl, fun l' hl' => hle _ (List.mem_map_of_mem hl')⟩

/-- What an answer of the planner says about the admissible derivations of the
target: a route comes from a label of least cost among those within the
budget; `budgetUnreachable` carries their least total error, and none is
within the budget; `noApplicableSolver` means that there are none. -/
def PlanSpec (rq : PlanRequest K) : Except (PlanError K) (Route K) → Prop
  | .ok route => ∃ f : Found K, Searches rq (.ok f) ∧ route = buildRoute rq.target f ∧
      Realized rq rq.target f.winner ∧ f.winner.totalError ≤ rq.epsBudget ∧
      ∀ t, Admissible rq rq.target t → t.totalError rq ≤ rq.epsBudget →
        f.winner.cost ≤ t.cost rq
  | .error (.budgetUnreachable bestEps) =>
      (∃ t, Admissible rq rq.target t ∧ t.totalError rq = bestEps) ∧
      ∀ t, Admissible rq rq.target t →
        rq.epsBudget < t.totalError rq ∧ bestEps ≤ t.totalError rq
  | .error .noApplicableSolver => ∀ t, ¬ Admissible rq rq.target t
  | .error _ => False

/-- **Optimality and completeness of the planner.**  Past the entry checks,
every answer meets `PlanSpec`. -/
theorem plan_optimal (hpos : ∀ v ∈ rq.solvers, 0 < v.cost) (hentry : entryChecks rq = none)
    {r : Except (PlanError K) (Route K)} (h : Plans rq r) : PlanSpec rq r := by
  have ht := (entryChecks_eq_none.mp hentry).2.1
  obtain ⟨f, hf, rfl⟩ := (plans_iff_searches hentry).mp h
  rcases f with e | f
  · obtain ⟨labels, rfl, hreal, hunmet, hcov⟩ := searches_error hpos ht hf
    have hcovered : ∀ t, Admissible rq rq.target t →
        ∃ l ∈ labels.at rq.target, l.totalError ≤ t.totalError rq := by
      intro t htree
      obtain ⟨l, hl, hd⟩ := hcov _ t htree
      exact ⟨l, hl, Label.totalError_le hd⟩
    rcases exhausted_cases labels with ⟨hnil, he⟩ | ⟨l, hl, he, hmin⟩
    · rw [Except.map, he]
      intro t htree
      obtain ⟨l, hl, -⟩ := hcovered t htree
      rw [hnil] at hl
      cases hl
    · rw [Except.map, he]
      obtain ⟨t, htree, hte⟩ := hreal _ l hl
      refine ⟨⟨t, htree, ?_⟩, fun t' ht' => ?_⟩
      · rw [Deriv.totalError, hte]
        rfl
      · obtain ⟨l', hl', hle⟩ := hcovered t' ht'
        exact ⟨(hunmet l' hl').trans_le hle, (hmin l' hl').trans hle⟩
  · exact ⟨f, hf, rfl, searches_ok hpos ht hf⟩

end Coverage

/-- A coarse cheap solver, and a two-step route that meets the budget. -/
def detourRequest : PlanRequest ℚ :=
  plainRequest
    [plainSolver "coarse" ["x"] [("y", 3)] 1 .both, plainSolver "fine" ["m"] [("y", 1)] 1 .both,
      plainSolver "prep" ["x"] [("m", 0), ("n", 0)] 1 .both]
    [("x", 5)] "y" 2 .both

/-- The route of `detourRequest`. -/
def detourRoute : Route ℚ where
  target := "y"
  steps := [⟨"prep", ⟨OrdMap.ofFn ["x"] fun _ => .point 5, ∅⟩, 0, 1⟩,
    ⟨"fine", ⟨OrdMap.ofFn ["m"] fun _ => .point 5, ∅⟩, 1, 1⟩]
  predictedEps := 1
  totalCost := 2

theorem plan_optimal_detour : PlanSpec detourRequest (.ok detourRoute) :=
  plan_optimal (by decide +kernel) (by decide +kernel) ⟨4, by decide +kernel⟩

end Feldspar

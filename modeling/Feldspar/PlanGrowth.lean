/-
Feldspar/PlanGrowth.lean

More to plan with never makes a plan worse.

A request is looser than another (`Loosens`) if its budget is no smaller, its
known intervals are at least as narrow, and its solvers and tags are at least
the same.  Every derivation that the tighter request admits, the looser one
admits too, with a label that dominates (`Admissible.loosen`); so where the
planner answers the tighter request with a route, it returns on the looser one
as well, and with a route that costs no more.  One check stands in the way:
new solvers may close a cycle of port equivalences, which is refused as a
whole.
-/
import Feldspar.RouteCost
import Feldspar.SearchTermination

set_option linter.unusedSectionVars false

namespace Feldspar

variable {K : Type} [Field K] [LinearOrder K] [IsStrictOrderedRing K]

/-- `rq'` asks for the same, with at least as much to plan with. -/
structure Loosens (rq rq' : PlanRequest K) : Prop where
  target : rq'.target = rq.target
  sense : rq'.sense = rq.sense
  budget : rq.epsBudget ≤ rq'.epsBudget
  tags : ∀ tag ∈ rq.tags, tag ∈ rq'.tags
  solvers : rq.solvers ⊆ rq'.solvers
  known : ∀ (p : Port) (iv : Interval K), rq.known[p]? = some iv →
    ∃ iv', rq'.known[p]? = some iv' ∧ iv'.isSubset iv

/-- An answer is no worse than what the request `rq` allows: the eps that is
reported is within the budget of `rq'`, and no derivation that `rq` admits
within its own budget is cheaper. -/
structure NoWorse (rq rq' : PlanRequest K) (route : Route K) : Prop where
  within : route.predictedEps ≤ rq'.epsBudget
  cheapest : ∀ t, Admissible rq rq.target t → t.totalError rq ≤ rq.epsBudget →
    route.totalCost ≤ t.cost rq

/-! ### Derivations -/

section Loosen

variable {rq rq' : PlanRequest K}

theorem Loosens.passesFilter (h : Loosens rq rq') {s : SolverSummary K}
    (hs : passesFilter rq s) : Feldspar.passesFilter rq' s := by
  unfold Feldspar.passesFilter at hs ⊢
  rwa [h.sense, h.target]

/-- A tighter combo is admitted under more tags. -/
theorem Loosens.admits (h : Loosens rq rq') {s : SolverSummary K} {c c' : PortMap (Label K)}
    (hdom : OrdMap.Rel Label.dominates c' c) (ha : Admits rq s c) : Admits rq' s c' := by
  have htags : Admits rq' s c := by
    rw [Admits, Domain.admits_eq_ok] at ha ⊢
    exact ⟨fun tag htag => h.tags tag (ha.1 tag htag), ha.2⟩
  exact admits_mono hdom htags

theorem known_dominates {iv iv' : Interval K} (h : iv'.isSubset iv) :
    (Label.known iv').dominates (Label.known iv) :=
  ⟨le_rfl, inflate_isSubset_inflate h le_rfl⟩

/-- The looser request admits the same derivations, with labels that dominate. -/
theorem Admissible.loosen (h : Loosens rq rq') {p : Port} {t : Deriv K} (ht : Admissible rq p t) :
    Admissible rq' p t ∧ (t.label rq'.known).dominates (t.label rq.known) := by
  induction ht with
  | @leaf p hp =>
      obtain ⟨iv, hiv⟩ := OrdMap.mem_iff_exists.mp hp
      obtain ⟨iv', hiv', hsub⟩ := h.known p iv hiv
      refine ⟨.leaf (OrdMap.mem_iff_exists.mpr ⟨iv', hiv'⟩), ?_⟩
      simp only [Deriv.label, hiv, hiv', Option.getD_some]
      exact known_dominates hsub
  | @node s o kids hs hf ho hk hd ih =>
      have hcombo : OrdMap.Rel Label.dominates (Deriv.combo rq'.known s kids)
          (Deriv.combo rq.known s kids) := by
        refine ⟨fun q => mem_combo.trans mem_combo.symm, fun q l l' hl hl' => ?_⟩
        obtain ⟨hq, rfl⟩ := getElem?_combo.mp hl
        obtain ⟨-, rfl⟩ := getElem?_combo.mp hl'
        exact (ih q hq).2
      have hproper : ProperCombo (Deriv.combo rq'.known s kids) := by
        intro q l hl
        obtain ⟨hq, rfl⟩ := getElem?_combo.mp hl
        exact (ih q hq).1.proper
      exact ⟨.node (h.solvers hs) (h.passesFilter hf) ho (fun q hq => (ih q hq).1)
        (h.admits hcombo hd), outLabel_dominates hproper hcombo o⟩

/-- A derivation within the budget stays within it, and costs no more. -/
theorem Admissible.loosen_within (h : Loosens rq rq') {t : Deriv K}
    (ht : Admissible rq rq.target t) (hb : t.totalError rq ≤ rq.epsBudget) :
    Admissible rq' rq'.target t ∧ t.totalError rq' ≤ rq'.epsBudget ∧ t.cost rq' ≤ t.cost rq := by
  obtain ⟨ht', hdom⟩ := ht.loosen h
  rw [h.target]
  exact ⟨ht', ((Label.totalError_le hdom).trans hb).trans h.budget, hdom.1⟩

end Loosen

/-! ### Plans -/

section Plans

variable [ToBits K] {rq rq' : PlanRequest K}

/-- A route comes from a derivation within the budget, unless the target was
known. -/
theorem Plans.feasible (hpos : ∀ v ∈ rq.solvers, 0 < v.cost) {route : Route K}
    (h : Plans rq (.ok route)) : 0 < rq.epsBudget ∧ (rq.target ∈ rq.known ∨
      ∃ t, Admissible rq rq.target t ∧ t.totalError rq ≤ rq.epsBudget ∧
        ∃ s ∈ rq.solvers, rq.target ∈ s.outputs) := by
  rcases hentry : entryChecks rq with - | r
  · obtain ⟨hbudget, hunknown, hproducer, -⟩ := entryChecks_eq_none.mp hentry
    obtain ⟨f, hf, he⟩ := (plans_iff_searches hentry).mp h
    rcases f with e | f
    · cases he
    · obtain ⟨⟨t, ht, hlabel⟩, hwithin, -⟩ := searches_ok hpos hunknown hf
      refine ⟨hbudget, Or.inr ⟨t, ht, ?_, hproducer⟩⟩
      rw [Deriv.totalError, hlabel]
      exact hwithin
  · obtain ⟨fuel, hfuel⟩ := h
    rw [plan, hentry] at hfuel
    obtain rfl := Option.some.inj hfuel
    have hpositive : ¬ rq.epsBudget ≤ 0 := by
      intro hle
      rw [entryChecks, if_pos hle] at hentry
      cases hentry
    exact ⟨not_le.mp hpositive, Or.inl (entryChecks_eq_ok hentry).1⟩

/-- The best eps that is reported is the least one of all derivations. -/
theorem Plans.bestEps (hpos : ∀ v ∈ rq.solvers, 0 < v.cost) {best : K}
    (h : Plans rq (.error (.budgetUnreachable best))) :
    (∃ t, Admissible rq rq.target t ∧ t.totalError rq = best) ∧
      ∀ t, Admissible rq rq.target t → best ≤ t.totalError rq := by
  rcases hentry : entryChecks rq with - | r
  · have hunknown := (entryChecks_eq_none.mp hentry).2.1
    obtain ⟨f, hf, he⟩ := (plans_iff_searches hentry).mp h
    rcases f with e | f
    · obtain ⟨labels, rfl, hreal, -, hcov⟩ := searches_error hpos hunknown hf
      rcases exhausted_cases labels with ⟨-, hnone⟩ | ⟨l, hl, hbest, hmin⟩
      · rw [hnone] at he
        cases he
      · rw [hbest] at he
        cases he
        obtain ⟨t, ht, hlabel⟩ := hreal _ l hl
        refine ⟨⟨t, ht, ?_⟩, fun t' ht' => ?_⟩
        · rw [Deriv.totalError, hlabel]
          rfl
        · obtain ⟨l', hl', hdom⟩ := hcov _ t' ht'
          exact (hmin l' hl').trans (Label.totalError_le hdom)
    · cases he
  · -- no entry check reports an eps
    obtain ⟨fuel, hfuel⟩ := h
    rw [plan, hentry] at hfuel
    obtain rfl := Option.some.inj hfuel
    unfold entryChecks at hentry
    split_ifs at hentry
    all_goals cases hentry

/-- Where some derivation is within the budget, the planner returns a route, or
refuses a cycle of port equivalences. -/
theorem Plans.of_feasible [Archimedean K] (hpos : ∀ v ∈ rq.solvers, 0 < v.cost)
    (hbudget : 0 < rq.epsBudget) {t : Deriv K} (ht : Admissible rq rq.target t)
    (hb : t.totalError rq ≤ rq.epsBudget) (hproducer : ∃ s ∈ rq.solvers, rq.target ∈ s.outputs) :
    (detectPortEquivalenceCycle rq.solvers = true ∧
        Plans rq (.error .cyclicPortEquivalence)) ∨
      ∃ route, Plans rq (.ok route) ∧ NoWorse rq rq route := by
  rcases hentry : entryChecks rq with - | r
  · right
    have hunknown := (entryChecks_eq_none.mp hentry).2.1
    obtain ⟨C, hC⟩ := Feasible.exists_horizon ⟨t, ht, hb⟩
    obtain ⟨r, hr⟩ := (hC.mono (le_max_left C 0)).halts hpos hunknown (le_max_right C 0)
    rcases r with e | f
    · obtain ⟨labels, -, -, hunmet, hcov⟩ := searches_error hpos hunknown hr
      obtain ⟨l, hl, hdom⟩ := hcov _ t ht
      exact absurd ((Label.totalError_le hdom).trans hb) (not_le_of_gt (hunmet l hl))
    · obtain ⟨-, hwithin, hcheapest⟩ := searches_ok hpos hunknown hr
      refine ⟨_, (plans_iff_searches hentry).mpr ⟨_, hr, rfl⟩, hwithin, fun t' ht' hb' => ?_⟩
      exact (Searches.totalCost_le hpos hr).trans (hcheapest t' ht' hb')
  · have hplans : Plans rq r := plans_of_entryChecks hentry
    unfold entryChecks at hentry
    split_ifs at hentry with hle hknown hproduced hcycle
    · exact absurd hbudget (not_lt_of_ge hle)
    · obtain rfl := Option.some.inj hentry
      exact Or.inr ⟨_, hplans, hbudget.le, fun t' ht' _ => ht'.cost_nonneg hpos⟩
    · obtain rfl := Option.some.inj hentry
      exact Or.inl ⟨hcycle, hplans⟩
    · refine absurd ?_ hproduced
      obtain ⟨s, hs, ho⟩ := hproducer
      exact List.any_eq_true.mpr ⟨s, hs, List.any_eq_true.mpr ⟨rq.target, ho, by simp⟩⟩

/-- **More to plan with never makes a plan worse**: where the planner finds a
route, it finds one for every looser request, which costs no more than any
derivation that was within the budget before, unless the new solvers close a
cycle of port equivalences.  Where it finds none for either, the best eps that
it reports does not grow. -/
theorem plan_grows [Archimedean K] (hpos : ∀ v ∈ rq'.solvers, 0 < v.cost)
    (h : Loosens rq rq') :
    (∀ route, Plans rq (.ok route) →
      (detectPortEquivalenceCycle rq'.solvers = true ∧
          Plans rq' (.error .cyclicPortEquivalence)) ∨
        ∃ route', Plans rq' (.ok route') ∧ NoWorse rq rq' route') ∧
    ∀ best best', Plans rq (.error (.budgetUnreachable best)) →
      Plans rq' (.error (.budgetUnreachable best')) → best' ≤ best := by
  have hpos' : ∀ v ∈ rq.solvers, 0 < v.cost := fun v hv => hpos v (h.solvers hv)
  refine ⟨fun route hplan => ?_, fun best best' hbest hbest' => ?_⟩
  · obtain ⟨hbudget, hknown | ⟨t, ht, hb, s, hs, ho⟩⟩ := hplan.feasible hpos'
    · -- the target stays known
      right
      obtain ⟨iv, hiv⟩ := OrdMap.mem_iff_exists.mp hknown
      obtain ⟨iv', hiv', -⟩ := h.known _ iv hiv
      have hknown' : rq'.target ∈ rq'.known := by
        rw [h.target]
        exact OrdMap.mem_iff_exists.mpr ⟨iv', hiv'⟩
      have hbudget' : ¬ rq'.epsBudget ≤ 0 := not_le.mpr (hbudget.trans_le h.budget)
      refine ⟨⟨rq'.target, [], 0, 0⟩, plans_of_entryChecks ?_, ?_, fun t ht _ => ?_⟩
      · rw [entryChecks, if_neg hbudget', if_pos hknown']
      · exact (hbudget.trans_le h.budget).le
      · exact ht.cost_nonneg hpos'
    · obtain ⟨ht', hb', -⟩ := ht.loosen_within h hb
      refine (Plans.of_feasible hpos (hbudget.trans_le h.budget) ht' hb'
        ⟨s, h.solvers hs, h.target ▸ ho⟩).imp id ?_
      rintro ⟨route', hplan', hroute⟩
      refine ⟨route', hplan', hroute.within, fun u hu hub => ?_⟩
      obtain ⟨hu', hub', hcost⟩ := hu.loosen_within h hub
      exact (hroute.cheapest u hu' hub').trans hcost
  · obtain ⟨t, ht, rfl⟩ := (hbest.bestEps hpos').1
    obtain ⟨ht', hdom⟩ := ht.loosen h
    rw [← h.target] at ht'
    exact ((hbest'.bestEps hpos).2 t ht').trans (Label.totalError_le hdom)

end Plans

/-- `detourRequest` with one more solver, and a larger budget. -/
def shortcutRequest : PlanRequest ℚ :=
  { detourRequest with
    solvers := plainSolver "direct" ["x"] [("y", 2)] 1 .both :: detourRequest.solvers
    epsBudget := 3 }

theorem loosens_shortcut : Loosens detourRequest shortcutRequest where
  target := rfl
  sense := rfl
  budget := by decide +kernel
  tags := fun _ htag => htag
  solvers := List.subset_cons_self _ _
  known := fun _ iv hiv => ⟨iv, hiv, iv.isSubset_refl⟩

theorem plan_grows_shortcut :
    ∃ route, Plans shortcutRequest (.ok route) ∧ NoWorse detourRequest shortcutRequest route := by
  have hgrows := (plan_grows (by decide +kernel) loosens_shortcut).1 detourRoute
    ⟨4, by decide +kernel⟩
  refine hgrows.resolve_left fun hcycle => ?_
  have hacyclic : detectPortEquivalenceCycle shortcutRequest.solvers = false := by decide +kernel
  rw [hcycle.1] at hacyclic
  cases hacyclic

end Feldspar

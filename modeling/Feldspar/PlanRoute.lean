/-
Feldspar/PlanRoute.lean

`plan()` over a registry (`route.py`), and what a planned route promises an
executor: every step applies a solver that the planner was given, each of its
inputs is known or an output of an earlier step, and the last step outputs the
target.

A payload that the caller supplies enters the planner's known ports as a
width-0 placeholder, unless the port is known as an interval.  The budget of a
request is any float; a budget that is not finite is rejected before the
search.
-/
import Feldspar.Execute
import Feldspar.Replay

set_option linter.unusedSectionVars false

namespace Feldspar

variable {K : Type} [Arith K] [LinearOrder K] {Env : Type}

/-- The request half of the arguments of `solve`. -/
structure SolveRequest (K : Type) [Arith K] [LinearOrder K] where
  known : PortMap (Interval K)
  tags : TagSet
  target : Port
  epsBudget : F64 K
  sense : Sense
  payloads : PortMap PayloadRef
  known_proper : ∀ iv ∈ OrdMap.vals known, iv.Proper

/-- `_PAYLOAD_PLACEHOLDER`. -/
def payloadPlaceholder : Interval K := Interval.point 0

/-- The known ports as the planner sees them. -/
def SolveRequest.planKnown (rq : SolveRequest K) : PortMap (Interval K) :=
  (rq.payloads.map fun _ _ => payloadPlaceholder) ∪ rq.known

theorem SolveRequest.getElem?_planKnown (rq : SolveRequest K) (p : Port) :
    rq.planKnown[p]? = match rq.known[p]? with
      | some iv => some iv
      | none => (rq.payloads[p]?).map fun _ => payloadPlaceholder := by
  rw [planKnown, Std.ExtTreeMap.getElem?_union, Std.ExtTreeMap.getElem?_map]
  rcases rq.known[p]? with - | iv <;> rfl

theorem SolveRequest.planKnown_proper (rq : SolveRequest K) :
    ∀ iv ∈ OrdMap.vals rq.planKnown, iv.Proper := by
  intro iv hiv
  obtain ⟨p, hp⟩ := OrdMap.mem_vals.mp hiv
  rw [rq.getElem?_planKnown] at hp
  rcases hk : rq.known[p]? with - | iv' <;> rw [hk] at hp
  · obtain ⟨ref, -, rfl⟩ := Option.map_eq_some_iff.mp hp
    exact le_rfl
  · cases hp
    exact rq.known_proper _ (OrdMap.mem_vals.mpr ⟨p, hk⟩)

/-- The request as the executor gets it, with a route. -/
def SolveRequest.execRequest (rq : SolveRequest K) (route : Route K) (epsBudget : Option K)
    (env : ℕ → Env) : ExecRequest K Env where
  route
  known := rq.known
  payloads := rq.payloads
  epsBudget
  env

theorem SolveRequest.execRequest_known_proper (rq : SolveRequest K) {route : Route K}
    {epsBudget : Option K} {env : ℕ → Env} (p : Port) (iv : Interval K)
    (h : (rq.execRequest route epsBudget env).known[p]? = some iv) : iv.Proper :=
  rq.known_proper iv (OrdMap.mem_vals.mpr ⟨p, h⟩)

/-- What the planner core is called with. -/
def planRequest (reg : SolverRegistry K Env) (excluded : Std.ExtTreeSet SolverId compare)
    (rq : SolveRequest K) (epsBudget : K) : PlanRequest K where
  solvers := reg.summaries excluded
  known := rq.planKnown
  tags := rq.tags
  target := rq.target
  epsBudget
  sense := rq.sense
  known_proper := rq.planKnown_proper

section Plan

variable [ToBits K]

/-- `plan()` over the solvers that are not excluded returns `r`. -/
def PlansRoute (reg : SolverRegistry K Env) (excluded : Std.ExtTreeSet SolverId compare)
    (rq : SolveRequest K) (r : Except (PlanError K) (Route K)) : Prop :=
  match rq.epsBudget with
  | .nonFinite => r = .error .invalidBudget
  | .finite epsBudget => Plans (planRequest reg excluded rq epsBudget) r

/-- `plan()` over the solvers that are not excluded panics. -/
def RoutePanics (reg : SolverRegistry K Env) (excluded : Std.ExtTreeSet SolverId compare)
    (rq : SolveRequest K) : Prop :=
  ∃ epsBudget, rq.epsBudget = .finite epsBudget ∧ Panics (planRequest reg excluded rq epsBudget)

/-- `plan()`, with at most `fuel` iterations of the search. -/
def planRoute (fuel : ℕ) (reg : SolverRegistry K Env)
    (excluded : Std.ExtTreeSet SolverId compare) (rq : SolveRequest K) :
    Option (Except (PlanError K) (Route K)) :=
  match rq.epsBudget with
  | .nonFinite => some (.error .invalidBudget)
  | .finite epsBudget => plan fuel (planRequest reg excluded rq epsBudget)

theorem plansRoute_of_planRoute {fuel : ℕ} {reg : SolverRegistry K Env}
    {excluded : Std.ExtTreeSet SolverId compare} {rq : SolveRequest K}
    {r : Except (PlanError K) (Route K)} (h : planRoute fuel reg excluded rq = some r) :
    PlansRoute reg excluded rq r := by
  unfold planRoute at h
  unfold PlansRoute
  split at h
  · exact (Option.some.inj h).symm
  · exact ⟨fuel, h⟩

theorem Plans.unique {rq : PlanRequest K} {r r' : Except (PlanError K) (Route K)}
    (h : Plans rq r) (h' : Plans rq r') : r = r' := by
  rcases hentry : entryChecks rq with - | r₀
  · obtain ⟨f, hf, rfl⟩ := (plans_iff_searches hentry).mp h
    obtain ⟨f', hf', rfl⟩ := (plans_iff_searches hentry).mp h'
    rw [Loop.Returns.unique hf hf']
  · obtain ⟨fuel, hf⟩ := h
    obtain ⟨fuel', hf'⟩ := h'
    rw [plan, hentry] at hf hf'
    exact (Option.some.inj hf).symm.trans (Option.some.inj hf')

theorem PlansRoute.plans {reg : SolverRegistry K Env}
    {excluded : Std.ExtTreeSet SolverId compare} {rq : SolveRequest K} {route : Route K}
    (h : PlansRoute reg excluded rq (.ok route)) :
    ∃ epsBudget, Plans (planRequest reg excluded rq epsBudget) (.ok route) := by
  unfold PlansRoute at h
  rcases hb : rq.epsBudget with epsBudget | - <;> rw [hb] at h
  · exact ⟨epsBudget, h⟩
  · cases h

theorem PlansRoute.unique {reg : SolverRegistry K Env}
    {excluded : Std.ExtTreeSet SolverId compare} {rq : SolveRequest K}
    {r r' : Except (PlanError K) (Route K)} (h : PlansRoute reg excluded rq r)
    (h' : PlansRoute reg excluded rq r') : r = r' := by
  unfold PlansRoute at h h'
  rcases hb : rq.epsBudget with epsBudget | - <;> rw [hb] at h h'
  · exact h.unique h'
  · exact h.trans h'.symm

/-! ### The steps of a planned route -/

/-- The step applies `v` to `inputs`, each known or an output of an earlier
step. -/
structure PlannedStep (rq : PlanRequest K) (route : Route K) (k : ℕ) (step : RouteStep K)
    (v : SolverSummary K) (inputs : PortMap (Label K)) : Prop where
  mem : v ∈ rq.solvers
  solverId : step.solverId = v.solverId
  ports : ∀ p, p ∈ inputs ↔ p ∈ v.inputs
  realized : step.realizedDomain.portBox = inflatedInputs inputs
  admits : Admits rq v inputs
  source : ∀ p l, inputs[p]? = some l →
    (rq.known[p]? = some l.interval ∧ l.eps = 0) ∨
      ∃ m step', m < k ∧ route.steps[m]? = some step' ∧ Writes rq.solvers step' p

variable {rq : PlanRequest K} {route : Route K}

theorem Plans.step (hids : (rq.solvers.map SolverSummary.solverId).Nodup)
    (h : Plans rq (.ok route)) {k : ℕ} {step : RouteStep K} (hk : route.steps[k]? = some step) :
    ∃ v inputs, PlannedStep rq route k step v inputs := by
  rcases plans_ok_cases h with ⟨-, rfl⟩ | ⟨-, f, hf, rfl⟩
  · cases hk
  rw [hf.getElem?_steps, Option.bind_eq_some_iff] at hk
  obtain ⟨i, hi, hk⟩ := hk
  obtain ⟨node, hnode, rfl⟩ := Option.map_eq_some_iff.mp hk
  obtain ⟨⟨v, hv⟩, hsrc⟩ := hf.arena.1 i node hnode
  refine ⟨v, node.inputs, hv.mem, hv.solverId, hv.inputs, rfl, hv.admits, fun p l hl => ?_⟩
  have hs := hsrc p l hl
  rcases hc : l.node with - | j
  · rw [Sourced, hc] at hs
    exact Or.inl hs
  · obtain ⟨hlt, hidx, node', hnode', hp⟩ := hf.producer_before hi hnode hl hc
    refine Or.inr ⟨_, routeStep node', hlt, ?_, (hf.writes_iff hids hnode').mpr hp⟩
    rw [hf.getElem?_steps, hidx, Option.bind_some, hnode']
    rfl

theorem Plans.target (h : Plans rq (.ok route)) : route.target = rq.target := by
  rcases plans_ok_cases h with ⟨-, rfl⟩ | ⟨-, f, -, rfl⟩ <;> rfl

/-- A route built from a found label ends in the label's producer, or has a
known target. -/
theorem Searches.steps_cases {f : Found K} (hf : Searches rq (.ok f)) :
    rq.target ∈ rq.known ∨ ∃ (init : List (RouteStep K)) (node : StepNode K),
      (∃ i : ℕ, f.nodes[i]? = some node) ∧
      rq.target ∈ node.outputs ∧ (buildRoute rq.target f).steps = init ++ [routeStep node] := by
  obtain ⟨hnodes, hsrc⟩ := hf.arena
  rcases hw : f.winner.node with - | ptr <;> rw [Sourced, hw] at hsrc
  · exact Or.inl (OrdMap.mem_iff_exists.mpr ⟨_, hsrc.1⟩)
  · obtain ⟨hlt, node, hnode, hp⟩ := hsrc
    obtain ⟨-, init, hinit, -⟩ := walkFrom_spec (acyclic_of_nodeOk hnodes) hw hlt
    refine Or.inr ⟨init.filterMap fun i => f.nodes[i]?.map routeStep, node, ⟨ptr, hnode⟩, hp, ?_⟩
    simp [buildRoute, hinit, hnode]

/-- A planned route with steps ends in a producer of the target. -/
theorem Plans.last (hids : (rq.solvers.map SolverSummary.solverId).Nodup)
    (h : Plans rq (.ok route)) {step : RouteStep K} (hs : route.steps.getLast? = some step) :
    Writes rq.solvers step rq.target := by
  rcases plans_ok_cases h with ⟨-, rfl⟩ | ⟨hentry, f, hf, rfl⟩
  · cases hs
  rcases hf.steps_cases with hk | ⟨init, node, ⟨i, hnode⟩, hp, hsteps⟩
  · exact absurd hk (entryChecks_eq_none.mp hentry).2.1
  · rw [hsteps, List.getLast?_append, List.getLast?_singleton] at hs
    obtain rfl := Option.some.inj hs
    exact (hf.writes_iff hids hnode).mpr hp

/-- A planned route without steps has a known target. -/
theorem Plans.known_of_nil (h : Plans rq (.ok route)) (hnil : route.steps = []) :
    rq.target ∈ rq.known := by
  rcases plans_ok_cases h with ⟨hk, -⟩ | ⟨-, f, hf, rfl⟩
  · exact hk
  rcases hf.steps_cases with hk | ⟨init, node, -, -, hsteps⟩
  · exact hk
  · rw [hsteps] at hnil
    simp at hnil

end Plan

end Feldspar

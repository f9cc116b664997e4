/-
Feldspar/MarginSeeking.lean

The margin-driven refinement of a discharge (`_FeaModel.estimate` in
`pack/models.py`).

A model solves with a loose budget first.  Where the answer's eps is too fat for
the margin that its worst-corner value leaves, the margin is the budget of the
next solve.  The budgets strictly decrease.  A budget bounds half the width of
the value plus its eps (`Engine.within_budget`), the claim only needs the eps to
be within the margin: so an engine that has an answer to the margin closes the
claim, and one that only has a closing rung need not.
-/
import Feldspar.DomainSafety
import Feldspar.Harness
import Feldspar.SolveTransparency

set_option linter.unusedSectionVars false

namespace Feldspar

variable {K : Type} [Field K] [LinearOrder K] {Env D : Type}

/-! ### The model -/

/-- What a model reads of a request. -/
structure DischargeRequest (K : Type) [Field K] [LinearOrder K] where
  inputs : PortMap (Interval K)
  limit : K
  inputs_proper : ∀ iv ∈ OrdMap.vals inputs, iv.Proper

/-- A `_FeaModel`; `upper` is `signature.sense.upper`. -/
structure FeaModel where
  modelId : String
  upper : Bool
  target : Port
  engineTags : TagSet
  solverVersion : String

/-- Texts of floats, errors and digests: `repr`, `:g`, `_describe`, hex. -/
structure EngineText (K D : Type) [Field K] [LinearOrder K] where
  repr : K → String
  general : K → String
  describe : SolveFailure K D → String
  digest : D → String

/-- `_structured_coverage`. -/
def structuredCoverage (text : EngineText K D) (inputs : PortMap (Interval K)) :
    List Harness.CoverageAxis :=
  (inputs.toList.filter fun input => input.2.lo ≠ input.2.hi).map fun input =>
    { axis := input.1
      interval := "[" ++ text.general input.2.lo ++ ", " ++ text.general input.2.hi ++ "]" }

/-- `map_engine_error`. -/
def mapEngineError (text : EngineText K D) (modelId : String) (error : SolveFailure K D) :
    Harness.DomainError where
  modelId := modelId
  message := "feldspar engine failure: " ++ text.describe error

/-- `margin_exhausted_error`. -/
def marginExhaustedError (text : EngineText K D) (modelId : String)
    (epsAchieved epsNeeded limit : K) (error : SolveFailure K D) : Harness.DomainError where
  modelId := modelId
  message := "margin-driven refinement exhausted: eps achieved " ++ text.repr epsAchieved ++
    " vs needed " ++ text.repr epsNeeded ++ " to close the claim at limit " ++ text.repr limit ++
    " (engine: " ++ text.describe error ++ ")"

/-- Why there is no prediction: an `Err`, or an exception of the engine. -/
inductive EstimateFailure
  | err (e : Harness.DomainError)
  | raised (e : PyError)
  deriving DecidableEq

/-- An `Err` of the engine becomes one of the model. -/
def estimateFailure (onErr : SolveFailure K D → Harness.DomainError) :
    SolveFailure K D → EstimateFailure
  | .raised e => .raised e
  | e => .err (onErr e)

namespace FeaModel

/-- `_EPS_BUDGET`. -/
def epsBudget : K := ((10 ^ 30 : ℕ) : K)

/-- `_MAX_MARGIN_ATTEMPTS`. -/
def maxMarginAttempts : ℕ := 4

variable (model : FeaModel) (text : EngineText K D) (request : DischargeRequest K)

/-- `_margin_needed`. -/
def marginNeeded (value limit : K) : K := if model.upper then limit - value else value - limit

/-- The worst corner of a value. -/
def worstCorner (value : Interval K) : K := if model.upper then value.hi else value.lo

/-- What the engine is asked with a budget. -/
def solveRequest (budget : K) : SolveRequest K where
  known := request.inputs
  tags := model.engineTags
  target := model.target
  epsBudget := .finite budget
  sense := if model.upper then .upper else .lower
  payloads := ∅
  known_proper := request.inputs_proper

def prediction (solution : Solution K D) : Harness.Prediction K where
  value := model.worstCorner solution.value
  eps := solution.eps
  coverage := 1
  coverageAxes := structuredCoverage text request.inputs
  inDomain := true
  solverVersion := some model.solverVersion
  settingsDigest := some (text.digest solution.settingsDigest)

variable (solve : SolveRequest K → SolveResult K D)

/-- The loop after a solve with `budget` gave `solution`, with so many attempts
left; and the budgets of these attempts. -/
def seek : ℕ → K → Solution K D → Except EstimateFailure (Harness.Prediction K) × List K
  | attempts, budget, solution =>
      let value := model.worstCorner solution.value
      let needed := model.marginNeeded value request.limit
      -- the value alone busts the limit
      if needed ≤ 0 then (.ok (model.prediction text request solution), [])
      -- the claim closes
      else if solution.eps ≤ needed then (.ok (model.prediction text request solution), [])
      -- no tighter than the last request
      else if budget ≤ needed then (.ok (model.prediction text request solution), [])
      else
        match attempts with
        | 0 => (.ok (model.prediction text request solution), [])
        | attempts + 1 =>
            match solve (model.solveRequest request needed) with
            | .error e =>
                (.error (estimateFailure (marginExhaustedError text model.modelId solution.eps
                  needed request.limit) e), [needed])
            | .ok solution =>
                let rest := seek attempts needed solution
                (rest.1, needed :: rest.2)

/-- `estimate`, and the budgets of its attempts. -/
def estimate : Except EstimateFailure (Harness.Prediction K) × List K :=
  match solve (model.solveRequest request epsBudget) with
  | .error e => (.error (estimateFailure (mapEngineError text model.modelId) e), [epsBudget])
  | .ok solution =>
      let rest := model.seek text request solve (maxMarginAttempts - 1) epsBudget solution
      (rest.1, epsBudget :: rest.2)

/-- What a claim asks of a value and its eps. -/
def Closes (limit value eps : K) : Prop :=
  if model.upper then value + eps ≤ limit else limit ≤ value - eps

end FeaModel

/-! ### Engines -/

/-- The value and the eps of a route, or of a rung of a ladder. -/
structure Rung (K : Type) where
  value : Interval K
  eps : K

def Solution.rung (solution : Solution K D) : Rung K :=
  ⟨solution.value, solution.eps⟩

/-- What a budget is compared with. -/
def Rung.charged (rung : Rung K) : K := totalError rung.value rung.eps

/-- A deterministic engine, for requests that differ in their budget, and the
rungs that it has. -/
structure Engine (K D : Type) [Field K] [LinearOrder K] (query : K → SolveRequest K) where
  solve : SolveRequest K → SolveResult K D
  rungs : Set (Rung K)
  mem_rungs : ∀ budget solution, solve (query budget) = .ok solution → solution.rung ∈ rungs
  proper : ∀ budget solution, solve (query budget) = .ok solution → solution.value.Proper
  within_budget : ∀ budget solution, solve (query budget) = .ok solution →
    solution.rung.charged ≤ budget

namespace FeaModel

variable {model : FeaModel} {text : EngineText K D} {request : DischargeRequest K}

/-- The worst corner is the same at every rung. -/
def FixedValue (model : FeaModel) (E : Engine K D (model.solveRequest request)) (v : K) : Prop :=
  ∀ rung ∈ E.rungs, model.worstCorner rung.value = v

/-- The budgets strictly decrease, and a rung that closes the claim is enough. -/
structure SeeksMargin (model : FeaModel) (text : EngineText K D) (request : DischargeRequest K)
    (E : Engine K D (model.solveRequest request)) : Prop where
  budgets : (model.estimate text request E.solve).2.Pairwise fun a b => b < a
  closes : ∀ v, FixedValue model E v → (∃ rung ∈ E.rungs, model.Closes request.limit v rung.eps) →
    ∃ p, (model.estimate text request E.solve).1 = .ok p
      ∧ model.Closes request.limit p.value p.eps

/-- The engine has an answer to the loose budget, and it closes the claim or the
engine has one to the margin. -/
def AnswersMargin (model : FeaModel) (request : DischargeRequest K)
    (E : Engine K D (model.solveRequest request)) (v : K) : Prop :=
  ∃ solution, E.solve (model.solveRequest request epsBudget) = .ok solution
    ∧ (model.Closes request.limit v solution.eps
      ∨ 0 < model.marginNeeded v request.limit
        ∧ ∃ solution', E.solve (model.solveRequest request (model.marginNeeded v request.limit))
          = .ok solution')

/-! ### The budgets -/

section Seek

variable {solve : SolveRequest K → SolveResult K D} {budget needed : K} {solution : Solution K D}

/-- Nothing more is to be asked of the engine. -/
theorem seek_stop {attempts : ℕ}
    (hneeded : model.marginNeeded (model.worstCorner solution.value) request.limit = needed)
    (h : needed ≤ 0 ∨ solution.eps ≤ needed ∨ budget ≤ needed) :
    model.seek text request solve attempts budget solution
      = (.ok (model.prediction text request solution), []) := by
  subst hneeded
  unfold seek
  by_cases hbusts : model.marginNeeded (model.worstCorner solution.value) request.limit ≤ 0
  · exact if_pos hbusts
  refine (if_neg hbusts).trans ?_
  by_cases heps : solution.eps
      ≤ model.marginNeeded (model.worstCorner solution.value) request.limit
  · exact if_pos heps
  refine (if_neg heps).trans ?_
  exact if_pos ((h.resolve_left hbusts).resolve_left heps)

/-- The margin is the next budget. -/
theorem seek_go {attempts : ℕ}
    (hneeded : model.marginNeeded (model.worstCorner solution.value) request.limit = needed)
    (hpos : ¬ needed ≤ 0) (heps : ¬ solution.eps ≤ needed) (hbudget : ¬ budget ≤ needed) :
    model.seek text request solve (attempts + 1) budget solution
      = match solve (model.solveRequest request needed) with
        | .error e =>
            (.error (estimateFailure (marginExhaustedError text model.modelId solution.eps
              needed request.limit) e), [needed])
        | .ok solution =>
            ((model.seek text request solve attempts needed solution).1,
              needed :: (model.seek text request solve attempts needed solution).2) := by
  subst hneeded
  conv_lhs => unfold seek
  exact (if_neg hpos).trans ((if_neg heps).trans (if_neg hbudget))

theorem seek_zero :
    model.seek text request solve 0 budget solution
      = (.ok (model.prediction text request solution), []) := by
  by_cases h : model.marginNeeded (model.worstCorner solution.value) request.limit ≤ 0
      ∨ solution.eps ≤ model.marginNeeded (model.worstCorner solution.value) request.limit
      ∨ budget ≤ model.marginNeeded (model.worstCorner solution.value) request.limit
  · exact seek_stop rfl h
  · obtain ⟨hpos, h⟩ := not_or.mp h
    obtain ⟨heps, hbudget⟩ := not_or.mp h
    unfold seek
    exact (if_neg hpos).trans ((if_neg heps).trans (if_neg hbudget))

/-- Each budget is below the one before. -/
theorem seek_budgets (attempts : ℕ) (budget : K) (solution : Solution K D) :
    (budget :: (model.seek text request solve attempts budget solution).2).Pairwise
      fun a b => b < a := by
  induction attempts generalizing budget solution with
  | zero =>
      rw [seek_zero]
      exact List.pairwise_singleton _ _
  | succ attempts ih =>
      generalize hneeded :
        model.marginNeeded (model.worstCorner solution.value) request.limit = needed
      by_cases h : needed ≤ 0 ∨ solution.eps ≤ needed ∨ budget ≤ needed
      · rw [seek_stop hneeded h]
        exact List.pairwise_singleton _ _
      · obtain ⟨hpos, h⟩ := not_or.mp h
        obtain ⟨heps, hbudget⟩ := not_or.mp h
        rw [seek_go hneeded hpos heps hbudget]
        have hlt : needed < budget := not_le.mp hbudget
        rcases solve (model.solveRequest request needed) with e | solution'
        · exact List.pairwise_pair.mpr hlt
        · -- the rest is below `needed`
          have hrest := ih needed solution'
          refine List.pairwise_cons.mpr ⟨?_, hrest⟩
          intro later hlater
          rcases List.mem_cons.mp hlater with rfl | hlater
          · exact hlt
          · exact (List.rel_of_pairwise_cons hrest hlater).trans hlt

theorem estimate_budgets : (model.estimate text request solve).2.Pairwise fun a b => b < a := by
  unfold estimate
  rcases solve (model.solveRequest request epsBudget) with e | solution
  · exact List.pairwise_singleton _ _
  · exact seek_budgets _ _ _

end Seek

/-! ### Closing the claim -/

section Closing

variable [IsStrictOrderedRing K]

theorem closes_iff {limit value eps : K} :
    model.Closes limit value eps ↔ eps ≤ model.marginNeeded value limit := by
  unfold Closes marginNeeded
  rcases model.upper with - | -
  · exact le_sub_comm
  · exact le_sub_iff_add_le'.symm

theorem eps_le_charged (rung : Rung K) (h : rung.value.Proper) : rung.eps ≤ rung.charged := by
  have hwidth : 0 ≤ rung.value.halfWidth := div_nonneg (sub_nonneg.mpr h) zero_le_two
  exact le_add_of_nonneg_left hwidth

variable {E : Engine K D (model.solveRequest request)} {v : K}

/-- An answer is within its budget also without the width. -/
theorem eps_le_budget {budget : K} {solution : Solution K D}
    (h : E.solve (model.solveRequest request budget) = .ok solution) : solution.eps ≤ budget :=
  (eps_le_charged solution.rung (E.proper budget solution h)).trans
    (E.within_budget budget solution h)

theorem FixedValue.worstCorner_eq (hv : FixedValue model E v) {budget : K}
    {solution : Solution K D}
    (h : E.solve (model.solveRequest request budget) = .ok solution) :
    model.worstCorner solution.value = v :=
  hv _ (E.mem_rungs budget solution h)

theorem estimate_closes_iff (hv : FixedValue model E v) :
    (∃ p, (model.estimate text request E.solve).1 = .ok p
        ∧ model.Closes request.limit p.value p.eps)
      ↔ AnswersMargin model request E v := by
  unfold estimate AnswersMargin
  rcases hloose : E.solve (model.solveRequest request epsBudget) with e | solution
  · -- the engine has no answer at all
    constructor
    · rintro ⟨p, ⟨⟩, -⟩
    · rintro ⟨solution, ⟨⟩, -⟩
  have hvalue := hv.worstCorner_eq hloose
  have hneeded : model.marginNeeded (model.worstCorner solution.value) request.limit
      = model.marginNeeded v request.limit := by
    rw [hvalue]
  generalize hm : model.marginNeeded v request.limit = m at hneeded
  show (∃ p, (model.seek text request E.solve (2 + 1) epsBudget solution).1 = .ok p ∧ _) ↔ _
  by_cases hstop : m ≤ 0 ∨ solution.eps ≤ m ∨ epsBudget ≤ m
  · -- the loose answer is the prediction
    rw [seek_stop hneeded hstop]
    have hprediction : (∃ p, Except.ok (model.prediction text request solution)
          = (Except.ok p : Except EstimateFailure (Harness.Prediction K))
        ∧ model.Closes request.limit p.value p.eps)
        ↔ model.Closes request.limit v solution.eps := by
      rw [← hvalue]
      constructor
      · rintro ⟨p, hp, hcloses⟩
        obtain rfl := Except.ok.inj hp
        exact hcloses
      · exact fun hcloses => ⟨_, rfl, hcloses⟩
    rw [hprediction]
    constructor
    · exact fun hcloses => ⟨solution, rfl, .inl hcloses⟩
    · rintro ⟨solution', hsolution, hcloses | ⟨hpos, -⟩⟩
      · exact Except.ok.inj hsolution ▸ hcloses
      · -- the engine was asked for no more than the margin
        rw [closes_iff, hm]
        rcases hstop with hle | heps | hbudget
        · exact absurd hle (not_le.mpr hpos)
        · exact heps
        · exact (eps_le_budget hloose).trans hbudget
  · obtain ⟨hpos, h⟩ := not_or.mp hstop
    obtain ⟨heps, hbudget⟩ := not_or.mp h
    rw [seek_go hneeded hpos heps hbudget]
    have hopen : ¬ model.Closes request.limit v solution.eps := by
      rw [closes_iff, hm]
      exact heps
    rcases hmargin : E.solve (model.solveRequest request m) with e | solution'
    · -- the engine has no answer to the margin
      constructor
      · rintro ⟨p, ⟨⟩, -⟩
      · rintro ⟨solution', hsolution, hcloses | ⟨-, solution'', hanswer⟩⟩
        · exact absurd (Except.ok.inj hsolution ▸ hcloses) hopen
        · cases hanswer
    · -- it has one, and the next attempt is the last
      have hvalue' := hv.worstCorner_eq hmargin
      have hneeded' : model.marginNeeded (model.worstCorner solution'.value) request.limit = m := by
        rw [hvalue', hm]
      have heps' := eps_le_budget hmargin
      refine iff_of_true ?_ ⟨solution, rfl, .inr ⟨not_le.mp hpos, solution', rfl⟩⟩
      refine ⟨model.prediction text request solution', ?_, ?_⟩
      · show (model.seek text request E.solve 2 m solution').1 = _
        rw [seek_stop hneeded' (.inr (.inl heps'))]
      · show model.Closes request.limit (model.worstCorner solution'.value) solution'.eps
        rw [hvalue', closes_iff, hm]
        exact heps'

/-- The budgets always decrease, so only the prediction matters. -/
theorem seeksMargin_of_iff {P : K → Prop}
    (hP : ∀ v, FixedValue model E v →
      ((∃ p, (model.estimate text request E.solve).1 = .ok p
          ∧ model.Closes request.limit p.value p.eps) ↔ P v)) :
    SeeksMargin model text request E ↔ ∀ v, FixedValue model E v →
      (∃ rung ∈ E.rungs, model.Closes request.limit v rung.eps) → P v := by
  constructor
  · intro h v hv hrung
    exact (hP v hv).mp (h.closes v hv hrung)
  · intro h
    refine ⟨estimate_budgets, ?_⟩
    intro v hv hrung
    exact (hP v hv).mpr (h v hv hrung)

/-- Margin seeking closes what can be closed exactly where the engine answers. -/
theorem seeksMargin_iff (model : FeaModel) (text : EngineText K D) (request : DischargeRequest K)
    (E : Engine K D (model.solveRequest request)) :
    SeeksMargin model text request E ↔ ∀ v, FixedValue model E v →
      (∃ rung ∈ E.rungs, model.Closes request.limit v rung.eps) →
        AnswersMargin model request E v :=
  seeksMargin_of_iff fun _ hv => estimate_closes_iff hv

/-- The engine answers a budget that one of its rungs is charged within. -/
def Complete (E : Engine K D (model.solveRequest request)) : Prop :=
  ∀ budget, (∃ rung ∈ E.rungs, rung.charged ≤ budget) →
    ∃ solution, E.solve (model.solveRequest request budget) = .ok solution

theorem Complete.answers_iff (hE : Complete E) (budget : K) :
    (∃ solution, E.solve (model.solveRequest request budget) = .ok solution)
      ↔ ∃ rung ∈ E.rungs, rung.charged ≤ budget := by
  refine ⟨?_, hE budget⟩
  rintro ⟨solution, h⟩
  exact ⟨_, E.mem_rungs _ _ h, E.within_budget _ _ h⟩

/-- For such an engine, the margin has to hold half the width as well. -/
theorem seeksMargin_iff_charged (hE : Complete E) :
    SeeksMargin model text request E ↔ ∀ v, FixedValue model E v →
      (∃ rung ∈ E.rungs, model.Closes request.limit v rung.eps) →
        ∃ solution, E.solve (model.solveRequest request epsBudget) = .ok solution
          ∧ (model.Closes request.limit v solution.eps
            ∨ 0 < model.marginNeeded v request.limit
              ∧ ∃ rung ∈ E.rungs, rung.charged ≤ model.marginNeeded v request.limit) := by
  apply seeksMargin_of_iff
  intro v hv
  rw [estimate_closes_iff hv, AnswersMargin, hE.answers_iff]

end Closing

end FeaModel

/-! ### The engine of a registry -/

section Registry

variable [CanonicalDigest K D] [DecidableEq D] [ToBits K]
variable (reg : SolverRegistry K Env) (policy : RoutePolicy) (env : ℕ → ℕ → Env)
variable (query : K → SolveRequest K)

/-- What the planned routes give, for every budget and after every exclusion. -/
def registryRungs : Set (Rung K) :=
  {rung | ∃ (budget : K) (s : LoopState K Env D) (route : Route K) (solution : Solution K D),
    PlansRoute reg s.excluded (query budget) (.ok route)
      ∧ execution reg ⟨query budget, policy, env⟩ s route = .ok solution
      ∧ rung = solution.rung}

/-- What a call without the caches returns, it executed in a state without. -/
theorem exists_attempt {call : SolveCall K Env} {s' : LoopState K Env D} {solution : Solution K D}
    (h : Retry.Returns (Attempts reg call) (.start none none) (.ok solution, s')) :
    ∃ s : LoopState K Env D, s.stepCache = none ∧ s.solveCache = none
      ∧ Attempts reg call s (.inl (.ok solution, s')) := by
  obtain ⟨k, s, hs, hend⟩ := h.exists_reached
  refine ⟨s, ?_, reaches_solveCache hs, hend⟩
  apply hs.invariant (I := fun _ s => s.stepCache = none) rfl
  rintro k t u - ht hu
  obtain ⟨route, record, solverId, -, -, hcache⟩ := attempt_goesOn hu
  rw [hcache, ht]
  exact executeWithAttribution_none_snd

variable [IsStrictOrderedRing K]

theorem execution_proper {call : SolveCall K Env} {s : LoopState K Env D} {route : Route K}
    {solution : Solution K D} (hnone : s.stepCache = none)
    (h : execution reg call s route = .ok solution) : solution.value.Proper := by
  rw [execution, hnone] at h
  obtain ⟨st, hw, hsol⟩ := execute_ok (Prod.ext h rfl)
  obtain ⟨value, hvalue, hsol⟩ := Fallible.bind_eq_ok.mp hsol
  obtain ⟨digest, -, hsol⟩ := Fallible.bind_eq_ok.mp hsol
  obtain rfl := Except.ok.inj hsol
  exact (hw.properState cacheSound_none call.request.execRequest_known_proper).proper _ _
    (index_eq_ok.mp hvalue)

section Returned

variable {reg policy env query} {budget : K} {solution : Solution K D} {s' : LoopState K Env D}

theorem returned_rung (h : Retry.Returns (Attempts reg ⟨query budget, policy, env⟩)
    (.start none none) (.ok solution, s')) :
    solution.rung ∈ registryRungs (D := D) reg policy env query := by
  obtain ⟨s, -, hnone, hend⟩ := exists_attempt reg h
  obtain ⟨route, executed, hplan, hx, -, rfl⟩ := attempt_ok hnone hend
  exact ⟨budget, s, route, executed, hplan, hx, rfl⟩

theorem returned_proper (h : Retry.Returns (Attempts reg ⟨query budget, policy, env⟩)
    (.start none none) (.ok solution, s')) : solution.value.Proper := by
  obtain ⟨s, hstep, hnone, hend⟩ := exists_attempt reg h
  obtain ⟨route, executed, -, hx, -, rfl⟩ := attempt_ok hnone hend
  show executed.value.Proper
  exact execution_proper reg hstep hx

theorem returned_within_budget (hquery : (query budget).epsBudget = .finite budget)
    (h : Retry.Returns (Attempts reg ⟨query budget, policy, env⟩) (.start none none)
      (.ok solution, s')) : solution.rung.charged ≤ budget := by
  obtain ⟨s, -, hnone, hend⟩ := exists_attempt reg h
  obtain ⟨b, hb, hle⟩ := (succeeds_of_attempts hnone hend).within_budget
  obtain rfl : budget = b := F64.finite.inj (hquery.symm.trans hb)
  exact hle

end Returned

/-- `solve` over a registry, without the caches, is an engine. -/
def Engine.ofRegistry (hquery : ∀ budget, (query budget).epsBudget = .finite budget)
    (solve : SolveRequest K → SolveResult K D)
    (hsolve : ∀ budget solution, solve (query budget) = .ok solution →
      ∃ s', Retry.Returns (Attempts reg ⟨query budget, policy, env⟩) (.start none none)
        (.ok solution, s')) : Engine K D query where
  solve := solve
  rungs := registryRungs (D := D) reg policy env query
  mem_rungs budget solution h := (hsolve budget solution h).elim fun _ => returned_rung
  proper budget solution h := (hsolve budget solution h).elim fun _ => returned_proper
  within_budget budget solution h :=
    (hsolve budget solution h).elim fun _ => returned_within_budget (hquery budget)

end Registry

/-! ### A ladder -/

/-- A solution with the value and the eps of a rung. -/
def rungSolution (rung : Rung ℚ) : Solution ℚ Unit where
  target := "t"
  value := rung.value
  eps := rung.eps
  route := ⟨"t", [], 0, 0⟩
  settingsDigest := ()
  solverVersions := ∅
  attempts := []
  cacheHit := false
  stepEps := ∅
  stepCitations := ∅
  stepDeclaredDomain := ∅
  stepAlgebraicForm := ∅
  stepAdmissionPredicate := ∅
  epsBudget := none

/-- One direction with a ladder: the climb stops at the first rung whose eps is
within the budget, and the realized error is checked. -/
def ladderSolve (rungs : List (Rung ℚ)) (rq : SolveRequest ℚ) : SolveResult ℚ Unit :=
  match rq.epsBudget with
  | .nonFinite => .error (.noRouteRemaining [])
  | .finite budget =>
      match rungs.find? fun rung => rung.eps ≤ budget with
      | none => .error (.noRouteRemaining [])
      | some rung =>
          if budget < rung.charged then .error (.noRouteRemaining []) else .ok (rungSolution rung)

theorem ladderSolve_eq_ok {rungs : List (Rung ℚ)} {rq : SolveRequest ℚ} {budget : ℚ}
    (hquery : rq.epsBudget = .finite budget) {solution : Solution ℚ Unit}
    (h : ladderSolve rungs rq = .ok solution) :
    ∃ rung ∈ rungs, solution = rungSolution rung ∧ rung.charged ≤ budget := by
  rw [ladderSolve, hquery] at h
  rcases hfind : rungs.find? fun rung => rung.eps ≤ budget with _ | rung
  · simp only [hfind] at h
    cases h
  · simp only [hfind] at h
    by_cases hlt : budget < rung.charged
    · rw [if_pos hlt] at h
      cases h
    · rw [if_neg hlt] at h
      exact ⟨rung, List.mem_of_find?_eq_some hfind, (Except.ok.inj h).symm, not_lt.mp hlt⟩

/-- A ladder of rungs in order. -/
def Engine.ladder (rungs : List (Rung ℚ)) (hproper : ∀ rung ∈ rungs, rung.value.Proper)
    (query : ℚ → SolveRequest ℚ) (hquery : ∀ budget, (query budget).epsBudget = .finite budget) :
    Engine ℚ Unit query where
  solve := ladderSolve rungs
  rungs := {rung | rung ∈ rungs}
  mem_rungs budget solution h := by
    obtain ⟨rung, hmem, rfl, -⟩ := ladderSolve_eq_ok (hquery budget) h
    exact hmem
  proper budget solution h := by
    obtain ⟨rung, hmem, rfl, -⟩ := ladderSolve_eq_ok (hquery budget) h
    exact hproper rung hmem
  within_budget budget solution h := by
    obtain ⟨rung, -, rfl, hle⟩ := ladderSolve_eq_ok (hquery budget) h
    exact hle

namespace FeaModel

/-- An upper claim with the limit 4. -/
def stressModel : FeaModel := ⟨"stress", true, "t", ∅, "1"⟩

def noRequest : DischargeRequest ℚ where
  inputs := ∅
  limit := 4
  inputs_proper := by
    intro iv hiv
    obtain ⟨p, hp⟩ := OrdMap.mem_vals.mp hiv
    rw [Std.ExtTreeMap.getElem?_empty] at hp
    cases hp

def noText : EngineText ℚ Unit := ⟨fun _ => "", fun _ => "", fun _ => "", fun _ => ""⟩

/-- A coarse rung and a fine one, at values up to 3. -/
def twoRungs (lo : ℚ) (hlo : lo ≤ 3) : Engine ℚ Unit (stressModel.solveRequest noRequest) :=
  .ladder [⟨⟨lo, 3⟩, 3⟩, ⟨⟨lo, 3⟩, 1 / 2⟩]
    (by
      intro rung hrung
      rcases List.mem_cons.mp hrung with rfl | hrung
      · exact hlo
      · obtain rfl := List.mem_singleton.mp hrung
        exact hlo)
    _ fun _ => rfl

theorem twoRungs_fixedValue {lo : ℚ} {hlo : lo ≤ 3} {v : ℚ}
    (hv : FixedValue stressModel (twoRungs lo hlo) v) : v = 3 :=
  (hv ⟨⟨lo, 3⟩, 3⟩ List.mem_cons_self).symm

/-- A pinned input: the margin 1 is answered by the fine rung. -/
theorem seeksMargin_pinned : SeeksMargin stressModel noText noRequest (twoRungs 3 le_rfl) := by
  refine (seeksMargin_iff stressModel noText noRequest (twoRungs 3 le_rfl)).mpr ?_
  intro v hv _
  obtain rfl := twoRungs_fixedValue hv
  have hloose : ((twoRungs 3 le_rfl).solve
      (stressModel.solveRequest noRequest epsBudget)).toOption.isSome := by
    decide +kernel
  have hmargin : ((twoRungs 3 le_rfl).solve (stressModel.solveRequest noRequest
      (stressModel.marginNeeded 3 noRequest.limit))).toOption.isSome := by
    decide +kernel
  exact ⟨_, Fallible.eq_ok_get hloose, .inr ⟨by decide +kernel, _, Fallible.eq_ok_get hmargin⟩⟩

/-- An uncertain input: the fine rung is charged 3 / 2, and the margin is 1. -/
theorem not_seeksMargin_uncertain :
    ¬ SeeksMargin stressModel noText noRequest (twoRungs 1 (by decide +kernel)) := by
  intro h
  have hfixed : FixedValue stressModel (twoRungs 1 (by decide +kernel)) 3 := by
    intro rung hrung
    rcases List.mem_cons.mp hrung with rfl | hrung
    · rfl
    · obtain rfl := List.mem_singleton.mp hrung
      rfl
  have hcloses : stressModel.Closes noRequest.limit 3 (1 / 2 : ℚ) :=
    closes_iff.mpr (by decide +kernel)
  obtain ⟨p, hp, -⟩ := h.closes 3 hfixed ⟨⟨⟨1, 3⟩, 1 / 2⟩,
    List.mem_cons_of_mem _ List.mem_cons_self, hcloses⟩
  have hexhausted : (stressModel.estimate noText noRequest
      (twoRungs 1 (by decide +kernel)).solve).1.toOption = none := by
    decide +kernel
  rw [hp] at hexhausted
  cases hexhausted

end FeaModel

end Feldspar

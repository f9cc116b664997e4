/-
Feldspar/Reroute.lean

The reroute loop of `solve`, with the cache off and fallback on.

`Trail` is what the records of the failed attempts say: each attempt executed
a route planned without the solvers excluded so far, and its failed solver is
a step of that route and the one that is excluded next.  The loop keeps the
trail (`Attempts.trail`), so its length is bounded by the number of solvers.

A failure that is blamed on the id `""` is recorded under that id, but
excludes the last step of the route: `failing_id or ..` takes the empty id for
a missing one.  `Blames` is the condition that this does not happen;
`unnamedCall` is a run in which it does.
-/
import Feldspar.Solve
import Feldspar.Walk

set_option linter.unusedSectionVars false

namespace Feldspar

variable {K : Type} [Arith K] [LinearOrder K] {Env D : Type}

/-! ### Who is blamed -/

section Execute

variable [CanonicalDigest K D] [DecidableEq D]
variable {reg : SolverRegistry K Env} {rq : ExecRequest K Env}

/-- A failed walk is attributed to one of its steps. -/
theorem executeSteps_step : ∀ {steps : List (RouteStep K)} {i : ℕ} {st : ExecState K}
    {stepCache : Option (StepStore K Env D)} {solverId : SolverId} {e : SolveError K},
    (executeSteps reg rq i steps st stepCache).1 = .error (.step solverId e) →
    ∃ step ∈ steps, step.solverId = solverId
  | [], _, _, _, _, _, h => by cases h
  | step :: steps, i, st, stepCache, solverId, e, h => by
      unfold executeSteps at h
      rcases hx : executeStep reg rq i step st stepCache with ⟨e' | st', cache⟩ <;>
        simp only [hx] at h
      · rcases e' with e' | e'
        · cases h
          exact ⟨step, List.mem_cons_self, rfl⟩
        · cases h
      · obtain ⟨step', hmem, hid⟩ := executeSteps_step h
        exact ⟨step', List.mem_cons_of_mem _ hmem, hid⟩

theorem executeWithAttribution_step {stepCache : Option (StepStore K Env D)}
    {solverId : SolverId} {e : SolveError K}
    (h : (executeWithAttribution reg rq stepCache).1 = .error (.step solverId e)) :
    ∃ step ∈ rq.route.steps, step.solverId = solverId := by
  unfold executeWithAttribution at h
  rcases hx : executeSteps reg rq 0 rq.route.steps (.init rq.known rq.payloads) stepCache with
    ⟨e' | st, cache⟩ <;> simp only [hx] at h
  · have hfailed : (executeSteps reg rq 0 rq.route.steps (.init rq.known rq.payloads)
        stepCache).1 = .error (.step solverId e) := by
      rw [hx, Except.error.inj h]
    exact executeSteps_step hfailed
  · -- a completed walk fails with an exception or not at all
    rcases hs : solutionOf (D := D) reg rq st with e' | solution <;> rw [hs] at h <;> cases h

/-- A solution carries the route that was executed. -/
theorem executeWithAttribution_route {stepCache : Option (StepStore K Env D)}
    {solution : Solution K D} (h : (executeWithAttribution reg rq stepCache).1 = .ok solution) :
    solution.route = rq.route := by
  obtain ⟨st, -, hsol⟩ := execute_ok (Prod.ext h rfl)
  obtain ⟨value, -, hsol⟩ := Fallible.bind_eq_ok.mp hsol
  obtain ⟨digest, -, hsol⟩ := Fallible.bind_eq_ok.mp hsol
  exact (Except.ok.inj hsol) ▸ rfl

end Execute

/-! ### One attempt -/

section Attempt

variable [CanonicalDigest K D] [DecidableEq D]
variable (reg : SolverRegistry K Env) (call : SolveCall K Env)

/-- What the attempt's execution gives. -/
def execution (s : LoopState K Env D) (route : Route K) :
    Except (ExecFailure K) (Solution K D) :=
  (executeWithAttribution reg (attemptRequest call s route) s.stepCache).1

/-- The attempt goes on to `s'`: it failed, and `solverId` is excluded next. -/
structure GoesOn (s : LoopState K Env D) (route : Route K) (record : AttemptRecord K D)
    (solverId : SolverId) (s' : LoopState K Env D) : Prop where
  fallback : call.policy.fallback = true
  attempts : s'.attempts = s.attempts ++ [record]
  excluded : s'.excluded = s.excluded.insert solverId
  solveCache : s'.solveCache = s.solveCache
  record_excluded : record.excluded = s.excluded.toList
  record_digest : record.routeDigest = some (routeDigest route)
  /-- a failed step, or a realized error over the budget -/
  cause : (∃ failingId e, execution reg call s route = .error (.step failingId e) ∧
      record.failedSolverId = some failingId ∧ blame failingId route = some solverId) ∨
    (∃ solution, execution reg call s route = .ok solution ∧ overBudget call solution ∧
      record.failedSolverId = some solverId ∧
      route.steps.getLast?.map RouteStep.solverId = some solverId)

variable {reg call}

theorem goesOn_of_afterExecute {s s' : LoopState K Env D} {route : Route K} {key : Option D}
    (h : afterExecute call
        { s with stepCache := (executeWithAttribution reg (attemptRequest call s route)
          s.stepCache).2 } route key (execution reg call s route) = .inr s') :
    ∃ record solverId, GoesOn reg call s route record solverId s' := by
  rcases hx : execution reg call s route with (⟨failingId, e⟩ | e) | solution <;> rw [hx] at h
  · -- a failed step
    unfold afterExecute at h
    simp only at h
    split at h
    · cases h
    · rename_i hfallback
      rcases hb : blame failingId route with - | solverId <;> simp only [hb] at h
      · cases h
      · cases h
        exact ⟨_, solverId, Bool.not_eq_false _ ▸ hfallback, rfl, rfl, rfl, rfl, rfl,
          Or.inl ⟨failingId, e, hx, rfl, hb⟩⟩
  · cases h
  · unfold afterExecute at h
    simp only at h
    split at h
    · rename_i hover
      split at h
      · cases h
      · rename_i hfallback
        rcases hl : route.steps.getLast?.map RouteStep.solverId with - | solverId <;>
          simp only [hl] at h
        · cases h
        · cases h
          exact ⟨_, solverId, Bool.not_eq_false _ ▸ hfallback, rfl, rfl, rfl, rfl, rfl,
            Or.inr ⟨solution, hx, hover, rfl, hl⟩⟩
    · cases h

/-- Who is excluded is a step of the route. -/
theorem GoesOn.exists_step {s s' : LoopState K Env D} {route : Route K}
    {record : AttemptRecord K D} {solverId : SolverId}
    (h : GoesOn reg call s route record solverId s') :
    ∃ step ∈ route.steps, step.solverId = solverId := by
  have hlast : route.steps.getLast?.map RouteStep.solverId = some solverId →
      ∃ step ∈ route.steps, step.solverId = solverId := by
    intro hlast
    obtain ⟨step, hstep, hid⟩ := Option.map_eq_some_iff.mp hlast
    exact ⟨step, List.mem_of_getLast? hstep, hid⟩
  rcases h.cause with ⟨failingId, e, hx, -, hblame⟩ | ⟨-, -, -, -, hid⟩
  · unfold blame at hblame
    split at hblame
    · exact hlast hblame
    · exact Option.some.inj hblame ▸ executeWithAttribution_step hx
  · exact hlast hid

theorem afterExecute_stepCache {s s' : LoopState K Env D} {route : Route K} {key : Option D}
    {x : Except (ExecFailure K) (Solution K D)} (h : afterExecute call s route key x = .inr s') :
    s'.stepCache = s.stepCache := by
  rcases x with (⟨failingId, e⟩ | e) | solution <;> unfold afterExecute at h <;> simp only at h
  · split at h
    · cases h
    · split at h <;> cases h
      rfl
  · cases h
  · split at h
    · split at h
      · cases h
      · split at h <;> cases h
        rfl
    · cases h

end Attempt

/-! ### The trail -/

section Trail

variable [CanonicalDigest K D] [DecidableEq D] [ToBits K]

/-- A step of a planned route applies a registered solver that is not
excluded. -/
theorem planned_step {reg : SolverRegistry K Env} {excluded : Std.ExtTreeSet SolverId compare}
    {rq : SolveRequest K} {route : Route K} (h : PlansRoute reg excluded rq (.ok route))
    {step : RouteStep K} (hstep : step ∈ route.steps) :
    step.solverId ∉ excluded ∧ ∃ e ∈ reg.entries, e.1.solverId = step.solverId := by
  obtain ⟨i, hi⟩ := List.mem_iff_getElem?.mp hstep
  obtain ⟨epsBudget, hplans⟩ := h.plans
  obtain ⟨v, inputs, hv⟩ := hplans.step (reg.nodup_summaries excluded) hi
  obtain ⟨hnot, info, fn, hreg, rfl⟩ := SolverRegistry.mem_summaries.mp hv.mem
  rw [hv.solverId]
  exact ⟨hnot, (info, fn), SolverRegistry.mem_entries.mpr hreg, rfl⟩

variable (reg : SolverRegistry K Env) (rq : SolveRequest K)

/-- The record of an attempt that failed at `solverId`, a step of the route
that was planned without the solvers in `excluded`. -/
structure FailedAttempt (excluded : Std.ExtTreeSet SolverId compare) (record : AttemptRecord K D)
    (solverId : SolverId) : Prop where
  excluded_eq : record.excluded = excluded.toList
  failed : record.failedSolverId = some solverId
  fresh : solverId ∉ excluded
  route : ∃ route, PlansRoute reg excluded rq (.ok route) ∧
    record.routeDigest = some (routeDigest route) ∧
    ∃ step ∈ route.steps, step.solverId = solverId

/-- The records of the failed attempts, and what is excluded after them: each
attempt excludes what the one before it did, and the solver that one failed
at. -/
inductive Trail : Std.ExtTreeSet SolverId compare → List (AttemptRecord K D) → Prop
  | nil : Trail ∅ []
  | snoc {excluded attempts record solverId} : Trail excluded attempts →
      FailedAttempt reg rq excluded record solverId →
      Trail (excluded.insert solverId) (attempts ++ [record])

variable {reg rq}

/-- Excluded solvers are registered, and there is one for each record. -/
theorem Trail.excluded_registered {excluded : Std.ExtTreeSet SolverId compare}
    {attempts : List (AttemptRecord K D)} (h : Trail reg rq excluded attempts) :
    excluded.size = attempts.length ∧
      ∀ solverId ∈ excluded, ∃ e ∈ reg.entries, e.1.solverId = solverId := by
  induction h with
  | nil => exact ⟨rfl, fun solverId h => absurd h Std.ExtTreeSet.not_mem_empty⟩
  | @snoc excluded attempts record solverId _ hfailed ih =>
      refine ⟨?_, fun id hid => ?_⟩
      · rw [Std.ExtTreeSet.size_insert, if_neg (by simpa using hfailed.fresh), ih.1,
          List.length_append]
        rfl
      · rcases Std.ExtTreeSet.mem_insert.mp hid with heq | hid
        · obtain rfl := Std.LawfulEqOrd.compare_eq_iff_eq.mp heq
          obtain ⟨route, hplan, -, step, hstep, rfl⟩ := hfailed.route
          exact (planned_step hplan hstep).2
        · exact ih.2 id hid

omit [CanonicalDigest K D] [DecidableEq D] [ToBits K] in
/-- Excluded solvers that are registered are at most as many as the registered
ones. -/
theorem size_le_entries {excluded : Std.ExtTreeSet SolverId compare}
    (hreg : ∀ solverId ∈ excluded, ∃ e ∈ reg.entries, e.1.solverId = solverId) :
    excluded.size ≤ reg.entries.length := by
  have hsub : excluded.toList ⊆ reg.entries.map fun e => e.1.solverId := by
    intro solverId hid
    obtain ⟨e, he, rfl⟩ := hreg solverId (Std.ExtTreeSet.mem_toList.mp hid)
    exact List.mem_map_of_mem he
  have hnodup : excluded.toList.Nodup := excluded.distinct_toList.imp fun hne heq =>
    hne (Std.LawfulEqOrd.compare_eq_iff_eq.mpr heq)
  calc excluded.size = excluded.toList.length := Std.ExtTreeSet.length_toList.symm
    _ ≤ (reg.entries.map fun e => e.1.solverId).length :=
        (hnodup.subperm hsub).length_le
    _ = reg.entries.length := List.length_map _

/-- There are at most as many failed attempts as solvers. -/
theorem Trail.length_le {excluded : Std.ExtTreeSet SolverId compare}
    {attempts : List (AttemptRecord K D)} (h : Trail reg rq excluded attempts) :
    attempts.length ≤ reg.entries.length := by
  obtain ⟨hsize, hreg⟩ := h.excluded_registered
  rw [← hsize]
  exact size_le_entries hreg

/-- Whom a record blames is excluded from then on. -/
theorem Trail.blamed_mem {excluded : Std.ExtTreeSet SolverId compare}
    {attempts : List (AttemptRecord K D)} (h : Trail reg rq excluded attempts) :
    ∀ record ∈ attempts, ∀ solverId, record.failedSolverId = some solverId →
      solverId ∈ excluded := by
  induction h with
  | nil => exact fun record hr => absurd hr List.not_mem_nil
  | @snoc excluded attempts record solverId _ hfailed ih =>
      intro record' hr id hid
      rw [Std.ExtTreeSet.mem_insert]
      rcases List.mem_append.mp hr with hr | hr
      · exact Or.inr (ih record' hr id hid)
      · obtain rfl := List.mem_singleton.mp hr
        rw [hfailed.failed] at hid
        exact Or.inl (Std.LawfulEqOrd.compare_eq_iff_eq.mpr (Option.some.inj hid))

variable (reg) in
/-- The attempt that starts at `s` blames a failed step under its own id. -/
def BlamesByName (call : SolveCall K Env) (s : LoopState K Env D) : Prop :=
  ∀ route failingId e, PlansRoute reg s.excluded call.request (.ok route) →
    execution reg call s route = .error (.step failingId e) →
    blame failingId route = some failingId

/-- The blame can only miss the empty id. -/
theorem blamesByName_of_ne {call : SolveCall K Env}
    (hids : ∀ e ∈ reg.entries, e.1.solverId ≠ "") (s : LoopState K Env D) :
    BlamesByName reg call s := by
  intro route failingId e hplan hx
  obtain ⟨step, hstep, rfl⟩ := executeWithAttribution_step hx
  obtain ⟨e, he, hid⟩ := (planned_step hplan hstep).2
  exact if_neg (hid ▸ hids e he)

theorem afterPlan_of_no_cache {call : SolveCall K Env} {s : LoopState K Env D} {route : Route K}
    (hnone : s.solveCache = none) : afterPlan reg call s (.ok route) =
      afterExecute call
        { s with stepCache := (executeWithAttribution reg (attemptRequest call s route)
          s.stepCache).2 } route none (execution reg call s route) := by
  have hlookup : lookup reg call s route = .ok (none, none) := by
    rw [lookup, hnone]
  simp only [afterPlan, hlookup]
  rfl

/-- An attempt that goes on, with the caches or without, has failed. -/
theorem attempt_goesOn {call : SolveCall K Env} {s s' : LoopState K Env D}
    (h : Attempts reg call s (.inr s')) : ∃ route record solverId,
      PlansRoute reg s.excluded call.request (.ok route) ∧
      GoesOn reg call s route record solverId s' ∧
      s'.stepCache = (executeWithAttribution reg (attemptRequest call s route) s.stepCache).2 := by
  obtain ⟨r, hplan, hafter⟩ := h
  rcases r with e | route
  · cases hafter
  rcases hl : lookup reg call s route with e | ⟨key, file⟩ <;> simp only [afterPlan, hl] at hafter
  · cases hafter
  rcases file with - | file
  · obtain ⟨record, solverId, hgo⟩ := goesOn_of_afterExecute hafter
    exact ⟨route, record, solverId, hplan, hgo, afterExecute_stepCache hafter⟩
  · cases hafter

theorem Trail.step {call : SolveCall K Env} {s s' : LoopState K Env D}
    (h : Trail reg call.request s.excluded s.attempts) (hnone : s.solveCache = none)
    (hblame : BlamesByName reg call s) (hs : Attempts reg call s (.inr s')) :
    Trail reg call.request s'.excluded s'.attempts ∧
      s'.attempts.length = s.attempts.length + 1 ∧ s'.solveCache = none := by
  obtain ⟨route, record, solverId, hplan, hgo, -⟩ := attempt_goesOn hs
  rw [hgo.attempts, hgo.excluded, hgo.solveCache, List.length_append]
  have hfailed : record.failedSolverId = some solverId := by
    rcases hgo.cause with ⟨failingId, e, hx, hfailed, hb⟩ | ⟨solution, -, -, hfailed, -⟩
    · rw [hblame route failingId e hplan hx] at hb
      rw [hfailed, hb]
    · exact hfailed
  obtain ⟨step, hstep, hid⟩ := hgo.exists_step
  refine ⟨h.snoc ⟨hgo.record_excluded, hfailed, ?_, route, hplan, hgo.record_digest, step, hstep,
    hid⟩, rfl, hnone⟩
  exact hid ▸ (planned_step hplan hstep).1

end Trail

/-! ### The endings -/

section Endings

variable [CanonicalDigest K D] [DecidableEq D] [ToBits K]
variable (reg : SolverRegistry K Env) (call : SolveCall K Env)

/-- A solution given in the state `s`. -/
structure Succeeds (s : LoopState K Env D) (solution : Solution K D) : Prop where
  within_budget : ∃ epsBudget, call.request.epsBudget = .finite epsBudget ∧
    totalError solution.value solution.eps ≤ epsBudget
  fresh : ∀ step ∈ solution.route.steps, step.solverId ∉ s.excluded
  attempts : solution.attempts = s.attempts

/-- What holds when `k` attempts have failed. -/
structure Rerouted (k : ℕ) (s : LoopState K Env D) : Prop where
  trail : Trail reg call.request s.excluded s.attempts
  count : s.attempts.length = k
  bound : k ≤ reg.entries.length
  ok : ∀ solution s', Attempts reg call s (.inl (.ok solution, s')) → Succeeds call s solution
  /-- the last record is that of the attempt that found no route -/
  noRouteRemaining : ∀ attempts s',
    Attempts reg call s (.inl (.error (.noRouteRemaining attempts), s')) →
    ∃ record, attempts = s.attempts ++ [record] ∧ record.excluded = s.excluded.toList

variable {reg call}

/-- What an attempt without the caches returns as a solution. -/
theorem attempt_ok {s s' : LoopState K Env D} {solution : Solution K D}
    (hnone : s.solveCache = none) (h : Attempts reg call s (.inl (.ok solution, s'))) :
    ∃ route executed, PlansRoute reg s.excluded call.request (.ok route) ∧
      execution reg call s route = .ok executed ∧ ¬ overBudget call executed ∧
      solution = { executed with attempts := s.attempts, epsBudget := call.request.budget } := by
  obtain ⟨r, hplan, hafter⟩ := h
  rcases r with e | route
  · rw [afterPlan, planFailed] at hafter
    split at hafter <;> cases hafter
  rw [afterPlan_of_no_cache hnone] at hafter
  rcases hx : execution reg call s route with (⟨failingId, e⟩ | e) | executed <;>
    rw [hx] at hafter <;> unfold afterExecute at hafter <;> simp only at hafter
  · split at hafter
    · cases hafter
    · split at hafter <;> cases hafter
  · cases hafter
  · split at hafter
    · split at hafter
      · cases hafter
      · split at hafter <;> cases hafter
    · cases hafter
      exact ⟨route, executed, hplan, hx, ‹_›, rfl⟩

theorem succeeds_of_attempts {s s' : LoopState K Env D} {solution : Solution K D}
    (hnone : s.solveCache = none) (h : Attempts reg call s (.inl (.ok solution, s'))) :
    Succeeds call s solution := by
  obtain ⟨route, executed, hplan, hx, hbudget, rfl⟩ := attempt_ok hnone h
  have hroute : executed.route = route := executeWithAttribution_route hx
  refine ⟨?_, fun step hstep => (planned_step hplan (hroute ▸ hstep)).1, rfl⟩
  -- without a finite budget there is no plan
  obtain ⟨epsBudget, hb⟩ : ∃ epsBudget, call.request.epsBudget = .finite epsBudget := by
    unfold PlansRoute at hplan
    rcases hb : call.request.epsBudget with epsBudget | - <;> rw [hb] at hplan
    · exact ⟨epsBudget, rfl⟩
    · cases hplan
  refine ⟨epsBudget, hb, not_lt.mp fun hlt => hbudget ⟨epsBudget, ?_, hlt⟩⟩
  rw [SolveRequest.budget, hb]
  rfl

theorem record_of_noRouteRemaining {s s' : LoopState K Env D}
    {attempts : List (AttemptRecord K D)} (hnone : s.solveCache = none)
    (h : Attempts reg call s (.inl (.error (.noRouteRemaining attempts), s'))) :
    ∃ record, attempts = s.attempts ++ [record] ∧ record.excluded = s.excluded.toList := by
  obtain ⟨r, hplan, hafter⟩ := h
  rcases r with e | route
  · rw [afterPlan, planFailed] at hafter
    split at hafter <;> cases hafter
    exact ⟨_, rfl, rfl⟩
  rw [afterPlan_of_no_cache hnone] at hafter
  rcases hx : execution reg call s route with (⟨failingId, e⟩ | e) | executed <;>
    rw [hx] at hafter
  · unfold afterExecute at hafter
    simp only at hafter
    split at hafter
    · cases hafter
    · split at hafter <;> cases hafter
      exact ⟨_, rfl, rfl⟩
  · cases hafter
  · unfold afterExecute at hafter
    simp only at hafter
    split at hafter
    · split at hafter
      · cases hafter
      · split at hafter <;> cases hafter
    · cases hafter

/-- **The reroute loop**: each failed attempt excludes one more solver, the
one that its record blames, and the endings say what was tried. -/
theorem solve_reroutes {stepCache : Option (StepStore K Env D)}
    (hblame : ∀ k s, Retry.Reaches (Attempts reg call) (.start stepCache none) k s →
      BlamesByName reg call s)
    {k : ℕ} {s : LoopState K Env D}
    (hs : Retry.Reaches (Attempts reg call) (.start stepCache none) k s) :
    Rerouted reg call k s := by
  obtain ⟨htrail, hcount, hnone⟩ : Trail reg call.request s.excluded s.attempts ∧
      s.attempts.length = k ∧ s.solveCache = none := by
    refine hs.invariant (I := fun k s => Trail reg call.request s.excluded s.attempts ∧
      s.attempts.length = k ∧ s.solveCache = none) ⟨.nil, rfl, rfl⟩ ?_
    rintro k s s' hreached ⟨htrail, rfl, hnone⟩ hstep
    exact htrail.step hnone (hblame _ s hreached) hstep
  exact ⟨htrail, hcount, hcount ▸ htrail.length_le, fun _ _ => succeeds_of_attempts hnone,
    fun _ _ => record_of_noRouteRemaining hnone⟩

end Endings

/-! ### Two runs -/

/-- A function that always fails. -/
def failingFn : SolveFn ℚ Unit where
  epsSeeking := false
  probeTools := none
  call _ _ _ := .error (.parseFailed "no output")

def unitKnown : PortMap (Interval ℚ) := OrdMap.ofFn ["x"] fun _ => Interval.point 1

theorem unitKnown_proper : ∀ iv ∈ OrdMap.vals unitKnown, iv.Proper := by
  intro iv hiv
  obtain ⟨p, hp⟩ := OrdMap.mem_vals.mp hiv
  obtain ⟨-, rfl⟩ := OrdMap.getElem?_ofFn_eq_some.mp hp
  exact le_rfl

/-- `t` within 1, from `x = 1`, without caches. -/
def targetCall : SolveCall ℚ Unit where
  request :=
    { known := unitKnown
      tags := ∅
      target := "t"
      epsBudget := .finite 1
      sense := .both
      payloads := ∅
      known_proper := unitKnown_proper }
  policy := ⟨true, false⟩
  env _ _ := ()

/-- The body of the loop, with at most `planFuel` iterations of the search. -/
def attemptWithin (planFuel : ℕ) (reg : SolverRegistry ℚ Unit) (call : SolveCall ℚ Unit)
    (s : LoopState ℚ Unit (SymDigest ℚ)) : Option
      ((SolveResult ℚ (SymDigest ℚ) × LoopState ℚ Unit (SymDigest ℚ)) ⊕
        LoopState ℚ Unit (SymDigest ℚ)) :=
  (planRoute planFuel reg s.excluded call.request).map (afterPlan reg call s)

theorem attempts_of_attemptWithin {planFuel : ℕ} {reg : SolverRegistry ℚ Unit}
    {call : SolveCall ℚ Unit} {s : LoopState ℚ Unit (SymDigest ℚ)}
    {x : (SolveResult ℚ (SymDigest ℚ) × LoopState ℚ Unit (SymDigest ℚ)) ⊕
      LoopState ℚ Unit (SymDigest ℚ)}
    (h : attemptWithin planFuel reg call s = some x) : Attempts reg call s x := by
  obtain ⟨r, hr, rfl⟩ := Option.map_eq_some_iff.mp h
  exact ⟨r, plansRoute_of_planRoute hr, rfl⟩

/-- `A` is cheaper and fails, `B` answers. -/
def spareRegistry : SolverRegistry ℚ Unit :=
  (SolverRegistry.build []
    [(plainInfo (plainSolver "A" ["x"] [("t", 0)] 1 .both), failingFn),
      (plainInfo (plainSolver "B" ["x"] [("t", 0)] 2 .both),
        plainFn fun x => [("t", scalarArg x "x")])]).toOption.get (by decide +kernel)

theorem solve_reroutes_spare :
    ∃ s, Retry.Reaches (Attempts spareRegistry targetCall)
        (.start none none : LoopState ℚ Unit (SymDigest ℚ)) 1 s ∧
      Rerouted spareRegistry targetCall 1 s := by
  have hstep : ((attemptWithin 3 spareRegistry targetCall (.start none none)).bind
      Sum.getRight?).isSome := by decide +kernel
  obtain ⟨s, hs⟩ := Option.isSome_iff_exists.mp hstep
  obtain ⟨x, hx, hxs⟩ := Option.bind_eq_some_iff.mp hs
  obtain rfl : x = .inr s := by simpa using hxs
  have hreached : Retry.Reaches (Attempts spareRegistry targetCall)
      (.start none none : LoopState ℚ Unit (SymDigest ℚ)) 1 s :=
    Retry.Reaches.start.again (attempts_of_attemptWithin hx)
  refine ⟨s, hreached, solve_reroutes (fun k s _ => blamesByName_of_ne ?_ s) hreached⟩
  decide +kernel

/-- The solver with the empty id fails, and `Z` is the last step. -/
def unnamedRegistry : SolverRegistry ℚ Unit :=
  (SolverRegistry.build []
    [(plainInfo (plainSolver "" ["x"] [("m", 0)] 1 .both), failingFn),
      (plainInfo (plainSolver "Z" ["m"] [("t", 0)] 1 .both),
        plainFn fun x => [("t", scalarArg x "m")])]).toOption.get (by decide +kernel)

/-- What a result says of each attempt: its excluded set, and whom it blames. -/
def trailOf : SolveResult ℚ (SymDigest ℚ) → List (List SolverId × Option SolverId)
  | .error (.noRouteRemaining attempts) => attempts.map fun r => (r.excluded, r.failedSolverId)
  | _ => []

/-- `Z` is excluded, and the record blames the empty id. -/
theorem unnamedRegistry_blames :
    ∃ s, Retry.Reaches (Attempts unnamedRegistry targetCall)
        (.start none none : LoopState ℚ Unit (SymDigest ℚ)) 1 s ∧
      ¬ Rerouted unnamedRegistry targetCall 1 s ∧
      ∃ result s', Attempts unnamedRegistry targetCall s (.inl (result, s')) ∧
        trailOf result = [([], some ""), (["Z"], none)] := by
  have hfirst : ((attemptWithin 3 unnamedRegistry targetCall (.start none none)).bind
      Sum.getRight?).isSome := by decide +kernel
  obtain ⟨s, hs⟩ := Option.isSome_iff_exists.mp hfirst
  have hblamed : (((attemptWithin 3 unnamedRegistry targetCall (.start none none)).bind
      Sum.getRight?).map fun s =>
        (s.attempts.map AttemptRecord.failedSolverId, s.excluded.contains ""))
      = some ([some ""], false) := by decide +kernel
  have hsecond : ((((attemptWithin 3 unnamedRegistry targetCall (.start none none)).bind
      Sum.getRight?).bind (attemptWithin 3 unnamedRegistry targetCall)).bind
        Sum.getLeft?).map (fun out => trailOf out.1) = some [([], some ""), (["Z"], none)] := by
    decide +kernel
  rw [hs, Option.map_some, Option.some.injEq, Prod.mk.injEq] at hblamed
  rw [hs, Option.bind_some] at hsecond
  obtain ⟨x, hx, hxs⟩ := Option.bind_eq_some_iff.mp hs
  obtain rfl : x = .inr s := by simpa using hxs
  obtain ⟨⟨result, s'⟩, hend, htrail⟩ := Option.map_eq_some_iff.mp hsecond
  obtain ⟨y, hy, hys⟩ := Option.bind_eq_some_iff.mp hend
  obtain rfl : y = .inl (result, s') := by simpa using hys
  refine ⟨s, Retry.Reaches.start.again (attempts_of_attemptWithin hx), fun h => ?_, result, s',
    attempts_of_attemptWithin hy, htrail⟩
  obtain ⟨record, hrecord, hid⟩ := List.mem_map.mp (show some "" ∈ s.attempts.map
    AttemptRecord.failedSolverId by rw [hblamed.1]; exact List.mem_singleton_self _)
  have hmem := h.trail.blamed_mem record hrecord "" hid
  rw [Std.ExtTreeSet.mem_iff_contains, hblamed.2] at hmem
  cases hmem

end Feldspar

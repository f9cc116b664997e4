/-
Feldspar/Solve.lean

`solve()` (`solve.py`) and its cache (`SolveCache` of `cache.py`): plan over
the solvers that are not excluded, look the route up, execute it, check the
realized error, and on a failure exclude the solver that failed and go on.

`afterPlan` is the body of the loop from the planner's answer on, and
`Attempts` the whole body; the loop is `Retry.Returns (Attempts reg call)`.
`solveWithin` runs it with bounds on the search and on the attempts.

The solve cache reads a solution back from JSON, which leaves the symbolic
provenance out (`Solution.reloaded`).
-/
import Feldspar.Lib.Retry
import Feldspar.PlanRoute

set_option linter.unusedSectionVars false

namespace Feldspar

variable {K : Type} [Arith K] [LinearOrder K] {Env D : Type}

/-! ### Data -/

/-- The toggles of a solve; `threads` is 1. -/
structure RoutePolicy where
  fallback : Bool
  cache : Bool
  deriving DecidableEq, Repr

/-- How `solve` ends without a solution. -/
inductive SolveFailure (K D : Type)
  | plan (e : PlanError K)
  | solve (e : SolveError K)
  | noRouteRemaining (attempts : List (AttemptRecord K D))
  | raised (e : PyError)
  deriving DecidableEq

abbrev SolveResult (K D : Type) [Arith K] [LinearOrder K] :=
  Except (SolveFailure K D) (Solution K D)

/-- The arguments of `solve`, and the environment of each step of each
attempt; an attempt's lookup runs in the environment of its first step. -/
structure SolveCall (K Env : Type) [Arith K] [LinearOrder K] where
  request : SolveRequest K
  policy : RoutePolicy
  env : ℕ → ℕ → Env

/-- The budget as the executor gets it.  A budget that is not finite never
gets past the planner. -/
def SolveRequest.budget (rq : SolveRequest K) : Option K :=
  match rq.epsBudget with
  | .finite epsBudget => some epsBudget
  | .nonFinite => none

/-! ### The solve cache -/

section SolveCache

variable [CanonicalDigest K D]

/-- `SolverRegistry.digest`. -/
def registryDigest (reg : SolverRegistry K Env) : D :=
  canonicalDigest (.registry (reg.entries.map fun e => e.1.dump))

def requestDigest (rq : SolveRequest K) : D :=
  canonicalDigest (.request rq.known rq.tags rq.target rq.epsBudget rq.sense
    (payloadDigests rq.payloads))

def routeDigest (route : Route K) : D := canonicalDigest (.route route)

def cacheKey (reg : SolverRegistry K Env) (rq : SolveRequest K) (route : Route K) :
    Except PyError D := do
  let settingsDigest : D ← routeSettingsDigest reg route
  pure (canonicalDigest (.cacheKey (K := K) (registryDigest reg) (requestDigest rq) settingsDigest
    feldsparVersion))

/-- Every step is deterministic. -/
def isRouteCacheable (reg : SolverRegistry K Env) : List (RouteStep K) → Except PyError Bool
  | [] => .ok true
  | step :: steps => do
      let (info, _) ← index reg.solvers step.solverId
      if info.deterministic then isRouteCacheable reg steps else .ok false

/-- The tools of the route are there, and those of the excluded solvers are
not. -/
def toolsStillConsistent (reg : SolverRegistry K Env) (route : Route K)
    (excluded : List SolverId) (env : Env) : Bool :=
  (route.steps.all fun step =>
    match reg.solvers[step.solverId]? with
    | some (_, fn) => fn.toolsPresent env
    | none => true) &&
  excluded.all fun solverId =>
    match reg.solvers[solverId]? with
    | some (_, fn) => (fn.probeTools.map fun probe => !probe env).getD true
    | none => true

/-- What JSON keeps of a solution: all but the symbolic provenance. -/
def Solution.reloaded (solution : Solution K D) : Solution K D :=
  { solution with stepAlgebraicForm := ∅, stepAdmissionPredicate := ∅ }

/-- Solutions by their cache key.  A file's writer is ghost. -/
abbrev SolveStore (K Env D : Type) [Arith K] [LinearOrder K] :=
  Memo.Store D (SolveCall K Env) (Solution K D)

/-- `SolveCache.get`: the file, if it passes the recheck. -/
def SolveStore.get (store : SolveStore K Env D) (key : D) (route : Route K)
    (reg : SolverRegistry K Env) (env : Env) :
    Option (Memo.Entry (SolveCall K Env) (Solution K D)) :=
  match store key with
  | none => none
  | some file =>
      let excluded := (file.value.attempts.getLast?.map AttemptRecord.excluded).getD []
      if toolsStillConsistent reg route excluded env then some file else none

/-- `SolveCache.put`. -/
def SolveStore.put [DecidableEq D] (store : SolveStore K Env D) (key : D) (call : SolveCall K Env)
    (solution : Solution K D) : SolveStore K Env D :=
  Memo.put store key call { solution.reloaded with cacheHit := false }

end SolveCache

/-! ### The loop -/

/-- The locals of the loop, and the caches if there are any. -/
structure LoopState (K Env D : Type) [Arith K] [LinearOrder K] where
  excluded : Std.ExtTreeSet SolverId compare
  attempts : List (AttemptRecord K D)
  stepCache : Option (StepStore K Env D)
  solveCache : Option (SolveStore K Env D)

def LoopState.start (stepCache : Option (StepStore K Env D))
    (solveCache : Option (SolveStore K Env D)) : LoopState K Env D :=
  ⟨∅, [], stepCache, solveCache⟩

/-- Record a failed attempt. -/
def LoopState.fail (s : LoopState K Env D) (routeDigest : Option D)
    (failedSolverId : Option SolverId) (error : String × List (String × Detail K)) :
    LoopState K Env D :=
  { s with
    attempts := s.attempts ++
      [⟨s.excluded.toList, routeDigest, failedSolverId, error.1, error.2⟩] }

def LoopState.exclude (s : LoopState K Env D) (solverId : SolverId) : LoopState K Env D :=
  { s with excluded := s.excluded.insert solverId }

/-- `failing_id or route.steps[-1].solver_id`: the empty id is no id. -/
def blame (failingId : SolverId) (route : Route K) : Option SolverId :=
  if failingId = "" then route.steps.getLast?.map RouteStep.solverId else some failingId

section Loop

variable [CanonicalDigest K D] [DecidableEq D]
variable (reg : SolverRegistry K Env) (call : SolveCall K Env) (s : LoopState K Env D)

/-- The planner has no route. -/
def planFailed (e : PlanError K) : SolveResult K D × LoopState K Env D :=
  let failed := s.fail none none e.recordFields
  -- the first attempt has no trail to report
  if s.excluded.isEmpty then (.error (.plan e), failed)
  else (.error (.noRouteRemaining failed.attempts), failed)

/-- The key of the route, if it is cacheable, and the file that serves it. -/
def lookup (route : Route K) : Except PyError
    (Option D × Option (Memo.Entry (SolveCall K Env) (Solution K D))) :=
  match s.solveCache with
  | none => .ok (none, none)
  | some store => do
      if ← isRouteCacheable reg route.steps then
        let key ← cacheKey reg call.request route
        pure (some key, store.get key route reg (call.env s.attempts.length 0))
      else pure (none, none)

/-- What the attempt executes. -/
def attemptRequest (route : Route K) : ExecRequest K Env :=
  call.request.execRequest route call.request.budget (call.env s.attempts.length)

/-- The realized error is over the budget. -/
def overBudget (solution : Solution K D) : Prop :=
  ∃ budget ∈ call.request.budget, budget < totalError solution.value solution.eps

instance (solution : Solution K D) : Decidable (overBudget call solution) :=
  match h : call.request.budget with
  | none => isFalse (by simp [overBudget, h])
  | some budget => decidable_of_iff (budget < totalError solution.value solution.eps)
      (by simp [overBudget, h])

/-- What the attempt makes of the executor's answer. -/
def afterExecute (route : Route K) (key : Option D) :
    Except (ExecFailure K) (Solution K D) →
      (SolveResult K D × LoopState K Env D) ⊕ LoopState K Env D
  | .error (.raised e) => .inl (.error (.raised e), s)
  | .error (.step failingId e) =>
      let failed := s.fail (some (routeDigest route)) (some failingId) e.recordFields
      if call.policy.fallback = false then .inl (.error (.solve e), failed)
      else
        match blame failingId route with
        | none => .inl (.error (.noRouteRemaining failed.attempts), failed)
        | some solverId => .inr (failed.exclude solverId)
  | .ok solution =>
      if overBudget call solution then
        let e := SolveError.budgetExceeded
          (.finite (totalError solution.value solution.eps)) call.request.epsBudget
        let last := route.steps.getLast?.map RouteStep.solverId
        let failed := s.fail (some (routeDigest route)) last e.recordFields
        if call.policy.fallback = false then .inl (.error (.solve e), failed)
        else
          match last with
          -- a zero-step route has no last step
          | none => .inl (.error (.raised .indexError), failed)
          | some solverId => .inr (failed.exclude solverId)
      else
        let solution := { solution with attempts := s.attempts, epsBudget := call.request.budget }
        .inl (.ok solution,
          { s with
            solveCache := s.solveCache.map fun store =>
              match key with
              | some key => store.put key call solution
              | none => store })

/-- The body of the loop, once the planner has answered. -/
def afterPlan : Except (PlanError K) (Route K) →
    (SolveResult K D × LoopState K Env D) ⊕ LoopState K Env D
  | .error e => .inl (planFailed s e)
  | .ok route =>
      match lookup reg call s route with
      | .error e => .inl (.error (.raised e), s)
      | .ok (_, some file) => .inl (.ok { file.value with cacheHit := true }, s)
      | .ok (key, none) =>
          let r := executeWithAttribution reg (attemptRequest call s route) s.stepCache
          afterExecute call { s with stepCache := r.2 } route key r.1

end Loop

section Solve

variable [CanonicalDigest K D] [DecidableEq D] [ToBits K]
variable (reg : SolverRegistry K Env) (call : SolveCall K Env)

/-- One attempt: the planner's answer, and what the loop makes of it. -/
def Attempts (s : LoopState K Env D)
    (x : (SolveResult K D × LoopState K Env D) ⊕ LoopState K Env D) : Prop :=
  ∃ r, PlansRoute reg s.excluded call.request r ∧ afterPlan reg call s r = x

/-- One attempt where the planner may panic.  Nothing in the loop catches that. -/
def AttemptsOrPanics (s : LoopState K Env D)
    (x : (SolveResult K D × LoopState K Env D) ⊕ LoopState K Env D) : Prop :=
  RoutePanics reg s.excluded call.request ∧ x = .inl (.error (.raised .panicException), s) ∨
    ¬ RoutePanics reg s.excluded call.request ∧ Attempts reg call s x

/-- `solve`, with at most `fuel` attempts and `planFuel` iterations of each
search. -/
def solveWithin (planFuel : ℕ) : ℕ → LoopState K Env D →
    Option (SolveResult K D × LoopState K Env D)
  | 0, _ => none
  | fuel + 1, s =>
      (planRoute planFuel reg s.excluded call.request).bind fun r =>
        match afterPlan reg call s r with
        | .inl out => some out
        | .inr s' => solveWithin planFuel fuel s'

variable {reg call}

theorem Attempts.unique {s : LoopState K Env D}
    {x y : (SolveResult K D × LoopState K Env D) ⊕ LoopState K Env D}
    (hx : Attempts reg call s x) (hy : Attempts reg call s y) : x = y := by
  obtain ⟨r, hr, rfl⟩ := hx
  obtain ⟨r', hr', rfl⟩ := hy
  rw [hr.unique hr']

theorem AttemptsOrPanics.unique {s : LoopState K Env D}
    {x y : (SolveResult K D × LoopState K Env D) ⊕ LoopState K Env D}
    (hx : AttemptsOrPanics reg call s x) (hy : AttemptsOrPanics reg call s y) : x = y := by
  rcases hx with ⟨hp, rfl⟩ | ⟨hnp, hx⟩ <;> rcases hy with ⟨hp', rfl⟩ | ⟨hnp', hy⟩
  · rfl
  · exact absurd hp hnp'
  · exact absurd hp' hnp
  · exact hx.unique hy

/-- In exact arithmetic an attempt does not panic. -/
theorem attemptsOrPanics_iff {K : Type} [Field K] [LinearOrder K] [CanonicalDigest K D] [ToBits K]
    {reg : SolverRegistry K Env} {call : SolveCall K Env} {s : LoopState K Env D}
    {x : (SolveResult K D × LoopState K Env D) ⊕ LoopState K Env D} :
    AttemptsOrPanics reg call s x ↔ Attempts reg call s x := by
  have hnot : ¬ RoutePanics reg s.excluded call.request := fun ⟨_, _, hp⟩ => not_panics _ hp
  simp [AttemptsOrPanics, hnot]

theorem returns_of_solveWithin {planFuel : ℕ} : ∀ {fuel : ℕ} {s : LoopState K Env D}
    {out : SolveResult K D × LoopState K Env D},
    solveWithin reg call planFuel fuel s = some out → Retry.Returns (Attempts reg call) s out
  | 0, _, _, h => by cases h
  | fuel + 1, s, out, h => by
      obtain ⟨r, hr, h⟩ := Option.bind_eq_some_iff.mp h
      have hplan := plansRoute_of_planRoute hr
      rcases hx : afterPlan reg call s r with out' | s' <;> simp only [hx] at h
      · cases h
        exact .done ⟨r, hplan, hx⟩
      · exact .again ⟨r, hplan, hx⟩ (returns_of_solveWithin h)

end Solve

/-! ### The directory of the caches -/

/-- What the cache directory holds: the files of the two default caches. -/
structure Stores (K Env D : Type) [Arith K] [LinearOrder K] where
  steps : StepStore K Env D
  solutions : SolveStore K Env D

namespace Stores

def empty : Stores K Env D := ⟨Memo.empty, Memo.empty⟩

/-- The directory after a solve. -/
def after (stores : Stores K Env D) (s : LoopState K Env D) : Stores K Env D where
  steps := s.stepCache.getD stores.steps
  solutions := s.solveCache.getD stores.solutions

end Stores

/-- How a call starts: with the default caches, or without any. -/
def SolveCall.start (call : SolveCall K Env) (stores : Stores K Env D) : LoopState K Env D :=
  if call.policy.cache then .start (some stores.steps) (some stores.solutions)
  else .start none none

end Feldspar

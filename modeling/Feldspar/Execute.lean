/-
Feldspar/Execute.lean

The executor (`execute.py`) and the per-step cache it consults
(`PayloadStepCache` of `cache.py`).

`executeWithAttribution` walks a route step by step.  A step cache that is
handed in is handed back as it is left, after a failed run too.  `Walks` is the
same walk as a relation: the states between the steps, on which invariants are
proved (`Walks.invariant`).

The counters `hits` and `misses` of the cache decide nothing and are left out.
-/
import Feldspar.Digest
import Feldspar.Lib.Memo
import Feldspar.Step

set_option linter.unusedSectionVars false

namespace Feldspar

variable {K : Type} [Arith K] [LinearOrder K] {Env D : Type}

/-! ### The step cache -/

section StepCache

variable [CanonicalDigest K D]

/-- Step entries by their key.  A file's writer is ghost: nothing here reads
it. -/
abbrev StepStore (K Env D : Type) [Arith K] [LinearOrder K] :=
  Memo.Store D (StepCall K Env) (StepEntry K)

/-- `PayloadStepCache.key`. -/
def stepKey (c : StepCall K Env) : D :=
  canonicalDigest (.stepKey c.info.solverId c.info.version c.info.settingsDigest c.box
    (payloadDigests c.payloadInputs) feldsparVersion)

/-- `PayloadStepCache.get`: the file, if the step's tools are there. -/
def StepStore.get (store : StepStore K Env D) (key : D) (fn : SolveFn K Env) (env : Env) :
    Option (Memo.Entry (StepCall K Env) (StepEntry K)) :=
  match store key with
  | none => none
  | some file => if fn.toolsPresent env then some file else none

/-- Only deterministic, payload-touching steps go through the step cache. -/
def StepCall.participates (c : StepCall K Env) : Bool :=
  c.info.deterministic && (!c.payloadInputs.isEmpty || !c.payloadOutputs.isEmpty)

/-- The file that serves the step from the cache. -/
def servedFile (stepCache : Option (StepStore K Env D)) (c : StepCall K Env) :
    Option (Memo.Entry (StepCall K Env) (StepEntry K)) :=
  stepCache.bind fun store =>
    if c.participates then store.get (stepKey c) c.fn c.env else none

def putStep (stepCache : Option (StepStore K Env D)) (c : StepCall K Env) (entry : StepEntry K)
    [DecidableEq D] : Option (StepStore K Env D) :=
  if c.participates then stepCache.map fun store => Memo.put store (stepKey c) c entry
  else stepCache

/-- Serve the step from the cache, or sweep it and store its entry. -/
def runStep [DecidableEq D] (stepCache : Option (StepStore K Env D)) (c : StepCall K Env) :
    Except (Failure K) (StepEntry K) × Option (StepStore K Env D) :=
  match servedFile stepCache c with
  | some file => (.ok file.value, stepCache)
  | none =>
      match sweepStep c with
      | .ok entry => (.ok entry, putStep stepCache c entry)
      | .error e => (.error e, stepCache)

end StepCache

/-! ### Data -/

/-- One attempt of the reroute loop. -/
structure AttemptRecord (K D : Type) where
  excluded : List SolverId
  routeDigest : Option D
  failedSolverId : Option SolverId
  errorKind : String
  errorDetail : List (String × Detail K)
  deriving DecidableEq

structure Solution (K D : Type) [Arith K] [LinearOrder K] where
  target : Port
  value : Interval K
  eps : K
  route : Route K
  settingsDigest : D
  solverVersions : OrdMap.Map SolverId String
  attempts : List (AttemptRecord K D)
  cacheHit : Bool
  stepEps : OrdMap.Map SolverId K
  stepCitations : OrdMap.Map SolverId (List Citation)
  stepDeclaredDomain : OrdMap.Map SolverId (Domain K)
  stepAlgebraicForm : OrdMap.Map SolverId String
  stepAdmissionPredicate : OrdMap.Map SolverId String
  epsBudget : Option K
  deriving DecidableEq

/-- The arguments of `execute`, and the environment of each step. -/
structure ExecRequest (K Env : Type) [Arith K] [LinearOrder K] where
  route : Route K
  known : PortMap (Interval K)
  payloads : PortMap PayloadRef
  epsBudget : Option K
  env : ℕ → Env

/-- A failed execution: the step's `SolveError` with its solver id, or an
exception. -/
inductive ExecFailure (K : Type)
  | step (solverId : SolverId) (e : SolveError K)
  | raised (e : PyError)
  deriving DecidableEq

def Failure.attribute (solverId : SolverId) : Failure K → ExecFailure K
  | .err e => .step solverId e
  | .raised e => .raised e

def ExecFailure.failure : ExecFailure K → Failure K
  | .step _ e => .err e
  | .raised e => .raised e

/-- The locals of the walk. -/
structure ExecState (K : Type) [Arith K] [LinearOrder K] where
  values : PortMap (Interval K)
  epsMap : PortMap K
  payloadValues : PortMap PayloadRef
  solverVersions : OrdMap.Map SolverId String
  stepEps : OrdMap.Map SolverId K
  stepCitations : OrdMap.Map SolverId (List Citation)
  stepDeclaredDomain : OrdMap.Map SolverId (Domain K)
  stepAlgebraicForm : OrdMap.Map SolverId String
  stepAdmissionPredicate : OrdMap.Map SolverId String
  finalEps : K

namespace ExecState

def init (known : PortMap (Interval K)) (payloads : PortMap PayloadRef) : ExecState K where
  values := known
  epsMap := known.map fun _ _ => 0
  payloadValues := payloads
  solverVersions := ∅
  stepEps := ∅
  stepCitations := ∅
  stepDeclaredDomain := ∅
  stepAlgebraicForm := ∅
  stepAdmissionPredicate := ∅
  finalEps := 0

/-- `d[key] = value`, for a value that is there. -/
def insertSome {α : Type} (d : OrdMap.Map SolverId α) (key : SolverId) :
    Option α → OrdMap.Map SolverId α
  | some value => d.insert key value
  | none => d

/-- Record a completed step. -/
def record (st : ExecState K) (solverId : SolverId) (info : SolverInfo K) (entry : StepEntry K) :
    ExecState K where
  values := st.values ∪ entry.hull
  epsMap := st.epsMap ∪ entry.hull.map fun _ _ => entry.stepEps
  payloadValues := st.payloadValues ∪ entry.produced
  solverVersions := st.solverVersions.insert solverId info.version
  stepEps := st.stepEps.insert solverId entry.stepEps
  stepCitations := st.stepCitations.insert solverId info.citations
  stepDeclaredDomain := st.stepDeclaredDomain.insert solverId info.domain
  stepAlgebraicForm := insertSome st.stepAlgebraicForm solverId info.algebraicForm
  stepAdmissionPredicate := insertSome st.stepAdmissionPredicate solverId info.admissionPredicate
  finalEps := entry.stepEps

end ExecState

/-! ### The walk -/

section Walk

variable (reg : SolverRegistry K Env) (rq : ExecRequest K Env)

/-- What the `i`-th step is run with in the state `st`. -/
def bindStep (i : ℕ) (step : RouteStep K) (st : ExecState K) :
    Except (Failure K) (StepCall K Env) := do
  let (info, fn) ← (index reg.solvers step.solverId).mapError .raised
  let (scalarPorts, payloadInputs) ←
    (splitStepInputs info reg.ports st.values st.payloadValues).mapError .err
  let box ← (inflatedBox st.values st.epsMap scalarPorts).mapError .raised
  pure
    { info, fn, box, payloadInputs
      portTable := reg.ports
      remainingBudget := remainingBudget st.epsMap scalarPorts rq.epsBudget
      env := rq.env i }

variable [CanonicalDigest K D] [DecidableEq D]

/-- One iteration of the loop over the steps. -/
def executeStep (i : ℕ) (step : RouteStep K) (st : ExecState K)
    (stepCache : Option (StepStore K Env D)) :
    Except (Failure K) (ExecState K) × Option (StepStore K Env D) :=
  match bindStep reg rq i step st with
  | .error e => (.error e, stepCache)
  | .ok c =>
      match runStep stepCache c with
      | (.error e, stepCache) => (.error e, stepCache)
      | (.ok entry, stepCache) =>
          match checkStepOutputDomain c.info entry.hull entry.stepEps with
          | .error e => (.error (.err e), stepCache)
          | .ok () => (.ok (st.record step.solverId c.info entry), stepCache)

def executeSteps : ℕ → List (RouteStep K) → ExecState K → Option (StepStore K Env D) →
    Except (ExecFailure K) (ExecState K) × Option (StepStore K Env D)
  | _, [], st, stepCache => (.ok st, stepCache)
  | i, step :: steps, st, stepCache =>
      match executeStep reg rq i step st stepCache with
      | (.error e, stepCache) => (.error (e.attribute step.solverId), stepCache)
      | (.ok st, stepCache) => executeSteps (i + 1) steps st stepCache

/-- The settings digests of the steps, folded in route order. -/
def routeSettingsDigest (route : Route K) : Except PyError D := do
  let digests ← route.steps.mapM fun step => do
    let (info, _) ← index reg.solvers step.solverId
    pure info.settingsDigest
  pure (canonicalDigest (.settings (K := K) digests))

/-- The solution of a completed walk. -/
def solutionOf (st : ExecState K) : Except PyError (Solution K D) := do
  let value ← index st.values rq.route.target
  let settingsDigest ← routeSettingsDigest reg rq.route
  pure
    { target := rq.route.target
      value
      eps := st.finalEps
      route := rq.route
      settingsDigest
      solverVersions := st.solverVersions
      attempts := []
      cacheHit := false
      stepEps := st.stepEps
      stepCitations := st.stepCitations
      stepDeclaredDomain := st.stepDeclaredDomain
      stepAlgebraicForm := st.stepAlgebraicForm
      stepAdmissionPredicate := st.stepAdmissionPredicate
      epsBudget := none }

/-- `execute_with_attribution`.  A zero-step route gives the known value with
eps 0: its walk is over at the start. -/
def executeWithAttribution (stepCache : Option (StepStore K Env D)) :
    Except (ExecFailure K) (Solution K D) × Option (StepStore K Env D) :=
  match executeSteps reg rq 0 rq.route.steps (.init rq.known rq.payloads) stepCache with
  | (.error e, stepCache) => (.error e, stepCache)
  | (.ok st, stepCache) => ((solutionOf reg rq st).mapError .raised, stepCache)

/-- `execute`: the attribution is dropped. -/
def execute (stepCache : Option (StepStore K Env D)) :
    Except (Failure K) (Solution K D) × Option (StepStore K Env D) :=
  let r := executeWithAttribution reg rq stepCache
  (r.1.mapError ExecFailure.failure, r.2)

end Walk

end Feldspar

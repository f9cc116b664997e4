/-
Feldspar/Report.lean

The justification report of a solution (`report.py`), as a dict and as text.

Both renderings are made of the same step records, and read nothing but the
solution.  How a float and a quoted text are written is a parameter.
-/
import Feldspar.Codec

set_option linter.unusedSectionVars false

namespace Feldspar

namespace Report

open Codec

variable {K : Type} [Field K] [LinearOrder K]

/-! ### Records -/

/-- What both renderings say of a step. -/
structure StepRecord (K : Type) [Field K] [LinearOrder K] where
  solverId : SolverId
  citations : List Citation
  declaredDomain : Option (Domain K)
  realizedDomain : Domain K
  predictedEps : JsonFloat K
  chargedEps : Option (JsonFloat K)
  cost : JsonFloat K
  algebraicForm : Option String
  admissionPredicate : Option String

def stepRecord (solution : StoredSolution K) (step : StoredStep K) : StepRecord K where
  solverId := step.solverId
  citations := solution.stepCitations[step.solverId]?.getD []
  declaredDomain := solution.stepDeclaredDomain[step.solverId]?
  realizedDomain := step.realizedDomain
  predictedEps := step.predictedEps
  chargedEps := solution.stepEps[step.solverId]?
  cost := step.cost
  algebraicForm := solution.stepAlgebraicForm[step.solverId]?
  admissionPredicate := solution.stepAdmissionPredicate[step.solverId]?

def stepRecords (solution : StoredSolution K) : List (StepRecord K) :=
  solution.route.steps.map (stepRecord solution)

/-- `total_error`. -/
def realizedError (solution : StoredSolution K) : JsonFloat K :=
  (JsonFloat.finite solution.value.halfWidth).add solution.eps

/-- What is left of the budget. -/
def epsRemaining (solution : StoredSolution K) (budget : JsonFloat K) : JsonFloat K :=
  budget.add (realizedError solution).neg

/-! ### As a dict -/

def StepRecord.toDict (record : StepRecord K) : Json K :=
  .obj [("solver_id", .str record.solverId),
    ("citations", .arr (record.citations.map citationToJson)),
    ("declared_domain", optionToJson domainToJson record.declaredDomain),
    ("realized_domain", domainToJson record.realizedDomain),
    ("predicted_eps", .float record.predictedEps),
    ("charged_eps", optionToJson .float record.chargedEps),
    ("cost", .float record.cost),
    ("algebraic_form", optionToJson .str record.algebraicForm),
    ("admission_predicate", optionToJson .str record.admissionPredicate)]

def renderToDict (solution : StoredSolution K) : Json K :=
  .obj [("target", .str solution.target), ("value", intervalToJson solution.value),
    ("eps", .float solution.eps), ("realized_error", .float (realizedError solution)),
    ("eps_budget", optionToJson .float solution.epsBudget),
    ("eps_remaining", optionToJson .float (solution.epsBudget.map (epsRemaining solution))),
    ("route", .obj [("digest", .str solution.route.digest),
      ("total_cost", .float solution.route.totalCost),
      ("predicted_eps", .float solution.route.predictedEps),
      ("steps", .arr ((stepRecords solution).map StepRecord.toDict))]),
    ("settings_digest", .str solution.settingsDigest),
    ("solver_versions", Json.ofMap .str solution.solverVersions),
    ("cache_hit", .bool solution.cacheHit),
    ("attempts", .arr (solution.attempts.map attemptToJson))]

/-! ### As text -/

section Text

variable (formatF64 : JsonFloat K → String) (quote : String → String)

def fmtDomain (label : String) (domain : Option (Domain K)) : String :=
  match domain with
  | none => "    " ++ label ++ ": (not carried)"
  | some domain =>
      let box := domain.portBox.toList.map fun e =>
        e.1 ++ "=[" ++ formatF64 (.finite e.2.lo) ++ ", " ++ formatF64 (.finite e.2.hi) ++ "]"
      let tags := if domain.tags.isEmpty then "(none)" else ", ".intercalate domain.tags.toList
      "    " ++ label ++ ": box=(" ++ ", ".intercalate box ++ ") tags=(" ++ tags ++ ")"

def fmtCitation (c : Citation) : String :=
  "    citation: " ++ citationKindName c.kind ++ ": " ++ c.ref
    ++ (if c.note = "" then "" else " -- " ++ c.note)

/-- `text or default`. -/
def orElse (text : Option String) (default : String) : String :=
  match text with
  | none => default
  | some "" => default
  | some s => s

def fmtStep (i : ℕ) (record : StepRecord K) : List String :=
  ["  step " ++ toString i ++ ": solver=" ++ quote record.solverId]
    ++ (if record.citations.isEmpty then ["    citation: (none carried)"]
        else record.citations.map fmtCitation)
    ++ [fmtDomain formatF64 "declared_domain" record.declaredDomain,
      fmtDomain formatF64 "realized_domain" (some record.realizedDomain),
      "    predicted_eps=" ++ formatF64 record.predictedEps ++ "  charged_eps="
        ++ (record.chargedEps.map formatF64).getD "(not carried)"
        ++ "  cost=" ++ formatF64 record.cost,
      "    algebraic_form: "
        ++ orElse record.algebraicForm "(not carried -- hand-written direction)",
      "    admission_predicate: " ++ orElse record.admissionPredicate "(none)"]

def fmtAttempt (i : ℕ) (attempt : StoredAttempt K) : String :=
  let excluded :=
    if attempt.excluded.isEmpty then "(none)" else ", ".intercalate attempt.excluded
  "    attempt " ++ toString i ++ ": excluded=(" ++ excluded ++ ") failed_step="
    ++ orElse attempt.failedSolverId "(plan itself)" ++ " error=" ++ attempt.errorKind

/-- The lines from the first index on. -/
def fmtFrom {α β : Type} (fmt : ℕ → α → β) : ℕ → List α → List β
  | _, [] => []
  | i, a :: rest => fmt i a :: fmtFrom fmt (i + 1) rest

def budgetLine (solution : StoredSolution K) : String :=
  match solution.epsBudget with
  | some budget =>
      "  eps_budget=" ++ formatF64 budget ++ "  spent=" ++ formatF64 (realizedError solution)
        ++ "  remaining=" ++ formatF64 (epsRemaining solution budget)
  | none => "  eps_budget: (no budget context -- execute() called directly)"

def renderExplain (solution : StoredSolution K) : String :=
  let records := stepRecords solution
  "\n".intercalate
    (["Solution for target=" ++ quote solution.target,
      "  value=[" ++ formatF64 (.finite solution.value.lo) ++ ", "
        ++ formatF64 (.finite solution.value.hi) ++ "]  eps=" ++ formatF64 solution.eps,
      "  realized_error(worst-case)=" ++ formatF64 (realizedError solution),
      budgetLine formatF64 solution,
      "  cache_hit=" ++ (if solution.cacheHit then "True" else "False"),
      "  settings_digest=" ++ solution.settingsDigest,
      "  route_digest=" ++ solution.route.digest,
      "  route_total_cost=" ++ formatF64 solution.route.totalCost]
    ++ (if records.isEmpty then ["  route: zero-step (target already known)"]
        else ("  route: " ++ toString records.length ++ " step(s)")
          :: (fmtFrom (fmtStep formatF64 quote) 1 records).flatten)
    ++ (if solution.attempts.isEmpty then
          ["  reroute trail: (none -- solved on the first attempt)"]
        else ("  reroute trail: " ++ toString solution.attempts.length ++ " attempt(s)")
          :: fmtFrom fmtAttempt 1 solution.attempts))

end Text

end Report

end Feldspar

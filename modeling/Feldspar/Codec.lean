/-
Feldspar/Codec.lean

The JSON form of a solution and of a step entry (`cache.py`), written and read
back by hand.

A `StoredSolution` is a `Solution` as Python holds it: floats may be special,
a route carries its digest, and an error detail is what JSON makes of it.
Reading takes any JSON value.  The models validate what they are built from
(pydantic, in its lax mode), and `Interval` checks its bounds.

The fields of a model are validated together once all of them are read; here
each one is validated as it is read.  This decides what is raised where several
are wrong, and nothing else.
-/
import Feldspar.Execute
import Feldspar.Lib.Json

set_option linter.unusedSectionVars false

namespace Feldspar

namespace Codec

open Json (item get items iter dict listOf mapItems ofMap)

variable {K : Type} [Field K] [LinearOrder K]

/-! ### Data -/

structure StoredStep (K : Type) [Field K] [LinearOrder K] where
  solverId : SolverId
  realizedDomain : Domain K
  predictedEps : JsonFloat K
  cost : JsonFloat K

structure StoredRoute (K : Type) [Field K] [LinearOrder K] where
  target : Port
  steps : List (StoredStep K)
  predictedEps : JsonFloat K
  totalCost : JsonFloat K
  digest : String

structure StoredAttempt (K : Type) where
  excluded : List SolverId
  routeDigest : Option String
  failedSolverId : Option SolverId
  errorKind : String
  errorDetail : OrdMap.Map String (Json K)

structure StoredSolution (K : Type) [Field K] [LinearOrder K] where
  target : Port
  value : Interval K
  eps : JsonFloat K
  route : StoredRoute K
  settingsDigest : String
  solverVersions : OrdMap.Map SolverId String
  attempts : List (StoredAttempt K)
  cacheHit : Bool
  stepEps : OrdMap.Map SolverId (JsonFloat K)
  stepCitations : OrdMap.Map SolverId (List Citation)
  stepDeclaredDomain : OrdMap.Map SolverId (Domain K)
  stepAlgebraicForm : OrdMap.Map SolverId String
  stepAdmissionPredicate : OrdMap.Map SolverId String
  epsBudget : Option (JsonFloat K)

/-! ### Writing -/

def intervalToJson (iv : Interval K) : Json K :=
  .obj [("lo", .float (.finite iv.lo)), ("hi", .float (.finite iv.hi))]

def domainToJson (domain : Domain K) : Json K :=
  .obj [("box", ofMap intervalToJson domain.portBox),
    ("tags", .arr (domain.tags.toList.map .str))]

def routeStepToJson (step : StoredStep K) : Json K :=
  .obj [("solver_id", .str step.solverId), ("realized_domain", domainToJson step.realizedDomain),
    ("predicted_eps", .float step.predictedEps), ("cost", .float step.cost)]

def routeToJson (route : StoredRoute K) : Json K :=
  .obj [("target", .str route.target), ("steps", .arr (route.steps.map routeStepToJson)),
    ("predicted_eps", .float route.predictedEps), ("total_cost", .float route.totalCost),
    ("digest", .str route.digest)]

/-- `None`, or a value. -/
def optionToJson {α : Type} (enc : α → Json K) : Option α → Json K
  | none => .null
  | some a => enc a

def attemptToJson (attempt : StoredAttempt K) : Json K :=
  .obj [("excluded", .arr (attempt.excluded.map .str)),
    ("route_digest", optionToJson .str attempt.routeDigest),
    ("failed_solver_id", optionToJson .str attempt.failedSolverId),
    ("error_kind", .str attempt.errorKind), ("error_detail", ofMap id attempt.errorDetail)]

def citationKindName : CitationKind → String
  | .paper => "paper"
  | .handbook => "handbook"
  | .standard => "standard"
  | .calibration => "calibration"

def citationToJson (citation : Citation) : Json K :=
  .obj [("kind", .str (citationKindName citation.kind)), ("ref", .str citation.ref),
    ("note", .str citation.note)]

def solutionToJsonable (solution : StoredSolution K) : Json K :=
  .obj [("target", .str solution.target), ("value", intervalToJson solution.value),
    ("eps", .float solution.eps), ("route", routeToJson solution.route),
    ("settings_digest", .str solution.settingsDigest),
    ("solver_versions", ofMap .str solution.solverVersions),
    ("attempts", .arr (solution.attempts.map attemptToJson)),
    ("cache_hit", .bool solution.cacheHit), ("step_eps", ofMap .float solution.stepEps),
    ("step_citations", ofMap (fun cs => .arr (cs.map citationToJson)) solution.stepCitations),
    ("step_declared_domain", ofMap domainToJson solution.stepDeclaredDomain),
    ("eps_budget", optionToJson .float solution.epsBudget)]

/-! ### Reading -/

/-- How an integer and a text become a float: an integer may be too large, and a
text may be no number. -/
structure Conversions (K : Type) where
  floatOfInt : ℤ → Option K
  floatOfText : String → Option (JsonFloat K)

/-- A `str` field. -/
def strField : Json K → Except Json.Fault String
  | .str s => .ok s
  | _ => .error .valueError

/-- An `Optional` field. -/
def optionalField {α : Type} (read : Json K → Except Json.Fault α) :
    Json K → Except Json.Fault (Option α)
  | .null => .ok none
  | j => (read j).map some

/-- The texts that stand for a truth value, in any case. -/
def boolOfText (s : String) : Option Bool :=
  let lowered := s.map Char.toLower
  if lowered ∈ ["1", "on", "t", "true", "y", "yes"] then some true
  else if lowered ∈ ["0", "off", "f", "false", "n", "no"] then some false
  else none

/-- A `bool` field. -/
def boolField : Json K → Except Json.Fault Bool
  | .bool b => .ok b
  | .int n => if n = 1 then .ok true else if n = 0 then .ok false else .error .valueError
  | .float (.finite x) =>
      if x = 1 then .ok true else if x = 0 then .ok false else .error .valueError
  | .str s => ((boolOfText s).map .ok).getD (.error .valueError)
  | _ => .error .valueError

/-- A `Mapping[str, Any]` field. -/
def mappingField : Json K → Except Json.Fault (OrdMap.Map String (Json K))
  | .obj members => .ok (.ofList members compare)
  | _ => .error .valueError

/-- A `Literal` field. -/
def citationKindField : Json K → Except Json.Fault CitationKind
  | .str s =>
      if s = "paper" then .ok .paper
      else if s = "handbook" then .ok .handbook
      else if s = "standard" then .ok .standard
      else if s = "calibration" then .ok .calibration
      else .error .valueError
  | _ => .error .valueError

/-- The field of a payload ref that is checked against the table of kinds. -/
def payloadKindField (j : Json K) : Except Json.Fault { kind : String // kind ∈ payloadKinds } := do
  let kind ← strField j
  if h : kind ∈ payloadKinds then pure ⟨kind, h⟩ else .error .valueError

/-- A `str` field with a default. -/
def strFieldOr (default : String) : Option (Json K) → Except Json.Fault String
  | none => .ok default
  | some j => strField j

/-- `dict(j)`, as a `Mapping[str, _]` field. -/
def dictField {α : Type} (read : Json K → Except Json.Fault α) (j : Json K) :
    Except Json.Fault (OrdMap.Map String α) := do
  let pairs ← dict j
  let named ← pairs.mapM fun e => do pure (← strField e.1, e.2)
  mapItems read (ofMap id (.ofList named compare))

section Conversions

variable (conv : Conversions K)

/-- An `f64` argument. -/
def f64Argument : Json K → Except Json.Fault (JsonFloat K)
  | .float x => .ok x
  | .int n => ((conv.floatOfInt n).map fun x => .ok (.finite x)).getD (.error .valueError)
  | .bool b => .ok (.finite (if b then 1 else 0))
  | _ => .error .typeError

/-- A `float` field. -/
def floatField : Json K → Except Json.Fault (JsonFloat K)
  | .str s => ((conv.floatOfText s).map .ok).getD (.error .valueError)
  | j => (f64Argument conv j).mapError fun _ => .valueError

/-- The bounds as the constructor sees them. -/
def toF64 : JsonFloat K → F64 K
  | .finite x => .finite x
  | _ => .nonFinite

def intervalFromJson (j : Json K) : Except Json.Fault (Interval K) := do
  let lo ← item "lo" j
  let hi ← item "hi" j
  let lo ← f64Argument conv lo
  let hi ← f64Argument conv hi
  (Interval.new (toF64 lo) (toF64 hi)).mapError fun _ => .valueError

/-- An element of a set of texts. -/
def tagArgument : Json K → Except Json.Fault String
  | .str s => .ok s
  | _ => .error .typeError

def domainFromJson (j : Json K) : Except Json.Fault (Domain K) := do
  let portBox ← item "box" j >>= mapItems (intervalFromJson conv)
  let tags ← item "tags" j >>= listOf tagArgument
  pure ⟨portBox, .ofList tags compare⟩

def routeStepFromJson (j : Json K) : Except Json.Fault (StoredStep K) := do
  let solverId ← item "solver_id" j >>= strField
  let realizedDomain ← item "realized_domain" j >>= domainFromJson conv
  let predictedEps ← item "predicted_eps" j >>= floatField conv
  let cost ← item "cost" j >>= floatField conv
  pure { solverId, realizedDomain, predictedEps, cost }

def routeFromJson (j : Json K) : Except Json.Fault (StoredRoute K) := do
  let target ← item "target" j >>= strField
  let steps ← item "steps" j >>= listOf (routeStepFromJson conv)
  let predictedEps ← item "predicted_eps" j >>= floatField conv
  let totalCost ← item "total_cost" j >>= floatField conv
  let digest ← item "digest" j >>= strField
  pure { target, steps, predictedEps, totalCost, digest }

def attemptFromJson (j : Json K) : Except Json.Fault (StoredAttempt K) := do
  let excluded ← item "excluded" j >>= listOf strField
  let routeDigest ← item "route_digest" j >>= optionalField strField
  let failedSolverId ← item "failed_solver_id" j >>= optionalField strField
  let errorKind ← item "error_kind" j >>= strField
  let errorDetail ← item "error_detail" j >>= mappingField
  pure { excluded, routeDigest, failedSolverId, errorKind, errorDetail }

def citationFromJson (j : Json K) : Except Json.Fault Citation := do
  let kind ← item "kind" j >>= citationKindField
  let ref ← item "ref" j >>= strField
  let note ← item "note" j >>= strField
  pure { kind, ref, note }

/-- `j.get(key, default)`, and what is then done with it. -/
def getOr {α : Type} (key : String) (default : α) (read : Json K → Except Json.Fault α)
    (j : Json K) : Except Json.Fault α := do
  match ← get key j with
  | some v => read v
  | none => pure default

def solutionFromJsonable (j : Json K) : Except Json.Fault (StoredSolution K) := do
  let target ← item "target" j >>= strField
  let value ← item "value" j >>= intervalFromJson conv
  let eps ← item "eps" j >>= floatField conv
  let route ← item "route" j >>= routeFromJson conv
  let settingsDigest ← item "settings_digest" j >>= strField
  let solverVersions ← item "solver_versions" j >>= dictField strField
  let attempts ← item "attempts" j >>= listOf attemptFromJson
  let cacheHit ← item "cache_hit" j >>= boolField
  let stepEps ← getOr "step_eps" ∅ (dictField (floatField conv)) j
  let stepCitations ← getOr "step_citations" ∅ (mapItems (listOf citationFromJson)) j
  let stepDeclaredDomain ← getOr "step_declared_domain" ∅ (mapItems (domainFromJson conv)) j
  let epsBudget ← getOr "eps_budget" none (optionalField (floatField conv)) j
  pure
    { target, value, eps, route, settingsDigest, solverVersions, attempts, cacheHit, stepEps
      stepCitations, stepDeclaredDomain
      -- the two maps of symbolic provenance keep their defaults
      stepAlgebraicForm := ∅
      stepAdmissionPredicate := ∅
      epsBudget }

/-! ### Step entries -/

/-- What a step file holds: hull, payload refs, and an eps that nothing
validates. -/
structure StoredEntry (K : Type) where
  hull : PortMap (Interval K)
  payloads : PortMap PayloadRef
  stepEps : Json K

def payloadRefFromJson (j : Json K) : Except Json.Fault PayloadRef := do
  -- only a mapping can be unpacked into keyword arguments
  let members ← (items j).mapError fun _ => .typeError
  let kind ← ((members.lookup "kind").map payloadKindField).getD (.error .valueError)
  let digest ← ((members.lookup "digest").map strField).getD (.error .valueError)
  let origin ← strFieldOr "" (members.lookup "origin")
  pure ⟨kind.1, digest, origin, kind.2⟩

def stepEntryFromJson (j : Json K) : Except Json.Fault (StoredEntry K) := do
  let hull ← item "hull" j >>= mapItems (intervalFromJson conv)
  let payloads ← item "payloads" j >>= mapItems payloadRefFromJson
  let stepEps ← item "step_eps" j
  pure { hull, payloads, stepEps }

end Conversions

end Codec

end Feldspar

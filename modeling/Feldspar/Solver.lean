/-
Feldspar/Solver.lean

What a registry holds (`_models.py`, `payload.py`, `errors.py`,
`registry.py`): solver metadata, the `SolveFn` behind it, the solve errors and
the port table.

A `SolveFn` is a function of the environment it runs in, its corner inputs
and the eps budget.  The environment stands for everything outside the
arguments (tools on the machine, the solver's own state), so with one
environment for each step every behaviour of a `SolveFn` that returns is
covered.  Raising inside a `SolveFn` is a programmer error there and is not
modelled.

`SolverRegistry` carries what `register` checked of every solver it accepted;
`register` and `declarePorts` are the only ways to build one.
-/
import Feldspar.Lib.Fallible
import Feldspar.Search

set_option linter.unusedSectionVars false

namespace Feldspar

/-! ### Ports and payloads -/

inductive Rank
  | scalar
  | complex
  | vector (n : ℕ)
  | tensor (m n : ℕ)
  | payload (kind : String)
  deriving DecidableEq, Repr

def Rank.payloadKind : Rank → Option String
  | .payload kind => some kind
  | _ => none

structure PortDecl where
  name : Port
  unit : String
  rank : Rank
  deriving DecidableEq, Repr

/-- The payload-kind table, `PAYLOAD_KINDS`. -/
def payloadKinds : List String :=
  ["geometry.parametric", "geometry.realized", "layout.realized", "mesh", "table", "spectrum",
    "profile", "mask", "field", "flownet", "plan", "frame"]

/-- A payload value, exact by reference. -/
structure PayloadRef where
  kind : String
  digest : String
  origin : String
  kind_known : kind ∈ payloadKinds
  deriving DecidableEq

/-- The payload kind that `port` is declared with, if its rank is `payload`. -/
def payloadKindOf (portTable : PortMap PortDecl) (port : Port) : Option String :=
  portTable[port]?.bind fun decl => decl.rank.payloadKind

/-- A port is a payload port iff its declared rank is `payload`; an
undeclared port is scalar. -/
def isPayloadPort (portTable : PortMap PortDecl) (port : Port) : Bool :=
  (payloadKindOf portTable port).isSome

def declaredKind (portTable : PortMap PortDecl) (port : Port) : String :=
  (payloadKindOf portTable port).getD ""

/-! ### Solver metadata -/

inductive CitationKind
  | paper
  | handbook
  | standard
  | calibration
  deriving DecidableEq, Repr

structure Citation where
  kind : CitationKind
  ref : String
  note : String
  deriving DecidableEq, Repr

inductive Tier
  | table
  | closedForm
  | reduced
  | discretized
  | coupled
  deriving DecidableEq, Repr

structure CostPoint (K : Type) where
  eps : K
  cost : K
  deriving DecidableEq

variable {K : Type} [Arith K] [LinearOrder K]

/-- Frozen solver metadata; the planner reads the `SolverSummary` part. -/
structure SolverInfo (K : Type) [Arith K] [LinearOrder K] extends SolverSummary K where
  ns : String
  version : String
  citations : List Citation
  tier : Tier
  deterministic : Bool
  cornerMonotone : Bool
  settingsDigest : String
  epsSeeking : Bool
  costCurve : Option (List (CostPoint K))
  algebraicForm : Option String
  admissionPredicate : Option String

/-- `model_dump`: the symbolic provenance is excluded. -/
def SolverInfo.dump (info : SolverInfo K) : SolverInfo K :=
  { info with algebraicForm := none, admissionPredicate := none }

/-! ### Errors -/

/-- A part of an error text: characters, or a float shown by `repr`. -/
inductive TextPart (K : Type)
  | lit (s : String)
  | repr (x : F64 K)
  deriving DecidableEq

abbrev Text (K : Type) := List (TextPart K)

/-- A field of an attempt record's `error_detail`. -/
inductive Detail (K : Type)
  | str (s : Text K)
  | num (x : F64 K)
  | int (n : ℤ)
  | none
  deriving DecidableEq

/-- The `SolveError`s a step can end with.  Fields that hold an object, and
not a primitive, hold its `repr`. -/
inductive SolveError (K : Type)
  | toolMissing (tool guidance : String)
  | toolFailed (tool logTail : String)
  | timeout (tool : String) (seconds : F64 K)
  | parseFailed (context : String)
  | outOfDomain (violation : String)
  | nonFinite (port : Port)
  | outputOutOfDomain (port : Port) (lo hi boxLo boxHi : K)
  | missingOutput (port : Port)
  | invalidMeasurement (reason : Text K)
  | budgetExceeded (realized budget : F64 K)
  | noRouteRemaining (attempts : String)
  | payloadKindMismatch (port : Port) (expectedKind actualKind : String)
  | missingPayload (port : Port)
  | ladderExhausted (bestEps : F64 K) (budget : Option (F64 K)) (rungsTried : ℤ)
  | noConvergence (iterations : ℤ) (residual : F64 K)
  | danglingDigest (digest : String)
  deriving DecidableEq

/-- A literal text field. -/
def Detail.lit (s : String) : Detail K := .str [.lit s]

/-- `(kind, detail)` of a solve error. -/
def SolveError.recordFields : SolveError K → String × List (String × Detail K)
  | .toolMissing tool guidance =>
      ("ToolMissing", [("tool", .lit tool), ("guidance", .lit guidance)])
  | .toolFailed tool logTail => ("ToolFailed", [("tool", .lit tool), ("log_tail", .lit logTail)])
  | .timeout tool seconds => ("Timeout", [("tool", .lit tool), ("seconds", .num seconds)])
  | .parseFailed context => ("ParseFailed", [("context", .lit context)])
  | .outOfDomain violation => ("OutOfDomain", [("violation", .lit violation)])
  | .nonFinite port => ("NonFinite", [("port", .lit port)])
  | .outputOutOfDomain port lo hi boxLo boxHi =>
      ("OutputOutOfDomain", [("port", .lit port), ("lo", .num (.finite lo)),
        ("hi", .num (.finite hi)), ("box_lo", .num (.finite boxLo)),
        ("box_hi", .num (.finite boxHi))])
  | .missingOutput port => ("MissingOutput", [("port", .lit port)])
  | .invalidMeasurement reason => ("InvalidMeasurement", [("reason", .str reason)])
  | .budgetExceeded realized budget =>
      ("BudgetExceeded", [("realized", .num realized), ("budget", .num budget)])
  | .noRouteRemaining attempts => ("NoRouteRemaining", [("attempts", .lit attempts)])
  | .payloadKindMismatch port expectedKind actualKind =>
      ("PayloadKindMismatch", [("port", .lit port), ("expected_kind", .lit expectedKind),
        ("actual_kind", .lit actualKind)])
  | .missingPayload port => ("MissingPayload", [("port", .lit port)])
  | .ladderExhausted bestEps budget rungsTried =>
      ("LadderExhausted", [("best_eps", .num bestEps),
        ("budget", match budget with | some b => .num b | none => .none),
        ("rungs_tried", .int rungsTried)])
  | .noConvergence iterations residual =>
      ("NoConvergence", [("iterations", .int iterations), ("residual", .num residual)])
  | .danglingDigest digest => ("DanglingDigest", [("digest", .lit digest)])

/-- `(kind, detail)` of a plan error. -/
def PlanError.recordFields : PlanError K → String × List (String × Detail K)
  | .invalidBudget => ("InvalidBudget", [])
  | .unknownTarget target => ("UnknownTarget", [("target", .lit target)])
  | .noApplicableSolver => ("NoApplicableSolver", [])
  | .budgetUnreachable bestEps => ("BudgetUnreachable", [("best_eps", .num (.finite bestEps))])
  | .cyclicPortEquivalence => ("CyclicPortEquivalence", [])

/-- The exceptions that modelled code can raise. -/
inductive PyError
  | keyError (key : String)
  | indexError
  | panicException
  deriving DecidableEq, Repr

/-! ### Solve functions -/

/-- A corner mapping holds floats at scalar ports and refs at payload ports. -/
inductive CornerValue (K : Type)
  | scalar (x : K)
  | payload (ref : PayloadRef)
  deriving DecidableEq

/-- A solver's raw result; `values` is a dict in insertion order. -/
structure SolveOutput (K : Type) where
  values : List (Port × F64 K)
  measuredEps : Option (F64 K)
  payloads : PortMap PayloadRef

structure SolveFn (K Env : Type) where
  /-- the attribute `wrap_solve_fn` stamps -/
  epsSeeking : Bool
  /-- the optional attribute of a tool-backed solver: does the probe succeed -/
  probeTools : Option (Env → Bool)
  call : Env → PortMap (CornerValue K) → Option K → Except (SolveError K) (SolveOutput K)

variable {Env : Type}

/-- Only an eps-seeking function is handed the budget. -/
def invokeSolveFn (fn : SolveFn K Env) (env : Env) (x : PortMap (CornerValue K))
    (epsBudget : Option K) : Except (SolveError K) (SolveOutput K) :=
  fn.call env x (if fn.epsSeeking then epsBudget else none)

/-- The tools of `fn` are there, or it needs none. -/
def SolveFn.toolsPresent (fn : SolveFn K Env) (env : Env) : Bool :=
  match fn.probeTools with
  | some probe => probe env
  | none => true

/-! ### The registry -/

inductive RegistryError
  | duplicateSolverId (solverId : SolverId)
  | portUnitConflict (port : Port)
  | portRankConflict (port : Port)
  | unknownPort (port : Port)
  | duplicatePortDecl (port : Port)
  | emptyCitations (solverId : SolverId)
  | nonPositiveCost (solverId : SolverId)
  | accuracyOutputMismatch (solverId : SolverId)
  | frozen
  | payloadKindConflict (port : Port)
  | unknownPayloadKind (port : Port) (payloadKind : String)
  deriving DecidableEq, Repr

/-- What `register` checks of a solver's own metadata. -/
structure SolverInfo.Registrable (info : SolverInfo K) : Prop where
  cost_pos : 0 < info.cost
  accuracy : ∀ p, p ∈ info.accuracy ↔ p ∈ info.outputs
  citations : ∃ c ∈ info.citations, c.kind ≠ .calibration

abbrev SolverTable (K Env : Type) [Arith K] [LinearOrder K] :=
  OrdMap.Map SolverId (SolverInfo K × SolveFn K Env)

structure SolverRegistry (K Env : Type) [Arith K] [LinearOrder K] where
  solvers : SolverTable K Env
  ports : PortMap PortDecl
  frozen : Bool
  key_eq : ∀ (id : SolverId) (info : SolverInfo K) (fn : SolveFn K Env),
    solvers[id]? = some (info, fn) → info.solverId = id
  registrable : ∀ (id : SolverId) (info : SolverInfo K) (fn : SolveFn K Env),
    solvers[id]? = some (info, fn) → info.Registrable

namespace SolverRegistry

def empty : SolverRegistry K Env where
  solvers := ∅
  ports := ∅
  frozen := false
  key_eq := by simp
  registrable := by simp

/-- The first check of `register` that fails. -/
def rejection (reg : SolverRegistry K Env) (info : SolverInfo K) : Option RegistryError :=
  if reg.frozen then some .frozen
  else if info.solverId ∈ reg.solvers then some (.duplicateSolverId info.solverId)
  else if info.cost ≤ 0 then some (.nonPositiveCost info.solverId)
  else if ¬ ((∀ p ∈ info.accuracy.keys, p ∈ info.outputs) ∧
      ∀ p ∈ info.outputs, p ∈ info.accuracy) then
    some (.accuracyOutputMismatch info.solverId)
  else if ∀ c ∈ info.citations, c.kind = .calibration then
    some (.emptyCitations info.solverId)
  -- an empty port table means that nobody has opted in
  else if reg.ports.isEmpty then none
  else ((info.inputs ++ info.outputs ++ info.domain.portBox.keys).find? fun port =>
    port ∉ reg.ports).map .unknownPort

theorem registrable_of_rejection {reg : SolverRegistry K Env} {info : SolverInfo K}
    (h : reg.rejection info = none) : info.Registrable := by
  unfold rejection at h
  split at h
  · cases h
  split at h
  · cases h
  split at h
  · cases h
  rename_i hcost
  split at h
  · cases h
  rename_i hacc
  split at h
  · cases h
  rename_i hcit
  rw [not_not] at hacc
  refine ⟨not_le.mp hcost, fun p => ⟨fun hp => hacc.1 p (by simpa using hp), hacc.2 p⟩, ?_⟩
  simpa using hcit

/-- `SolverRegistry.register`. -/
def register (reg : SolverRegistry K Env) (info : SolverInfo K) (fn : SolveFn K Env) :
    Except RegistryError (SolverRegistry K Env) :=
  match h : reg.rejection info with
  | some e => .error e
  | none => .ok
      { reg with
        solvers := reg.solvers.insert info.solverId (info, fn)
        key_eq := by
          intro id info' fn' hget
          rw [OrdMap.getElem?_insert_eq] at hget
          split at hget
          · cases hget
            assumption
          · exact reg.key_eq id info' fn' hget
        registrable := by
          intro id info' fn' hget
          rw [OrdMap.getElem?_insert_eq] at hget
          split at hget
          · cases hget
            exact registrable_of_rejection h
          · exact reg.registrable id info' fn' hget }

/-- The error of declaring a port that is declared already. -/
def redeclared (existing decl : PortDecl) : RegistryError :=
  if existing.unit ≠ decl.unit then .portUnitConflict decl.name
  else if existing.rank.payloadKind.isSome ∧ decl.rank.payloadKind.isSome ∧
      existing.rank.payloadKind ≠ decl.rank.payloadKind then
    .payloadKindConflict decl.name
  else if existing.rank ≠ decl.rank then .portRankConflict decl.name
  else .duplicatePortDecl decl.name

def declarePort (ports : PortMap PortDecl) (decl : PortDecl) :
    Except RegistryError (PortMap PortDecl) :=
  match decl.rank.payloadKind.filter fun kind => kind ∉ payloadKinds with
  | some kind => .error (.unknownPayloadKind decl.name kind)
  | none =>
      match ports[decl.name]? with
      | some existing => .error (redeclared existing decl)
      | none => .ok (ports.insert decl.name decl)

/-- `SolverRegistry.declare_ports`; what was declared before a rejected
declaration stays. -/
def declarePorts (reg : SolverRegistry K Env) :
    List PortDecl → SolverRegistry K Env × Except RegistryError Unit
  | [] => (reg, if reg.frozen then .error .frozen else .ok ())
  | decl :: decls =>
      if reg.frozen then (reg, .error .frozen)
      else
        match declarePort reg.ports decl with
        | .error e => (reg, .error e)
        | .ok ports => declarePorts { reg with ports } decls

/-- The registered pairs, in order of their ids. -/
def entries (reg : SolverRegistry K Env) : List (SolverInfo K × SolveFn K Env) :=
  OrdMap.vals reg.solvers

/-- What the planner is given of the solvers that are not excluded. -/
def summaries (reg : SolverRegistry K Env) (excluded : Std.ExtTreeSet SolverId compare) :
    List (SolverSummary K) :=
  (reg.entries.filter fun e => e.1.solverId ∉ excluded).map fun e => e.1.toSolverSummary

theorem mem_entries {reg : SolverRegistry K Env} {e : SolverInfo K × SolveFn K Env} :
    e ∈ reg.entries ↔ reg.solvers[e.1.solverId]? = some e := by
  rw [entries, OrdMap.mem_vals]
  constructor
  · rintro ⟨id, h⟩
    rwa [reg.key_eq id e.1 e.2 h]
  · exact fun h => ⟨_, h⟩

theorem mem_summaries {reg : SolverRegistry K Env}
    {excluded : Std.ExtTreeSet SolverId compare} {s : SolverSummary K} :
    s ∈ reg.summaries excluded ↔ s.solverId ∉ excluded ∧
      ∃ info fn, reg.solvers[s.solverId]? = some (info, fn) ∧ info.toSolverSummary = s := by
  simp only [summaries, List.mem_map, List.mem_filter, mem_entries, decide_eq_true_eq]
  constructor
  · rintro ⟨⟨info, fn⟩, ⟨h, hx⟩, rfl⟩
    exact ⟨hx, info, fn, h, rfl⟩
  · rintro ⟨hx, info, fn, h, rfl⟩
    exact ⟨(info, fn), ⟨h, hx⟩, rfl⟩

/-- Ids are keys, so the planner sees each id once. -/
theorem nodup_summaries (reg : SolverRegistry K Env)
    (excluded : Std.ExtTreeSet SolverId compare) :
    ((reg.summaries excluded).map SolverSummary.solverId).Nodup := by
  have hkeys : reg.entries.map (fun e => e.1.solverId) = reg.solvers.toList.map Prod.fst := by
    rw [entries, OrdMap.vals, List.map_map]
    refine List.map_congr_left fun e he => ?_
    exact reg.key_eq e.1 e.2.1 e.2.2 (Std.ExtTreeMap.mem_toList_iff_getElem?_eq_some.mp he)
  have hnd : (reg.entries.map fun e => e.1.solverId).Nodup :=
    hkeys ▸ OrdMap.nodup_keys_toList reg.solvers
  rw [summaries, List.map_map]
  exact hnd.sublist (List.filter_sublist.map _)

theorem register_entries {reg reg' : SolverRegistry K Env} {info : SolverInfo K}
    {fn : SolveFn K Env} (h : reg.register info fn = .ok reg') {e : SolverInfo K × SolveFn K Env}
    (he : e ∈ reg'.entries) : e ∈ reg.entries ∨ e = (info, fn) := by
  have hsolvers : reg'.solvers = reg.solvers.insert info.solverId (info, fn) := by
    unfold register at h
    split at h
    · cases h
    · exact (Except.ok.inj h) ▸ rfl
  rw [mem_entries, hsolvers, OrdMap.getElem?_insert_eq] at he
  split at he
  · exact Or.inr (Option.some.inj he).symm
  · exact Or.inl (mem_entries.mpr he)

/-- The registry with these port declarations and these solvers. -/
def build (decls : List PortDecl) (entries : List (SolverInfo K × SolveFn K Env)) :
    Except RegistryError (SolverRegistry K Env) :=
  match (empty : SolverRegistry K Env).declarePorts decls with
  | (_, .error e) => .error e
  | (reg, .ok ()) => entries.foldlM (fun reg e => reg.register e.1 e.2) reg

theorem declarePorts_solvers : ∀ (decls : List PortDecl) (reg : SolverRegistry K Env),
    (reg.declarePorts decls).1.solvers = reg.solvers
  | [], reg => rfl
  | decl :: decls, reg => by
      unfold declarePorts
      split
      · rfl
      · split
        · rfl
        · exact declarePorts_solvers decls _

theorem build_entries {decls : List PortDecl} {es : List (SolverInfo K × SolveFn K Env)}
    {reg : SolverRegistry K Env} (h : build decls es = .ok reg) :
    ∀ e ∈ reg.entries, e ∈ es := by
  unfold build at h
  have hports := declarePorts_solvers decls (empty : SolverRegistry K Env)
  rcases hd : (empty : SolverRegistry K Env).declarePorts decls with ⟨reg₀, e | ⟨⟩⟩ <;>
    rw [hd] at h hports
  · cases h
  have hempty : reg₀.entries = [] := by
    rw [entries, hports]
    rfl
  have := Fallible.foldlM_invariant (f := fun (reg : SolverRegistry K Env) e => reg.register e.1 e.2)
    (I := fun done reg => ∀ e ∈ reg.entries, e ∈ done) ?_ (by simp [hempty]) h
  · exact this
  · intro done e reg reg' hreg hok e' he'
    rcases register_entries hok he' with he' | rfl
    · exact List.mem_append_left _ (hreg e' he')
    · exact List.mem_append_right _ List.mem_cons_self

end SolverRegistry

/-! ### Plain solvers -/

/-- Closed-form metadata around a planner summary. -/
def plainInfo (summary : SolverSummary K) : SolverInfo K where
  toSolverSummary := summary
  ns := "plain"
  version := "1"
  citations := [⟨.handbook, "handbook", ""⟩]
  tier := .closedForm
  deterministic := true
  cornerMonotone := true
  settingsDigest := ""
  epsSeeking := false
  costCurve := none
  algebraicForm := none
  admissionPredicate := none

/-- A scalar argument of a corner. -/
def scalarArg (x : PortMap (CornerValue ℚ)) (port : Port) : ℚ :=
  match x[port]? with
  | some (.scalar v) => v
  | _ => 0

/-- A function that always answers, without measuring. -/
def plainFn (f : PortMap (CornerValue K) → List (Port × K)) : SolveFn K Env where
  epsSeeking := false
  probeTools := none
  call _ x _ := .ok ⟨(f x).map fun e => (e.1, .finite e.2), none, ∅⟩

end Feldspar

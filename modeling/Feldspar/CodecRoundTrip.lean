/-
Feldspar/CodecRoundTrip.lean

What a cached solution keeps of the one that was stored.

Every record comes back from JSON as it was written (`…_written`), and so does
a solution but for its symbolic provenance, which is not written at all
(`solutionFromJsonable_written`).  So a cached solution is the stored one, and
has its report, exactly when no step carries any (`preserved_iff`).

What JSON asks of a solution (`WellFormed`) is what the types promise: bounds in
order, and error details without structure.
-/
import Feldspar.DomainSafety
import Feldspar.ExecuteSound
import Feldspar.Report
import Feldspar.Solve

set_option linter.unusedSectionVars false

namespace Feldspar

namespace Codec

open Json (item get sortKeys listOf mapItems ofMap)

variable {K : Type} [Field K] [LinearOrder K] {α : Type}

/-! ### Fields -/

section Field

variable {j : Json K} {members : List (String × Json K)} {key : String} {v : Json K}
variable {read : Json K → Except Json.Fault α} {default a : α}

theorem item_written (hj : j = .obj members) (hkeys : (members.map Prod.fst).Nodup)
    (hget : members.lookup key = some v) : item key j.sortKeys = .ok v.sortKeys := by
  rw [hj]
  exact Json.item_sortKeys hkeys hget

/-- A field of a written object is read as it is read alone. -/
theorem read_item (hj : j = .obj members) (hkeys : (members.map Prod.fst).Nodup)
    (hget : members.lookup key = some v) (hread : read v.sortKeys = .ok a) :
    (item key j.sortKeys >>= read) = .ok a := by
  rw [item_written hj hkeys hget]
  exact hread

theorem read_getOr (hj : j = .obj members) (hkeys : (members.map Prod.fst).Nodup)
    (hget : members.lookup key = some v) (hread : read v.sortKeys = .ok a) :
    getOr key default read j.sortKeys = .ok a := by
  unfold getOr
  rw [hj, Json.get_sortKeys hkeys, hget]
  exact hread

end Field

/-- A written list is read as its elements are. -/
theorem read_list {read : Json K → Except Json.Fault α} {enc : α → Json K} {l : List α}
    (h : ∀ a ∈ l, read (enc a).sortKeys = .ok a) :
    listOf read (sortKeys (.arr (l.map enc))) = .ok l := by
  rw [Json.sortKeys_arr, List.map_map]
  exact Json.listOf_arr h

/-- A written map is read as its values are. -/
theorem read_map {read : Json K → Except Json.Fault α} {enc : α → Json K}
    {m : OrdMap.Map String α}
    (h : ∀ (key : String) (a : α), m[key]? = some a → read (enc a).sortKeys = .ok a) :
    mapItems read (sortKeys (ofMap enc m)) = .ok m := by
  rw [Json.sortKeys_ofMap]
  exact Json.mapItems_ofMap h

/-- A field that may be `None`. -/
theorem read_option {read : Json K → Except Json.Fault α} {enc : α → Json K} {o : Option α}
    (hnull : ∀ a, (enc a).sortKeys ≠ .null) (h : ∀ a, read (enc a).sortKeys = .ok a) :
    optionalField read (sortKeys (optionToJson enc o)) = .ok o := by
  rcases o with - | a
  · rfl
  · have hread : optionalField read (enc a).sortKeys = (read (enc a).sortKeys).map some := by
      unfold optionalField
      split
      · exact absurd ‹_› (hnull a)
      · rfl
    exact hread.trans (congrArg (Except.map some) (h a))

/-- `dict` of a written map copies it. -/
theorem dictField_ofMap (read : Json K → Except Json.Fault α) {β : Type} (enc : β → Json K)
    (m : OrdMap.Map String β) : dictField read (ofMap enc m) = mapItems read (ofMap enc m) := by
  have hnamed : (((m.toList.map fun e => (e.1, enc e.2)).map fun e => ((.str e.1 : Json K), e.2)).mapM
      fun e => do pure (← strField e.1, e.2) : Except Json.Fault _)
        = .ok (m.toList.map fun e => (e.1, enc e.2)) := by
    rw [Fallible.mapM_eq_ok, List.forall₂_map_left_iff, List.forall₂_same]
    intro e _
    rfl
  have hcopy : (.ofList (m.toList.map fun e => (e.1, enc e.2)) compare : OrdMap.Map String (Json K))
      = m.map fun _ b => enc b := by
    rw [← Json.ofList_toList (m.map fun _ b => enc b), Std.ExtTreeMap.toList_map]
  show ((((m.toList.map fun e => (e.1, enc e.2)).map fun e => ((.str e.1 : Json K), e.2)).mapM
      fun e => do pure (← strField e.1, e.2) : Except Json.Fault _) >>= fun named =>
        mapItems read (ofMap id (.ofList named compare))) = _
  rw [hnamed]
  show mapItems read (ofMap id (.ofList (m.toList.map fun e => (e.1, enc e.2)) compare)) = _
  rw [hcopy]
  unfold ofMap
  rw [Std.ExtTreeMap.toList_map, List.map_map]
  rfl

theorem read_dict {read : Json K → Except Json.Fault α} {enc : α → Json K}
    {m : OrdMap.Map String α}
    (h : ∀ (key : String) (a : α), m[key]? = some a → read (enc a).sortKeys = .ok a) :
    dictField read (sortKeys (ofMap enc m)) = .ok m := by
  rw [Json.sortKeys_ofMap, dictField_ofMap]
  exact Json.mapItems_ofMap h

/-! ### Records -/

/-- An error detail without structure. -/
def Primitive : Json K → Prop
  | .arr _ => False
  | .obj _ => False
  | _ => True

theorem sortKeys_of_primitive {j : Json K} (h : Primitive j) : j.sortKeys = j := by
  cases j <;> first | rfl | cases h

theorem ofList_toList_set (tags : TagSet) : .ofList tags.toList compare = tags := by
  apply Std.ExtTreeSet.ext_mem
  intro tag
  rw [Std.ExtTreeSet.mem_ofList, List.contains_iff_mem, Std.ExtTreeSet.mem_toList]

def ProperDomain (domain : Domain K) : Prop :=
  ∀ (p : Port) (iv : Interval K), domain.portBox[p]? = some iv → iv.Proper

/-- What the types promise of a solution. -/
structure WellFormed (solution : StoredSolution K) : Prop where
  value : solution.value.Proper
  realized : ∀ step ∈ solution.route.steps, ProperDomain step.realizedDomain
  declared : ∀ (solverId : SolverId) (domain : Domain K),
    solution.stepDeclaredDomain[solverId]? = some domain → ProperDomain domain
  detail : ∀ attempt ∈ solution.attempts, ∀ (field : String) (j : Json K),
    attempt.errorDetail[field]? = some j → Primitive j

variable (conv : Conversions K)

theorem intervalFromJson_written {iv : Interval K} (h : iv.Proper) :
    intervalFromJson conv (intervalToJson iv).sortKeys = .ok iv := by
  have hkeys : ["lo", "hi"].Nodup := by decide
  have hlo : item "lo" (intervalToJson iv).sortKeys = .ok (.float (.finite iv.lo)) :=
    item_written (v := .float (.finite iv.lo)) rfl hkeys rfl
  have hhi : item "hi" (intervalToJson iv).sortKeys = .ok (.float (.finite iv.hi)) :=
    item_written (v := .float (.finite iv.hi)) rfl hkeys rfl
  unfold intervalFromJson
  rw [hlo, hhi]
  show (Interval.new (.finite iv.lo) (.finite iv.hi)).mapError _ = _
  rw [Interval.new, if_neg (not_lt.mpr h)]
  rfl

theorem domainFromJson_written {domain : Domain K} (h : ProperDomain domain) :
    domainFromJson conv (domainToJson domain).sortKeys = .ok domain := by
  have hkeys : ["box", "tags"].Nodup := by decide
  have hbox : (item "box" (domainToJson domain).sortKeys >>= mapItems (intervalFromJson conv))
      = .ok domain.portBox :=
    read_item rfl hkeys rfl (read_map fun p iv hiv => intervalFromJson_written conv (h p iv hiv))
  have htags : (item "tags" (domainToJson domain).sortKeys >>= listOf tagArgument)
      = .ok domain.tags.toList :=
    read_item rfl hkeys rfl (read_list fun _ _ => rfl)
  unfold domainFromJson
  rw [hbox, htags]
  show Except.ok (⟨domain.portBox, .ofList domain.tags.toList compare⟩ : Domain K) = _
  rw [ofList_toList_set]

theorem routeStepFromJson_written {step : StoredStep K} (h : ProperDomain step.realizedDomain) :
    routeStepFromJson conv (routeStepToJson step).sortKeys = .ok step := by
  have hkeys : ["solver_id", "realized_domain", "predicted_eps", "cost"].Nodup := by decide
  have hsolver : (item "solver_id" (routeStepToJson step).sortKeys >>= strField)
      = .ok step.solverId :=
    read_item (v := .str step.solverId) rfl hkeys rfl rfl
  have hdomain : (item "realized_domain" (routeStepToJson step).sortKeys
      >>= domainFromJson conv) = .ok step.realizedDomain :=
    read_item rfl hkeys rfl (domainFromJson_written conv h)
  have heps : (item "predicted_eps" (routeStepToJson step).sortKeys >>= floatField conv)
      = .ok step.predictedEps :=
    read_item (v := .float step.predictedEps) rfl hkeys rfl rfl
  have hcost : (item "cost" (routeStepToJson step).sortKeys >>= floatField conv)
      = .ok step.cost :=
    read_item (v := .float step.cost) rfl hkeys rfl rfl
  unfold routeStepFromJson
  rw [hsolver, hdomain, heps, hcost]
  rfl

theorem routeFromJson_written {route : StoredRoute K}
    (h : ∀ step ∈ route.steps, ProperDomain step.realizedDomain) :
    routeFromJson conv (routeToJson route).sortKeys = .ok route := by
  have hkeys : ["target", "steps", "predicted_eps", "total_cost", "digest"].Nodup := by decide
  have htarget : (item "target" (routeToJson route).sortKeys >>= strField) = .ok route.target :=
    read_item (v := .str route.target) rfl hkeys rfl rfl
  have hsteps : (item "steps" (routeToJson route).sortKeys >>= listOf (routeStepFromJson conv))
      = .ok route.steps :=
    read_item rfl hkeys rfl
      (read_list fun step hstep => routeStepFromJson_written conv (h step hstep))
  have heps : (item "predicted_eps" (routeToJson route).sortKeys >>= floatField conv)
      = .ok route.predictedEps :=
    read_item (v := .float route.predictedEps) rfl hkeys rfl rfl
  have hcost : (item "total_cost" (routeToJson route).sortKeys >>= floatField conv)
      = .ok route.totalCost :=
    read_item (v := .float route.totalCost) rfl hkeys rfl rfl
  have hdigest : (item "digest" (routeToJson route).sortKeys >>= strField) = .ok route.digest :=
    read_item (v := .str route.digest) rfl hkeys rfl rfl
  unfold routeFromJson
  rw [htarget, hsteps, heps, hcost, hdigest]
  rfl

/-- Error details are read back as they are: nothing in them has keys to
sort. -/
theorem mappingField_written {detail : OrdMap.Map String (Json K)}
    (h : ∀ (field : String) (j : Json K), detail[field]? = some j → Primitive j) :
    mappingField (sortKeys (ofMap id detail)) = .ok detail := by
  have hsame : sortKeys (ofMap id detail) = .obj detail.toList := by
    rw [Json.sortKeys_ofMap]
    unfold ofMap
    apply congrArg Json.obj
    apply (List.map_congr_left ?_).trans (List.map_id _)
    intro e he
    exact Prod.ext rfl (sortKeys_of_primitive
      (h e.1 e.2 (Std.ExtTreeMap.mem_toList_iff_getElem?_eq_some.mp he)))
  rw [hsame]
  exact congrArg Except.ok (Json.ofList_toList detail)

theorem attemptFromJson_written {attempt : StoredAttempt K}
    (h : ∀ (field : String) (j : Json K), attempt.errorDetail[field]? = some j → Primitive j) :
    attemptFromJson (attemptToJson attempt).sortKeys = .ok attempt := by
  have hkeys : ["excluded", "route_digest", "failed_solver_id", "error_kind",
      "error_detail"].Nodup := by
    decide
  have hstr : ∀ s : String, sortKeys (.str s : Json K) ≠ .null := by
    intro s hs
    cases hs
  have hexcluded : (item "excluded" (attemptToJson attempt).sortKeys >>= listOf strField)
      = .ok attempt.excluded :=
    read_item rfl hkeys rfl (read_list fun _ _ => rfl)
  have hdigest : (item "route_digest" (attemptToJson attempt).sortKeys
      >>= optionalField strField) = .ok attempt.routeDigest :=
    read_item rfl hkeys rfl (read_option hstr fun _ => rfl)
  have hfailed : (item "failed_solver_id" (attemptToJson attempt).sortKeys
      >>= optionalField strField) = .ok attempt.failedSolverId :=
    read_item rfl hkeys rfl (read_option hstr fun _ => rfl)
  have hkind : (item "error_kind" (attemptToJson attempt).sortKeys >>= strField)
      = .ok attempt.errorKind :=
    read_item (v := .str attempt.errorKind) rfl hkeys rfl rfl
  have hdetail : (item "error_detail" (attemptToJson attempt).sortKeys >>= mappingField)
      = .ok attempt.errorDetail :=
    read_item rfl hkeys rfl (mappingField_written h)
  unfold attemptFromJson
  rw [hexcluded, hdigest, hfailed, hkind, hdetail]
  rfl

theorem citationFromJson_written (citation : Citation) :
    citationFromJson (citationToJson citation : Json K).sortKeys = .ok citation := by
  have hkeys : ["kind", "ref", "note"].Nodup := by decide
  have hname : citationKindField (.str (citationKindName citation.kind) : Json K)
      = .ok citation.kind := by
    cases citation.kind <;> rfl
  have hkind : (item "kind" (citationToJson citation : Json K).sortKeys >>= citationKindField)
      = .ok citation.kind :=
    read_item (v := .str (citationKindName citation.kind)) rfl hkeys rfl hname
  have href : (item "ref" (citationToJson citation : Json K).sortKeys >>= strField)
      = .ok citation.ref :=
    read_item (v := .str citation.ref) rfl hkeys rfl rfl
  have hnote : (item "note" (citationToJson citation : Json K).sortKeys >>= strField)
      = .ok citation.note :=
    read_item (v := .str citation.note) rfl hkeys rfl rfl
  unfold citationFromJson
  rw [hkind, href, hnote]
  rfl

/-! ### Solutions -/

/-- What JSON keeps of a solution. -/
def StoredSolution.reloaded (solution : StoredSolution K) : StoredSolution K :=
  { solution with stepAlgebraicForm := ∅, stepAdmissionPredicate := ∅ }

variable {solution : StoredSolution K}

theorem solutionFromJsonable_written (h : WellFormed solution) :
    solutionFromJsonable conv (solutionToJsonable solution).sortKeys = .ok solution.reloaded := by
  have hkeys : ["target", "value", "eps", "route", "settings_digest", "solver_versions",
      "attempts", "cache_hit", "step_eps", "step_citations", "step_declared_domain",
      "eps_budget"].Nodup := by
    decide
  have hfloat : ∀ x : JsonFloat K, sortKeys (.float x) ≠ .null := by
    intro x hx
    cases hx
  -- one fact a field, in the order in which the codec reads them
  have htarget : (item "target" (solutionToJsonable solution).sortKeys >>= strField)
      = .ok solution.target :=
    read_item (v := .str solution.target) rfl hkeys rfl rfl
  have hvalue : (item "value" (solutionToJsonable solution).sortKeys >>= intervalFromJson conv)
      = .ok solution.value :=
    read_item rfl hkeys rfl (intervalFromJson_written conv h.value)
  have heps : (item "eps" (solutionToJsonable solution).sortKeys >>= floatField conv)
      = .ok solution.eps :=
    read_item (v := .float solution.eps) rfl hkeys rfl rfl
  have hroute : (item "route" (solutionToJsonable solution).sortKeys >>= routeFromJson conv)
      = .ok solution.route :=
    read_item rfl hkeys rfl (routeFromJson_written conv h.realized)
  have hsettings : (item "settings_digest" (solutionToJsonable solution).sortKeys >>= strField)
      = .ok solution.settingsDigest :=
    read_item (v := .str solution.settingsDigest) rfl hkeys rfl rfl
  have hversions : (item "solver_versions" (solutionToJsonable solution).sortKeys
      >>= dictField strField) = .ok solution.solverVersions :=
    read_item rfl hkeys rfl (read_dict fun _ _ _ => rfl)
  have hattempts : (item "attempts" (solutionToJsonable solution).sortKeys
      >>= listOf attemptFromJson) = .ok solution.attempts :=
    read_item rfl hkeys rfl
      (read_list fun attempt hattempt => attemptFromJson_written (h.detail attempt hattempt))
  have hhit : (item "cache_hit" (solutionToJsonable solution).sortKeys >>= boolField)
      = .ok solution.cacheHit :=
    read_item (v := .bool solution.cacheHit) rfl hkeys rfl rfl
  have hstepEps : getOr "step_eps" ∅ (dictField (floatField conv))
      (solutionToJsonable solution).sortKeys = .ok solution.stepEps :=
    read_getOr rfl hkeys rfl (read_dict fun _ _ _ => rfl)
  have hcitations : getOr "step_citations" ∅ (mapItems (listOf citationFromJson))
      (solutionToJsonable solution).sortKeys = .ok solution.stepCitations :=
    read_getOr rfl hkeys rfl
      (read_map fun _ _ _ => read_list fun citation _ => citationFromJson_written citation)
  have hdeclared : getOr "step_declared_domain" ∅ (mapItems (domainFromJson conv))
      (solutionToJsonable solution).sortKeys = .ok solution.stepDeclaredDomain :=
    read_getOr rfl hkeys rfl
      (read_map fun id domain hdomain => domainFromJson_written conv (h.declared id domain hdomain))
  have hbudget : getOr "eps_budget" none (optionalField (floatField conv))
      (solutionToJsonable solution).sortKeys = .ok solution.epsBudget :=
    read_getOr rfl hkeys rfl (read_option hfloat fun _ => rfl)
  unfold solutionFromJsonable
  rw [htarget, hvalue, heps, hroute, hsettings, hversions, hattempts, hhit, hstepEps, hcitations,
    hdeclared, hbudget]
  rfl

/-- What is read carries no symbolic provenance, whatever was written. -/
theorem provenance_of_decoded {conv : Conversions K} {j : Json K}
    (h : solutionFromJsonable conv j = .ok solution) :
    solution.stepAlgebraicForm = ∅ ∧ solution.stepAdmissionPredicate = ∅ := by
  iterate 12 obtain ⟨_, -, h⟩ := Fallible.bind_eq_ok.mp h
  obtain rfl := Except.ok.inj h
  exact ⟨rfl, rfl⟩

theorem StoredSolution.reloaded_eq_self_iff : solution.reloaded = solution ↔
    solution.stepAlgebraicForm = ∅ ∧ solution.stepAdmissionPredicate = ∅ := by
  constructor
  · intro h
    exact ⟨(congrArg StoredSolution.stepAlgebraicForm h).symm,
      (congrArg StoredSolution.stepAdmissionPredicate h).symm⟩
  · rintro ⟨hform, hpredicate⟩
    cases solution
    unfold StoredSolution.reloaded
    congr 1
    · exact hform.symm
    · exact hpredicate.symm

/-! ### Reports of cached solutions -/

open Report

/-- What a hit gives of a solution that was put: `put` clears the flag, and `get`
sets it. -/
def cached (solution : StoredSolution K) : Except Json.Fault (StoredSolution K) :=
  (solutionFromJsonable conv (solutionToJsonable { solution with cacheHit := false }).sortKeys).map
    fun hit => { hit with cacheHit := true }

/-- A solution comes back from JSON as it was, and a hit on it has the report
of the fresh one, up to the flag. -/
structure Preserved (solution : StoredSolution K) : Prop where
  decoded : solutionFromJsonable conv (solutionToJsonable solution).sortKeys = .ok solution
  report : ∃ hit, cached conv solution = .ok hit ∧
    renderToDict hit = renderToDict { solution with cacheHit := true } ∧
    ∀ formatF64 quote, renderExplain formatF64 quote hit
      = renderExplain formatF64 quote { solution with cacheHit := true }

variable {conv}

theorem cached_eq (h : WellFormed solution) :
    cached conv solution = .ok { solution.reloaded with cacheHit := true } := by
  have hwell : WellFormed { solution with cacheHit := false } :=
    ⟨h.value, h.realized, h.declared, h.detail⟩
  unfold cached
  rw [solutionFromJsonable_written conv hwell]
  rfl

theorem preserved_iff_reloaded (h : WellFormed solution) :
    Preserved conv solution ↔ solution.reloaded = solution := by
  constructor
  · intro hp
    have hdecoded := hp.decoded
    rw [solutionFromJsonable_written conv h] at hdecoded
    exact Except.ok.inj hdecoded
  · intro hsame
    refine ⟨?_, { solution with cacheHit := true }, ?_, rfl, fun _ _ => rfl⟩
    · rw [solutionFromJsonable_written conv h, hsame]
    · rw [cached_eq h, hsame]

/-- **A cached solution**: it is the stored one, with its report, exactly when
the stored one carries no symbolic provenance. -/
theorem preserved_iff (h : WellFormed solution) : Preserved conv solution ↔
    solution.stepAlgebraicForm = ∅ ∧ solution.stepAdmissionPredicate = ∅ :=
  (preserved_iff_reloaded h).trans StoredSolution.reloaded_eq_self_iff

/-- A step of the route carries no symbolic provenance. -/
def Plain (solution : StoredSolution K) (step : StoredStep K) : Prop :=
  solution.stepAlgebraicForm[step.solverId]? = none ∧
    solution.stepAdmissionPredicate[step.solverId]? = none

theorem optionToJson_str_eq_null {o : Option String} :
    (.null : Json K) = optionToJson .str o ↔ o = none := by
  cases o <;> simp [optionToJson]

theorem toDict_eq_iff (step : StoredStep K) :
    (stepRecord { solution.reloaded with cacheHit := true } step).toDict
        = (stepRecord { solution with cacheHit := true } step).toDict ↔ Plain solution step := by
  have hsame : stepRecord { solution.reloaded with cacheHit := true } step
      = { stepRecord { solution with cacheHit := true } step with
          algebraicForm := none, admissionPredicate := none } := rfl
  rw [hsame]
  unfold StepRecord.toDict Plain
  simp only [Json.obj.injEq, List.cons.injEq, Prod.mk.injEq, true_and, and_true]
  exact and_congr optionToJson_str_eq_null optionToJson_str_eq_null

/-- The report of a hit is the fresh one, up to the flag, exactly when no step
of the route carries symbolic provenance. -/
theorem cached_report_iff (h : WellFormed solution) :
    (∃ hit, cached conv solution = .ok hit ∧
      renderToDict hit = renderToDict { solution with cacheHit := true })
    ↔ ∀ step ∈ solution.route.steps, Plain solution step := by
  have hsteps : renderToDict { solution.reloaded with cacheHit := true }
        = renderToDict { solution with cacheHit := true }
      ↔ solution.route.steps.map (fun step =>
          (stepRecord { solution.reloaded with cacheHit := true } step).toDict)
        = solution.route.steps.map (fun step =>
          (stepRecord { solution with cacheHit := true } step).toDict) := by
    unfold renderToDict stepRecords StoredSolution.reloaded
    simp only [Json.obj.injEq, Json.arr.injEq, List.cons.injEq, Prod.mk.injEq, true_and, and_true,
      List.map_map]
    exact ⟨fun h => h.2.2, fun h => ⟨rfl, rfl, h⟩⟩
  rw [List.map_inj_left] at hsteps
  rw [cached_eq h, ← forall₂_congr fun step _ => toDict_eq_iff step, ← hsteps]
  constructor
  · rintro ⟨hit, heq, hreport⟩
    obtain rfl := Except.ok.inj heq
    exact hreport
  · exact fun hreport => ⟨_, rfl, hreport⟩

/-! ### The executor's solutions -/

section Executed

variable {Env D : Type} [CanonicalDigest K D] [DecidableEq D]

theorem insertSome_eq_empty {d : OrdMap.Map SolverId α} {key : SolverId} {o : Option α} :
    ExecState.insertSome d key o = ∅ ↔ d = ∅ ∧ o = none := by
  rcases o with - | a
  · exact (and_iff_left rfl).symm
  · apply iff_of_false
    · exact Std.ExtTreeMap.insert_ne_empty
    · rintro ⟨-, h⟩
      cases h

/-- No solver of these steps has the field. -/
def NoneHas (reg : SolverRegistry K Env) (field : SolverInfo K → Option String)
    (steps : List (RouteStep K)) : Prop :=
  ∀ step ∈ steps, ∀ info fn, reg.solvers[step.solverId]? = some (info, fn) → field info = none

theorem noneHas_snoc {reg : SolverRegistry K Env} {field : SolverInfo K → Option String}
    {steps : List (RouteStep K)} {step : RouteStep K} {info : SolverInfo K} {fn : SolveFn K Env}
    (hreg : reg.solvers[step.solverId]? = some (info, fn)) :
    NoneHas reg field (steps ++ [step]) ↔ NoneHas reg field steps ∧ field info = none := by
  unfold NoneHas
  rw [List.forall_mem_append]
  apply and_congr Iff.rfl
  rw [List.forall_mem_singleton]
  constructor
  · exact fun h => h info fn hreg
  · intro h info' fn' hreg'
    rw [hreg] at hreg'
    cases hreg'
    exact h

/-- What the walk records of the solvers of its first `i` steps. -/
structure Recorded (reg : SolverRegistry K Env) (rq : ExecRequest K Env) (i : ℕ)
    (st : ExecState K) : Prop where
  declared : ∀ (solverId : SolverId) (domain : Domain K),
    st.stepDeclaredDomain[solverId]? = some domain →
      ∃ info fn, reg.solvers[solverId]? = some (info, fn) ∧ info.domain = domain
  algebraicForm : st.stepAlgebraicForm = ∅ ↔
    NoneHas reg SolverInfo.algebraicForm (rq.route.steps.take i)
  admissionPredicate : st.stepAdmissionPredicate = ∅ ↔
    NoneHas reg SolverInfo.admissionPredicate (rq.route.steps.take i)

variable {reg : SolverRegistry K Env} {rq : ExecRequest K Env}
variable {stepCache₀ : Option (StepStore K Env D)}

theorem recorded_of_walks {i : ℕ} {st : ExecState K} {stepCache : Option (StepStore K Env D)}
    (h : Walks reg rq stepCache₀ i st stepCache) : Recorded reg rq i st := by
  apply h.invariant (I := fun i st _ => Recorded reg rq i st)
  · refine ⟨fun solverId domain hd => ?_, ?_, ?_⟩
    · rw [ExecState.init, Std.ExtTreeMap.getElem?_empty] at hd
      cases hd
    all_goals
      apply iff_of_true rfl
      intro step hstep
      cases hstep
  · intro i step st stepCache c entry st' stepCache' hstep hc ih
    have hreg := (bindStep_ok hc.bind).registered
    have htake : rq.route.steps.take (i + 1) = rq.route.steps.take i ++ [step] := by
      rw [List.take_add_one, hstep]
      rfl
    rw [hc.state]
    refine ⟨fun solverId domain hd => ?_, ?_, ?_⟩
    · rw [ExecState.record, Std.ExtTreeMap.getElem?_insert] at hd
      split at hd
      · rename_i heq
        rw [Std.LawfulEqOrd.compare_eq_iff_eq] at heq
        exact ⟨c.info, c.fn, heq ▸ hreg, Option.some.inj hd⟩
      · exact ih.declared solverId domain hd
    · rw [htake, noneHas_snoc hreg, ← ih.algebraicForm]
      exact insertSome_eq_empty
    · rw [htake, noneHas_snoc hreg, ← ih.admissionPredicate]
      exact insertSome_eq_empty

section Stored

variable (hex : D → String) (detail : Detail K → Json K)

def storedStep (step : RouteStep K) : StoredStep K where
  solverId := step.solverId
  realizedDomain := step.realizedDomain
  predictedEps := .finite step.predictedEps
  cost := .finite step.cost

def storedRoute (route : Route K) : StoredRoute K where
  target := route.target
  steps := route.steps.map storedStep
  predictedEps := .finite route.predictedEps
  totalCost := .finite route.totalCost
  digest := hex (routeDigest route)

def storedAttempt (attempt : AttemptRecord K D) : StoredAttempt K where
  excluded := attempt.excluded
  routeDigest := attempt.routeDigest.map hex
  failedSolverId := attempt.failedSolverId
  errorKind := attempt.errorKind
  errorDetail := .ofList (attempt.errorDetail.map fun e => (e.1, detail e.2)) compare

/-- The solution as Python holds it: `hex` is how a digest is written, and
`detail` what becomes of an error detail. -/
def stored (solution : Solution K D) : StoredSolution K where
  target := solution.target
  value := solution.value
  eps := .finite solution.eps
  route := storedRoute hex solution.route
  settingsDigest := hex solution.settingsDigest
  solverVersions := solution.solverVersions
  attempts := solution.attempts.map (storedAttempt hex detail)
  cacheHit := solution.cacheHit
  stepEps := solution.stepEps.map fun _ eps => .finite eps
  stepCitations := solution.stepCitations
  stepDeclaredDomain := solution.stepDeclaredDomain
  stepAlgebraicForm := solution.stepAlgebraicForm
  stepAdmissionPredicate := solution.stepAdmissionPredicate
  epsBudget := solution.epsBudget.map .finite

variable {hex detail}

theorem exists_of_getElem?_ofList {β : Type} {l : List (String × β)} {key : String} {b : β}
    (h : (.ofList l compare : OrdMap.Map String β)[key]? = some b) : ∃ e ∈ l, e.2 = b := by
  rw [Std.ExtTreeMap.ofList_eq_insertMany_empty, Std.ExtTreeMap.getElem?_insertMany_list,
    Std.ExtTreeMap.getElem?_empty, Option.or_none, List.findSomeRev?_eq_findSome?_reverse] at h
  obtain ⟨⟨key', b'⟩, he, hb⟩ := List.exists_of_findSome?_eq_some h
  simp only [Option.ite_none_right_eq_some, Option.some.injEq] at hb
  exact ⟨(key', b'), List.mem_reverse.mp he, hb.2⟩

/-- The bounds of a registry's declared domains, of a route and of a caller's
intervals are in order: `Interval` checks them. -/
structure Ordered (reg : SolverRegistry K Env) (rq : ExecRequest K Env) : Prop where
  declared : ∀ (solverId : SolverId) (info : SolverInfo K) (fn : SolveFn K Env),
    reg.solvers[solverId]? = some (info, fn) → ProperDomain info.domain
  realized : ∀ step ∈ rq.route.steps, ProperDomain step.realizedDomain
  known : ∀ (p : Port) (iv : Interval K), rq.known[p]? = some iv → iv.Proper

variable [IsStrictOrderedRing K]

/-- What the executor returns is well formed, also with a trail of attempts and
a budget, which `solve` adds. -/
theorem wellFormed_stored (hcache : CacheSound reg stepCache₀) (hordered : Ordered reg rq)
    (hdetail : ∀ d, Primitive (detail d)) {solution : Solution K D}
    (h : (executeWithAttribution reg rq stepCache₀).1 = .ok solution)
    (attempts : List (AttemptRecord K D)) (epsBudget : Option K) :
    WellFormed (stored hex detail { solution with attempts, epsBudget }) := by
  obtain ⟨st, hw, hsol⟩ := execute_ok (Prod.ext h rfl)
  obtain ⟨value, hvalue, hsol⟩ := Fallible.bind_eq_ok.mp hsol
  obtain ⟨digest, -, hsol⟩ := Fallible.bind_eq_ok.mp hsol
  obtain rfl := Except.ok.inj hsol
  refine ⟨?_, ?_, ?_, ?_⟩
  · exact (hw.properState hcache hordered.known).proper _ _ (index_eq_ok.mp hvalue)
  · intro step hstep
    obtain ⟨step', hstep', rfl⟩ := List.mem_map.mp hstep
    exact hordered.realized step' hstep'
  · intro solverId domain hdomain
    obtain ⟨info, fn, hreg, rfl⟩ := (recorded_of_walks hw).declared solverId domain hdomain
    exact hordered.declared solverId info fn hreg
  · intro attempt hattempt field j hj
    obtain ⟨attempt', -, rfl⟩ := List.mem_map.mp hattempt
    obtain ⟨e, he, rfl⟩ := exists_of_getElem?_ofList hj
    obtain ⟨e', -, rfl⟩ := List.mem_map.mp he
    exact hdetail e'.2

/-- What is stored of a solution comes back, and renders the same report,
exactly when its route applies no solver with symbolic provenance. -/
theorem execute_preserved_iff (hcache : CacheSound reg stepCache₀) (hordered : Ordered reg rq)
    (hdetail : ∀ d, Primitive (detail d)) {solution : Solution K D}
    (h : (executeWithAttribution reg rq stepCache₀).1 = .ok solution)
    (attempts : List (AttemptRecord K D)) (epsBudget : Option K) :
    Preserved conv (stored hex detail { solution with attempts, epsBudget }) ↔
      NoneHas reg SolverInfo.algebraicForm rq.route.steps ∧
        NoneHas reg SolverInfo.admissionPredicate rq.route.steps := by
  rw [preserved_iff_reloaded (wellFormed_stored hcache hordered hdetail h attempts epsBudget),
    StoredSolution.reloaded_eq_self_iff]
  obtain ⟨st, hw, hsol⟩ := execute_ok (Prod.ext h rfl)
  obtain ⟨value, -, hsol⟩ := Fallible.bind_eq_ok.mp hsol
  obtain ⟨digest, -, hsol⟩ := Fallible.bind_eq_ok.mp hsol
  obtain rfl := Except.ok.inj hsol
  have hrecorded := recorded_of_walks hw
  have hform := hrecorded.algebraicForm
  have hpredicate := hrecorded.admissionPredicate
  rw [List.take_length] at hform hpredicate
  exact and_congr hform hpredicate

/-- The file that `SolveStore.put` writes is the one a hit reads. -/
theorem cached_stored {solution : Solution K D} (h : WellFormed (stored hex detail solution)) :
    cached conv (stored hex detail solution)
      = .ok (stored hex detail { solution.reloaded with cacheHit := true }) :=
  cached_eq h

end Stored

end Executed

/-! ### Two solutions -/

/-- `y = x`, as a law writes it or by hand. -/
def copyRegistry (algebraicForm : Option String) : SolverRegistry ℚ Unit :=
  ((SolverRegistry.build []
    [({ plainInfo (plainSolver "copy" ["x"] [("y", 0)] 1 .both) with algebraicForm },
      offsetFn "x" "y" 0)]).toOption).getD SolverRegistry.empty

def copyRequest : ExecRequest ℚ Unit where
  route := ⟨"y", [strayStep "copy"], 0, 1⟩
  known := OrdMap.ofFn ["x"] fun _ => Interval.point 0
  payloads := ∅
  epsBudget := none
  env _ := ()

def copySolution (algebraicForm : Option String) : Option (Solution ℚ (SymDigest ℚ)) :=
  (executeWithAttribution (copyRegistry algebraicForm) copyRequest none).1.toOption

/-- Whole numbers are floats, and no text is a number. -/
def exactConversions : Conversions ℚ := ⟨fun n => some n, fun _ => none⟩

/-- The solution as it is stored; its digests do not matter. -/
def copyStored (solution : Solution ℚ (SymDigest ℚ)) : StoredSolution ℚ :=
  stored (fun _ => "digest") (fun _ => .null) solution

theorem copy_ordered : Ordered (copyRegistry none) copyRequest := by
  have hempty : ∀ e ∈ (copyRegistry none).entries, e.1.domain.portBox = ∅ := by decide +kernel
  refine ⟨?_, ?_, ?_⟩
  · intro solverId info fn hreg p iv hiv
    rw [hempty (info, fn) (SolverRegistry.mem_entries.mpr
      ((copyRegistry none).key_eq _ _ _ hreg ▸ hreg)), Std.ExtTreeMap.getElem?_empty] at hiv
    cases hiv
  · intro step hstep p iv hiv
    obtain rfl := List.mem_singleton.mp hstep
    rw [strayStep, Std.ExtTreeMap.getElem?_empty] at hiv
    cases hiv
  · intro p iv hiv
    obtain ⟨-, rfl⟩ := OrdMap.getElem?_ofFn_eq_some.mp hiv
    exact le_rfl

/-- The direction that was written by hand comes back. -/
theorem preserved_iff_copy : ∃ solution, copySolution none = some solution ∧
    Preserved exactConversions (copyStored solution) := by
  obtain ⟨solution, hsolution⟩ := Option.isSome_iff_exists.mp
    (show (copySolution none).isSome by decide +kernel)
  have hplain : (copySolution none).map (fun solution =>
      (solution.stepAlgebraicForm.toList, solution.stepAdmissionPredicate.toList))
        = some ([], []) := by
    decide +kernel
  have hnull : ∀ _ : Detail ℚ, Primitive (.null : Json ℚ) := fun _ => trivial
  have hwell : WellFormed (copyStored solution) :=
    wellFormed_stored cacheSound_none copy_ordered hnull
      (Fallible.eq_ok_of_toOption hsolution) solution.attempts solution.epsBudget
  rw [hsolution] at hplain
  obtain ⟨hform, hpredicate⟩ := Prod.mk.inj (Option.some.inj hplain)
  refine ⟨solution, hsolution, (preserved_iff hwell).mpr ⟨?_, ?_⟩⟩
  · exact Std.ExtTreeMap.toList_eq_nil_iff.mp hform
  · exact Std.ExtTreeMap.toList_eq_nil_iff.mp hpredicate

/-- The one that a law wrote does not: its form is gone. -/
theorem not_preserved_law : ∃ solution, copySolution (some "y = x") = some solution ∧
    ¬ Preserved exactConversions (copyStored solution) := by
  obtain ⟨solution, hsolution⟩ := Option.isSome_iff_exists.mp
    (show (copySolution (some "y = x")).isSome by decide +kernel)
  have hform : (copySolution (some "y = x")).map (fun solution =>
      solution.stepAlgebraicForm.toList) = some [("copy", "y = x")] := by
    decide +kernel
  rw [hsolution] at hform
  refine ⟨solution, hsolution, fun hpreserved => ?_⟩
  have hempty : solution.stepAlgebraicForm = ∅ := (provenance_of_decoded hpreserved.decoded).1
  rw [Option.map_some, hempty] at hform
  cases hform

end Codec

end Feldspar

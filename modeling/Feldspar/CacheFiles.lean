/-
Feldspar/CacheFiles.lean

Reading a cache file whose content may be anything (`_load_cache_json`,
`SolveCache.get` and `PayloadStepCache.get` of `cache.py`).

Only the reading and the JSON parse are guarded: bytes that are no text, what
`json.loads` raises besides its own error, and a value that does not decode all
go through to the caller.  The shapes say which values decode, one for each
record (`…Shape`), and `gets_succeed_iff` which contents either cache survives.

`json.loads` is a parameter.
-/
import Feldspar.CodecRoundTrip

set_option linter.unusedSectionVars false

namespace Feldspar

open Codec
open Json (Has HasOr Items Each)

variable {K : Type} [Field K] [LinearOrder K] {Env : Type}

/-! ### Files -/

/-- What is under a key. -/
inductive CacheFile
  | missing
  /-- opening or reading it is an `OSError` -/
  | unreadable
  | bytes (b : ByteArray)

/-- What `json.loads` raises: its own error, or another one (the nesting is too
deep, an integer has too many digits). -/
inductive LoadsError
  | jsonDecodeError
  | other
  deriving DecidableEq, Repr

/-- What `get` may raise. -/
inductive CacheFault
  | unicodeDecodeError
  | loads
  | decode (e : Json.Fault)
  deriving DecidableEq, Repr

section Get

variable (loads : String → Except LoadsError (Json K)) (conv : Conversions K)

/-- `_load_cache_json`; `None` is the value that `null` is parsed to. -/
def loadCacheJson : CacheFile → Except CacheFault (Json K)
  | .missing => .ok .null
  | .unreadable => .ok .null
  | .bytes b =>
      match String.fromUTF8? b with
      | none => .error .unicodeDecodeError
      | some text =>
          match loads text with
          | .error .jsonDecodeError => .ok .null
          | .error .other => .error .loads
          | .ok data => .ok data

def SolveCache.get (reg : SolverRegistry K Env) (route : Route K) (env : Env) :
    CacheFile → Except CacheFault (Option (StoredSolution K))
  | .missing => .ok none
  | file => do
      match ← loadCacheJson loads file with
      | .null => pure none
      | data =>
          let solution ← (solutionFromJsonable conv data).mapError .decode
          let excluded := (solution.attempts.getLast?.map StoredAttempt.excluded).getD []
          if toolsStillConsistent reg route excluded env then
            pure (some { solution with cacheHit := true })
          else pure none

/-- The tools are probed before the file is read. -/
def PayloadStepCache.get (fn : SolveFn K Env) (env : Env) :
    CacheFile → Except CacheFault (Option (StoredEntry K))
  | .missing => .ok none
  | file =>
      if fn.toolsPresent env then do
        match ← loadCacheJson loads file with
        | .null => pure none
        | data => do
            let entry ← (stepEntryFromJson conv data).mapError .decode
            pure (some entry)
      else .ok none

end Get

/-! ### Shapes -/

section Shapes

variable (conv : Conversions K)

def IsStr : Json K → Prop
  | .str _ => True
  | _ => False

/-- The number `x`, as an `f64` argument takes one. -/
def IsNumber (x : K) : Json K → Prop
  | .float y => y = .finite x
  | .int n => conv.floatOfInt n = some x
  | .bool b => x = if b then 1 else 0
  | _ => False

def IsFloat : Json K → Prop
  | .float _ => True
  | .int n => (conv.floatOfInt n).isSome
  | .bool _ => True
  | .str s => (conv.floatOfText s).isSome
  | _ => False

def IsBool : Json K → Prop
  | .bool _ => True
  | .int n => n = 1 ∨ n = 0
  | .float (.finite x) => x = 1 ∨ x = 0
  | .str s => (boolOfText s).isSome
  | _ => False

def NullOr (P : Json K → Prop) : Json K → Prop
  | .null => True
  | j => P j

def IsObj : Json K → Prop
  | .obj _ => True
  | _ => False

/-- An object, or pairs with a text for a key; the last value of a key counts. -/
def DictOf (P : Json K → Prop) (j : Json K) : Prop :=
  ∃ named : List (String × Json K),
    Json.dict j = .ok (named.map fun e => (.str e.1, e.2)) ∧
    ∀ (key : String) (v : Json K), (.ofList named compare : OrdMap.Map _ _)[key]? = some v → P v

def IntervalShape (j : Json K) : Prop :=
  ∃ lo hi : K, Has "lo" (IsNumber conv lo) j ∧ Has "hi" (IsNumber conv hi) j ∧ lo ≤ hi

def DomainShape (j : Json K) : Prop :=
  Has "box" (Items (IntervalShape conv)) j ∧ Has "tags" (Each IsStr) j

def RouteStepShape (j : Json K) : Prop :=
  Has "solver_id" IsStr j ∧ Has "realized_domain" (DomainShape conv) j ∧
    Has "predicted_eps" (IsFloat conv) j ∧ Has "cost" (IsFloat conv) j

def RouteShape (j : Json K) : Prop :=
  Has "target" IsStr j ∧ Has "steps" (Each (RouteStepShape conv)) j ∧
    Has "predicted_eps" (IsFloat conv) j ∧ Has "total_cost" (IsFloat conv) j ∧
    Has "digest" IsStr j

def AttemptShape (j : Json K) : Prop :=
  Has "excluded" (Each IsStr) j ∧ Has "route_digest" (NullOr IsStr) j ∧
    Has "failed_solver_id" (NullOr IsStr) j ∧ Has "error_kind" IsStr j ∧
    Has "error_detail" IsObj j

def CitationShape (j : Json K) : Prop :=
  Has "kind" (fun v => ∃ kind, v = .str (citationKindName kind)) j ∧ Has "ref" IsStr j ∧
    Has "note" IsStr j

def SolutionShape (j : Json K) : Prop :=
  Has "target" IsStr j ∧ Has "value" (IntervalShape conv) j ∧ Has "eps" (IsFloat conv) j ∧
    Has "route" (RouteShape conv) j ∧ Has "settings_digest" IsStr j ∧
    Has "solver_versions" (DictOf IsStr) j ∧ Has "attempts" (Each AttemptShape) j ∧
    Has "cache_hit" IsBool j ∧ HasOr "step_eps" (DictOf (IsFloat conv)) j ∧
    HasOr "step_citations" (Items (Each CitationShape)) j ∧
    HasOr "step_declared_domain" (Items (DomainShape conv)) j ∧
    HasOr "eps_budget" (NullOr (IsFloat conv)) j

def PayloadRefShape (j : Json K) : Prop :=
  Has "kind" (fun v => ∃ kind ∈ payloadKinds, v = .str kind) j ∧ Has "digest" IsStr j ∧
    HasOr "origin" IsStr j

def StepEntryShape (j : Json K) : Prop :=
  Has "hull" (Items (IntervalShape conv)) j ∧ Has "payloads" (Items PayloadRefShape) j ∧
    Has "step_eps" (fun _ => True) j

end Shapes

/-! ### What decodes -/

section Fields

theorem strField_eq_ok {j : Json K} {s : String} : strField j = .ok s ↔ j = .str s := by
  cases j <;> simp [strField]

theorem succeeds_strField (j : Json K) : Fallible.Succeeds (strField j) ↔ IsStr j := by
  cases j
  case str s => exact iff_of_true ⟨s, rfl⟩ trivial
  all_goals exact iff_of_false (Fallible.not_succeeds_error _) id

theorem succeeds_tagArgument (j : Json K) : Fallible.Succeeds (tagArgument j) ↔ IsStr j := by
  cases j
  case str s => exact iff_of_true ⟨s, rfl⟩ trivial
  all_goals exact iff_of_false (Fallible.not_succeeds_error _) id

theorem succeeds_mappingField (j : Json K) : Fallible.Succeeds (mappingField j) ↔ IsObj j := by
  cases j
  case obj members => exact iff_of_true ⟨_, rfl⟩ trivial
  all_goals exact iff_of_false (Fallible.not_succeeds_error _) id

theorem succeeds_ite {α : Type} {p : Prop} [Decidable p] {x : Except Json.Fault α}
    {e : Json.Fault} :
    Fallible.Succeeds (if p then x else .error e) ↔ p ∧ Fallible.Succeeds x := by
  split
  · exact (and_iff_right ‹_›).symm
  · exact iff_of_false (Fallible.not_succeeds_error e) fun h => absurd h.1 ‹_›

/-- A conversion that may fail. -/
theorem succeeds_convert {α β : Type} {o : Option α} {f : α → β} {e : Json.Fault} :
    Fallible.Succeeds ((o.map fun a => .ok (f a)).getD (.error e)) ↔ o.isSome = true := by
  rcases o with - | a
  · exact iff_of_false (Fallible.not_succeeds_error e) Bool.false_ne_true
  · exact iff_of_true ⟨f a, rfl⟩ rfl

theorem succeeds_boolField (j : Json K) : Fallible.Succeeds (boolField j) ↔ IsBool j := by
  have hzeroOne : ∀ p q : Prop, ∀ [Decidable p] [Decidable q],
      Fallible.Succeeds (if p then .ok true else if q then .ok false else .error .valueError :
        Except Json.Fault Bool) ↔ p ∨ q := by
    intro p q _ _
    split
    · exact iff_of_true ⟨true, rfl⟩ (Or.inl ‹_›)
    · rw [succeeds_ite, or_iff_right ‹_›]
      exact and_iff_left ⟨false, rfl⟩
  rcases j with _ | b | n | x | s | _ | _
  case bool => exact iff_of_true ⟨b, rfl⟩ trivial
  case int => exact hzeroOne _ _
  case float =>
    cases x
    case finite => exact hzeroOne _ _
    all_goals exact iff_of_false (Fallible.not_succeeds_error _) id
  case str => exact succeeds_convert
  all_goals exact iff_of_false (Fallible.not_succeeds_error _) id

theorem succeeds_optionalField {α : Type} {read : Json K → Except Json.Fault α} {P : Json K → Prop}
    (h : ∀ v, Fallible.Succeeds (read v) ↔ P v) (j : Json K) :
    Fallible.Succeeds (optionalField read j) ↔ NullOr P j := by
  cases j
  case null => exact iff_of_true ⟨none, rfl⟩ trivial
  all_goals exact Fallible.succeeds_map.trans (h _)

theorem succeeds_getOr {α : Type} {key : String} {default : α} {read : Json K → Except Json.Fault α}
    {P : Json K → Prop} (h : ∀ v, Fallible.Succeeds (read v) ↔ P v) (j : Json K) :
    Fallible.Succeeds (getOr key default read j) ↔ HasOr key P j := by
  rcases j with _ | _ | _ | _ | _ | _ | members
  case obj =>
    rcases hget : members.lookup key with - | v
    · have hread : Json.get key (.obj members) = .ok none := congrArg Except.ok hget
      rw [getOr, hread]
      apply iff_of_true (Fallible.succeeds_pure default)
      refine ⟨members, rfl, fun v hv => ?_⟩
      cases hget.symm.trans hv
    · have hread : Json.get key (.obj members) = .ok (some v) := congrArg Except.ok hget
      rw [getOr, hread]
      apply (h v).trans
      constructor
      · intro hP
        refine ⟨members, rfl, fun v' hv => ?_⟩
        cases hget.symm.trans hv
        exact hP
      · rintro ⟨members', heq, hP⟩
        cases heq
        exact hP v hget
  all_goals
    apply iff_of_false (Fallible.not_succeeds_error _)
    rintro ⟨members, heq, -⟩
    cases heq

theorem succeeds_citationKindField (j : Json K) :
    Fallible.Succeeds (citationKindField j) ↔ ∃ kind, j = .str (citationKindName kind) := by
  constructor
  · rintro ⟨kind, h⟩
    refine ⟨kind, ?_⟩
    unfold citationKindField at h
    split at h
    · split_ifs at h with h₁ h₂ h₃ h₄ <;> cases h <;> subst_vars <;> rfl
    · cases h
  · rintro ⟨kind, rfl⟩
    refine ⟨kind, ?_⟩
    cases kind <;> rfl

/-- `dict(j)` of a field that is a mapping. -/
theorem succeeds_dictField {α : Type} {read : Json K → Except Json.Fault α} {P : Json K → Prop}
    (h : ∀ v, Fallible.Succeeds (read v) ↔ P v) (j : Json K) :
    Fallible.Succeeds (dictField read j) ↔ DictOf P j := by
  have hitems : ∀ named : List (String × Json K),
      Fallible.Succeeds (Json.mapItems read (Json.ofMap id (.ofList named compare))) ↔
        ∀ (key : String) (v : Json K),
          (.ofList named compare : OrdMap.Map _ _)[key]? = some v → P v := by
    intro named
    rw [Json.succeeds_mapItems h]
    constructor
    · rintro ⟨members, heq, hP⟩ key v hget
      cases heq
      exact hP (key, v) (List.mem_map.mpr
        ⟨(key, v), Std.ExtTreeMap.mem_toList_iff_getElem?_eq_some.mpr hget, rfl⟩)
    · intro hP
      refine ⟨_, rfl, fun m hm => ?_⟩
      obtain ⟨e, he, rfl⟩ := List.mem_map.mp hm
      exact hP e.1 e.2 (Std.ExtTreeMap.mem_toList_iff_getElem?_eq_some.mp he)
  constructor
  · rintro ⟨a, ha⟩
    obtain ⟨pairs, hpairs, ha⟩ := Fallible.bind_eq_ok.mp ha
    obtain ⟨named, hnamed, ha⟩ := Fallible.bind_eq_ok.mp ha
    refine ⟨named, hpairs.trans (congrArg Except.ok ?_), (hitems named).mp ⟨a, ha⟩⟩
    rw [← List.forall₂_eq_eq_eq, List.forall₂_map_right_iff]
    refine (Fallible.mapM_eq_ok.mp hnamed).imp fun e n he => ?_
    obtain ⟨key, hkey, he⟩ := Fallible.bind_eq_ok.mp he
    obtain rfl := Except.ok.inj he
    exact Prod.ext (strField_eq_ok.mp hkey) rfl
  · rintro ⟨named, hdict, hP⟩
    obtain ⟨a, ha⟩ := (hitems named).mpr hP
    refine ⟨a, Fallible.bind_eq_ok.mpr ⟨_, hdict, Fallible.bind_eq_ok.mpr ⟨named, ?_, ha⟩⟩⟩
    rw [Fallible.mapM_eq_ok, List.forall₂_map_left_iff, List.forall₂_same]
    intro e _
    rfl

variable (conv : Conversions K)

theorem f64Argument_eq_finite {j : Json K} {x : K} :
    f64Argument conv j = .ok (.finite x) ↔ IsNumber conv x j := by
  rcases j with _ | b | n | y | s | _ | _
  case bool =>
    constructor
    · intro h
      cases h
      rfl
    · rintro rfl
      rfl
  case int =>
    show ((conv.floatOfInt n).map fun y => Except.ok (JsonFloat.finite y)).getD
      (.error Json.Fault.valueError) = .ok (.finite x) ↔ conv.floatOfInt n = some x
    rcases conv.floatOfInt n with - | y <;> simp
  case float => exact Except.ok.injEq y _ ▸ Iff.rfl
  all_goals
    apply iff_of_false _ id
    intro h
    cases h

theorem succeeds_floatField (j : Json K) :
    Fallible.Succeeds (floatField conv j) ↔ IsFloat conv j := by
  cases j
  case str s => exact succeeds_convert
  case float x => exact iff_of_true ⟨x, rfl⟩ trivial
  case bool b => exact iff_of_true ⟨.finite (if b then 1 else 0), rfl⟩ trivial
  case int n => exact Fallible.succeeds_mapError.trans succeeds_convert
  all_goals exact iff_of_false (Fallible.not_succeeds_error _) id

theorem new_eq_ok {x y : JsonFloat K} {iv : Interval K} :
    Interval.new (toF64 x) (toF64 y) = .ok iv ↔
      x = .finite iv.lo ∧ y = .finite iv.hi ∧ iv.lo ≤ iv.hi := by
  rcases x with x | _ | _ | _
  case finite =>
    rcases y with y | _ | _ | _
    case finite =>
      show (if y < x then Except.error (CoreError.invertedInterval x y) else .ok ⟨x, y⟩)
        = .ok iv ↔ _
      constructor
      · intro h
        split_ifs at h with hlt
        cases h
        exact ⟨rfl, rfl, not_lt.mp hlt⟩
      · rintro ⟨hx, hy, hle⟩
        cases hx
        cases hy
        rw [if_neg (not_lt.mpr hle)]
    all_goals
      apply iff_of_false
      · intro h
        cases h
      · rintro ⟨-, h, -⟩
        cases h
  all_goals
    apply iff_of_false
    · intro h
      cases h
    · rintro ⟨h, -⟩
      cases h

theorem succeeds_intervalFromJson (j : Json K) :
    Fallible.Succeeds (intervalFromJson conv j) ↔ IntervalShape conv j := by
  unfold IntervalShape
  constructor
  · rintro ⟨iv, h⟩
    obtain ⟨lo, hlo, h⟩ := Fallible.bind_eq_ok.mp h
    obtain ⟨hi, hhi, h⟩ := Fallible.bind_eq_ok.mp h
    obtain ⟨x, hx, h⟩ := Fallible.bind_eq_ok.mp h
    obtain ⟨y, hy, h⟩ := Fallible.bind_eq_ok.mp h
    obtain ⟨rfl, rfl, hle⟩ := new_eq_ok.mp (Fallible.mapError_eq_ok.mp h)
    exact ⟨iv.lo, iv.hi, Json.has_iff.mpr ⟨lo, hlo, (f64Argument_eq_finite conv).mp hx⟩,
      Json.has_iff.mpr ⟨hi, hhi, (f64Argument_eq_finite conv).mp hy⟩, hle⟩
  · rintro ⟨x, y, hx, hy, hle⟩
    obtain ⟨lo, hlo, hx⟩ := Json.has_iff.mp hx
    obtain ⟨hi, hhi, hy⟩ := Json.has_iff.mp hy
    refine ⟨⟨x, y⟩, Fallible.bind_eq_ok.mpr ⟨lo, hlo, Fallible.bind_eq_ok.mpr ⟨hi, hhi, ?_⟩⟩⟩
    exact Fallible.bind_eq_ok.mpr ⟨.finite x, (f64Argument_eq_finite conv).mpr hx,
      Fallible.bind_eq_ok.mpr ⟨.finite y, (f64Argument_eq_finite conv).mpr hy,
        Fallible.mapError_eq_ok.mpr (new_eq_ok.mpr ⟨rfl, rfl, hle⟩)⟩⟩

end Fields

section Records

variable (conv : Conversions K)

theorem succeeds_domainFromJson (j : Json K) :
    Fallible.Succeeds (domainFromJson conv j) ↔ DomainShape conv j := by
  apply Fallible.succeeds_bind_iff
    (Json.succeeds_item (Json.succeeds_mapItems (succeeds_intervalFromJson conv)) j)
  intro _ _
  apply Fallible.succeeds_bind_pure.trans
  exact Json.succeeds_item (Json.succeeds_listOf succeeds_tagArgument) j

theorem succeeds_routeStepFromJson (j : Json K) :
    Fallible.Succeeds (routeStepFromJson conv j) ↔ RouteStepShape conv j := by
  apply Fallible.succeeds_bind_iff (Json.succeeds_item succeeds_strField j)
  intro _ _
  apply Fallible.succeeds_bind_iff (Json.succeeds_item (succeeds_domainFromJson conv) j)
  intro _ _
  apply Fallible.succeeds_bind_iff (Json.succeeds_item (succeeds_floatField conv) j)
  intro _ _
  apply Fallible.succeeds_bind_pure.trans
  exact Json.succeeds_item (succeeds_floatField conv) j

theorem succeeds_routeFromJson (j : Json K) :
    Fallible.Succeeds (routeFromJson conv j) ↔ RouteShape conv j := by
  apply Fallible.succeeds_bind_iff (Json.succeeds_item succeeds_strField j)
  intro _ _
  apply Fallible.succeeds_bind_iff
    (Json.succeeds_item (Json.succeeds_listOf (succeeds_routeStepFromJson conv)) j)
  intro _ _
  apply Fallible.succeeds_bind_iff (Json.succeeds_item (succeeds_floatField conv) j)
  intro _ _
  apply Fallible.succeeds_bind_iff (Json.succeeds_item (succeeds_floatField conv) j)
  intro _ _
  apply Fallible.succeeds_bind_pure.trans
  exact Json.succeeds_item succeeds_strField j

theorem succeeds_attemptFromJson (j : Json K) :
    Fallible.Succeeds (attemptFromJson j) ↔ AttemptShape j := by
  apply Fallible.succeeds_bind_iff
    (Json.succeeds_item (Json.succeeds_listOf succeeds_strField) j)
  intro _ _
  apply Fallible.succeeds_bind_iff
    (Json.succeeds_item (succeeds_optionalField succeeds_strField) j)
  intro _ _
  apply Fallible.succeeds_bind_iff
    (Json.succeeds_item (succeeds_optionalField succeeds_strField) j)
  intro _ _
  apply Fallible.succeeds_bind_iff (Json.succeeds_item succeeds_strField j)
  intro _ _
  apply Fallible.succeeds_bind_pure.trans
  exact Json.succeeds_item succeeds_mappingField j

theorem succeeds_citationFromJson (j : Json K) :
    Fallible.Succeeds (citationFromJson j) ↔ CitationShape j := by
  apply Fallible.succeeds_bind_iff (Json.succeeds_item succeeds_citationKindField j)
  intro _ _
  apply Fallible.succeeds_bind_iff (Json.succeeds_item succeeds_strField j)
  intro _ _
  apply Fallible.succeeds_bind_pure.trans
  exact Json.succeeds_item succeeds_strField j

theorem succeeds_solutionFromJsonable (j : Json K) :
    Fallible.Succeeds (solutionFromJsonable conv j) ↔ SolutionShape conv j := by
  apply Fallible.succeeds_bind_iff (Json.succeeds_item succeeds_strField j)
  intro _ _
  apply Fallible.succeeds_bind_iff (Json.succeeds_item (succeeds_intervalFromJson conv) j)
  intro _ _
  apply Fallible.succeeds_bind_iff (Json.succeeds_item (succeeds_floatField conv) j)
  intro _ _
  apply Fallible.succeeds_bind_iff (Json.succeeds_item (succeeds_routeFromJson conv) j)
  intro _ _
  apply Fallible.succeeds_bind_iff (Json.succeeds_item succeeds_strField j)
  intro _ _
  apply Fallible.succeeds_bind_iff
    (Json.succeeds_item (succeeds_dictField succeeds_strField) j)
  intro _ _
  apply Fallible.succeeds_bind_iff
    (Json.succeeds_item (Json.succeeds_listOf succeeds_attemptFromJson) j)
  intro _ _
  apply Fallible.succeeds_bind_iff (Json.succeeds_item succeeds_boolField j)
  intro _ _
  apply Fallible.succeeds_bind_iff
    (succeeds_getOr (succeeds_dictField (succeeds_floatField conv)) j)
  intro _ _
  apply Fallible.succeeds_bind_iff
    (succeeds_getOr (Json.succeeds_mapItems (Json.succeeds_listOf succeeds_citationFromJson)) j)
  intro _ _
  apply Fallible.succeeds_bind_iff
    (succeeds_getOr (Json.succeeds_mapItems (succeeds_domainFromJson conv)) j)
  intro _ _
  apply Fallible.succeeds_bind_pure.trans
  exact succeeds_getOr (succeeds_optionalField (succeeds_floatField conv)) j

theorem succeeds_payloadKindField (j : Json K) :
    Fallible.Succeeds (payloadKindField j) ↔ ∃ kind ∈ payloadKinds, j = .str kind := by
  constructor
  · rintro ⟨kind, h⟩
    obtain ⟨text, htext, h⟩ := Fallible.bind_eq_ok.mp h
    split_ifs at h with hmem
    exact ⟨text, hmem, strField_eq_ok.mp htext⟩
  · rintro ⟨kind, hmem, rfl⟩
    refine ⟨⟨kind, hmem⟩, Fallible.bind_eq_ok.mpr ⟨kind, rfl, ?_⟩⟩
    rw [dif_pos hmem]
    rfl

/-- A keyword argument without a default. -/
theorem succeeds_keyword {α : Type} {read : Json K → Except Json.Fault α} {P : Json K → Prop}
    (h : ∀ v, Fallible.Succeeds (read v) ↔ P v) {key : String} {members : List (String × Json K)}
    {e : Json.Fault} :
    Fallible.Succeeds (((members.lookup key).map read).getD (.error e)) ↔
      Has key P (.obj members) := by
  rcases hget : members.lookup key with - | v
  · apply iff_of_false (Fallible.not_succeeds_error e)
    rintro ⟨members', v, heq, hget', -⟩
    cases heq
    rw [hget] at hget'
    cases hget'
  · apply (h v).trans
    constructor
    · exact fun hP => ⟨members, v, rfl, hget, hP⟩
    · rintro ⟨members', v', heq, hget', hP⟩
      cases heq
      rw [hget] at hget'
      exact Option.some.inj hget' ▸ hP

theorem succeeds_strFieldOr {key default : String} {members : List (String × Json K)} :
    Fallible.Succeeds (strFieldOr default (members.lookup key)) ↔
      HasOr key IsStr (.obj members) := by
  constructor
  · intro hread
    refine ⟨members, rfl, fun v hget => ?_⟩
    rw [hget] at hread
    exact (succeeds_strField v).mp hread
  · rintro ⟨members', heq, hP⟩
    cases heq
    rcases hget : members.lookup key with - | v
    · exact ⟨default, rfl⟩
    · exact (succeeds_strField v).mpr (hP v hget)

theorem succeeds_payloadRefFromJson (j : Json K) :
    Fallible.Succeeds (payloadRefFromJson j) ↔ PayloadRefShape j := by
  rcases j with _ | _ | _ | _ | _ | _ | members
  case obj =>
    apply Fallible.succeeds_bind_iff (succeeds_keyword succeeds_payloadKindField)
    intro _ _
    apply Fallible.succeeds_bind_iff (succeeds_keyword succeeds_strField)
    intro _ _
    apply Fallible.succeeds_bind_pure.trans
    exact succeeds_strFieldOr
  all_goals
    apply iff_of_false (Fallible.not_succeeds_error _)
    rintro ⟨⟨members, v, heq, -⟩, -⟩
    cases heq

theorem succeeds_stepEntryFromJson (j : Json K) :
    Fallible.Succeeds (stepEntryFromJson conv j) ↔ StepEntryShape conv j := by
  apply Fallible.succeeds_bind_iff
    (Json.succeeds_item (Json.succeeds_mapItems (succeeds_intervalFromJson conv)) j)
  intro _ _
  apply Fallible.succeeds_bind_iff
    (Json.succeeds_item (Json.succeeds_mapItems succeeds_payloadRefFromJson) j)
  intro _ _
  apply Json.succeeds_item _ j
  intro v
  exact iff_of_true ⟨_, rfl⟩ trivial

end Records

/-! ### What the caches survive -/

section Survives

variable (loads : String → Except LoadsError (Json K)) (conv : Conversions K)

/-- The content is no file, no JSON by `json.loads`' own account, `null`, or a
value of the shape. -/
def Harmless (Shape : Json K → Prop) : CacheFile → Prop
  | .missing => True
  | .unreadable => True
  | .bytes b => ∃ text, String.fromUTF8? b = some text ∧
      (loads text = .error .jsonDecodeError ∨ ∃ data, loads text = .ok data ∧
        (data = .null ∨ Shape data))

variable {loads conv}

/-- The content is harmless if `_load_cache_json` hands over `None`, or a value
of the shape. -/
theorem harmless_iff {Shape : Json K → Prop} {file : CacheFile} : Harmless loads Shape file ↔
    ∃ data, loadCacheJson loads file = .ok data ∧ (data = .null ∨ Shape data) := by
  rcases file with _ | _ | b
  · exact iff_of_true trivial ⟨.null, rfl, Or.inl rfl⟩
  · exact iff_of_true trivial ⟨.null, rfl, Or.inl rfl⟩
  rcases hb : String.fromUTF8? b with - | text
  · simp only [Harmless, loadCacheJson, hb, reduceCtorEq, false_and, exists_false]
  simp only [Harmless, loadCacheJson, hb, Option.some.injEq, exists_eq_left']
  rcases hl : loads text with (_ | _) | data <;> simp

/-- What is done with the value decodes it, or takes it for a miss. -/
theorem succeeds_loadCacheJson {α : Type} {f : Json K → Except CacheFault α}
    {Shape : Json K → Prop} (hnull : Fallible.Succeeds (f .null))
    (h : ∀ data, data ≠ .null → (Fallible.Succeeds (f data) ↔ Shape data)) (file : CacheFile) :
    Fallible.Succeeds (loadCacheJson loads file >>= f) ↔ Harmless loads Shape file := by
  rw [harmless_iff]
  rcases hload : loadCacheJson loads file with e | data
  · apply iff_of_false (Fallible.not_succeeds_error e)
    rintro ⟨data, heq, -⟩
    cases heq
  · simp only [Except.ok.injEq, exists_eq_left']
    by_cases hdata : data = .null
    · subst hdata
      exact iff_of_true hnull (Or.inl rfl)
    · exact (h data hdata).trans (or_iff_right hdata).symm

theorem succeeds_solveCache_get (reg : SolverRegistry K Env) (route : Route K) (env : Env)
    (file : CacheFile) : Fallible.Succeeds (SolveCache.get loads conv reg route env file) ↔
      Harmless loads (SolutionShape conv) file := by
  -- what is done with the solution does not fail
  have hrest : ∀ data, Fallible.Succeeds (do
      let solution ← (solutionFromJsonable conv data).mapError CacheFault.decode
      let excluded := (solution.attempts.getLast?.map StoredAttempt.excluded).getD []
      if toolsStillConsistent reg route excluded env then
        pure (some { solution with cacheHit := true })
      else pure none) ↔ SolutionShape conv data := by
    intro data
    rw [Fallible.succeeds_bind (Q := True), and_true, Fallible.succeeds_mapError,
      succeeds_solutionFromJsonable]
    intro solution _
    apply iff_true_intro
    dsimp only
    split
    · exact Fallible.succeeds_pure _
    · exact Fallible.succeeds_pure _
  cases file
  case missing => exact iff_of_true ⟨none, rfl⟩ trivial
  all_goals
    apply succeeds_loadCacheJson ⟨none, rfl⟩
    intro data hdata
    cases data
    case null => exact absurd rfl hdata
    all_goals exact hrest _

theorem succeeds_payloadStepCache_get (fn : SolveFn K Env) (env : Env) (file : CacheFile) :
    Fallible.Succeeds (PayloadStepCache.get loads conv fn env file) ↔
      fn.toolsPresent env = false ∨ Harmless loads (StepEntryShape conv) file := by
  have hrest : ∀ data, Fallible.Succeeds (do
      let entry ← (stepEntryFromJson conv data).mapError CacheFault.decode
      pure (some entry)) ↔ StepEntryShape conv data := by
    intro data
    rw [Fallible.succeeds_bind_pure, Fallible.succeeds_mapError, succeeds_stepEntryFromJson]
  cases file
  case missing => exact iff_of_true ⟨none, rfl⟩ (Or.inr trivial)
  all_goals
    simp only [PayloadStepCache.get]
    rcases htools : fn.toolsPresent env with - | -
    · exact iff_of_true ⟨none, rfl⟩ (Or.inl rfl)
    rw [if_pos rfl, or_iff_right (by decide)]
    apply succeeds_loadCacheJson ⟨none, rfl⟩
    intro data hdata
    cases data
    case null => exact absurd rfl hdata
    all_goals exact hrest _

/-- **A cache file with any content**: `get` raises nothing exactly when the
content is harmless; a step whose tools are gone does not read its file. -/
theorem gets_succeed_iff (reg : SolverRegistry K Env) (route : Route K) (fn : SolveFn K Env)
    (env : Env) (file : CacheFile) :
    (Fallible.Succeeds (SolveCache.get loads conv reg route env file) ↔
      Harmless loads (SolutionShape conv) file) ∧
    (Fallible.Succeeds (PayloadStepCache.get loads conv fn env file) ↔
      fn.toolsPresent env = false ∨ Harmless loads (StepEntryShape conv) file) :=
  ⟨succeeds_solveCache_get reg route env file, succeeds_payloadStepCache_get fn env file⟩

/-! ### Two damaged files -/

/-- Of these texts only `[]` is JSON. -/
def emptyListOnly (text : String) : Except LoadsError (Json ℚ) :=
  if text = "[]" then .ok (.arr []) else .error .jsonDecodeError

def emptyRegistry : SolverRegistry ℚ Unit := SolverRegistry.empty

def noRoute : Route ℚ := ⟨"t", [], 0, 0⟩

def solveCacheGet (file : CacheFile) : Except CacheFault (Option (StoredSolution ℚ)) :=
  SolveCache.get emptyListOnly exactConversions emptyRegistry noRoute () file

def stepCacheGet (file : CacheFile) : Except CacheFault (Option (StoredEntry ℚ)) :=
  PayloadStepCache.get emptyListOnly exactConversions (offsetFn "x" "y" 0) () file

/-- Bytes that are no text, and JSON of another shape, go through to the
caller. -/
theorem gets_raise :
    solveCacheGet (.bytes ⟨#[0xff]⟩) = .error .unicodeDecodeError ∧
    stepCacheGet (.bytes ⟨#[0xff]⟩) = .error .unicodeDecodeError ∧
    solveCacheGet (.bytes "[]".toUTF8) = .error (.decode .typeError) ∧
    stepCacheGet (.bytes "[]".toUTF8) = .error (.decode .typeError) := by
  have hbytes : String.fromUTF8? ⟨#[0xff]⟩ = none := by decide
  have htext : String.fromUTF8? "[]".toUTF8 = some "[]" := by decide
  refine ⟨?_, ?_, ?_, ?_⟩
  · simp only [solveCacheGet, SolveCache.get, loadCacheJson, hbytes]
    rfl
  · simp only [stepCacheGet, PayloadStepCache.get, loadCacheJson, hbytes]
    rfl
  · simp only [solveCacheGet, SolveCache.get, loadCacheJson, htext]
    rfl
  · simp only [stepCacheGet, PayloadStepCache.get, loadCacheJson, htext]
    rfl

end Survives

/-! ### An undamaged file -/

section Written

variable {D : Type} [CanonicalDigest K D] [DecidableEq D]
variable {loads : String → Except LoadsError (Json K)} {conv : Conversions K}
variable {hex : D → String} {detail : Detail K → Json K}

/-- A file that holds what `put` wrote is served as the store says. -/
theorem SolveCache.get_written {store : SolveStore K Env D} {key : D}
    {entry : Memo.Entry (SolveCall K Env) (Solution K D)} (hentry : store key = some entry)
    (hreloaded : entry.value.reloaded = entry.value)
    (hwell : WellFormed (stored hex detail entry.value)) {b : ByteArray}
    (hload : loadCacheJson loads (.bytes b)
      = .ok (solutionToJsonable (stored hex detail entry.value)).sortKeys)
    (reg : SolverRegistry K Env) (route : Route K) (env : Env) :
    SolveCache.get loads conv reg route env (.bytes b)
      = .ok ((store.get key route reg env).map fun entry =>
          stored hex detail { entry.value with cacheHit := true }) := by
  have hsame : (stored hex detail entry.value).reloaded = stored hex detail entry.value :=
    congrArg (stored hex detail) hreloaded
  have hdecode : solutionFromJsonable conv
      (solutionToJsonable (stored hex detail entry.value)).sortKeys
        = .ok (stored hex detail entry.value) :=
    (solutionFromJsonable_written conv hwell).trans (congrArg Except.ok hsame)
  have hexcluded : ((stored hex detail entry.value).attempts.getLast?.map
        StoredAttempt.excluded).getD []
      = (entry.value.attempts.getLast?.map AttemptRecord.excluded).getD [] := by
    simp [stored, storedAttempt, List.getLast?_map, Option.map_map, Function.comp_def]
  obtain ⟨members, hobj⟩ : ∃ members,
      (solutionToJsonable (stored hex detail entry.value)).sortKeys = .obj members :=
    ⟨_, Json.sortKeys_obj _⟩
  rw [hobj] at hload hdecode
  unfold SolveStore.get
  rw [hentry]
  simp only [SolveCache.get, hload, Except.bind, bind]
  rw [hdecode]
  simp only [Except.mapError, hexcluded]
  split <;> rfl

end Written

end Feldspar

/-
Feldspar/Step.lean

One step of the executor (`execute.py`): the split of its inputs, the corner
function behind the sweep, the realized eps and the output checks.

The two lists that the corner function fills by side effect are the state of
the sweep (`SweepLog`).  `sweep_eq` separates them again: a sweep evaluates
`cornerFn` at every corner, in order and up to the first error, and the hull
and the log are functions of the results.
-/
import Feldspar.Lib.Fallible
import Feldspar.Solver

set_option linter.unusedSectionVars false

namespace Feldspar

variable {K : Type} [Arith K] [LinearOrder K] {Env : Type}

/-- How a run of modelled code fails: with a `SolveError` value, or by an
exception. -/
inductive Failure (K : Type)
  | err (e : SolveError K)
  | raised (e : PyError)
  deriving DecidableEq

/-- `d[key]`. -/
def index {α : Type} (d : PortMap α) (key : String) : Except PyError α :=
  match d[key]? with
  | some v => .ok v
  | none => .error (.keyError key)

theorem index_eq_ok {α : Type} {d : PortMap α} {key : String} {v : α} :
    index d key = .ok v ↔ d[key]? = some v := by
  unfold index
  split <;> simp_all

/-! ### Inputs -/

def splitInput (portTable : PortMap PortDecl) (values : PortMap (Interval K))
    (payloadValues : PortMap PayloadRef) (acc : List Port × PortMap PayloadRef) (port : Port) :
    Except (SolveError K) (List Port × PortMap PayloadRef) :=
  match payloadValues[port]? with
  | some ref =>
      if isPayloadPort portTable port ∧ ref.kind ≠ declaredKind portTable port then
        .error (.payloadKindMismatch port (declaredKind portTable port) ref.kind)
      else .ok (acc.1, acc.2.insert port ref)
  | none =>
      if port ∈ values then .ok (acc.1 ++ [port], acc.2)
      else if isPayloadPort portTable port then .error (.missingPayload port)
      -- a missing scalar input ends in the KeyError of the box below
      else .ok (acc.1 ++ [port], acc.2)

/-- Partition the declared inputs into scalar ports and payload refs. -/
def splitStepInputs (info : SolverInfo K) (portTable : PortMap PortDecl)
    (values : PortMap (Interval K)) (payloadValues : PortMap PayloadRef) :
    Except (SolveError K) (List Port × PortMap PayloadRef) :=
  info.inputs.foldlM (splitInput portTable values payloadValues) ([], ∅)

def payloadOutputs (info : SolverInfo K) (portTable : PortMap PortDecl) : List Port :=
  info.outputs.filter fun port => isPayloadPort portTable port

def scalarOutputs (info : SolverInfo K) (portTable : PortMap PortDecl) : List Port :=
  info.outputs.filter fun port => !isPayloadPort portTable port

/-- The inflated interval of every scalar port. -/
def inflatedBox (values : PortMap (Interval K)) (epsMap : PortMap K) (scalarPorts : List Port) :
    Except PyError (PortMap (Interval K)) :=
  scalarPorts.foldlM (fun box port => do
    let iv ← index values port
    pure (box.insert port (inflate iv (epsMap[port]?.getD 0)))) ∅

/-- What is left of the budget once the worst upstream eps is taken off. -/
def remainingBudget (epsMap : PortMap K) (scalarPorts : List Port) (epsBudget : Option K) :
    Option K :=
  epsBudget.map fun budget =>
    let upstreamEps := ((scalarPorts.map fun port => epsMap[port]?.getD 0).max?).getD 0
    max (budget - upstreamEps) 0

/-- What one step is run with. -/
structure StepCall (K Env : Type) [Arith K] [LinearOrder K] where
  info : SolverInfo K
  fn : SolveFn K Env
  portTable : PortMap PortDecl
  box : PortMap (Interval K)
  payloadInputs : PortMap PayloadRef
  remainingBudget : Option K
  env : Env

namespace StepCall

def scalarOutputs (c : StepCall K Env) : List Port := Feldspar.scalarOutputs c.info c.portTable

def payloadOutputs (c : StepCall K Env) : List Port := Feldspar.payloadOutputs c.info c.portTable

end StepCall

/-! ### The corner function -/

/-- Every scalar output is there and every value is finite. -/
def checkStepOutput (outValues : List (Port × F64 K)) (scalarOutputs : List Port) :
    Except (SolveError K) Unit := do
  scalarOutputs.forM fun port =>
    if (outValues.lookup port).isSome then .ok () else .error (.missingOutput port)
  outValues.forM fun (port, value) =>
    match value with
    | .finite _ => .ok ()
    | .nonFinite => .error (.nonFinite port)

/-- The ref of one payload output, of the declared kind. -/
def checkPayloadOutput (portTable : PortMap PortDecl) (payloads : PortMap PayloadRef)
    (port : Port) : Except (SolveError K) PayloadRef :=
  match payloads[port]? with
  | none => .error (.missingOutput port)
  | some ref =>
      if ref.kind ≠ declaredKind portTable port then
        .error (.payloadKindMismatch port (declaredKind portTable port) ref.kind)
      else .ok ref

/-- A reported measurement is finite and non-negative. -/
def checkMeasured (info : SolverInfo K) : Option (F64 K) → Except (SolveError K) (Option K)
  | none => .ok none
  | some .nonFinite => .error (.invalidMeasurement
      [.lit "measured_eps=", .repr .nonFinite, .lit (" for " ++ info.solverId)])
  | some (.finite x) =>
      if x < 0 then .error (.invalidMeasurement
        [.lit "measured_eps=", .repr (.finite x), .lit (" for " ++ info.solverId)])
      else .ok (some x)

/-- What one corner contributes to the sweep. -/
structure CornerOutput (K : Type) where
  values : PortMap K
  payloads : List (Port × PayloadRef)
  measured : Option K

/-- The scalar corner with the payload refs merged in. -/
def fullCorner (corner : PortMap K) (payloadInputs : PortMap PayloadRef) :
    PortMap (CornerValue K) :=
  (corner.map fun _ x => .scalar x) ∪ payloadInputs.map fun _ ref => .payload ref

/-- A value that `checkStepOutput` has found finite. -/
def finiteValue (outValues : List (Port × F64 K)) (port : Port) : K :=
  match outValues.lookup port with
  | some (.finite x) => x
  | _ => 0

/-- Run the real `SolveFn` at one corner and check what it returns. -/
def cornerFn (c : StepCall K Env) (corner : PortMap K) :
    Except (SolveError K) (CornerOutput K) := do
  let out ← invokeSolveFn c.fn c.env (fullCorner corner c.payloadInputs) c.remainingBudget
  checkStepOutput out.values c.scalarOutputs
  let payloads ← c.payloadOutputs.mapM fun port => do
    let ref ← checkPayloadOutput c.portTable out.payloads port
    pure (port, ref)
  let measured ← checkMeasured c.info out.measuredEps
  pure ⟨OrdMap.ofFn c.scalarOutputs (finiteValue out.values), payloads, measured⟩

/-! ### The sweep -/

/-- The lists `measured` and `produced`. -/
structure SweepLog (K : Type) where
  measured : List K
  produced : PortMap (List PayloadRef)

namespace SweepLog

def empty : SweepLog K := ⟨[], ∅⟩

def push (log : SweepLog K) (out : CornerOutput K) : SweepLog K where
  measured := log.measured ++ out.measured.toList
  produced := out.payloads.foldl (fun produced e =>
    produced.alter e.1 fun refs => some (refs.getD [] ++ [e.2])) log.produced

end SweepLog

abbrev SweepM (K : Type) := StateT (SweepLog K) (Except (SolveError K))

/-- `cornerFn` as the callback of `cornerSweep`. -/
def sweepCorner (c : StepCall K Env) (corner : PortMap K) : SweepM K (PortMap K) := do
  let out ← (cornerFn c corner : Except (SolveError K) (CornerOutput K))
  modify fun log => log.push out
  pure out.values

def sweep (c : StepCall K Env) :
    Except (SolveError K) (PortMap (Interval K) × SweepLog K) :=
  (cornerSweep c.box (sweepCorner c)).run .empty

private theorem mapM_sweepCorner (c : StepCall K Env) :
    ∀ (corners : List (PortMap K)) (log : SweepLog K),
      (corners.mapM (sweepCorner c)).run log
        = (corners.mapM (cornerFn c)).map fun outs =>
            (outs.map CornerOutput.values, outs.foldl SweepLog.push log) := by
  intro corners
  induction corners with
  | nil => intro log; rfl
  | cons corner corners ih =>
      intro log
      have hrun : (sweepCorner c corner).run log
          = (cornerFn c corner).map fun out => (out.values, log.push out) := by
        rcases h : cornerFn c corner with e | out <;> simp [sweepCorner, h] <;> rfl
      rw [List.mapM_cons, List.mapM_cons, StateT.run_bind, hrun]
      rcases h : cornerFn c corner with e | out
      · rfl
      · show ((corners.mapM (sweepCorner c)).run (log.push out) >>= fun p => _) = _
        rw [ih]
        rcases corners.mapM (cornerFn c) with e | outs <;> rfl

/-- A sweep evaluates every corner and hulls the results. -/
theorem sweep_eq (c : StepCall K Env) :
    sweep c = ((enumerateCorners c.box).mapM (cornerFn c)).map fun outs =>
      (hullFromResults (outs.map CornerOutput.values), outs.foldl SweepLog.push .empty) := by
  rw [sweep, cornerSweep_eq, StateT.run_map, mapM_sweepCorner]
  rcases (enumerateCorners c.box).mapM (cornerFn c) with e | outs <;> rfl

/-! ### The step's entry -/

/-- A completed step: the hull of its scalar outputs, its payload refs and
the eps it is charged. -/
structure StepEntry (K : Type) where
  hull : PortMap (Interval K)
  produced : PortMap PayloadRef
  stepEps : K

/-- The one ref that a payload output has at every corner. -/
def producedRef (c : StepCall K Env) (log : SweepLog K) (acc : PortMap PayloadRef)
    (port : Port) : Except (SolveError K) (PortMap PayloadRef) :=
  match (log.produced[port]?).getD [] with
  | [] => .ok acc
  | first :: refs =>
      if refs.any fun ref => ref ≠ first then
        .error (.invalidMeasurement [.lit ("payload output " ++ port ++ " of " ++ c.info.solverId ++
          " varied across corners (payloads are exact by reference, 09 sec. 4)")])
      else .ok (acc.insert port first)

/-- The declared eps of one scalar output over its hull. -/
def declaredStepEps (c : StepCall K Env) (hull : PortMap (Interval K)) (port : Port) :
    Except PyError K := do
  let accuracy ← index c.info.accuracy port
  let iv ← index hull port
  pure (accuracy.worstOver iv)

/-- The realized eps: the worst measurement, or the worst declared eps where
nothing was measured. -/
def realizedEps (c : StepCall K Env) (hull : PortMap (Interval K)) (measured : List K) :
    Except PyError K :=
  match measured.max? with
  | some eps => .ok eps
  | none => do
      let declared ← c.scalarOutputs.mapM (declaredStepEps c hull)
      pure (declared.max?.getD 0)

/-- Sweep a step and settle its payload refs and its eps. -/
def sweepStep (c : StepCall K Env) : Except (Failure K) (StepEntry K) := do
  let (hull, log) ← (sweep c).mapError .err
  let produced ← (c.payloadOutputs.foldlM (producedRef c log) ∅).mapError .err
  let stepEps ← (realizedEps c hull log.measured).mapError .raised
  pure ⟨hull, produced, stepEps⟩

/-! ### What a completed step is -/

theorem mem_scalarOutputs {c : StepCall K Env} {p : Port} :
    p ∈ c.scalarOutputs ↔ p ∈ c.info.outputs ∧ isPayloadPort c.portTable p = false := by
  simp [StepCall.scalarOutputs, scalarOutputs]

/-- The step's function computes `v` for the scalar output `p` at `x`. -/
def Computes (c : StepCall K Env) (x : PortMap K) (p : Port) (v : K) : Prop :=
  ∃ out, invokeSolveFn c.fn c.env (fullCorner x c.payloadInputs) c.remainingBudget = .ok out ∧
    out.values.lookup p = some (.finite v)

theorem checkStepOutput_ok {outValues : List (Port × F64 K)} {ports : List Port}
    (h : checkStepOutput outValues ports = .ok ()) {p : Port} (hp : p ∈ ports) :
    outValues.lookup p = some (.finite (finiteValue outValues p)) := by
  obtain ⟨⟨⟩, hout, hfin⟩ := Fallible.bind_eq_ok.mp h
  rw [Fallible.forM_eq_ok] at hout hfin
  rcases hl : outValues.lookup p with - | x
  · have := hout p hp
    simp [hl] at this
  · have hmem : (p, x) ∈ outValues := by
      obtain ⟨l₁, l₂, hl, -⟩ := List.lookup_eq_some_iff.mp hl
      simp [hl]
    cases x with
    | finite x => simp [finiteValue, hl]
    | nonFinite => cases hfin _ hmem

/-- What `cornerFn` returns at a corner is what the `SolveFn` computes there. -/
theorem cornerFn_ok {c : StepCall K Env} {corner : PortMap K} {out : CornerOutput K}
    (h : cornerFn c corner = .ok out) :
    (∀ p, p ∈ out.values ↔ p ∈ c.scalarOutputs) ∧
      (∀ p v, out.values[p]? = some v ↔ p ∈ c.scalarOutputs ∧ Computes c corner p v) ∧
      ∃ raw, invokeSolveFn c.fn c.env (fullCorner corner c.payloadInputs) c.remainingBudget
        = .ok raw ∧ checkMeasured c.info raw.measuredEps = .ok out.measured := by
  obtain ⟨raw, hraw, h⟩ := Fallible.bind_eq_ok.mp h
  obtain ⟨⟨⟩, hchk, h⟩ := Fallible.bind_eq_ok.mp h
  obtain ⟨payloads, -, h⟩ := Fallible.bind_eq_ok.mp h
  obtain ⟨measured, hm, h⟩ := Fallible.bind_eq_ok.mp h
  obtain rfl := Except.ok.inj h
  refine ⟨fun p => by simp [OrdMap.mem_iff_exists, OrdMap.getElem?_ofFn_eq_some],
    fun p v => ?_, raw, hraw, hm⟩
  rw [OrdMap.getElem?_ofFn_eq_some]
  refine and_congr_right fun hp => ?_
  have hfin := checkStepOutput_ok hchk hp
  constructor
  · rintro rfl
    exact ⟨raw, hraw, hfin⟩
  · rintro ⟨out, hout, hv⟩
    obtain rfl := Except.ok.inj (hraw.symm.trans hout)
    rw [hfin] at hv
    exact F64.finite.inj (Option.some.inj hv)

/-- A completed sweep: every corner was evaluated, the hull is over their
values and the log holds what they reported. -/
structure Swept (c : StepCall K Env) (hull : PortMap (Interval K)) (log : SweepLog K) : Prop where
  corner : ∀ corner, IsCorner c.box corner → ∃ out, cornerFn c corner = .ok out
  mem_hull : ∀ p, p ∈ hull ↔ p ∈ c.scalarOutputs
  hull : ∀ p iv, hull[p]? = some iv →
    IsHullOf iv fun v => ∃ corner, IsCorner c.box corner ∧ Computes c corner p v
  measured : ∀ eps, eps ∈ log.measured ↔
    ∃ corner out, IsCorner c.box corner ∧ cornerFn c corner = .ok out ∧ out.measured = some eps

private theorem mem_measured_foldl {eps : K} :
    ∀ (outs : List (CornerOutput K)) (log : SweepLog K),
      eps ∈ (outs.foldl SweepLog.push log).measured ↔
        eps ∈ log.measured ∨ ∃ out ∈ outs, out.measured = some eps
  | [], log => by simp
  | out :: outs, log => by
      rw [List.foldl_cons, mem_measured_foldl outs]
      simp [SweepLog.push, or_assoc, Option.mem_toList]

theorem sweep_ok {c : StepCall K Env} {hull : PortMap (Interval K)} {log : SweepLog K}
    (h : sweep c = .ok (hull, log)) : Swept c hull log := by
  rw [sweep_eq] at h
  rcases hm : (enumerateCorners c.box).mapM (cornerFn c) with e | outs
  · rw [hm] at h
    cases h
  rw [hm] at h
  obtain ⟨rfl, rfl⟩ := Prod.mk.inj (Except.ok.inj h)
  have hall := Fallible.mapM_eq_ok.mp hm
  have hout : ∀ out, out ∈ outs ↔ ∃ corner, IsCorner c.box corner ∧ cornerFn c corner = .ok out := by
    intro out
    constructor
    · intro ho
      obtain ⟨corner, hc, he⟩ := Fallible.exists_of_mem_right hall ho
      exact ⟨corner, mem_enumerateCorners.mp hc, he⟩
    · rintro ⟨corner, hc, he⟩
      obtain ⟨out', ho, he'⟩ := Fallible.exists_of_mem_left hall (mem_enumerateCorners.mpr hc)
      exact Except.ok.inj (he.symm.trans he') ▸ ho
  -- every corner computes each scalar output, and there is a corner
  have hmem : ∀ p, p ∈ hullFromResults (outs.map CornerOutput.values) ↔ p ∈ c.scalarOutputs := by
    intro p
    rw [mem_hullFromResults]
    constructor
    · rintro ⟨r, hr, hp⟩
      obtain ⟨out, ho, rfl⟩ := List.mem_map.mp hr
      obtain ⟨corner, -, he⟩ := (hout out).mp ho
      exact ((cornerFn_ok he).1 p).mp hp
    · intro hp
      obtain ⟨corner, hc⟩ := List.exists_mem_of_ne_nil _ (enumerateCorners_ne_nil c.box)
      obtain ⟨out, ho, he⟩ := Fallible.exists_of_mem_left hall hc
      exact ⟨_, List.mem_map_of_mem ho, ((cornerFn_ok he).1 p).mpr hp⟩
  have hval : ∀ p v, p ∈ c.scalarOutputs →
      ((∃ r ∈ outs.map CornerOutput.values, r[p]? = some v) ↔
        ∃ corner, IsCorner c.box corner ∧ Computes c corner p v) := by
    intro p v hp
    constructor
    · rintro ⟨r, hr, hv⟩
      obtain ⟨out, ho, rfl⟩ := List.mem_map.mp hr
      obtain ⟨corner, hc, he⟩ := (hout out).mp ho
      exact ⟨corner, hc, (((cornerFn_ok he).2.1 p v).mp hv).2⟩
    · rintro ⟨corner, hc, hcomp⟩
      obtain ⟨out, ho, he⟩ := Fallible.exists_of_mem_left hall (mem_enumerateCorners.mpr hc)
      exact ⟨_, List.mem_map_of_mem ho, ((cornerFn_ok he).2.1 p v).mpr ⟨hp, hcomp⟩⟩
  refine ⟨fun corner hc => ?_, hmem, fun p iv hiv => ?_, fun eps => ?_⟩
  · obtain ⟨out, -, he⟩ := Fallible.exists_of_mem_left hall (mem_enumerateCorners.mpr hc)
    exact ⟨out, he⟩
  · have hp := (hmem p).mp (OrdMap.mem_iff_exists.mpr ⟨iv, hiv⟩)
    have hull := isHullOf_hullFromResults hiv
    exact ⟨fun v hv => hull.contains v ((hval p v hp).mpr hv), (hval p _ hp).mp hull.lo_mem,
      (hval p _ hp).mp hull.hi_mem⟩
  · rw [mem_measured_foldl]
    simp only [SweepLog.empty, List.not_mem_nil, false_or, hout]
    constructor
    · rintro ⟨out, ⟨corner, hc, he⟩, hm⟩
      exact ⟨corner, out, hc, he, hm⟩
    · rintro ⟨corner, out, hc, he, hm⟩
      exact ⟨out, ⟨corner, hc, he⟩, hm⟩

theorem realizedEps_measured {c : StepCall K Env} {hull : PortMap (Interval K)} {measured : List K}
    {eps : K} (h : realizedEps c hull measured = .ok eps) {m : K} (hm : m ∈ measured) :
    m ≤ eps ∧ eps ∈ measured := by
  unfold realizedEps at h
  rcases hmax : measured.max? with - | e
  · rw [List.max?_eq_none_iff.mp hmax] at hm
    cases hm
  · simp only [hmax] at h
    obtain rfl := Except.ok.inj h
    obtain ⟨hmem, hle⟩ := List.max?_eq_some_iff.mp hmax
    exact ⟨hle m hm, hmem⟩

/-- Where nothing is measured, the eps covers every declared eps. -/
theorem realizedEps_declared {c : StepCall K Env} {hull : PortMap (Interval K)} {eps : K}
    (h : realizedEps c hull [] = .ok eps) :
    (∀ p acc iv, p ∈ c.scalarOutputs → c.info.accuracy[p]? = some acc → hull[p]? = some iv →
      acc.worstOver iv ≤ eps) ∧ (eps = 0 ∨ ∃ (p : Port) (acc : Accuracy K) (iv : Interval K),
        c.info.accuracy[p]? = some acc ∧ eps = acc.worstOver iv) := by
  obtain ⟨declared, hd, he⟩ := Fallible.bind_eq_ok.mp h
  obtain rfl := Except.ok.inj he
  have hall := Fallible.mapM_eq_ok.mp hd
  have hval : ∀ p e, declaredStepEps c hull p = .ok e → ∃ acc iv,
      c.info.accuracy[p]? = some acc ∧ hull[p]? = some iv ∧ e = acc.worstOver iv := by
    intro p e hp
    obtain ⟨acc, hacc, hp⟩ := Fallible.bind_eq_ok.mp hp
    obtain ⟨iv, hiv, hp⟩ := Fallible.bind_eq_ok.mp hp
    exact ⟨acc, iv, index_eq_ok.mp hacc, index_eq_ok.mp hiv, (Except.ok.inj hp).symm⟩
  rcases hmax : declared.max? with - | e
  · refine ⟨fun p acc iv hp _ _ => ?_, Or.inl rfl⟩
    obtain ⟨b, hb, -⟩ := Fallible.exists_of_mem_left hall hp
    rw [List.max?_eq_none_iff.mp hmax] at hb
    cases hb
  · obtain ⟨hmem, hle⟩ := List.max?_eq_some_iff.mp hmax
    refine ⟨fun p acc iv hp hacc hiv => ?_, Or.inr ?_⟩
    · obtain ⟨b, hb, hpb⟩ := Fallible.exists_of_mem_left hall hp
      obtain ⟨acc', iv', hacc', hiv', rfl⟩ := hval p b hpb
      rw [hacc] at hacc'
      rw [hiv] at hiv'
      cases hacc'
      cases hiv'
      exact hle _ hb
    · obtain ⟨p, -, hpe⟩ := Fallible.exists_of_mem_right hall hmem
      obtain ⟨acc, iv, hacc, -, he⟩ := hval p e hpe
      exact ⟨p, acc, iv, hacc, he⟩

theorem checkMeasured_nonneg {info : SolverInfo K} {measuredEps : Option (F64 K)} {eps : K}
    (h : checkMeasured info measuredEps = .ok (some eps)) : 0 ≤ eps := by
  unfold checkMeasured at h
  split at h
  · cases h
  · cases h
  · split at h
    · cases h
    · obtain rfl := Option.some.inj (Except.ok.inj h)
      exact not_lt.mp ‹_›

theorem sweepStep_ok {c : StepCall K Env} {entry : StepEntry K} (h : sweepStep c = .ok entry) :
    ∃ log, Swept c entry.hull log ∧ realizedEps c entry.hull log.measured = .ok entry.stepEps := by
  obtain ⟨⟨hull, log⟩, hsweep, h⟩ := Fallible.bind_eq_ok.mp h
  obtain ⟨produced, -, h⟩ := Fallible.bind_eq_ok.mp h
  obtain ⟨stepEps, heps, h⟩ := Fallible.bind_eq_ok.mp h
  obtain rfl := Except.ok.inj h
  rw [Fallible.mapError_eq_ok] at hsweep heps
  exact ⟨log, sweep_ok hsweep, heps⟩

theorem IsHullOf.proper {iv : Interval K} {values : K → Prop} (h : IsHullOf iv values) :
    iv.Proper :=
  (h.contains iv.lo h.lo_mem).2

/-- The eps a step is charged is not negative. -/
theorem sweepStep_eps_nonneg {K : Type} [Field K] [LinearOrder K] [IsStrictOrderedRing K]
    {c : StepCall K Env} {entry : StepEntry K} (h : sweepStep c = .ok entry) : 0 ≤ entry.stepEps := by
  obtain ⟨log, hs, heps⟩ := sweepStep_ok h
  rcases hm : log.measured with - | ⟨m, ms⟩ <;> rw [hm] at heps
  · rcases (realizedEps_declared heps).2 with h₀ | ⟨-, acc, iv, -, he⟩
    · exact h₀.ge
    · exact he ▸ acc.worstOver_nonneg iv
  · obtain ⟨-, hmem⟩ := realizedEps_measured heps List.mem_cons_self
    obtain ⟨corner, out, -, hout, he⟩ := (hs.measured _).mp (hm ▸ hmem)
    obtain ⟨raw, -, hchk⟩ := (cornerFn_ok hout).2.2
    exact checkMeasured_nonneg (he ▸ hchk)

/-- What was collected for a port stays, and a corner adds its refs. -/
private theorem produced_push {p : Port} {log : SweepLog K} {out : CornerOutput K}
    (h : (∃ ref, (p, ref) ∈ out.payloads) ∨ log.produced[p]?.getD [] ≠ []) :
    (log.push out).produced[p]?.getD [] ≠ [] := by
  have hfold : ∀ (payloads : List (Port × PayloadRef)) (produced : PortMap (List PayloadRef)),
      (∃ ref, (p, ref) ∈ payloads) ∨ produced[p]?.getD [] ≠ [] →
      (payloads.foldl (fun produced e =>
        produced.alter e.1 fun refs => some (refs.getD [] ++ [e.2])) produced)[p]?.getD [] ≠ [] := by
    intro payloads
    induction payloads with
    | nil =>
        rintro produced (⟨ref, href⟩ | h)
        · cases href
        · exact h
    | cons e payloads ih =>
        intro produced h
        rw [List.foldl_cons]
        apply ih
        rw [OrdMap.getElem?_alter_eq]
        by_cases hp : e.1 = p
        · right
          simp [hp]
        · rw [if_neg hp]
          rcases h with ⟨ref, href⟩ | h
          · rcases List.mem_cons.mp href with rfl | href
            · exact absurd rfl hp
            · exact Or.inl ⟨ref, href⟩
          · exact Or.inr h
  exact hfold out.payloads log.produced h

private theorem produced_foldl {p : Port} : ∀ {outs : List (CornerOutput K)} {log : SweepLog K},
    (∃ out ∈ outs, ∃ ref, (p, ref) ∈ out.payloads) ∨ log.produced[p]?.getD [] ≠ [] →
    (outs.foldl SweepLog.push log).produced[p]?.getD [] ≠ []
  | [], _, h => by
      rcases h with ⟨out, hout, -⟩ | h
      · cases hout
      · exact h
  | out :: outs, log, h => by
      rw [List.foldl_cons]
      apply produced_foldl
      rcases h with ⟨out', hout', href⟩ | h
      · rcases List.mem_cons.mp hout' with rfl | hout'
        · exact Or.inr (produced_push (Or.inl href))
        · exact Or.inl ⟨out', hout', href⟩
      · exact Or.inr (produced_push (Or.inr h))

/-- A completed step has a ref for each of its payload outputs. -/
theorem mem_produced {c : StepCall K Env} {entry : StepEntry K} (h : sweepStep c = .ok entry)
    {p : Port} (hp : p ∈ c.payloadOutputs) : p ∈ entry.produced := by
  obtain ⟨⟨hull, log⟩, hsweep, h⟩ := Fallible.bind_eq_ok.mp h
  obtain ⟨produced, hproduced, h⟩ := Fallible.bind_eq_ok.mp h
  obtain ⟨stepEps, -, h⟩ := Fallible.bind_eq_ok.mp h
  obtain rfl := Except.ok.inj h
  rw [Fallible.mapError_eq_ok] at hsweep hproduced
  have hlog : log.produced[p]?.getD [] ≠ [] := by
    rw [sweep_eq] at hsweep
    rcases hm : (enumerateCorners c.box).mapM (cornerFn c) with e | outs <;> rw [hm] at hsweep
    · cases hsweep
    obtain ⟨-, rfl⟩ := Prod.mk.inj (Except.ok.inj hsweep)
    apply produced_foldl
    -- there is a corner, and each one gives a ref
    obtain ⟨corner, hcorner⟩ := List.exists_mem_of_ne_nil _ (enumerateCorners_ne_nil c.box)
    obtain ⟨out, hout, he⟩ := Fallible.exists_of_mem_left (Fallible.mapM_eq_ok.mp hm) hcorner
    obtain ⟨raw, -, he⟩ := Fallible.bind_eq_ok.mp he
    obtain ⟨⟨⟩, -, he⟩ := Fallible.bind_eq_ok.mp he
    obtain ⟨payloads, hpayloads, he⟩ := Fallible.bind_eq_ok.mp he
    obtain ⟨measured, -, he⟩ := Fallible.bind_eq_ok.mp he
    obtain rfl := Except.ok.inj he
    obtain ⟨e, hmem, hport⟩ := Fallible.exists_of_mem_left (Fallible.mapM_eq_ok.mp hpayloads) hp
    obtain ⟨ref, -, heq⟩ := Fallible.bind_eq_ok.mp hport
    exact Or.inl ⟨_, hout, ref, Except.ok.inj heq ▸ hmem⟩
  refine Fallible.foldlM_invariant (I := fun done (acc : PortMap PayloadRef) =>
    p ∈ done → p ∈ acc) ?_ (fun h => absurd h List.not_mem_nil) hproduced hp
  intro done port acc acc' hacc hstep hmem
  unfold producedRef at hstep
  split at hstep
  · rename_i hnil
    rcases List.mem_append.mp hmem with hmem | hmem
    · exact Except.ok.inj hstep ▸ hacc hmem
    · exact absurd (List.mem_singleton.mp hmem ▸ hnil) hlog
  · split_ifs at hstep
    obtain rfl := Except.ok.inj hstep
    rw [Std.ExtTreeMap.mem_insert, Std.LawfulEqOrd.compare_eq_iff_eq]
    rcases List.mem_append.mp hmem with hmem | hmem
    · exact Or.inr (hacc hmem)
    · exact Or.inl (List.mem_singleton.mp hmem).symm

theorem mem_payloadOutputs {c : StepCall K Env} {p : Port} :
    p ∈ c.payloadOutputs ↔ p ∈ c.info.outputs ∧ isPayloadPort c.portTable p = true := by
  simp [StepCall.payloadOutputs, payloadOutputs]

/-- A completed step has refs for payload outputs only. -/
theorem mem_payloadOutputs_of_mem_produced {c : StepCall K Env} {entry : StepEntry K}
    (h : sweepStep c = .ok entry) {p : Port} (hp : p ∈ entry.produced) :
    p ∈ c.payloadOutputs := by
  obtain ⟨⟨hull, log⟩, -, h⟩ := Fallible.bind_eq_ok.mp h
  obtain ⟨produced, hproduced, h⟩ := Fallible.bind_eq_ok.mp h
  obtain ⟨stepEps, -, h⟩ := Fallible.bind_eq_ok.mp h
  obtain rfl := Except.ok.inj h
  rw [Fallible.mapError_eq_ok] at hproduced
  refine Fallible.foldlM_invariant (I := fun done (acc : PortMap PayloadRef) =>
    p ∈ acc → p ∈ done) ?_ (fun h => absurd h Std.ExtTreeMap.not_mem_empty) hproduced hp
  intro done port acc acc' hacc hstep hmem
  unfold producedRef at hstep
  split at hstep
  · exact List.mem_append_left _ (hacc (Except.ok.inj hstep ▸ hmem))
  · split_ifs at hstep
    obtain rfl := Except.ok.inj hstep
    rw [Std.ExtTreeMap.mem_insert, Std.LawfulEqOrd.compare_eq_iff_eq] at hmem
    rcases hmem with rfl | hmem
    · exact List.mem_append_right _ (List.mem_singleton_self _)
    · exact List.mem_append_left _ (hacc hmem)

/-- The output-side entries of the declared box hold of the inflated hull. -/
def checkStepOutputDomain (info : SolverInfo K) (hull : PortMap (Interval K)) (stepEps : K) :
    Except (SolveError K) Unit :=
  info.domain.portBox.toList.forM fun (port, allowed) =>
    match hull[port]? with
    | none => .ok ()
    | some value =>
        let inflated := inflate value stepEps
        if inflated.isSubset allowed then .ok ()
        else .error (.outputOutOfDomain port inflated.lo inflated.hi allowed.lo allowed.hi)

end Feldspar

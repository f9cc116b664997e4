/-
Feldspar/CeilingCoverage.lean

What the ceiling gate says about single samples (`calib/harness.py`).

A record that the gate has let through is no worse than declared, and it is the
worst of its samples: so the declared accuracy covers every sample at which
both solvers have answered, at every output that they share
(`checkCeilings_covers`).

A derived direction without a calibration is swept at the gate itself, against
the two sides of its law (`resweepDerived`).  If the sweep gives any evidence,
the declared accuracy covers the residual of every sample of it
(`checkCeilings_covers_derived`).
-/
import Feldspar.Calibrate

set_option linter.unusedSectionVars false

namespace Feldspar

namespace Calib

variable {K : Type} [Field K] [LinearOrder K] {Env : Type}

/-! ### The re-sweep -/

/-- The two sides of the law of a derived direction; `eval` may raise. -/
structure LawSides (K : Type) where
  lhs : List (Port × JsonFloat K) → Except Unit (JsonFloat K)
  rhs : List (Port × JsonFloat K) → Except Unit (JsonFloat K)

/-- `info.domain.box`, in the order of its ports. -/
def ownBox (info : SolverInfo K) : List (Port × K × K) :=
  info.domain.portBox.toList.map fun e => (e.1, e.2.lo, e.2.hi)

section Resweep

variable (random : ℤ → ℕ → K)
variable (canonicalDigest : SolverId → SolverId → ℤ → ℤ → JsonFloat K → JsonFloat K → String)

/-- Both sides at what the direction answers at a point, if there is an answer
and both can be evaluated. -/
def sides (law : LawSides K) (info : SolverInfo K) (target : Port) (fn : FloatFn K Env)
    (env : Env) (point : List (Port × K)) : Option (JsonFloat K × JsonFloat K) := do
  let values ← (fn env (restrictTo info.inputs point)).toOption
  let value ← values.lookup target
  let candInputs := (point.filter fun e => e.1 ∈ info.inputs).map fun e => (e.1, .finite e.2)
  -- `full_point[target] = value`
  let fullPoint := (target, value) :: candInputs.filter fun e => e.1 ≠ target
  let lhsV ← (law.lhs fullPoint).toOption
  let rhsV ← (law.rhs fullPoint).toOption
  pure (lhsV, rhsV)

/-- The larger of the two sides. -/
def scaleOf (lhsV rhsV : JsonFloat K) : JsonFloat K := lhsV.abs.pick rhsV.abs

/-- One sample of the re-sweep. -/
def foldResidual (worst : Worst K) : Option (JsonFloat K × JsonFloat K) → Worst K
  | none => worst
  | some (lhsV, rhsV) =>
      { abs := worst.abs.pick (absError lhsV rhsV)
        rel :=
          if scaleOf lhsV rhsV ≠ .finite 0 then
            worst.rel.pick ((absError lhsV rhsV).div (scaleOf lhsV rhsV))
          else worst.rel
        nValid := worst.nValid + 1 }

/-- `resweep_derived`; a law has a target. -/
def resweepDerived (laws : SolverId → Option (LawSides K)) (solvedFor : SolverId → Option Port)
    (env : ℕ → Env) (info : SolverInfo K) (fn : FloatFn K Env) (nSamples seed : ℤ) :
    Except (CalibError K) (CalibRecord K) :=
  match laws info.solverId with
  | none => .error (.unknownSolver info.solverId)
  | some law =>
      let referenceId := info.solverId ++ "::law_residual"
      if (ownBox info).isEmpty then .error (.domainMismatch info.solverId referenceId)
      else
        match solvedFor info.solverId with
        | none => .error (.unknownSolver info.solverId)
        | some target =>
            let worst := ((samplePoints random seed (ownBox info) nSamples).zipIdx.map fun point =>
              sides law info target fn (env point.2) point.1).foldl foldResidual
                ⟨.finite 0, .finite 0, 0⟩
            if worst.nValid = 0 then .error (.domainMismatch info.solverId referenceId)
            else .ok (recordOf canonicalDigest info.solverId referenceId nSamples seed worst.abs
              worst.rel)

end Resweep

/-- The residuals of some samples. -/
def Residuals (samples : List (Option (JsonFloat K × JsonFloat K))) (x : JsonFloat K) : Prop :=
  ∃ lhsV rhsV, some (lhsV, rhsV) ∈ samples ∧ x = absError lhsV rhsV

/-- The relative residuals: none where both sides are zero. -/
def RelResiduals (samples : List (Option (JsonFloat K × JsonFloat K))) (x : JsonFloat K) : Prop :=
  ∃ lhsV rhsV, some (lhsV, rhsV) ∈ samples ∧ scaleOf lhsV rhsV ≠ .finite 0 ∧
    x = (absError lhsV rhsV).div (scaleOf lhsV rhsV)

theorem residuals_snoc {samples : List (Option (JsonFloat K × JsonFloat K))}
    {lhsV rhsV x : JsonFloat K} : Residuals (samples ++ [some (lhsV, rhsV)]) x ↔
      Residuals samples x ∨ x = absError lhsV rhsV := by
  simp [Residuals, or_and_right, exists_or, and_assoc]

theorem relResiduals_snoc {samples : List (Option (JsonFloat K × JsonFloat K))}
    {lhsV rhsV x : JsonFloat K} : RelResiduals (samples ++ [some (lhsV, rhsV)]) x ↔
      RelResiduals samples x ∨ scaleOf lhsV rhsV ≠ .finite 0 ∧
        x = (absError lhsV rhsV).div (scaleOf lhsV rhsV) := by
  simp [RelResiduals, or_and_right, exists_or, and_assoc]

theorem foldResiduals_spec : ∀ (l done : List (Option (JsonFloat K × JsonFloat K))) {w : Worst K},
    IsWorst (Residuals done) w.abs → IsWorst (RelResiduals done) w.rel →
    IsWorst (Residuals (done ++ l)) (l.foldl foldResidual w).abs ∧
      IsWorst (RelResiduals (done ++ l)) (l.foldl foldResidual w).rel := by
  intro l
  induction l with
  | nil =>
      intro done w habs hrel
      rw [List.append_nil]
      exact ⟨habs, hrel⟩
  | cons sample l ih =>
      intro done w habs hrel
      rw [List.append_cons, List.foldl_cons]
      rcases sample with - | ⟨lhsV, rhsV⟩
      · exact ih _ (habs.congr fun x => by simp [Residuals])
          (hrel.congr fun x => by simp [RelResiduals])
      · refine ih _ ((habs.pick _).congr fun x => residuals_snoc.symm) ?_
        show IsWorst _ (if scaleOf lhsV rhsV ≠ .finite 0 then _ else _)
        split_ifs with hzero
        · exact (hrel.pick _).congr fun x => by simp only [relResiduals_snoc, hzero, ne_eq,
            not_false_eq_true, true_and]
        · exact hrel.congr fun x => by simp only [relResiduals_snoc, hzero, false_and, or_false]

theorem foldResiduals_none : ∀ {l : List (Option (JsonFloat K × JsonFloat K))} {w : Worst K},
    (l.foldl foldResidual w).nValid = 0 → w.nValid = 0 ∧ ∀ sample ∈ l, sample = none := by
  intro l
  induction l with
  | nil => exact fun h => ⟨h, fun _ hmem => absurd hmem List.not_mem_nil⟩
  | cons sample l ih =>
      intro w h
      obtain ⟨hfirst, hrest⟩ := ih h
      rcases sample with - | ⟨lhsV, rhsV⟩
      · exact ⟨hfirst, List.forall_mem_cons.mpr ⟨rfl, hrest⟩⟩
      · exact absurd hfirst (Nat.succ_ne_zero _)

section Swept

variable {random : ℤ → ℕ → K} {laws : SolverId → Option (LawSides K)}
  {solvedFor : SolverId → Option Port}

/-- The samples of a re-sweep. -/
def residualSamples (random : ℤ → ℕ → K) (env : ℕ → Env) (info : SolverInfo K)
    (fn : FloatFn K Env) (law : LawSides K) (target : Port) (nSamples seed : ℤ) :
    List (Option (JsonFloat K × JsonFloat K)) :=
  (samplePoints random seed (ownBox info) nSamples).zipIdx.map fun point =>
    sides law info target fn (env point.2) point.1

/-- **What the re-sweep records** is the worst of its samples, and it records
something as soon as there is one. -/
theorem resweepDerived_spec
    (canonicalDigest : SolverId → SolverId → ℤ → ℤ → JsonFloat K → JsonFloat K → String)
    {env : ℕ → Env} {info : SolverInfo K} {fn : FloatFn K Env}
    {nSamples seed : ℤ} {law : LawSides K} {target : Port}
    (hlaw : laws info.solverId = some law) (htarget : solvedFor info.solverId = some target)
    (hbox : ownBox info ≠ []) {lhsV rhsV : JsonFloat K}
    (hsample : some (lhsV, rhsV) ∈ residualSamples random env info fn law target nSamples seed) :
    ∃ record,
      resweepDerived random canonicalDigest laws solvedFor env info fn nSamples seed = .ok record ∧
      IsWorst (Residuals (residualSamples random env info fn law target nSamples seed))
        record.worstAbsError ∧
      IsWorst (RelResiduals (residualSamples random env info fn law target nSamples seed))
        record.worstRelError := by
  obtain ⟨habs, hrel⟩ := foldResiduals_spec
    (residualSamples random env info fn law target nSamples seed) []
    (w := ⟨.finite 0, .finite 0, 0⟩) (isWorst_zero.congr fun x => by simp [Residuals])
    (isWorst_zero.congr fun x => by simp [RelResiduals])
  unfold resweepDerived
  rw [hlaw]
  simp only
  rw [if_neg (by rwa [List.isEmpty_iff]), htarget]
  simp only
  rw [← residualSamples, if_neg]
  · exact ⟨_, rfl, habs, hrel⟩
  · intro hzero
    cases (foldResiduals_none hzero).2 _ hsample

end Swept

/-! ### The gate -/

theorem atMost_of_le {x w : JsonFloat K} {bound : K} (h : x.Le w) (hw : ¬ w.Exceeds bound)
    (hne : w ≠ .nan) : x.AtMost bound := by
  have hle : w.AtMost bound := JsonFloat.atMost_iff.mpr ⟨hw, hne⟩
  cases x <;> cases w <;> first
    | exact le_trans (show _ ≤ _ from h) hle
    | exact h.elim
    | exact hle.elim
    | trivial

/-- A worst error within a bound keeps every error within it. -/
theorem IsWorst.atMost {P : JsonFloat K → Prop} {w : JsonFloat K} (h : IsWorst P w) {bound : K}
    (hw : ¬ w.Exceeds bound) {x : JsonFloat K} (hx : P x) : x = .nan ∨ x.AtMost bound := by
  by_cases hnan : x = .nan
  · exact Or.inl hnan
  · exact Or.inr (atMost_of_le (h.le x hx hnan) hw h.ne_nan)

section Gate

variable {random : ℤ → ℕ → K}
variable {canonicalDigest : SolverId → SolverId → ℤ → ℤ → JsonFloat K → JsonFloat K → String}
variable {solvedFor : SolverId → Option Port} {records : Records K}
  {registry : SolverRegistry K Env} {info : SolverInfo K} {fn : SolveFn K Env}

/-- A record that passes bounds its errors by every declared accuracy. -/
theorem checkRecord_bounds {record : CalibRecord K} (h : checkRecord info record = none)
    {out : Port} {acc : Accuracy K} (hacc : info.accuracy[out]? = some acc) (hne : acc ≠ .exact) :
    ¬ record.worstAbsError.Exceeds acc.epsAbs ∧ ¬ record.worstRelError.Exceeds acc.epsRel :=
  checkCeiling_eq_none.mp (List.findSome?_eq_none_iff.mp h (out, acc)
    (mem_nonExactPorts.mpr ⟨hacc, hne⟩))

theorem prepareSweep_ok {solvers : SolverMap K Env} {solverId referenceId : SolverId}
    {sweep : Sweep K Env} (h : prepareSweep solvers solverId referenceId = .ok sweep) :
    solvers solverId = some sweep.cand ∧ solvers referenceId = some sweep.ref ∧
      sweep.box = sharedInputBox sweep.cand.1 sweep.ref.1 := by
  unfold prepareSweep at h
  rcases hcand : solvers solverId with - | cand
  · rw [hcand] at h
    cases h
  · rcases href : solvers referenceId with - | ref
    · rw [hcand, href] at h
      cases h
    · rw [hcand, href] at h
      simp only at h
      split_ifs at h
      obtain rfl := Except.ok.inj h
      exact ⟨rfl, rfl, rfl⟩

/-- **A cited record that passes covers its samples.**  Every sample point is in
the boxes of both solvers; and where both have answered, every declared
accuracy of the candidate that is not exact covers the errors of every output
that they share. -/
theorem checkCeilings_covers [IsStrictOrderedRing K] (floatFn : FloatFn K Env)
    {resweep : SolverInfo K → SolveFn K Env → Except (CalibError K) (CalibRecord K)}
    (hok : checkCeilings solvedFor resweep records registry = .ok ())
    (hentry : (info, fn) ∈ registry.entries)
    (hrandom : ∀ s k, 0 ≤ random s k ∧ random s k < 1)
    {env : ℕ → Env × Env} {solvers : SolverMap K Env}
    (hcand : solvers info.solverId = some (info, floatFn)) {referenceId : SolverId}
    {sweep : Sweep K Env} (hsweep : prepareSweep solvers info.solverId referenceId = .ok sweep)
    {nSamples seed threadCount : ℤ} {record : CalibRecord K}
    (hrun : Calibrate random canonicalDigest env solvers info.solverId referenceId nSamples seed
      threadCount (.ok record))
    (hfiled : records[record.digest]? = some record) (hcites : Cites info record.digest) :
    (∀ point ∈ samplePoints random seed sweep.box nSamples, ∀ e ∈ point, ∃ ivA ivB,
      info.domain.portBox[e.1]? = some ivA ∧ sweep.ref.1.domain.portBox[e.1]? = some ivB ∧
      ivA.contains e.2 ∧ ivB.contains e.2) ∧
    ∀ e ∈ evaluations random env sweep nSamples seed, ∀ port ∈ sweep.outputs, ∀ candV refV,
      Answers e port candV refV →
      ∀ (out : Port) (acc : Accuracy K), info.accuracy[out]? = some acc → acc ≠ .exact →
        (absError candV refV = .nan ∨ (absError candV refV).AtMost acc.epsAbs) ∧
        (refV ≠ .finite 0 →
          relError candV refV = .nan ∨ (relError candV refV).AtMost acc.epsRel) := by
  obtain ⟨hprepared, -, hbox⟩ := prepareSweep_ok hsweep
  have hinfo : sweep.cand.1 = info := by
    rw [Option.some.inj (hprepared.symm.trans hcand)]
  constructor
  · intro point hpoint e he
    obtain ⟨i, -, rfl⟩ := List.mem_map.mp hpoint
    rw [hbox, hinfo] at he
    exact samplePoint_mem hrandom he
  · intro e he port hport candV refV hanswers out acc hacc hne
    obtain ⟨habs, hrel⟩ := record_worst hsweep hrun
    have hexempt : ¬ Exempt solvedFor info := by
      rintro ⟨-, hnone⟩
      obtain ⟨c, hc, -⟩ := hcites
      rw [hnone] at hc
      exact absurd hc List.not_mem_nil
    have hports : nonExactPorts info ≠ [] :=
      List.ne_nil_of_mem (mem_nonExactPorts (e := (out, acc)).mpr ⟨hacc, hne⟩)
    obtain ⟨record', hrecord', hpass⟩ :=
      checkSolver_cited (checkCeilings_ok.mp hok _ hentry) hexempt hports hcites
    obtain rfl := Option.some.inj (hfiled.symm.trans hrecord')
    obtain ⟨habs', hrel'⟩ := checkRecord_bounds hpass hacc hne
    exact ⟨habs.atMost habs' ⟨e, he, port, hport, candV, refV, hanswers, rfl⟩, fun hzero =>
      hrel.atMost hrel' ⟨e, he, port, hport, candV, refV, hanswers, hzero, rfl⟩⟩

/-- **The live re-sweep covers its samples.**  A derived direction that cites no
calibration passes the gate only if every declared accuracy that is not exact
covers the residual of its law at every one of the 256 samples at which the
direction answers and both sides can be evaluated. -/
theorem checkCeilings_covers_derived (floatFn : SolverId → FloatFn K Env)
    {laws : SolverId → Option (LawSides K)} {env : ℕ → Env}
    (hok : checkCeilings solvedFor (fun info _ => resweepDerived random canonicalDigest laws
      solvedFor env info (floatFn info.solverId) 256 0) records registry = .ok ())
    (hentry : (info, fn) ∈ registry.entries) (hnone : calibCitations info = [])
    {law : LawSides K} {target : Port} (hlaw : laws info.solverId = some law)
    (htarget : solvedFor info.solverId = some target) (hbox : ownBox info ≠ []) :
    ∀ lhsV rhsV,
      some (lhsV, rhsV) ∈
        residualSamples random env info (floatFn info.solverId) law target 256 0 →
      ∀ (out : Port) (acc : Accuracy K), info.accuracy[out]? = some acc → acc ≠ .exact →
        (absError lhsV rhsV = .nan ∨ (absError lhsV rhsV).AtMost acc.epsAbs) ∧
        (scaleOf lhsV rhsV ≠ .finite 0 → (absError lhsV rhsV).div (scaleOf lhsV rhsV) = .nan ∨
          ((absError lhsV rhsV).div (scaleOf lhsV rhsV)).AtMost acc.epsRel) := by
  intro lhsV rhsV hsample out acc hacc hne
  obtain ⟨record, hrecord, habs, hrel⟩ := resweepDerived_spec canonicalDigest hlaw
    htarget hbox hsample
  have hsolver := checkCeilings_ok.mp hok _ hentry
  have hports : nonExactPorts info ≠ [] :=
    List.ne_nil_of_mem (mem_nonExactPorts (e := (out, acc)).mpr ⟨hacc, hne⟩)
  unfold checkSolver at hsolver
  rw [if_neg (by rwa [List.isEmpty_iff]), if_pos ⟨by rw [hnone]; rfl, by rw [isDerived, htarget]; rfl⟩]
    at hsolver
  simp only [hrecord] at hsolver
  obtain ⟨habs', hrel'⟩ := checkRecord_bounds hsolver hacc hne
  exact ⟨habs.atMost habs' ⟨lhsV, rhsV, hsample, rfl⟩, fun hscale =>
    hrel.atMost hrel' ⟨lhsV, rhsV, hsample, hscale, rfl⟩⟩

end Gate

/-! ### A rule of thumb -/

section Thumb

/-- One, and as much again as the value. -/
def coarse : Accuracy ℚ := ⟨1, 1, zero_le_one, zero_le_one⟩

/-- On `x` from 0 to 1. -/
def onUnit (info : SolverInfo ℚ) : SolverInfo ℚ :=
  { info with
    domain := ⟨OrdMap.ofFn ["x"] fun _ => ⟨0, 1⟩, ∅⟩
    accuracy := OrdMap.ofFn ["y"] fun _ => coarse }

/-- What answers `y = x + shift`. -/
def shiftFn (shift : ℚ) : FloatFn ℚ Unit := fun _ x => .ok [("y", .finite ((x["x"]?).getD 0 + shift))]

def thumbInfo : SolverInfo ℚ := onUnit (ruleOfThumb [⟨.calibration, "run", ""⟩])

/-- A derived direction that cites no calibration. -/
def derivedInfo : SolverInfo ℚ := onUnit (ruleOfThumb [])

def thumbSolvers : SolverMap ℚ Unit := fun id =>
  if id = "thumb" then some (thumbInfo, shiftFn (1 / 2))
  else if id = "exact" then some (onUnit (plainInfo (plainSolver "exact" ["x"] [("y", 0)] 1 .both)),
    shiftFn 0)
  else none

/-- Every draw is in the middle. -/
def middle : ℤ → ℕ → ℚ := fun _ _ => 1 / 2

def runDigest : SolverId → SolverId → ℤ → ℤ → JsonFloat ℚ → JsonFloat ℚ → String :=
  fun _ _ _ _ _ _ => "run"

def unitEnv : ℕ → Unit × Unit := fun _ => ((), ())

def thumbSweep : Sweep ℚ Unit :=
  (prepareSweep thumbSolvers "thumb" "exact").toOption.get (by decide +kernel)

theorem prepareSweep_thumb : prepareSweep thumbSolvers "thumb" "exact" = .ok thumbSweep :=
  Fallible.eq_ok_get _

/-- The record of two samples. -/
def thumbRun : CalibRecord ℚ :=
  (resultOf runDigest "thumb" "exact" 2 0 (worstErrors thumbSweep.outputs
    (evaluations middle unitEnv thumbSweep 2 0))).toOption.get (by decide +kernel)

theorem resultOf_thumb : resultOf runDigest "thumb" "exact" 2 0 (worstErrors thumbSweep.outputs
    (evaluations middle unitEnv thumbSweep 2 0)) = .ok thumbRun :=
  Fallible.eq_ok_get _

theorem middle_mem (s : ℤ) (k : ℕ) : 0 ≤ middle s k ∧ middle s k < 1 := by
  unfold middle
  norm_num

/-- Four threads record a worst error of one half. -/
theorem calibrate_iff_thumb : thumbRun.worstAbsError = .finite (1 / 2) ∧
    (∃ worstAbs worstRel,
      IsWorst (AbsErrors thumbSweep.outputs (evaluations middle unitEnv thumbSweep 2 0)) worstAbs ∧
      (.ok thumbRun : Except (CalibError ℚ) (CalibRecord ℚ))
        = .ok (recordOf runDigest "thumb" "exact" 2 0 worstAbs worstRel)) := by
  refine ⟨by decide +kernel, ?_⟩
  have hrun : Calibrate middle runDigest unitEnv thumbSolvers "thumb" "exact" 2 0 4
      (.ok thumbRun) :=
    (calibrate_serial prepareSweep_thumb _).mpr resultOf_thumb.symm
  rcases (calibrate_iff prepareSweep_thumb _).mp hrun with ⟨-, herror⟩ | ⟨-, a, b, ha, -, hr⟩
  · cases herror
  · exact ⟨a, b, ha, hr⟩

def unitRegistry (info : SolverInfo ℚ) : Except RegistryError (SolverRegistry ℚ Unit) :=
  SolverRegistry.build [] [(info, plainFn fun x => [("y", scalarArg x "x" + 1 / 2)])]

def thumbUnit : SolverRegistry ℚ Unit := (unitRegistry thumbInfo).toOption.get (by decide +kernel)

def derivedUnit : SolverRegistry ℚ Unit :=
  (unitRegistry derivedInfo).toOption.get (by decide +kernel)

theorem mem_unitRegistry {info : SolverInfo ℚ} {registry : SolverRegistry ℚ Unit}
    (h : unitRegistry info = .ok registry) (hnonempty : registry.entries ≠ []) :
    ∃ fn, (info, fn) ∈ registry.entries := by
  obtain ⟨e, he⟩ := List.exists_mem_of_ne_nil _ hnonempty
  have hmem := SolverRegistry.build_entries h e he
  rw [List.mem_singleton.mp hmem] at he
  exact ⟨_, he⟩

/-- At the first sample the candidate is 1 where the reference is one half. -/
theorem answers_thumb : ∃ e ∈ evaluations middle unitEnv thumbSweep 2 0,
    Answers e "y" (.finite 1) (.finite (1 / 2)) := by
  obtain ⟨e, he⟩ : ∃ e, (evaluations middle unitEnv thumbSweep 2 0).head? = some e := ⟨_, rfl⟩
  have hanswers : ((evaluations middle unitEnv thumbSweep 2 0).head?.map fun e =>
      (e.1.toOption, e.2.toOption)) = some (some [("y", .finite 1)], some [("y", .finite (1 / 2))]) := by
    decide +kernel
  rw [he, Option.map_some, Option.some.injEq, Prod.mk.injEq] at hanswers
  exact ⟨e, List.mem_of_head? he, ⟨_, _, Prod.ext (Fallible.eq_ok_of_toOption hanswers.1)
    (Fallible.eq_ok_of_toOption hanswers.2), rfl, rfl⟩⟩

theorem checkCeilings_covers_thumb :
    absError (.finite 1) (.finite (1 / 2) : JsonFloat ℚ) = .nan ∨
      (absError (.finite 1) (.finite (1 / 2))).AtMost coarse.epsAbs := by
  have hok : checkCeilings (fun _ => none) (fun _ _ => .ok thumbRun)
      (OrdMap.ofFn ["run"] fun _ => thumbRun) thumbUnit = .ok () := by decide +kernel
  have hnonempty : thumbUnit.entries ≠ [] := by
    rw [← List.length_pos_iff]
    decide +kernel
  obtain ⟨fn, hentry⟩ := mem_unitRegistry (Fallible.eq_ok_get _) hnonempty
  have hrun : Calibrate middle runDigest unitEnv thumbSolvers thumbInfo.solverId "exact" 2 0 4
      (.ok thumbRun) :=
    (calibrate_serial prepareSweep_thumb _).mpr resultOf_thumb.symm
  have hcovers := (checkCeilings_covers (shiftFn (1 / 2)) hok hentry middle_mem
    (by rfl) prepareSweep_thumb hrun (by decide +kernel) ⟨⟨.calibration, "run", ""⟩,
      by decide +kernel, by decide +kernel⟩).2
  obtain ⟨e, he, hanswers⟩ := answers_thumb
  exact (hcovers e he "y" (by decide +kernel) _ _ hanswers "y" coarse
    (by decide +kernel) (by decide +kernel)).1

/-- `y = x`, which the direction misses by one half. -/
def identityLaw : LawSides ℚ where
  lhs point := (point.lookup "y").elim (.error ()) .ok
  rhs point := (point.lookup "x").elim (.error ()) .ok

theorem checkCeilings_covers_derived_thumb :
    absError (.finite 1) (.finite (1 / 2) : JsonFloat ℚ) = .nan ∨
      (absError (.finite 1) (.finite (1 / 2))).AtMost coarse.epsAbs := by
  have hok : checkCeilings (fun _ => some "y") (fun info _ => resweepDerived middle runDigest
      (fun _ => some identityLaw) (fun _ => some "y") (fun _ => ()) info (shiftFn (1 / 2)) 256 0)
      (∅ : Records ℚ) derivedUnit = .ok () := by
    apply checkCeilings_ok.mpr
    decide +kernel
  have hnonempty : derivedUnit.entries ≠ [] := by
    rw [← List.length_pos_iff]
    decide +kernel
  obtain ⟨fn, hentry⟩ := mem_unitRegistry (Fallible.eq_ok_get _) hnonempty
  exact (checkCeilings_covers_derived (fun _ => shiftFn (1 / 2)) hok hentry
    (by decide +kernel) rfl rfl (by decide +kernel) (.finite 1) (.finite (1 / 2))
    (by decide +kernel) "y" coarse (by decide +kernel) (by decide +kernel)).1

end Thumb

end Calib

end Feldspar

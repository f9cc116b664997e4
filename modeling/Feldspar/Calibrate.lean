/-
Feldspar/Calibrate.lean

The calibration sweep (`calib/harness.py`): a candidate against a reference.

The sample points come from the seeded generator alone, so neither the number
of threads nor the order in which they finish changes the record
(`calibrate_iff`).  The worst errors are folded with `max`, which passes over a
nan: the record holds the greatest of the errors that are numbers or infinite.

What the record says about a declared accuracy is in `CeilingCoverage`.
-/
import Feldspar.Calibration
import Feldspar.Lib.Pool

set_option linter.unusedSectionVars false

namespace Feldspar

namespace Calib

variable {K : Type} [Field K] [LinearOrder K] {Env : Type}

/-! ### The sweep -/

/-- What a solver answers at a point, with its infinities and nans.  Every call
has an environment of its own. -/
abbrev FloatFn (K Env : Type) := Env → PortMap K → Except (SolveError K) (List (Port × JsonFloat K))

/-- `_solver_map`. -/
abbrev SolverMap (K Env : Type) [Field K] [LinearOrder K] :=
  SolverId → Option (SolverInfo K × FloatFn K Env)

def sharedOutputs (cand ref : SolverInfo K) : List Port :=
  (Std.ExtTreeSet.ofList (cand.outputs.filter fun p => p ∈ ref.outputs) compare).toList

/-- The ports in both boxes that either solver has as an input, sorted. -/
def sharedPorts (a b : SolverInfo K) : List Port :=
  a.domain.portBox.keys.filter fun p => p ∈ b.domain.portBox ∧ (p ∈ a.inputs ∨ p ∈ b.inputs)

/-- The overlap at a port of both boxes, if there is one. -/
def overlap (a b : SolverInfo K) (port : Port) : Except Unit (Port × K × K) :=
  match a.domain.portBox[port]?, b.domain.portBox[port]? with
  | some ivA, some ivB =>
      let lo := max ivA.lo ivB.lo
      let hi := min ivA.hi ivB.hi
      if lo > hi then .error () else .ok (port, lo, hi)
  | _, _ => .error ()

/-- `_shared_input_box`, in the order of its ports; one port without an overlap
empties it. -/
def sharedInputBox (a b : SolverInfo K) : List (Port × K × K) :=
  ((sharedPorts a b).mapM (overlap a b)).toOption.getD []

/-- What `calibrate` has looked up before it samples. -/
structure Sweep (K Env : Type) [Field K] [LinearOrder K] where
  cand : SolverInfo K × FloatFn K Env
  ref : SolverInfo K × FloatFn K Env
  outputs : List Port
  box : List (Port × K × K)

def prepareSweep (solvers : SolverMap K Env) (solverId referenceId : SolverId) :
    Except (CalibError K) (Sweep K Env) :=
  match solvers solverId with
  | none => .error (.unknownSolver solverId)
  | some cand =>
      match solvers referenceId with
      | none => .error (.unknownSolver referenceId)
      | some ref =>
          let outputs := sharedOutputs cand.1 ref.1
          let box := sharedInputBox cand.1 ref.1
          if outputs.isEmpty then .error (.domainMismatch solverId referenceId)
          else if box.isEmpty then .error (.domainMismatch solverId referenceId)
          else .ok ⟨cand, ref, outputs, box⟩

section Sample

-- `random.Random(seed).random()`, by the number of the draw
variable (random : ℤ → ℕ → K)

/-- `rng.uniform(lo, hi)`. -/
def uniform (u lo hi : K) : K := lo + (hi - lo) * u

/-- The sample point `i`: one draw for each port. -/
def samplePoint (seed : ℤ) (box : List (Port × K × K)) (i : ℕ) : List (Port × K) :=
  box.mapIdx fun j e => (e.1, uniform (random seed (i * box.length + j)) e.2.1 e.2.2)

def samplePoints (seed : ℤ) (box : List (Port × K × K)) (nSamples : ℤ) : List (List (Port × K)) :=
  (List.range nSamples.toNat).map (samplePoint random seed box)

/-- `{p: v for p, v in point.items() if p in inputs}`. -/
def restrictTo (inputs : List Port) (point : List (Port × K)) : PortMap K :=
  .ofList (point.filter fun e => e.1 ∈ inputs) compare

/-- What the candidate and the reference answer at one point. -/
abbrev Evaluation (K : Type) :=
  Except (SolveError K) (List (Port × JsonFloat K)) × Except (SolveError K) (List (Port × JsonFloat K))

/-- `_evaluate`; each sample has environments of its own. -/
def evaluate (env : ℕ → Env × Env) (sweep : Sweep K Env) (point : List (Port × K) × ℕ) :
    Evaluation K :=
  (sweep.cand.2 (env point.2).1 (restrictTo sweep.cand.1.inputs point.1),
    sweep.ref.2 (env point.2).2 (restrictTo sweep.ref.1.inputs point.1))

end Sample

/-- The results of `executor.map`, or of the serial fallthrough. -/
def MapsOver {α β : Type} (f : α → β) (threadCount : ℤ) (tasks : List α) (results : List β) : Prop :=
  if threadCount ≤ 1 then results = tasks.map f
  else Retry.Returns (Pool.Step (fun task => (.ok (f task) : Except Unit β)) threadCount.toNat)
    (Pool.State.start tasks) (.ok results)

/-! ### The worst errors -/

/-- `worst_abs_error`, `worst_rel_error` and `n_valid`. -/
structure Worst (K : Type) where
  abs : JsonFloat K
  rel : JsonFloat K
  nValid : ℕ

def absError (candV refV : JsonFloat K) : JsonFloat K := (candV.add refV.neg).abs

def relError (candV refV : JsonFloat K) : JsonFloat K := (absError candV refV).div refV.abs

/-- One shared output of a sample. -/
def foldOutput (cand ref : List (Port × JsonFloat K)) (worst : Worst K) (port : Port) : Worst K :=
  match cand.lookup port, ref.lookup port with
  | some candV, some refV =>
      { worst with
        abs := worst.abs.pick (absError candV refV)
        rel := if refV ≠ .finite 0 then worst.rel.pick (relError candV refV) else worst.rel }
  | _, _ => worst

/-- One sample; it counts if both have answered. -/
def foldSample (outputs : List Port) (worst : Worst K) (evaluation : Evaluation K) : Worst K :=
  match evaluation with
  | (.ok cand, .ok ref) =>
      let worst := outputs.foldl (foldOutput cand ref) worst
      { worst with nValid := worst.nValid + 1 }
  | _ => worst

def worstErrors (outputs : List Port) (evaluations : List (Evaluation K)) : Worst K :=
  evaluations.foldl (foldSample outputs) ⟨.finite 0, .finite 0, 0⟩

section Calibrate

variable (random : ℤ → ℕ → K)
-- `canonical_digest` of the other fields of a record
variable (canonicalDigest : SolverId → SolverId → ℤ → ℤ → JsonFloat K → JsonFloat K → String)

/-- The record of the worst errors. -/
def recordOf (solverId referenceId : SolverId) (nSamples seed : ℤ)
    (worstAbsError worstRelError : JsonFloat K) : CalibRecord K :=
  { solverId := solverId
    referenceId := referenceId
    nSamples := nSamples
    seed := seed
    worstAbsError := worstAbsError
    worstRelError := worstRelError
    digest := canonicalDigest solverId referenceId nSamples seed worstAbsError worstRelError }

/-- Without a sample that both have answered there is nothing to record. -/
def resultOf (solverId referenceId : SolverId) (nSamples seed : ℤ) (worst : Worst K) :
    Except (CalibError K) (CalibRecord K) :=
  if worst.nValid = 0 then .error (.domainMismatch solverId referenceId)
  else .ok (recordOf canonicalDigest solverId referenceId nSamples seed worst.abs worst.rel)

/-- `calibrate` may return `r`. -/
def Calibrate (env : ℕ → Env × Env) (solvers : SolverMap K Env) (solverId referenceId : SolverId)
    (nSamples seed threadCount : ℤ) (r : Except (CalibError K) (CalibRecord K)) : Prop :=
  match prepareSweep solvers solverId referenceId with
  | .error e => r = .error e
  | .ok sweep => ∃ evaluations,
      MapsOver (evaluate env sweep) threadCount
        (samplePoints random seed sweep.box nSamples).zipIdx evaluations ∧
      r = resultOf canonicalDigest solverId referenceId nSamples seed
        (worstErrors sweep.outputs evaluations)

end Calibrate

/-! ### The worst of a set of errors -/

/-- The greatest of 0 and those errors that are not nan. -/
structure IsWorst (P : JsonFloat K → Prop) (w : JsonFloat K) : Prop where
  ne_nan : w ≠ .nan
  nonneg : (JsonFloat.finite 0).Le w
  le : ∀ x, P x → x ≠ .nan → x.Le w
  attained : w = .finite 0 ∨ P w

theorem IsWorst.unique {P : JsonFloat K → Prop} {w w' : JsonFloat K} (h : IsWorst P w)
    (h' : IsWorst P w') : w = w' := by
  have hle : ∀ {v v'}, IsWorst P v → IsWorst P v' → v.Le v' := by
    intro v v' hv hv'
    rcases hv.attained with rfl | hP
    · exact hv'.nonneg
    · exact hv'.le v hP hv.ne_nan
  exact JsonFloat.le_antisymm (hle h h') (hle h' h)

theorem isWorst_zero : IsWorst (fun _ : JsonFloat K => False) (.finite 0) where
  ne_nan := by simp
  nonneg := le_refl (0 : K)
  le := fun _ h => h.elim
  attained := Or.inl rfl

/-- `max` passes over a nan. -/
theorem IsWorst.pick {P : JsonFloat K → Prop} {w : JsonFloat K} (h : IsWorst P w)
    (x : JsonFloat K) : IsWorst (fun y => P y ∨ y = x) (w.pick x) := by
  unfold JsonFloat.pick
  split_ifs with hlt
  · have hle : w.Le x := JsonFloat.le_of_lt hlt
    have hx : x ≠ .nan := by
      rintro rfl
      cases w <;> exact hlt
    refine ⟨hx, h.nonneg.trans hle, fun y hy hne => ?_, Or.inr (Or.inr rfl)⟩
    rcases hy with hy | rfl
    · exact (h.le y hy hne).trans hle
    · exact JsonFloat.le_refl_iff.mpr hx
  · refine ⟨h.ne_nan, h.nonneg, fun y hy hne => ?_, h.attained.imp_right Or.inl⟩
    rcases hy with hy | rfl
    · exact h.le y hy hne
    · exact JsonFloat.le_of_not_lt hlt h.ne_nan hne

theorem IsWorst.congr {P Q : JsonFloat K → Prop} {w : JsonFloat K} (h : IsWorst P w)
    (hPQ : ∀ x, P x ↔ Q x) : IsWorst Q w := by
  obtain rfl : P = Q := funext fun x => propext (hPQ x)
  exact h

/-- Both solvers have answered with these values at a shared output. -/
structure Answers (evaluation : Evaluation K) (port : Port) (candV refV : JsonFloat K) : Prop where
  both : ∃ cand ref, evaluation = (.ok cand, .ok ref) ∧ cand.lookup port = some candV ∧
    ref.lookup port = some refV

/-- Both solvers have answered. -/
def Answered (evaluation : Evaluation K) : Prop := ∃ cand ref, evaluation = (.ok cand, .ok ref)

/-- The absolute errors of some samples. -/
def AbsErrors (outputs : List Port) (evaluations : List (Evaluation K)) (x : JsonFloat K) : Prop :=
  ∃ e ∈ evaluations, ∃ port ∈ outputs, ∃ candV refV, Answers e port candV refV ∧
    x = absError candV refV

/-- The relative errors: none against a reference of zero. -/
def RelErrors (outputs : List Port) (evaluations : List (Evaluation K)) (x : JsonFloat K) : Prop :=
  ∃ e ∈ evaluations, ∃ port ∈ outputs, ∃ candV refV, Answers e port candV refV ∧
    refV ≠ .finite 0 ∧ x = relError candV refV

/-- What one output adds to the errors. -/
theorem foldOutput_spec (cand ref : List (Port × JsonFloat K)) {P Q : JsonFloat K → Prop}
    {w : Worst K} (hP : IsWorst P w.abs) (hQ : IsWorst Q w.rel) (port : Port) :
    IsWorst (fun x => P x ∨ ∃ candV refV, cand.lookup port = some candV ∧
      ref.lookup port = some refV ∧ x = absError candV refV) (foldOutput cand ref w port).abs ∧
    IsWorst (fun x => Q x ∨ ∃ candV refV, cand.lookup port = some candV ∧
      ref.lookup port = some refV ∧ refV ≠ .finite 0 ∧ x = relError candV refV)
      (foldOutput cand ref w port).rel ∧
    (foldOutput cand ref w port).nValid = w.nValid := by
  unfold foldOutput
  rcases cand.lookup port with - | candV
  · exact ⟨hP.congr fun x => by simp, hQ.congr fun x => by simp, rfl⟩
  · rcases ref.lookup port with - | refV
    · exact ⟨hP.congr fun x => by simp, hQ.congr fun x => by simp, rfl⟩
    · refine ⟨(hP.pick _).congr fun x => by simp, ?_, rfl⟩
      show IsWorst _ (if refV ≠ .finite 0 then w.rel.pick (relError candV refV) else w.rel)
      split_ifs with hzero
      · exact (hQ.pick _).congr fun x => by simp [hzero]
      · rw [not_not] at hzero
        exact hQ.congr fun x => by simp [hzero]

theorem foldOutputs_spec (cand ref : List (Port × JsonFloat K)) (ports : List Port) :
    ∀ {P Q : JsonFloat K → Prop} {w : Worst K}, IsWorst P w.abs → IsWorst Q w.rel →
    IsWorst (fun x => P x ∨ ∃ port ∈ ports, ∃ candV refV, cand.lookup port = some candV ∧
      ref.lookup port = some refV ∧ x = absError candV refV)
      (ports.foldl (foldOutput cand ref) w).abs ∧
    IsWorst (fun x => Q x ∨ ∃ port ∈ ports, ∃ candV refV, cand.lookup port = some candV ∧
      ref.lookup port = some refV ∧ refV ≠ .finite 0 ∧ x = relError candV refV)
      (ports.foldl (foldOutput cand ref) w).rel ∧
    (ports.foldl (foldOutput cand ref) w).nValid = w.nValid := by
  induction ports with
  | nil => exact fun hP hQ => ⟨hP.congr fun x => by simp, hQ.congr fun x => by simp, rfl⟩
  | cons port ports ih =>
      intro P Q w hP hQ
      obtain ⟨habs, hrel, hvalid⟩ := foldOutput_spec cand ref hP hQ port
      obtain ⟨habs', hrel', hvalid'⟩ := ih habs hrel
      refine ⟨habs'.congr fun x => ?_, hrel'.congr fun x => ?_, hvalid'.trans hvalid⟩
      · rw [List.exists_mem_cons_iff, or_assoc]
      · rw [List.exists_mem_cons_iff, or_assoc]

/-- What the fold over the samples has seen. -/
structure Folded (outputs : List Port) (evaluations : List (Evaluation K)) (w : Worst K) : Prop where
  abs : IsWorst (AbsErrors outputs evaluations) w.abs
  rel : IsWorst (RelErrors outputs evaluations) w.rel
  none_valid : w.nValid = 0 ↔ ∀ e ∈ evaluations, ¬ Answered e

/-- A sample that one of the two has not answered adds nothing. -/
theorem Folded.skip {outputs : List Port} {evaluations : List (Evaluation K)} {w : Worst K}
    (h : Folded outputs evaluations w) {e : Evaluation K} (hnone : ¬ Answered e) :
    Folded outputs (evaluations ++ [e]) w := by
  have hno : ∀ port candV refV, ¬ Answers e port candV refV := by
    rintro port candV refV ⟨cand, ref, he, -⟩
    exact hnone ⟨cand, ref, he⟩
  refine ⟨h.abs.congr fun x => ?_, h.rel.congr fun x => ?_, h.none_valid.trans ?_⟩
  · simp [AbsErrors, or_and_right, exists_or, hno]
  · simp [RelErrors, or_and_right, exists_or, hno]
  · simp only [List.forall_mem_append, List.forall_mem_singleton, hnone, not_false_eq_true,
      and_true]

theorem Folded.sample {outputs : List Port} {evaluations : List (Evaluation K)} {w : Worst K}
    (h : Folded outputs evaluations w) (e : Evaluation K) :
    Folded outputs (evaluations ++ [e]) (foldSample outputs w e) := by
  unfold foldSample
  rcases e with ⟨- | cand, - | ref⟩
  · exact h.skip fun ⟨_, _, he⟩ => by cases he
  · exact h.skip fun ⟨_, _, he⟩ => by cases he
  · exact h.skip fun ⟨_, _, he⟩ => by cases he
  · obtain ⟨habs, hrel, -⟩ := foldOutputs_spec cand ref outputs h.abs h.rel
    have hboth : ∀ port candV refV,
        Answers ((.ok cand, .ok ref) : Evaluation K) port candV refV ↔
          cand.lookup port = some candV ∧ ref.lookup port = some refV := by
      intro port candV refV
      constructor
      · rintro ⟨cand', ref', he, hlookups⟩
        cases he
        exact hlookups
      · exact fun hlookups => ⟨cand, ref, rfl, hlookups⟩
    refine ⟨habs.congr fun x => ?_, hrel.congr fun x => ?_, ?_⟩
    · simp [AbsErrors, or_and_right, exists_or, hboth, and_assoc]
    · simp [RelErrors, or_and_right, exists_or, hboth, and_assoc]
    · refine iff_of_false (Nat.succ_ne_zero _) fun hnone => ?_
      exact hnone (.ok cand, .ok ref) (List.mem_append_right _ (List.mem_singleton_self _))
        ⟨cand, ref, rfl⟩

theorem folded_worstErrors (outputs : List Port) (evaluations : List (Evaluation K)) :
    Folded outputs evaluations (worstErrors outputs evaluations) := by
  have hfold : ∀ (l done : List (Evaluation K)) (w : Worst K), Folded outputs done w →
      Folded outputs (done ++ l) (l.foldl (foldSample outputs) w) := by
    intro l
    induction l with
    | nil =>
        intro done w h
        rwa [List.append_nil]
    | cons e l ih =>
        intro done w h
        rw [List.append_cons, List.foldl_cons]
        exact ih _ _ (h.sample e)
  refine hfold evaluations [] _ ⟨isWorst_zero.congr fun x => ?_, isWorst_zero.congr fun x => ?_, ?_⟩
  · simp [AbsErrors]
  · simp [RelErrors]
  · simp

/-! ### The points -/

section Points

variable [IsStrictOrderedRing K]

theorem uniform_mem {u lo hi : K} (hu : 0 ≤ u) (hu' : u < 1) (hle : lo ≤ hi) :
    lo ≤ uniform u lo hi ∧ uniform u lo hi ≤ hi := by
  have hwidth : 0 ≤ hi - lo := sub_nonneg.mpr hle
  unfold uniform
  constructor
  · exact le_add_of_nonneg_right (mul_nonneg hwidth hu)
  · rw [← le_sub_iff_add_le']
    exact mul_le_of_le_one_right hwidth hu'.le

/-- A port of the shared box is bounded by both boxes. -/
theorem mem_sharedInputBox {a b : SolverInfo K} {port : Port} {lo hi : K}
    (h : (port, lo, hi) ∈ sharedInputBox a b) : lo ≤ hi ∧ ∃ ivA ivB,
      a.domain.portBox[port]? = some ivA ∧ b.domain.portBox[port]? = some ivB ∧
      lo = max ivA.lo ivB.lo ∧ hi = min ivA.hi ivB.hi := by
  unfold sharedInputBox at h
  rcases hbox : (sharedPorts a b).mapM (overlap a b) with e | box
  · rw [hbox] at h
    exact absurd h List.not_mem_nil
  · rw [hbox] at h
    obtain ⟨port', -, hport⟩ := Fallible.exists_of_mem_right (Fallible.mapM_eq_ok.mp hbox) h
    unfold overlap at hport
    rcases hA : a.domain.portBox[port']? with - | ivA
    · rw [hA] at hport
      cases hport
    · rcases hB : b.domain.portBox[port']? with - | ivB
      · rw [hA, hB] at hport
        cases hport
      · rw [hA, hB] at hport
        simp only at hport
        split_ifs at hport with hinverted
        cases hport
        exact ⟨not_lt.mp hinverted, ivA, ivB, hA, hB, rfl, rfl⟩

/-- A sample point is in both boxes. -/
theorem samplePoint_mem {random : ℤ → ℕ → K} (hrandom : ∀ s k, 0 ≤ random s k ∧ random s k < 1)
    {a b : SolverInfo K} {seed : ℤ} {i : ℕ} {port : Port} {x : K}
    (h : (port, x) ∈ samplePoint random seed (sharedInputBox a b) i) : ∃ ivA ivB,
      a.domain.portBox[port]? = some ivA ∧ b.domain.portBox[port]? = some ivB ∧
      ivA.contains x ∧ ivB.contains x := by
  unfold samplePoint at h
  obtain ⟨j, hj, heq⟩ := List.mem_mapIdx.mp h
  obtain ⟨hport, hx⟩ := Prod.mk.inj heq
  have hmem : (port, (sharedInputBox a b)[j].2.1, (sharedInputBox a b)[j].2.2)
      ∈ sharedInputBox a b := by
    rw [← hport]
    exact List.getElem_mem hj
  obtain ⟨hle, ivA, ivB, hA, hB, hlo, hhi⟩ := mem_sharedInputBox hmem
  obtain ⟨hu, hu'⟩ := hrandom seed (i * (sharedInputBox a b).length + j)
  obtain ⟨hge, hup⟩ := uniform_mem hu hu' hle
  rw [hx, hlo] at hge
  rw [hx, hhi] at hup
  exact ⟨ivA, ivB, hA, hB, ⟨(le_max_left _ _).trans hge, hup.trans (min_le_left _ _)⟩,
    ⟨(le_max_right _ _).trans hge, hup.trans (min_le_right _ _)⟩⟩

end Points

/-! ### The record -/

/-- The threads and the order in which they finish are of no account. -/
theorem mapsOver_iff {α β : Type} {f : α → β} {threadCount : ℤ} {tasks : List α}
    {results : List β} : MapsOver f threadCount tasks results ↔ results = tasks.map f := by
  have hmap : tasks.mapM (fun task => (.ok (f task) : Except Unit β)) = .ok (tasks.map f) :=
    List.mapM_pure
  unfold MapsOver
  split_ifs with hserial
  · rfl
  · constructor
    · intro hreturns
      exact Except.ok.inj ((Pool.returns_eq hreturns).trans hmap)
    · rintro rfl
      rw [← hmap]
      apply Pool.returns_mapM
      omega

section Record

variable {random : ℤ → ℕ → K}
variable {canonicalDigest : SolverId → SolverId → ℤ → ℤ → JsonFloat K → JsonFloat K → String}
variable {env : ℕ → Env × Env} {solvers : SolverMap K Env} {solverId referenceId : SolverId}
  {nSamples seed threadCount : ℤ} {sweep : Sweep K Env}

/-- The evaluations of a sweep, one after the other. -/
def evaluations (random : ℤ → ℕ → K) (env : ℕ → Env × Env) (sweep : Sweep K Env)
    (nSamples seed : ℤ) : List (Evaluation K) :=
  (samplePoints random seed sweep.box nSamples).zipIdx.map (evaluate env sweep)

/-- A sweep returns what it returns with one thread. -/
theorem calibrate_serial (hsweep : prepareSweep solvers solverId referenceId = .ok sweep)
    (r : Except (CalibError K) (CalibRecord K)) :
    Calibrate random canonicalDigest env solvers solverId referenceId nSamples seed threadCount r ↔
      r = resultOf canonicalDigest solverId referenceId nSamples seed
        (worstErrors sweep.outputs (evaluations random env sweep nSamples seed)) := by
  unfold Calibrate
  rw [hsweep]
  simp only [mapsOver_iff, exists_eq_left]
  rfl

/-- A record has the worst of its samples. -/
theorem record_worst (hsweep : prepareSweep solvers solverId referenceId = .ok sweep)
    {record : CalibRecord K} (h : Calibrate random canonicalDigest env solvers solverId referenceId
      nSamples seed threadCount (.ok record)) :
    IsWorst (AbsErrors sweep.outputs (evaluations random env sweep nSamples seed))
        record.worstAbsError ∧
      IsWorst (RelErrors sweep.outputs (evaluations random env sweep nSamples seed))
        record.worstRelError := by
  have hresult := (calibrate_serial hsweep _).mp h
  unfold resultOf at hresult
  split_ifs at hresult with hnone
  obtain rfl := Except.ok.inj hresult
  have hfolded := folded_worstErrors sweep.outputs (evaluations random env sweep nSamples seed)
  exact ⟨hfolded.abs, hfolded.rel⟩

/-- **The record of a sweep.**  With any number of threads and in any order in
which they finish, `calibrate` returns one result: without a sample that both
solvers answer, an error; else the record with the greatest absolute and the
greatest relative error that is not nan. -/
theorem calibrate_iff (hsweep : prepareSweep solvers solverId referenceId = .ok sweep)
    (r : Except (CalibError K) (CalibRecord K)) :
    Calibrate random canonicalDigest env solvers solverId referenceId nSamples seed threadCount r ↔
      ((∀ e ∈ evaluations random env sweep nSamples seed, ¬ Answered e) ∧
        r = .error (.domainMismatch solverId referenceId)) ∨
      ((∃ e ∈ evaluations random env sweep nSamples seed, Answered e) ∧ ∃ worstAbs worstRel,
        IsWorst (AbsErrors sweep.outputs (evaluations random env sweep nSamples seed)) worstAbs ∧
        IsWorst (RelErrors sweep.outputs (evaluations random env sweep nSamples seed)) worstRel ∧
        r = .ok (recordOf canonicalDigest solverId referenceId nSamples seed worstAbs worstRel)) := by
  rw [calibrate_serial hsweep]
  unfold resultOf
  have hfolded := folded_worstErrors sweep.outputs (evaluations random env sweep nSamples seed)
  set worst := worstErrors sweep.outputs (evaluations random env sweep nSamples seed)
  split_ifs with hnone
  · have hall := hfolded.none_valid.mp hnone
    constructor
    · exact fun hr => Or.inl ⟨hall, hr⟩
    · rintro (⟨-, hr⟩ | ⟨⟨e, he, hanswered⟩, -⟩)
      · exact hr
      · exact absurd hanswered (hall e he)
  · have hsome : ∃ e ∈ evaluations random env sweep nSamples seed, Answered e := by
      by_contra hno
      exact hnone (hfolded.none_valid.mpr fun e he hanswered => hno ⟨e, he, hanswered⟩)
    constructor
    · exact fun hr => Or.inr ⟨hsome, _, _, hfolded.abs, hfolded.rel, hr⟩
    · rintro (⟨hall, -⟩ | ⟨-, worstAbs, worstRel, habs, hrel, hr⟩)
      · obtain ⟨e, he, hanswered⟩ := hsome
        exact absurd hanswered (hall e he)
      · rw [hr, habs.unique hfolded.abs, hrel.unique hfolded.rel]

end Record

end Calib

end Feldspar

/-
Feldspar/ExecuteSound.lean

The error accumulation of the executor is sound.

`Laws` gives every solver a true law.  `trueValues` composes the laws along the
route, beside the intervals and epsilons the executor carries, and `Encloses`
is the invariant between the two: the true value of every port lies in its
interval inflated by its eps.  A step keeps it (`Encloses.record`): the true
inputs are a point of the box that is swept, corner monotonicity puts the
computed value there into the hull, and the declared accuracy bounds the
distance to the law.

The solution's eps is that of the last step, so the target has to be an output
of it (`execute_sound`); `strayRoute` ends in a step beside the target.
-/
import Feldspar.Walk

set_option linter.unusedSectionVars false

namespace Feldspar

variable {K : Type} [Field K] [LinearOrder K] {Env D : Type}

/-- The true law of every solver: from its payload inputs and its true scalar
inputs to the true value of an output. -/
abbrev Laws (K : Type) := SolverId → PortMap PayloadRef → PortMap K → Port → K

/-- `x` is a point of the box. -/
def InBox (box : PortMap (Interval K)) (x : PortMap K) : Prop :=
  OrdMap.Rel (fun v iv => iv.contains v) x box

/-- The computed value at a point of the box lies between values computed at
corners of it. -/
def CornerMonotone (c : StepCall K Env) : Prop :=
  ∀ x p, InBox c.box x → p ∈ c.scalarOutputs → ∃ v, Computes c x p v ∧
    (∃ corner u, IsCorner c.box corner ∧ Computes c corner p u ∧ u ≤ v) ∧
    ∃ corner u, IsCorner c.box corner ∧ Computes c corner p u ∧ v ≤ u

/-- Over the box, the computed value is within the declared accuracy of the
law. -/
def WithinAccuracy (laws : Laws K) (c : StepCall K Env) : Prop :=
  ∀ (x : PortMap K) (p : Port) (v : K) (acc : Accuracy K), InBox c.box x → p ∈ c.scalarOutputs →
    Computes c x p v → c.info.accuracy[p]? = some acc →
    |v - laws c.info.solverId c.payloadInputs x p| ≤ acc.eps v

/-- No `SolveFn` of the registry measures its eps. -/
def NoMeasurement (reg : SolverRegistry K Env) : Prop :=
  ∀ e ∈ reg.entries, ∀ env x budget out, e.2.call env x budget = .ok out → out.measuredEps = none

/-- The values at the scalar inputs of a step. -/
def restrict (truth : PortMap K) (box : PortMap (Interval K)) : PortMap K :=
  truth.filter fun p _ => p ∈ box

theorem getElem?_restrict {truth : PortMap K} {box : PortMap (Interval K)} {p : Port} :
    (restrict truth box)[p]? = if p ∈ box then truth[p]? else none := by
  rw [restrict, Std.ExtTreeMap.getElem?_filter']
  rcases truth[p]? with - | x
  · simp
  · by_cases hp : p ∈ box <;> simp [hp]

/-- The true values after a step: its scalar outputs follow its law. -/
def trueStep (laws : Laws K) (c : StepCall K Env) (truth : PortMap K) : PortMap K :=
  truth ∪ OrdMap.ofFn c.scalarOutputs
    (laws c.info.solverId c.payloadInputs (restrict truth c.box))

section Route

variable [CanonicalDigest K D] [DecidableEq D]
variable (reg : SolverRegistry K Env) (rq : ExecRequest K Env)

/-- The laws composed along the steps, while `executeSteps` runs them. -/
def trueValues (laws : Laws K) : ℕ → List (RouteStep K) → ExecState K →
    Option (StepStore K Env D) → PortMap K → PortMap K
  | _, [], _, _, truth => truth
  | i, step :: steps, st, stepCache, truth =>
      match bindStep reg rq i step st, executeStep reg rq i step st stepCache with
      | .ok c, (.ok st, stepCache) =>
          trueValues laws (i + 1) steps st stepCache (trueStep laws c truth)
      | _, _ => truth

end Route

/-! ### The invariant -/

/-- The true value of every port lies in its interval inflated by its eps. -/
def Encloses (st : ExecState K) (truth : PortMap K) : Prop :=
  ∀ (p : Port) (iv : Interval K), st.values[p]? = some iv →
    ∃ x, truth[p]? = some x ∧ (inflate iv (st.epsMap[p]?.getD 0)).contains x

section Step

variable {reg : SolverRegistry K Env} {rq : ExecRequest K Env} {laws : Laws K}
variable {i : ℕ} {step : RouteStep K} {st : ExecState K} {c : StepCall K Env} {truth : PortMap K}

/-- The true inputs are a point of the box. -/
theorem Encloses.inBox (h : Encloses st truth) (hb : Binds reg rq i step st c) :
    InBox c.box (restrict truth c.box) := by
  have hval : ∀ (p : Port) (iv : Interval K), c.box[p]? = some iv →
      ∃ x, truth[p]? = some x ∧ iv.contains x := by
    intro p iv hiv
    obtain ⟨-, -, value, hv, rfl⟩ := (hb.box p iv).mp hiv
    exact h p value hv
  refine ⟨fun p => ?_, fun p x iv hx hiv => ?_⟩
  · rw [OrdMap.mem_iff_exists, getElem?_restrict]
    constructor
    · rintro ⟨x, hx⟩
      by_contra hp
      rw [if_neg hp] at hx
      cases hx
    · intro hp
      obtain ⟨iv, hiv⟩ := OrdMap.mem_iff_exists.mp hp
      obtain ⟨x, hx, -⟩ := hval p iv hiv
      exact ⟨x, by rw [if_pos hp, hx]⟩
  · obtain ⟨x', hx', hcon⟩ := hval p iv hiv
    rw [getElem?_restrict, if_pos (OrdMap.mem_iff_exists.mpr ⟨iv, hiv⟩), hx'] at hx
    exact Option.some.inj hx ▸ hcon

variable [IsStrictOrderedRing K]

/-- A completed step keeps the invariant. -/
theorem Encloses.record (h : Encloses st truth) (hb : Binds reg rq i step st c)
    (hmono : CornerMonotone c) (hacc : WithinAccuracy laws c) {entry : StepEntry K}
    {log : SweepLog K} (hs : Swept c entry.hull log)
    (heps : ∀ p acc iv, p ∈ c.scalarOutputs → c.info.accuracy[p]? = some acc →
      entry.hull[p]? = some iv → acc.worstOver iv ≤ entry.stepEps) :
    Encloses (st.record step.solverId c.info entry) (trueStep laws c truth) := by
  intro p iv hiv
  simp only [ExecState.record, Std.ExtTreeMap.getElem?_union, Std.ExtTreeMap.getElem?_map] at hiv ⊢
  rw [trueStep, Std.ExtTreeMap.getElem?_union, OrdMap.getElem?_ofFn]
  rcases hh : entry.hull[p]? with - | hull
  · -- the step does not touch the port
    have hp : p ∉ c.scalarOutputs := by
      rw [← hs.mem_hull, OrdMap.mem_iff_exists, hh]
      simp
    rw [hh, Option.none_or] at hiv
    rw [if_neg hp]
    exact h p iv hiv
  · have hp : p ∈ c.scalarOutputs := (hs.mem_hull p).mp (OrdMap.mem_iff_exists.mpr ⟨hull, hh⟩)
    rw [hh, Option.some_or] at hiv
    obtain rfl := Option.some.inj hiv
    rw [if_pos hp]
    refine ⟨_, rfl, ?_⟩
    -- the value computed at the true inputs is in the hull
    have hx := h.inBox hb
    obtain ⟨v, hv, ⟨c₁, u₁, hc₁, hu₁, hle₁⟩, c₂, u₂, hc₂, hu₂, hle₂⟩ := hmono _ p hx hp
    have hhull := hs.hull p hull hh
    have hin : hull.contains v :=
      ⟨(hhull.contains u₁ ⟨c₁, hc₁, hu₁⟩).1.trans hle₁,
        hle₂.trans (hhull.contains u₂ ⟨c₂, hc₂, hu₂⟩).2⟩
    obtain ⟨acc, ha⟩ : ∃ acc, c.info.accuracy[p]? = some acc := by
      refine OrdMap.mem_iff_exists.mp (((reg.registrable _ _ _ hb.registered).accuracy p).mpr ?_)
      exact (mem_scalarOutputs.mp hp).1
    refine inflate_contains hin ?_
    calc |v - laws c.info.solverId c.payloadInputs (restrict truth c.box) p|
        ≤ acc.eps v := hacc _ p v acc hx hp hv ha
      _ ≤ acc.worstOver hull := acc.eps_le_worstOver hin
      _ ≤ entry.stepEps := heps p acc hull hp ha hh

end Step

/-! ### The walk -/

section Run

variable [CanonicalDigest K D] [DecidableEq D]
variable {reg : SolverRegistry K Env} {rq : ExecRequest K Env} {laws : Laws K}

variable [IsStrictOrderedRing K]

/-- What a completed step is charged, where nothing is measured. -/
theorem swept_of_runStep (hmeas : NoMeasurement reg) {i : ℕ} {step : RouteStep K}
    {st : ExecState K} {c : StepCall K Env} (hb : Binds reg rq i step st c) {entry : StepEntry K}
    {stepCache : Option (StepStore K Env D)} (h : runStep none c = (.ok entry, stepCache)) :
    (∃ log, Swept c entry.hull log) ∧ 0 ≤ entry.stepEps ∧
      ∀ p acc iv, p ∈ c.scalarOutputs → c.info.accuracy[p]? = some acc →
        entry.hull[p]? = some iv → acc.worstOver iv ≤ entry.stepEps := by
  rw [runStep_none] at h
  obtain ⟨log, hs, heps⟩ := sweepStep_ok (Prod.mk.inj h).1
  have hnil : log.measured = [] := by
    refine List.eq_nil_iff_forall_not_mem.mpr fun eps hm => ?_
    obtain ⟨corner, out, -, hout, hm⟩ := (hs.measured eps).mp hm
    obtain ⟨raw, hraw, hchk⟩ := (cornerFn_ok hout).2.2
    have hentry : (c.info, c.fn) ∈ reg.entries := SolverRegistry.mem_entries.mpr (by
      rw [reg.key_eq _ _ _ hb.registered]
      exact hb.registered)
    rw [hmeas _ hentry _ _ _ raw hraw] at hchk
    rw [← Except.ok.inj hchk] at hm
    cases hm
  rw [hnil] at heps
  exact ⟨⟨log, hs⟩, sweepStep_eps_nonneg (Prod.mk.inj h).1, (realizedEps_declared heps).1⟩

/-- The walk carries the true values along. -/
theorem encloses_trueValues (hmeas : NoMeasurement reg)
    (hsteps : ∀ i c, Sweeps reg rq (none : Option (StepStore K Env D)) i c →
      CornerMonotone c ∧ WithinAccuracy laws c) :
    ∀ {steps : List (RouteStep K)} {i : ℕ} {st st' : ExecState K} {truth : PortMap K}
      {stepCache : Option (StepStore K Env D)},
      Walks reg rq (none : Option (StepStore K Env D)) i st none →
      rq.route.steps.drop i = steps → Encloses st truth →
      executeSteps reg rq i steps st none = (.ok st', stepCache) →
      Encloses st' (trueValues reg rq laws i steps st (none : Option (StepStore K Env D)) truth)
  | [], i, st, st', truth, stepCache, _, _, ht, h => by
      cases h
      exact ht
  | step :: steps, i, st, st', truth, stepCache, hw, hd, ht, h => by
      have hstep : rq.route.steps[i]? = some step := by
        rw [← List.head?_drop, hd]
        rfl
      have hrest : rq.route.steps.drop (i + 1) = steps := by
        rw [← List.tail_drop, hd]
        rfl
      unfold executeSteps at h
      unfold trueValues
      rcases hx : executeStep reg rq i step st (none : Option (StepStore K Env D)) with
        ⟨e | st₁, cache₁⟩ <;> simp only [hx] at h
      · cases h
      obtain ⟨c, entry, hc⟩ := executeStep_ok.mp hx
      have hnone : cache₁ = none := by
        have := hc.run
        rw [runStep_none] at this
        exact (Prod.mk.inj this).2.symm
      subst hnone
      have hb := bindStep_ok hc.bind
      obtain ⟨hmono, hacc⟩ := hsteps i c ⟨step, st, none, hstep, hw, hc.bind, rfl⟩
      obtain ⟨⟨log, hs⟩, -, heps⟩ := swept_of_runStep hmeas hb hc.run
      rw [hc.bind]
      refine encloses_trueValues hmeas hsteps (hw.step hstep hx) hrest ?_ h
      rw [hc.state]
      exact ht.record hb hmono hacc hs heps

/-- The eps of every output of the last step is at most the final eps. -/
structure LastEps (reg : SolverRegistry K Env) (rq : ExecRequest K Env) (i : ℕ)
    (st : ExecState K) : Prop where
  payload : ∀ p, isPayloadPort reg.ports p = true → st.epsMap[p]?.getD 0 = 0
  last : ∀ step, i ≠ 0 → rq.route.steps[i - 1]? = some step →
    ∃ info fn, reg.solvers[step.solverId]? = some (info, fn) ∧
      ∀ p ∈ info.outputs, st.epsMap[p]?.getD 0 ≤ st.finalEps

theorem Walks.lastEps (hmeas : NoMeasurement reg) {i : ℕ} {st : ExecState K}
    {stepCache : Option (StepStore K Env D)}
    (h : Walks reg rq (none : Option (StepStore K Env D)) i st stepCache) :
    LastEps reg rq i st := by
  refine (h.invariant (I := fun i st stepCache => LastEps reg rq i st ∧ stepCache = none)
    ⟨⟨fun p _ => ?_, fun step hi => absurd rfl hi⟩, rfl⟩ ?_).1
  · simp only [ExecState.init, Std.ExtTreeMap.getElem?_map]
    cases rq.known[p]? <;> rfl
  · rintro i step st stepCache c entry st' stepCache' hstep hc ⟨hinv, rfl⟩
    have hb := bindStep_ok hc.bind
    obtain ⟨⟨log, hs⟩, hnn, -⟩ := swept_of_runStep hmeas hb hc.run
    -- a step sets the eps of its scalar outputs and keeps the others
    have hget : ∀ p : Port, st'.epsMap[p]?.getD 0 =
        if p ∈ c.scalarOutputs then entry.stepEps else st.epsMap[p]?.getD 0 := by
      intro p
      simp only [hc.state, ExecState.record, Std.ExtTreeMap.getElem?_union,
        Std.ExtTreeMap.getElem?_map]
      by_cases hp : p ∈ c.scalarOutputs
      · obtain ⟨iv, hiv⟩ := OrdMap.mem_iff_exists.mp ((hs.mem_hull p).mpr hp)
        simp [hiv, hp]
      · have : entry.hull[p]? = none :=
          Std.ExtTreeMap.getElem?_eq_none fun hm => hp ((hs.mem_hull p).mp hm)
        simp [this, hp]
    have hpay : ∀ p, isPayloadPort reg.ports p = true → st'.epsMap[p]?.getD 0 = 0 := by
      intro p hp
      have hns : p ∉ c.scalarOutputs := fun hm => by
        have := (mem_scalarOutputs.mp hm).2
        rw [hb.portTable, hp] at this
        cases this
      rw [hget p, if_neg hns, hinv.payload p hp]
    refine ⟨⟨hpay, fun step' _ hs' => ?_⟩, ?_⟩
    · rw [Nat.add_sub_cancel, hstep] at hs'
      obtain rfl := Option.some.inj hs'
      refine ⟨c.info, c.fn, hb.registered, fun p hp => ?_⟩
      have hfin : st'.finalEps = entry.stepEps := by rw [hc.state]; rfl
      rcases hk : isPayloadPort reg.ports p with - | -
      · rw [hget p, if_pos (mem_scalarOutputs.mpr ⟨hp, by rw [hb.portTable, hk]⟩), hfin]
      · rw [hpay p hk, hfin]
        exact hnn
    · have := hc.run
      rw [runStep_none] at this
      exact (Prod.mk.inj this).2.symm

/-- The last step of the route, if it has one, outputs the target. -/
def EndsAtTarget (reg : SolverRegistry K Env) (route : Route K) : Prop :=
  ∀ step, route.steps.getLast? = some step →
    ∃ info fn, reg.solvers[step.solverId]? = some (info, fn) ∧ route.target ∈ info.outputs

/-- **Soundness of the error accumulation**: the true value of the target is
in the interval that `execute` returns, inflated by its eps. -/
theorem execute_sound (truth : PortMap K) (hend : EndsAtTarget reg rq.route)
    (hmeas : NoMeasurement reg)
    (hknown : ∀ (p : Port) (iv : Interval K), rq.known[p]? = some iv →
      ∃ x, truth[p]? = some x ∧ iv.contains x)
    (hsteps : ∀ i c, Sweeps reg rq (none : Option (StepStore K Env D)) i c →
      CornerMonotone c ∧ WithinAccuracy laws c)
    {solution : Solution K D} {stepCache : Option (StepStore K Env D)}
    (h : executeWithAttribution reg rq none = (.ok solution, stepCache)) :
    ∃ x, (trueValues reg rq laws 0 rq.route.steps (.init rq.known rq.payloads)
        (none : Option (StepStore K Env D)) truth)[rq.route.target]? = some x ∧
      (inflate solution.value solution.eps).contains x ∧
      |x - solution.value.midpoint| ≤ totalError solution.value solution.eps := by
  unfold executeWithAttribution at h
  rcases hx : executeSteps reg rq 0 rq.route.steps (.init rq.known rq.payloads)
    (none : Option (StepStore K Env D)) with ⟨e | st, cache⟩ <;> simp only [hx] at h
  · cases h
  have hlast := (Walks.start.executeSteps List.prefix_rfl hx).lastEps hmeas
  have hinit : Encloses (.init rq.known rq.payloads) truth := by
    intro p iv hiv
    obtain ⟨x, hx, hcon⟩ := hknown p iv hiv
    refine ⟨x, hx, ?_⟩
    have hiv' : rq.known[p]? = some iv := hiv
    simpa [ExecState.init, hiv'] using hcon
  have hfin := encloses_trueValues hmeas hsteps Walks.start (by rw [List.drop_zero]) hinit hx
  -- the solution reads the target and the final eps
  have hsol := (Prod.mk.inj h).1
  rw [Fallible.mapError_eq_ok] at hsol
  obtain ⟨value, hv, hsol⟩ := Fallible.bind_eq_ok.mp hsol
  obtain ⟨digest, -, hsol⟩ := Fallible.bind_eq_ok.mp hsol
  obtain rfl := Except.ok.inj hsol
  obtain ⟨x, hxt, hcon⟩ := hfin _ value (index_eq_ok.mp hv)
  have heps : st.epsMap[rq.route.target]?.getD 0 ≤ st.finalEps := by
    rcases hsteps : rq.route.steps with - | ⟨first, steps⟩
    · -- no step: both are 0
      rw [hsteps] at hx
      cases hx
      simp only [ExecState.init, Std.ExtTreeMap.getElem?_map]
      cases rq.known[rq.route.target]? <;> exact le_rfl
    · have hne : rq.route.steps ≠ [] := by simp [hsteps]
      have hlen : 0 < rq.route.steps.length := List.length_pos_of_ne_nil hne
      have hg : rq.route.steps[0 + rq.route.steps.length - 1]?
          = some (rq.route.steps.getLast hne) := by
        rw [Nat.zero_add, ← List.getLast?_eq_getElem?, List.getLast?_eq_some_getLast hne]
      have hpos : 0 + rq.route.steps.length ≠ 0 := by omega
      obtain ⟨info, fn, hreg, hle⟩ := hlast.last _ hpos hg
      obtain ⟨info', fn', hreg', htarget⟩ := hend _ (List.getLast?_eq_some_getLast hne)
      rw [hreg] at hreg'
      cases hreg'
      exact hle _ htarget
  have hcon' := Interval.contains_of_isSubset hcon
    (inflate_isSubset_inflate (Interval.isSubset_refl value) heps)
  exact ⟨x, hxt, hcon', abs_sub_midpoint_le hcon'⟩

end Run

/-! ### A route that ends beside its target -/

/-- `x` plus a constant, as a `SolveFn` of one input. -/
def offsetFn (input output : Port) (offset : ℚ) : SolveFn ℚ Unit :=
  plainFn fun x => [(output, scalarArg x input + offset)]

/-- The argument of `offsetFn` at a corner of a step. -/
def offsetArg (input : Port) (payloadInputs : PortMap PayloadRef) (x : PortMap ℚ) : ℚ :=
  if input ∈ payloadInputs then 0 else x[input]?.getD 0

theorem scalarArg_fullCorner (x : PortMap ℚ) (payloadInputs : PortMap PayloadRef) (input : Port) :
    scalarArg (fullCorner x payloadInputs) input = offsetArg input payloadInputs x := by
  simp only [scalarArg, fullCorner, Std.ExtTreeMap.getElem?_union, Std.ExtTreeMap.getElem?_map,
    offsetArg]
  by_cases hp : input ∈ payloadInputs
  · simp [hp]
  · rcases hx : x[input]? with - | v <;> simp [hp]

variable {c : StepCall ℚ Unit} {input output : Port} {offset : ℚ}

theorem computes_offsetFn (hfn : c.fn = offsetFn input output offset) (x : PortMap ℚ) (v : ℚ) :
    Computes c x output v ↔ v = offsetArg input c.payloadInputs x + offset := by
  simp only [Computes, invokeSolveFn, hfn, offsetFn, plainFn, Except.ok.injEq, exists_eq_left',
    scalarArg_fullCorner]
  simp [eq_comm]

theorem cornerMonotone_offsetFn (hfn : c.fn = offsetFn input output offset)
    (hout : c.info.outputs = [output]) : CornerMonotone c := by
  intro x p hx hp
  have hpo : p = output := by
    have := (mem_scalarOutputs.mp hp).1
    rwa [hout, List.mem_singleton] at this
  subst hpo
  -- the argument at `x` is between those at the two extreme corners
  have hbound : offsetArg input c.payloadInputs (c.box.map fun _ iv => iv.lo)
        ≤ offsetArg input c.payloadInputs x ∧
      offsetArg input c.payloadInputs x
        ≤ offsetArg input c.payloadInputs (c.box.map fun _ iv => iv.hi) := by
    simp only [offsetArg]
    split
    · exact ⟨le_rfl, le_rfl⟩
    · rw [Std.ExtTreeMap.getElem?_map, Std.ExtTreeMap.getElem?_map]
      rcases hb : c.box[input]? with - | iv
      · have : x[input]? = none := Std.ExtTreeMap.getElem?_eq_none fun hm => by
          obtain ⟨iv, hiv⟩ := OrdMap.mem_iff_exists.mp ((hx.keys input).mp hm)
          rw [hb] at hiv
          cases hiv
        simp [this]
      · obtain ⟨v, hv, hcon⟩ := hx.exists_left hb
        simp only [hv, Option.map_some, Option.getD_some]
        exact hcon
  refine ⟨_, (computes_offsetFn hfn x _).mpr rfl, ?_, ?_⟩
  · refine ⟨_, _, isCorner_map (f := Interval.lo) fun _ => Or.inl rfl,
      (computes_offsetFn hfn _ _).mpr rfl, ?_⟩
    linarith [hbound.1]
  · refine ⟨_, _, isCorner_map (f := Interval.hi) fun _ => Or.inr rfl,
      (computes_offsetFn hfn _ _).mpr rfl, ?_⟩
    linarith [hbound.2]

/-- Both solvers are the identity in truth. -/
def strayLaws : Laws ℚ := fun _ refs x _ => offsetArg "x" refs x

theorem withinAccuracy_offsetFn (bound : ℕ) (hfn : c.fn = offsetFn "x" output bound)
    (hinfo : c.info = plainInfo (plainSolver "A" ["x"] [(output, bound)] 1 .both) ∨
      c.info = plainInfo (plainSolver "B" ["x"] [(output, bound)] 1 .both)) :
    WithinAccuracy strayLaws c := by
  have hout : c.info.outputs = [output] := by rcases hinfo with h | h <;> rw [h] <;> rfl
  have haccuracy : c.info.accuracy = OrdMap.ofFn [output] fun o =>
      .absolute (([(output, bound)].lookup o).getD 0) (Nat.cast_nonneg _) := by
    rcases hinfo with h | h <;> rw [h] <;> rfl
  intro x p v acc _ hp hv hacc
  have hpo : p = output := by
    have := (mem_scalarOutputs.mp hp).1
    rwa [hout, List.mem_singleton] at this
  subst hpo
  rw [haccuracy] at hacc
  obtain ⟨-, rfl⟩ := OrdMap.getElem?_ofFn_eq_some.mp hacc
  rw [(computes_offsetFn hfn x v).mp hv]
  simp [strayLaws, Accuracy.eps, Accuracy.absolute]

/-- `A: x → t` is off by its whole declared accuracy of 5; `B: x → u` is
exact. -/
def strayEntries : List (SolverInfo ℚ × SolveFn ℚ Unit) :=
  [(plainInfo (plainSolver "A" ["x"] [("t", 5)] 1 .both), offsetFn "x" "t" 5),
    (plainInfo (plainSolver "B" ["x"] [("u", 0)] 1 .both), offsetFn "x" "u" 0)]

def strayRegistry : SolverRegistry ℚ Unit :=
  (SolverRegistry.build [] strayEntries).toOption.get (by decide +kernel)

def strayStep (solverId : SolverId) : RouteStep ℚ := ⟨solverId, ⟨∅, ∅⟩, 0, 1⟩

/-- The route of steps `ids` to `t`, at `x = 0`. -/
def strayRequest (ids : List SolverId) : ExecRequest ℚ Unit where
  route := ⟨"t", ids.map strayStep, 0, ids.length⟩
  known := OrdMap.ofFn ["x"] fun _ => Interval.point 0
  payloads := ∅
  epsBudget := none
  env _ := ()

def strayTruth : PortMap ℚ := OrdMap.ofFn ["x"] fun _ => 0

theorem mem_strayEntries {e : SolverInfo ℚ × SolveFn ℚ Unit} (h : e ∈ strayRegistry.entries) :
    e ∈ strayEntries :=
  SolverRegistry.build_entries (Fallible.eq_ok_get (by decide +kernel)) e h

theorem stray_noMeasurement : NoMeasurement strayRegistry := by
  intro e he env x budget out hout
  rcases List.mem_cons.mp (mem_strayEntries he) with rfl | he
  · exact (Except.ok.inj hout) ▸ rfl
  · obtain rfl := List.mem_singleton.mp he
    exact (Except.ok.inj hout) ▸ rfl

theorem stray_known (ids : List SolverId) : ∀ (p : Port) (iv : Interval ℚ),
    (strayRequest ids).known[p]? = some iv → ∃ x, strayTruth[p]? = some x ∧ iv.contains x := by
  intro p iv hiv
  obtain ⟨hp, rfl⟩ := OrdMap.getElem?_ofFn_eq_some.mp hiv
  exact ⟨0, OrdMap.getElem?_ofFn_eq_some.mpr ⟨hp, rfl⟩, le_rfl, le_rfl⟩

theorem stray_sweeps (ids : List SolverId) : ∀ i c,
    Sweeps strayRegistry (strayRequest ids) (none : Option (StepStore ℚ Unit (SymDigest ℚ))) i c →
      CornerMonotone c ∧ WithinAccuracy strayLaws c := by
  rintro i c ⟨step, st, cache, -, -, hbind, -⟩
  have hb := bindStep_ok hbind
  have hmem : (c.info, c.fn) ∈ strayEntries := mem_strayEntries (SolverRegistry.mem_entries.mpr (by
    rw [strayRegistry.key_eq _ _ _ hb.registered]
    exact hb.registered))
  rcases List.mem_cons.mp hmem with he | he
  · obtain ⟨hinfo, hfn⟩ := Prod.mk.inj he
    exact ⟨cornerMonotone_offsetFn hfn (by rw [hinfo]; rfl),
      withinAccuracy_offsetFn 5 hfn (Or.inl hinfo)⟩
  · obtain ⟨hinfo, hfn⟩ := Prod.mk.inj (List.mem_singleton.mp he)
    exact ⟨cornerMonotone_offsetFn hfn (by rw [hinfo]; rfl),
      withinAccuracy_offsetFn 0 hfn (Or.inr hinfo)⟩

/-- The value and the eps of an execution that succeeds. -/
def valueAndEps (rq : ExecRequest ℚ Unit) : Option (Interval ℚ × ℚ) :=
  (executeWithAttribution strayRegistry rq
    (none : Option (StepStore ℚ Unit (SymDigest ℚ)))).1.toOption.map fun s => (s.value, s.eps)

/-- The true value that the laws give the target. -/
def strayTarget (rq : ExecRequest ℚ Unit) : Option ℚ :=
  (trueValues strayRegistry rq strayLaws 0 rq.route.steps (.init rq.known rq.payloads)
    (none : Option (StepStore ℚ Unit (SymDigest ℚ))) strayTruth)[rq.route.target]?

theorem endsAtTarget_stray : EndsAtTarget strayRegistry (strayRequest ["B", "A"]).route := by
  intro step hstep
  obtain rfl : strayStep "A" = step := Option.some.inj hstep
  have hmem : "A" ∈ strayRegistry.solvers := by decide +kernel
  obtain ⟨e, he⟩ := OrdMap.mem_iff_exists.mp hmem
  have hid := strayRegistry.key_eq "A" e.1 e.2 he
  have hentry := mem_strayEntries (e := e) (SolverRegistry.mem_entries.mpr (hid ▸ he))
  refine ⟨e.1, e.2, he, ?_⟩
  rcases List.mem_cons.mp hentry with rfl | h
  · exact List.mem_singleton.mpr rfl
  · obtain rfl := List.mem_singleton.mp h
    exact absurd hid (by decide)

theorem execute_sound_stray :
    ∃ solution, (executeWithAttribution strayRegistry (strayRequest ["B", "A"])
        (none : Option (StepStore ℚ Unit (SymDigest ℚ)))).1 = .ok solution ∧
      ∃ x, strayTarget (strayRequest ["B", "A"]) = some x ∧
        (inflate solution.value solution.eps).contains x ∧
        |x - solution.value.midpoint| ≤ totalError solution.value solution.eps := by
  have hrun : valueAndEps (strayRequest ["B", "A"]) = some (⟨5, 5⟩, 5) := by decide +kernel
  obtain ⟨solution, hs, -⟩ := Option.map_eq_some_iff.mp hrun
  have hok := Fallible.eq_ok_of_toOption hs
  exact ⟨solution, hok, execute_sound strayTruth endsAtTarget_stray stray_noMeasurement
    (stray_known ["B", "A"]) (stray_sweeps ["B", "A"]) (Prod.ext hok rfl)⟩

/-- With the steps the other way round the eps is that of `B`: 0, not 5. -/
theorem strayRequest_escapes :
    NoMeasurement strayRegistry ∧
    (∀ (p : Port) (iv : Interval ℚ), (strayRequest ["A", "B"]).known[p]? = some iv →
      ∃ x, strayTruth[p]? = some x ∧ iv.contains x) ∧
    (∀ i c, Sweeps strayRegistry (strayRequest ["A", "B"])
        (none : Option (StepStore ℚ Unit (SymDigest ℚ))) i c →
      CornerMonotone c ∧ WithinAccuracy strayLaws c) ∧
    ∃ solution, (executeWithAttribution strayRegistry (strayRequest ["A", "B"])
        (none : Option (StepStore ℚ Unit (SymDigest ℚ)))).1 = .ok solution ∧
      ∃ x, strayTarget (strayRequest ["A", "B"]) = some x ∧
        ¬ (inflate solution.value solution.eps).contains x := by
  refine ⟨stray_noMeasurement, stray_known _, stray_sweeps _, ?_⟩
  have hrun : valueAndEps (strayRequest ["A", "B"]) = some (⟨5, 5⟩, 0) := by decide +kernel
  obtain ⟨solution, hs, he⟩ := Option.map_eq_some_iff.mp hrun
  obtain ⟨hvalue, heps⟩ := Prod.mk.inj he
  refine ⟨solution, Fallible.eq_ok_of_toOption hs, 0, by decide +kernel, ?_⟩
  rw [hvalue, heps]
  decide +kernel

end Feldspar

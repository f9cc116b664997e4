/-
Feldspar/Walk.lean

The walk of the executor as a relation.  `Binds` says what a step is run with,
`Completes` what one iteration of the loop over the steps does when it goes on,
and `Walks` is the run up to a position in the route.  An invariant of the walk
is proved on `Completes` (`Walks.invariant`), and `execute_ok` says that an
execution that succeeds has walked the whole route.
-/
import Feldspar.Execute

set_option linter.unusedSectionVars false

namespace Feldspar

variable {K : Type} [Arith K] [LinearOrder K] {Env D : Type}

/-! ### Splitting and inflating -/

/-- The split gives the payload values at the inputs, and the other inputs as
scalar ports. -/
theorem splitStepInputs_ok {info : SolverInfo K} {portTable : PortMap PortDecl}
    {values : PortMap (Interval K)} {payloadValues : PortMap PayloadRef} {scalarPorts : List Port}
    {payloadInputs : PortMap PayloadRef}
    (h : splitStepInputs info portTable values payloadValues = .ok (scalarPorts, payloadInputs)) :
    (∀ p, p ∈ scalarPorts ↔ p ∈ info.inputs ∧ payloadValues[p]? = none) ∧
      ∀ p : Port, payloadInputs[p]? = if p ∈ info.inputs then payloadValues[p]? else none := by
  have := Fallible.foldlM_invariant
    (I := fun done (acc : List Port × PortMap PayloadRef) =>
      (∀ p, p ∈ acc.1 ↔ p ∈ done ∧ payloadValues[p]? = none) ∧
        ∀ p : Port, acc.2[p]? = if p ∈ done then payloadValues[p]? else none)
    (f := splitInput portTable values payloadValues) (s := ([], ∅)) ?_
    ⟨by simp, by simp⟩ h
  · exact this
  · rintro done port ⟨sp, pi⟩ s' ⟨hs, hp⟩ hok
    unfold splitInput at hok
    rcases hv : payloadValues[port]? with - | ref
    · -- a scalar port, in `values` or not
      have hs' : s' = (sp ++ [port], pi) := by
        simp only [hv] at hok
        split at hok
        · exact (Except.ok.inj hok).symm
        · split at hok
          · cases hok
          · exact (Except.ok.inj hok).symm
      subst hs'
      refine ⟨fun p => ?_, fun p => ?_⟩
      · simp only [List.mem_append, List.mem_singleton, hs p]
        constructor
        · rintro (⟨hd, hn⟩ | rfl)
          · exact ⟨Or.inl hd, hn⟩
          · exact ⟨Or.inr rfl, hv⟩
        · rintro ⟨hd | rfl, hn⟩
          · exact Or.inl ⟨hd, hn⟩
          · exact Or.inr rfl
      · rw [hp p]
        by_cases hpp : p = port
        · subst hpp; simp [hv]
        · simp [hpp]
    · have hs' : s' = (sp, pi.insert port ref) := by
        simp only [hv] at hok
        split at hok
        · cases hok
        · exact (Except.ok.inj hok).symm
      subst hs'
      refine ⟨fun p => ?_, fun p => ?_⟩
      · simp only [List.mem_append, List.mem_singleton, hs p]
        constructor
        · rintro ⟨hd, hn⟩
          exact ⟨Or.inl hd, hn⟩
        · rintro ⟨hd | rfl, hn⟩
          · exact ⟨hd, hn⟩
          · rw [hv] at hn; cases hn
      · simp only [OrdMap.getElem?_insert_eq, hp p]
        by_cases hpp : p = port
        · subst hpp; simp [hv]
        · simp [hpp, Ne.symm hpp]

/-- The box holds the inflated value of every scalar port. -/
theorem inflatedBox_ok {values : PortMap (Interval K)} {epsMap : PortMap K}
    {scalarPorts : List Port} {box : PortMap (Interval K)}
    (h : inflatedBox values epsMap scalarPorts = .ok box) (p : Port) :
    box[p]? = if p ∈ scalarPorts then
      (values[p]?).map fun iv => inflate iv (epsMap[p]?.getD 0) else none := by
  have := Fallible.foldlM_invariant
    (I := fun done (box : PortMap (Interval K)) => ∀ p : Port, box[p]? = if p ∈ done then
      (values[p]?).map fun iv => inflate iv (epsMap[p]?.getD 0) else none)
    (s := ∅) ?_ (by simp) h
  · exact this p
  · intro done port box box' hbox hok q
    obtain ⟨iv, hiv, he⟩ := Fallible.bind_eq_ok.mp hok
    obtain rfl := Except.ok.inj he
    rw [OrdMap.getElem?_insert_eq, hbox q]
    by_cases hq : q = port
    · subst hq; simp [index_eq_ok.mp hiv]
    · simp [hq, Ne.symm hq]

theorem mem_of_inflatedBox_ok {values : PortMap (Interval K)} {epsMap : PortMap K}
    {scalarPorts : List Port} {box : PortMap (Interval K)}
    (h : inflatedBox values epsMap scalarPorts = .ok box) {p : Port} (hp : p ∈ scalarPorts) :
    p ∈ box := by
  have := Fallible.foldlM_invariant
    (I := fun done (box : PortMap (Interval K)) => ∀ p ∈ done, p ∈ box)
    (s := ∅) ?_ (by simp) h
  · exact this p hp
  · intro done port box box' hbox hok q hq
    obtain ⟨iv, -, he⟩ := Fallible.bind_eq_ok.mp hok
    obtain rfl := Except.ok.inj he
    rw [Std.ExtTreeMap.mem_insert, Std.LawfulEqOrd.compare_eq_iff_eq]
    rcases List.mem_append.mp hq with hq | hq
    · exact Or.inr (hbox q hq)
    · exact Or.inl (List.mem_singleton.mp hq).symm

/-! ### One step -/

section Walk

variable (reg : SolverRegistry K Env) (rq : ExecRequest K Env)

/-- `c` is what the `i`-th step is run with in the state `st`. -/
structure Binds (i : ℕ) (step : RouteStep K) (st : ExecState K) (c : StepCall K Env) : Prop where
  registered : reg.solvers[step.solverId]? = some (c.info, c.fn)
  portTable : c.portTable = reg.ports
  env : c.env = rq.env i
  /-- the scalar inputs are swept over their inflated values -/
  mem_box : ∀ p, p ∈ c.box ↔ p ∈ c.info.inputs ∧ st.payloadValues[p]? = none
  box : ∀ p iv, c.box[p]? = some iv ↔ p ∈ c.info.inputs ∧ st.payloadValues[p]? = none ∧
    ∃ value, st.values[p]? = some value ∧ iv = inflate value (st.epsMap[p]?.getD 0)
  payloadInputs : ∀ p, c.payloadInputs[p]? =
    if p ∈ c.info.inputs then st.payloadValues[p]? else none

variable {reg rq}

theorem bindStep_ok {i : ℕ} {step : RouteStep K} {st : ExecState K} {c : StepCall K Env}
    (h : bindStep reg rq i step st = .ok c) : Binds reg rq i step st c := by
  obtain ⟨⟨info, fn⟩, hreg, h⟩ := Fallible.bind_eq_ok.mp h
  obtain ⟨⟨scalarPorts, payloadInputs⟩, hsplit, h⟩ := Fallible.bind_eq_ok.mp h
  obtain ⟨box, hbox, h⟩ := Fallible.bind_eq_ok.mp h
  obtain rfl := Except.ok.inj h
  rw [Fallible.mapError_eq_ok] at hreg hsplit hbox
  obtain ⟨hs, hp⟩ := splitStepInputs_ok hsplit
  have hget := inflatedBox_ok hbox
  refine ⟨index_eq_ok.mp hreg, rfl, rfl, fun p => ?_, fun p iv => ?_, hp⟩
  · rw [← hs p]
    constructor
    · intro hm
      obtain ⟨iv, hiv⟩ := OrdMap.mem_iff_exists.mp hm
      rw [hget p] at hiv
      by_contra hn
      rw [if_neg hn] at hiv
      cases hiv
    · exact mem_of_inflatedBox_ok hbox
  · rw [hget p, ← and_assoc, ← hs p]
    by_cases hm : p ∈ scalarPorts
    · rw [if_pos hm, Option.map_eq_some_iff]
      simp only [hm, true_and]
      exact ⟨fun ⟨v, hv, he⟩ => ⟨v, hv, he.symm⟩, fun ⟨v, hv, he⟩ => ⟨v, hv, he.symm⟩⟩
    · simp [hm]

variable [CanonicalDigest K D] [DecidableEq D]

variable (reg rq) in
/-- The `i`-th step completes, run with `c` and with the entry `entry`. -/
structure Completes (i : ℕ) (step : RouteStep K) (st : ExecState K)
    (stepCache : Option (StepStore K Env D)) (c : StepCall K Env) (entry : StepEntry K)
    (st' : ExecState K) (stepCache' : Option (StepStore K Env D)) : Prop where
  bind : bindStep reg rq i step st = .ok c
  run : runStep stepCache c = (.ok entry, stepCache')
  domain : checkStepOutputDomain c.info entry.hull entry.stepEps = .ok ()
  state : st' = st.record step.solverId c.info entry

theorem executeStep_ok {i : ℕ} {step : RouteStep K} {st st' : ExecState K}
    {stepCache stepCache' : Option (StepStore K Env D)} :
    executeStep reg rq i step st stepCache = (.ok st', stepCache') ↔
      ∃ c entry, Completes reg rq i step st stepCache c entry st' stepCache' := by
  constructor
  · intro h
    unfold executeStep at h
    rcases hb : bindStep reg rq i step st with e | c <;> simp only [hb] at h
    · cases h
    rcases hr : runStep stepCache c with ⟨e | entry, cache⟩ <;> simp only [hr] at h
    · cases h
    rcases hd : checkStepOutputDomain c.info entry.hull entry.stepEps with e | ⟨⟩ <;>
      simp only [hd] at h
    · cases h
    · cases h
      exact ⟨c, entry, hb, hr, hd, rfl⟩
  · rintro ⟨c, entry, h⟩
    simp only [executeStep, h.bind, h.run, h.domain, h.state]

variable (reg rq) in
/-- `Walks i st stepCache`: the first `i` steps of the route are done. -/
inductive Walks (stepCache₀ : Option (StepStore K Env D)) :
    ℕ → ExecState K → Option (StepStore K Env D) → Prop
  | start : Walks stepCache₀ 0 (.init rq.known rq.payloads) stepCache₀
  | step {i step st stepCache st' stepCache'} : Walks stepCache₀ i st stepCache →
      rq.route.steps[i]? = some step →
      executeStep reg rq i step st stepCache = (.ok st', stepCache') →
      Walks stepCache₀ (i + 1) st' stepCache'

variable (reg rq) in
/-- `execute` sweeps the `i`-th step, run with `c`: the step is reached and
the step cache does not serve it. -/
def Sweeps (stepCache₀ : Option (StepStore K Env D)) (i : ℕ) (c : StepCall K Env) : Prop :=
  ∃ step st stepCache, rq.route.steps[i]? = some step ∧
    Walks reg rq stepCache₀ i st stepCache ∧ bindStep reg rq i step st = .ok c ∧
    servedFile stepCache c = none

variable (reg rq) in
/-- The step cache serves the `i`-th step, run with `c`, from `file`. -/
def Serves (stepCache₀ : Option (StepStore K Env D)) (i : ℕ) (c : StepCall K Env)
    (file : Memo.Entry (StepCall K Env) (StepEntry K)) : Prop :=
  ∃ step st stepCache, rq.route.steps[i]? = some step ∧
    Walks reg rq stepCache₀ i st stepCache ∧ bindStep reg rq i step st = .ok c ∧
    servedFile stepCache c = some file

variable {stepCache₀ : Option (StepStore K Env D)}

/-- The invariant rule of the walk. -/
theorem Walks.invariant {I : ℕ → ExecState K → Option (StepStore K Env D) → Prop}
    (hinit : I 0 (.init rq.known rq.payloads) stepCache₀)
    (hstep : ∀ i step st stepCache c entry st' stepCache', rq.route.steps[i]? = some step →
      Completes reg rq i step st stepCache c entry st' stepCache' → I i st stepCache →
      I (i + 1) st' stepCache')
    {i : ℕ} {st : ExecState K} {stepCache : Option (StepStore K Env D)}
    (h : Walks reg rq stepCache₀ i st stepCache) : I i st stepCache := by
  induction h with
  | start => exact hinit
  | step _ hs hx ih =>
      obtain ⟨c, entry, hc⟩ := executeStep_ok.mp hx
      exact hstep _ _ _ _ c entry _ _ hs hc ih

/-- A step is served by the step cache, which stays, or swept and stored. -/
theorem runStep_ok {c : StepCall K Env} {entry : StepEntry K}
    {stepCache stepCache' : Option (StepStore K Env D)}
    (h : runStep stepCache c = (.ok entry, stepCache')) :
    (∃ file, servedFile stepCache c = some file ∧ file.value = entry ∧ stepCache' = stepCache) ∨
      servedFile stepCache c = none ∧ sweepStep c = .ok entry ∧
        stepCache' = putStep stepCache c entry := by
  unfold runStep at h
  rcases hc : servedFile stepCache c with - | file <;> simp only [hc] at h
  · rcases hs : sweepStep c with e | entry' <;> simp only [hs] at h
    · cases h
    · cases h
      exact Or.inr ⟨rfl, rfl, rfl⟩
  · cases h
    exact Or.inl ⟨file, rfl, rfl, rfl⟩

theorem runStep_none {c : StepCall K Env} :
    runStep (none : Option (StepStore K Env D)) c = (sweepStep c, none) := by
  rcases h : sweepStep c with e | entry <;> simp [runStep, servedFile, putStep, h]

/-- Without a step cache there never is one. -/
theorem Walks.stepCache_none {i : ℕ} {st : ExecState K} {stepCache : Option (StepStore K Env D)}
    (h : Walks reg rq (none : Option (StepStore K Env D)) i st stepCache) : stepCache = none := by
  refine h.invariant (I := fun _ _ stepCache => stepCache = none) rfl ?_
  rintro i step st stepCache c entry st' stepCache' - hc rfl
  have := hc.run
  rw [runStep_none] at this
  exact (Prod.mk.inj this).2.symm

/-- Further steps of a walk that succeed. -/
theorem Walks.executeSteps : ∀ {steps : List (RouteStep K)} {i : ℕ} {st st' : ExecState K}
    {stepCache stepCache' : Option (StepStore K Env D)},
    Walks reg rq stepCache₀ i st stepCache → steps <+: rq.route.steps.drop i →
    executeSteps reg rq i steps st stepCache = (.ok st', stepCache') →
    Walks reg rq stepCache₀ (i + steps.length) st' stepCache'
  | [], i, st, st', stepCache, stepCache', hw, _, h => by
      cases h
      exact hw
  | next :: steps, i, st, st', stepCache, stepCache', hw, ⟨rest, hd⟩, h => by
      have hstep : rq.route.steps[i]? = some next := by
        rw [← List.head?_drop, ← hd]
        rfl
      have hrest : steps <+: rq.route.steps.drop (i + 1) := by
        rw [← List.tail_drop, ← hd]
        exact ⟨rest, rfl⟩
      unfold Feldspar.executeSteps at h
      rcases hx : executeStep reg rq i next st stepCache with ⟨e | st₁, cache₁⟩ <;>
        simp only [hx] at h
      · cases h
      · have := (hw.step hstep hx).executeSteps hrest h
        rwa [List.length_cons, Nat.add_comm steps.length, ← Nat.add_assoc]

/-! ### What the step cache holds -/

variable (reg) in
/-- `entry` is what sweeping `c`, a step of this registry, gives. -/
structure Genuine (c : StepCall K Env) (entry : StepEntry K) : Prop where
  registered : reg.solvers[c.info.solverId]? = some (c.info, c.fn)
  portTable : c.portTable = reg.ports
  swept : sweepStep c = .ok entry

variable (reg) in
/-- Every file of the step cache was written by a sweep over this registry. -/
def CacheSound (stepCache : Option (StepStore K Env D)) : Prop :=
  ∀ store, stepCache = some store →
    Memo.Sound (fun key c entry => stepKey c = key ∧ Genuine reg c entry) store

theorem cacheSound_none : CacheSound reg (none : Option (StepStore K Env D)) := by
  intro store h
  cases h

theorem cacheSound_empty : CacheSound reg (some (Memo.empty : StepStore K Env D)) := by
  intro store h
  cases h
  exact Memo.sound_empty

theorem servedFile_eq_some {stepCache : Option (StepStore K Env D)} {c : StepCall K Env}
    {file : Memo.Entry (StepCall K Env) (StepEntry K)} : servedFile stepCache c = some file ↔
      ∃ store, stepCache = some store ∧ c.participates = true ∧
        store (stepKey c) = some file ∧ c.fn.toolsPresent c.env = true := by
  unfold servedFile StepStore.get
  rcases stepCache with - | store
  · simp
  · rcases hf : store (stepKey c) with - | file' <;> simp [hf, and_comm, and_assoc]

/-- What is served was once swept, under the same key. -/
theorem CacheSound.served {stepCache : Option (StepStore K Env D)} (h : CacheSound reg stepCache)
    {c : StepCall K Env} {file : Memo.Entry (StepCall K Env) (StepEntry K)}
    (hc : servedFile stepCache c = some file) :
    stepKey (D := D) file.writer = stepKey c ∧ Genuine reg file.writer file.value := by
  obtain ⟨store, hstore, -, hfile, -⟩ := servedFile_eq_some.mp hc
  exact h store hstore _ file hfile

theorem CacheSound.putStep {stepCache : Option (StepStore K Env D)} (h : CacheSound reg stepCache)
    {c : StepCall K Env} {entry : StepEntry K} (hc : Genuine reg c entry) :
    CacheSound reg (putStep stepCache c entry) := by
  intro store hs
  unfold Feldspar.putStep at hs
  split at hs
  · obtain ⟨store', hs', rfl⟩ := Option.map_eq_some_iff.mp hs
    exact (h store' hs').put ⟨rfl, hc⟩
  · exact h store hs

theorem CacheSound.runStep {stepCache : Option (StepStore K Env D)} (h : CacheSound reg stepCache)
    {c : StepCall K Env} (hreg : reg.solvers[c.info.solverId]? = some (c.info, c.fn))
    (hports : c.portTable = reg.ports) : CacheSound reg (runStep stepCache c).2 := by
  unfold Feldspar.runStep
  rcases servedFile stepCache c with - | file
  · rcases hs : sweepStep c with e | entry
    · exact h
    · exact h.putStep ⟨hreg, hports, hs⟩
  · exact h

variable (rq) in
theorem CacheSound.executeStep {stepCache : Option (StepStore K Env D)}
    (h : CacheSound reg stepCache) (i : ℕ) (step : RouteStep K) (st : ExecState K) :
    CacheSound reg (executeStep reg rq i step st stepCache).2 := by
  unfold Feldspar.executeStep
  rcases hb : bindStep reg rq i step st with e | c
  · exact h
  have hc := bindStep_ok hb
  have hreg := hc.registered
  rw [← reg.key_eq _ _ _ hreg] at hreg
  have hrun := h.runStep hreg hc.portTable
  simp only
  rcases hr : Feldspar.runStep stepCache c with ⟨e | entry, cache⟩ <;> rw [hr] at hrun
  · exact hrun
  · simp only
    rcases checkStepOutputDomain c.info entry.hull entry.stepEps with e | ⟨⟩ <;> exact hrun

variable (rq) in
theorem CacheSound.executeSteps : ∀ {stepCache : Option (StepStore K Env D)},
    CacheSound reg stepCache → ∀ (i : ℕ) (steps : List (RouteStep K)) (st : ExecState K),
    CacheSound reg (executeSteps reg rq i steps st stepCache).2
  | _, h, _, [], _ => h
  | stepCache, h, i, step :: steps, st => by
      have hstep := h.executeStep rq i step st
      unfold Feldspar.executeSteps
      rcases hx : Feldspar.executeStep reg rq i step st stepCache with ⟨e | st', cache⟩ <;>
        rw [hx] at hstep
      · exact hstep
      · exact hstep.executeSteps (i + 1) steps st'

variable (rq) in
theorem CacheSound.executeWithAttribution {stepCache : Option (StepStore K Env D)}
    (h : CacheSound reg stepCache) :
    CacheSound reg (executeWithAttribution reg rq stepCache).2 := by
  have hsteps := h.executeSteps rq 0 rq.route.steps (.init rq.known rq.payloads)
  unfold Feldspar.executeWithAttribution
  rcases hx : Feldspar.executeSteps reg rq 0 rq.route.steps (.init rq.known rq.payloads) stepCache
    with ⟨e | st, cache⟩ <;> rw [hx] at hsteps <;> exact hsteps

theorem Walks.cacheSound {i : ℕ} {st : ExecState K} {stepCache : Option (StepStore K Env D)}
    (h₀ : CacheSound reg stepCache₀) (h : Walks reg rq stepCache₀ i st stepCache) :
    CacheSound reg stepCache := by
  induction h with
  | start => exact h₀
  | @step i step st stepCache st' stepCache' _ _ hx ih =>
      have := ih.executeStep rq i step st
      rwa [hx] at this

variable (reg rq) in
/-- What the `i`-th step is run with, in an execution without a step cache. -/
def callAt (D : Type) [CanonicalDigest K D] [DecidableEq D] (i : ℕ) : Option (StepCall K Env) :=
  match (Feldspar.executeSteps reg rq 0 (rq.route.steps.take i) (.init rq.known rq.payloads)
      (none : Option (StepStore K Env D))).1, rq.route.steps[i]? with
  | .ok st, some step => (bindStep reg rq i step st).toOption
  | _, _ => none

theorem sweeps_of_callAt {i : ℕ} {c : StepCall K Env} (h : callAt reg rq D i = some c) :
    Sweeps reg rq (none : Option (StepStore K Env D)) i c := by
  unfold callAt at h
  rcases hx : Feldspar.executeSteps reg rq 0 (rq.route.steps.take i) (.init rq.known rq.payloads)
    (none : Option (StepStore K Env D)) with ⟨e | st, cache⟩ <;> rw [hx] at h
  · cases h
  rcases hs : rq.route.steps[i]? with - | step <;> rw [hs] at h
  · cases h
  have hw := Walks.start.executeSteps (List.take_prefix i rq.route.steps) hx
  rw [Nat.zero_add, List.length_take, min_eq_left (List.getElem?_eq_some_iff.mp hs).1.le] at hw
  refine ⟨step, st, cache, hs, hw, Fallible.eq_ok_of_toOption h, ?_⟩
  rw [hw.stepCache_none]
  rfl

/-- An execution that succeeds has walked the whole route. -/
theorem execute_ok {solution : Solution K D} {stepCache' : Option (StepStore K Env D)}
    (h : executeWithAttribution reg rq stepCache₀ = (.ok solution, stepCache')) :
    ∃ st, Walks reg rq stepCache₀ rq.route.steps.length st stepCache' ∧
      solutionOf reg rq st = .ok solution := by
  unfold executeWithAttribution at h
  rcases hx : executeSteps reg rq 0 rq.route.steps (.init rq.known rq.payloads) stepCache₀ with
    ⟨e | st, cache⟩ <;> simp only [hx] at h
  · cases h
  · obtain ⟨hsol, rfl⟩ := Prod.mk.inj h
    rw [Fallible.mapError_eq_ok] at hsol
    have := Walks.start.executeSteps List.prefix_rfl hx
    rw [Nat.zero_add] at this
    exact ⟨st, this, hsol⟩

end Walk

end Feldspar

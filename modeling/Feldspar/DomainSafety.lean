/-
Feldspar/DomainSafety.lean

Which steps of a planned route are swept inside their declared box.

The planner admits a step on intervals that it estimates, the executor sweeps
what the earlier steps really computed and checks no input box.  The two agree
on the ports that no earlier step has produced (`Carried.untouched`), and there
the planner's check is all that is needed.

On the other ports it is enough that the estimates are right: that the solver of
an earlier step, swept anywhere inside of its planned box, stays inside of the
interval that the planner has for the later one (`EstimatesCover`).  Only the
ports whose interval reaches a declared box matter (`Bears`).  Then no step of
any run leaves the box that was planned for it (`Walks.carried`), nor the
declared one (`execute_inDomain`).

`gainRoute` is a planned route that leaves its box: its first step multiplies by
1000.
-/
import Feldspar.PlanRoute
import Feldspar.StepTransparency

set_option linter.unusedSectionVars false

namespace Feldspar

variable {K : Type} [Field K] [LinearOrder K] {Env D : Type}

/-- The step is swept inside its solver's declared box. -/
structure InDomain (c : StepCall K Env) : Prop where
  box : ∀ (p : Port) (iv allowed : Interval K), c.box[p]? = some iv →
    c.info.domain.portBox[p]? = some allowed → iv.isSubset allowed
  corner : ∀ corner, IsCorner c.box corner → ∀ (p : Port) (x : K) (allowed : Interval K),
    corner[p]? = some x → c.info.domain.portBox[p]? = some allowed → allowed.contains x

/-! ### Estimates that cover -/

section Estimates

variable (reg : SolverRegistry K Env) (route : Route K)

/-- The `i`-th step of the route, with its solver. -/
structure StepOf (i : ℕ) (step : RouteStep K) (info : SolverInfo K) (fn : SolveFn K Env) :
    Prop where
  listed : route.steps[i]? = some step
  registered : reg.solvers[step.solverId]? = some (info, fn)

/-- The `m`-th step has the scalar port among its outputs. -/
def Makes (m : ℕ) (p : Port) : Prop :=
  ∃ step info fn, StepOf reg route m step info fn ∧ p ∈ info.outputs ∧
    isPayloadPort reg.ports p = false

/-- The interval of this input of the `j`-th step reaches a declared box: the
step's own, or that of a later step by way of an output. -/
inductive Bears : ℕ → Port → Prop
  | box {j step info fn p} : StepOf reg route j step info fn → p ∈ info.inputs →
      p ∈ info.domain.portBox → Bears j p
  | feeds {j k step info fn p q} : StepOf reg route j step info fn → p ∈ info.inputs →
      j < k → Makes reg route j q → Bears k q → Bears j p

/-- What a step may be run with, going by the box that is planned for it. -/
structure PlannedCall (payloads : PortMap PayloadRef) (info : SolverInfo K) (fn : SolveFn K Env)
    (planned : PortMap (Interval K)) (c : StepCall K Env) : Prop where
  info_eq : c.info = info
  fn_eq : c.fn = fn
  portTable : c.portTable = reg.ports
  mem_box : ∀ p : Port, p ∈ c.box ↔ p ∈ info.inputs ∧ p ∉ c.payloadInputs
  mem_payloads : ∀ p ∈ c.payloadInputs, p ∈ payloads ∨ isPayloadPort reg.ports p = true
  box : ∀ (p : Port) (iv : Interval K), c.box[p]? = some iv → iv.Proper ∧ ∃ iv', planned[p]? = some iv' ∧ iv.isSubset iv'

/-- **The estimates cover**: run with anything inside of its planned box, a step
computes for each port that reaches a declared box, its eps included, an interval
inside of the one that is planned for the later step. -/
def EstimatesCover (payloads : PortMap PayloadRef) : Prop :=
  ∀ m j step step' info fn p planned, m < j → StepOf reg route m step info fn →
    Makes reg route m p → route.steps[j]? = some step' → Bears reg route j p →
    step'.realizedDomain.portBox[p]? = some planned →
    ∀ c entry hull, PlannedCall reg payloads info fn step.realizedDomain.portBox c →
      sweepStep c = .ok entry → entry.hull[p]? = some hull →
      (inflate hull entry.stepEps).isSubset planned

variable {reg route}

theorem StepOf.unique {i : ℕ} {step step' : RouteStep K} {info info' : SolverInfo K}
    {fn fn' : SolveFn K Env} (h : StepOf reg route i step info fn)
    (h' : StepOf reg route i step' info' fn') : step = step' ∧ info = info' ∧ fn = fn' := by
  obtain rfl := Option.some.inj (h.listed.symm.trans h'.listed)
  obtain ⟨rfl, rfl⟩ := Prod.mk.inj (Option.some.inj (h.registered.symm.trans h'.registered))
  exact ⟨rfl, rfl, rfl⟩

theorem Bears.mem_inputs {j : ℕ} {p : Port} (h : Bears reg route j p) {step : RouteStep K}
    {info : SolverInfo K} {fn : SolveFn K Env} (hj : StepOf reg route j step info fn) :
    p ∈ info.inputs := by
  cases h with
  | box hj' hp _ => exact (hj'.unique hj).2.1 ▸ hp
  | feeds hj' hp _ _ _ => exact (hj'.unique hj).2.1 ▸ hp

end Estimates

section Proper

variable [CanonicalDigest K D] [DecidableEq D] [IsStrictOrderedRing K]
variable {reg : SolverRegistry K Env} {rq : ExecRequest K Env}
variable {stepCache₀ : Option (StepStore K Env D)}

/-- The values have their ends in order, and no eps is negative. -/
structure ProperState (st : ExecState K) : Prop where
  proper : ∀ (p : Port) (iv : Interval K), st.values[p]? = some iv → iv.Proper
  eps_nonneg : ∀ p : Port, 0 ≤ st.epsMap[p]?.getD 0

theorem Walks.properState (hcache : CacheSound reg stepCache₀)
    (hknown : ∀ (p : Port) (iv : Interval K), rq.known[p]? = some iv → iv.Proper) {i : ℕ}
    {st : ExecState K} {stepCache : Option (StepStore K Env D)}
    (h : Walks reg rq stepCache₀ i st stepCache) : ProperState st := by
  induction h with
  | start =>
      refine ⟨hknown, fun p => ?_⟩
      simp only [ExecState.init, Std.ExtTreeMap.getElem?_map]
      cases rq.known[p]? <;> exact le_rfl
  | @step i step st stepCache st' stepCache' hw hstep hx ih =>
      obtain ⟨c, entry, hc⟩ := executeStep_ok.mp hx
      -- served or swept, the entry is that of a sweep
      obtain ⟨c', hswept⟩ : ∃ c' : StepCall K Env, sweepStep c' = .ok entry := by
        rcases runStep_ok hc.run with ⟨file, hserved, rfl, -⟩ | ⟨-, hswept, -⟩
        · exact ⟨file.writer, ((hw.cacheSound hcache).served hserved).2.swept⟩
        · exact ⟨c, hswept⟩
      obtain ⟨log, hs, -⟩ := sweepStep_ok hswept
      have hnn := sweepStep_eps_nonneg hswept
      rw [hc.state]
      refine ⟨fun p iv hiv => ?_, fun p => ?_⟩
      · simp only [ExecState.record, Std.ExtTreeMap.getElem?_union] at hiv
        rcases hh : entry.hull[p]? with - | hull
        · rw [hh, Option.none_or] at hiv
          exact ih.proper p iv hiv
        · rw [hh, Option.some_or] at hiv
          obtain rfl := Option.some.inj hiv
          exact (hs.hull p hull hh).proper
      · simp only [ExecState.record, Std.ExtTreeMap.getElem?_union, Std.ExtTreeMap.getElem?_map]
        rcases hh : entry.hull[p]? with - | hull
        · simpa using ih.eps_nonneg p
        · simpa using hnn

end Proper

section Run

variable [CanonicalDigest K D] [DecidableEq D] [ToBits K]
variable {reg : SolverRegistry K Env} {stepCache₀ : Option (StepStore K Env D)}
variable {excluded : Std.ExtTreeSet SolverId compare} {srq : SolveRequest K}
variable {route : Route K} {epsBudget : Option K} {env : ℕ → Env}

/-- The planned box of a step: an input is known, or written by an earlier step;
and the planned interval is inside of the declared one. -/
structure PlannedInput (reg : SolverRegistry K Env) (srq : SolveRequest K) (route : Route K)
    (i : ℕ) (info : SolverInfo K) (p : Port) (planned : Interval K) : Prop where
  source : srq.planKnown[p]? = some planned ∨ ∃ m step info' fn', m < i ∧
    StepOf reg route m step info' fn' ∧ p ∈ info'.outputs
  admitted : ∀ allowed, info.domain.portBox[p]? = some allowed → planned.isSubset allowed

theorem PlansRoute.plannedInput (hplan : PlansRoute reg excluded srq (.ok route)) {i : ℕ}
    {step : RouteStep K} {info : SolverInfo K} {fn : SolveFn K Env}
    (hi : StepOf reg route i step info fn) {p : Port} (hp : p ∈ info.inputs) :
    ∃ planned, step.realizedDomain.portBox[p]? = some planned ∧
      PlannedInput reg srq route i info p planned := by
  obtain ⟨budget, hplans⟩ := hplan.plans
  obtain ⟨v, inputs, hplanned⟩ := hplans.step (reg.nodup_summaries excluded) hi.listed
  obtain rfl : info.toSolverSummary = v := by
    obtain ⟨-, info', fn', hreg, rfl⟩ := SolverRegistry.mem_summaries.mp hplanned.mem
    have hreg' := hi.registered
    rw [hplanned.solverId, hreg] at hreg'
    cases hreg'
    rfl
  obtain ⟨l, hl⟩ := OrdMap.mem_iff_exists.mp ((hplanned.ports p).mpr hp)
  refine ⟨l.inflated, ?_, ?_, fun allowed hallowed => ?_⟩
  · rw [hplanned.realized]
    exact getElem?_inflatedInputs.mpr ⟨l, hl, rfl⟩
  · rcases hplanned.source p l hl with ⟨hknown, hzero⟩ | ⟨m, step', hm, hstep', s, hsolver, hout⟩
    · left
      rw [Label.inflated, hzero, inflate_zero]
      exact hknown
    · obtain ⟨-, info', fn', hreg, rfl⟩ :=
        SolverRegistry.mem_summaries.mp (List.mem_of_find?_eq_some hsolver)
      rw [solverOf, List.find?_eq_some_iff_append, decide_eq_true_eq] at hsolver
      exact Or.inr ⟨m, step', info', fn', hm, ⟨hstep', hsolver.1 ▸ hreg⟩, hout⟩
  · have hadmits := hplanned.admits
    rw [Admits, Domain.admits_eq_ok] at hadmits
    obtain ⟨value, hvalue, hsub⟩ := hadmits.2 p allowed (by
      rw [inputDomain, Std.ExtTreeMap.getElem?_filter', hallowed]
      simp [Option.filter, hp])
    obtain ⟨l', hl', rfl⟩ := getElem?_inflatedInputs.mp hvalue
    obtain rfl := Option.some.inj (hl.symm.trans hl')
    exact hsub

/-- What the state before the `i`-th step carries. -/
structure Carried (reg : SolverRegistry K Env) (srq : SolveRequest K) (route : Route K) (i : ℕ)
    (st : ExecState K) : Prop where
  /-- a port that was not made has the caller's interval -/
  untouched : ∀ p : Port, (∀ m < i, ¬ Makes reg route m p) →
    st.values[p]? = srq.known[p]? ∧ st.epsMap[p]?.getD 0 = 0
  payloads : ∀ p ∈ st.payloadValues, p ∈ srq.payloads ∨ isPayloadPort reg.ports p = true
  /-- a payload that a step was to make is there -/
  produced : ∀ m < i, ∀ step info fn p, StepOf reg route m step info fn → p ∈ info.outputs →
    isPayloadPort reg.ports p = true → p ∈ st.payloadValues
  /-- a port that was made is inside of what is planned -/
  covered : ∀ m < i, ∀ p, Makes reg route m p → ∀ j, i ≤ j → Bears reg route j p →
    ∀ step planned value, route.steps[j]? = some step →
      step.realizedDomain.portBox[p]? = some planned → st.values[p]? = some value →
      (inflate value (st.epsMap[p]?.getD 0)).isSubset planned

/-- A step that is bound in such a state is inside of its planned box, on the ports
that reach a declared box. -/
theorem Carried.isSubset_planned (hplan : PlansRoute reg excluded srq (.ok route)) {i : ℕ}
    {step : RouteStep K} {st : ExecState K} {c : StepCall K Env} (h : Carried reg srq route i st)
    (hstep : route.steps[i]? = some step)
    (hb : Binds reg (srq.execRequest route epsBudget env) i step st c) {p : Port}
    {iv : Interval K} (hiv : c.box[p]? = some iv) (hbears : Bears reg route i p) :
    ∃ planned, step.realizedDomain.portBox[p]? = some planned ∧ iv.isSubset planned ∧
      ∀ allowed, c.info.domain.portBox[p]? = some allowed → planned.isSubset allowed := by
  have hi : StepOf reg route i step c.info c.fn := ⟨hstep, hb.registered⟩
  obtain ⟨hin, hnopayload, value, hvalue, rfl⟩ := (hb.box p iv).mp hiv
  obtain ⟨planned, hplanned, hsource⟩ := hplan.plannedInput hi hin
  refine ⟨planned, hplanned, ?_, hsource.admitted⟩
  by_cases hmade : ∃ m < i, Makes reg route m p
  · obtain ⟨m, hm, hmakes⟩ := hmade
    exact h.covered m hm p hmakes i le_rfl hbears step planned value hstep hplanned hvalue
  · push Not at hmade
    obtain ⟨hval, heps⟩ := h.untouched p hmade
    rw [heps, inflate_zero]
    rw [hval] at hvalue
    rcases hsource.source with hknown | ⟨m, step', info', fn', hm, hm', hout⟩
    · -- the planner saw the caller's interval
      rw [srq.getElem?_planKnown, hvalue] at hknown
      exact Option.some.inj hknown ▸ Interval.isSubset_refl _
    · -- a port that a step writes is scalar and made, or a payload and not swept
      rcases hrank : isPayloadPort reg.ports p with - | -
      · exact absurd ⟨step', info', fn', hm', hout, hrank⟩ (hmade m hm)
      · obtain ⟨ref, href⟩ := OrdMap.mem_iff_exists.mp
          (h.produced m hm step' info' fn' p hm' hout hrank)
        rw [hnopayload] at href
        cases href

variable [IsStrictOrderedRing K]

theorem Carried.plannedCall (hplan : PlansRoute reg excluded srq (.ok route)) {i : ℕ}
    {step : RouteStep K} {st : ExecState K} {c : StepCall K Env} (h : Carried reg srq route i st)
    (hproper : ProperState st) (hstep : route.steps[i]? = some step)
    (hb : Binds reg (srq.execRequest route epsBudget env) i step st c)
    (hbears : ∀ p ∈ c.info.inputs, Bears reg route i p) :
    PlannedCall reg srq.payloads c.info c.fn step.realizedDomain.portBox c where
  info_eq := rfl
  fn_eq := rfl
  portTable := hb.portTable
  mem_box p := by
    rw [hb.mem_box]
    refine and_congr_right fun hp => ?_
    rw [OrdMap.mem_iff_exists, hb.payloadInputs, if_pos hp, not_exists, Option.eq_none_iff_forall_ne_some]
  mem_payloads p hp := by
    obtain ⟨ref, href⟩ := OrdMap.mem_iff_exists.mp hp
    rw [hb.payloadInputs] at href
    split_ifs at href
    exact h.payloads p (OrdMap.mem_iff_exists.mpr ⟨ref, href⟩)
  box p iv hiv := by
    obtain ⟨hin, -, value, hvalue, he⟩ := (hb.box p iv).mp hiv
    obtain ⟨planned, hplanned, hsub, -⟩ := h.isSubset_planned hplan hstep hb hiv (hbears p hin)
    exact ⟨he ▸ inflate_proper (hproper.proper p value hvalue) (hproper.eps_nonneg p), planned,
      hplanned, hsub⟩

theorem carried_start : Carried reg srq route 0 (.init srq.known srq.payloads) := by
  have heps : ∀ p : Port, (ExecState.init srq.known srq.payloads).epsMap[p]?.getD 0 = 0 := by
    intro p
    simp only [ExecState.init, Std.ExtTreeMap.getElem?_map]
    cases srq.known[p]? <;> rfl
  exact ⟨fun p _ => ⟨rfl, heps p⟩, fun p hp => Or.inl hp,
    fun m hm => absurd hm (Nat.not_lt_zero m), fun m hm => absurd hm (Nat.not_lt_zero m)⟩

/-- **One step** keeps what is carried. -/
theorem Carried.step (hinj : Function.Injective (canonicalDigest : Canonical K D → D))
    (hplan : PlansRoute reg excluded srq (.ok route))
    (hcover : EstimatesCover reg route srq.payloads) {i : ℕ} {step : RouteStep K}
    {st st' : ExecState K} {stepCache stepCache' : Option (StepStore K Env D)}
    {c : StepCall K Env} {entry : StepEntry K} (h : Carried reg srq route i st)
    (hproper : ProperState st) (hcache : CacheSound reg stepCache)
    (hstep : route.steps[i]? = some step)
    (hc : Completes reg (srq.execRequest route epsBudget env) i step st stepCache c entry st'
      stepCache') : Carried reg srq route (i + 1) st' := by
  have hb := bindStep_ok hc.bind
  have hi : StepOf reg route i step c.info c.fn := ⟨hstep, hb.registered⟩
  obtain ⟨w, hswept, hinfo, hfn, hports, hbox, hrefs⟩ := hc.swept hinj hcache
  obtain ⟨log, hs, -⟩ := sweepStep_ok hswept
  have hull : ∀ p, p ∈ entry.hull ↔ p ∈ c.info.outputs ∧ isPayloadPort reg.ports p = false := by
    intro p
    rw [hs.mem_hull, mem_scalarOutputs, hinfo, hports]
  -- the port has the interval and the eps of the entry, or those it had
  have hrecord : ∀ p, (p ∈ entry.hull ∧ st'.values[p]? = entry.hull[p]? ∧
      st'.epsMap[p]?.getD 0 = entry.stepEps) ∨
      (p ∉ entry.hull ∧ st'.values[p]? = st.values[p]? ∧
        st'.epsMap[p]?.getD 0 = st.epsMap[p]?.getD 0) := by
    intro p
    rw [hc.state]
    simp only [ExecState.record, Std.ExtTreeMap.getElem?_union, Std.ExtTreeMap.getElem?_map]
    rcases hh : entry.hull[p]? with - | iv
    · exact Or.inr ⟨fun hm => by simp [OrdMap.mem_iff_exists, hh] at hm, rfl, rfl⟩
    · exact Or.inl ⟨OrdMap.mem_iff_exists.mpr ⟨iv, hh⟩, rfl, rfl⟩
  have hpayload : ∀ p, p ∈ st'.payloadValues ↔ p ∈ st.payloadValues ∨ p ∈ entry.produced := by
    intro p
    rw [hc.state]
    exact Std.ExtTreeMap.mem_union_iff
  refine ⟨fun p hp => ?_, fun p hp => ?_, ?_, ?_⟩
  · rcases hrecord p with ⟨hm, -, -⟩ | ⟨-, hv, he⟩
    · obtain ⟨hout, hrank⟩ := (hull p).mp hm
      exact absurd ⟨step, c.info, c.fn, hi, hout, hrank⟩ (hp i (Nat.lt_succ_self i))
    · rw [hv, he]
      exact h.untouched p fun m hm => hp m (hm.trans (Nat.lt_succ_self i))
  · rcases (hpayload p).mp hp with hp | hp
    · exact h.payloads p hp
    · have hmem := mem_payloadOutputs_of_mem_produced hswept hp
      rw [mem_payloadOutputs, hports] at hmem
      exact Or.inr hmem.2
  · intro m hm step' info' fn' p hm' hout hrank
    rw [hpayload]
    rcases Nat.lt_succ_iff_lt_or_eq.mp hm with hlt | rfl
    · exact Or.inl (h.produced m hlt step' info' fn' p hm' hout hrank)
    · obtain ⟨-, rfl, -⟩ := hi.unique hm'
      refine Or.inr (mem_produced hswept ?_)
      rw [mem_payloadOutputs, hinfo, hports]
      exact ⟨hout, hrank⟩
  · intro m hm p hmakes j hj hbears step' planned value hstep' hplanned hvalue
    rcases hrecord p with ⟨hmem, hv, he⟩ | ⟨hmem, hv, he⟩ <;> rw [hv] at hvalue <;> rw [he]
    · -- the step made the port: each of its inputs reaches the box that the port reaches
      obtain ⟨hout, hrank⟩ := (hull p).mp hmem
      have hmakes' : Makes reg route i p := ⟨step, c.info, c.fn, hi, hout, hrank⟩
      have hcall := h.plannedCall hplan hproper hstep hb fun q hq => .feeds hi hq hj hmakes' hbears
      refine hcover i j step step' c.info c.fn p planned hj hi hmakes' hstep' hbears hplanned w
        entry value ⟨hinfo, hfn, hports, fun q => ?_, fun q hq => ?_, fun q iv hiv => ?_⟩ hswept
        hvalue
      · rw [hbox, hrefs]
        exact hcall.mem_box q
      · exact hcall.mem_payloads q ((hrefs q).mp hq)
      · exact hcall.box q iv (hbox ▸ hiv)
    · rcases Nat.lt_succ_iff_lt_or_eq.mp hm with hlt | rfl
      · exact h.covered m hlt p hmakes j (by omega) hbears step' planned value hstep' hplanned hvalue
      · -- a scalar output of the step is in its hull
        obtain ⟨step₁, info₁, fn₁, hi₁, hout, hrank⟩ := hmakes
        obtain ⟨-, rfl, -⟩ := hi.unique hi₁
        exact absurd ((hull p).mpr ⟨hout, hrank⟩) hmem

/-- **Every run** carries it. -/
theorem Walks.carried (hinj : Function.Injective (canonicalDigest : Canonical K D → D))
    (hplan : PlansRoute reg excluded srq (.ok route)) (hcache : CacheSound reg stepCache₀)
    (hcover : EstimatesCover reg route srq.payloads) {i : ℕ} {st : ExecState K}
    {stepCache : Option (StepStore K Env D)}
    (h : Walks reg (srq.execRequest route epsBudget env) stepCache₀ i st stepCache) :
    Carried reg srq route i st := by
  induction h with
  | start => exact carried_start
  | @step i step st stepCache st' stepCache' hw hstep hx ih =>
      obtain ⟨c, entry, hc⟩ := executeStep_ok.mp hx
      exact ih.step hinj hplan hcover (hw.properState hcache srq.execRequest_known_proper)
        (hw.cacheSound hcache) hstep hc

/-- **Domain safety**: a planned route whose estimates cover is swept inside of the
declared boxes only, at every step of every run. -/
theorem execute_inDomain (hinj : Function.Injective (canonicalDigest : Canonical K D → D))
    (hplan : PlansRoute reg excluded srq (.ok route)) (hcache : CacheSound reg stepCache₀)
    (hcover : EstimatesCover reg route srq.payloads) :
    ∀ i c, Sweeps reg (srq.execRequest route epsBudget env) stepCache₀ i c → InDomain c := by
  rintro i c ⟨step, st, stepCache, hstep, hw, hbind, -⟩
  have hst := hw.carried hinj hplan hcache hcover
  have hb := bindStep_ok hbind
  have hbox : ∀ (p : Port) (iv allowed : Interval K), c.box[p]? = some iv →
      c.info.domain.portBox[p]? = some allowed → iv.isSubset allowed := by
    intro p iv allowed hiv hallowed
    have hbears : Bears reg route i p :=
      .box ⟨hstep, hb.registered⟩ ((hb.box p iv).mp hiv).1
        (OrdMap.mem_iff_exists.mpr ⟨allowed, hallowed⟩)
    obtain ⟨planned, -, hsub, hadmitted⟩ := hst.isSubset_planned hplan hstep hb hiv hbears
    exact Interval.isSubset_trans hsub (hadmitted allowed hallowed)
  refine ⟨hbox, fun corner hcorner p x allowed hx hallowed => ?_⟩
  obtain ⟨iv, hiv, hend⟩ := hcorner.exists_right hx
  obtain ⟨-, -, value, hv, he⟩ := (hb.box p iv).mp hiv
  have hstate := hw.properState hcache srq.execRequest_known_proper
  have hproper : iv.Proper := he ▸ inflate_proper (hstate.proper p value hv) (hstate.eps_nonneg p)
  refine Interval.contains_of_isSubset ?_ (hbox p iv allowed hiv hallowed)
  rcases hend with rfl | rfl
  · exact ⟨le_rfl, hproper⟩
  · exact ⟨hproper, le_rfl⟩

end Run

/-! ### A gain that the estimate does not see -/

/-- `gain: x → y` multiplies by `factor`; `narrow: y → z` wants `y` in `[0, 10]`. -/
def gainEntries (factor : ℚ) : List (SolverInfo ℚ × SolveFn ℚ Unit) :=
  [(plainInfo (plainSolver "gain" ["x"] [("y", 0)] 1 .both),
      plainFn fun x => [("y", factor * scalarArg x "x")]),
    (plainInfo { plainSolver "narrow" ["y"] [("z", 0)] 1 .both with
        domain := ⟨OrdMap.ofFn ["y"] fun _ => ⟨0, 10⟩, ∅⟩ },
      plainFn fun x => [("z", scalarArg x "y")])]

def gainRegistry : SolverRegistry ℚ Unit :=
  (SolverRegistry.build [] (gainEntries 1000)).toOption.get (by decide +kernel)

/-- The same solvers with a factor of 1. -/
def copyRegistry : SolverRegistry ℚ Unit :=
  (SolverRegistry.build [] (gainEntries 1)).toOption.get (by decide +kernel)

/-- `z` within 1, from `x = 1`. -/
def gainRequest : SolveRequest ℚ where
  known := OrdMap.ofFn ["x"] fun _ => Interval.point 1
  tags := ∅
  target := "z"
  epsBudget := .finite 1
  sense := .both
  payloads := ∅
  known_proper iv hiv := by
    obtain ⟨p, hp⟩ := OrdMap.mem_vals.mp hiv
    obtain ⟨-, rfl⟩ := OrdMap.getElem?_ofFn_eq_some.mp hp
    exact le_rfl

def gainRoute : Route ℚ where
  target := "z"
  steps := [⟨"gain", ⟨OrdMap.ofFn ["x"] fun _ => Interval.point 1, ∅⟩, 0, 1⟩,
    ⟨"narrow", ⟨OrdMap.ofFn ["y"] fun _ => Interval.point 1, ∅⟩, 0, 1⟩]
  predictedEps := 0
  totalCost := 2

theorem gainRoute_planned : PlansRoute gainRegistry ∅ gainRequest (.ok gainRoute) := by
  apply plansRoute_of_planRoute
  show planRoute 3 gainRegistry ∅ gainRequest = _
  decide +kernel

/-- The execution of the route, with a budget of 1 and no step cache. -/
def gainExecution : ExecRequest ℚ Unit := gainRequest.execRequest gainRoute (some 1) fun _ => ()

theorem copyRoute_planned : PlansRoute copyRegistry ∅ gainRequest (.ok gainRoute) := by
  apply plansRoute_of_planRoute
  show planRoute 3 copyRegistry ∅ gainRequest = _
  decide +kernel

/-- A solver that measures nothing and declares no eps is charged none. -/
theorem stepEps_plain {c : StepCall ℚ Unit} {entry : StepEntry ℚ} (h : sweepStep c = .ok entry)
    {f : PortMap (CornerValue ℚ) → List (Port × ℚ)} (hfn : c.fn = plainFn f)
    (hacc : ∀ (p : Port) acc, c.info.accuracy[p]? = some acc → ∀ iv, acc.worstOver iv = 0) :
    entry.stepEps = 0 := by
  obtain ⟨log, hs, heps⟩ := sweepStep_ok h
  have hnone : log.measured = [] := by
    apply List.eq_nil_iff_forall_not_mem.mpr
    intro eps hmem
    obtain ⟨corner, out, -, hout, hmeasured⟩ := (hs.measured eps).mp hmem
    obtain ⟨raw, hraw, hchk⟩ := (cornerFn_ok hout).2.2
    rw [invokeSolveFn, hfn] at hraw
    obtain rfl := Except.ok.inj hraw
    rw [hmeasured] at hchk
    cases hchk
  rw [hnone] at heps
  rcases (realizedEps_declared heps).2 with hzero | ⟨p, acc, iv, hp, he⟩
  · exact hzero
  · exact he.trans (hacc p acc hp iv)

/-- Planned at 1, `gain` is run at 1 alone. -/
theorem scalarArg_planned {payloads : PortMap PayloadRef} (hnone : ∀ p : Port, p ∉ payloads)
    {info : SolverInfo ℚ} {fn : SolveFn ℚ Unit} (hx : "x" ∈ info.inputs) {c : StepCall ℚ Unit}
    (hcall : PlannedCall copyRegistry payloads info fn
      (OrdMap.ofFn ["x"] fun _ => Interval.point 1) c) {corner : PortMap ℚ}
    (hcorner : IsCorner c.box corner) : scalarArg (fullCorner corner c.payloadInputs) "x" = 1 := by
  have hscalar : isPayloadPort copyRegistry.ports "x" = false := by decide +kernel
  have hnot : "x" ∉ c.payloadInputs := fun hp => by
    rcases hcall.mem_payloads "x" hp with h | h
    · exact hnone "x" h
    · rw [hscalar] at h
      cases h
  obtain ⟨iv, hiv⟩ := OrdMap.mem_iff_exists.mp ((hcall.mem_box "x").mpr ⟨hx, hnot⟩)
  obtain ⟨hproper, planned, hplanned, hsub⟩ := hcall.box "x" iv hiv
  obtain ⟨-, rfl⟩ := OrdMap.getElem?_ofFn_eq_some.mp hplanned
  obtain ⟨v, hv, hend⟩ := hcorner.exists_left hiv
  have hlo : iv.lo = 1 := le_antisymm (hproper.trans hsub.2) hsub.1
  have hhi : iv.hi = 1 := le_antisymm hsub.2 (hsub.1.trans hproper)
  have hone : v = 1 := by
    rcases hend with rfl | rfl
    · exact hlo
    · exact hhi
  simp only [scalarArg, fullCorner, Std.ExtTreeMap.getElem?_union, Std.ExtTreeMap.getElem?_map, hv,
    Std.ExtTreeMap.getElem?_eq_none hnot]
  exact hone

/-- With a factor of 1 the estimate of `y` is right. -/
theorem copy_covers : EstimatesCover copyRegistry gainRoute gainRequest.payloads := by
  intro m j step step' info fn p planned hmj hm hmakes hj hbears hplanned c entry hull hcall hsweep
    hhull
  have hlen : j < 2 := (List.getElem?_eq_some_iff.mp hj).1
  obtain ⟨rfl, rfl⟩ : m = 0 ∧ j = 1 := by omega
  obtain rfl := Option.some.inj hm.listed
  obtain rfl := Option.some.inj hj
  obtain ⟨hp, rfl⟩ := OrdMap.getElem?_ofFn_eq_some.mp hplanned
  obtain rfl := List.mem_singleton.mp hp
  -- the solver of the first step
  have hid : info.solverId = "gain" := copyRegistry.key_eq _ info fn hm.registered
  have hentry : (info, fn) ∈ gainEntries 1 :=
    SolverRegistry.build_entries (Fallible.eq_ok_get _) _
      (SolverRegistry.mem_entries.mpr (hid ▸ hm.registered))
  obtain ⟨rfl, rfl⟩ : info = plainInfo (plainSolver "gain" ["x"] [("y", 0)] 1 .both) ∧
      fn = plainFn fun x => [("y", 1 * scalarArg x "x")] := by
    rcases List.mem_cons.mp hentry with h | h
    · exact Prod.mk.inj h
    · obtain ⟨rfl, -⟩ := Prod.mk.inj (List.mem_singleton.mp h)
      exact absurd hid (by decide)
  have heps : entry.stepEps = 0 := by
    refine stepEps_plain hsweep hcall.fn_eq fun q acc hacc iv => ?_
    rw [hcall.info_eq] at hacc
    obtain ⟨hq, rfl⟩ := OrdMap.getElem?_ofFn_eq_some.mp hacc
    obtain rfl := List.mem_singleton.mp hq
    simp [Accuracy.worstOver, Accuracy.eps, Accuracy.absolute]
  obtain ⟨log, hs, -⟩ := sweepStep_ok hsweep
  have hvalue : ∀ v, (∃ corner, IsCorner c.box corner ∧ Computes c corner "y" v) → v = 1 := by
    rintro v ⟨corner, hcorner, out, hout, hlookup⟩
    rw [invokeSolveFn, hcall.fn_eq] at hout
    obtain rfl := Except.ok.inj hout
    have hx := scalarArg_planned (fun q => Std.ExtTreeMap.not_mem_empty) (by decide) hcall hcorner
    simp only [List.map_cons, List.map_nil, hx, List.lookup_cons_self] at hlookup
    cases hlookup
    norm_num
  have hpoint := hs.hull "y" hull hhull
  rw [heps, inflate_zero]
  exact ⟨(hvalue _ hpoint.lo_mem).ge, (hvalue _ hpoint.hi_mem).le⟩

theorem execute_inDomain_copy :
    EstimatesCover copyRegistry gainRoute gainRequest.payloads ∧
      ∀ i c, Sweeps copyRegistry gainExecution
        (none : Option (StepStore ℚ Unit (SymDigest ℚ))) i c → InDomain c :=
  ⟨copy_covers, execute_inDomain symDigest_injective copyRoute_planned cacheSound_none copy_covers⟩

/-- `narrow` is swept at 1000, and the execution succeeds. -/
theorem gainExecution_escapes :
    PlansRoute gainRegistry ∅ gainRequest (.ok gainRoute) ∧
    (∃ c, Sweeps gainRegistry gainExecution (none : Option (StepStore ℚ Unit (SymDigest ℚ))) 1 c ∧
      c.box["y"]? = some ⟨1000, 1000⟩ ∧ c.info.domain.portBox["y"]? = some ⟨0, 10⟩ ∧
      ¬ InDomain c) ∧
    ∃ solution, (executeWithAttribution gainRegistry gainExecution
      (none : Option (StepStore ℚ Unit (SymDigest ℚ)))).1 = .ok solution := by
  have hcall : (callAt gainRegistry gainExecution (SymDigest ℚ) 1).isSome := by decide +kernel
  obtain ⟨c, hc⟩ := Option.isSome_iff_exists.mp hcall
  have hbox : ((callAt gainRegistry gainExecution (SymDigest ℚ) 1).bind fun c => c.box["y"]?)
      = some ⟨1000, 1000⟩ := by decide +kernel
  have hallowed : ((callAt gainRegistry gainExecution (SymDigest ℚ) 1).bind fun c =>
      c.info.domain.portBox["y"]?) = some ⟨0, 10⟩ := by decide +kernel
  rw [hc, Option.bind_some] at hbox hallowed
  have hout : ¬ (⟨1000, 1000⟩ : Interval ℚ).isSubset ⟨0, 10⟩ := by decide +kernel
  have hrun : ((executeWithAttribution gainRegistry gainExecution
      (none : Option (StepStore ℚ Unit (SymDigest ℚ)))).1.toOption).isSome := by decide +kernel
  obtain ⟨solution, hs⟩ := Option.isSome_iff_exists.mp hrun
  exact ⟨gainRoute_planned, ⟨c, sweeps_of_callAt hc, hbox, hallowed,
    fun h => hout (h.box "y" _ _ hbox hallowed)⟩, solution, Fallible.eq_ok_of_toOption hs⟩

end Feldspar

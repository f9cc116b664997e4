/-
Feldspar/SolveTransparency.lean

When a call that shares the cache directory with earlier calls returns what it
returns without the caches.

The key of a solution folds the request, with the payloads as digests, and the
settings of the route; a hit is then only checked for the tools of the route
and of the solvers that the last failed attempt excluded.  `Current` is what
this leaves out: the payload refs themselves, the policy, the tools of every
route that was tried, and the provenance that JSON drops.

The argument is a simulation.  As long as nothing is served, an attempt is the
attempt without the caches (`afterPlan_uncached`).  A served solution is what
its writer returned without the caches (`Stored`), and a current one is what
the reader returns (`Repeats.rerun`).

In `cachedCalls_differ` a call without fallback reads what a call with fallback
wrote.
-/
import Feldspar.Totality

set_option linter.unusedSectionVars false

namespace Feldspar

variable {K : Type} [Field K] [LinearOrder K] {Env D : Type}

/-! ### Executions in another environment -/

section Environment

variable (reg : SolverRegistry K Env)

/-- A solver answers by its inputs and by whether its tools are there. -/
def DependsOnTools : Prop :=
  ∀ e ∈ reg.entries, ∀ env env', e.2.toolsPresent env = e.2.toolsPresent env' →
    ∀ x epsBudget, e.2.call env x epsBudget = e.2.call env' x epsBudget

variable {reg} {rq : ExecRequest K Env} {env' : ℕ → Env}

/-- A registered function, found under the id of a step. -/
theorem DependsOnTools.call_eq (htools : DependsOnTools reg) {solverId : SolverId}
    {info : SolverInfo K} {fn : SolveFn K Env} (hreg : reg.solvers[solverId]? = some (info, fn))
    {env env' : Env} (h : fn.toolsPresent env = fn.toolsPresent env')
    (x : PortMap (CornerValue K)) (epsBudget : Option K) :
    fn.call env x epsBudget = fn.call env' x epsBudget := by
  rw [← reg.key_eq _ _ _ hreg] at hreg
  exact htools (info, fn) (SolverRegistry.mem_entries.mpr hreg) env env' h x epsBudget

/-- What a step is run with depends on the environment in its own field only. -/
theorem bindStep_env (i : ℕ) (step : RouteStep K) (st : ExecState K) :
    bindStep reg { rq with env := env' } i step st
      = (bindStep reg rq i step st).map fun c => { c with env := env' i } := by
  unfold bindStep
  rcases index reg.solvers step.solverId with e | ⟨info, fn⟩
  · rfl
  show ((splitStepInputs info reg.ports st.values st.payloadValues).mapError Failure.err >>= _) = _
  rcases hs : splitStepInputs info reg.ports st.values st.payloadValues with e | ⟨ports, refs⟩
  · simp only [Except.mapError, bind, Except.bind, Except.map, hs]
  rcases hb : inflatedBox st.values st.epsMap ports with e | box
  · simp only [Except.mapError, bind, Except.bind, Except.map, hs, hb]
  · simp only [Except.mapError, bind, Except.bind, Except.map, hs, hb]
    rfl

variable [CanonicalDigest K D] [DecidableEq D]

theorem executeStep_env (htools : DependsOnTools reg) {i : ℕ} {step : RouteStep K}
    {st : ExecState K} (h : ∀ info fn, reg.solvers[step.solverId]? = some (info, fn) →
      fn.toolsPresent (rq.env i) = fn.toolsPresent (env' i)) :
    executeStep reg { rq with env := env' } i step st (none : Option (StepStore K Env D))
      = executeStep reg rq i step st (none : Option (StepStore K Env D)) := by
  unfold executeStep
  rw [bindStep_env]
  rcases hb : bindStep reg rq i step st with e | c
  · rfl
  have hc := bindStep_ok hb
  have hsweep : sweepStep { c with env := env' i } = sweepStep c := by
    apply sweepStep_congr (w := { c with env := env' i }) (c := c) rfl rfl rfl
    intro corner _
    apply htools.call_eq hc.registered
    rw [← h c.info c.fn hc.registered, hc.env]
  simp only [Except.map, runStep_none, hsweep]

/-- With the same tools, a walk goes the same way. -/
theorem executeSteps_env (htools : DependsOnTools reg) : ∀ {steps : List (RouteStep K)} {i : ℕ}
    {st : ExecState K}, (∀ step ∈ steps, ∀ info fn,
      reg.solvers[step.solverId]? = some (info, fn) →
      ∀ j, fn.toolsPresent (rq.env j) = fn.toolsPresent (env' j)) →
    executeSteps reg { rq with env := env' } i steps st (none : Option (StepStore K Env D))
      = executeSteps reg rq i steps st (none : Option (StepStore K Env D))
  | [], _, _, _ => rfl
  | step :: steps, i, st, h => by
      have hstep : executeStep reg { rq with env := env' } i step st
          (none : Option (StepStore K Env D)) = executeStep reg rq i step st none :=
        executeStep_env htools fun info fn hreg => h step List.mem_cons_self info fn hreg i
      have hnone : (executeStep reg rq i step st (none : Option (StepStore K Env D))).2 = none :=
        executeStep_none_snd
      unfold executeSteps
      rw [hstep]
      rcases hx : executeStep reg rq i step st (none : Option (StepStore K Env D)) with
        ⟨e | st', cache⟩
      · rfl
      · obtain rfl : cache = none := by rw [hx] at hnone; exact hnone
        exact executeSteps_env htools fun step hmem => h step (List.mem_cons_of_mem _ hmem)

theorem executeWithAttribution_env (htools : DependsOnTools reg)
    (h : ∀ step ∈ rq.route.steps, ∀ info fn, reg.solvers[step.solverId]? = some (info, fn) →
      ∀ j, fn.toolsPresent (rq.env j) = fn.toolsPresent (env' j)) :
    executeWithAttribution reg { rq with env := env' } (none : Option (StepStore K Env D))
      = executeWithAttribution reg rq (none : Option (StepStore K Env D)) := by
  unfold executeWithAttribution
  rw [executeSteps_env htools h]
  rfl

/-- Without a step cache there is none afterwards. -/
theorem executeSteps_none_snd : ∀ {steps : List (RouteStep K)} {i : ℕ} {st : ExecState K},
    (executeSteps reg rq i steps st (none : Option (StepStore K Env D))).2 = none
  | [], _, _ => rfl
  | step :: steps, i, st => by
      have hnone : (executeStep reg rq i step st (none : Option (StepStore K Env D))).2 = none :=
        executeStep_none_snd
      unfold executeSteps
      rcases hx : executeStep reg rq i step st (none : Option (StepStore K Env D)) with
        ⟨e | st', cache⟩ <;> rw [hx] at hnone
      · exact hnone
      · obtain rfl : cache = none := hnone
        exact executeSteps_none_snd

theorem executeWithAttribution_none_snd :
    (executeWithAttribution reg rq (none : Option (StepStore K Env D))).2 = none := by
  have hnone : (executeSteps reg rq 0 rq.route.steps (.init rq.known rq.payloads)
      (none : Option (StepStore K Env D))).2 = none := executeSteps_none_snd
  unfold executeWithAttribution
  rcases hx : executeSteps reg rq 0 rq.route.steps (.init rq.known rq.payloads)
    (none : Option (StepStore K Env D)) with ⟨e | st, cache⟩ <;> rw [hx] at hnone <;> exact hnone

end Environment

/-! ### Calls without the caches -/

/-- The same call with `cache=False`. -/
def SolveCall.uncached (call : SolveCall K Env) : SolveCall K Env :=
  { call with policy := { call.policy with cache := false } }

/-- The locals of the loop, without the caches. -/
def LoopState.uncached (s : LoopState K Env D) : LoopState K Env D :=
  { s with stepCache := none, solveCache := none }

/-- A result up to the flag. -/
def unflagged (result : SolveResult K D) : SolveResult K D :=
  result.map fun solution => { solution with cacheHit := false }

section Attempt

variable [CanonicalDigest K D] [DecidableEq D] [ToBits K]
variable {reg : SolverRegistry K Env} {call : SolveCall K Env} {s : LoopState K Env D}
variable {route : Route K}

/-- What the loop makes of an answer of the executor, with the caches and
without. -/
theorem afterExecute_uncached {key : Option D} {stepCache : Option (StepStore K Env D)}
    {x : Except (ExecFailure K) (Solution K D)} :
    (afterExecute call { s with stepCache } route key x).map Prod.fst LoopState.uncached
      = (afterExecute call.uncached s.uncached route none x).map Prod.fst id := by
  rcases x with (⟨failingId, e⟩ | e) | solution
  · unfold afterExecute
    rcases hfallback : call.policy.fallback with - | - <;>
      simp only [SolveCall.uncached, hfallback]
    · rfl
    · rcases blame failingId route with - | solverId <;> rfl
  · rfl
  · unfold afterExecute
    by_cases hover : overBudget call solution
    · have hover' : overBudget call.uncached solution := hover
      simp only [if_pos hover, if_pos hover']
      rcases hfallback : call.policy.fallback with - | - <;>
        simp only [SolveCall.uncached, hfallback]
      · rfl
      · rcases route.steps.getLast?.map RouteStep.solverId with - | solverId <;> rfl
    · have hover' : ¬ overBudget call.uncached solution := hover
      simp only [if_neg hover, if_neg hover']
      rfl

/-- A hit of the step cache with the same answers, swept when the tools were
there as they are now. -/
def StepCurrent (c : StepCall K Env) (file : Memo.Entry (StepCall K Env) (StepEntry K)) : Prop :=
  SameAnswers file.writer c ∧ c.fn.toolsPresent file.writer.env = true

theorem execution_uncached (hinj : Function.Injective (canonicalDigest : Canonical K D → D))
    (htools : DependsOnTools reg) (hcache : CacheSound reg s.stepCache)
    (hhits : ∀ i c file, Serves reg (attemptRequest call s route) s.stepCache i c file →
      StepCurrent c file) :
    execution reg call s route = execution reg call.uncached s.uncached route := by
  apply executeWithAttribution_transparent
  intro i c file hs
  obtain ⟨hsame, hwriter⟩ := hhits i c file hs
  obtain ⟨step, st, stepCache, -, hw, hbind, hfile⟩ := hs
  have hb := bindStep_ok hbind
  have hreg := hb.registered
  obtain ⟨-, -, -, -, hpresent⟩ := servedFile_eq_some.mp hfile
  have henv : ∀ x epsBudget, c.fn.call file.writer.env x epsBudget = c.fn.call c.env x epsBudget := by
    intro x epsBudget
    apply htools.call_eq hreg
    rw [hwriter, hpresent]
  rw [← reg.key_eq _ _ _ hreg] at hreg
  exact (hw.cacheSound hcache).recompute hinj hreg hb.portTable hfile hsame henv

/-- An attempt that nothing is served to is the attempt without the caches. -/
theorem afterPlan_uncached {key : Option D} (hmiss : lookup reg call s route = .ok (key, none))
    (hx : execution reg call s route = execution reg call.uncached s.uncached route) :
    (afterPlan reg call s (.ok route)).map Prod.fst LoopState.uncached
      = (afterPlan reg call.uncached s.uncached (.ok route)).map Prod.fst id := by
  have hnone : (executeWithAttribution reg (attemptRequest call.uncached s.uncached route)
      s.uncached.stepCache).2 = none := executeWithAttribution_none_snd
  have hcached : afterPlan reg call s (.ok route) = afterExecute call
      { s with stepCache := (executeWithAttribution reg (attemptRequest call s route)
        s.stepCache).2 } route key (execution reg call s route) := by
    simp only [afterPlan, hmiss]
    rfl
  rw [hcached, afterPlan_of_no_cache rfl, hnone, hx]
  exact afterExecute_uncached

theorem planFailed_uncached (e : PlanError K) :
    (planFailed s e).1 = (planFailed s.uncached e).1 := by
  unfold planFailed
  rcases hempty : s.excluded.isEmpty <;> simp only [LoopState.uncached, hempty] <;> rfl

/-- The solve cache stays as it is until the call ends. -/
theorem reaches_solveCache {s₀ : LoopState K Env D} {k : ℕ}
    (h : Retry.Reaches (Attempts reg call) s₀ k s) : s.solveCache = s₀.solveCache := by
  apply h.invariant (I := fun _ s => s.solveCache = s₀.solveCache) rfl
  rintro k s u - hs hu
  obtain ⟨route, record, solverId, -, hgo, -⟩ := attempt_goesOn hu
  exact hgo.solveCache.trans hs

/-- A solution that is returned without the caches: its last attempt executed
it, and its trail holds every attempt that failed before. -/
theorem returns_ok {s' : LoopState K Env D} {solution : Solution K D} (hnone : s.solveCache = none)
    (h : Retry.Returns (Attempts reg call) s (.ok solution, s')) :
    s.attempts <+: solution.attempts ∧ ∃ t route executed,
      execution reg call t route = .ok executed ∧
      solution = { executed with attempts := t.attempts, epsBudget := call.request.budget } := by
  obtain ⟨k, t, ht, hend⟩ := h.exists_reached
  have htrail : s.attempts <+: t.attempts := by
    apply ht.invariant (I := fun _ t => s.attempts <+: t.attempts) List.prefix_rfl
    rintro k t u - htrail hu
    obtain ⟨route, record, solverId, -, hgo, -⟩ := attempt_goesOn hu
    rw [hgo.attempts]
    exact htrail.trans (List.prefix_append _ _)
  obtain ⟨route, executed, -, hx, -, rfl⟩ := attempt_ok ((reaches_solveCache ht).trans hnone) hend
  exact ⟨htrail, t, route, executed, hx, rfl⟩

/-- What a last attempt leaves in the caches. -/
theorem afterExecute_done {key : Option D} {x : Except (ExecFailure K) (Solution K D)}
    {out : SolveResult K D × LoopState K Env D} (h : afterExecute call s route key x = .inl out) :
    out.2.stepCache = s.stepCache ∧ (out.2.solveCache = s.solveCache ∨ ∃ k solution,
      key = some k ∧ out.1 = .ok solution ∧
      out.2.solveCache = s.solveCache.map fun store => store.put k call solution) := by
  rcases x with (⟨failingId, e⟩ | e) | solution <;> unfold afterExecute at h <;> simp only at h
  · split at h
    · cases h
      exact ⟨rfl, Or.inl rfl⟩
    · split at h <;> cases h
      exact ⟨rfl, Or.inl rfl⟩
  · cases h
    exact ⟨rfl, Or.inl rfl⟩
  · split at h
    · split at h
      · cases h
        exact ⟨rfl, Or.inl rfl⟩
      · split at h <;> cases h
        exact ⟨rfl, Or.inl rfl⟩
    · cases h
      refine ⟨rfl, ?_⟩
      rcases key with - | k
      · exact Or.inl Option.map_id'
      · exact Or.inr ⟨k, _, rfl, rfl, rfl⟩

end Attempt

/-! ### The same call in another environment -/

section Rerun

variable [CanonicalDigest K D] [DecidableEq D] [ToBits K]
variable (reg : SolverRegistry K Env)

/-- The tools stay as they are during a call. -/
def Steady (call : SolveCall K Env) : Prop :=
  ∀ e ∈ reg.entries, ∀ k i, e.2.toolsPresent (call.env k i) = e.2.toolsPresent (call.env 0 0)

/-- The tools of a route's solvers are there for `call` as they were for `w`. -/
def SameTools (w call : SolveCall K Env) (route : Route K) : Prop :=
  ∀ step ∈ route.steps, ∀ info fn, reg.solvers[step.solverId]? = some (info, fn) →
    fn.toolsPresent (w.env 0 0) = fn.toolsPresent (call.env 0 0)

/-- A route that the trail of a solution tells of: its own, or that of a failed
attempt, planned without what the attempt's record excludes. -/
def Tried (rq : SolveRequest K) (solution : Solution K D) (route : Route K) : Prop :=
  route = solution.route ∨ ∃ record ∈ solution.attempts, ∃ excluded,
    record.excluded = excluded.toList ∧ PlansRoute reg excluded rq (.ok route)

variable {reg} {w call : SolveCall K Env} {s : LoopState K Env D} {route : Route K}

theorem afterExecute_congr {x : Except (ExecFailure K) (Solution K D)}
    (hrequest : w.request = call.request) (h : w.policy.fallback = call.policy.fallback ∨
      ∃ solution, x = .ok solution ∧ ¬ overBudget call solution) :
    afterExecute w s route none x = afterExecute call s route none x := by
  have hiff : ∀ solution : Solution K D, overBudget w solution ↔ overBudget call solution := by
    intro solution
    rw [overBudget, overBudget, hrequest]
  rcases x with (⟨failingId, e⟩ | e) | solution
  · rcases h with h | ⟨solution, h, -⟩
    · unfold afterExecute
      rw [h]
    · cases h
  · rfl
  · unfold afterExecute
    by_cases hover : overBudget call solution
    · have hfallback : w.policy.fallback = call.policy.fallback := by
        rcases h with h | ⟨solution', h, hnot⟩
        · exact h
        · exact absurd (Except.ok.inj h ▸ hover) hnot
      simp only [if_pos hover, if_pos ((hiff solution).mpr hover), hrequest, hfallback]
    · simp only [if_neg hover, if_neg (mt (hiff solution).mp hover), hrequest]

theorem execution_env (htools : DependsOnTools reg) (hw : Steady reg w) (hcall : Steady reg call)
    (hrequest : w.request = call.request) (hnone : s.stepCache = none)
    (hsame : SameTools reg w call route) :
    execution reg w s route = execution reg call s route := by
  have henv : ∀ step ∈ (attemptRequest call s route).route.steps, ∀ info fn,
      reg.solvers[step.solverId]? = some (info, fn) → ∀ j,
      fn.toolsPresent ((attemptRequest call s route).env j)
        = fn.toolsPresent (w.env s.attempts.length j) := by
    intro step hstep info fn hreg j
    have h := hsame step hstep info fn hreg
    rw [← reg.key_eq _ _ _ hreg] at hreg
    have hmem := SolverRegistry.mem_entries (e := (info, fn)).mpr hreg
    exact ((hcall _ hmem _ _).trans h.symm).trans (hw _ hmem _ _).symm
  have hrq : attemptRequest w s route
      = { attemptRequest call s route with env := w.env s.attempts.length } := by
    rw [attemptRequest, hrequest]
    rfl
  unfold execution
  rw [hnone, hrq, executeWithAttribution_env htools henv]

/-- An attempt without the caches, by a call of the same request. -/
theorem afterPlan_env (htools : DependsOnTools reg) (hw : Steady reg w) (hcall : Steady reg call)
    (hrequest : w.request = call.request) (hstep : s.stepCache = none) (hsolve : s.solveCache = none)
    (hsame : SameTools reg w call route) (h : w.policy.fallback = call.policy.fallback ∨
      ∃ solution, execution reg w s route = .ok solution ∧ ¬ overBudget call solution) :
    afterPlan reg w s (.ok route) = afterPlan reg call s (.ok route) := by
  have hsnd : ∀ call' : SolveCall K Env, (executeWithAttribution reg
      (attemptRequest call' s route) s.stepCache).2 = s.stepCache := by
    intro call'
    rw [hstep]
    exact executeWithAttribution_none_snd
  have hx : execution reg w s route = execution reg call s route :=
    execution_env htools hw hcall hrequest hstep hsame
  rw [afterPlan_of_no_cache hsolve, afterPlan_of_no_cache hsolve, hsnd, hsnd, ← hx]
  exact afterExecute_congr hrequest h

variable (reg w call) in
/-- `call` asks for what `w` asked for, finds the same tools along the trail of
the solution `fresh`, and reroutes where `w` did. -/
structure Repeats (fresh : Solution K D) : Prop where
  first : Steady reg w
  second : Steady reg call
  request : w.request = call.request
  fallback : call.policy.fallback = true ∨ fresh.attempts = []
  tools : ∀ route, Tried reg w.request fresh route → SameTools reg w call route

variable {fresh : Solution K D} {s' : LoopState K Env D}

theorem Repeats.done (htools : DependsOnTools reg) (h : Repeats reg w call fresh)
    (hstep : s.stepCache = none) (hsolve : s.solveCache = none)
    (hend : Attempts reg w s (.inl (.ok fresh, s'))) :
    Attempts reg call s (.inl (.ok fresh, s')) := by
  obtain ⟨route, executed, hplan, hx, hbudget, hfresh⟩ := attempt_ok hsolve hend
  have hsame : SameTools reg w call route := by
    apply h.tools route
    rw [hfresh]
    exact Or.inl (executeWithAttribution_route hx).symm
  have hbudget' : ¬ overBudget call executed := by
    rwa [overBudget, ← h.request]
  obtain ⟨r, hplan', hafter⟩ := hend
  obtain rfl := hplan'.unique hplan
  rw [afterPlan_env htools h.first h.second h.request hstep hsolve hsame
    (Or.inr ⟨executed, hx, hbudget'⟩)] at hafter
  exact ⟨.ok route, h.request ▸ hplan, hafter⟩

theorem Repeats.again (htools : DependsOnTools reg) (h : Repeats reg w call fresh)
    (hstep : s.stepCache = none) (hsolve : s.solveCache = none) {u : LoopState K Env D}
    (hreturned : Retry.Returns (Attempts reg w) u (.ok fresh, s'))
    (hu : Attempts reg w s (.inr u)) :
    Attempts reg call s (.inr u) ∧ u.stepCache = none ∧ u.solveCache = none := by
  obtain ⟨route, record, solverId, hplan, hgo, hcache⟩ := attempt_goesOn hu
  have hsolve' : u.solveCache = none := hgo.solveCache.trans hsolve
  -- the record of this attempt is in the trail of the solution
  have hrecord : record ∈ fresh.attempts := by
    apply (returns_ok hsolve' hreturned).1.subset
    rw [hgo.attempts]
    exact List.mem_append_right _ (List.mem_singleton_self _)
  have hsame : SameTools reg w call route :=
    h.tools route (Or.inr ⟨record, hrecord, s.excluded, hgo.record_excluded, hplan⟩)
  have hpolicy : w.policy.fallback = call.policy.fallback := by
    rcases h.fallback with hfallback | hnil
    · rw [hfallback, hgo.fallback]
    · rw [hnil] at hrecord
      cases hrecord
  obtain ⟨r, hplan', hafter⟩ := hu
  obtain rfl := hplan'.unique hplan
  have hstep' : u.stepCache = none := by
    rw [hcache, hstep]
    exact executeWithAttribution_none_snd
  rw [afterPlan_env htools h.first h.second h.request hstep hsolve hsame (Or.inl hpolicy)] at hafter
  exact ⟨⟨.ok route, h.request ▸ hplan, hafter⟩, hstep', hsolve'⟩

/-- **A second run**: without the caches, a call of the same request with the
same tools returns the solution that an earlier one returned. -/
theorem Repeats.rerun (htools : DependsOnTools reg) (h : Repeats reg w call fresh)
    (hreturns : Retry.Returns (Attempts reg w) (.start none none) (.ok fresh, s')) :
    Retry.Returns (Attempts reg call) (.start none none) (.ok fresh, s') := by
  -- both runs are in the state `s`, from which the first one returns `fresh`
  obtain ⟨out, hout, rfl⟩ : ∃ out, Retry.Returns (Attempts reg call) (.start none none) out ∧
      out = (.ok fresh, s') := by
    apply hreturns.simulate
      (Q := fun _ (out : SolveResult K D × LoopState K Env D) => out = (.ok fresh, s'))
      (I := fun s t => s = t ∧ s.stepCache = none ∧ s.solveCache = none ∧
        Retry.Returns (Attempts reg w) s (.ok fresh, s'))
    · exact ⟨rfl, rfl, rfl, hreturns⟩
    · rintro s _ out ⟨rfl, hstep, hsolve, hs⟩ hend
      obtain rfl := Retry.Returns.unique (fun _ _ _ => Attempts.unique) hs (.done hend)
      exact ⟨_, .done (h.done htools hstep hsolve hend), rfl⟩
    · rintro s _ u ⟨rfl, hstep, hsolve, hs⟩ hu
      have hreturned : Retry.Returns (Attempts reg w) u (.ok fresh, s') :=
        Retry.Reaches.returns_of (fun _ _ _ => Attempts.unique) (.again .start hu) hs
      obtain ⟨hcalled, hstep', hsolve'⟩ := h.again htools hstep hsolve hreturned hu
      exact ⟨u, hcalled, rfl, hstep', hsolve', hreturned⟩
  exact hout

end Rerun

/-! ### The directory -/

section Session

variable [CanonicalDigest K D] [DecidableEq D] [ToBits K]
variable (reg : SolverRegistry K Env)

/-- A file of the solve cache: its writer, run without the caches, returned
the solution that was written. -/
structure Stored (key : D) (w : SolveCall K Env) (solution : Solution K D) : Prop where
  steady : Steady reg w
  key : ∃ route, cacheKey reg w.request route = .ok key
  returned : ∃ fresh s, Retry.Returns (Attempts reg w.uncached) (.start none none) (.ok fresh, s) ∧
    solution = { fresh.reloaded with cacheHit := false }

/-- The file is what `call` would find out itself. -/
structure Current (call : SolveCall K Env)
    (file : Memo.Entry (SolveCall K Env) (Solution K D)) : Prop where
  /-- the key has their digests only -/
  payloads : file.writer.request.payloads = call.request.payloads
  fallback : call.policy.fallback = true ∨ file.value.attempts = []
  tools : ∀ route, Tried reg file.writer.request file.value route →
    SameTools reg file.writer call route
  /-- JSON has neither of the two -/
  provenance : ∀ step ∈ file.value.route.steps, ∀ info fn,
    reg.solvers[step.solverId]? = some (info, fn) →
    info.algebraicForm = none ∧ info.admissionPredicate = none

/-- Every file that the directory serves `call` with, a solution or a step, is
current. -/
structure HitsCurrent (stores : Stores K Env D) (call : SolveCall K Env) : Prop where
  solution : ∀ k s route key file, Retry.Reaches (Attempts reg call) (call.start stores) k s →
    PlansRoute reg s.excluded call.request (.ok route) →
    lookup reg call s route = .ok (key, some file) → Current reg call file
  step : ∀ k s route, Retry.Reaches (Attempts reg call) (call.start stores) k s →
    PlansRoute reg s.excluded call.request (.ok route) → Unserved reg call s route →
    ∀ i c file, Serves reg (attemptRequest call s route) s.stepCache i c file → StepCurrent c file

/-- A directory that a sequence of calls leaves, each of which meets `P` in the
directory that it finds. -/
inductive Session (P : Stores K Env D → SolveCall K Env → Prop) : Stores K Env D → Prop
  | empty : Session P .empty
  | call {stores call result s} : Session P stores → Steady reg call → P stores call →
      Retry.Returns (Attempts reg call) (call.start stores) (result, s) →
      Session P (stores.after s)

/-- The call returns `result`, up to the flag. -/
def Answers (call : SolveCall K Env) (stores : Stores K Env D) (result : SolveResult K D) : Prop :=
  ∃ out, Retry.Returns (Attempts reg call) (call.start stores) out ∧ unflagged out.1 = result

variable {reg} {call : SolveCall K Env} {stores : Stores K Env D} {s : LoopState K Env D}
variable {route : Route K}

theorem lookup_key {k : D} {file : Option (Memo.Entry (SolveCall K Env) (Solution K D))}
    (h : lookup reg call s route = .ok (some k, file)) :
    cacheKey reg call.request route = .ok k := by
  unfold lookup at h
  rcases hs : s.solveCache with - | store <;> rw [hs] at h
  · cases h
  obtain ⟨b, -, h⟩ := Fallible.bind_eq_ok.mp h
  cases b
  · cases h
  · obtain ⟨key, hkey, h⟩ := Fallible.bind_eq_ok.mp h
    cases h
    exact hkey

theorem lookup_file {key : Option D} {file : Memo.Entry (SolveCall K Env) (Solution K D)}
    (h : lookup reg call s route = .ok (key, some file)) :
    ∃ store k, s.solveCache = some store ∧ store k = some file ∧
      cacheKey reg call.request route = .ok k := by
  unfold lookup at h
  rcases hs : s.solveCache with - | store <;> rw [hs] at h
  · cases h
  obtain ⟨b, -, h⟩ := Fallible.bind_eq_ok.mp h
  cases b
  · cases h
  · obtain ⟨k, hkey, h⟩ := Fallible.bind_eq_ok.mp h
    obtain ⟨-, hfile⟩ := Prod.mk.inj (Except.ok.inj h)
    refine ⟨store, k, rfl, ?_, hkey⟩
    unfold SolveStore.get at hfile
    rcases hk : store k with - | file' <;> simp only [hk] at hfile
    · cases hfile
    · split at hfile
      · exact hfile
      · cases hfile

/-- What a key says of two requests: they agree, but for what is in their
payload refs besides the digests. -/
theorem request_eq_of_cacheKey (hinj : Function.Injective (canonicalDigest : Canonical K D → D))
    {rq rq' : SolveRequest K} {route' : Route K} {k : D} (h : cacheKey reg rq route = .ok k)
    (h' : cacheKey reg rq' route' = .ok k) (hpayloads : rq.payloads = rq'.payloads) : rq = rq' := by
  obtain ⟨digest, -, hk⟩ := Fallible.bind_eq_ok.mp h
  obtain ⟨digest', -, hk'⟩ := Fallible.bind_eq_ok.mp h'
  have hkey := hinj ((Except.ok.inj hk).trans (Except.ok.inj hk').symm)
  injection hkey with _ hrequest _ _
  have hrq := hinj hrequest
  injection hrq with hknown htags htarget hbudget hsense _
  cases rq
  cases rq'
  cases hknown
  cases htags
  cases htarget
  cases hbudget
  cases hsense
  cases hpayloads
  rfl

/-! ### Provenance -/

/-- A solution without symbolic provenance comes back from JSON as it is. -/
theorem reloaded_eq {solution : Solution K D} (hx : execution reg call s route = .ok solution)
    (h : ∀ step ∈ route.steps, ∀ info fn, reg.solvers[step.solverId]? = some (info, fn) →
      info.algebraicForm = none ∧ info.admissionPredicate = none) :
    solution.reloaded = solution := by
  obtain ⟨st, hw, hsol⟩ := execute_ok (Prod.ext hx rfl)
  obtain ⟨hform, hpred⟩ : st.stepAlgebraicForm = ∅ ∧ st.stepAdmissionPredicate = ∅ := by
    apply hw.invariant (I := fun _ st _ =>
      st.stepAlgebraicForm = ∅ ∧ st.stepAdmissionPredicate = ∅) ⟨rfl, rfl⟩
    rintro i step st stepCache c entry st' stepCache' hstep hc ⟨hform, hpred⟩
    obtain ⟨hnone, hnone'⟩ := h step (List.mem_of_getElem? hstep) c.info c.fn
      (bindStep_ok hc.bind).registered
    rw [hc.state, ExecState.record]
    simp only [hnone, hnone', ExecState.insertSome, hform, hpred, and_self]
  obtain ⟨value, -, hsol⟩ := Fallible.bind_eq_ok.mp hsol
  obtain ⟨digest, -, hsol⟩ := Fallible.bind_eq_ok.mp hsol
  obtain rfl := Except.ok.inj hsol
  rw [Solution.reloaded]
  simp only [hform, hpred]

/-! ### One call -/

variable (reg) in
/-- What the directory holds is what was found out without it. -/
structure SoundStores (stores : Stores K Env D) : Prop where
  steps : CacheSound reg (some stores.steps)
  solutions : Memo.Sound (Stored reg) stores.solutions

variable (reg stores call) in
/-- The call, in the state `s`, and the call without the caches, in `t`, have
come equally far. -/
structure Together (s t : LoopState K Env D) : Prop where
  uncached : t = s.uncached
  reached : ∃ k, Retry.Reaches (Attempts reg call) (call.start stores) k s
  fresh : ∃ k, Retry.Reaches (Attempts reg call.uncached) (.start none none) k t
  stepCache : CacheSound reg s.stepCache

variable (reg stores call) in
/-- The call and the call without the caches end with the same result. -/
structure EndTogether (out out' : SolveResult K D × LoopState K Env D) : Prop where
  result : unflagged out.1 = unflagged out'.1
  stepCache : CacheSound reg out.2.stepCache
  solveCache : out.2.solveCache = (call.start stores).solveCache ∨ ∃ route k solution,
    cacheKey reg call.request route = .ok k ∧ out'.1 = .ok solution ∧
    out.2.solveCache = (call.start stores).solveCache.map fun store => store.put k call solution

theorem start_stepCache (h : SoundStores reg stores) :
    CacheSound reg (call.start stores).stepCache := by
  unfold SolveCall.start
  split
  · exact h.steps
  · exact cacheSound_none

theorem start_solveCache {store : SolveStore K Env D}
    (h : (call.start stores).solveCache = some store) : store = stores.solutions := by
  unfold SolveCall.start at h
  split at h <;> cases h
  rfl

theorem together_start (h : SoundStores reg stores) :
    Together reg call stores (call.start stores) (.start none none) := by
  refine ⟨?_, ⟨0, .start⟩, ⟨0, .start⟩, start_stepCache h⟩
  unfold SolveCall.start
  split <;> rfl

variable {t : LoopState K Env D}

/-- A current file is what the call returns without the caches. -/
theorem Current.answer (hinj : Function.Injective (canonicalDigest : Canonical K D → D))
    (htools : DependsOnTools reg) (hsteady : Steady reg call) (hstores : SoundStores reg stores)
    (htogether : Together reg call stores s t) {key : Option D}
    {file : Memo.Entry (SolveCall K Env) (Solution K D)}
    (hlookup : lookup reg call s route = .ok (key, some file)) (hcurrent : Current reg call file) :
    ∃ fresh s', Retry.Returns (Attempts reg call.uncached) t (.ok fresh, s') ∧
      file.value = { fresh with cacheHit := false } := by
  obtain ⟨store, k, hstore, hfile, hkey⟩ := lookup_file hlookup
  obtain ⟨m, hs⟩ := htogether.reached
  rw [reaches_solveCache hs] at hstore
  obtain rfl := start_solveCache hstore
  obtain ⟨hw, ⟨route', hkey'⟩, fresh, s', hreturned, hvalue⟩ := hstores.solutions k file hfile
  have hrequest := request_eq_of_cacheKey hinj hkey' hkey hcurrent.payloads
  have hattempts : file.value.attempts = fresh.attempts := by rw [hvalue]; rfl
  have hroute : file.value.route = fresh.route := by rw [hvalue]; rfl
  have hrepeats : Repeats reg file.writer.uncached call.uncached fresh := by
    refine ⟨hw, hsteady, hrequest, ?_, ?_⟩
    · rw [← hattempts]
      exact hcurrent.fallback
    · intro route htried
      apply hcurrent.tools
      rwa [Tried, hattempts, hroute]
  have hrerun := hrepeats.rerun htools hreturned
  obtain ⟨n, ht⟩ := htogether.fresh
  refine ⟨fresh, s', ht.returns_of (fun _ _ _ => Attempts.unique) hrerun, ?_⟩
  -- JSON drops nothing
  obtain ⟨-, u, route₀, executed, hx, hfresh⟩ := returns_ok rfl hreturned
  have hreloaded : executed.reloaded = executed := by
    apply reloaded_eq hx
    intro step hstep
    apply hcurrent.provenance
    have hroute₀ : executed.route = route₀ := executeWithAttribution_route hx
    rw [hroute, hfresh]
    rwa [← hroute₀] at hstep
  rw [hvalue, hfresh, ← hreloaded]
  rfl

/-- An attempt that nothing is served to, next to the one without the
caches. -/
theorem Together.afterPlan_eq (hinj : Function.Injective (canonicalDigest : Canonical K D → D))
    (htools : DependsOnTools reg) (hhits : HitsCurrent reg stores call)
    (htogether : Together reg call stores s t)
    (hplan : PlansRoute reg s.excluded call.request (.ok route)) {key : Option D}
    (hmiss : lookup reg call s route = .ok (key, none)) :
    (afterPlan reg call s (.ok route)).map Prod.fst LoopState.uncached
      = (afterPlan reg call.uncached t (.ok route)).map Prod.fst id := by
  obtain ⟨n, hs⟩ := htogether.reached
  have hun : Unserved reg call s route := by
    intro key' file h
    rw [hmiss] at h
    cases h
  rw [htogether.uncached]
  apply afterPlan_uncached hmiss
  exact execution_uncached hinj htools htogether.stepCache (hhits.step n s route hs hplan hun)

theorem afterPlan_of_miss {key : Option D} (hmiss : lookup reg call s route = .ok (key, none)) :
    afterPlan reg call s (.ok route) = afterExecute call
      { s with stepCache := (executeWithAttribution reg (attemptRequest call s route)
        s.stepCache).2 } route key (execution reg call s route) := by
  simp only [afterPlan, hmiss]
  rfl

/-- Where the call goes on, the call without the caches does. -/
theorem Together.again (hinj : Function.Injective (canonicalDigest : Canonical K D → D))
    (htools : DependsOnTools reg) (hhits : HitsCurrent reg stores call)
    (htogether : Together reg call stores s t) {u : LoopState K Env D}
    (hu : Attempts reg call s (.inr u)) :
    ∃ u', Attempts reg call.uncached t (.inr u') ∧ Together reg call stores u u' := by
  obtain ⟨n, hs⟩ := htogether.reached
  obtain ⟨m, ht⟩ := htogether.fresh
  obtain ⟨route, record, solverId, hplan, -, hcache⟩ := attempt_goesOn hu
  have hu₀ := hu
  obtain ⟨r, hplan₀, hafter⟩ := hu₀
  obtain rfl := hplan₀.unique hplan
  obtain ⟨⟨key, file⟩, hlookup⟩ := exists_lookup hplan
  rcases file with - | file
  · have heq := htogether.afterPlan_eq hinj htools hhits hplan hlookup
    rw [hafter] at heq
    rcases hafter' : afterPlan reg call.uncached t (.ok route) with out | u' <;>
      rw [hafter'] at heq <;> cases heq
    have hplan' : PlansRoute reg t.excluded call.uncached.request (.ok route) := by
      rw [htogether.uncached]
      exact hplan
    have hu' : Attempts reg call.uncached t (.inr u.uncached) := ⟨_, hplan', hafter'⟩
    refine ⟨_, hu', rfl, ⟨_, hs.again hu⟩, ⟨_, ht.again hu'⟩, ?_⟩
    rw [hcache]
    exact htogether.stepCache.executeWithAttribution _
  · simp only [afterPlan, hlookup] at hafter
    cases hafter

/-- Where the call ends, the call without the caches ends with the same
result, at once or after the attempts that the file spares. -/
theorem Together.done (hinj : Function.Injective (canonicalDigest : Canonical K D → D))
    (htools : DependsOnTools reg) (hsteady : Steady reg call) (hstores : SoundStores reg stores)
    (hhits : HitsCurrent reg stores call) (htogether : Together reg call stores s t)
    {out : SolveResult K D × LoopState K Env D} (hend : Attempts reg call s (.inl out)) :
    ∃ out', Retry.Returns (Attempts reg call.uncached) t out' ∧
      EndTogether reg call stores out out' := by
  obtain ⟨n, hs⟩ := htogether.reached
  have hsolveCache : s.solveCache = (call.start stores).solveCache := reaches_solveCache hs
  obtain ⟨r, hplan, hafter⟩ := hend
  have hplan' : PlansRoute reg t.excluded call.uncached.request r := by
    rw [htogether.uncached]
    exact hplan
  rcases r with e | route
  · -- no route is left
    obtain rfl := Sum.inl.inj hafter
    refine ⟨_, .done ⟨_, hplan', rfl⟩, ?_, ?_, Or.inl ?_⟩
    · rw [htogether.uncached, planFailed_uncached]
    · unfold planFailed
      split <;> exact htogether.stepCache
    · unfold planFailed
      split <;> exact hsolveCache
  obtain ⟨⟨key, file⟩, hlookup⟩ := exists_lookup hplan
  rcases file with - | file
  · have heq := htogether.afterPlan_eq hinj htools hhits hplan hlookup
    rw [hafter] at heq
    rcases hafter' : afterPlan reg call.uncached t (.ok route) with out' | u' <;>
      rw [hafter'] at heq
    · have hresult : out.1 = out'.1 := Sum.inl.inj heq
      rw [afterPlan_of_miss hlookup] at hafter
      obtain ⟨hstep, hsolve⟩ := afterExecute_done hafter
      refine ⟨out', .done ⟨_, hplan', hafter'⟩, congrArg unflagged hresult, ?_, ?_⟩
      · rw [hstep]
        exact htogether.stepCache.executeWithAttribution _
      · rw [← hsolveCache]
        rcases hsolve with hsolve | ⟨k, solution, rfl, hout, hsolve⟩
        · exact Or.inl hsolve
        · exact Or.inr ⟨route, k, solution, lookup_key hlookup, hresult ▸ hout, hsolve⟩
    · cases heq
  · -- a served attempt leaves the caches as they are
    have hcurrent := hhits.solution n s route key file hs hplan hlookup
    obtain ⟨fresh, s', hreturns, hvalue⟩ :=
      hcurrent.answer hinj htools hsteady hstores htogether hlookup
    simp only [afterPlan, hlookup] at hafter
    obtain rfl := Sum.inl.inj hafter
    refine ⟨_, hreturns, ?_, htogether.stepCache, Or.inl hsolveCache⟩
    show Except.ok { file.value with cacheHit := false } = _
    rw [hvalue]
    rfl

/-- **One call**: it returns what it returns without the caches, and the
directory stays sound. -/
theorem solve_together (hinj : Function.Injective (canonicalDigest : Canonical K D → D))
    (htools : DependsOnTools reg) (hsteady : Steady reg call) (hstores : SoundStores reg stores)
    (hhits : HitsCurrent reg stores call) {out : SolveResult K D × LoopState K Env D}
    (h : Retry.Returns (Attempts reg call) (call.start stores) out) :
    (∃ out', Retry.Returns (Attempts reg call.uncached) (.start none none) out' ∧
      unflagged out.1 = unflagged out'.1) ∧ SoundStores reg (stores.after out.2) := by
  obtain ⟨out', hout', hend⟩ := h.simulate (I := Together reg call stores)
    (Q := EndTogether reg call stores) (together_start hstores)
    (fun _ _ _ htogether => htogether.done hinj htools hsteady hstores hhits)
    (fun _ _ _ htogether => htogether.again hinj htools hhits)
  refine ⟨⟨out', hout', hend.result⟩, ?_, ?_⟩
  · rcases hstep : out.2.stepCache with - | store
    · rw [Stores.after, hstep]
      exact hstores.steps
    · rw [Stores.after, hstep, Option.getD_some, ← hstep]
      exact hend.stepCache
  · have hstart : (call.start stores).solveCache.getD stores.solutions = stores.solutions := by
      unfold SolveCall.start
      split <;> rfl
    show Memo.Sound (Stored reg) (out.2.solveCache.getD stores.solutions)
    rcases hend.solveCache with hsolve | ⟨route, k, solution, hkey, hresult, hsolve⟩
    · rw [hsolve, hstart]
      exact hstores.solutions
    rw [hsolve]
    rcases hcache : (call.start stores).solveCache with - | store
    · exact hstores.solutions
    · -- the solution that was written is that of the call without the caches
      obtain rfl := start_solveCache hcache
      have hout : out' = (.ok solution, out'.2) := Prod.ext hresult rfl
      rw [hout] at hout'
      exact hstores.solutions.put ⟨hsteady, ⟨route, hkey⟩, solution, out'.2, hout', rfl⟩

/-- The directory of a session of such calls is sound. -/
theorem Session.sound (hinj : Function.Injective (canonicalDigest : Canonical K D → D))
    (htools : DependsOnTools reg) (h : Session reg (HitsCurrent reg) stores) :
    SoundStores reg stores := by
  induction h with
  | empty => exact ⟨cacheSound_empty, Memo.sound_empty⟩
  | call _ hsteady hhits hreturns ih =>
      exact (solve_together hinj htools hsteady ih hhits hreturns).2

/-- **Solve-cache transparency**: after any sequence of calls that share the
directory, a call returns what it returns without the caches, if the files that
it and the calls before it were served are current. -/
theorem solve_transparent (hinj : Function.Injective (canonicalDigest : Canonical K D → D))
    (htools : DependsOnTools reg) (h : Session reg (HitsCurrent reg) stores)
    (hsteady : Steady reg call) (hhits : HitsCurrent reg stores call) (result : SolveResult K D) :
    Answers reg call stores result ↔ Answers reg call.uncached stores result := by
  have hstores := h.sound hinj htools
  constructor
  · rintro ⟨out, hout, rfl⟩
    obtain ⟨⟨out', hout', heq⟩, -⟩ := solve_together hinj htools hsteady hstores hhits hout
    exact ⟨out', hout', heq.symm⟩
  · rintro ⟨out', hout', rfl⟩
    change Retry.Returns (Attempts reg call.uncached) (.start none none) out' at hout'
    -- the call is not stuck before the call without the caches ends
    obtain ⟨out, hout⟩ := hout'.of_simulation (I := Together reg call stores)
      (R := Attempts reg call) (fun _ _ _ => Attempts.unique) (together_start hstores)
      (by
        rintro s t x htogether ⟨r, hplan, -⟩
        rw [htogether.uncached] at hplan
        exact ⟨_, r, hplan, rfl⟩)
      (fun _ _ _ htogether => htogether.again hinj htools hhits)
    obtain ⟨⟨out'', hout'', heq⟩, -⟩ := solve_together hinj htools hsteady hstores hhits hout
    obtain rfl := Retry.Returns.unique (fun _ _ _ => Attempts.unique) hout'' hout'
    exact ⟨out, hout, heq⟩

/-- A file that is there after a call was there before, or the call wrote it. -/
theorem writer_of_after {out : SolveResult K D × LoopState K Env D}
    (h : Retry.Returns (Attempts reg call) (call.start stores) out) {k : D}
    {file : Memo.Entry (SolveCall K Env) (Solution K D)}
    (hfile : (stores.after out.2).solutions k = some file) :
    stores.solutions k = some file ∨ file.writer = call := by
  obtain ⟨n, s, hs, hend⟩ := h.exists_reached
  -- the last iteration keeps the store, or puts what this call solved
  have hsolve : out.2.solveCache = s.solveCache ∨ ∃ key solution,
      out.2.solveCache = s.solveCache.map fun store => store.put key call solution := by
    obtain ⟨r, hplan, hafter⟩ := hend
    rcases r with e | route
    · obtain rfl := Sum.inl.inj hafter
      rw [planFailed]
      split <;> exact Or.inl rfl
    rcases hl : lookup reg call s route with e | ⟨key, file'⟩
    · simp only [afterPlan, hl] at hafter
      exact Or.inl ((Sum.inl.inj hafter) ▸ rfl)
    rcases file' with - | file'
    · rw [afterPlan_of_miss hl] at hafter
      rcases (afterExecute_done hafter).2 with h | ⟨key, solution, -, -, h⟩
      · exact Or.inl h
      · exact Or.inr ⟨key, solution, h⟩
    · simp only [afterPlan, hl] at hafter
      exact Or.inl ((Sum.inl.inj hafter) ▸ rfl)
  rw [reaches_solveCache hs] at hsolve
  rw [Stores.after] at hfile
  rcases hcache : (call.start stores).solveCache with - | store <;> rw [hcache] at hsolve
  · rcases hsolve with h | ⟨key, solution, h⟩ <;> rw [h] at hfile <;> exact Or.inl hfile
  obtain rfl := start_solveCache hcache
  rcases hsolve with h | ⟨key, solution, h⟩ <;> rw [h] at hfile
  · exact Or.inl hfile
  · change Memo.put stores.solutions key call _ k = some file at hfile
    by_cases hk : k = key
    · subst hk
      rw [Memo.put, Function.update_self] at hfile
      exact Or.inr ((Option.some.inj hfile) ▸ rfl)
    · rw [Memo.put, Function.update_of_ne hk] at hfile
      exact Or.inl hfile

end Session

/-! ### Two calls -/

section NoPayloads

variable [CanonicalDigest K D] [DecidableEq D]
variable {reg : SolverRegistry K Env} {rq : ExecRequest K Env}

theorem not_participates (hports : ∀ p, isPayloadPort reg.ports p = false) {i : ℕ}
    {step : RouteStep K} {st : ExecState K} {c : StepCall K Env}
    (h : bindStep reg rq i step st = .ok c) (hst : st.payloadValues = ∅) :
    c.payloadOutputs = [] ∧ c.participates = false := by
  have hb := bindStep_ok h
  have hout : c.payloadOutputs = [] := by
    apply List.filter_eq_nil_iff.mpr
    intro p _
    rw [hb.portTable, hports p]
    exact Bool.false_ne_true
  have hin : c.payloadInputs = ∅ := by
    apply Std.ExtTreeMap.ext_getElem?
    intro p
    rw [hb.payloadInputs p, hst]
    simp
  refine ⟨hout, ?_⟩
  rw [StepCall.participates, hin, hout]
  simp

/-- Without payloads the step cache is not used. -/
theorem not_serves (hports : ∀ p, isPayloadPort reg.ports p = false) (hpayloads : rq.payloads = ∅)
    {stepCache₀ : Option (StepStore K Env D)} {i : ℕ} {c : StepCall K Env}
    {file : Memo.Entry (StepCall K Env) (StepEntry K)} : ¬ Serves reg rq stepCache₀ i c file := by
  rintro ⟨step, st, stepCache, -, hw, hbind, hfile⟩
  have hst : st.payloadValues = ∅ := by
    apply hw.invariant (I := fun _ st _ => st.payloadValues = ∅) hpayloads
    rintro i step st stepCache c entry st' stepCache' - hc hst
    obtain ⟨hout, hpart⟩ := not_participates hports hc.bind hst
    have hproduced : entry.produced = ∅ := by
      rcases runStep_ok hc.run with ⟨file, hserved, -⟩ | ⟨-, hswept, -⟩
      · obtain ⟨-, -, hpart', -⟩ := servedFile_eq_some.mp hserved
        rw [hpart] at hpart'
        cases hpart'
      · obtain ⟨⟨hull, log⟩, -, hswept⟩ := Fallible.bind_eq_ok.mp hswept
        obtain ⟨produced, hfold, hswept⟩ := Fallible.bind_eq_ok.mp hswept
        rw [hout] at hfold
        obtain rfl : ∅ = produced := Except.ok.inj hfold
        obtain ⟨stepEps, -, hswept⟩ := Fallible.bind_eq_ok.mp hswept
        exact (Except.ok.inj hswept) ▸ rfl
    rw [hc.state, ExecState.record, hst, hproduced]
    rfl
  obtain ⟨-, -, hpart, -⟩ := servedFile_eq_some.mp hfile
  rw [(not_participates hports hbind hst).2] at hpart
  cases hpart

end NoPayloads

/-- `t` within 1 from `x = 1`, with the caches. -/
def cachedCall (fallback : Bool) : SolveCall ℚ Unit :=
  { targetCall with policy := ⟨fallback, true⟩ }

theorem spare_dependsOnTools : DependsOnTools spareRegistry := by
  intro e _ env env' _ x epsBudget
  rfl

theorem spare_steady (call : SolveCall ℚ Unit) : Steady spareRegistry call := by
  intro e _ k i
  rfl

/-- A directory with files of this one call serves it what it wrote. -/
theorem spare_hitsCurrent {stores : Stores ℚ Unit (SymDigest ℚ)}
    (hwriter : ∀ k file, stores.solutions k = some file → file.writer = cachedCall true) :
    HitsCurrent spareRegistry stores (cachedCall true) := by
  constructor
  · intro k s route key file hs _ hlookup
    obtain ⟨store, k, hstore, hfile, -⟩ := lookup_file hlookup
    rw [reaches_solveCache hs] at hstore
    obtain rfl := start_solveCache hstore
    have hw := hwriter k file hfile
    refine ⟨by rw [hw], Or.inl rfl, fun route _ step _ info fn _ => by rw [hw], ?_⟩
    intro step _ info fn hreg
    rw [← spareRegistry.key_eq _ _ _ hreg] at hreg
    have hplain : ∀ e ∈ spareRegistry.entries,
        e.1.algebraicForm = none ∧ e.1.admissionPredicate = none := by decide +kernel
    exact hplain (info, fn) (SolverRegistry.mem_entries.mpr hreg)
  · intro k s route _ _ _ i c file hserves
    refine absurd hserves (not_serves ?_ rfl)
    intro p
    have hports : spareRegistry.ports = ∅ := by
      apply Std.ExtTreeMap.isEmpty_iff.mp
      decide +kernel
    rw [isPayloadPort, payloadKindOf, hports]
    rfl

/-- The flag of a result that is a solution. -/
def servedFlag (result : SolveResult ℚ (SymDigest ℚ)) : Option Bool :=
  result.toOption.map Solution.cacheHit

/-- The flag of a call that follows a call with fallback. -/
def secondFlag (fallback : Bool) : Option (Option Bool) :=
  (solveWithin spareRegistry (cachedCall true) 3 3 ((cachedCall true).start .empty)).bind fun out =>
    (solveWithin spareRegistry (cachedCall fallback) 3 3
      ((cachedCall fallback).start (Stores.empty.after out.2))).map fun out => servedFlag out.1

/-- What `secondFlag` runs. -/
theorem exists_secondCall {fallback : Bool} {flag : Option Bool}
    (h : secondFlag fallback = some flag) :
    ∃ first second : SolveResult ℚ (SymDigest ℚ) × LoopState ℚ Unit (SymDigest ℚ),
      Retry.Returns (Attempts spareRegistry (cachedCall true)) ((cachedCall true).start .empty)
        first ∧
      Retry.Returns (Attempts spareRegistry (cachedCall fallback))
        ((cachedCall fallback).start (Stores.empty.after first.2)) second ∧
      servedFlag second.1 = flag := by
  obtain ⟨first, hfirst, h⟩ := Option.bind_eq_some_iff.mp h
  obtain ⟨second, hsecond, rfl⟩ := Option.map_eq_some_iff.mp h
  exact ⟨first, second, returns_of_solveWithin hfirst, returns_of_solveWithin hsecond, rfl⟩

/-- Two equal calls: the second is served what the first one wrote. -/
theorem solve_transparent_spare :
    ∃ (stores : Stores ℚ Unit (SymDigest ℚ)) (second : SolveResult ℚ (SymDigest ℚ)),
      Session spareRegistry (HitsCurrent spareRegistry) stores ∧
      servedFlag second = some true ∧
      Answers spareRegistry (cachedCall true) stores (unflagged second) ∧
      Answers spareRegistry (cachedCall true).uncached stores (unflagged second) := by
  obtain ⟨first, second, hfirst, hsecond, hflag⟩ :=
    exists_secondCall (show secondFlag true = some (some true) by decide +kernel)
  have hsession : Session spareRegistry (HitsCurrent spareRegistry)
      (Stores.empty.after first.2 : Stores ℚ Unit (SymDigest ℚ)) := by
    apply Session.call .empty (spare_steady _) (spare_hitsCurrent _) hfirst
    intro k file h
    cases h
  have hhits : HitsCurrent spareRegistry
      (Stores.empty.after first.2 : Stores ℚ Unit (SymDigest ℚ)) (cachedCall true) := by
    apply spare_hitsCurrent
    intro k file hfile
    rcases writer_of_after hfirst hfile with h | h
    · cases h
    · exact h
  have hanswers : Answers spareRegistry (cachedCall true) (Stores.empty.after first.2)
      (unflagged second.1) := ⟨second, hsecond, rfl⟩
  exact ⟨_, second.1, hsession, hflag, hanswers, (solve_transparent symDigest_injective
    spare_dependsOnTools hsession (spare_steady _) hhits _).mp hanswers⟩

/-- A call without fallback is served a solution that the call before it found
after `A` had failed; without the caches it fails at `A` itself. -/
theorem cachedCalls_differ :
    Function.Injective (canonicalDigest : Canonical ℚ (SymDigest ℚ) → SymDigest ℚ) ∧
    DependsOnTools spareRegistry ∧
    ∃ (stores : Stores ℚ Unit (SymDigest ℚ)) (result : SolveResult ℚ (SymDigest ℚ)),
      Session spareRegistry (fun _ _ => True) stores ∧
      Steady spareRegistry (cachedCall false) ∧
      Answers spareRegistry (cachedCall false) stores result ∧
      ¬ Answers spareRegistry (cachedCall false).uncached stores result := by
  obtain ⟨first, second, hfirst, hsecond, hflag⟩ :=
    exists_secondCall (show secondFlag false = some (some true) by decide +kernel)
  have hfresh : (solveWithin spareRegistry (cachedCall false).uncached 3 3
      (.start none none : LoopState ℚ Unit (SymDigest ℚ))).map (fun out => servedFlag out.1)
      = some none := by decide +kernel
  obtain ⟨fresh, hreturns, hnone⟩ := Option.map_eq_some_iff.mp hfresh
  refine ⟨symDigest_injective, spare_dependsOnTools, _, unflagged second.1,
    .call .empty (spare_steady _) trivial hfirst, spare_steady _, ⟨second, hsecond, rfl⟩, ?_⟩
  rintro ⟨out, hout, heq⟩
  obtain rfl := Retry.Returns.unique (fun _ _ _ => Attempts.unique) hout
    (returns_of_solveWithin hreturns)
  -- one is an error, the other a solution
  rcases hsecond' : second.1 with e | solution <;> rw [hsecond'] at hflag heq
  · cases hflag
  · rcases hout' : out.1 with e | solution' <;> rw [hout'] at hnone heq
    · cases heq
    · cases hnone

end Feldspar

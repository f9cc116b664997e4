/-
Feldspar/StepTransparency.lean

When an execution with a step cache gives what it gives without one.

A step's key holds its solver, its box and the digests of its payload inputs.
It leaves out the rest of the refs and the budget that an eps-seeking
`SolveFn` is handed, so a hit is a recompute when these make no difference to
the answers (`SameAnswers`).  Every file of the cache was written by a sweep
over the registry (`CacheSound`), whatever runs came before; a run whose hits
are such hits is the run without the cache (`executeSteps_transparent`).

`ladderCalls_differ` has a hit that is not: the call that wrote the file had a
budget ten times as large.
-/
import Feldspar.Walk

set_option linter.unusedSectionVars false

namespace Feldspar

variable {K : Type} [Arith K] [LinearOrder K] {Env D : Type}

/-! ### A sweep is a function of the answers -/

/-- For the refs and the budget of `w`, the function of `c` answers what it
answers for those of `c`. -/
def SameAnswers (w c : StepCall K Env) : Prop :=
  ∀ corner, IsCorner c.box corner →
    invokeSolveFn c.fn c.env (fullCorner corner w.payloadInputs) w.remainingBudget
      = invokeSolveFn c.fn c.env (fullCorner corner c.payloadInputs) c.remainingBudget

theorem sameAnswers_of_eq {w c : StepCall K Env} (hrefs : w.payloadInputs = c.payloadInputs)
    (hbudget : c.fn.epsSeeking = true → w.remainingBudget = c.remainingBudget) :
    SameAnswers w c := by
  intro corner _
  unfold invokeSolveFn
  rw [hrefs]
  split
  · rw [hbudget ‹_›]
  · rfl

theorem cornerFn_congr {w c : StepCall K Env} (hinfo : w.info = c.info)
    (hports : w.portTable = c.portTable) {corner : PortMap K}
    (hans : invokeSolveFn w.fn w.env (fullCorner corner w.payloadInputs) w.remainingBudget
      = invokeSolveFn c.fn c.env (fullCorner corner c.payloadInputs) c.remainingBudget) :
    cornerFn w corner = cornerFn c corner := by
  simp only [cornerFn, StepCall.scalarOutputs, StepCall.payloadOutputs, hans, hinfo, hports]

/-- Steps of one solver over one box, with the same answers, have the same
entry. -/
theorem sweepStep_congr {w c : StepCall K Env} (hinfo : w.info = c.info)
    (hports : w.portTable = c.portTable) (hbox : w.box = c.box)
    (hans : ∀ corner, IsCorner c.box corner →
      invokeSolveFn w.fn w.env (fullCorner corner w.payloadInputs) w.remainingBudget
        = invokeSolveFn c.fn c.env (fullCorner corner c.payloadInputs) c.remainingBudget) :
    sweepStep w = sweepStep c := by
  have hsweep : sweep w = sweep c := by
    rw [sweep_eq, sweep_eq, hbox]
    congr 1
    apply Fallible.mapM_congr_left
    intro corner hcorner
    exact cornerFn_congr hinfo hports (hans corner (mem_enumerateCorners.mp hcorner))
  have hproduced : producedRef w = producedRef c := by
    funext log acc port
    unfold producedRef
    rw [hinfo]
  have hrealized : realizedEps w = realizedEps c := by
    have hdeclared : declaredStepEps w = declaredStepEps c := by
      funext hull port
      unfold declaredStepEps
      rw [hinfo]
    funext hull measured
    simp only [realizedEps, StepCall.scalarOutputs, hdeclared, hinfo, hports]
  simp only [sweepStep, StepCall.payloadOutputs, hsweep, hproduced, hrealized, hinfo, hports]

/-! ### A hit -/

section Hit

variable [CanonicalDigest K D] [DecidableEq D]
variable {reg : SolverRegistry K Env} {rq : ExecRequest K Env}

variable (reg) in
/-- A solver flagged deterministic answers the same in every environment. -/
def Deterministic : Prop :=
  ∀ e ∈ reg.entries, e.1.deterministic = true →
    ∀ env env' x epsBudget, e.2.call env x epsBudget = e.2.call env' x epsBudget

/-- What a step's key says of two steps of one registry. -/
theorem Genuine.of_stepKey (hinj : Function.Injective (canonicalDigest : Canonical K D → D))
    {w c : StepCall K Env} {entry : StepEntry K} (hw : Genuine reg w entry)
    (hc : reg.solvers[c.info.solverId]? = some (c.info, c.fn))
    (hkey : stepKey (D := D) w = stepKey c) :
    w.info = c.info ∧ w.fn = c.fn ∧ w.box = c.box := by
  have h := hinj hkey
  injection h with hid _ _ hbox _ _
  have hreg := hw.registered
  rw [hid, hc] at hreg
  obtain ⟨hinfo, hfn⟩ := Prod.mk.inj (Option.some.inj hreg)
  exact ⟨hinfo.symm, hfn.symm, hbox⟩

/-- Steps with one key have refs for the same ports. -/
theorem mem_payloadInputs_of_stepKey
    (hinj : Function.Injective (canonicalDigest : Canonical K D → D)) {w c : StepCall K Env}
    (hkey : stepKey (D := D) w = stepKey c) (p : Port) :
    p ∈ w.payloadInputs ↔ p ∈ c.payloadInputs := by
  have h := hinj hkey
  injection h with _ _ _ _ hpayloads _
  have hmem : ∀ c : StepCall K Env, p ∈ payloadDigests c.payloadInputs ↔ p ∈ c.payloadInputs :=
    fun c => Std.ExtTreeMap.mem_map
  rw [← hmem w, hpayloads, hmem c]

/-- Served or swept, an entry is what a sweep of the step's solver over the step's
box gave, with refs for the same ports. -/
theorem Completes.swept (hinj : Function.Injective (canonicalDigest : Canonical K D → D))
    {i : ℕ} {step : RouteStep K} {st st' : ExecState K}
    {stepCache stepCache' : Option (StepStore K Env D)} {c : StepCall K Env} {entry : StepEntry K}
    (hcache : CacheSound reg stepCache)
    (hc : Completes reg rq i step st stepCache c entry st' stepCache') :
    ∃ w, sweepStep w = .ok entry ∧ w.info = c.info ∧ w.fn = c.fn ∧ w.portTable = reg.ports ∧
      w.box = c.box ∧ ∀ p, p ∈ w.payloadInputs ↔ p ∈ c.payloadInputs := by
  have hb := bindStep_ok hc.bind
  rcases runStep_ok hc.run with ⟨file, hserved, rfl, -⟩ | ⟨-, hswept, -⟩
  · obtain ⟨hkey, hgen⟩ := hcache.served hserved
    have hreg := hb.registered
    rw [← reg.key_eq _ _ _ hreg] at hreg
    obtain ⟨hinfo, hfn, hbox⟩ := hgen.of_stepKey hinj hreg hkey
    exact ⟨file.writer, hgen.swept, hinfo, hfn, hgen.portTable, hbox,
      mem_payloadInputs_of_stepKey hinj hkey⟩
  · exact ⟨c, hswept, rfl, rfl, hb.portTable, rfl, fun p => Iff.rfl⟩

/-- Served or swept, an entry has the scalar outputs of its step. -/
theorem Completes.mem_hull (hinj : Function.Injective (canonicalDigest : Canonical K D → D))
    {i : ℕ} {step : RouteStep K} {st st' : ExecState K}
    {stepCache stepCache' : Option (StepStore K Env D)} {c : StepCall K Env} {entry : StepEntry K}
    (hcache : CacheSound reg stepCache)
    (hc : Completes reg rq i step st stepCache c entry st' stepCache') (p : Port) :
    p ∈ entry.hull ↔ p ∈ c.scalarOutputs := by
  obtain ⟨w, hswept, hinfo, -, hports, -⟩ := hc.swept hinj hcache
  obtain ⟨log, hs, -⟩ := sweepStep_ok hswept
  rw [hs.mem_hull, mem_scalarOutputs, mem_scalarOutputs, hinfo, hports,
    (bindStep_ok hc.bind).portTable]

/-- A hit with the same answers is a recompute. -/
theorem CacheSound.recompute (hinj : Function.Injective (canonicalDigest : Canonical K D → D))
    {stepCache : Option (StepStore K Env D)} (h : CacheSound reg stepCache)
    {c : StepCall K Env} (hreg : reg.solvers[c.info.solverId]? = some (c.info, c.fn))
    (hports : c.portTable = reg.ports) {file : Memo.Entry (StepCall K Env) (StepEntry K)}
    (hfile : servedFile stepCache c = some file) (hsame : SameAnswers file.writer c)
    (henv : ∀ x epsBudget, c.fn.call file.writer.env x epsBudget = c.fn.call c.env x epsBudget) :
    sweepStep c = .ok file.value := by
  obtain ⟨hkey, hgen⟩ := h.served hfile
  obtain ⟨hinfo, hfn, hbox⟩ := hgen.of_stepKey hinj hreg hkey
  rw [← hgen.swept]
  refine (sweepStep_congr hinfo (hgen.portTable.trans hports.symm) hbox ?_).symm
  intro corner hcorner
  rw [← hsame corner hcorner]
  unfold invokeSolveFn
  rw [hfn]
  exact henv _ _

/-! ### A run -/

theorem executeStep_none_snd {i : ℕ} {step : RouteStep K} {st : ExecState K} :
    (executeStep reg rq i step st (none : Option (StepStore K Env D))).2 = none := by
  unfold executeStep
  rcases bindStep reg rq i step st with e | c
  · rfl
  simp only [runStep_none]
  rcases sweepStep c with e | entry
  · rfl
  · simp only
    rcases checkStepOutputDomain c.info entry.hull entry.stepEps with e | ⟨⟩ <;> rfl

variable {stepCache₀ : Option (StepStore K Env D)}

/-- A step whose hit, if it is one, is a recompute goes as it goes without the
cache. -/
theorem executeStep_transparent {i : ℕ} {step : RouteStep K} {st : ExecState K}
    {stepCache : Option (StepStore K Env D)}
    (h : ∀ c file, bindStep reg rq i step st = .ok c → servedFile stepCache c = some file →
      sweepStep c = .ok file.value) :
    (executeStep reg rq i step st stepCache).1
      = (executeStep reg rq i step st (none : Option (StepStore K Env D))).1 := by
  unfold executeStep
  rcases hb : bindStep reg rq i step st with e | c
  · rfl
  have hrun : (runStep stepCache c).1 = sweepStep c := by
    unfold runStep
    rcases hf : servedFile stepCache c with - | file
    · simp only
      rcases sweepStep c with e | entry <;> rfl
    · exact (h c file hb hf).symm
  simp only [runStep_none]
  rw [← hrun]
  rcases runStep stepCache c with ⟨e | entry, cache⟩
  · rfl
  · simp only
    rcases checkStepOutputDomain c.info entry.hull entry.stepEps with e | ⟨⟩ <;> rfl

/-- A run whose hits are recomputes is the run without the cache. -/
theorem executeSteps_transparent
    (h : ∀ i c file, Serves reg rq stepCache₀ i c file → sweepStep c = .ok file.value) :
    ∀ {steps : List (RouteStep K)} {i : ℕ} {st : ExecState K}
      {stepCache : Option (StepStore K Env D)},
      Walks reg rq stepCache₀ i st stepCache → rq.route.steps.drop i = steps →
      (executeSteps reg rq i steps st stepCache).1
        = (executeSteps reg rq i steps st (none : Option (StepStore K Env D))).1
  | [], i, st, stepCache, _, _ => rfl
  | step :: steps, i, st, stepCache, hw, hd => by
      have hstep : rq.route.steps[i]? = some step := by
        rw [← List.head?_drop, hd]
        rfl
      have hrest : rq.route.steps.drop (i + 1) = steps := by
        rw [← List.tail_drop, hd]
        rfl
      have hsame : (executeStep reg rq i step st stepCache).1
          = (executeStep reg rq i step st (none : Option (StepStore K Env D))).1 :=
        executeStep_transparent fun c file hb hf =>
          h i c file ⟨step, st, stepCache, hstep, hw, hb, hf⟩
      have hnone : (executeStep reg rq i step st (none : Option (StepStore K Env D))).2 = none :=
        executeStep_none_snd
      unfold executeSteps
      rcases hx : executeStep reg rq i step st stepCache with ⟨e | st', cache⟩ <;>
        rcases hx' : executeStep reg rq i step st (none : Option (StepStore K Env D)) with
          ⟨e' | st'', cache'⟩ <;>
        rw [hx, hx'] at hsame <;> rw [hx'] at hnone
      · cases hsame
        rfl
      · cases hsame
      · cases hsame
      · cases hsame
        obtain rfl : cache' = none := hnone
        exact executeSteps_transparent h (hw.step hstep hx) hrest

/-- An execution whose hits are recomputes is the execution without the
cache. -/
theorem executeWithAttribution_transparent
    (h : ∀ i c file, Serves reg rq stepCache₀ i c file → sweepStep c = .ok file.value) :
    (executeWithAttribution reg rq stepCache₀).1
      = (executeWithAttribution reg rq (none : Option (StepStore K Env D))).1 := by
  have hsteps : (executeSteps reg rq 0 rq.route.steps (.init rq.known rq.payloads) stepCache₀).1
      = (executeSteps reg rq 0 rq.route.steps (.init rq.known rq.payloads)
          (none : Option (StepStore K Env D))).1 := by
    apply executeSteps_transparent h Walks.start
    exact List.drop_zero
  unfold executeWithAttribution
  rcases hx : executeSteps reg rq 0 rq.route.steps (.init rq.known rq.payloads) stepCache₀ with
      ⟨e | st, cache⟩ <;>
    rcases hx' : executeSteps reg rq 0 rq.route.steps (.init rq.known rq.payloads)
      (none : Option (StepStore K Env D)) with ⟨e' | st', cache'⟩ <;>
    rw [hx, hx'] at hsteps <;> cases hsteps <;> rfl

/-- The step cache that a sequence of calls leaves behind. -/
def cacheAfter (reg : SolverRegistry K Env) (calls : List (ExecRequest K Env)) :
    Option (StepStore K Env D) :=
  calls.foldl (fun stepCache rq => (executeWithAttribution reg rq stepCache).2) (some Memo.empty)

theorem cacheSound_cacheAfter (calls : List (ExecRequest K Env)) :
    CacheSound reg (cacheAfter reg calls : Option (StepStore K Env D)) := by
  induction calls using List.reverseRecOn with
  | nil => exact cacheSound_empty
  | append_singleton calls rq ih =>
      rw [cacheAfter, List.foldl_append, List.foldl_cons, List.foldl_nil]
      exact ih.executeWithAttribution rq

/-- **Step-cache transparency**: in a sequence of calls that share a step
cache, and whose hits have the same answers, every call ends in the same state
and with the same outcome as without the cache. -/
theorem executeCalls_transparent
    (hinj : Function.Injective (canonicalDigest : Canonical K D → D)) (hdet : Deterministic reg)
    {calls : List (ExecRequest K Env)}
    (hhits : ∀ (k : ℕ) rq, calls[k]? = some rq → ∀ i c file,
      Serves reg rq (cacheAfter reg (calls.take k) : Option (StepStore K Env D)) i c file →
      SameAnswers file.writer c) {k : ℕ} {rq : ExecRequest K Env} (hk : calls[k]? = some rq) :
    (executeSteps reg rq 0 rq.route.steps (.init rq.known rq.payloads)
        (cacheAfter reg (calls.take k) : Option (StepStore K Env D))).1
      = (executeSteps reg rq 0 rq.route.steps (.init rq.known rq.payloads)
          (none : Option (StepStore K Env D))).1 ∧
    (executeWithAttribution reg rq
        (cacheAfter reg (calls.take k) : Option (StepStore K Env D))).1
      = (executeWithAttribution reg rq (none : Option (StepStore K Env D))).1 := by
  have hsound : CacheSound reg (cacheAfter reg (calls.take k) : Option (StepStore K Env D)) :=
    cacheSound_cacheAfter _
  have hrecompute : ∀ i c file,
      Serves reg rq (cacheAfter reg (calls.take k) : Option (StepStore K Env D)) i c file →
      sweepStep c = .ok file.value := by
    intro i c file hs
    have hsame := hhits k rq hk i c file hs
    obtain ⟨step, st, stepCache, -, hw, hbind, hfile⟩ := hs
    have hb := bindStep_ok hbind
    have hreg := hb.registered
    rw [← reg.key_eq _ _ _ hreg] at hreg
    refine (hw.cacheSound hsound).recompute hinj hreg hb.portTable hfile hsame ?_
    -- only deterministic steps go through the cache
    obtain ⟨-, -, hpart, -, -⟩ := servedFile_eq_some.mp hfile
    have hflag : c.info.deterministic = true := (Bool.and_eq_true_iff.mp hpart).1
    exact hdet (c.info, c.fn) (SolverRegistry.mem_entries.mpr hreg) hflag _ _
  refine ⟨executeSteps_transparent hrecompute Walks.start List.drop_zero, ?_⟩
  exact executeWithAttribution_transparent hrecompute

end Hit

/-! ### The budget that the key leaves out -/

/-- Spends its whole budget: what it measures is the budget it is handed. -/
def ladderFn : SolveFn ℚ Unit where
  epsSeeking := true
  probeTools := none
  call _ _ epsBudget := .ok ⟨[("y", .finite 1)], some (.finite (epsBudget.getD 1)), ∅⟩

def ladderEntries : List (SolverInfo ℚ × SolveFn ℚ Unit) :=
  [({ plainInfo (plainSolver "ladder" ["g"] [("y", 0)] 1 .both) with epsSeeking := true }, ladderFn)]

def ladderRegistry : SolverRegistry ℚ Unit :=
  (SolverRegistry.build [⟨"g", "1", .payload "mesh"⟩, ⟨"y", "1", .scalar⟩]
    ladderEntries).toOption.get (by decide +kernel)

/-- `ladder` on one mesh, with a budget. -/
def ladderCall (epsBudget : ℚ) : ExecRequest ℚ Unit where
  route := ⟨"y", [⟨"ladder", ⟨∅, ∅⟩, 0, 1⟩], 0, 1⟩
  known := ∅
  payloads := OrdMap.ofFn ["g"] fun _ => ⟨"mesh", "d", "o", by decide⟩
  epsBudget := some epsBudget
  env _ := ()

theorem ladder_deterministic : Deterministic ladderRegistry := by
  intro e _ _ env env' x epsBudget
  rfl

/-- The eps of a call, with the cache that earlier calls left or without one. -/
def ladderEps (stepCache : Option (StepStore ℚ Unit (SymDigest ℚ))) (epsBudget : ℚ) : Option ℚ :=
  (executeWithAttribution ladderRegistry (ladderCall epsBudget) stepCache).1.toOption.map
    Solution.eps

/-- What the one step of a call is run with. -/
def ladderStepCall : StepCall ℚ Unit :=
  (bindStep ladderRegistry (ladderCall 10) 0 ⟨"ladder", ⟨∅, ∅⟩, 0, 1⟩
    (.init ∅ (ladderCall 10).payloads)).toOption.get (by decide +kernel)

/-- Two equal calls meet the condition: the second is served what the first
one wrote, for the same mesh and the same budget. -/
theorem ladder_sameAnswers (k : ℕ) (rq : ExecRequest ℚ Unit)
    (hk : [ladderCall 10, ladderCall 10][k]? = some rq) (i : ℕ) (c : StepCall ℚ Unit)
    (file : Memo.Entry (StepCall ℚ Unit) (StepEntry ℚ))
    (hs : Serves ladderRegistry rq (cacheAfter ladderRegistry
      ([ladderCall 10, ladderCall 10].take k) : Option (StepStore ℚ Unit (SymDigest ℚ))) i c file) :
    SameAnswers file.writer c := by
  obtain rfl : rq = ladderCall 10 := by
    rcases k with - | - | k
    · exact (Option.some.inj hk).symm
    · exact (Option.some.inj hk).symm
    · simp at hk
  obtain ⟨step, st, stepCache, hstep, hw, hbind, hfile⟩ := hs
  -- the only step is the first
  obtain rfl : i = 0 := by
    have : i < 1 := (List.getElem?_eq_some_iff.mp hstep).1
    omega
  cases hw
  obtain rfl := Option.some.inj hstep
  obtain rfl : ladderStepCall = c :=
    Except.ok.inj ((Fallible.eq_ok_get (by decide +kernel)).symm.trans hbind)
  rcases k with - | - | k
  · rw [List.take_zero] at hfile
    have hempty : (servedFile (cacheAfter ladderRegistry [] :
        Option (StepStore ℚ Unit (SymDigest ℚ))) ladderStepCall).isNone := by decide +kernel
    rw [hfile] at hempty
    cases hempty
  · have hwriter : (servedFile (cacheAfter ladderRegistry [ladderCall 10] :
          Option (StepStore ℚ Unit (SymDigest ℚ))) ladderStepCall).map (fun file =>
          (file.writer.payloadInputs, file.writer.remainingBudget))
        = some (ladderStepCall.payloadInputs, ladderStepCall.remainingBudget) := by decide +kernel
    have htake : [ladderCall 10, ladderCall 10].take (0 + 1) = [ladderCall 10] := rfl
    rw [htake] at hfile
    rw [hfile] at hwriter
    obtain ⟨hrefs, hbudget⟩ := Prod.mk.inj (Option.some.inj hwriter)
    exact sameAnswers_of_eq hrefs fun _ => hbudget
  · simp at hk

theorem executeCalls_transparent_ladder :
    (executeSteps ladderRegistry (ladderCall 10) 0 (ladderCall 10).route.steps
        (.init (ladderCall 10).known (ladderCall 10).payloads)
        (cacheAfter ladderRegistry [ladderCall 10] :
          Option (StepStore ℚ Unit (SymDigest ℚ)))).1
      = (executeSteps ladderRegistry (ladderCall 10) 0 (ladderCall 10).route.steps
          (.init (ladderCall 10).known (ladderCall 10).payloads)
          (none : Option (StepStore ℚ Unit (SymDigest ℚ)))).1 ∧
    (executeWithAttribution ladderRegistry (ladderCall 10)
        (cacheAfter ladderRegistry [ladderCall 10] :
          Option (StepStore ℚ Unit (SymDigest ℚ)))).1
      = (executeWithAttribution ladderRegistry (ladderCall 10)
          (none : Option (StepStore ℚ Unit (SymDigest ℚ)))).1 := by
  have hk : [ladderCall 10, ladderCall 10][1]? = some (ladderCall 10) := rfl
  exact executeCalls_transparent symDigest_injective ladder_deterministic ladder_sameAnswers hk

/-- After a call with a budget of 10, a call with a budget of 1 gets the eps
of the first. -/
theorem ladderCalls_differ :
    Function.Injective (canonicalDigest : Canonical ℚ (SymDigest ℚ) → SymDigest ℚ) ∧
    Deterministic ladderRegistry ∧
    (executeWithAttribution ladderRegistry (ladderCall 1)
        (cacheAfter ladderRegistry [ladderCall 10] :
          Option (StepStore ℚ Unit (SymDigest ℚ)))).1
      ≠ (executeWithAttribution ladderRegistry (ladderCall 1)
          (none : Option (StepStore ℚ Unit (SymDigest ℚ)))).1 := by
  refine ⟨symDigest_injective, ladder_deterministic, fun h => ?_⟩
  have hcached : ladderEps (cacheAfter ladderRegistry [ladderCall 10]) 1 = some 10 := by
    decide +kernel
  have hfresh : ladderEps none 1 = some 1 := by decide +kernel
  rw [ladderEps, h] at hcached
  rw [ladderEps, hcached] at hfresh
  exact absurd hfresh (by decide +kernel)

end Feldspar

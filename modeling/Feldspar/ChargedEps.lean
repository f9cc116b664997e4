/-
Feldspar/ChargedEps.lean

Which corners the eps of a step covers.

A `SolveFn` may report a measured eps at some corners of a sweep and not at
others.  As soon as one corner reports, the charged eps is the worst report, and
the declared accuracy at the corners that are silent is not looked at.  So the
charged eps covers every corner iff what is declared at the silent ones is below
some report (`chargesEveryCorner_iff`).
-/
import Feldspar.Execute

set_option linter.unusedSectionVars false

namespace Feldspar

variable {K : Type} [Field K] [LinearOrder K] {Env D : Type}

/-- The `SolveFn` reports the eps `m` at the corner. -/
def Reports (c : StepCall K Env) (corner : PortMap K) (m : K) : Prop :=
  ∃ out, invokeSolveFn c.fn c.env (fullCorner corner c.payloadInputs) c.remainingBudget = .ok out ∧
    out.measuredEps = some (.finite m)

/-- The `SolveFn` reports no eps at the corner. -/
def Silent (c : StepCall K Env) (corner : PortMap K) : Prop :=
  ∃ out, invokeSolveFn c.fn c.env (fullCorner corner c.payloadInputs) c.remainingBudget = .ok out ∧
    out.measuredEps = none

/-- `eps` is the declared error of a scalar output at the corner. -/
def Declares (c : StepCall K Env) (corner : PortMap K) (eps : K) : Prop :=
  ∃ p acc v, p ∈ c.scalarOutputs ∧ c.info.accuracy[p]? = some acc ∧ Computes c corner p v ∧
    eps = acc.eps v

/-- The charged eps is at least every report, and at a silent corner at least
what is declared there. -/
structure ChargesEveryCorner (c : StepCall K Env) (stepEps : K) : Prop where
  reported : ∀ corner m, IsCorner c.box corner → Reports c corner m → m ≤ stepEps
  declared : ∀ corner eps, IsCorner c.box corner → Silent c corner → Declares c corner eps →
    eps ≤ stepEps

/-- No corner reports, or what is declared at a silent corner is at most some
report. -/
def SilentBelowReports (c : StepCall K Env) : Prop :=
  (∀ corner m, IsCorner c.box corner → ¬ Reports c corner m) ∨
    ∀ corner eps, IsCorner c.box corner → Silent c corner → Declares c corner eps →
      ∃ corner' m, IsCorner c.box corner' ∧ Reports c corner' m ∧ eps ≤ m

/-- What a corner adds to the log is what its `SolveFn` reports. -/
theorem reports_iff {c : StepCall K Env} {corner : PortMap K} {out : CornerOutput K} {m : K}
    (h : cornerFn c corner = .ok out) : Reports c corner m ↔ out.measured = some m := by
  obtain ⟨raw, hraw, hchecked⟩ := (cornerFn_ok h).2.2
  have hreport : Reports c corner m ↔ raw.measuredEps = some (.finite m) := by
    constructor
    · rintro ⟨out', hout', hm⟩
      rw [hraw, Except.ok.injEq] at hout'
      exact hout' ▸ hm
    · exact fun hm => ⟨raw, hraw, hm⟩
  rw [hreport]
  rcases hm : raw.measuredEps with - | (x | -)
  · rw [hm] at hchecked
    simp [← Except.ok.inj hchecked]
  · rw [hm] at hchecked
    simp only [checkMeasured] at hchecked
    split_ifs at hchecked
    simp [← Except.ok.inj hchecked]
  · rw [hm] at hchecked
    cases hchecked

theorem Swept.mem_measured_iff {c : StepCall K Env} {hull : PortMap (Interval K)}
    {log : SweepLog K} (h : Swept c hull log) {m : K} :
    m ∈ log.measured ↔ ∃ corner, IsCorner c.box corner ∧ Reports c corner m := by
  rw [h.measured]
  constructor
  · rintro ⟨corner, out, hcorner, hout, hm⟩
    exact ⟨corner, hcorner, (reports_iff hout).mpr hm⟩
  · rintro ⟨corner, hcorner, hreports⟩
    obtain ⟨out, hout⟩ := h.corner corner hcorner
    exact ⟨corner, out, hcorner, hout, (reports_iff hout).mp hreports⟩

section Ordered

variable [IsStrictOrderedRing K] {c : StepCall K Env} {hull : PortMap (Interval K)}
  {log : SweepLog K} {stepEps : K}

/-- Where no corner reports, the charged eps covers what every corner declares. -/
theorem declares_le (hswept : Swept c hull log)
    (heps : realizedEps c hull [] = .ok stepEps) {corner : PortMap K} {eps : K}
    (hcorner : IsCorner c.box corner) (hdeclares : Declares c corner eps) : eps ≤ stepEps := by
  obtain ⟨p, acc, v, hp, hacc, hv, rfl⟩ := hdeclares
  obtain ⟨iv, hiv⟩ := OrdMap.mem_iff_exists.mp ((hswept.mem_hull p).mpr hp)
  have hcontains : iv.contains v := (hswept.hull p iv hiv).contains v ⟨corner, hcorner, hv⟩
  calc acc.eps v ≤ acc.worstOver iv := acc.eps_le_worstOver hcontains
    _ ≤ stepEps := (realizedEps_declared heps).1 p acc iv hp hacc hiv

theorem chargesEveryCorner_swept (hswept : Swept c hull log)
    (heps : realizedEps c hull log.measured = .ok stepEps) :
    ChargesEveryCorner c stepEps ↔ SilentBelowReports c := by
  by_cases hnone : log.measured = []
  · -- nothing was measured
    have hsilent : ∀ corner m, IsCorner c.box corner → ¬ Reports c corner m := by
      intro corner m hcorner hreports
      have hmem := hswept.mem_measured_iff.mpr ⟨corner, hcorner, hreports⟩
      rw [hnone] at hmem
      cases hmem
    rw [hnone] at heps
    refine ⟨fun _ => Or.inl hsilent, fun _ => ⟨fun corner m hcorner hreports => ?_, ?_⟩⟩
    · exact absurd hreports (hsilent corner m hcorner)
    · exact fun corner eps hcorner _ hdeclares => declares_le hswept heps hcorner hdeclares
  · -- the charged eps is one of the reports, and the worst
    obtain ⟨m₀, hm₀⟩ := List.exists_mem_of_ne_nil _ hnone
    obtain ⟨worst, hworst, hreports⟩ :=
      hswept.mem_measured_iff.mp (realizedEps_measured heps hm₀).2
    have hle : ∀ corner m, IsCorner c.box corner → Reports c corner m → m ≤ stepEps :=
      fun corner m hcorner hm =>
        (realizedEps_measured heps (hswept.mem_measured_iff.mpr ⟨corner, hcorner, hm⟩)).1
    constructor
    · exact fun h => Or.inr fun corner eps hcorner hsilent hdeclares =>
        ⟨worst, stepEps, hworst, hreports, h.declared corner eps hcorner hsilent hdeclares⟩
    · rintro (hsilent | hbelow)
      · exact absurd hreports (hsilent worst stepEps hworst)
      · refine ⟨hle, fun corner eps hcorner hsilent hdeclares => ?_⟩
        obtain ⟨corner', m, hcorner', hm, heps'⟩ := hbelow corner eps hcorner hsilent hdeclares
        exact heps'.trans (hle corner' m hcorner' hm)

/-- **When the charged eps covers every corner** of a step that was not served
from the cache: iff what the silent corners declare is below some report. -/
theorem chargesEveryCorner_iff [CanonicalDigest K D] [DecidableEq D]
    {stepCache : Option (StepStore K Env D)} {entry : StepEntry K}
    (hmiss : servedFile stepCache c = none) (h : (runStep stepCache c).1 = .ok entry) :
    ChargesEveryCorner c entry.stepEps ↔ SilentBelowReports c := by
  have hstep : sweepStep c = .ok entry := by
    unfold runStep at h
    rw [hmiss] at h
    rcases hsweep : sweepStep c with e | entry' <;> rw [hsweep] at h
    · cases h
    · exact h
  obtain ⟨log, hswept, heps⟩ := sweepStep_ok hstep
  exact chargesEveryCorner_swept hswept heps

end Ordered

/-! ### A mixed report -/

/-- `t = x`, with a measured eps of 0 at `x = 0` only. -/
def mixedFn : SolveFn ℚ Unit where
  epsSeeking := false
  probeTools := none
  call _ x _ := .ok ⟨[("t", .finite (scalarArg x "x"))],
    if scalarArg x "x" = 0 then some (.finite 0) else none, ∅⟩

/-- Its declared accuracy is 5, over `x` in `[0, hi]`. -/
def mixedCall (hi : ℚ) : StepCall ℚ Unit where
  info := plainInfo (plainSolver "mixed" ["x"] [("t", 5)] 1 .both)
  fn := mixedFn
  portTable := ∅
  box := OrdMap.ofFn ["x"] fun _ => ⟨0, hi⟩
  payloadInputs := ∅
  remainingBudget := none
  env := ()

/-- The eps that a step without a cache is charged. -/
def chargedEps (c : StepCall ℚ Unit) : Option ℚ :=
  (runStep (none : Option (StepStore ℚ Unit (SymDigest ℚ))) c).1.toOption.map StepEntry.stepEps

theorem isCorner_mixedCall {hi x : ℚ} (hx : x = 0 ∨ x = hi) :
    IsCorner (mixedCall hi).box (OrdMap.ofFn ["x"] fun _ => x) := by
  show OrdMap.Rel (fun (v : ℚ) (iv : Interval ℚ) => v = iv.lo ∨ v = iv.hi)
    (OrdMap.ofFn ["x"] fun _ => x) (OrdMap.ofFn ["x"] fun _ => ⟨0, hi⟩)
  exact OrdMap.rel_ofFn fun _ _ => hx

/-- The silent corner at 1 declares an eps of 5; the step is charged 0. -/
theorem not_chargesEveryCorner_mixed : ∃ entry,
    (runStep (none : Option (StepStore ℚ Unit (SymDigest ℚ))) (mixedCall 1)).1 = .ok entry ∧
    ¬ ChargesEveryCorner (mixedCall 1) entry.stepEps := by
  have hrun : chargedEps (mixedCall 1) = some 0 := by decide +kernel
  obtain ⟨entry, hentry, heps⟩ := Option.map_eq_some_iff.mp hrun
  refine ⟨entry, Fallible.eq_ok_of_toOption hentry, fun hcharges => ?_⟩
  have harg : scalarArg (fullCorner (OrdMap.ofFn ["x"] fun _ => 1) (mixedCall 1).payloadInputs) "x"
      = 1 := by
    decide +kernel
  have hsilent : Silent (mixedCall 1) (OrdMap.ofFn ["x"] fun _ => 1) := by
    refine ⟨_, rfl, ?_⟩
    show (if scalarArg (fullCorner (OrdMap.ofFn ["x"] fun _ => 1) (mixedCall 1).payloadInputs) "x"
      = 0 then some (F64.finite (0 : ℚ)) else none) = none
    rw [harg]
    rfl
  have hdeclares : Declares (mixedCall 1) (OrdMap.ofFn ["x"] fun _ => 1) 5 := by
    refine ⟨"t", .absolute 5 (by norm_num), 1, by decide +kernel, ?_, ⟨_, rfl, ?_⟩, ?_⟩
    · exact OrdMap.getElem?_ofFn_eq_some.mpr ⟨List.mem_cons_self, rfl⟩
    · show List.lookup "t" [("t", F64.finite _)] = _
      rw [harg]
      rfl
    · simp [Accuracy.eps, Accuracy.absolute]
  have hle := hcharges.declared _ _ (isCorner_mixedCall (Or.inr rfl)) hsilent hdeclares
  rw [heps] at hle
  exact absurd hle (by norm_num)

theorem chargesEveryCorner_mixed_point : ∃ entry,
    (runStep (none : Option (StepStore ℚ Unit (SymDigest ℚ))) (mixedCall 0)).1 = .ok entry ∧
    (ChargesEveryCorner (mixedCall 0) entry.stepEps ↔ SilentBelowReports (mixedCall 0)) := by
  have hrun : chargedEps (mixedCall 0) = some 0 := by decide +kernel
  obtain ⟨entry, hentry, -⟩ := Option.map_eq_some_iff.mp hrun
  have hok := Fallible.eq_ok_of_toOption hentry
  exact ⟨entry, hok, chargesEveryCorner_iff rfl hok⟩

end Feldspar

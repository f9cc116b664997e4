/-
Feldspar/DutyCycle.lean

The step response and the duty-cycle peak of `heat/thermal_transient.py`, over
exact reals.

The body is at one temperature, `theta` above the ambient one.  `lumped` is where
it is after some time at constant power (`hasDerivAt_lumped`); a cycle of a pulse
train is an ON phase at the full power and an OFF phase at none.  One cycle is an
affine map of `theta` that shortens distances, so the temperatures at the ends of
the ON phases rise to the one of the periodic state, and this is what the code
returns (`dutyCyclePeakTemperature_isLUB`).
-/
import Feldspar.Catalog
import Feldspar.Lib.AffineStep
import Mathlib.Analysis.SpecialFunctions.ExpDeriv
import Mathlib.Topology.Algebra.Module.ModuleTopology
import Mathlib.Topology.Order.MonotoneConvergence
import Mathlib.Tactic.Linarith

set_option linter.unusedSectionVars false

namespace Feldspar

namespace Catalog

open Real (exp)
open Filter Topology

/-! ### `heat/thermal_transient.py` -/

/-- `_BI_MAX`. -/
noncomputable def biMax : ℝ := decimal 1 1

noncomputable def rejectBiot (bi : ℝ) (site : String) : Option String :=
  if bi ≥ biMax then some (site ++ ": lumped-capacitance method invalid")
  else if bi < 0 then some (site ++ ": negative Bi is not physical")
  else none

noncomputable def stepTemperature (x : Port → ℝ) : Except String (PortMap ℝ) :=
  let tAmb := x "heat.transient.t_amb"
  let power := x "heat.transient.power"
  let rTh := x "heat.transient.r_th"
  let cTh := x "heat.transient.c_th"
  let time := x "heat.transient.time"
  let bi := x "heat.transient.biot_number"
  match rejectBiot bi "step_temperature" with
  | some err => .error err
  | none =>
    if power < 0 ∨ rTh ≤ 0 ∨ cTh ≤ 0 ∨ time < 0 then
      .error "step_temperature: invalid power, r_th, c_th, or time"
    else
      let tau := rTh * cTh
      let rise := power * rTh * (1 - exp (-time / tau))
      .ok (output "heat.transient.temperature" (tAmb + rise))

noncomputable def dutyCyclePeakTemperature (x : Port → ℝ) : Except String (PortMap ℝ) :=
  let tAmb := x "heat.transient.t_amb"
  let power := x "heat.transient.power"
  let rTh := x "heat.transient.r_th"
  let cTh := x "heat.transient.c_th"
  let tOn := x "heat.transient.t_on"
  let tOff := x "heat.transient.t_off"
  let bi := x "heat.transient.biot_number"
  match rejectBiot bi "duty_cycle_peak_temperature" with
  | some err => .error err
  | none =>
    if power < 0 ∨ rTh ≤ 0 ∨ cTh ≤ 0 ∨ tOn < 0 ∨ tOff < 0 then
      .error "duty_cycle_peak_temperature: invalid power, r_th, c_th, t_on, or t_off"
    else if tOn = 0 ∧ tOff = 0 then
      .error "duty_cycle_peak_temperature: t_on and t_off both zero -- no period defined"
    else
      let tau := rTh * cTh
      let a := exp (-tOn / tau)
      let b := exp (-tOff / tau)
      let denom := 1 - a * b
      if denom ≤ 0 then
        .error "duty_cycle_peak_temperature: degenerate cycle (1-a*b <= 0)"
      else
        let rise := power * rTh * (1 - a) / denom
        .ok (output "heat.transient.duty_peak_temperature" (tAmb + rise))

/-! ### The lumped model -/

/-- Where a body that is `theta` above the ambient temperature is after `time` at
constant power. -/
noncomputable def lumped (power rTh cTh time theta : ℝ) : ℝ :=
  theta * exp (-time / (rTh * cTh)) + power * rTh * (1 - exp (-time / (rTh * cTh)))

/-- What is stored is what comes in less what is lost. -/
theorem hasDerivAt_lumped {power rTh cTh theta : ℝ} (hr : rTh ≠ 0) (hc : cTh ≠ 0) (time : ℝ) :
    HasDerivAt (fun t => lumped power rTh cTh t theta)
      ((power - lumped power rTh cTh time theta / rTh) / cTh) time := by
  have hrate : HasDerivAt (fun t => exp (-t / (rTh * cTh)))
      (exp (-time / (rTh * cTh)) * (-1 / (rTh * cTh))) time :=
    ((hasDerivAt_id time).neg.div_const (rTh * cTh)).exp
  apply ((hrate.const_mul theta).add ((hrate.const_sub 1).const_mul (power * rTh))).congr_deriv
  rw [lumped]
  field_simp
  ring

theorem stepTemperature_eq {x : Port → ℝ} {out : PortMap ℝ} (hok : stepTemperature x = .ok out) :
    out = output "heat.transient.temperature" (x "heat.transient.t_amb"
      + lumped (x "heat.transient.power") (x "heat.transient.r_th") (x "heat.transient.c_th")
        (x "heat.transient.time") 0) := by
  simp only [stepTemperature] at hok
  split at hok
  · cases hok
  · split at hok
    · cases hok
    · rw [← Except.ok.inj hok, lumped, zero_mul, zero_add]

/-- A square wave of power into the body. -/
structure PulseTrain where
  power : ℝ
  rTh : ℝ
  cTh : ℝ
  tOn : ℝ
  tOff : ℝ

namespace PulseTrain

def of (x : Port → ℝ) : PulseTrain where
  power := x "heat.transient.power"
  rTh := x "heat.transient.r_th"
  cTh := x "heat.transient.c_th"
  tOn := x "heat.transient.t_on"
  tOff := x "heat.transient.t_off"

structure Valid (train : PulseTrain) : Prop where
  power : 0 ≤ train.power
  rTh : 0 < train.rTh
  cTh : 0 < train.cTh
  tOn : 0 ≤ train.tOn
  tOff : 0 ≤ train.tOff
  period : 0 < train.tOn + train.tOff

variable (train : PulseTrain)

noncomputable def tau : ℝ := train.rTh * train.cTh

noncomputable def a : ℝ := exp (-train.tOn / train.tau)

noncomputable def b : ℝ := exp (-train.tOff / train.tau)

noncomputable def on (theta : ℝ) : ℝ :=
  theta * train.a + train.power * train.rTh * (1 - train.a)

noncomputable def off (theta : ℝ) : ℝ := theta * train.b

noncomputable def cycle (theta : ℝ) : ℝ := train.off (train.on theta)

/-- Where the body is at the end of the ON phase of cycle `n`, the first being
cycle `0`, when it starts at the ambient temperature. -/
noncomputable def endOfOn (n : ℕ) : ℝ := train.on (train.cycle^[n] 0)

/-- Where the ON phases of the periodic state start. -/
noncomputable def periodicStart : ℝ :=
  train.power * train.rTh * (1 - train.a) * train.b / (1 - train.a * train.b)

noncomputable def peak : ℝ :=
  train.power * train.rTh * (1 - train.a) / (1 - train.a * train.b)

theorem on_eq_lumped (theta : ℝ) :
    train.on theta = lumped train.power train.rTh train.cTh train.tOn theta := rfl

theorem off_eq_lumped (theta : ℝ) :
    train.off theta = lumped 0 train.rTh train.cTh train.tOff theta := by
  show theta * train.b = theta * train.b + 0 * train.rTh * (1 - train.b)
  ring

variable {train}

theorem a_le_one (h : train.Valid) : train.a ≤ 1 := by
  apply Real.exp_le_one_iff.mpr
  exact div_nonpos_of_nonpos_of_nonneg (neg_nonpos.mpr h.tOn) (mul_pos h.rTh h.cTh).le

theorem ratio_lt_one (h : train.Valid) : train.a * train.b < 1 := by
  rw [a, b, ← Real.exp_add, Real.exp_lt_one_iff, ← add_div]
  exact div_neg_of_neg_of_pos (by linarith [h.period]) (mul_pos h.rTh h.cTh)

theorem ratio_nonneg : 0 ≤ train.a * train.b :=
  (mul_pos (Real.exp_pos _) (Real.exp_pos _)).le

theorem on_eq_step : train.on
    = AffineStep.step train.a (train.power * train.rTh * (1 - train.a)) := by
  funext theta
  show theta * train.a + _ = train.a * theta + _
  rw [mul_comm theta]

theorem cycle_eq_step : train.cycle = AffineStep.step (train.a * train.b)
    (train.power * train.rTh * (1 - train.a) * train.b) := by
  funext theta
  simp only [cycle, off, on, AffineStep.step]
  ring

theorem cycle_periodicStart (h : train.Valid) : train.cycle train.periodicStart
    = train.periodicStart := by
  rw [cycle_eq_step]
  exact AffineStep.step_rest (ratio_lt_one h).ne

theorem on_periodicStart (h : train.Valid) : train.on train.periodicStart = train.peak := by
  have hdenom : 1 - train.a * train.b ≠ 0 := (sub_pos.mpr (ratio_lt_one h)).ne'
  rw [on, periodicStart, peak]
  field_simp
  ring

theorem periodicStart_nonneg (h : train.Valid) : 0 ≤ train.periodicStart := by
  apply div_nonneg _ (sub_pos.mpr (ratio_lt_one h)).le
  apply mul_nonneg _ (Real.exp_pos _).le
  exact mul_nonneg (mul_nonneg h.power h.rTh.le) (sub_nonneg.mpr (a_le_one h))

theorem monotone_endOfOn (h : train.Valid) : Monotone train.endOfOn := by
  have hstart : Monotone fun n => train.cycle^[n] 0 := by
    rw [cycle_eq_step]
    exact AffineStep.monotone_iterate ratio_nonneg (ratio_lt_one h) (periodicStart_nonneg h)
  show Monotone (train.on ∘ fun n => train.cycle^[n] 0)
  rw [on_eq_step]
  exact (AffineStep.monotone_step (Real.exp_pos _).le).comp hstart

theorem tendsto_endOfOn (h : train.Valid) : Tendsto train.endOfOn atTop (𝓝 train.peak) := by
  have hstart : Tendsto (fun n => train.cycle^[n] 0) atTop (𝓝 train.periodicStart) := by
    rw [cycle_eq_step]
    exact AffineStep.tendsto_iterate ratio_nonneg (ratio_lt_one h) 0
  rw [← on_periodicStart h]
  exact (hstart.mul_const train.a).add_const _

end PulseTrain

/-! ### What the code returns -/

theorem rejectBiot_eq_none {bi : ℝ} {site : String} :
    rejectBiot bi site = none ↔ 0 ≤ bi ∧ bi < biMax := by
  rw [rejectBiot]
  by_cases hmax : bi ≥ biMax
  · simp [hmax, hmax.not_gt]
  · by_cases hneg : bi < 0
    · simp [hmax, hneg, hneg.not_ge]
    · simp [hmax, hneg, not_lt.mp hneg, not_le.mp hmax]

/-- The first ON phase ends where the step response is by then. -/
theorem stepTemperature_first {x : Port → ℝ} {out : PortMap ℝ}
    (htime : x "heat.transient.time" = x "heat.transient.t_on")
    (hok : stepTemperature x = .ok out) :
    out = output "heat.transient.temperature"
      (x "heat.transient.t_amb" + (PulseTrain.of x).endOfOn 0) := by
  rw [stepTemperature_eq hok, htime]
  rfl

/-- The code accepts the valid pulse trains, and returns their peak. -/
theorem dutyCyclePeakTemperature_eq_ok {x : Port → ℝ} {out : PortMap ℝ} :
    dutyCyclePeakTemperature x = .ok out ↔
      (0 ≤ x "heat.transient.biot_number" ∧ x "heat.transient.biot_number" < biMax) ∧
      (PulseTrain.of x).Valid ∧
      out = output "heat.transient.duty_peak_temperature"
        (x "heat.transient.t_amb" + (PulseTrain.of x).peak) := by
  rw [← @rejectBiot_eq_none _ "duty_cycle_peak_temperature"]
  constructor
  · intro hok
    simp only [dutyCyclePeakTemperature] at hok
    split at hok
    · cases hok
    rename_i hbiot
    split_ifs at hok with hsigns hperiod hdenom
    simp only [not_or, not_lt, not_le] at hsigns
    obtain ⟨hpower, hr, hc, hon, hoff⟩ := hsigns
    refine ⟨hbiot, ⟨hpower, hr, hc, hon, hoff, ?_⟩, (Except.ok.inj hok).symm⟩
    -- two times that add up to nothing are both zero
    apply (add_nonneg hon hoff).lt_of_ne
    exact fun hzero => hperiod ((add_eq_zero_iff_of_nonneg hon hoff).mp hzero.symm)
  · rintro ⟨hbiot, hvalid, rfl⟩
    have hsigns : ¬ (x "heat.transient.power" < 0 ∨ x "heat.transient.r_th" ≤ 0 ∨
        x "heat.transient.c_th" ≤ 0 ∨ x "heat.transient.t_on" < 0 ∨
        x "heat.transient.t_off" < 0) := by
      simp only [not_or, not_lt, not_le]
      exact ⟨hvalid.power, hvalid.rTh, hvalid.cTh, hvalid.tOn, hvalid.tOff⟩
    have hperiod : ¬ (x "heat.transient.t_on" = 0 ∧ x "heat.transient.t_off" = 0) := by
      rintro ⟨hon, hoff⟩
      apply hvalid.period.ne'
      show x "heat.transient.t_on" + x "heat.transient.t_off" = 0
      rw [hon, hoff, add_zero]
    -- so the guard against a degenerate cycle is never taken
    simp only [dutyCyclePeakTemperature, hbiot, if_neg hsigns, if_neg hperiod]
    exact if_neg (sub_pos.mpr (PulseTrain.ratio_lt_one hvalid)).not_ge

/-- The code returns the supremum of the temperatures at the ends of the ON phases.
They rise from cycle to cycle, and a cycle that starts from the periodic state ends
in it and peaks at what the code returns. -/
theorem dutyCyclePeakTemperature_isLUB {x : Port → ℝ} {out : PortMap ℝ}
    (hok : dutyCyclePeakTemperature x = .ok out) :
    ∃ peak, out = output "heat.transient.duty_peak_temperature" peak ∧
      (∀ n, x "heat.transient.t_amb" + (PulseTrain.of x).endOfOn n ≤ peak) ∧
      (Monotone fun n => x "heat.transient.t_amb" + (PulseTrain.of x).endOfOn n) ∧
      Tendsto (fun n => x "heat.transient.t_amb" + (PulseTrain.of x).endOfOn n) atTop (𝓝 peak) ∧
      IsLUB (Set.range fun n => x "heat.transient.t_amb" + (PulseTrain.of x).endOfOn n) peak ∧
      (PulseTrain.of x).cycle (PulseTrain.of x).periodicStart = (PulseTrain.of x).periodicStart ∧
      x "heat.transient.t_amb" + (PulseTrain.of x).on (PulseTrain.of x).periodicStart = peak := by
  obtain ⟨-, hvalid, hout⟩ := dutyCyclePeakTemperature_eq_ok.mp hok
  have hrises : Monotone fun n => x "heat.transient.t_amb" + (PulseTrain.of x).endOfOn n :=
    (PulseTrain.monotone_endOfOn hvalid).const_add _
  have htends := (PulseTrain.tendsto_endOfOn hvalid).const_add (x "heat.transient.t_amb")
  refine ⟨_, hout, fun n => hrises.ge_of_tendsto htends n, hrises, htends,
    isLUB_of_tendsto_atTop hrises htends, PulseTrain.cycle_periodicStart hvalid, ?_⟩
  rw [PulseTrain.on_periodicStart hvalid]

/-- Without OFF phases the body goes to the temperature of constant power. -/
theorem dutyCyclePeakTemperature_isLUB_alwaysOn :
    IsLUB (Set.range fun n => 300 + (PulseTrain.mk 2 5 7 11 0).endOfOn n) 310 := by
  let x : Port → ℝ := fun port =>
    if port = "heat.transient.t_amb" then 300
    else if port = "heat.transient.power" then 2
    else if port = "heat.transient.r_th" then 5
    else if port = "heat.transient.c_th" then 7
    else if port = "heat.transient.t_on" then 11
    else 0
  have htrain : PulseTrain.of x = PulseTrain.mk 2 5 7 11 0 := by simp [PulseTrain.of, x]
  have hvalid : (PulseTrain.of x).Valid := by
    rw [htrain]
    constructor <;> norm_num
  have hbiot : 0 ≤ x "heat.transient.biot_number" ∧ x "heat.transient.biot_number" < biMax := by
    simp [x, biMax]
  have hpeak : x "heat.transient.t_amb" + (PulseTrain.mk 2 5 7 11 0).peak = 310 := by
    have hdecay : (1 : ℝ) - exp (-11 / (5 * 7)) ≠ 0 := by
      rw [sub_ne_zero, ne_comm, Ne, Real.exp_eq_one_iff]
      norm_num
    simp [x, PulseTrain.peak, PulseTrain.a, PulseTrain.b, PulseTrain.tau, hdecay]
    norm_num
  obtain ⟨peak, hout, -, -, -, hsup, -⟩ :=
    dutyCyclePeakTemperature_isLUB (dutyCyclePeakTemperature_eq_ok.mpr ⟨hbiot, hvalid, rfl⟩)
  rw [← output_injective hout, htrain, hpeak] at hsup
  simpa [x] using hsup

end Catalog

end Feldspar

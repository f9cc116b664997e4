/-
Feldspar/Lib/AffineStep.lean

The affine map `x ↦ r * x + c` of a line, and what iterating it comes to.

For `r ≠ 1` the map has one point at rest, and a step multiplies the distance
from it by `r` (`step_sub_rest`).  For `0 ≤ r < 1` a run from below the point at
rest rises (`monotone_iterate`) and tends to it (`tendsto_iterate`).
-/
import Mathlib.Analysis.SpecificLimits.Basic
import Mathlib.Order.Iterate
import Mathlib.Tactic.FieldSimp
import Mathlib.Tactic.Ring

set_option linter.unusedSectionVars false

namespace AffineStep

open Filter Topology

variable {K : Type*} [Field K] {r c x : K}

def step (r c x : K) : K := r * x + c

/-- The point that `step` leaves where it is. -/
def rest (r c : K) : K := c / (1 - r)

theorem step_rest (hr : r ≠ 1) : step r c (rest r c) = rest r c := by
  have hne : 1 - r ≠ 0 := sub_ne_zero.mpr hr.symm
  show r * (c / (1 - r)) + c = c / (1 - r)
  field_simp
  ring

theorem step_sub_rest (hr : r ≠ 1) : step r c x - rest r c = r * (x - rest r c) := by
  calc step r c x - rest r c = step r c x - step r c (rest r c) := by rw [step_rest hr]
    _ = r * (x - rest r c) := by simp only [step]; ring

theorem iterate_sub_rest (hr : r ≠ 1) (n : ℕ) :
    (step r c)^[n] x - rest r c = r ^ n * (x - rest r c) := by
  induction n with
  | zero => simp
  | succ n ih => rw [Function.iterate_succ_apply', step_sub_rest hr, ih, pow_succ', mul_assoc]

section Order

variable [LinearOrder K] [IsStrictOrderedRing K]

theorem monotone_step (hr : 0 ≤ r) : Monotone (step r c) := fun _ _ hle =>
  add_le_add_left (mul_le_mul_of_nonneg_left hle hr) c

theorem le_step (hr : r < 1) (hx : x ≤ rest r c) : x ≤ step r c x := by
  have hgain : step r c x - x = (1 - r) * (rest r c - x) := by
    rw [mul_sub, rest, mul_div_cancel₀ _ (sub_pos.mpr hr).ne']
    simp only [step]
    ring
  apply sub_nonneg.mp
  rw [hgain]
  exact mul_nonneg (sub_pos.mpr hr).le (sub_nonneg.mpr hx)

theorem monotone_iterate (hr₀ : 0 ≤ r) (hr : r < 1) (hx : x ≤ rest r c) :
    Monotone fun n => (step r c)^[n] x :=
  (monotone_step hr₀).monotone_iterate_of_le_map (le_step hr hx)

theorem tendsto_iterate [Archimedean K] [TopologicalSpace K] [OrderTopology K] (hr₀ : 0 ≤ r)
    (hr : r < 1) (x : K) : Tendsto (fun n => (step r c)^[n] x) atTop (𝓝 (rest r c)) := by
  have hdist : Tendsto (fun n => r ^ n * (x - rest r c) + rest r c) atTop (𝓝 (rest r c)) := by
    simpa using ((tendsto_pow_atTop_nhds_zero_of_lt_one hr₀ hr).mul_const _).add_const (rest r c)
  apply hdist.congr
  intro n
  rw [← iterate_sub_rest hr.ne, sub_add_cancel]

end Order

end AffineStep

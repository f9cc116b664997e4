/-
Feldspar/PipeFriction.lean

The friction of a pipe over exact reals (`fluids/incompressible.rs`).

The Colebrook equation has one root.  The code iterates it in `x = 1/sqrt(f)`,
from the Haaland value: on the turbulent range an iteration shortens distances
by one half at least, so it settles long before its last iteration, and the
factor that is returned is the root up to the tolerance
(`colebrook_converges`).

In `x / Re` the root falls strictly, so with the exact root a pipe drops more the
more flows through it, also where the flow turns turbulent (`resists_pipe`); so
does every edge of a network (`edgeDp_strictMono`).
-/
import Feldspar.HeadLoss
import Feldspar.Lib.Settle
import Mathlib.Analysis.SpecialFunctions.Log.Base
import Mathlib.Analysis.SpecialFunctions.Pow.Real
import Mathlib.Analysis.Complex.ExponentialBounds
import Mathlib.Topology.Order.IntermediateValue

namespace Feldspar

namespace Friction

open Real (logb)

/-! ### `fluids/incompressible.rs` -/

noncomputable def log10 (x : ℝ) : ℝ := logb 10.0 x

theorem log10_eq (x : ℝ) : log10 x = logb 10 x := by
  unfold log10
  norm_num

/-- `_COLEBROOK_TOL`. -/
noncomputable def colebrookTol : ℝ := 1e-12

/-- `_COLEBROOK_MAX_ITER`. -/
def colebrookMaxIter : ℕ := 100

noncomputable def fluidsHaalandFrictionFactor (reynolds relativeRoughness : ℝ) : ℝ :=
  let inner := (relativeRoughness / 3.7) ^ (1.11 : ℝ) + 6.9 / reynolds
  let invSqrtF := -1.8 * log10 inner
  1.0 / (invSqrtF * invSqrtF)

/-- `x_next`. -/
noncomputable def colebrookNext (reynolds relativeRoughness x : ℝ) : ℝ :=
  -2.0 * log10 (relativeRoughness / 3.7 + 2.51 * x / reynolds)

noncomputable def fluidsColebrookFrictionFactor (reynolds relativeRoughness : ℝ) : ℝ :=
  let f0 := fluidsHaalandFrictionFactor reynolds relativeRoughness
  let x := Settle.settle (colebrookNext reynolds relativeRoughness) colebrookTol colebrookMaxIter
    (1.0 / √f0)
  1.0 / (x * x)

/-! ### The equation -/

/-- `1/sqrt(f) = -2 log10(rr/3.7 + 2.51/(Re sqrt(f)))`. -/
def Colebrook (reynolds relativeRoughness f : ℝ) : Prop :=
  1 / √f = -2.0 * log10 (relativeRoughness / 3.7 + 2.51 / (reynolds * √f))

/-- The turbulent range. -/
structure Turbulent (reynolds relativeRoughness : ℝ) : Prop where
  reynolds_ge : 2300 ≤ reynolds
  rough_nonneg : 0 ≤ relativeRoughness
  rough_le : relativeRoughness ≤ 0.05

theorem two_le_log_ten : 2 ≤ Real.log 10 := by
  rw [Real.le_log_iff_exp_le (by norm_num)]
  have hexp : Real.exp 2 = Real.exp 1 * Real.exp 1 := by
    rw [← Real.exp_add]
    norm_num
  rw [hexp]
  have hlt := Real.exp_one_lt_d9
  nlinarith [Real.exp_pos 1]

/-- `log10 z` grows slower than `z`. -/
theorem logb_le_linear {z : ℝ} (hz : 100 ≤ z) : logb 10 z ≤ z / 200 + 2 := by
  have hlog : Real.log z ≤ z / 100 - 1 + 2 * Real.log 10 := by
    have hsplit : z = z / 100 * (10 * 10) := by ring
    have hle := Real.log_le_sub_one_of_pos (show 0 < z / 100 by linarith)
    rw [hsplit, Real.log_mul (by linarith) (by norm_num), Real.log_mul (by norm_num) (by norm_num)]
    linarith
  have hten := two_le_log_ten
  rw [logb, div_le_iff₀ (by linarith)]
  nlinarith

section Root

variable {re rr : ℝ}

theorem colebrookNext_eq (re rr x : ℝ) :
    colebrookNext re rr x = -2 * logb 10 (rr / 3.7 + 2.51 * x / re) := by
  unfold colebrookNext
  rw [log10_eq]
  norm_num

theorem Turbulent.inner_pos (h : Turbulent re rr) {x : ℝ} (hx : 0 < x) :
    0 < rr / 3.7 + 2.51 * x / re := by
  have hre : 0 < re := lt_of_lt_of_le (by norm_num) h.reynolds_ge
  have hrr := h.rough_nonneg
  positivity

/-- The iteration falls. -/
theorem Turbulent.next_lt (h : Turbulent re rr) {x y : ℝ} (hx : 0 < x) (hxy : x < y) :
    colebrookNext re rr y < colebrookNext re rr x := by
  have hre : 0 < re := lt_of_lt_of_le (by norm_num) h.reynolds_ge
  rw [colebrookNext_eq, colebrookNext_eq]
  have hinner : rr / 3.7 + 2.51 * x / re < rr / 3.7 + 2.51 * y / re := by gcongr
  have hlog := Real.logb_lt_logb (by norm_num : (1 : ℝ) < 10) (h.inner_pos hx) hinner
  linarith

theorem colebrookTol_eq : colebrookTol = 1 / 10 ^ 12 := by
  unfold colebrookTol
  norm_num

/-- From 2 on, it shortens distances by one half. -/
theorem Turbulent.next_sub_le (h : Turbulent re rr) {x y : ℝ} (hx : 2 ≤ x) (hxy : x ≤ y) :
    colebrookNext re rr x - colebrookNext re rr y ≤ 1 / 2 * (y - x) := by
  have hre : 0 < re := lt_of_lt_of_le (by norm_num) h.reynolds_ge
  have hx0 : 0 < x := by linarith
  have hpos := h.inner_pos hx0
  have hpos' := h.inner_pos (hx0.trans_le hxy)
  set u := rr / 3.7 + 2.51 * x / re with hu
  set v := rr / 3.7 + 2.51 * y / re with hv
  have hratio : v / u - 1 ≤ (y - x) / 2 := by
    rw [div_sub_one hpos.ne', div_le_iff₀ hpos]
    have hsub : v - u = 2.51 / re * (y - x) := by
      rw [hu, hv]
      ring
    have hle : 2.51 / re * 2 ≤ u := by
      have hstep : 2.51 / re * 2 ≤ 2.51 / re * x := by gcongr
      have hrough : 0 ≤ rr / 3.7 := div_nonneg h.rough_nonneg (by norm_num)
      rw [hu]
      linarith [show 2.51 * x / re = 2.51 / re * x by ring]
    rw [hsub]
    nlinarith [sub_nonneg.mpr hxy]
  have hlog : logb 10 v - logb 10 u ≤ (y - x) / 2 / 2 := by
    rw [logb, logb, ← sub_div, ← Real.log_div hpos'.ne' hpos.ne',
      div_le_iff₀ (lt_of_lt_of_le (by norm_num) two_le_log_ten)]
    have hle := (Real.log_le_sub_one_of_pos (div_pos hpos' hpos)).trans hratio
    nlinarith [two_le_log_ten, sub_nonneg.mpr hxy]
  rw [colebrookNext_eq, colebrookNext_eq, ← hu, ← hv]
  linarith

/-- The upper end of the range of the iteration. -/
noncomputable def upper (re : ℝ) : ℝ := 2.0 * log10 re

theorem upper_eq (re : ℝ) : upper re = 2 * logb 10 re := by
  unfold upper
  rw [log10_eq]
  norm_num

theorem Turbulent.upper_le (h : Turbulent re rr) : 2.51 * upper re / re ≤ 0.03 := by
  have hre : 0 < re := lt_of_lt_of_le (by norm_num) h.reynolds_ge
  have hlog := logb_le_linear (show 100 ≤ re by linarith [h.reynolds_ge])
  rw [div_le_iff₀ hre, upper_eq]
  nlinarith [h.reynolds_ge]

theorem Turbulent.maps (h : Turbulent re rr) :
    ∀ x ∈ Set.Icc 2 (upper re), colebrookNext re rr x ∈ Set.Icc 2 (upper re) := by
  rintro x ⟨hlo, hhi⟩
  have hre : 0 < re := lt_of_lt_of_le (by norm_num) h.reynolds_ge
  have hpos := h.inner_pos (show 0 < x by linarith)
  rw [colebrookNext_eq]
  constructor
  · have hinner : rr / 3.7 + 2.51 * x / re ≤ 10 ^ (-1 : ℝ) := by
      have hstep : 2.51 * x / re ≤ 2.51 * upper re / re := by gcongr
      have hrough : rr / 3.7 ≤ 0.05 / 3.7 := by
        have hle := h.rough_le
        gcongr
      rw [Real.rpow_neg_one]
      linarith [h.upper_le, show (0.05 : ℝ) / 3.7 ≤ 0.05 by norm_num,
        show ((10 : ℝ)⁻¹) = 0.1 by norm_num]
    have hlog := (Real.logb_le_iff_le_rpow (by norm_num : (1 : ℝ) < 10) hpos).mpr hinner
    linarith
  · have hinner : re⁻¹ ≤ rr / 3.7 + 2.51 * x / re := by
      have hrough : 0 ≤ rr / 3.7 := div_nonneg h.rough_nonneg (by norm_num)
      have hone : 1 / re ≤ 2.51 * x / re := by
        gcongr
        linarith
      rw [← one_div]
      linarith
    have hlog := Real.logb_le_logb_of_le (by norm_num : (1 : ℝ) < 10) (inv_pos.mpr hre) hinner
    rw [Real.logb_inv] at hlog
    rw [upper_eq]
    linarith

theorem Turbulent.contracts (h : Turbulent re rr) :
    Settle.Contracts (colebrookNext re rr) 2 (upper re) (1 / 2) := by
  refine ⟨by norm_num, by norm_num, h.maps, ?_⟩
  have hordered : ∀ x y, 2 ≤ x → x ≤ y →
      |colebrookNext re rr x - colebrookNext re rr y| ≤ 1 / 2 * |x - y| := by
    intro x y hx hxy
    have hfalls : colebrookNext re rr y ≤ colebrookNext re rr x := by
      rcases hxy.eq_or_lt with rfl | hlt
      · exact le_rfl
      · exact (h.next_lt (by linarith) hlt).le
    rw [abs_of_nonneg (sub_nonneg.mpr hfalls), abs_sub_comm, abs_of_nonneg (sub_nonneg.mpr hxy)]
    exact h.next_sub_le hx hxy
  rintro x ⟨hx, -⟩ y ⟨hy, -⟩
  rcases le_total x y with hxy | hyx
  · exact hordered x y hx hxy
  · rw [abs_sub_comm, abs_sub_comm x]
    exact hordered y x hy hyx

/-- The iteration starts in its range. -/
theorem Turbulent.seed_mem (h : Turbulent re rr) :
    1.0 / √(fluidsHaalandFrictionFactor re rr) ∈ Set.Icc 2 (upper re) := by
  have hre : 0 < re := lt_of_lt_of_le (by norm_num) h.reynolds_ge
  have hrough : 0 ≤ rr / 3.7 := div_nonneg h.rough_nonneg (by norm_num)
  set inner := (rr / 3.7) ^ (1.11 : ℝ) + 6.9 / re with hinner
  have hpos : 0 < inner := by positivity
  have hsmall : inner ≤ 1 / 50 := by
    have hrr : rr / 3.7 ≤ 0.05 / 3.7 := by
      have hle := h.rough_le
      gcongr
    have hpow : (rr / 3.7) ^ (1.11 : ℝ) ≤ rr / 3.7 := by
      have hone : rr / 3.7 ≤ 1 := hrr.trans (by norm_num)
      have hle := Real.rpow_le_rpow_of_exponent_ge' hrough hone zero_le_one
        (by norm_num : (1 : ℝ) ≤ 1.11)
      rwa [Real.rpow_one] at hle
    have hreynolds : 6.9 / re ≤ 6.9 / 2300 := by
      have hge := h.reynolds_ge
      gcongr
    rw [hinner]
    linarith [show (0.05 : ℝ) / 3.7 + 6.9 / 2300 ≤ 1 / 50 by norm_num]
  have hlarge : re⁻¹ ≤ inner := by
    have hpow : 0 ≤ (rr / 3.7) ^ (1.11 : ℝ) := Real.rpow_nonneg hrough _
    have hone : 1 / re ≤ 6.9 / re := by
      gcongr
      norm_num
    rw [← one_div, hinner]
    linarith
  -- a ninth power shows that the logarithm is far enough below zero
  have hlo : logb 10 inner ≤ -(10 / 9) := by
    have hninth : inner ^ 9 ≤ 10 ^ (-10 : ℝ) := by
      refine (pow_le_pow_left₀ hpos.le hsmall 9).trans ?_
      rw [Real.rpow_neg (by norm_num), show (10 : ℝ) = ((10 : ℕ) : ℝ) by norm_num,
        Real.rpow_natCast]
      norm_num
    have hlog := (Real.logb_le_iff_le_rpow (by norm_num : (1 : ℝ) < 10) (pow_pos hpos 9)).mpr hninth
    rw [Real.logb_pow] at hlog
    push_cast at hlog
    linarith
  have hhi : -logb 10 re ≤ logb 10 inner := by
    rw [← Real.logb_inv]
    exact Real.logb_le_logb_of_le (by norm_num) (inv_pos.mpr hre) hlarge
  have hseed : 1.0 / √(fluidsHaalandFrictionFactor re rr) = -1.8 * logb 10 inner := by
    unfold fluidsHaalandFrictionFactor
    simp only
    rw [log10_eq, ← hinner, show (1.0 : ℝ) = 1 by norm_num, Real.sqrt_div zero_le_one, Real.sqrt_one,
      Real.sqrt_mul_self (by linarith), one_div_one_div]
  rw [hseed, upper_eq]
  constructor <;> linarith

/-- The iteration has a fixed point in its range. -/
theorem Turbulent.exists_fixed (h : Turbulent re rr) :
    ∃ s ∈ Set.Icc 2 (upper re), colebrookNext re rr s = s := by
  have hseed := h.seed_mem
  have hcontinuous : ContinuousOn (colebrookNext re rr) (Set.Icc 2 (upper re)) := by
    have heq : colebrookNext re rr
        = fun x => -2 * (Real.log (rr / 3.7 + 2.51 * x / re) / Real.log 10) := by
      funext x
      exact colebrookNext_eq re rr x
    rw [heq]
    refine ContinuousOn.mul continuousOn_const (ContinuousOn.div_const (ContinuousOn.log ?_ ?_) _)
    · fun_prop
    · exact fun x hx => (h.inner_pos (by linarith [hx.1])).ne'
  obtain ⟨s, hs, hfix⟩ := exists_mem_Icc_isFixedPt_of_mapsTo hcontinuous
    (hseed.1.trans hseed.2) h.maps
  exact ⟨s, hs, hfix⟩

/-- In `x = 1/sqrt(f)`, the roots of the equation are the fixed points. -/
theorem colebrook_iff {f : ℝ} (hf : 0 < f) :
    Colebrook re rr f ↔ colebrookNext re rr (1 / √f) = 1 / √f := by
  have hsqrt : √f ≠ 0 := (Real.sqrt_pos.mpr hf).ne'
  have hinner : 2.51 / (re * √f) = 2.51 * (1 / √f) / re := by
    field_simp
  rw [Colebrook, colebrookNext, hinner]
  exact eq_comm

/-- There is one fixed point only. -/
theorem Turbulent.fixed_unique (h : Turbulent re rr) {x y : ℝ} (hx : 0 < x) (hy : 0 < y)
    (hfix : colebrookNext re rr x = x) (hfix' : colebrookNext re rr y = y) : x = y := by
  rcases lt_trichotomy x y with hlt | heq | hlt
  · linarith [h.next_lt hx hlt]
  · exact heq
  · linarith [h.next_lt hy hlt]

/-- The last iteration moves by less than the tolerance. -/
theorem Turbulent.settles (h : Turbulent re rr) (hle : re ≤ 2 ^ 1024) {x : ℝ} (hx : x ∈ Set.Icc 2 (upper re)) :
    (1 / 2 : ℝ) ^ 99 * |colebrookNext re rr x - x| < colebrookTol := by
  have hre : 0 < re := lt_of_lt_of_le (by norm_num) h.reynolds_ge
  have hnext := h.maps x hx
  have hupper : upper re ≤ 2048 := by
    have hpow : re ≤ 10 ^ (1024 : ℝ) := by
      refine hle.trans ?_
      rw [show (1024 : ℝ) = ((1024 : ℕ) : ℝ) by norm_num, Real.rpow_natCast]
      exact pow_le_pow_left₀ (by norm_num) (by norm_num) 1024
    have hlog := (Real.logb_le_iff_le_rpow (by norm_num : (1 : ℝ) < 10) hre).mpr hpow
    rw [upper_eq]
    linarith
  have hwidth : |colebrookNext re rr x - x| ≤ 2048 :=
    abs_le.mpr ⟨by linarith [hnext.1, hx.2], by linarith [hnext.2, hx.1]⟩
  refine lt_of_le_of_lt (mul_le_mul_of_nonneg_left hwidth (by positivity)) ?_
  have hfifty : (1 / 2 : ℝ) ^ 99 ≤ (1 / 2) ^ 53 :=
    pow_le_pow_of_le_one (by norm_num) (by norm_num) (by norm_num)
  have hsmall : (1 / 2 : ℝ) ^ 53 * 2048 < colebrookTol := by
    rw [colebrookTol_eq]
    norm_num
  exact (mul_le_mul_of_nonneg_right hfifty (by norm_num)).trans_lt hsmall

/-- **The Colebrook equation has one root.** -/
theorem Turbulent.exists_root (h : Turbulent re rr) : ∃ s ∈ Set.Icc 2 (upper re),
    colebrookNext re rr s = s ∧ Colebrook re rr (1 / s ^ 2) ∧
      ∀ f, 0 < f → Colebrook re rr f → f = 1 / s ^ 2 := by
  obtain ⟨s, hs, hfix⟩ := h.exists_fixed
  have hspos : 0 < s := by linarith [hs.1]
  have hsqrt : 1 / √(1 / s ^ 2) = s := by
    rw [Real.sqrt_div zero_le_one, Real.sqrt_one, Real.sqrt_sq hspos.le, one_div_one_div]
  refine ⟨s, hs, hfix, ?_, fun f hf hroot => ?_⟩
  · rw [colebrook_iff (by positivity), hsqrt, hfix]
  · rw [colebrook_iff hf] at hroot
    have hpos := one_div_pos.mpr (Real.sqrt_pos.mpr hf)
    rw [← h.fixed_unique hpos hspos hroot hfix, div_pow, one_pow, Real.sq_sqrt hf.le,
      one_div_one_div]

/-- **The friction factor is the root**, for any Reynolds number that is a double,
up to twice the tolerance. -/
theorem colebrook_converges (h : Turbulent re rr) (hle : re ≤ 2 ^ 1024) : ∃ f, 0 < f ∧
    Colebrook re rr f ∧ (∀ f', 0 < f' → Colebrook re rr f' → f' = f) ∧
    |fluidsColebrookFrictionFactor re rr - f| ≤ 2 * colebrookTol * f := by
  obtain ⟨s, hs, hfix, hroot, hunique⟩ := h.exists_root
  have hspos : 0 < s := by linarith [hs.1]
  refine ⟨1 / s ^ 2, by positivity, hroot, hunique, ?_⟩
  have hseed := h.seed_mem
  obtain ⟨hmem, hnear⟩ := h.contracts.settle_near hs hfix hseed (h.settles hle hseed)
  unfold fluidsColebrookFrictionFactor
  show |1.0 / (Settle.settle _ _ (99 + 1) _ * Settle.settle _ _ (99 + 1) _) - _| ≤ _
  set x := Settle.settle (colebrookNext re rr) colebrookTol (99 + 1)
    (1.0 / √(fluidsHaalandFrictionFactor re rr))
  have hx : 2 ≤ x := hmem.1
  have hmove : |x - s| ≤ colebrookTol := by linarith
  have htol : colebrookTol ≤ 1 := by
    rw [colebrookTol_eq]
    norm_num
  have heq : 1.0 / (x * x) - 1 / s ^ 2 = (s - x) * (s + x) / (x ^ 2 * s ^ 2) := by
    rw [show (1.0 : ℝ) = 1 by norm_num]
    field_simp
    ring
  have hsum : s + x ≤ 2 * x ^ 2 := by nlinarith [(abs_le.mp hmove).1]
  have htolpos : 0 ≤ colebrookTol := (abs_nonneg _).trans hmove
  have hproduct : |s - x| * (s + x) ≤ colebrookTol * (2 * x ^ 2) := by
    rw [abs_sub_comm]
    exact mul_le_mul hmove hsum (by linarith) htolpos
  rw [heq, abs_div, abs_mul, abs_of_pos (show 0 < s + x by linarith),
    abs_of_pos (show 0 < x ^ 2 * s ^ 2 by positivity), div_le_iff₀ (by positivity)]
  refine hproduct.trans_eq ?_
  field_simp

end Root

/-- Commercial steel at a Reynolds number of a hundred thousand. -/
theorem colebrook_converges_steel : Turbulent 100000 0.0009 ∧
    ∃ f, 0 < f ∧ Colebrook 100000 0.0009 f ∧
      |fluidsColebrookFrictionFactor 100000 0.0009 - f| ≤ 2 * colebrookTol * f := by
  have hlarge : (100000 : ℝ) ≤ 2 ^ 1024 :=
    (by norm_num : (100000 : ℝ) ≤ 2 ^ 17).trans (pow_le_pow_right₀ (by norm_num) (by norm_num))
  have hturbulent : Turbulent 100000 0.0009 := ⟨by norm_num, by norm_num, by norm_num⟩
  obtain ⟨f, hpos, hroot, -, hnear⟩ := colebrook_converges hturbulent hlarge
  exact ⟨hturbulent, f, hpos, hroot, hnear⟩

/-! ### Drops -/

/-- In `z = Re sqrt(f)`, the root grows with the Reynolds number. -/
theorem root_lt {re re' rr z z' : ℝ} (hrr : 0 ≤ rr) (hre : re < re') (hz : 0 < z) (hz' : 0 < z')
    (hpos : 0 < re')
    (hroot : re / z = -2 * logb 10 (rr / 3.7 + 2.51 / z))
    (hroot' : re' / z' = -2 * logb 10 (rr / 3.7 + 2.51 / z')) : z < z' := by
  by_contra hle
  rw [not_lt] at hle
  have hquotient : re / z < re' / z' :=
    (div_lt_div_of_pos_right hre hz).trans_le (div_le_div_of_nonneg_left hpos.le hz' hle)
  have hinner : rr / 3.7 + 2.51 / z ≤ rr / 3.7 + 2.51 / z' := by gcongr
  have hlog := Real.logb_le_logb_of_le (by norm_num : (1 : ℝ) < 10) (by positivity) hinner
  linarith

/-- At the start of the turbulent range the root is beyond the laminar one. -/
theorem root_ge {re rr z : ℝ} (hrr : 0 ≤ rr) (hre : 2300 ≤ re) (hz : 0 < z)
    (hroot : re / z = -2 * logb 10 (rr / 3.7 + 2.51 / z)) : 460 ≤ z := by
  by_contra hlt
  rw [not_le] at hlt
  have hquotient : 5 < re / z := by
    rw [lt_div_iff₀ hz]
    linarith
  have hinner : (1 / 200 : ℝ) ≤ rr / 3.7 + 2.51 / z := by
    have hrough : 0 ≤ rr / 3.7 := div_nonneg hrr (by norm_num)
    have hsmooth : 1 / 200 ≤ 2.51 / z := by
      rw [le_div_iff₀ hz]
      linarith
    linarith
  have hlog := Real.logb_le_logb_of_le (by norm_num : (1 : ℝ) < 10) (by norm_num) hinner
  have hsquare : -5 ≤ 2 * logb 10 (1 / 200 : ℝ) := by
    have hpow : (10 : ℝ) ^ (-5 : ℝ) ≤ (1 / 200) ^ 2 := by
      rw [Real.rpow_neg (by norm_num), show (5 : ℝ) = ((5 : ℕ) : ℝ) by norm_num, Real.rpow_natCast]
      norm_num
    have hle := (Real.le_logb_iff_rpow_le (by norm_num : (1 : ℝ) < 10) (by norm_num)).mpr hpow
    rw [Real.logb_pow] at hle
    exact_mod_cast hle
  linarith

open Flownet

/-- The friction factors are the exact roots. -/
structure Exact (hyd : Hydraulics ℝ) : Prop where
  pi_pos : 0 < hyd.pi
  root : ∀ re rr, 2300 ≤ re → 0 ≤ rr → rr ≤ 0.05 →
    0 < hyd.colebrookFrictionFactor re rr ∧ Colebrook re rr (hyd.colebrookFrictionFactor re rr)

/-- A pipe with a fluid, whose roughness is in the range of the solvers. -/
structure Fitting (edge : Edge ℝ) : Prop where
  kind : edge.kind = .pipe
  length : 0 < edge.length
  diameter : 0 < edge.diameter
  density : 0 < edge.density
  viscosity : 0 < edge.viscosity
  rough_nonneg : 0 ≤ edge.roughness
  rough_le : edge.roughness ≤ 0.05 * edge.diameter

/-- The friction factor that a pipe takes. -/
noncomputable def frictionAt (hyd : Hydraulics ℝ) (rr re : ℝ) : ℝ :=
  if re < 2300.0 then laminarFrictionFactor (max re 1) else hyd.colebrookFrictionFactor re rr

section Pipe

variable {hyd : Hydraulics ℝ} {rr : ℝ}

theorem laminar_mul_sq {re : ℝ} (hre : 0 < re) (hlt : re < 2300) :
    frictionAt hyd rr re * re ^ 2 = 64 * (re * min re 1) := by
  rw [frictionAt, if_pos (hlt.trans_eq (by norm_num)), laminarFrictionFactor]
  rcases le_total re 1 with hle | hle
  · rw [max_eq_right hle, min_eq_left hle]
    norm_num
    ring
  · rw [max_eq_left hle, min_eq_right hle, show (64.0 : ℝ) = 64 by norm_num]
    field_simp

/-- In the turbulent range the drop is the square of the root. -/
theorem Exact.turbulent (h : Exact hyd) (hrr : 0 ≤ rr) (hrr' : rr ≤ 0.05) {re : ℝ}
    (hre : 2300 ≤ re) : ∃ z, 0 < z ∧ re / z = -2 * logb 10 (rr / 3.7 + 2.51 / z) ∧
      frictionAt hyd rr re * re ^ 2 = z ^ 2 := by
  obtain ⟨hpos, hroot⟩ := h.root re rr hre hrr hrr'
  set f := hyd.colebrookFrictionFactor re rr with hf
  have hre0 : 0 < re := by linarith
  have hsqrt := Real.sqrt_pos.mpr hpos
  refine ⟨re * √f, mul_pos hre0 hsqrt, ?_, ?_⟩
  · have heq : 1 / √f = -2 * logb 10 (rr / 3.7 + 2.51 / (re * √f)) := by
      rw [hroot, log10_eq]
      norm_num
    rw [← heq, div_mul_eq_div_div, div_self hre0.ne']
  · rw [frictionAt, if_neg (not_lt.mpr (le_of_eq_of_le (by norm_num) hre)), mul_pow,
      Real.sq_sqrt hpos.le, ← hf]
    ring

/-- The drop grows with the Reynolds number, also across the jump. -/
theorem Exact.friction_lt (h : Exact hyd) (hrr : 0 ≤ rr) (hrr' : rr ≤ 0.05) {re re' : ℝ}
    (hre : 0 < re) (hlt : re < re') :
    frictionAt hyd rr re * re ^ 2 < frictionAt hyd rr re' * re' ^ 2 := by
  rcases lt_or_ge re' 2300 with hre' | hre'
  · -- both laminar
    rw [laminar_mul_sq hre (hlt.trans hre'), laminar_mul_sq (hre.trans hlt) hre']
    have hmin : min re 1 ≤ min re' 1 := min_le_min_right 1 hlt.le
    have hpos : 0 < min re' 1 := lt_min (hre.trans hlt) one_pos
    have hmul : re * min re 1 < re' * min re' 1 := by
      refine lt_of_le_of_lt (mul_le_mul_of_nonneg_left hmin hre.le) ?_
      exact mul_lt_mul_of_pos_right hlt hpos
    linarith
  · obtain ⟨z', hz', hroot', hsq'⟩ := h.turbulent hrr hrr' hre'
    have hge := root_ge hrr hre' hz' hroot'
    rw [hsq']
    rcases lt_or_ge re 2300 with hlaminar | hturbulent
    · -- the flow turns turbulent
      rw [laminar_mul_sq hre hlaminar]
      have hmul : re * min re 1 ≤ re := mul_le_of_le_one_right hre.le (min_le_right _ _)
      nlinarith
    · obtain ⟨z, hz, hroot, hsq⟩ := h.turbulent hrr hrr' hturbulent
      rw [hsq]
      exact pow_lt_pow_left₀ (root_lt hrr hlt hz hz' (by linarith) hroot hroot') hz.le two_ne_zero

theorem Exact.friction_pos (h : Exact hyd) (hrr : 0 ≤ rr) (hrr' : rr ≤ 0.05) {re : ℝ}
    (hre : 0 < re) : 0 < frictionAt hyd rr re * re ^ 2 := by
  rcases lt_or_ge re 2300 with hlaminar | hturbulent
  · rw [laminar_mul_sq hre hlaminar]
    have hmin : 0 < min re 1 := lt_min hre one_pos
    positivity
  · obtain ⟨z, hz, -, hsq⟩ := h.turbulent hrr hrr' hturbulent
    rw [hsq]
    positivity

/-- The Reynolds number of a unit flow. -/
noncomputable def unitReynolds (hyd : Hydraulics ℝ) (edge : Edge ℝ) : ℝ :=
  edge.density * edge.diameter / (edge.viscosity * circleArea hyd edge.diameter)

/-- A pipe drops a multiple of the friction times the square of the Reynolds
number. -/
theorem pipeDpMag_eq (hpi : 0 < hyd.pi) {edge : Edge ℝ} (h : Fitting edge) {m : ℝ} (hm : 0 < m) :
    pipeDpMag hyd edge m
      = edge.length / edge.diameter * (edge.density / 2)
          * (edge.viscosity / (edge.density * edge.diameter)) ^ 2
        * (frictionAt hyd (edge.roughness / edge.diameter) (unitReynolds hyd edge * m)
          * (unitReynolds hyd edge * m) ^ 2) := by
  have harea := circleArea_pos hpi h.diameter.ne'
  have hdiameter := h.diameter
  have hdensity := h.density
  have hviscosity := h.viscosity
  have hreynolds : reynoldsNumber edge.density (m / circleArea hyd edge.diameter) edge.diameter
      edge.viscosity = unitReynolds hyd edge * m := by
    unfold reynoldsNumber unitReynolds
    field_simp
  unfold pipeDpMag
  rw [if_neg (not_le.mpr hm)]
  simp only
  rw [if_pos harea, if_pos hdiameter.ne', hreynolds, Arith.maxOf_eq,
    show (1.0 : ℝ) = 1 by norm_num]
  show darcyDp (frictionAt hyd _ _) _ _ _ _ = _
  generalize frictionAt hyd _ _ = f
  unfold darcyDp unitReynolds
  rw [show (2.0 : ℝ) = 2 by norm_num]
  field_simp

/-- A pipe drops the more the more flows through it, also where the flow turns
turbulent. -/
theorem resists_pipe (h : Exact hyd) {edge : Edge ℝ} (hedge : Fitting edge) :
    Resists hyd edge := by
  have hrr : 0 ≤ edge.roughness / edge.diameter := div_nonneg hedge.rough_nonneg hedge.diameter.le
  have hrr' : edge.roughness / edge.diameter ≤ 0.05 :=
    (div_le_iff₀ hedge.diameter).mpr hedge.rough_le
  have hunit : 0 < unitReynolds hyd edge :=
    div_pos (mul_pos hedge.density hedge.diameter)
      (mul_pos hedge.viscosity (circleArea_pos h.pi_pos hedge.diameter.ne'))
  have hcoefficient : 0 < edge.length / edge.diameter * (edge.density / 2)
      * (edge.viscosity / (edge.density * edge.diameter)) ^ 2 := by
    have hlength := hedge.length
    have hdiameter := hedge.diameter
    have hdensity := hedge.density
    have hviscosity := hedge.viscosity
    positivity
  have hpos : ∀ m, 0 < m → 0 < pipeDpMag hyd edge m := by
    intro m hm
    rw [pipeDpMag_eq h.pi_pos hedge hm]
    exact mul_pos hcoefficient (h.friction_pos hrr hrr' (mul_pos hunit hm))
  intro x y hx hxy
  have hy : 0 < y := hx.trans_lt hxy
  show |dpMag hyd edge x| < |dpMag hyd edge y|
  unfold dpMag
  rw [hedge.kind]
  show |pipeDpMag hyd edge x| < |pipeDpMag hyd edge y|
  rw [abs_of_pos (hpos y hy)]
  rcases hx.eq_or_lt with rfl | hx
  · rw [show pipeDpMag hyd edge 0 = 0 from if_pos le_rfl, abs_zero]
    exact hpos y hy
  · rw [abs_of_pos (hpos x hx), pipeDpMag_eq h.pi_pos hedge hx, pipeDpMag_eq h.pi_pos hedge hy]
    refine mul_lt_mul_of_pos_left ?_ hcoefficient
    exact h.friction_lt hrr hrr' (mul_pos hunit hx) (mul_lt_mul_of_pos_left hxy hunit)

/-- An edge that a fluid flows through against a resistance. -/
inductive Regular (edge : Edge ℝ) : Prop
  | pipe (h : Fitting edge)
  | orifice (kind : edge.kind = .orifice) (cd : 0 < edge.cd) (bore : edge.boreDiameter ≠ 0)
      (density : edge.density ≠ 0)
  | hxSegment (kind : edge.kind = .hxSegment) (diameter : edge.diameter ≠ 0)
      (resistance : edge.resistance ≠ 0) (density : edge.density ≠ 0)

theorem Regular.resists (h : Exact hyd) {edge : Edge ℝ} (hedge : Regular edge) :
    Resists hyd edge := by
  cases hedge with
  | pipe hfitting => exact resists_pipe h hfitting
  | orifice hkind hcd hbore hdensity =>
      have harea := circleArea_pos h.pi_pos hbore
      exact (square_orifice h.pi_pos hkind hcd hbore).resists
        (div_ne_zero hdensity (by positivity))
  | hxSegment hkind hdiameter hresistance hdensity =>
      have harea := circleArea_pos h.pi_pos hdiameter
      exact (square_hxSegment h.pi_pos hkind hdiameter).resists
        (div_ne_zero (mul_ne_zero hresistance hdensity) (by positivity))

/-- **The drop of every edge grows with its flow and turns with it.** -/
theorem edgeDp_strictMono (h : Exact hyd) {edge : Edge ℝ} (hedge : Regular edge) :
    (StrictMono fun flow => (edgeDpAndK hyd edge flow).1) ∧
      ∀ flow, (edgeDpAndK hyd edge (-flow)).1 = -(edgeDpAndK hyd edge flow).1 :=
  ⟨(hedge.resists h).strictMono, edgeDpAndK_neg edge⟩

theorem Turbulent.exists_factor {re rr : ℝ} (h : Turbulent re rr) :
    ∃ f, 0 < f ∧ Colebrook re rr f := by
  obtain ⟨s, hs, -, hroot, -⟩ := h.exists_root
  have hpos : 0 < s := lt_of_lt_of_le two_pos hs.1
  exact ⟨1 / s ^ 2, by positivity, hroot⟩

/-- Hydraulics with the exact roots. -/
noncomputable def exactHydraulics : Hydraulics ℝ := by
  classical
  exact
    { pi := Real.pi
      colebrookFrictionFactor := fun re rr =>
        if h : Turbulent re rr then h.exists_factor.choose else 0 }

theorem exact_exactHydraulics : Exact exactHydraulics := by
  refine ⟨Real.pi_pos, fun re rr hre hrr hrr' => ?_⟩
  have h : Turbulent re rr := ⟨hre, hrr, hrr'⟩
  have heq : exactHydraulics.colebrookFrictionFactor re rr = h.exists_factor.choose := dif_pos h
  rw [heq]
  exact h.exists_factor.choose_spec

/-- Ten metres of a steel pipe with water. -/
noncomputable def waterPipe : Edge ℝ :=
  { id := "run", a := "in", b := "out", kind := .pipe, length := 10.0, diameter := 0.05,
    roughness := 0.000045, density := 998, viscosity := 0.001, flow := 0, cd := 0,
    boreDiameter := 0, resistance := 0 }

theorem edgeDp_strictMono_waterPipe :
    StrictMono fun flow => (edgeDpAndK exactHydraulics waterPipe flow).1 := by
  refine (edgeDp_strictMono exact_exactHydraulics (Regular.pipe ⟨rfl, ?_, ?_, ?_, ?_, ?_, ?_⟩)).1
  all_goals
    unfold waterPipe
    norm_num

end Pipe

end Friction

end Feldspar

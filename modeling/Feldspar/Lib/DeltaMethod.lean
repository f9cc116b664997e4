/-
Feldspar/Lib/DeltaMethod.lean

First-order propagation of uncertainty over the reals.

* A central difference misses the derivative by at most a sixth of the third
  derivative times the square of the step (`abs_centralDiff_sub_deriv_le`), and
  an affine function by nothing (`centralDiff_affine`).
* Two roots of sums of squares are as close as the root of the sum of the
  squared differences (`abs_sqrt_sum_sq_sub_le`).
* An affine combination of independent variables has the mean and the variance
  of the delta method (`memLp_affine`, `integral_affine`, `variance_affine`),
  and is normal if they are (`map_affine_normal`).
* Chebyshev's bound at a multiple of the standard deviation
  (`measure_deviation_le`), which may be zero.
-/
import Mathlib

namespace DeltaMethod

open MeasureTheory ProbabilityTheory

/-! ### Central differences -/

theorem centralDiff_affine {f : ℝ → ℝ} {a b x h : ℝ} (hf : ∀ t, f t = a + b * t) (hh : h ≠ 0) :
    (f (x + h) - f (x - h)) / (2 * h) = b := by
  rw [hf, hf, div_eq_iff (mul_ne_zero two_ne_zero hh)]
  ring

/-- The second Taylor polynomial towards `y`, with its remainder. -/
theorem exists_taylor_two {f : ℝ → ℝ} {x y : ℝ} (hne : x ≠ y) (hx : ContDiffAt ℝ 2 f x)
    (hf : ContDiffOn ℝ 3 f (Set.uIcc x y)) : ∃ t ∈ Set.uIoo x y,
      f y = f x + deriv f x * (y - x) + iteratedDeriv 2 f x / 2 * (y - x) ^ 2
        + iteratedDeriv 3 f t / 6 * (y - x) ^ 3 := by
  obtain ⟨t, ht, hremainder⟩ := taylor_mean_remainder_lagrange_iteratedDeriv (n := 2) hne hf
  refine ⟨t, ht, ?_⟩
  have hmem : x ∈ Set.uIcc x y := Set.left_mem_uIcc
  have hunique : UniqueDiffOn ℝ (Set.uIcc x y) := uniqueDiffOn_uIcc hne
  have hone : iteratedDerivWithin 1 f (Set.uIcc x y) x = deriv f x := by
    rw [iteratedDerivWithin_eq_iteratedDeriv hunique (hx.of_le one_le_two) hmem, iteratedDeriv_one]
  have htwo : iteratedDerivWithin 2 f (Set.uIcc x y) x = iteratedDeriv 2 f x :=
    iteratedDerivWithin_eq_iteratedDeriv hunique hx hmem
  rw [taylorWithinEval_succ, taylorWithinEval_succ, taylor_within_zero_eval] at hremainder
  norm_num [hone, htwo, Nat.factorial] at hremainder
  linear_combination hremainder

/-- **The central difference**: its error is a sixth of the third derivative
times the square of the step. -/
theorem abs_centralDiff_sub_deriv_le {f : ℝ → ℝ} {x h M : ℝ} (hh : h ≠ 0)
    (hf : ContDiffOn ℝ 3 f (Set.Icc (x - |h|) (x + |h|)))
    (hM : ∀ t ∈ Set.Ioo (x - |h|) (x + |h|), |iteratedDeriv 3 f t| ≤ M) :
    |(f (x + h) - f (x - h)) / (2 * h) - deriv f x| ≤ M * h ^ 2 / 6 := by
  have habs : 0 < |h| := abs_pos.mpr hh
  obtain ⟨hlo, hhi⟩ := abs_le.mp (le_refl |h|)
  have hx : ContDiffAt ℝ 3 f x :=
    hf.contDiffAt (Icc_mem_nhds (sub_lt_self x habs) (lt_add_of_pos_right x habs))
  -- both ends are within the step
  have hside : ∀ y, |y - x| = |h| → ∃ t ∈ Set.Ioo (x - |h|) (x + |h|),
      f y = f x + deriv f x * (y - x) + iteratedDeriv 2 f x / 2 * (y - x) ^ 2
        + iteratedDeriv 3 f t / 6 * (y - x) ^ 3 := by
    intro y hy
    obtain ⟨hlo', hhi'⟩ := abs_le.mp hy.le
    have hne : x ≠ y := by
      rintro rfl
      rw [sub_self, abs_zero] at hy
      exact habs.ne hy
    have hsub : Set.uIcc x y ⊆ Set.Icc (x - |h|) (x + |h|) :=
      Set.uIcc_subset_Icc ⟨by linarith, by linarith⟩ ⟨by linarith, by linarith⟩
    obtain ⟨t, ht, heq⟩ := exists_taylor_two hne (hx.of_le (by norm_num)) (hf.mono hsub)
    refine ⟨t, ⟨lt_of_le_of_lt ?_ ht.1, lt_of_lt_of_le ht.2 ?_⟩, heq⟩
    · exact le_min (by linarith) (by linarith)
    · exact max_le (by linarith) (by linarith)
  obtain ⟨s, hs, hplus⟩ := hside (x + h) (by rw [add_sub_cancel_left])
  obtain ⟨t, ht, hminus⟩ := hside (x - h) (by rw [sub_sub_cancel_left, abs_neg])
  have hdiff : (f (x + h) - f (x - h)) / (2 * h) - deriv f x
      = (iteratedDeriv 3 f s + iteratedDeriv 3 f t) / 2 * h ^ 2 / 6 := by
    rw [hplus, hminus]
    field_simp
    ring
  rw [hdiff, abs_div, abs_mul, abs_of_nonneg (sq_nonneg h), abs_of_pos (by norm_num : (0 : ℝ) < 6)]
  have hmean : |(iteratedDeriv 3 f s + iteratedDeriv 3 f t) / 2| ≤ M := by
    have hsum := abs_add_le (iteratedDeriv 3 f s) (iteratedDeriv 3 f t)
    rw [abs_div, abs_two]
    linarith [hM s hs, hM t ht]
  gcongr

/-! ### Roots of sums of squares -/

theorem abs_sqrt_sum_sq_sub_le {ι : Type*} (l : List ι) (a b : ι → ℝ) :
    |√((l.map fun i => a i ^ 2).sum) - √((l.map fun i => b i ^ 2).sum)|
      ≤ √((l.map fun i => (a i - b i) ^ 2).sum) := by
  have hnorm : ∀ c : ι → ℝ, √((l.map fun i => c i ^ 2).sum)
      = ‖WithLp.toLp 2 fun k : Fin l.length => c l[k]‖ := by
    intro c
    rw [EuclideanSpace.norm_eq, ← Fin.sum_univ_fun_getElem]
    simp
  rw [hnorm a, hnorm b, hnorm fun i => a i - b i]
  exact abs_norm_sub_norm_le _ _

/-! ### Affine combinations of independent variables -/

section Affine

variable {Ω ι : Type*} [MeasurableSpace Ω] {P : Measure Ω} [IsProbabilityMeasure P]
variable {s : Finset ι} {X : ι → Ω → ℝ}

theorem memLp_affine (hX : ∀ i ∈ s, MemLp (X i) 2 P) (a : ℝ) (b : ι → ℝ) :
    MemLp (fun ω => a + ∑ i ∈ s, b i * X i ω) 2 P :=
  (memLp_const a).add (memLp_finsetSum s fun i hi => (hX i hi).const_mul (b i))

theorem integral_affine (hX : ∀ i ∈ s, MemLp (X i) 2 P) (a : ℝ) (b : ι → ℝ) :
    ∫ ω, a + ∑ i ∈ s, b i * X i ω ∂P = a + ∑ i ∈ s, b i * ∫ ω, X i ω ∂P := by
  have hint : ∀ i ∈ s, Integrable (fun ω => b i * X i ω) P :=
    fun i hi => ((hX i hi).integrable one_le_two).const_mul (b i)
  rw [integral_add (integrable_const a) (integrable_finsetSum s hint), integral_finsetSum s hint,
    integral_const]
  simp [integral_const_mul]

theorem variance_affine (hX : ∀ i ∈ s, MemLp (X i) 2 P)
    (hind : Set.Pairwise ↑s fun i j => X i ⟂ᵢ[P] X j) (a : ℝ) (b : ι → ℝ) :
    Var[fun ω => a + ∑ i ∈ s, b i * X i ω; P] = ∑ i ∈ s, b i ^ 2 * Var[X i; P] := by
  have hterms : ∀ i ∈ s, MemLp (fun ω => b i * X i ω) 2 P := fun i hi => (hX i hi).const_mul (b i)
  rw [variance_const_add (memLp_finsetSum s hterms).1]
  have hsum : (fun ω => ∑ i ∈ s, b i * X i ω) = ∑ i ∈ s, fun ω => b i * X i ω := by
    funext ω
    rw [Finset.sum_apply]
  rw [hsum, IndepFun.variance_sum hterms]
  · exact Finset.sum_congr rfl fun i _ => variance_const_mul (b i) (X i) P
  · exact fun i hi j hj hne => (hind hi hj hne).comp (measurable_const_mul (b i))
      (measurable_const_mul (b j))

omit [IsProbabilityMeasure P] in
theorem memLp_of_normal {Y : Ω → ℝ} {m σ : ℝ} (hY : HasLaw Y (gaussianReal m (σ ^ 2).toNNReal) P) :
    MemLp Y 2 P ∧ ∫ ω, Y ω ∂P = m ∧ Var[Y; P] = σ ^ 2 := by
  refine ⟨hY.hasGaussianLaw.memLp_two, ?_, ?_⟩
  · rw [hY.integral_eq, integral_id_gaussianReal]
  · rw [hY.variance_eq, variance_id_gaussianReal, Real.coe_toNNReal _ (sq_nonneg σ)]

/-- Normal variables give a normal one. -/
theorem map_affine_normal {m σ : ι → ℝ}
    (hX : ∀ i ∈ s, HasLaw (X i) (gaussianReal (m i) (σ i ^ 2).toNNReal) P)
    (hind : iIndepFun (fun i : s => X i) P) (a : ℝ) (b : ι → ℝ) :
    P.map (fun ω => a + ∑ i ∈ s, b i * X i ω)
      = gaussianReal (a + ∑ i ∈ s, b i * m i) (∑ i ∈ s, (b i * σ i) ^ 2).toNNReal := by
  have hLp : ∀ i ∈ s, MemLp (X i) 2 P := fun i hi => (memLp_of_normal (hX i hi)).1
  have hpair : Set.Pairwise ↑s fun i j => X i ⟂ᵢ[P] X j := fun i hi j hj hne =>
    hind.indepFun (i := ⟨i, hi⟩) (j := ⟨j, hj⟩) fun h => hne (congrArg Subtype.val h)
  -- a linear image of the joint law, which is normal
  have hjoint : HasGaussianLaw (fun ω => fun i : s => X i ω) P :=
    hind.hasGaussianLaw fun i => (hX i i.2).hasGaussianLaw
  have hsum : HasGaussianLaw (fun ω => ∑ i ∈ s, b i * X i ω) P := by
    have hlinear := hjoint.map_fun (∑ i : s, b i • ContinuousLinearMap.proj (R := ℝ) i)
    refine hlinear.congr (Filter.Eventually.of_forall fun ω => ?_)
    simp [← Finset.sum_attach s]
  have hlaw : HasLaw (fun ω => ∑ i ∈ s, b i * X i ω)
      (gaussianReal (∑ i ∈ s, b i * m i) (∑ i ∈ s, (b i * σ i) ^ 2).toNNReal) P := by
    refine ⟨hsum.aemeasurable, ?_⟩
    have hmean : ∫ ω, ∑ i ∈ s, b i * X i ω ∂P = ∑ i ∈ s, b i * m i := by
      have hintegral := integral_affine hLp 0 b
      simp only [zero_add] at hintegral
      rw [hintegral]
      exact Finset.sum_congr rfl fun i hi => by rw [(memLp_of_normal (hX i hi)).2.1]
    have hvar : Var[fun ω => ∑ i ∈ s, b i * X i ω; P] = ∑ i ∈ s, (b i * σ i) ^ 2 := by
      have hvariance := variance_affine hLp hpair 0 b
      simp only [zero_add] at hvariance
      rw [hvariance]
      exact Finset.sum_congr rfl fun i hi => by rw [(memLp_of_normal (hX i hi)).2.2, mul_pow]
    rw [hsum.map_eq_gaussianReal, hmean, hvar]
  rw [add_comm a]
  exact (gaussianReal_const_add hlaw a).map_eq

end Affine

/-! ### Chebyshev -/

/-- Beyond `k` standard deviations of its mean a variable is with probability
at most `1 / k ^ 2`, also if it has no deviation at all. -/
theorem measure_deviation_le {Ω : Type*} [MeasurableSpace Ω] {P : Measure Ω}
    [IsProbabilityMeasure P] {Y : Ω → ℝ} (hY : MemLp Y 2 P) {σ k : ℝ} (hk : 0 < k) (hσ : 0 ≤ σ)
    (hvar : Var[Y; P] = σ ^ 2) :
    P {ω | k * σ < |Y ω - ∫ ω', Y ω' ∂P|} ≤ ENNReal.ofReal (1 / k ^ 2) := by
  rcases hσ.eq_or_lt with rfl | hpos
  · have hzero : Var[Y; P] = 0 := by rw [hvar, sq, mul_zero]
    have hnull : P {ω | k * 0 < |Y ω - ∫ ω', Y ω' ∂P|} = 0 := by
      rw [← nonpos_iff_eq_zero]
      refine (measure_mono fun ω hω => ?_).trans_eq
        (ae_iff.mp (ae_eq_integral_of_variance_eq_zero hY hzero))
      intro heq
      have hlt : 0 * k < |Y ω - ∫ ω', Y ω' ∂P| := by simpa using hω
      rw [heq, sub_self, abs_zero, zero_mul] at hlt
      exact lt_irrefl _ hlt
    rw [hnull]
    exact bot_le
  · calc P {ω | k * σ < |Y ω - ∫ ω', Y ω' ∂P|}
        ≤ P {ω | k * σ ≤ |Y ω - ∫ ω', Y ω' ∂P|} := measure_mono fun ω hω => (show k * σ < _ from hω).le
      _ ≤ ENNReal.ofReal (Var[Y; P] / (k * σ) ^ 2) :=
          meas_ge_le_variance_div_sq hY (mul_pos hk hpos)
      _ = ENNReal.ofReal (1 / k ^ 2) := by
          rw [hvar, mul_pow, div_mul_cancel_right₀ (pow_ne_zero 2 hpos.ne'), one_div]

end DeltaMethod

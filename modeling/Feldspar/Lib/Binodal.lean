/-
Feldspar/Lib/Binodal.lean

The mixing curve `c · m (1 - m) - h(m)` of a share `m`, with the binary entropy
`h`, and where it is least and greatest on an interval of shares.

In the square of `gap m`, the difference of the two shares, the entropy is a power
series whose coefficients are negative (`hasSum_entropy`), so the curve lies above
its tangents (`curve_tangent`).  The slope of a tangent has the sign of
`binodal m - c`: a share is at a minimum when `c` is its binodal parameter, and the
equal shares when `c` is at most 2.
-/
import Mathlib.Analysis.SpecialFunctions.BinaryEntropy
import Mathlib.Analysis.SpecialFunctions.Log.Deriv
import Mathlib.Topology.Algebra.InfiniteSum.Order
import Mathlib.Tactic.Linarith
import Mathlib.Tactic.FieldSimp
import Mathlib.Tactic.Positivity

set_option linter.unusedSectionVars false

namespace Binodal

open Real (log binEntropy)

/-- The difference of the two shares. -/
def gap (m : ℝ) : ℝ := 1 - m - m

noncomputable def curve (c m : ℝ) : ℝ := c * (m * (1 - m)) - binEntropy m

/-- The parameter for which the curve is level at `m`. -/
noncomputable def binodal (m : ℝ) : ℝ :=
  if gap m = 0 then 1 + 1 else (log (1 - m) - log m) / gap m

variable {a b c m m₀ : ℝ}

theorem gap_one_sub (m : ℝ) : gap (1 - m) = -gap m := by
  unfold gap
  ring

theorem gap_middle : gap (1 / 2) = 0 := by
  unfold gap
  norm_num

theorem abs_gap_lt_one (h₀ : 0 < m) (h₁ : m < 1) : |gap m| < 1 := by
  rw [abs_lt, gap]
  constructor <;> linarith

theorem gap_sq_lt_one (h₀ : 0 < m) (h₁ : m < 1) : gap m ^ 2 < 1 :=
  (sq_lt_one_iff_abs_lt_one _).mpr (abs_gap_lt_one h₀ h₁)

/-- The logarithms of the shares, from their gap. -/
theorem log_shares (h₀ : 0 < m) (h₁ : m < 1) :
    log m = log (1 - gap m) - log 2 ∧ log (1 - m) = log (1 + gap m) - log 2 := by
  have hlow : 1 - gap m = 2 * m := by
    unfold gap
    ring
  have hhigh : 1 + gap m = 2 * (1 - m) := by
    unfold gap
    ring
  rw [hlow, hhigh, Real.log_mul two_ne_zero h₀.ne', Real.log_mul two_ne_zero (by linarith)]
  constructor <;> ring

/-! ### The series -/

theorem hasSum_gap_mul (h₀ : 0 < m) (h₁ : m < 1) :
    HasSum (fun k : ℕ => 2 / (2 * k + 1) * (gap m ^ 2) ^ (k + 1))
      (gap m * (log (1 - m) - log m)) := by
  obtain ⟨hlog, hlog'⟩ := log_shares h₀ h₁
  have h := (Real.hasSum_log_sub_log_of_abs_lt_one (abs_gap_lt_one h₀ h₁)).mul_left (gap m)
  rw [hlog, hlog', sub_sub_sub_cancel_right]
  have hterm : (fun k : ℕ => 2 / (2 * k + 1) * (gap m ^ 2) ^ (k + 1))
      = fun k : ℕ => gap m * (2 * (1 / (2 * k + 1)) * gap m ^ (2 * k + 1)) := by
    funext k
    rw [← pow_mul, mul_add, mul_one, pow_succ _ (2 * k + 1)]
    ring
  rw [hterm]
  exact h

theorem hasSum_binodal (h₀ : 0 < m) (h₁ : m < 1) :
    HasSum (fun k : ℕ => 2 / (2 * k + 1) * (gap m ^ 2) ^ k) (binodal m) := by
  unfold binodal
  by_cases hgap : gap m = 0
  · -- only the first term is left
    rw [if_pos hgap, hgap]
    have h := hasSum_single (f := fun k : ℕ => 2 / (2 * (k : ℝ) + 1) * ((0 : ℝ) ^ 2) ^ k) 0
    norm_num at h ⊢
    apply h
    intro k hk
    right
    exact hk
  · rw [if_neg hgap]
    have h := (hasSum_gap_mul h₀ h₁).div_const (gap m ^ 2)
    have hterm : (fun k : ℕ => 2 / (2 * k + 1) * (gap m ^ 2) ^ k)
        = fun k : ℕ => 2 / (2 * k + 1) * (gap m ^ 2) ^ (k + 1) / gap m ^ 2 := by
      funext k
      rw [pow_succ (gap m ^ 2) k, ← mul_assoc, mul_div_cancel_right₀ _ (pow_ne_zero 2 hgap)]
    have hsum : (log (1 - m) - log m) / gap m = gap m * (log (1 - m) - log m) / gap m ^ 2 := by
      field_simp
    rw [hterm, hsum]
    exact h

/-- The entropy, from above. -/
theorem hasSum_entropy (h₀ : 0 < m) (h₁ : m < 1) :
    HasSum (fun k : ℕ => 1 / ((2 * k + 1) * (2 * k + 2)) * (gap m ^ 2) ^ (k + 1))
      (log 2 - binEntropy m) := by
  have hsq := gap_sq_lt_one h₀ h₁
  have habs : |gap m ^ 2| < 1 := by rwa [abs_of_nonneg (sq_nonneg _)]
  have hlog := (Real.hasSum_pow_div_log_of_abs_lt_one habs).div_const 2
  have h := ((hasSum_gap_mul h₀ h₁).div_const 2).sub hlog
  have hterm : (fun k : ℕ => 1 / ((2 * k + 1) * (2 * k + 2)) * (gap m ^ 2) ^ (k + 1))
      = fun k : ℕ => 2 / (2 * k + 1) * (gap m ^ 2) ^ (k + 1) / 2
        - (gap m ^ 2) ^ (k + 1) / (k + 1) / 2 := by
    funext k
    have hk : (2 * (k : ℝ) + 1) ≠ 0 := by positivity
    have hk' : (k : ℝ) + 1 ≠ 0 := by positivity
    field_simp
    ring
  have hsum : log 2 - binEntropy m
      = gap m * (log (1 - m) - log m) / 2 - -log (1 - gap m ^ 2) / 2 := by
    obtain ⟨hlog₁, hlog₂⟩ := log_shares h₀ h₁
    have habs' := abs_lt.mp (abs_gap_lt_one h₀ h₁)
    have hfactor : 1 - gap m ^ 2 = (1 - gap m) * (1 + gap m) := by ring
    rw [hfactor, Real.log_mul (by linarith) (by linarith), binEntropy, Real.log_inv, Real.log_inv,
      hlog₁, hlog₂]
    unfold gap
    ring
  rw [hterm, hsum]
  exact h

/-! ### Tangents -/

/-- A power lies above its tangents. -/
theorem pow_tangent {w w₀ : ℝ} (hw : 0 ≤ w) (hw₀ : 0 ≤ w₀) (k : ℕ) :
    w₀ ^ (k + 1) + (k + 1) * w₀ ^ k * (w - w₀) ≤ w ^ (k + 1) := by
  induction k with
  | zero => norm_num
  | succ k ih =>
      have hstep := mul_le_mul_of_nonneg_right ih hw
      have hsquare : 0 ≤ (k + 1) * w₀ ^ k * (w - w₀) ^ 2 := by positivity
      push_cast
      calc w₀ ^ (k + 1 + 1) + (k + 1 + 1) * w₀ ^ (k + 1) * (w - w₀)
          = (w₀ ^ (k + 1) + (k + 1) * w₀ ^ k * (w - w₀)) * w
            - (k + 1) * w₀ ^ k * (w - w₀) ^ 2 := by ring
        _ ≤ w ^ (k + 1) * w := by linarith
        _ = w ^ (k + 1 + 1) := (pow_succ _ _).symm

/-- The entropy lies below its tangents in the squared gap. -/
theorem entropy_tangent (h₀ : 0 < m₀) (h₁ : m₀ < 1) (hm₀ : 0 < m) (hm₁ : m < 1) :
    log 2 - binEntropy m₀ + binodal m₀ / 4 * (gap m ^ 2 - gap m₀ ^ 2) ≤ log 2 - binEntropy m ∧
      (gap m ^ 2 ≠ gap m₀ ^ 2 →
        log 2 - binEntropy m₀ + binodal m₀ / 4 * (gap m ^ 2 - gap m₀ ^ 2)
          < log 2 - binEntropy m) := by
  have htangent := (hasSum_entropy h₀ h₁).add
    (((hasSum_binodal h₀ h₁).div_const 4).mul_right (gap m ^ 2 - gap m₀ ^ 2))
  have hcurve := hasSum_entropy hm₀ hm₁
  have hterm : ∀ k : ℕ, 1 / ((2 * k + 1) * (2 * k + 2)) * (gap m₀ ^ 2) ^ (k + 1)
        + 2 / (2 * k + 1) * (gap m₀ ^ 2) ^ k / 4 * (gap m ^ 2 - gap m₀ ^ 2)
      = 1 / ((2 * k + 1) * (2 * k + 2)) * ((gap m₀ ^ 2) ^ (k + 1)
        + (k + 1) * (gap m₀ ^ 2) ^ k * (gap m ^ 2 - gap m₀ ^ 2)) := by
    intro k
    have hk : (2 * (k : ℝ) + 1) ≠ 0 := by positivity
    have hk' : (k : ℝ) + 1 ≠ 0 := by positivity
    field_simp
    ring
  have hle : ∀ k : ℕ, 1 / ((2 * k + 1) * (2 * k + 2)) * (gap m₀ ^ 2) ^ (k + 1)
        + 2 / (2 * k + 1) * (gap m₀ ^ 2) ^ k / 4 * (gap m ^ 2 - gap m₀ ^ 2)
      ≤ 1 / ((2 * (k : ℝ) + 1) * (2 * k + 2)) * (gap m ^ 2) ^ (k + 1) := by
    intro k
    rw [hterm]
    exact mul_le_mul_of_nonneg_left (pow_tangent (sq_nonneg _) (sq_nonneg _) k) (by positivity)
  refine ⟨hasSum_le hle htangent hcurve, fun hne => ?_⟩
  -- the square is strictly above its tangents
  apply hasSum_lt (i := 1) hle _ htangent hcurve
  have hsquare : 0 < (gap m ^ 2 - gap m₀ ^ 2) ^ 2 := by
    have := sub_ne_zero.mpr hne
    positivity
  rw [hterm]
  norm_num
  linarith

/-- **The curve lies above its tangents** in the squared gap. -/
theorem curve_tangent (h₀ : 0 < m₀) (h₁ : m₀ < 1) (hm₀ : 0 < m) (hm₁ : m < 1) :
    curve c m₀ + (binodal m₀ - c) / 4 * (gap m ^ 2 - gap m₀ ^ 2) ≤ curve c m ∧
      (gap m ^ 2 ≠ gap m₀ ^ 2 →
        curve c m₀ + (binodal m₀ - c) / 4 * (gap m ^ 2 - gap m₀ ^ 2) < curve c m) := by
  obtain ⟨hle, hlt⟩ := entropy_tangent h₀ h₁ hm₀ hm₁
  have hcurve : ∀ m, curve c m = c / 4 * (1 - gap m ^ 2) - binEntropy m := by
    intro m
    unfold curve gap
    ring
  rw [hcurve, hcurve]
  refine ⟨by linarith, fun hne => ?_⟩
  have := hlt hne
  linarith

/-! ### The binodal parameter -/

theorem binodal_half : binodal (1 / 2) = 2 := by
  rw [binodal, if_pos gap_middle]
  norm_num

/-- Equal gaps have equal parameters. -/
theorem binodal_congr (h : gap m ^ 2 = gap m₀ ^ 2) : binodal m = binodal m₀ := by
  rcases sq_eq_sq_iff_eq_or_eq_neg.mp h with heq | heq
  · obtain rfl : m = m₀ := by
      unfold gap at heq
      linarith
    rfl
  · obtain rfl : m = 1 - m₀ := by
      unfold gap at heq
      linarith
    unfold binodal
    simp only [gap_one_sub, neg_eq_zero]
    rw [sub_sub_cancel, div_neg, ← neg_div, neg_sub]

theorem binodal_bounds (h₀ : 0 < m) (h₁ : m < 1) :
    2 ≤ binodal m ∧ binodal m ≤ 2 * (1 - gap m ^ 2)⁻¹ := by
  have h := hasSum_binodal h₀ h₁
  have hsq := sq_nonneg (gap m)
  constructor
  · have hfirst := hasSum_single (f := fun k : ℕ => if k = 0 then (2 : ℝ) else 0) 0
      fun k hk => if_neg hk
    apply hasSum_le _ hfirst h
    intro k
    split
    · rename_i hk
      rw [hk]
      norm_num
    · positivity
  · apply hasSum_le _ h ((hasSum_geometric_of_lt_one hsq (gap_sq_lt_one h₀ h₁)).mul_left 2)
    intro k
    apply mul_le_mul_of_nonneg_right _ (pow_nonneg hsq k)
    apply div_le_self zero_le_two
    have : (0 : ℝ) ≤ k := Nat.cast_nonneg k
    linarith

theorem continuous_gap : Continuous gap := by
  unfold gap
  fun_prop

theorem continuousOn_binodal : ContinuousOn binodal (Set.Ioo 0 1) := by
  intro m hm
  apply ContinuousAt.continuousWithinAt
  by_cases hgap : gap m = 0
  · -- squeezed at the equal shares
    have hvalue : binodal m = 2 := by
      rw [binodal, if_pos hgap]
      norm_num
    have hupper : Filter.Tendsto (fun x => 2 * (1 - gap x ^ 2)⁻¹) (nhds m) (nhds 2) := by
      have hcont : ContinuousAt (fun x => 2 * (1 - gap x ^ 2)⁻¹) m := by
        apply ContinuousAt.mul continuousAt_const
        apply ContinuousAt.inv₀
        · have := continuous_gap.continuousAt (x := m)
          fun_prop
        · rw [hgap]
          norm_num
      have := hcont.tendsto
      rw [hgap] at this
      norm_num at this
      exact this
    have hnear := Ioo_mem_nhds hm.1 hm.2
    rw [ContinuousAt, hvalue]
    apply tendsto_of_tendsto_of_tendsto_of_le_of_le' tendsto_const_nhds hupper
    · filter_upwards [hnear] with x hx
      exact (binodal_bounds hx.1 hx.2).1
    · filter_upwards [hnear] with x hx
      exact (binodal_bounds hx.1 hx.2).2
  · have hquotient : ContinuousAt (fun x => (log (1 - x) - log x) / gap x) m := by
      apply ContinuousAt.div _ continuous_gap.continuousAt hgap
      apply ContinuousAt.sub
      · apply ContinuousAt.log (by fun_prop)
        exact (sub_pos.mpr hm.2).ne'
      · exact Real.continuousAt_log hm.1.ne'
    apply hquotient.congr
    have hnear : ∀ᶠ x in nhds m, gap x ≠ 0 := continuous_gap.continuousAt.eventually_ne hgap
    filter_upwards [hnear] with x hx
    rw [binodal, if_neg hx]

/-- Every parameter between those of two shares is that of a share between
them. -/
theorem exists_binodal_eq (ha : 0 < a) (hab : a ≤ b) (hb : b < 1)
    (h : c ∈ Set.uIcc (binodal a) (binodal b)) : ∃ m, a ≤ m ∧ m ≤ b ∧ binodal m = c := by
  have hcont : ContinuousOn binodal (Set.uIcc a b) := by
    apply continuousOn_binodal.mono
    rw [Set.uIcc_of_le hab]
    exact fun x hx => ⟨ha.trans_le hx.1, hx.2.trans_lt hb⟩
  obtain ⟨m, hm, hmc⟩ := intermediate_value_uIcc hcont h
  rw [Set.uIcc_of_le hab] at hm
  exact ⟨m, hm.1, hm.2, hmc⟩

/-! ### Extremes at the ends of an interval -/

/-- The least value is at an end: both ends lie between the two minima, or one
of them is a minimum, or both lie on the same side of the minima. -/
def LeastAtEnd (c a b : ℝ) : Prop :=
  (binodal a ≤ c ∧ binodal b ≤ c) ∨ c = binodal a ∨ c = binodal b ∨
    ((c ≤ binodal a ∧ c ≤ binodal b) ∧ (b ≤ 1 - b ∨ 1 - a ≤ a))

/-- The equal shares are no higher than the end `m`. -/
def AboveMiddle (c m : ℝ) : Prop := c * gap m ^ 2 ≤ (4 : ℕ) * (log (2 : ℕ) - binEntropy m)

/-- The greatest value is at an end: the equal shares are not inside, or no
higher than an end. -/
def GreatestAtEnd (c a b : ℝ) : Prop :=
  b ≤ 1 - b ∨ 1 - a ≤ a ∨ AboveMiddle c a ∨ AboveMiddle c b

theorem curve_half : curve c (1 / 2) = c / 4 - log 2 := by
  have hhalf : (1 / 2 : ℝ) = 2⁻¹ := one_div 2
  rw [curve, hhalf, Real.binEntropy_two_inv]
  ring

theorem aboveMiddle_iff : AboveMiddle c m ↔ curve c (1 / 2) ≤ curve c m := by
  rw [AboveMiddle, curve_half, curve, gap]
  push_cast
  constructor <;> intro h <;> nlinarith

/-- Where the slope is not negative the curve rises with the gap. -/
theorem curve_le_of_slope_nonneg (h₀ : 0 < m₀) (h₁ : m₀ < 1) (hm₀ : 0 < m) (hm₁ : m < 1)
    (hslope : c ≤ binodal m₀) (hgap : gap m₀ ^ 2 ≤ gap m ^ 2) : curve c m₀ ≤ curve c m := by
  have htangent := (curve_tangent (c := c) h₀ h₁ hm₀ hm₁).1
  have := mul_nonneg (sub_nonneg.mpr hslope) (sub_nonneg.mpr hgap)
  linarith

/-- Where the slope is not positive the curve falls with the gap. -/
theorem curve_le_of_slope_nonpos (h₀ : 0 < m₀) (h₁ : m₀ < 1) (hm₀ : 0 < m) (hm₁ : m < 1)
    (hslope : binodal m₀ ≤ c) (hgap : gap m ^ 2 ≤ gap m₀ ^ 2) : curve c m₀ ≤ curve c m := by
  have htangent := (curve_tangent (c := c) h₀ h₁ hm₀ hm₁).1
  have := mul_nonneg (sub_nonneg.mpr hslope) (sub_nonneg.mpr hgap)
  linarith

/-- A share with this parameter, or the equal shares below 2, are a strict
minimum. -/
theorem curve_lt (h₀ : 0 < m₀) (h₁ : m₀ < 1) (hm₀ : 0 < m) (hm₁ : m < 1)
    (hmin : binodal m₀ = c ∨ (m₀ = 1 / 2 ∧ c ≤ 2)) (hgap : gap m ^ 2 ≠ gap m₀ ^ 2) :
    curve c m₀ < curve c m := by
  have htangent := (curve_tangent (c := c) h₀ h₁ hm₀ hm₁).2 hgap
  rcases hmin with rfl | ⟨rfl, hc⟩
  · linarith
  · rw [binodal_half, gap_middle] at htangent
    have := mul_nonneg (sub_nonneg.mpr hc) (sq_nonneg (gap m))
    linarith

theorem gap_sq_ne_middle (h : m ≠ 1 / 2) : gap m ^ 2 ≠ gap (1 / 2) ^ 2 := by
  rw [gap_middle, zero_pow two_ne_zero]
  apply pow_ne_zero
  intro hgap
  apply h
  unfold gap at hgap
  linarith

/-- On an interval the gap is greatest at an end. -/
theorem gap_sq_le_max (ha : a ≤ m) (hb : m ≤ b) : gap m ^ 2 ≤ gap a ^ 2 ∨ gap m ^ 2 ≤ gap b ^ 2 := by
  unfold gap
  rcases le_total m (1 / 2) with hm | hm
  · left
    nlinarith
  · right
    nlinarith

section Interval

variable (ha : 0 < a) (hb : b < 1)

include ha hb

/-- An interval whose ends decide nothing has a share that is strictly lower
than both. -/
theorem exists_curve_lt (hab : a ≤ b) (h : ¬ LeastAtEnd c a b) :
    ∃ m, a ≤ m ∧ m ≤ b ∧ curve c m < curve c a ∧ curve c m < curve c b := by
  unfold LeastAtEnd at h
  push Not at h
  obtain ⟨hboth, hne_a, hne_b, hsides⟩ := h
  obtain ⟨m, ham, hmb, hmin, hgap_a, hgap_b⟩ : ∃ m, a ≤ m ∧ m ≤ b ∧
      (binodal m = c ∨ (m = 1 / 2 ∧ c ≤ 2)) ∧ gap a ^ 2 ≠ gap m ^ 2 ∧ gap b ^ 2 ≠ gap m ^ 2 := by
    -- a share with the parameter `c` is not as far from the middle as an end
    have hlevel : ∀ m, binodal m = c → gap a ^ 2 ≠ gap m ^ 2 ∧ gap b ^ 2 ≠ gap m ^ 2 := by
      rintro m rfl
      exact ⟨fun h => hne_a (binodal_congr h).symm, fun h => hne_b (binodal_congr h).symm⟩
    by_cases hbetween : c ∈ Set.uIcc (binodal a) (binodal b)
    · obtain ⟨m, ham, hmb, hm⟩ := exists_binodal_eq ha hab hb hbetween
      exact ⟨m, ham, hmb, Or.inl hm, hlevel m hm⟩
    · -- both parameters are greater, and the equal shares are inside
      have hc : c < binodal a ∧ c < binodal b := by
        rw [Set.mem_uIcc] at hbetween
        push Not at hbetween
        constructor
        · by_contra hle
          rw [not_lt] at hle
          exact absurd (hbetween.1 hle) (not_lt.mpr (hboth hle).le)
        · by_contra hle
          rw [not_lt] at hle
          have hca := hbetween.2 hle
          exact absurd (hboth hca.le) (not_lt.mpr hle)
      obtain ⟨hb', ha'⟩ := hsides ⟨hc.1.le, hc.2.le⟩
      have ham : a < 1 / 2 := by linarith
      have hmb : 1 / 2 < b := by linarith
      by_cases hlow : c ≤ 2
      · exact ⟨1 / 2, ham.le, hmb.le, Or.inr ⟨rfl, hlow⟩, gap_sq_ne_middle ham.ne,
          gap_sq_ne_middle hmb.ne'⟩
      · have hmem : c ∈ Set.uIcc (binodal a) (binodal (1 / 2)) := by
          rw [binodal_half, Set.mem_uIcc]
          exact Or.inr ⟨(not_le.mp hlow).le, hc.1.le⟩
        obtain ⟨m, ham', hm', hm⟩ := exists_binodal_eq ha ham.le (by norm_num) hmem
        exact ⟨m, ham', hm'.trans hmb.le, Or.inl hm, hlevel m hm⟩
  have hm₀ : 0 < m := ha.trans_le ham
  have hm₁ : m < 1 := hmb.trans_lt hb
  exact ⟨m, ham, hmb, curve_lt hm₀ hm₁ ha (hab.trans_lt hb) hmin hgap_a,
    curve_lt hm₀ hm₁ (ha.trans_le hab) hb hmin hgap_b⟩

/-- **The least value**: the curve stays above the lower one of its ends exactly
if the condition holds. -/
theorem min_le_curve_iff (hab : a ≤ b) :
    (∀ m, a ≤ m → m ≤ b → min (curve c a) (curve c b) ≤ curve c m) ↔ LeastAtEnd c a b := by
  constructor
  · intro h
    by_contra hnot
    obtain ⟨m, ham, hmb, hlt_a, hlt_b⟩ := exists_curve_lt ha hb hab hnot
    exact absurd (h m ham hmb) (not_le.mpr (lt_min hlt_a hlt_b))
  · intro h m ham hmb
    have ha₁ : a < 1 := hab.trans_lt hb
    have hb₀ : 0 < b := ha.trans_le hab
    have hm₀ : 0 < m := ha.trans_le ham
    have hm₁ : m < 1 := hmb.trans_lt hb
    rw [min_le_iff]
    rcases h with ⟨hleft, hright⟩ | rfl | rfl | ⟨⟨hleft, hright⟩, hside⟩
    · -- the farther end
      rcases gap_sq_le_max ham hmb with hgap | hgap
      · exact Or.inl (curve_le_of_slope_nonpos ha ha₁ hm₀ hm₁ hleft hgap)
      · exact Or.inr (curve_le_of_slope_nonpos hb₀ hb hm₀ hm₁ hright hgap)
    · left
      have := (curve_tangent (c := binodal a) ha ha₁ hm₀ hm₁).1
      linarith
    · right
      have := (curve_tangent (c := binodal b) hb₀ hb hm₀ hm₁).1
      linarith
    · -- the nearer end
      rcases hside with hside | hside
      · right
        apply curve_le_of_slope_nonneg hb₀ hb hm₀ hm₁ hright
        unfold gap
        nlinarith
      · left
        apply curve_le_of_slope_nonneg ha ha₁ hm₀ hm₁ hleft
        unfold gap
        nlinarith

/-- **The greatest value**: the curve stays below the higher one of its ends
exactly if the condition holds. -/
theorem curve_le_max_iff (hab : a ≤ b) :
    (∀ m, a ≤ m → m ≤ b → curve c m ≤ max (curve c a) (curve c b)) ↔ GreatestAtEnd c a b := by
  constructor
  · intro h
    unfold GreatestAtEnd
    by_contra hnot
    push Not at hnot
    obtain ⟨hb', ha', hcurve_a, hcurve_b⟩ := hnot
    rw [aboveMiddle_iff, not_le] at hcurve_a hcurve_b
    have := h (1 / 2) (by linarith) (by linarith)
    exact absurd this (not_le.mpr (max_lt hcurve_a hcurve_b))
  · intro h m ham hmb
    have ha₁ : a < 1 := hab.trans_lt hb
    have hb₀ : 0 < b := ha.trans_le hab
    have hm₀ : 0 < m := ha.trans_le ham
    have hm₁ : m < 1 := hmb.trans_lt hb
    rw [le_max_iff]
    by_cases hslope : c ≤ binodal m
    · -- the curve rises from `m` to the farther end
      rcases gap_sq_le_max ham hmb with hgap | hgap
      · exact Or.inl (curve_le_of_slope_nonneg hm₀ hm₁ ha ha₁ hslope hgap)
      · exact Or.inr (curve_le_of_slope_nonneg hm₀ hm₁ hb₀ hb hslope hgap)
    · have hslope' := (not_le.mp hslope).le
      have hmiddle : curve c m ≤ curve c (1 / 2) := by
        apply curve_le_of_slope_nonpos hm₀ hm₁ (by norm_num) (by norm_num) hslope'
        rw [gap_middle, zero_pow two_ne_zero]
        exact sq_nonneg _
      rcases h with hside | hside | hend | hend
      · right
        apply curve_le_of_slope_nonpos hm₀ hm₁ hb₀ hb hslope'
        unfold gap
        nlinarith
      · left
        apply curve_le_of_slope_nonpos hm₀ hm₁ ha ha₁ hslope'
        unfold gap
        nlinarith
      · exact Or.inl (hmiddle.trans (aboveMiddle_iff.mp hend))
      · exact Or.inr (hmiddle.trans (aboveMiddle_iff.mp hend))

end Interval

end Binodal

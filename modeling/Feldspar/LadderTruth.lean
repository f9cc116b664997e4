/-
Feldspar/LadderTruth.lean

What the answer of a refinement ladder says about the limit of the meshes
(`ladder.py`, `richardson.py`).

The eps of a climb is a multiple of the last difference of two meshes, and the
order of the extrapolation is assumed.  So whether the interval of the answer
has the true value in it depends on how fast the error fell from the one mesh
to the other: on the ratio of the two errors (`Encloses`, `climb_encloses_iff`).
-/
import Feldspar.Ladder
import Mathlib.Tactic.FieldSimp
import Mathlib.Tactic.Linarith
import Mathlib.Tactic.Positivity
import Mathlib.Tactic.Ring

set_option linter.unusedSectionVars false

namespace Feldspar.Fea

variable {K : Type} [Field K] [LinearOrder K] [IsStrictOrderedRing K] {R B D : Type}

/-! ### Pairs -/

section Pair

variable {s f a b : K}

/-- An extrapolation by `1 / (s - 1)` of the difference, with `f` times that as
its margin, over errors `a` and `b`. -/
theorem extrapolated_near_iff (hs : 1 < s) :
    |b + (s - 1)⁻¹ * (b - a)| ≤ f * |(s - 1)⁻¹ * (b - a)| ↔ |s * b - a| ≤ f * |b - a| := by
  have hpos : 0 < (s - 1)⁻¹ := inv_pos.mpr (sub_pos.mpr hs)
  have hne : s - 1 ≠ 0 := (sub_pos.mpr hs).ne'
  have hleft : b + (s - 1)⁻¹ * (b - a) = (s - 1)⁻¹ * (s * b - a) := by
    field_simp
    ring
  rw [hleft, abs_mul, abs_mul, abs_of_pos hpos, mul_left_comm f]
  exact mul_le_mul_iff_right₀ hpos

/-- One error is within `f` times the difference of the other: a product of two
linear forms is not negative. -/
theorem abs_le_mul_abs_iff (hf : 0 ≤ f) :
    |s * b - a| ≤ f * |b - a| ↔
      0 ≤ ((f - 1) * a - (f - s) * b) * ((f + 1) * a - (f + s) * b) := by
  have hsquares : |s * b - a| ≤ f * |b - a| ↔ (s * b - a) ^ 2 ≤ (f * (b - a)) ^ 2 := by
    rw [sq_le_sq, abs_mul, abs_of_nonneg hf]
  rw [hsquares, ← sub_nonneg]
  refine iff_of_eq (congrArg (0 ≤ ·) ?_)
  ring

/-- A product of two linear factors, by the ratio. -/
theorem mul_nonneg_iff_ratio {p q ρ : K} (hpq : p ≤ q) :
    0 ≤ (ρ - p) * (ρ - q) ↔ q ≤ ρ ∨ ρ ≤ p := by
  constructor
  · intro h
    by_contra hnot
    obtain ⟨hq, hp⟩ := not_or.mp hnot
    have hneg := mul_neg_of_pos_of_neg (sub_pos.mpr (not_le.mp hp)) (sub_neg.mpr (not_le.mp hq))
    exact absurd h (not_le.mpr hneg)
  · rintro (h | h)
    · exact mul_nonneg (sub_nonneg.mpr (hpq.trans h)) (sub_nonneg.mpr h)
    · exact mul_nonneg_of_nonpos_of_nonpos (sub_nonpos.mpr h) (sub_nonpos.mpr (h.trans hpq))

end Pair

/-! ### What a pair encloses -/

/-- Whether the interval of a pair has a value in it whose errors are `a` on the
coarser mesh and `b` on the finer one.  A divisor below one extrapolates by more
than the difference of the meshes, so there the pair falls back to that. -/
def Encloses (scale safetyFactor a b : K) : Prop :=
  b = 0 ∨
    if scale - 1 < 1 then 1 ≤ a / b - 1 ∨ a / b ≤ 0
    else (safetyFactor + scale) / (safetyFactor + 1) ≤ a / b ∨
      a / b ≤ (safetyFactor - scale) / (safetyFactor - 1)

/-- The gap at the default order and safety factor. -/
theorem encloses_default_iff (a b : K) :
    Encloses (2 ^ 2) (3 / 2) a b ↔ b = 0 ∨ 11 / 5 ≤ a / b ∨ a / b ≤ -5 := by
  unfold Encloses
  norm_num

/-- The answer of a pair of numbers, as a number with a margin. -/
theorem richardsonExtrapolate_finite {scale safetyFactor x x' : K} (hscale : 1 < scale) :
    richardsonExtrapolate scale safetyFactor (.finite x) (.finite x')
      = if |x' - x| < |(scale - 1)⁻¹ * (x' - x)| then some ⟨.finite x', .finite |x' - x|, true⟩
        else some ⟨.finite (x' + (scale - 1)⁻¹ * (x' - x)),
          .finite (safetyFactor * |(scale - 1)⁻¹ * (x' - x)|), false⟩ := by
  have hne : scale - 1 ≠ 0 := (sub_pos.mpr hscale).ne'
  simp only [richardsonExtrapolate, JsonFloat.add, JsonFloat.neg, JsonFloat.scale, JsonFloat.abs,
    JsonFloat.Lt, if_neg hne, ← sub_eq_add_neg, add_sub_cancel_left, ← abs_eq_max_neg]

/-- Dividing by the finer error, whatever its sign. -/
theorem mul_nonneg_div_iff {p q a b : K} (hb : b ≠ 0) :
    0 ≤ (a - p * b) * (a - q * b) ↔ 0 ≤ (a / b - p) * (a / b - q) := by
  have hsquare : (a - p * b) * (a - q * b) = b ^ 2 * ((a / b - p) * (a / b - q)) := by
    field_simp
  rw [hsquare]
  exact mul_nonneg_iff_of_pos_left (by positivity)

/-- The margin of the extrapolated value covers its error. -/
theorem extrapolated_covers_iff {s f a b : K} (hs : 1 < s) (hf : 1 < f) (hb : b ≠ 0) :
    |s * b - a| ≤ f * |b - a| ↔ (f + s) / (f + 1) ≤ a / b ∨ a / b ≤ (f - s) / (f - 1) := by
  have hminus : 0 < f - 1 := sub_pos.mpr hf
  have hplus : 0 < f + 1 := by linarith
  have hfactors : ((f - 1) * a - (f - s) * b) * ((f + 1) * a - (f + s) * b)
      = (f - 1) * (f + 1) * ((a - (f - s) / (f - 1) * b) * (a - (f + s) / (f + 1) * b)) := by
    field_simp
  have hroots : (f - s) / (f - 1) ≤ (f + s) / (f + 1) := by
    rw [div_le_div_iff₀ hminus hplus]
    nlinarith
  rw [abs_le_mul_abs_iff (by linarith), hfactors,
    mul_nonneg_iff_of_pos_left (mul_pos hminus hplus), mul_nonneg_div_iff hb,
    mul_nonneg_iff_ratio hroots]

/-- A finer value with the whole difference as its margin covers its error. -/
theorem difference_covers_iff {a b : K} (hb : b ≠ 0) :
    |b| ≤ |b - a| ↔ 1 ≤ a / b - 1 ∨ a / b ≤ 0 := by
  have hfactors : |b| ≤ |b - a| ↔ 0 ≤ (a - 0 * b) * (a - 2 * b) := by
    rw [← sq_le_sq, ← sub_nonneg]
    refine iff_of_eq (congrArg (0 ≤ ·) ?_)
    ring
  rw [hfactors, mul_nonneg_div_iff hb, mul_nonneg_iff_ratio zero_le_two, le_sub_iff_add_le,
    one_add_one_eq_two]

/-- **A pair**: the value of two meshes is within its eps of the truth iff the
ratio of their errors is outside of a gap. -/
theorem pair_encloses_iff {scale safetyFactor : K} (hscale : 1 < scale)
    (hsafety : 1 < safetyFactor) (x x' : K) :
    ∃ value eps fallback,
      richardsonExtrapolate scale safetyFactor (.finite x) (.finite x')
        = some ⟨.finite value, .finite eps, fallback⟩ ∧
      ∀ truth, |value - truth| ≤ eps ↔
        Encloses scale safetyFactor (x - truth) (x' - truth) := by
  have hinv : 0 < (scale - 1)⁻¹ := inv_pos.mpr (sub_pos.mpr hscale)
  have hdiff : ∀ truth, x' - x = (x' - truth) - (x - truth) := fun truth =>
    (sub_sub_sub_cancel_right x' x truth).symm
  rw [richardsonExtrapolate_finite hscale]
  by_cases hfall : |x' - x| < |(scale - 1)⁻¹ * (x' - x)|
  · -- the correction exceeds the difference: the order is below one
    have hlt : scale - 1 < 1 := by
      rw [abs_mul, abs_of_pos hinv, lt_mul_iff_one_lt_left] at hfall
      · exact (one_lt_inv₀ (sub_pos.mpr hscale)).mp hfall
      · exact (abs_nonneg _).lt_of_ne' fun h => by simp [abs_eq_zero.mp h] at hfall
    rw [if_pos hfall]
    refine ⟨_, _, _, rfl, fun truth => ?_⟩
    rw [Encloses, if_pos hlt, hdiff truth]
    by_cases hb : x' - truth = 0
    · simp [hb]
    · rw [difference_covers_iff hb, or_iff_right hb]
  · rw [if_neg hfall]
    refine ⟨_, _, _, rfl, fun truth => ?_⟩
    have hvalue : x' + (scale - 1)⁻¹ * (x' - x) - truth
        = (x' - truth) + (scale - 1)⁻¹ * ((x' - truth) - (x - truth)) := by
      rw [← hdiff truth]
      ring
    have hnear : |x' + (scale - 1)⁻¹ * (x' - x) - truth|
          ≤ safetyFactor * |(scale - 1)⁻¹ * (x' - x)|
        ↔ |scale * (x' - truth) - (x - truth)|
          ≤ safetyFactor * |(x' - truth) - (x - truth)| := by
      rw [hvalue, hdiff truth]
      exact extrapolated_near_iff hscale
    rw [hnear, Encloses]
    by_cases hb : x' - truth = 0
    · have hle : |truth - x| ≤ safetyFactor * |truth - x| :=
        le_mul_of_one_le_left (abs_nonneg _) hsafety.le
      simpa [hb] using hle
    rw [or_iff_right hb]
    by_cases hlt : scale - 1 < 1
    · -- the order is below one, so the two values are equal, and their errors are
      have hone : 1 < (scale - 1)⁻¹ := (one_lt_inv₀ (sub_pos.mpr hscale)).mpr hlt
      have hzero : x' - x = 0 := by
        by_contra hne
        refine hfall ?_
        rw [abs_mul, abs_of_pos hinv]
        exact lt_mul_of_one_lt_left (abs_pos.mpr hne) hone
      rw [sub_eq_zero.mp hzero] at hb ⊢
      have hsplit : scale * (x - truth) - (x - truth) = (scale - 1) * (x - truth) := by ring
      rw [if_pos hlt, hsplit, sub_self, abs_zero, mul_zero, abs_nonpos_iff, div_self hb]
      constructor
      · exact fun h => absurd h (mul_ne_zero (sub_pos.mpr hscale).ne' hb)
      · rintro (h | h) <;> linarith
    · rw [if_neg hlt]
      exact extrapolated_covers_iff hscale hsafety hb

/-! ### What a climb encloses -/

section Climb

variable {solver : RungSolver K R B} {call : Climb K R B}

/-- A climb that ends with a value ends with the pair of its last two rungs. -/
theorem climbRest_last {rungs : List R} :
    ∀ {i : ℕ} {prev : R} {prevValue : JsonFloat K} {prevEps : Option (JsonFloat K)}
      {value eps : JsonFloat K} {n : ℕ}, solver (call.key prev) = .ok prevValue →
      climbRest solver call i prevValue prevEps rungs = .ok (value, eps, n) →
      ∃ k rung rung' v v' pair, n = i + k + 1 ∧ (prev :: rungs)[k]? = some rung ∧
        (prev :: rungs)[k + 1]? = some rung' ∧ solver (call.key rung) = .ok v ∧
        solver (call.key rung') = .ok v' ∧
        richardsonExtrapolate call.scale call.safetyFactor v v' = some pair ∧
        value = pair.extrapolated ∧ eps = pair.eps := by
  induction rungs with
  | nil =>
      intro i prev prevValue prevEps value eps n hprev h
      cases h
  | cons rung rungs ih =>
      intro i prev prevValue prevEps value eps n hprev h
      have hstep := climbRest_cons solver call i prevValue prevEps rung rungs
      generalize climbRest solver call i prevValue prevEps (rung :: rungs) = res at h hstep
      cases hstep with
      | failed e hrung => cases h
      | divided hscale => cases h
      | worse value' pair prevE hrung hpair hpe hlt => cases h
      | met value' pair hrung hpair hmono hfits =>
          obtain ⟨rfl, hrest⟩ := Prod.mk.inj (Except.ok.inj h)
          obtain ⟨rfl, rfl⟩ := Prod.mk.inj hrest
          exact ⟨0, prev, rung, prevValue, value', pair, rfl, rfl, rfl, hprev, hrung, hpair, rfl, rfl⟩
      | goesOn value' pair hrung hpair hmono hover =>
          obtain ⟨k, r, r', v, v', p, hn, hr, hr', hv, hv', hp, hvalue, heps⟩ := ih hrung h
          exact ⟨k + 1, r, r', v, v', p, by omega, hr, hr', hv, hv', hp, hvalue, heps⟩

variable [DecidableEq D] {digest : RungKey R B → D}

/-- **What the answer of a climb encloses**, after any earlier climbs with the same
cache: it is made of the last two rungs that were run, and if these have numbers
for values, a truth is within the eps iff the ratio of its two errors is outside
of the gap. -/
theorem climb_encloses_iff (hdigest : Function.Injective digest) (history : List (Climb K R B))
    (hscale : 1 < call.scale) (hsafety : 1 < call.safetyFactor) {value eps : JsonFloat K} {n : ℕ}
    (h : (climbCached digest solver call (afterClimbs digest solver history)).1
      = .ok (value, eps, n)) :
    ∃ k rung rung' v v', n = k + 2 ∧ call.rungs[k]? = some rung ∧
      call.rungs[k + 1]? = some rung' ∧ solver (call.key rung) = .ok v ∧
      solver (call.key rung') = .ok v' ∧
      ∀ x x', v = .finite x → v' = .finite x' → ∃ y e, value = .finite y ∧ eps = .finite e ∧
        ∀ truth, |y - truth| ≤ e ↔
          Encloses call.scale call.safetyFactor (x - truth) (x' - truth) := by
  rw [(cacheLaws hdigest history call).same] at h
  obtain ⟨first, second, rungs, v₀, hrungs, hfirst, hloop⟩ := climbPlain_first h (Or.inl ⟨_, rfl⟩)
  obtain ⟨k, rung, rung', v, v', pair, rfl, hr, hr', hv, hv', hpair, rfl, rfl⟩ :=
    climbRest_last hfirst hloop
  rw [← hrungs] at hr hr'
  refine ⟨k, rung, rung', v, v', by omega, hr, hr', hv, hv', ?_⟩
  rintro x x' rfl rfl
  obtain ⟨y, e, fallback, hpair', hiff⟩ := pair_encloses_iff hscale hsafety x x'
  obtain rfl := Option.some.inj (hpair.symm.trans hpair')
  exact ⟨y, e, rfl, rfl, hiff⟩

end Climb

/-- Two meshes whose errors at 0 fall by the factor of the assumed order. -/
def quarteredLadder : List (JsonFloat ℚ) := [.finite 4, .finite 1]

theorem climb_encloses_iff_quartered :
    |(0 : ℚ) - 0| ≤ 3 / 2 ↔ Encloses (4 : ℚ) (3 / 2) (4 - 0) (1 - 0) := by
  obtain ⟨k, rung, rung', v, v', hk, hr, hr', hv, hv', hiff⟩ :=
    climb_encloses_iff Function.injective_id [valuesCall nanLadder]
      (by decide +kernel) (by decide +kernel)
      (show (climbCached id (valuesSolver quarteredLadder) (valuesCall quarteredLadder)
          (afterClimbs id (valuesSolver quarteredLadder) [valuesCall nanLadder])).1
        = .ok (.finite 0, .finite (3 / 2), 2) by decide +kernel)
  obtain rfl : 0 = k := by omega
  obtain rfl : 0 = rung := Option.some.inj hr
  obtain rfl : 1 = rung' := Option.some.inj hr'
  obtain ⟨y, e, hy, he, hwithin⟩ := hiff 4 1 (Except.ok.inj hv).symm (Except.ok.inj hv').symm
  obtain rfl := JsonFloat.finite.inj hy
  obtain rfl := JsonFloat.finite.inj he
  exact hwithin 0

end Feldspar.Fea

/-
Feldspar/AxialCapacity.lean

The corner sweep over the axial capacity of `mech/member_capacity.py`.

The critical stress depends on the yield stress and on `e / (kl/r)²`.  It grows
with the second (`stressOf_mono`).  With the first it grows as long as the column
is inelastic (`inelastic_lt`), and drops where the column becomes elastic: the two
branches do not meet (`elastic_lt_inelastic`).  So a sweep misses the peak exactly
when the transition of the stiffest corner lies inside the box
(`axialE3_encloses_iff`).
-/
import Feldspar.Catalog
import Mathlib.Tactic.Linarith
import Mathlib.Tactic.Positivity
import Mathlib.Tactic.FieldSimp

set_option linter.unusedSectionVars false

namespace Feldspar

namespace Catalog

open Real (sqrt log)

variable {box : PortMap (Interval ℝ)}

/-! ### The two branches -/

/-- `4.71²`, where the column becomes elastic. -/
noncomputable def transition : ℝ := decimal 471 2 ^ 2

/-- The elastic buckling stress, `w` being `e / (kl/r)²`. -/
noncomputable def elasticStress (w : ℝ) : ℝ := Real.pi ^ 2 * w

noncomputable def inelasticStress (fy w : ℝ) : ℝ := decimal 658 3 ^ (fy / elasticStress w) * fy

noncomputable def stressOf (fy w : ℝ) : ℝ :=
  open Classical in
  if fy ≤ transition * w then inelasticStress fy w else decimal 877 3 * elasticStress w

theorem transition_pos : 0 < transition := pow_pos (decimal_pos.mpr (by norm_num)) 2

theorem elasticStress_pos {w : ℝ} (hw : 0 < w) : 0 < elasticStress w :=
  mul_pos (pow_pos Real.pi_pos 2) hw

theorem elasticStress_le {w w' : ℝ} (hle : w ≤ w') : elasticStress w ≤ elasticStress w' :=
  mul_le_mul_of_nonneg_left hle (sq_nonneg _)

theorem criticalStress_eq {fy e klR : ℝ} (hfy : 0 < fy) (he : 0 < e) (hkl : 0 < klR) :
    criticalStress fy e klR = stressOf fy (e / klR ^ 2) := by
  have hbranch : klR ≤ decimal 471 2 * sqrt (e / fy) ↔ fy ≤ transition * (e / klR ^ 2) := by
    have hroot : 0 ≤ decimal 471 2 * sqrt (e / fy) :=
      mul_nonneg decimal_nonneg (Real.sqrt_nonneg _)
    rw [← pow_le_pow_iff_left₀ hkl.le hroot two_ne_zero, mul_pow,
      Real.sq_sqrt (div_pos he hfy).le, transition, ← mul_div_assoc, ← mul_div_assoc,
      le_div_iff₀ hfy, le_div_iff₀ (pow_pos hkl 2), mul_comm fy]
  unfold criticalStress stressOf inelasticStress elasticStress
  simp only [hbranch, mul_div_assoc]

/-! ### Numbers -/

theorem pi_sq_gt : transition * 113 < 254 * Real.pi ^ 2 := by
  have hpi := Real.pi_gt_d6
  norm_num [transition, decimal]
  nlinarith

theorem pi_sq_lt : decimal 877 3 * Real.pi ^ 2 < decimal 39018 5 * transition := by
  have hpi := Real.pi_lt_d6
  have hpos := Real.pi_pos
  norm_num [transition, decimal]
  nlinarith

/-- The share of the yield stress at the transition. -/
theorem transition_share : decimal 39018 5 < decimal 658 3 ^ (transition / Real.pi ^ 2) := by
  have hbase : 0 < decimal 658 3 := decimal_pos.mpr (by norm_num)
  have hroot : decimal 39018 5 < decimal 658 3 ^ ((254 : ℝ) / 113) := by
    apply lt_of_pow_lt_pow_left₀ 113 (Real.rpow_nonneg hbase.le _)
    rw [← Real.rpow_natCast (decimal 658 3 ^ ((254 : ℝ) / 113)), ← Real.rpow_mul hbase.le]
    have hexponent : (254 : ℝ) / 113 * (113 : ℕ) = (254 : ℕ) := by norm_num
    rw [hexponent, Real.rpow_natCast]
    norm_num [decimal]
  apply hroot.trans_le
  apply Real.rpow_le_rpow_of_exponent_ge hbase
  · norm_num [decimal]
  · rw [div_le_div_iff₀ (pow_pos Real.pi_pos 2) (by norm_num)]
    exact pi_sq_gt.le

/-- The exponent of the inelastic branch is small where the column is inelastic. -/
theorem log_share_lt_one {u : ℝ} (hu : u * Real.pi ^ 2 ≤ transition) :
    u * -log (decimal 658 3) < 1 := by
  have hlog : -log (decimal 658 3) ≤ 44 / 100 := by
    rw [neg_le, Real.le_log_iff_exp_le (decimal_pos.mpr (by norm_num)), Real.exp_neg]
    have hexp := Real.quadratic_le_exp_of_nonneg (x := 44 / 100) (by norm_num)
    apply (inv_anti₀ (by norm_num) hexp).trans
    norm_num [decimal]
  have hlog₀ : 0 ≤ -log (decimal 658 3) := by
    rw [neg_nonneg]
    apply Real.log_nonpos decimal_nonneg
    norm_num [decimal]
  have hu' : u < 254 / 113 := by
    have hpi := pow_pos Real.pi_pos 2
    by_contra hge
    rw [not_lt] at hge
    have := mul_le_mul_of_nonneg_right hge hpi.le
    linarith [pi_sq_gt]
  rcases le_total u 0 with hneg | hpos
  · exact (mul_nonpos_iff.mpr (Or.inr ⟨hneg, hlog₀⟩)).trans_lt one_pos
  · calc u * -log (decimal 658 3) ≤ 254 / 113 * (44 / 100) :=
          mul_le_mul hu'.le hlog hlog₀ (by norm_num)
      _ < 1 := by norm_num

/-! ### Monotone on each branch -/

/-- The inelastic stress grows with `w`. -/
theorem inelasticStress_mono {fy w w' : ℝ} (hfy : 0 < fy) (hw : 0 < w) (hle : w ≤ w') :
    inelasticStress fy w ≤ inelasticStress fy w' := by
  apply mul_le_mul_of_nonneg_right _ hfy.le
  apply Real.rpow_le_rpow_of_exponent_ge (decimal_pos.mpr (by norm_num))
  · norm_num [decimal]
  · exact div_le_div_of_nonneg_left hfy.le (elasticStress_pos hw) (elasticStress_le hle)

/-- **The branches do not meet**: at the transition the inelastic stress is the
greater one. -/
theorem elastic_lt_inelastic {w : ℝ} (hw : 0 < w) :
    decimal 877 3 * elasticStress w < inelasticStress (transition * w) w := by
  have hexponent : transition * w / elasticStress w = transition / Real.pi ^ 2 :=
    mul_div_mul_right _ _ hw.ne'
  unfold inelasticStress
  rw [hexponent]
  calc decimal 877 3 * elasticStress w = decimal 877 3 * Real.pi ^ 2 * w :=
        (mul_assoc _ _ _).symm
    _ < decimal 39018 5 * transition * w := mul_lt_mul_of_pos_right pi_sq_lt hw
    _ = decimal 39018 5 * (transition * w) := mul_assoc _ _ _
    _ < decimal 658 3 ^ (transition / Real.pi ^ 2) * (transition * w) :=
        mul_lt_mul_of_pos_right transition_share (mul_pos transition_pos hw)

/-- The inelastic stress grows with the yield stress. -/
theorem inelastic_lt {fy fy' w : ℝ} (hfy : 0 < fy) (hlt : fy < fy') (hw : 0 < w)
    (htransition : fy' ≤ transition * w) : inelasticStress fy w < inelasticStress fy' w := by
  have hfe := elasticStress_pos hw
  have hbase : 0 < decimal 658 3 := decimal_pos.mpr (by norm_num)
  set u := fy / elasticStress w with hu
  set u' := fy' / elasticStress w with hu'
  set share := decimal 658 3 ^ u with hshare
  have hshare₀ : 0 < share := Real.rpow_pos_of_pos hbase u
  have hgap : 0 < u' - u := by
    rw [hu, hu', ← sub_div]
    exact div_pos (sub_pos.mpr hlt) hfe
  have hslope : u' * -log (decimal 658 3) < 1 := by
    apply log_share_lt_one
    rw [hu', div_mul_eq_mul_div, div_le_iff₀ hfe]
    calc fy' * Real.pi ^ 2 ≤ transition * w * Real.pi ^ 2 :=
          mul_le_mul_of_nonneg_right htransition (sq_nonneg _)
      _ = transition * elasticStress w := by
          rw [elasticStress]
          ring
  -- the power falls off at most linearly
  have hpower : share * (1 - -log (decimal 658 3) * (u' - u)) ≤ decimal 658 3 ^ u' := by
    have hsplit : decimal 658 3 ^ u' = share * decimal 658 3 ^ (u' - u) := by
      rw [hshare, ← Real.rpow_add hbase, add_sub_cancel]
    rw [hsplit]
    apply mul_le_mul_of_nonneg_left _ hshare₀.le
    rw [Real.rpow_def_of_pos hbase]
    have hexp := Real.add_one_le_exp (log (decimal 658 3) * (u' - u))
    linarith
  have hfy' : fy' = u' * elasticStress w := (div_mul_cancel₀ fy' hfe.ne').symm
  have hfy₁ : fy = u * elasticStress w := (div_mul_cancel₀ fy hfe.ne').symm
  have hgain : u < (1 - -log (decimal 658 3) * (u' - u)) * u' := by
    have := mul_pos hgap (sub_pos.mpr hslope)
    linarith
  calc inelasticStress fy w = share * (u * elasticStress w) := by
        rw [inelasticStress, ← hu, ← hshare, ← hfy₁]
    _ < share * ((1 - -log (decimal 658 3) * (u' - u)) * u' * elasticStress w) :=
        mul_lt_mul_of_pos_left (mul_lt_mul_of_pos_right hgain hfe) hshare₀
    _ = share * (1 - -log (decimal 658 3) * (u' - u)) * fy' := by
        rw [hfy']
        ring
    _ ≤ inelasticStress fy' w := mul_le_mul_of_nonneg_right hpower (hfy.trans hlt).le

theorem inelastic_le {fy fy' w : ℝ} (hfy : 0 < fy) (hle : fy ≤ fy') (hw : 0 < w)
    (htransition : fy' ≤ transition * w) : inelasticStress fy w ≤ inelasticStress fy' w := by
  rcases hle.lt_or_eq with hlt | rfl
  · exact (inelastic_lt hfy hlt hw htransition).le
  · exact le_rfl

theorem stressOf_inelastic {fy w : ℝ} (h : fy ≤ transition * w) :
    stressOf fy w = inelasticStress fy w := if_pos h

theorem stressOf_elastic {fy w : ℝ} (h : transition * w < fy) :
    stressOf fy w = decimal 877 3 * elasticStress w := if_neg (not_le.mpr h)

theorem stressOf_pos {fy w : ℝ} (hfy : 0 < fy) (hw : 0 < w) : 0 < stressOf fy w := by
  rcases le_or_gt fy (transition * w) with hle | hlt
  · rw [stressOf_inelastic hle]
    exact mul_pos (Real.rpow_pos_of_pos (decimal_pos.mpr (by norm_num)) _) hfy
  · rw [stressOf_elastic hlt]
    exact mul_pos (decimal_pos.mpr (by norm_num)) (elasticStress_pos hw)

/-- The critical stress grows with `w`. -/
theorem stressOf_mono {fy w w' : ℝ} (hfy : 0 < fy) (hw : 0 < w) (hle : w ≤ w') :
    stressOf fy w ≤ stressOf fy w' := by
  rcases le_or_gt fy (transition * w) with hin | hout
  · have hin' : fy ≤ transition * w' :=
      hin.trans (mul_le_mul_of_nonneg_left hle transition_pos.le)
    rw [stressOf_inelastic hin, stressOf_inelastic hin']
    exact inelasticStress_mono hfy hw hle
  rw [stressOf_elastic hout]
  rcases le_or_gt fy (transition * w') with hin' | hout'
  · -- between, the column has its transition at `fy / transition`
    rw [stressOf_inelastic hin']
    have hbetween : 0 < fy / transition := div_pos hfy transition_pos
    have hback : transition * (fy / transition) = fy := mul_div_cancel₀ fy transition_pos.ne'
    have h₁ : w ≤ fy / transition := by
      rw [le_div_iff₀ transition_pos, mul_comm]
      exact hout.le
    have h₂ : fy / transition ≤ w' := by
      rw [div_le_iff₀ transition_pos, mul_comm]
      exact hin'
    have hjump := elastic_lt_inelastic hbetween
    rw [hback] at hjump
    calc decimal 877 3 * elasticStress w ≤ decimal 877 3 * elasticStress (fy / transition) :=
          mul_le_mul_of_nonneg_left (elasticStress_le h₁) decimal_nonneg
      _ ≤ inelasticStress fy (fy / transition) := hjump.le
      _ ≤ inelasticStress fy w' := inelasticStress_mono hfy hbetween h₂
  · rw [stressOf_elastic hout']
    exact mul_le_mul_of_nonneg_left (elasticStress_le hle) decimal_nonneg

/-- The lower of the two ends of an interval of yield stresses bounds the stress from
below. -/
theorem stressOf_ge_end {f f₁ f₂ w : ℝ} (hf₁ : 0 < f₁) (hw : 0 < w) (h₁ : f₁ ≤ f) (h₂ : f ≤ f₂) :
    stressOf f₁ w ≤ stressOf f w ∨ stressOf f₂ w ≤ stressOf f w := by
  rcases le_or_gt f (transition * w) with hin | hout
  · left
    rw [stressOf_inelastic hin, stressOf_inelastic (h₁.trans hin)]
    exact inelastic_le hf₁ h₁ hw hin
  · right
    rw [stressOf_elastic hout, stressOf_elastic (hout.trans_le h₂)]

/-- An end bounds it from above, unless the transition is between the ends. -/
theorem stressOf_le_end {f f₁ f₂ w : ℝ} (hf₁ : 0 < f₁) (hw : 0 < w) (h₁ : f₁ ≤ f) (h₂ : f ≤ f₂)
    (hoff : transition * w ≤ f₁ ∨ f₂ ≤ transition * w) :
    stressOf f w ≤ stressOf f₁ w ∨ stressOf f w ≤ stressOf f₂ w := by
  rcases hoff with hlow | hhigh
  · left
    rcases h₁.lt_or_eq with hlt | rfl
    · rw [stressOf_elastic (hlow.trans_lt hlt)]
      rcases hlow.lt_or_eq with hout | heq
      · rw [stressOf_elastic hout]
      · rw [stressOf_inelastic heq.ge, ← heq]
        exact (elastic_lt_inelastic hw).le
    · exact le_rfl
  · right
    rw [stressOf_inelastic (h₂.trans hhigh), stressOf_inelastic hhigh]
    exact inelastic_le (hf₁.trans_le h₁) h₂ hw hhigh

/-- Strictly between the ends, the transition is above both. -/
theorem stressOf_lt_transition {f f₁ f₂ w : ℝ} (hf₁ : 0 < f₁) (hw : 0 < w)
    (h₁ : f₁ < transition * w) (h₂ : transition * w < f₂) (hf : f = f₁ ∨ f = f₂) :
    stressOf f w < stressOf (transition * w) w := by
  rw [stressOf_inelastic le_rfl]
  rcases hf with rfl | rfl
  · rw [stressOf_inelastic h₁.le]
    exact inelastic_lt hf₁ h₁ hw le_rfl
  · rw [stressOf_elastic h₂]
    exact elastic_lt_inelastic hw

/-! ### The sweep -/

/-- The capacity of a point. -/
noncomputable def axialCapacity (x : Port → ℝ) : ℝ :=
  phiC * (criticalStress (x "mech.member.axial.fy") (x "mech.member.axial.e")
    (x "mech.member.axial.kl_over_r") * x "mech.member.axial.ag")

theorem reports_axialE3 : Reports (Entry.direction .axialE3) "mech.member.axial.capacity"
    (fun x => ¬ (x "mech.member.axial.fy" ≤ 0 ∨ x "mech.member.axial.ag" ≤ 0 ∨
      x "mech.member.axial.e" ≤ 0 ∨ x "mech.member.axial.kl_over_r" ≤ 0))
    axialCapacity :=
  ⟨fun _ hx => if_neg hx, fun _ hx => ⟨_, if_pos (not_not.mp hx)⟩⟩

/-- The transition of the stiffest corner is not strictly between the yield
stresses. -/
def TransitionOutside (fy e klR : Interval ℝ) : Prop :=
  transition * (e.hi / klR.lo ^ 2) ≤ fy.lo ∨ fy.hi ≤ transition * (e.hi / klR.lo ^ 2)

/-- The point with these inputs. -/
noncomputable def axialPoint (box : PortMap (Interval ℝ)) (fy ag e klR : ℝ) : Port → ℝ :=
  Function.update (Function.update (Function.update (Function.update (loEnd box)
    "mech.member.axial.fy" fy) "mech.member.axial.ag" ag) "mech.member.axial.e" e)
    "mech.member.axial.kl_over_r" klR

theorem atCorner_axialPoint {fy ag e klR : ℝ}
    (hfy : fy = loEnd box "mech.member.axial.fy" ∨ fy = hiEnd box "mech.member.axial.fy")
    (hag : ag = loEnd box "mech.member.axial.ag" ∨ ag = hiEnd box "mech.member.axial.ag")
    (he : e = loEnd box "mech.member.axial.e" ∨ e = hiEnd box "mech.member.axial.e")
    (hkl : klR = loEnd box "mech.member.axial.kl_over_r" ∨
      klR = hiEnd box "mech.member.axial.kl_over_r") :
    AtCorner box (axialPoint box fy ag e klR) := by
  apply Corner.AtEnds.update _ hkl
  apply Corner.AtEnds.update _ he
  apply Corner.AtEnds.update _ hag
  exact Corner.AtEnds.update Corner.atEnds_lo hfy

theorem axialInputs_pos : ∀ e ∈ (Entry.direction .axialE3).inputs, 0 < e.2.lo := by
  norm_num [Entry.direction]

theorem Swept.axial_pos (h : Swept (Entry.direction .axialE3) box) {x : Port → ℝ}
    (hx : Point box x) : 0 < x "mech.member.axial.fy" ∧ 0 < x "mech.member.axial.ag" ∧
      0 < x "mech.member.axial.e" ∧ 0 < x "mech.member.axial.kl_over_r" := by
  refine ⟨?_, ?_, ?_, ?_⟩ <;> apply h.pos axialInputs_pos hx <;> simp [Entry.direction]

theorem axialCapacity_eq (h : Swept (Entry.direction .axialE3) box) {x : Port → ℝ}
    (hx : Point box x) : axialCapacity x = phiC * (stressOf (x "mech.member.axial.fy")
      (x "mech.member.axial.e" / x "mech.member.axial.kl_over_r" ^ 2)
        * x "mech.member.axial.ag") := by
  obtain ⟨hfy, -, he, hkl⟩ := h.axial_pos hx
  rw [axialCapacity, criticalStress_eq hfy he hkl]

/-- The capacity of a point from its yield stress, its `w` and its area. -/
theorem capacity_le {f f' w w' ag ag' : ℝ} (hstress : stressOf f w ≤ stressOf f' w')
    (hpos : 0 < stressOf f' w') (hag₀ : 0 < ag) (hag : ag ≤ ag') :
    phiC * (stressOf f w * ag) ≤ phiC * (stressOf f' w' * ag') :=
  mul_le_mul_of_nonneg_left (mul_le_mul hstress hag hag₀.le hpos.le) decimal_nonneg

/-- `e / (kl/r)²` between its ends. -/
theorem Swept.slenderness (h : Swept (Entry.direction .axialE3) box) {x : Port → ℝ}
    (hx : Point box x) :
    0 < loEnd box "mech.member.axial.e" / hiEnd box "mech.member.axial.kl_over_r" ^ 2 ∧
    loEnd box "mech.member.axial.e" / hiEnd box "mech.member.axial.kl_over_r" ^ 2
      ≤ x "mech.member.axial.e" / x "mech.member.axial.kl_over_r" ^ 2 ∧
    x "mech.member.axial.e" / x "mech.member.axial.kl_over_r" ^ 2
      ≤ hiEnd box "mech.member.axial.e" / loEnd box "mech.member.axial.kl_over_r" ^ 2 := by
  have hbox := h.lo_le_hi
  obtain ⟨-, -, he₁, hkl₁⟩ := h.axial_pos (x := loEnd box) ⟨le_rfl, hbox⟩
  obtain ⟨-, -, he₂, hkl₂⟩ := h.axial_pos (x := hiEnd box) ⟨hbox, le_rfl⟩
  obtain ⟨-, -, he, hkl⟩ := h.axial_pos hx
  refine ⟨div_pos he₁ (pow_pos hkl₂ 2), ?_, ?_⟩
  · exact div_le_div₀ he.le (hx.1 _) (pow_pos hkl 2) (pow_le_pow_left₀ hkl.le (hx.2 _) 2)
  · exact div_le_div₀ he₂.le (hx.2 _) (pow_pos hkl₁ 2) (pow_le_pow_left₀ hkl₁.le (hx.1 _) 2)

section Sweep

variable (h : Swept (Entry.direction .axialE3) box)
include h

theorem axialCapacity_axialPoint {fy ag e klR : ℝ} (hx : Point box (axialPoint box fy ag e klR)) :
    axialCapacity (axialPoint box fy ag e klR) = phiC * (stressOf fy (e / klR ^ 2) * ag) := by
  rw [axialCapacity_eq h hx]
  simp [axialPoint]

theorem Swept.axial_admissible {x : Port → ℝ} (hx : Point box x) :
    ¬ (x "mech.member.axial.fy" ≤ 0 ∨ x "mech.member.axial.ag" ≤ 0 ∨
      x "mech.member.axial.e" ≤ 0 ∨ x "mech.member.axial.kl_over_r" ≤ 0) := by
  obtain ⟨h₁, h₂, h₃, h₄⟩ := h.axial_pos hx
  rintro (hle | hle | hle | hle) <;> linarith

/-- With the transition inside the box, no corner reaches its capacity. -/
theorem transitionOutside_of_encloses (hencloses : Encloses (Entry.direction .axialE3) box) :
    TransitionOutside (portRange box "mech.member.axial.fy")
      (portRange box "mech.member.axial.e") (portRange box "mech.member.axial.kl_over_r") := by
  have hall := (reports_axialE3.encloses_iff h).mp hencloses
  have hbox := h.lo_le_hi
  obtain ⟨hfy₁, -, -, hkl₁⟩ := h.axial_pos (x := loEnd box) ⟨le_rfl, hbox⟩
  obtain ⟨-, -, he₂, -⟩ := h.axial_pos (x := hiEnd box) ⟨hbox, le_rfl⟩
  have hphi : 0 < phiC := decimal_pos.mpr (by norm_num)
  by_contra hinside
  rw [TransitionOutside, not_or, not_le, not_le] at hinside
  obtain ⟨hlow, hhigh⟩ := hinside
  -- the point at the transition of the stiffest corner
  set w := hiEnd box "mech.member.axial.e" / loEnd box "mech.member.axial.kl_over_r" ^ 2 with hw
  have hw₀ : 0 < w := div_pos he₂ (pow_pos hkl₁ 2)
  have hpoint : Point box (axialPoint box (transition * w) (hiEnd box "mech.member.axial.ag")
      (hiEnd box "mech.member.axial.e") (loEnd box "mech.member.axial.kl_over_r")) := by
    refine Corner.update_mem_Icc (Corner.update_mem_Icc (Corner.update_mem_Icc
      (Corner.update_mem_Icc ⟨le_rfl, hbox⟩ ⟨hlow.le, hhigh.le⟩) ?_) ?_) ?_
    · exact ⟨hbox _, le_rfl⟩
    · exact ⟨hbox _, le_rfl⟩
    · exact ⟨le_rfl, hbox _⟩
  obtain ⟨-, c, hc, hge⟩ := hall _ hpoint (h.axial_admissible hpoint)
  have hcpoint := h.point hc
  obtain ⟨hcfy, hcag, hce, hckl⟩ := h.axial_pos hcpoint
  obtain ⟨-, -, hslender⟩ := h.slenderness hcpoint
  rw [axialCapacity_axialPoint h hpoint, axialCapacity_eq h hcpoint, ← hw] at hge
  have hlt := stressOf_lt_transition hfy₁ hw₀ hlow hhigh (hc "mech.member.axial.fy")
  have hmono := stressOf_mono hcfy (div_pos hce (pow_pos hckl 2)) hslender
  have hless : phiC * (stressOf (c "mech.member.axial.fy")
        (c "mech.member.axial.e" / c "mech.member.axial.kl_over_r" ^ 2)
        * c "mech.member.axial.ag")
      < phiC * (stressOf (transition * w) w * hiEnd box "mech.member.axial.ag") := by
    apply mul_lt_mul_of_pos_left _ hphi
    exact mul_lt_mul (hmono.trans_lt hlt) (hcpoint.2 _) hcag
      (stressOf_pos (mul_pos transition_pos hw₀) hw₀).le
  exact absurd hge (not_le.mpr hless)

/-- Otherwise the most slender corners and the stiffest ones enclose it. -/
theorem encloses_of_transitionOutside
    (houtside : TransitionOutside (portRange box "mech.member.axial.fy")
      (portRange box "mech.member.axial.e") (portRange box "mech.member.axial.kl_over_r")) :
    Encloses (Entry.direction .axialE3) box := by
  apply (reports_axialE3.encloses_iff h).mpr
  intro x hx _
  have hbox := h.lo_le_hi
  obtain ⟨hfy₁, hag₁, -, -⟩ := h.axial_pos (x := loEnd box) ⟨le_rfl, hbox⟩
  obtain ⟨hfy₂, -, -, -⟩ := h.axial_pos (x := hiEnd box) ⟨hbox, le_rfl⟩
  obtain ⟨hfy, hag, he, hkl⟩ := h.axial_pos hx
  obtain ⟨hw₁, hle₁, hle₂⟩ := h.slenderness hx
  have hw : 0 < x "mech.member.axial.e" / x "mech.member.axial.kl_over_r" ^ 2 :=
    div_pos he (pow_pos hkl 2)
  rw [axialCapacity_eq h hx]
  constructor
  · -- at the lower of the two ends
    have hends := stressOf_ge_end hfy₁ hw₁ (hx.1 "mech.member.axial.fy") (hx.2 _)
    obtain ⟨f, hf, hle⟩ := Corner.exists_end_le (g := fun f => stressOf f _) (min_le_iff.mpr hends)
    have hcorner := atCorner_axialPoint hf (Or.inl rfl) (Or.inl rfl) (Or.inr rfl)
    refine ⟨_, hcorner, ?_⟩
    rw [axialCapacity_axialPoint h (h.point hcorner)]
    exact capacity_le (hle.trans (stressOf_mono hfy hw₁ hle₁)) (stressOf_pos hfy hw) hag₁ (hx.1 _)
  · -- at the higher one
    have hw₂ := hw.trans_le hle₂
    have hends := stressOf_le_end hfy₁ hw₂ (hx.1 "mech.member.axial.fy") (hx.2 _) houtside
    obtain ⟨f, hf, hge⟩ := Corner.exists_end_ge (g := fun f => stressOf f _) (le_max_iff.mpr hends)
    have hf₀ : 0 < f := by
      rcases hf with rfl | rfl
      · exact hfy₁
      · exact hfy₂
    have hcorner := atCorner_axialPoint hf (Or.inr rfl) (Or.inr rfl) (Or.inl rfl)
    refine ⟨_, hcorner, ?_⟩
    rw [axialCapacity_axialPoint h (h.point hcorner)]
    exact capacity_le ((stressOf_mono hfy hw hle₂).trans hge) (stressOf_pos hf₀ hw₂) hag (hx.2 _)

end Sweep

/-- **The sweep of the axial capacity** encloses it exactly when the transition of
the stiffest corner is not strictly inside the box. -/
theorem axialE3_encloses_iff (h : Swept (Entry.direction .axialE3) box) :
    Encloses (Entry.direction .axialE3) box ↔
      TransitionOutside (portRange box "mech.member.axial.fy")
        (portRange box "mech.member.axial.e") (portRange box "mech.member.axial.kl_over_r") :=
  ⟨transitionOutside_of_encloses h, encloses_of_transitionOutside h⟩

end Catalog

end Feldspar

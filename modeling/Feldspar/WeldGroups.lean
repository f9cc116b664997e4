/-
Feldspar/WeldGroups.lean

The corner sweep over the two line forces of `mech/weld_groups.py`.

The bending line force is affine in each input, or in its reciprocal, so a corner
sweep encloses it (`weldBending_encloses`).  The square of the in-plane line force
is a parabola in each input, or in its reciprocal, that opens upwards: the largest
value is at a corner, and the smallest need not be, where the components change
sign between the corners.  The least value for a weld length and a ratio of torque
and polar moment is the squared distance of a rectangle from zero, whose sides are
linear in both, so that finitely many lengths and ratios decide
(`weldInplane_encloses_iff`).
-/
import Feldspar.Catalog
import Feldspar.Lib.Cuts

namespace Feldspar

namespace Catalog

open Real (sqrt log)

variable {box : PortMap (Interval ℝ)} {x : Port → ℝ}

/-! ### Out-of-plane bending -/

noncomputable def bendingLineForce (x : Port → ℝ) : ℝ :=
  x "mech.weld.group.moment" * x "mech.weld.group.c" / x "mech.weld.group.iw"

theorem reports_weldBending : Reports (Entry.direction .weldBending)
    "mech.weld.group.bending_line_force" (fun x => ¬ x "mech.weld.group.iw" ≤ 0)
    bendingLineForce :=
  ⟨fun _ hx => if_neg hx, fun _ hx => ⟨_, if_pos (not_not.mp hx)⟩⟩

/-- The bending line force, or its negative, can be moved to the ends. -/
theorem endsDominate_bending (h : Swept (Entry.direction .weldBending) box) (s : ℝ) :
    ∀ q ∈ (Entry.direction .weldBending).inputs.map Prod.fst,
      Corner.EndsDominate (loEnd box) (hiEnd box) (fun x => s * bendingLineForce x) q := by
  intro q hq
  simp only [Entry.direction, List.map_cons, List.map_nil, List.mem_cons, List.not_mem_nil,
    or_false] at hq
  rcases hq with rfl | rfl | rfl
  · apply Corner.endsDominate_of_quadratic
    intro x _
    refine ⟨0, s * (x "mech.weld.group.c" / x "mech.weld.group.iw"), 0, le_rfl, fun t => ?_⟩
    simp [bendingLineForce]
    ring
  · apply Corner.endsDominate_of_quadratic_inv
    · exact lt_of_lt_of_le (by norm_num) (h.ends_within (.tail _ List.mem_cons_self)).1
    intro x _
    refine ⟨0, s * (x "mech.weld.group.moment" * x "mech.weld.group.c"), 0, le_rfl, fun t => ?_⟩
    simp [bendingLineForce]
    ring
  · apply Corner.endsDominate_of_quadratic
    intro x _
    refine ⟨0, s * (x "mech.weld.group.moment" / x "mech.weld.group.iw"), 0, le_rfl,
      fun t => ?_⟩
    simp [bendingLineForce]
    ring

theorem weldBending_encloses (h : Swept (Entry.direction .weldBending) box) :
    Encloses (Entry.direction .weldBending) box := by
  apply (reports_weldBending.encloses_iff h).mpr
  intro x hx _
  obtain ⟨below, hbelow, hle⟩ := h.exists_corner_ge (endsDominate_bending h (-1)) hx
  obtain ⟨above, habove, hge⟩ := h.exists_corner_ge (endsDominate_bending h 1) hx
  simp only [neg_mul, one_mul, neg_le_neg_iff] at hle hge
  exact ⟨⟨below, hbelow, hle⟩, above, habove, hge⟩

/-! ### In-plane shear and torsion -/

/-- `fx² + fy²`. -/
noncomputable def inplaneSquare (x : Port → ℝ) : ℝ :=
  (x "mech.weld.group.vx" / x "mech.weld.group.aw"
      - x "mech.weld.group.torque" * x "mech.weld.group.yi" / x "mech.weld.group.jw") ^ 2
    + (x "mech.weld.group.vy" / x "mech.weld.group.aw"
      + x "mech.weld.group.torque" * x "mech.weld.group.xi" / x "mech.weld.group.jw") ^ 2

theorem inplaneSquare_nonneg : 0 ≤ inplaneSquare x := add_nonneg (sq_nonneg _) (sq_nonneg _)

theorem reports_weldInplane : Reports (Entry.direction .weldInplane)
    "mech.weld.group.inplane_line_force"
    (fun x => ¬ x "mech.weld.group.aw" ≤ 0 ∧ ¬ x "mech.weld.group.jw" ≤ 0)
    (fun x => sqrt (inplaneSquare x)) := by
  refine ⟨fun x hx => (if_neg hx.1).trans (if_neg hx.2), fun x hx => ?_⟩
  by_cases haw : x "mech.weld.group.aw" ≤ 0
  · exact ⟨_, if_pos haw⟩
  · exact ⟨_, (if_neg haw).trans (if_pos (not_not.mp fun hjw => hx ⟨haw, hjw⟩))⟩

theorem endsDominate_inplane (h : Swept (Entry.direction .weldInplane) box) :
    ∀ q ∈ (Entry.direction .weldInplane).inputs.map Prod.fst,
      Corner.EndsDominate (loEnd box) (hiEnd box) inplaneSquare q := by
  -- a square of a sum in each input but the area and the second moment, which it divides by:
  -- there it is a quadratic in the inverse
  have haw : 0 < loEnd box "mech.weld.group.aw" := lt_of_lt_of_le (by norm_num)
    (h.ends_within (.tail _ (.tail _ (.tail _ List.mem_cons_self)))).1
  have hjw : 0 < loEnd box "mech.weld.group.jw" := lt_of_lt_of_le (by norm_num)
    (h.ends_within (.tail _ (.tail _ (.tail _ (.tail _ List.mem_cons_self))))).1
  intro q hq
  simp only [Entry.direction, List.map_cons, List.map_nil, List.mem_cons, List.not_mem_nil,
    or_false] at hq
  rcases hq with rfl | rfl | rfl | rfl | rfl | rfl | rfl
  · apply Corner.endsDominate_of_quadratic
    intro x _
    refine ⟨((x "mech.weld.group.aw")⁻¹) ^ 2,
      -2 * (x "mech.weld.group.aw")⁻¹ * (x "mech.weld.group.torque" * x "mech.weld.group.yi"
        / x "mech.weld.group.jw"),
      inplaneSquare (Function.update x "mech.weld.group.vx" 0), sq_nonneg _, fun t => ?_⟩
    simp [inplaneSquare]
    ring
  · apply Corner.endsDominate_of_quadratic
    intro x _
    refine ⟨((x "mech.weld.group.aw")⁻¹) ^ 2,
      2 * (x "mech.weld.group.aw")⁻¹ * (x "mech.weld.group.torque" * x "mech.weld.group.xi"
        / x "mech.weld.group.jw"),
      inplaneSquare (Function.update x "mech.weld.group.vy" 0), sq_nonneg _, fun t => ?_⟩
    simp [inplaneSquare]
    ring
  · apply Corner.endsDominate_of_quadratic
    intro x _
    refine ⟨(x "mech.weld.group.yi" / x "mech.weld.group.jw") ^ 2
        + (x "mech.weld.group.xi" / x "mech.weld.group.jw") ^ 2,
      2 / x "mech.weld.group.aw" * (x "mech.weld.group.vy" * x "mech.weld.group.xi"
        - x "mech.weld.group.vx" * x "mech.weld.group.yi") / x "mech.weld.group.jw",
      inplaneSquare (Function.update x "mech.weld.group.torque" 0),
      add_nonneg (sq_nonneg _) (sq_nonneg _), fun t => ?_⟩
    simp [inplaneSquare]
    ring
  · apply Corner.endsDominate_of_quadratic_inv haw
    intro x _
    refine ⟨x "mech.weld.group.vx" ^ 2 + x "mech.weld.group.vy" ^ 2,
      2 * x "mech.weld.group.torque" * (x "mech.weld.group.vy" * x "mech.weld.group.xi"
        - x "mech.weld.group.vx" * x "mech.weld.group.yi") / x "mech.weld.group.jw",
      (x "mech.weld.group.torque" * x "mech.weld.group.yi" / x "mech.weld.group.jw") ^ 2
        + (x "mech.weld.group.torque" * x "mech.weld.group.xi" / x "mech.weld.group.jw") ^ 2,
      add_nonneg (sq_nonneg _) (sq_nonneg _), fun t => ?_⟩
    simp [inplaneSquare]
    ring
  · apply Corner.endsDominate_of_quadratic_inv hjw
    intro x _
    refine ⟨(x "mech.weld.group.torque" * x "mech.weld.group.yi") ^ 2
        + (x "mech.weld.group.torque" * x "mech.weld.group.xi") ^ 2,
      2 * x "mech.weld.group.torque" * (x "mech.weld.group.vy" * x "mech.weld.group.xi"
        - x "mech.weld.group.vx" * x "mech.weld.group.yi") / x "mech.weld.group.aw",
      (x "mech.weld.group.vx" / x "mech.weld.group.aw") ^ 2
        + (x "mech.weld.group.vy" / x "mech.weld.group.aw") ^ 2,
      add_nonneg (sq_nonneg _) (sq_nonneg _), fun t => ?_⟩
    simp [inplaneSquare]
    ring
  · apply Corner.endsDominate_of_quadratic
    intro x _
    refine ⟨(x "mech.weld.group.torque" / x "mech.weld.group.jw") ^ 2,
      2 * (x "mech.weld.group.vy" / x "mech.weld.group.aw")
        * (x "mech.weld.group.torque" / x "mech.weld.group.jw"),
      inplaneSquare (Function.update x "mech.weld.group.xi" 0), sq_nonneg _, fun t => ?_⟩
    simp [inplaneSquare]
    ring
  · apply Corner.endsDominate_of_quadratic
    intro x _
    refine ⟨(x "mech.weld.group.torque" / x "mech.weld.group.jw") ^ 2,
      -2 * (x "mech.weld.group.vx" / x "mech.weld.group.aw")
        * (x "mech.weld.group.torque" / x "mech.weld.group.jw"),
      inplaneSquare (Function.update x "mech.weld.group.yi" 0), sq_nonneg _, fun t => ?_⟩
    simp [inplaneSquare]
    ring

/-- The largest line force is at a corner; what is left is the smallest. -/
theorem weldInplane_encloses_iff_below (h : Swept (Entry.direction .weldInplane) box) :
    Encloses (Entry.direction .weldInplane) box ↔
      ∀ x, Point box x → ∃ c, AtCorner box c ∧ inplaneSquare c ≤ inplaneSquare x := by
  have haw : ∀ x, Point box x → 0 < x "mech.weld.group.aw" := fun x hx => lt_of_lt_of_le
    (by norm_num) (h.lower (.tail _ (.tail _ (.tail _ List.mem_cons_self))) hx)
  have hjw : ∀ x, Point box x → 0 < x "mech.weld.group.jw" := fun x hx => lt_of_lt_of_le
    (by norm_num) (h.lower (.tail _ (.tail _ (.tail _ (.tail _ List.mem_cons_self)))) hx)
  rw [reports_weldInplane.encloses_iff h]
  constructor
  · intro hall x hx
    obtain ⟨⟨c, hc, hle⟩, -⟩ := hall x hx ⟨(haw x hx).not_ge, (hjw x hx).not_ge⟩
    exact ⟨c, hc, (Real.sqrt_le_sqrt_iff inplaneSquare_nonneg).mp hle⟩
  · intro hall x hx _
    obtain ⟨c, hc, hle⟩ := hall x hx
    obtain ⟨c', hc', hge⟩ := h.exists_corner_ge (endsDominate_inplane h) hx
    exact ⟨⟨c, hc, Real.sqrt_le_sqrt hle⟩, c', hc', Real.sqrt_le_sqrt hge⟩

/-- The values of `p·u + q·w` over two intervals, `p` not negative. -/
noncomputable def reach (p q : ℝ) (u w : Interval ℝ) : Interval ℝ :=
  ⟨p * u.lo + min (q * w.lo) (q * w.hi), p * u.hi + max (q * w.lo) (q * w.hi)⟩

/-- How far zero is from an interval. -/
noncomputable def gap (iv : Interval ℝ) : ℝ := Cuts.distance iv.lo iv.hi

theorem gap_le_abs {iv : Interval ℝ} {z : ℝ} (hz : iv.contains z) : gap iv ≤ |z| := by
  apply max_le (abs_nonneg z)
  exact max_le (hz.1.trans (le_abs_self z)) ((neg_le_neg hz.2).trans (neg_le_abs z))

theorem exists_abs_eq_gap {iv : Interval ℝ} (h : iv.lo ≤ iv.hi) :
    ∃ z, iv.contains z ∧ |z| = gap iv := by
  unfold gap Cuts.distance
  rcases le_total 0 iv.lo with hlo | hlo
  · refine ⟨iv.lo, ⟨le_rfl, h⟩, ?_⟩
    rw [abs_of_nonneg hlo, max_eq_left (by linarith : -iv.hi ≤ iv.lo), max_eq_right hlo]
  · rcases le_total iv.hi 0 with hhi | hhi
    · refine ⟨iv.hi, ⟨h, le_rfl⟩, ?_⟩
      rw [abs_of_nonpos hhi, max_eq_right (by linarith : iv.lo ≤ -iv.hi),
        max_eq_right (neg_nonneg.mpr hhi)]
    · refine ⟨0, ⟨hlo, hhi⟩, ?_⟩
      rw [abs_zero, max_eq_left (max_le hlo (by linarith))]

theorem contains_reach {p q u w : ℝ} {iu iw : Interval ℝ} (hp : 0 ≤ p) (hu : iu.contains u)
    (hw : iw.contains w) : (reach p q iu iw).contains (p * u + q * w) := by
  have hlo : p * iu.lo ≤ p * u := mul_le_mul_of_nonneg_left hu.1 hp
  have hhi : p * u ≤ p * iu.hi := mul_le_mul_of_nonneg_left hu.2 hp
  rcases le_total 0 q with hq | hq
  · have h₁ : q * iw.lo ≤ q * w := mul_le_mul_of_nonneg_left hw.1 hq
    have h₂ : q * w ≤ q * iw.hi := mul_le_mul_of_nonneg_left hw.2 hq
    exact ⟨add_le_add hlo ((min_le_left _ _).trans h₁), add_le_add hhi (h₂.trans (le_max_right _ _))⟩
  · have h₁ : q * iw.hi ≤ q * w := mul_le_mul_of_nonpos_left hw.2 hq
    have h₂ : q * w ≤ q * iw.lo := mul_le_mul_of_nonpos_left hw.1 hq
    exact ⟨add_le_add hlo ((min_le_right _ _).trans h₁), add_le_add hhi (h₂.trans (le_max_left _ _))⟩

/-- Every value of the reach is taken, on the segment between two corners. -/
theorem exists_of_contains_reach {p q z : ℝ} {iu iw : Interval ℝ} (hu : iu.lo ≤ iu.hi)
    (hw : iw.lo ≤ iw.hi) (hz : (reach p q iu iw).contains z) :
    ∃ u w, iu.contains u ∧ iw.contains w ∧ p * u + q * w = z := by
  -- the ends of the second interval that give the least and the largest product
  obtain ⟨w₀, w₁, hw₀, hw₁, hmin, hmax⟩ : ∃ w₀ w₁, iw.contains w₀ ∧ iw.contains w₁ ∧
      min (q * iw.lo) (q * iw.hi) = q * w₀ ∧ max (q * iw.lo) (q * iw.hi) = q * w₁ := by
    rcases le_total (q * iw.lo) (q * iw.hi) with hle | hle
    · exact ⟨iw.lo, iw.hi, ⟨le_rfl, hw⟩, ⟨hw, le_rfl⟩, min_eq_left hle, max_eq_right hle⟩
    · exact ⟨iw.hi, iw.lo, ⟨hw, le_rfl⟩, ⟨le_rfl, hw⟩, min_eq_right hle, max_eq_left hle⟩
  have hcont : ContinuousOn
      (fun s : ℝ => p * (iu.lo + s * (iu.hi - iu.lo)) + q * (w₀ + s * (w₁ - w₀)))
      (Set.Icc 0 1) := by fun_prop
  obtain ⟨s, ⟨hs₀, hs₁⟩, hs⟩ := intermediate_value_Icc zero_le_one hcont (show z ∈ Set.Icc _ _ by
    constructor
    · have hlo : p * iu.lo + min (q * iw.lo) (q * iw.hi) ≤ z := hz.1
      rw [hmin] at hlo
      linarith
    · have hhi : z ≤ p * iu.hi + max (q * iw.lo) (q * iw.hi) := hz.2
      rw [hmax] at hhi
      linarith)
  have hconvex : ∀ {iv : Interval ℝ} {a b : ℝ}, iv.contains a → iv.contains b →
      iv.contains (a + s * (b - a)) := by
    intro iv a b ha hb
    have hcombo : a + s * (b - a) = (1 - s) * a + s * b := by ring
    rw [hcombo]
    constructor
    · linarith [mul_le_mul_of_nonneg_left ha.1 (by linarith : 0 ≤ 1 - s),
        mul_le_mul_of_nonneg_left hb.1 hs₀]
    · linarith [mul_le_mul_of_nonneg_left ha.2 (by linarith : 0 ≤ 1 - s),
        mul_le_mul_of_nonneg_left hb.2 hs₀]
  exact ⟨_, _, hconvex ⟨le_rfl, hu⟩ ⟨hu, le_rfl⟩, hconvex hw₀ hw₁, hs⟩

/-- The least `fx² + fy²` for the inverse `p` of a weld length and a torque `k`
by polar moment: either component comes as near to zero as the shear and the
coordinate of its own allow. -/
noncomputable def leastSquare (box : PortMap (Interval ℝ)) (p k : ℝ) : ℝ :=
  gap (reach p (-k) (portRange box "mech.weld.group.vx") (portRange box "mech.weld.group.yi")) ^ 2
    + gap (reach p k (portRange box "mech.weld.group.vy") (portRange box "mech.weld.group.xi")) ^ 2

/-- The inverses of the weld lengths. -/
noncomputable def inverseLengths (box : PortMap (Interval ℝ)) : Interval ℝ :=
  ⟨(hiEnd box "mech.weld.group.aw")⁻¹, (loEnd box "mech.weld.group.aw")⁻¹⟩

/-- The torques by the polar moments. -/
noncomputable def torqueRatios (box : PortMap (Interval ℝ)) : Interval ℝ :=
  let torque := portRange box "mech.weld.group.torque"
  let jw := portRange box "mech.weld.group.jw"
  ⟨min (torque.lo / jw.lo) (torque.lo / jw.hi), max (torque.hi / jw.lo) (torque.hi / jw.hi)⟩

section Critical

variable (box : PortMap (Interval ℝ)) (c : Port → ℝ)

/-- The ends, the change of sign, and where a component of the force with the
shear and the coordinates of a corner is zero, or the sum of the squares least. -/
noncomputable def criticalRatios (p : ℝ) : List ℝ :=
  let vx := c "mech.weld.group.vx"
  let vy := c "mech.weld.group.vy"
  let xi := c "mech.weld.group.xi"
  let yi := c "mech.weld.group.yi"
  [(torqueRatios box).lo, (torqueRatios box).hi, 0, p * vx / yi, -(p * vy / xi),
    p * (vx * yi - vy * xi) / (xi ^ 2 + yi ^ 2)]

/-- The same for the inverse of the weld length. -/
noncomputable def criticalLengths (k : ℝ) : List ℝ :=
  let vx := c "mech.weld.group.vx"
  let vy := c "mech.weld.group.vy"
  let xi := c "mech.weld.group.xi"
  let yi := c "mech.weld.group.yi"
  [(inverseLengths box).lo, (inverseLengths box).hi, k * yi / vx, -(k * xi / vy),
    k * (vx * yi - vy * xi) / (vx ^ 2 + vy ^ 2)]

/-- Some corner is as near to zero. -/
def NearCorner (p k : ℝ) : Prop :=
  ∃ c, AtCorner box c ∧ inplaneSquare c ≤ leastSquare box p k

/-- Some corner is as near to zero as the force comes for the greatest weld
length at the critical ratios of torque and polar moment, and for the extreme
ratios at the critical lengths. -/
structure LeastAtCorner : Prop where
  ratios : ∀ c, AtCorner box c → ∀ k ∈ criticalRatios box c (inverseLengths box).lo,
    (torqueRatios box).contains k → NearCorner box (inverseLengths box).lo k
  lengths : ∀ c, AtCorner box c → ∀ k ∈ [(torqueRatios box).lo, (torqueRatios box).hi],
    ∀ p ∈ criticalLengths box c k, (inverseLengths box).contains p → NearCorner box p k

end Critical

section InverseRanges

variable (h : Swept (Entry.direction .weldInplane) box)
include h

theorem Swept.aw_pos : 0 < loEnd box "mech.weld.group.aw" := lt_of_lt_of_le (by norm_num)
  (h.ends_within (.tail _ (.tail _ (.tail _ List.mem_cons_self)))).1

theorem Swept.jw_pos : 0 < loEnd box "mech.weld.group.jw" := lt_of_lt_of_le (by norm_num)
  (h.ends_within (.tail _ (.tail _ (.tail _ (.tail _ List.mem_cons_self))))).1

theorem Swept.inverseLengths_pos : 0 < (inverseLengths box).lo :=
  inv_pos.mpr (h.aw_pos.trans_le (h.lo_le_hi _))

theorem Swept.contains_inverseLengths (hx : Point box x) :
    (inverseLengths box).contains (x "mech.weld.group.aw")⁻¹ := by
  have hpos := h.aw_pos.trans_le (hx.1 "mech.weld.group.aw")
  exact ⟨inv_anti₀ hpos (hx.2 _), inv_anti₀ h.aw_pos (hx.1 _)⟩

theorem Swept.exists_length {p : ℝ} (hp : (inverseLengths box).contains p) :
    ∃ aw, (portRange box "mech.weld.group.aw").contains aw ∧ aw⁻¹ = p := by
  have hpos : 0 < p := h.inverseLengths_pos.trans_le hp.1
  refine ⟨p⁻¹, ⟨?_, ?_⟩, inv_inv p⟩
  · exact (le_inv_comm₀ h.aw_pos hpos).mpr hp.2
  · exact (inv_le_comm₀ hpos (h.aw_pos.trans_le (h.lo_le_hi _))).mpr hp.1

theorem Swept.contains_torqueRatios (hx : Point box x) :
    (torqueRatios box).contains (x "mech.weld.group.torque" / x "mech.weld.group.jw") := by
  have hjw := h.jw_pos
  have hlo := hx.1 "mech.weld.group.jw"
  have hhi := hx.2 "mech.weld.group.jw"
  have hpos := hjw.trans_le hlo
  have hinv₁ := inv_anti₀ hjw hlo
  have hinv₂ := inv_anti₀ hpos hhi
  constructor
  · have hle : loEnd box "mech.weld.group.torque" / x "mech.weld.group.jw"
        ≤ x "mech.weld.group.torque" / x "mech.weld.group.jw" :=
      div_le_div_of_nonneg_right (hx.1 _) hpos.le
    refine le_trans ?_ hle
    rcases le_total 0 (loEnd box "mech.weld.group.torque") with ht | ht
    · refine (min_le_right _ _).trans ?_
      exact div_le_div_of_nonneg_left ht hpos hhi
    · refine (min_le_left _ _).trans ?_
      simp only [div_eq_mul_inv]
      exact mul_le_mul_of_nonpos_left hinv₁ ht
  · have hle : x "mech.weld.group.torque" / x "mech.weld.group.jw"
        ≤ hiEnd box "mech.weld.group.torque" / x "mech.weld.group.jw" :=
      div_le_div_of_nonneg_right (hx.2 _) hpos.le
    refine hle.trans ?_
    rcases le_total 0 (hiEnd box "mech.weld.group.torque") with ht | ht
    · refine le_trans ?_ (le_max_left _ _)
      exact div_le_div_of_nonneg_left ht hjw hlo
    · refine le_trans ?_ (le_max_right _ _)
      simp only [div_eq_mul_inv]
      exact mul_le_mul_of_nonpos_left hinv₂ ht

/-- Every ratio is one of a torque and a polar moment of the box. -/
theorem Swept.exists_ratio {k : ℝ} (hk : (torqueRatios box).contains k) :
    ∃ torque jw, (portRange box "mech.weld.group.torque").contains torque
      ∧ (portRange box "mech.weld.group.jw").contains jw ∧ torque / jw = k := by
  have hjw := h.jw_pos
  have hends : ∀ T : ℝ, ∀ a ∈ [T / loEnd box "mech.weld.group.jw",
      T / hiEnd box "mech.weld.group.jw"], ∃ j,
        (portRange box "mech.weld.group.jw").contains j ∧ T / j = a := by
    intro T a ha
    simp only [List.mem_cons, List.not_mem_nil, or_false] at ha
    rcases ha with rfl | rfl
    · exact ⟨_, ⟨le_rfl, h.lo_le_hi _⟩, rfl⟩
    · exact ⟨_, ⟨h.lo_le_hi _, le_rfl⟩, rfl⟩
  obtain ⟨j₀, hj₀, hlo⟩ := hends (loEnd box "mech.weld.group.torque") (torqueRatios box).lo (by
    rcases min_choice (loEnd box "mech.weld.group.torque" / loEnd box "mech.weld.group.jw")
      (loEnd box "mech.weld.group.torque" / hiEnd box "mech.weld.group.jw") with heq | heq
    all_goals simp [torqueRatios, portRange, heq])
  obtain ⟨j₁, hj₁, hhi⟩ := hends (hiEnd box "mech.weld.group.torque") (torqueRatios box).hi (by
    rcases max_choice (hiEnd box "mech.weld.group.torque" / loEnd box "mech.weld.group.jw")
      (hiEnd box "mech.weld.group.torque" / hiEnd box "mech.weld.group.jw") with heq | heq
    all_goals simp [torqueRatios, portRange, heq])
  -- on the segment between the two extreme pairs the ratio is continuous
  have hsegment : ∀ {iv : Interval ℝ} {a b s : ℝ}, iv.contains a → iv.contains b →
      s ∈ Set.Icc (0 : ℝ) 1 → iv.contains (a + s * (b - a)) := by
    intro iv a b s ha hb hs
    have hcombo : a + s * (b - a) = (1 - s) * a + s * b := by ring
    rw [hcombo]
    constructor
    · linarith [mul_le_mul_of_nonneg_left ha.1 (sub_nonneg.mpr hs.2),
        mul_le_mul_of_nonneg_left hb.1 hs.1]
    · linarith [mul_le_mul_of_nonneg_left ha.2 (sub_nonneg.mpr hs.2),
        mul_le_mul_of_nonneg_left hb.2 hs.1]
  have htorque : ∀ s ∈ Set.Icc (0 : ℝ) 1, (portRange box "mech.weld.group.torque").contains
      (loEnd box "mech.weld.group.torque"
        + s * (hiEnd box "mech.weld.group.torque" - loEnd box "mech.weld.group.torque")) :=
    fun s hs => hsegment ⟨le_rfl, h.lo_le_hi _⟩ ⟨h.lo_le_hi _, le_rfl⟩ hs
  have hmoment : ∀ s ∈ Set.Icc (0 : ℝ) 1, 0 < j₀ + s * (j₁ - j₀) := fun s hs =>
    hjw.trans_le (hsegment hj₀ hj₁ hs).1
  have hcont : ContinuousOn (fun s : ℝ => (loEnd box "mech.weld.group.torque"
      + s * (hiEnd box "mech.weld.group.torque" - loEnd box "mech.weld.group.torque"))
        / (j₀ + s * (j₁ - j₀))) (Set.Icc 0 1) := by
    apply ContinuousOn.div
    · fun_prop
    · fun_prop
    · exact fun s hs => (hmoment s hs).ne'
  obtain ⟨s, hs, heq⟩ := intermediate_value_Icc zero_le_one hcont (show k ∈ Set.Icc _ _ by
    constructor
    · rw [zero_mul, add_zero, zero_mul, add_zero, hlo]
      exact hk.1
    · rw [one_mul, one_mul, add_sub_cancel, add_sub_cancel, hhi]
      exact hk.2)
  exact ⟨_, _, htorque s hs, hsegment hj₀ hj₁ hs, heq⟩

end InverseRanges

/-- `fx² + fy²` is at least the least one for its weld length and ratio. -/
theorem leastSquare_le (h : Swept (Entry.direction .weldInplane) box) (hx : Point box x) :
    leastSquare box (x "mech.weld.group.aw")⁻¹
      (x "mech.weld.group.torque" / x "mech.weld.group.jw") ≤ inplaneSquare x := by
  have haw : 0 ≤ (x "mech.weld.group.aw")⁻¹ :=
    h.inverseLengths_pos.le.trans (h.contains_inverseLengths hx).1
  have hfx := gap_le_abs (contains_reach haw (Point.contains hx "mech.weld.group.vx")
    (Point.contains hx "mech.weld.group.yi")
    (q := -(x "mech.weld.group.torque" / x "mech.weld.group.jw")))
  have hfy := gap_le_abs (contains_reach haw (Point.contains hx "mech.weld.group.vy")
    (Point.contains hx "mech.weld.group.xi")
    (q := x "mech.weld.group.torque" / x "mech.weld.group.jw"))
  have hsquares := add_le_add (pow_le_pow_left₀ (le_max_left _ _) hfx 2)
    (pow_le_pow_left₀ (le_max_left _ _) hfy 2)
  rw [sq_abs, sq_abs] at hsquares
  apply hsquares.trans_eq
  unfold inplaneSquare
  ring

/-- The least `fx² + fy²` is that of a point of the box. -/
theorem exists_inplaneSquare_eq (h : Swept (Entry.direction .weldInplane) box) {p k : ℝ}
    (hp : (inverseLengths box).contains p) (hk : (torqueRatios box).contains k) :
    ∃ x, Point box x ∧ inplaneSquare x = leastSquare box p k := by
  have hbox := h.lo_le_hi
  obtain ⟨aw, haw, rfl⟩ := h.exists_length hp
  obtain ⟨torque, jw, htorque, hjw, rfl⟩ := h.exists_ratio hk
  have hinv : 0 ≤ aw⁻¹ := h.inverseLengths_pos.le.trans hp.1
  have hnearest : ∀ (k : ℝ) (qu qw : Port), ∃ u w, (portRange box qu).contains u ∧
      (portRange box qw).contains w ∧
      |aw⁻¹ * u + k * w| = gap (reach aw⁻¹ k (portRange box qu) (portRange box qw)) := by
    intro k qu qw
    have hmem := contains_reach hinv
      (⟨le_rfl, hbox qu⟩ : (portRange box qu).contains (loEnd box qu))
      (⟨le_rfl, hbox qw⟩ : (portRange box qw).contains (loEnd box qw)) (q := k)
    obtain ⟨z, hz, habs⟩ := exists_abs_eq_gap (hmem.1.trans hmem.2)
    obtain ⟨u, w, hu, hw, rfl⟩ := exists_of_contains_reach (hbox qu) (hbox qw) hz
    exact ⟨u, w, hu, hw, habs⟩
  obtain ⟨vx, yi, hvx, hyi, hfx⟩ :=
    hnearest (-(torque / jw)) "mech.weld.group.vx" "mech.weld.group.yi"
  obtain ⟨vy, xi, hvy, hxi, hfy⟩ :=
    hnearest (torque / jw) "mech.weld.group.vy" "mech.weld.group.xi"
  have hlo : Point box (loEnd box) := ⟨le_rfl, hbox⟩
  refine ⟨_, Corner.update_mem_Icc (Corner.update_mem_Icc (Corner.update_mem_Icc
    (Corner.update_mem_Icc (Corner.update_mem_Icc (Corner.update_mem_Icc
      (Corner.update_mem_Icc hlo hvx) hvy) htorque) haw) hjw) hxi) hyi, ?_⟩
  rw [leastSquare, ← hfx, ← hfy, sq_abs, sq_abs]
  simp [inplaneSquare]
  ring

/-! ### The critical ratios and lengths are enough -/

section Enough

/-- The ends of a port. -/
abbrev AtEnd (box : PortMap (Interval ℝ)) (q : Port) (t : ℝ) : Prop :=
  t = loEnd box q ∨ t = hiEnd box q

theorem exists_corner_of_ends {vx vy xi yi : ℝ} (hvx : AtEnd box "mech.weld.group.vx" vx)
    (hvy : AtEnd box "mech.weld.group.vy" vy) (hxi : AtEnd box "mech.weld.group.xi" xi)
    (hyi : AtEnd box "mech.weld.group.yi" yi) :
    ∃ c, AtCorner box c ∧ c "mech.weld.group.vx" = vx ∧ c "mech.weld.group.vy" = vy
      ∧ c "mech.weld.group.xi" = xi ∧ c "mech.weld.group.yi" = yi := by
  refine ⟨_, (((Corner.atEnds_lo.update hvx).update hvy).update hxi).update hyi, ?_⟩
  simp

/-- For one sign of the factor the ends of the reach are lines in it. -/
theorem exists_reach (box : PortMap (Interval ℝ)) (q : Port) (S : Set ℝ)
    (hS : (∀ k ∈ S, 0 ≤ k) ∨ ∀ k ∈ S, k ≤ 0) (hq : loEnd box q ≤ hiEnd box q) :
    ∃ w₀ w₁, AtEnd box q w₀ ∧ AtEnd box q w₁ ∧ ∀ k ∈ S, ∀ p (u : Interval ℝ),
      reach p k u (portRange box q) = ⟨p * u.lo + k * w₀, p * u.hi + k * w₁⟩ := by
  rcases hS with hS | hS
  · refine ⟨_, _, .inl rfl, .inr rfl, fun k hk p u => ?_⟩
    have hle : k * loEnd box q ≤ k * hiEnd box q := mul_le_mul_of_nonneg_left hq (hS k hk)
    rw [reach, portRange, min_eq_left hle, max_eq_right hle]
  · refine ⟨_, _, .inr rfl, .inl rfl, fun k hk p u => ?_⟩
    have hle : k * hiEnd box q ≤ k * loEnd box q := mul_le_mul_of_nonpos_left hq (hS k hk)
    rw [reach, portRange, min_eq_right hle, max_eq_left hle]

theorem reach_proper {p k : ℝ} {u w : Interval ℝ} (hp : 0 ≤ p) (hu : u.lo ≤ u.hi)
    (hw : w.lo ≤ w.hi) : (reach p k u w).lo ≤ (reach p k u w).hi := by
  have hmem := contains_reach hp (⟨le_rfl, hu⟩ : u.contains u.lo) (⟨le_rfl, hw⟩ : w.contains w.lo)
    (q := k)
  exact hmem.1.trans hmem.2

/-- Both components over a set of ratios of one sign. -/
theorem exists_leastSquare_eq (hbox : loEnd box ≤ hiEnd box) (S : Set ℝ)
    (hS : (∀ k ∈ S, 0 ≤ k) ∨ ∀ k ∈ S, k ≤ 0) :
    ∃ x₀ x₁ y₀ y₁, AtEnd box "mech.weld.group.xi" x₀ ∧ AtEnd box "mech.weld.group.xi" x₁
      ∧ AtEnd box "mech.weld.group.yi" y₀ ∧ AtEnd box "mech.weld.group.yi" y₁
      ∧ ∀ k ∈ S, ∀ p, 0 ≤ p →
        (p * loEnd box "mech.weld.group.vx" - k * y₀ ≤ p * hiEnd box "mech.weld.group.vx" - k * y₁)
        ∧ (p * loEnd box "mech.weld.group.vy" + k * x₀
          ≤ p * hiEnd box "mech.weld.group.vy" + k * x₁)
        ∧ leastSquare box p k
          = Cuts.distance (p * loEnd box "mech.weld.group.vx" - k * y₀)
              (p * hiEnd box "mech.weld.group.vx" - k * y₁) ^ 2
            + Cuts.distance (p * loEnd box "mech.weld.group.vy" + k * x₀)
              (p * hiEnd box "mech.weld.group.vy" + k * x₁) ^ 2 := by
  obtain ⟨x₀, x₁, hx₀, hx₁, hxi⟩ := exists_reach box "mech.weld.group.xi" S hS (hbox _)
  obtain ⟨y₀, y₁, hy₀, hy₁, hyi⟩ := exists_reach box "mech.weld.group.yi" (-S) (by
    rcases hS with hS | hS
    · exact .inr fun k hk => neg_nonneg.mp (hS _ hk)
    · exact .inl fun k hk => neg_nonpos.mp (hS _ hk)) (hbox _)
  refine ⟨x₀, x₁, y₀, y₁, hx₀, hx₁, hy₀, hy₁, fun k hk p hp => ?_⟩
  have hneg : -k ∈ -S := by simpa using hk
  have hrange : ∀ q, (portRange box q).lo ≤ (portRange box q).hi := hbox
  have hfx := reach_proper (k := -k) hp (hrange "mech.weld.group.vx") (hrange "mech.weld.group.yi")
  have hfy := reach_proper (k := k) hp (hrange "mech.weld.group.vy") (hrange "mech.weld.group.xi")
  rw [hyi _ hneg] at hfx
  rw [hxi k hk] at hfy
  simp only [neg_mul, ← sub_eq_add_neg] at hfx
  refine ⟨hfx, hfy, ?_⟩
  rw [leastSquare, hyi _ hneg, hxi k hk]
  simp only [neg_mul, ← sub_eq_add_neg]
  rfl

variable (hleast : LeastAtCorner box)

include hleast in
theorem nearCorner_of_ends {vx vy xi yi k : ℝ} (hvx : AtEnd box "mech.weld.group.vx" vx)
    (hvy : AtEnd box "mech.weld.group.vy" vy) (hxi : AtEnd box "mech.weld.group.xi" xi)
    (hyi : AtEnd box "mech.weld.group.yi" yi)
    (hk : k ∈ [(torqueRatios box).lo, (torqueRatios box).hi, 0, (inverseLengths box).lo * vx / yi,
      -((inverseLengths box).lo * vy / xi),
      (inverseLengths box).lo * (vx * yi - vy * xi) / (xi ^ 2 + yi ^ 2)])
    (hwithin : (torqueRatios box).contains k) : NearCorner box (inverseLengths box).lo k := by
  obtain ⟨c, hc, rfl, rfl, rfl, rfl⟩ := exists_corner_of_ends hvx hvy hxi hyi
  exact hleast.ratios c hc k hk hwithin

include hleast in
theorem nearCorner_of_ends' {vx vy xi yi k p : ℝ} (hvx : AtEnd box "mech.weld.group.vx" vx)
    (hvy : AtEnd box "mech.weld.group.vy" vy) (hxi : AtEnd box "mech.weld.group.xi" xi)
    (hyi : AtEnd box "mech.weld.group.yi" yi)
    (hk : k ∈ [(torqueRatios box).lo, (torqueRatios box).hi])
    (hp : p ∈ [(inverseLengths box).lo, (inverseLengths box).hi, k * yi / vx, -(k * xi / vy),
      k * (vx * yi - vy * xi) / (vx ^ 2 + vy ^ 2)])
    (hwithin : (inverseLengths box).contains p) : NearCorner box p k := by
  obtain ⟨c, hc, rfl, rfl, rfl, rfl⟩ := exists_corner_of_ends hvx hvy hxi hyi
  exact hleast.lengths c hc k hk p hp hwithin

theorem NearCorner.mono {p k p' k' : ℝ} (h : NearCorner box p k)
    (hle : leastSquare box p k ≤ leastSquare box p' k') : NearCorner box p' k' := by
  obtain ⟨c, hc, hcle⟩ := h
  exact ⟨c, hc, hcle.trans hle⟩

include hleast in
/-- Ratios between two critical ones of one sign, for the greatest weld length. -/
theorem nearCorner_ratio (hbox : loEnd box ≤ hiEnd box) (hpos : 0 ≤ (inverseLengths box).lo)
    {s e k : ℝ} (hs : s ∈ [(torqueRatios box).lo, (torqueRatios box).hi, 0])
    (he : e ∈ [(torqueRatios box).lo, (torqueRatios box).hi, 0])
    (hsub : ∀ t ∈ Set.Icc s e, (torqueRatios box).contains t) (hsign : 0 ≤ s ∨ e ≤ 0)
    (hk : k ∈ Set.Icc s e) : NearCorner box (inverseLengths box).lo k := by
  obtain ⟨x₀, x₁, y₀, y₁, hx₀, hx₁, hy₀, hy₁, hleastSquare⟩ :=
    exists_leastSquare_eq hbox (Set.Icc s e) (by
      rcases hsign with hsign | hsign
      · exact .inl fun t ht => hsign.trans ht.1
      · exact .inr fun t ht => ht.2.trans hsign)
  generalize hp : (inverseLengths box).lo = p at hpos ⊢
  have hends : ∀ {vx vy xi yi t : ℝ}, AtEnd box "mech.weld.group.vx" vx →
      AtEnd box "mech.weld.group.vy" vy → AtEnd box "mech.weld.group.xi" xi →
      AtEnd box "mech.weld.group.yi" yi →
      t ∈ [(torqueRatios box).lo, (torqueRatios box).hi, 0, p * vx / yi, -(p * vy / xi),
        p * (vx * yi - vy * xi) / (xi ^ 2 + yi ^ 2)] →
      (torqueRatios box).contains t → NearCorner box p t := by
    intro vx vy xi yi t hvx hvy hxi hyi ht
    rw [← hp] at ht ⊢
    exact nearCorner_of_ends hleast hvx hvy hxi hyi ht
  -- the sides of the two reaches as lines in the ratio
  have hfx : ∀ a y t : ℝ, p * a - t * y = Cuts.line (p * a, -y) t := fun a y t => by
    rw [Cuts.line]
    ring
  have hfy : ∀ a x t : ℝ, p * a + t * x = Cuts.line (p * a, x) t := fun a x t => by
    rw [Cuts.line]
    ring
  have hvertex : ∀ a b x y : ℝ, Cuts.vertex (p * a, -y) (p * b, x)
      = p * (a * y - b * x) / (x ^ 2 + y ^ 2) := by
    intro a b x y
    rw [Cuts.vertex]
    congr 1 <;> ring
  have hlines := fun t ht => hleastSquare t ht p hpos
  simp only [hfx, hfy] at hlines
  obtain ⟨c, hc, hcwithin, hle⟩ := Cuts.exists_candidate hk (fun t ht => (hlines t ht).1)
    (fun t ht => (hlines t ht).2.1)
  rw [← (hlines c hcwithin).2.2, ← (hlines k hk).2.2] at hle
  refine NearCorner.mono ?_ hle
  have hcK := hsub c hcwithin
  have hthree : c ∈ [(torqueRatios box).lo, (torqueRatios box).hi, 0] → NearCorner box p c := by
    intro hmem
    refine hends (.inl rfl) (.inl rfl) hx₀ hy₀ ?_ hcK
    simp only [List.mem_cons, List.not_mem_nil, or_false] at hmem ⊢
    rcases hmem with hmem | hmem | hmem <;> simp [hmem]
  simp only [Cuts.candidates, Cuts.root, hvertex, neg_div, div_neg, neg_neg, List.mem_cons,
    List.not_mem_nil, or_false] at hc
  rcases hc with rfl | rfl | rfl | rfl | rfl | rfl | rfl | rfl | rfl | rfl
  · exact hthree hs
  · exact hthree he
  · exact hends (.inl rfl) (.inl rfl) hx₀ hy₀ (by simp) hcK
  · exact hends (.inr rfl) (.inl rfl) hx₀ hy₁ (by simp) hcK
  · exact hends (.inl rfl) (.inl rfl) hx₀ hy₀ (by simp) hcK
  · exact hends (.inl rfl) (.inr rfl) hx₁ hy₀ (by simp) hcK
  · exact hends (.inl rfl) (.inl rfl) hx₀ hy₀ (by simp) hcK
  · exact hends (.inl rfl) (.inr rfl) hx₁ hy₀ (by simp) hcK
  · exact hends (.inr rfl) (.inl rfl) hx₀ hy₁ (by simp) hcK
  · exact hends (.inr rfl) (.inr rfl) hx₁ hy₁ (by simp) hcK

include hleast in
/-- Weld lengths, for an extreme ratio. -/
theorem nearCorner_length (hbox : loEnd box ≤ hiEnd box) (hpos : 0 ≤ (inverseLengths box).lo)
    {k p : ℝ} (hk : k ∈ [(torqueRatios box).lo, (torqueRatios box).hi])
    (hp : (inverseLengths box).contains p) : NearCorner box p k := by
  obtain ⟨x₀, x₁, y₀, y₁, hx₀, hx₁, hy₀, hy₁, hleastSquare⟩ :=
    exists_leastSquare_eq hbox {k} (by simpa using le_total 0 k)
  have hfx : ∀ a y t : ℝ, t * a - k * y = Cuts.line (-(k * y), a) t := fun a y t => by
    rw [Cuts.line]
    ring
  have hfy : ∀ a x t : ℝ, t * a + k * x = Cuts.line (k * x, a) t := fun a x t => by
    rw [Cuts.line]
    ring
  have hvertex : ∀ a b x y : ℝ, Cuts.vertex (-(k * y), a) (k * x, b)
      = k * (a * y - b * x) / (a ^ 2 + b ^ 2) := by
    intro a b x y
    rw [Cuts.vertex]
    congr 1
    ring
  simp only [Set.mem_singleton_iff, forall_eq, hfx, hfy] at hleastSquare
  have hlengths : ∀ t ∈ Set.Icc (inverseLengths box).lo (inverseLengths box).hi, 0 ≤ t :=
    fun t ht => hpos.trans ht.1
  obtain ⟨c, hc, hcwithin, hle⟩ := Cuts.exists_candidate
    (show p ∈ Set.Icc (inverseLengths box).lo (inverseLengths box).hi from hp)
    (fun t ht => (hleastSquare t (hlengths t ht)).1)
    (fun t ht => (hleastSquare t (hlengths t ht)).2.1)
  rw [← (hleastSquare c (hlengths c hcwithin)).2.2, ← (hleastSquare p (hlengths p hp)).2.2] at hle
  refine NearCorner.mono ?_ hle
  simp only [Cuts.candidates, Cuts.root, hvertex, neg_neg, neg_div, List.mem_cons,
    List.not_mem_nil, or_false] at hc
  rcases hc with rfl | rfl | rfl | rfl | rfl | rfl | rfl | rfl | rfl | rfl
  · exact nearCorner_of_ends' hleast (.inl rfl) (.inl rfl) hx₀ hy₀ hk (by simp) hcwithin
  · exact nearCorner_of_ends' hleast (.inl rfl) (.inl rfl) hx₀ hy₀ hk (by simp) hcwithin
  · exact nearCorner_of_ends' hleast (.inl rfl) (.inl rfl) hx₀ hy₀ hk (by simp) hcwithin
  · exact nearCorner_of_ends' hleast (.inr rfl) (.inl rfl) hx₀ hy₁ hk (by simp) hcwithin
  · exact nearCorner_of_ends' hleast (.inl rfl) (.inl rfl) hx₀ hy₀ hk (by simp) hcwithin
  · exact nearCorner_of_ends' hleast (.inl rfl) (.inr rfl) hx₁ hy₀ hk (by simp) hcwithin
  · exact nearCorner_of_ends' hleast (.inl rfl) (.inl rfl) hx₀ hy₀ hk (by simp) hcwithin
  · exact nearCorner_of_ends' hleast (.inl rfl) (.inr rfl) hx₁ hy₀ hk (by simp) hcwithin
  · exact nearCorner_of_ends' hleast (.inr rfl) (.inl rfl) hx₀ hy₁ hk (by simp) hcwithin
  · exact nearCorner_of_ends' hleast (.inr rfl) (.inr rfl) hx₁ hy₁ hk (by simp) hcwithin

end Enough

/-- Both components of the force scale with it. -/
theorem leastSquare_mul (box : PortMap (Interval ℝ)) {l : ℝ} (hl : 0 ≤ l) (p k : ℝ) :
    leastSquare box (l * p) (l * k) = l ^ 2 * leastSquare box p k := by
  have hreach : ∀ (k : ℝ) (u w : Interval ℝ),
      gap (reach (l * p) (l * k) u w) = l * gap (reach p k u w) := by
    intro k u w
    simp only [gap, Cuts.distance, reach]
    rw [mul_max_of_nonneg _ _ hl, mul_max_of_nonneg _ _ hl, mul_neg, mul_add, mul_add,
      mul_min_of_nonneg _ _ hl, mul_max_of_nonneg _ _ hl, mul_zero]
    simp only [mul_assoc]
  rw [leastSquare, ← mul_neg, hreach, hreach, leastSquare]
  ring

theorem NearCorner.of_mul {l p k : ℝ} (hl : 0 ≤ l) (hle : l ≤ 1)
    (h : NearCorner box (l * p) (l * k)) : NearCorner box p k := by
  apply h.mono
  rw [leastSquare_mul box hl]
  exact mul_le_of_le_one_left (add_nonneg (sq_nonneg _) (sq_nonneg _)) (pow_le_one₀ hl hle)

/-- All ratios, for the greatest weld length. -/
theorem LeastAtCorner.nearCorner_longest (hleast : LeastAtCorner box)
    (h : Swept (Entry.direction .weldInplane) box) {k : ℝ} (hk : (torqueRatios box).contains k) :
    NearCorner box (inverseLengths box).lo k := by
  have hratio := fun {s e : ℝ} (hs : s ∈ [(torqueRatios box).lo, (torqueRatios box).hi, 0])
    (he : e ∈ [(torqueRatios box).lo, (torqueRatios box).hi, 0]) =>
      nearCorner_ratio hleast h.lo_le_hi h.inverseLengths_pos.le (k := k) hs he
  rcases le_total 0 k with hzero | hzero
  · rcases le_total 0 (torqueRatios box).lo with hlo | hlo
    · exact hratio (by simp) (by simp) (fun t ht => ht) (.inl hlo) hk
    · exact hratio (by simp) (by simp) (fun t ht => ⟨hlo.trans ht.1, ht.2⟩) (.inl le_rfl)
        ⟨hzero, hk.2⟩
  · rcases le_total (torqueRatios box).hi 0 with hhi | hhi
    · exact hratio (by simp) (by simp) (fun t ht => ht) (.inr hhi) hk
    · exact hratio (by simp) (by simp) (fun t ht => ⟨ht.1, ht.2.trans hhi⟩) (.inr le_rfl)
        ⟨hk.1, hzero⟩

/-- Any other pair of a length and a ratio is scaled down to the greatest length
or to an extreme ratio, whichever comes first. -/
theorem LeastAtCorner.nearCorner (hleast : LeastAtCorner box)
    (h : Swept (Entry.direction .weldInplane) box) {p k : ℝ}
    (hp : (inverseLengths box).contains p) (hk : (torqueRatios box).contains k) :
    NearCorner box p k := by
  have hpos := h.inverseLengths_pos
  have hppos : 0 < p := hpos.trans_le hp.1
  have hle : (inverseLengths box).lo / p ≤ 1 := (div_le_one hppos).mpr hp.1
  have hlpos : 0 < (inverseLengths box).lo / p := div_pos hpos hppos
  have hlength : ∀ l, (inverseLengths box).lo / p ≤ l → l ≤ 1 →
      l * k ∈ [(torqueRatios box).lo, (torqueRatios box).hi] → NearCorner box p k := by
    intro l hl hl₁ hmem
    refine NearCorner.of_mul (hlpos.le.trans hl) hl₁ ?_
    refine nearCorner_length hleast h.lo_le_hi hpos.le hmem ⟨?_, ?_⟩
    · exact (div_le_iff₀ hppos).mp hl
    · exact (mul_le_of_le_one_left hppos.le hl₁).trans hp.2
  rcases lt_or_ge ((inverseLengths box).lo / p * k) (torqueRatios box).lo with hlo | hlo
  · have hkpos : 0 < k := by
      by_contra hneg
      have hge := mul_le_mul_of_nonpos_right hle (not_lt.mp hneg)
      linarith [hk.1]
    refine hlength ((torqueRatios box).lo / k) ((le_div_iff₀ hkpos).mpr hlo.le)
      ((div_le_one hkpos).mpr hk.1) ?_
    simp [div_mul_cancel₀ _ hkpos.ne']
  rcases lt_or_ge (torqueRatios box).hi ((inverseLengths box).lo / p * k) with hhi | hhi
  · have hkneg : k < 0 := by
      by_contra hpos
      have hge := mul_le_mul_of_nonneg_right hle (not_lt.mp hpos)
      linarith [hk.2]
    refine hlength ((torqueRatios box).hi / k) ((le_div_iff_of_neg hkneg).mpr hhi.le)
      ((div_le_one_of_neg hkneg).mpr hk.2) ?_
    simp [div_mul_cancel₀ _ hkneg.ne]
  refine NearCorner.of_mul hlpos.le hle ?_
  rw [div_mul_cancel₀ _ hppos.ne']
  exact hleast.nearCorner_longest h ⟨hlo, hhi⟩

theorem weldInplane_encloses_iff (h : Swept (Entry.direction .weldInplane) box) :
    Encloses (Entry.direction .weldInplane) box ↔ LeastAtCorner box := by
  rw [weldInplane_encloses_iff_below h]
  constructor
  · intro hall
    have hnear : ∀ {p k : ℝ}, (inverseLengths box).contains p → (torqueRatios box).contains k →
        NearCorner box p k := by
      intro p k hp hk
      obtain ⟨x, hx, heq⟩ := exists_inplaneSquare_eq h hp hk
      obtain ⟨c, hc, hle⟩ := hall x hx
      exact ⟨c, hc, hle.trans_eq heq⟩
    have hlo : Point box (loEnd box) := ⟨le_rfl, h.lo_le_hi⟩
    have hlengths := h.contains_inverseLengths hlo
    have hratios := h.contains_torqueRatios hlo
    refine ⟨fun c _ k _ hk => ?_, fun c _ k hk p _ hp => ?_⟩
    · exact hnear ⟨le_rfl, hlengths.1.trans hlengths.2⟩ hk
    · refine hnear hp ?_
      simp only [List.mem_cons, List.not_mem_nil, or_false] at hk
      rcases hk with rfl | rfl
      · exact ⟨le_rfl, hratios.1.trans hratios.2⟩
      · exact ⟨hratios.1.trans hratios.2, le_rfl⟩
  · intro hleast x hx
    obtain ⟨c, hc, hle⟩ :=
      hleast.nearCorner h (h.contains_inverseLengths hx) (h.contains_torqueRatios hx)
    exact ⟨c, hc, hle.trans (leastSquare_le h hx)⟩

end Catalog

end Feldspar

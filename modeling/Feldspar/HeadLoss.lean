/-
Feldspar/HeadLoss.lean

The head losses of an edge as a function of its flow (`_edge_dp_and_k`).

Every law is odd (`edgeDpAndK_neg`): the drop is a magnitude of the absolute
flow, with the sign of the flow.  It increases strictly with the flow wherever
the magnitude does (`Resists.strictMono`).  Orifices and heat-exchanger segments
drop a multiple of the square of the flow, and so at least a cube of it against
a change of it (`Square.stiff`).  For a pipe it depends on the friction factors,
see `PipeFriction`.
-/
import Feldspar.Flownet
import Mathlib.Tactic.FieldSimp
import Mathlib.Tactic.Linarith
import Mathlib.Tactic.Positivity

set_option linter.unusedSectionVars false

namespace Feldspar

namespace Flownet

variable {K : Type} [Field K] [LinearOrder K]

/-! ### Signs -/

section Signs

variable [IsStrictOrderedRing K]

@[simp] theorem signed_zero (m : K) : signed m 0 = 0 := if_pos rfl

theorem signed_of_pos (m : K) {x : K} (hx : 0 < x) : signed m x = |m| := by
  rw [signed, if_neg hx.ne', if_neg hx.not_gt, Arith.abs_eq]

theorem signed_of_neg (m : K) {x : K} (hx : x < 0) : signed m x = -|m| := by
  rw [signed, if_neg hx.ne, if_pos hx, Arith.abs_eq]

theorem signed_neg (m x : K) : signed m (-x) = -signed m x := by
  rcases lt_trichotomy x 0 with hx | rfl | hx
  · rw [signed_of_neg m hx, signed_of_pos m (neg_pos.mpr hx), neg_neg]
  · rw [neg_zero, signed_zero, neg_zero]
  · rw [signed_of_pos m hx, signed_of_neg m (neg_neg_of_pos hx)]

/-- A magnitude that grows with the absolute flow gives a drop that grows with
the flow. -/
theorem strictMono_signed {mag : K → K} (hmag : ∀ x y, 0 ≤ x → x < y → |mag x| < |mag y|) :
    StrictMono fun flow => signed (mag |flow|) flow := by
  have hpos : ∀ y, 0 < y → 0 < |mag y| := fun y hy =>
    (abs_nonneg (mag 0)).trans_lt (hmag 0 y le_rfl hy)
  intro x y hxy
  show signed (mag |x|) x < signed (mag |y|) y
  rcases lt_trichotomy x 0 with hx | rfl | hx
  · rw [signed_of_neg _ hx]
    rcases lt_trichotomy y 0 with hy | rfl | hy
    · rw [signed_of_neg _ hy, neg_lt_neg_iff]
      refine hmag _ _ (abs_nonneg y) ?_
      rw [abs_of_neg hx, abs_of_neg hy]
      exact neg_lt_neg hxy
    · rw [signed_zero]
      exact neg_neg_of_pos (hpos _ (abs_pos.mpr hx.ne))
    · rw [signed_of_pos _ hy]
      exact (neg_nonpos.mpr (abs_nonneg _)).trans_lt (hpos _ (abs_pos.mpr hy.ne'))
  · rw [signed_zero, signed_of_pos _ hxy]
    exact hpos _ (abs_pos.mpr hxy.ne')
  · have hy := hx.trans hxy
    rw [signed_of_pos _ hx, signed_of_pos _ hy]
    refine hmag _ _ (abs_nonneg x) ?_
    rwa [abs_of_pos hx, abs_of_pos hy]

end Signs

/-! ### The laws -/

section Laws

variable {hyd : Hydraulics K}

/-- The magnitude of an edge's drop at an absolute flow. -/
def dpMag (hyd : Hydraulics K) (edge : Edge K) (m : K) : K :=
  match edge.kind with
  | .pipe => pipeDpMag hyd edge m
  | .orifice => orificeDp edge.cd (circleArea hyd edge.boreDiameter) edge.density m
  | .hxSegment =>
      let area := circleArea hyd edge.diameter
      minorLossDp edge.resistance edge.density (if 0 < area then m / area else 0)
  | .imposer => 0

variable [IsStrictOrderedRing K]

theorem edgeDpAndK_fst (edge : Edge K) (flow : K) :
    (edgeDpAndK hyd edge flow).1 = signed (dpMag hyd edge |flow|) flow := by
  unfold edgeDpAndK dpMag
  cases edge.kind with
  | pipe => rfl
  | orifice => rfl
  | hxSegment => rfl
  | imposer =>
      show (0 : K) = signed 0 flow
      unfold signed
      rw [Arith.abs_eq, abs_zero, neg_zero, ite_self, ite_self]

/-- **Every law is odd.** -/
theorem edgeDpAndK_neg (edge : Edge K) (flow : K) :
    (edgeDpAndK hyd edge (-flow)).1 = -(edgeDpAndK hyd edge flow).1 := by
  rw [edgeDpAndK_fst, edgeDpAndK_fst, abs_neg, signed_neg]

theorem edgeDpAndK_sign (edge : Edge K) (flow : K) {sign : ℤ} (hsign : sign = 1 ∨ sign = -1) :
    (edgeDpAndK hyd edge (sign * flow)).1 = sign * (edgeDpAndK hyd edge flow).1 := by
  rcases hsign with rfl | rfl
  · rw [Int.cast_one, one_mul, one_mul]
  · rw [Int.cast_neg, Int.cast_one, neg_one_mul, neg_one_mul, edgeDpAndK_neg]

/-- The magnitude of the drop grows with the absolute flow. -/
def Resists (hyd : Hydraulics K) (edge : Edge K) : Prop :=
  ∀ x y, 0 ≤ x → x < y → |dpMag hyd edge x| < |dpMag hyd edge y|

theorem Resists.strictMono {edge : Edge K} (h : Resists hyd edge) :
    StrictMono fun flow => (edgeDpAndK hyd edge flow).1 := by
  have heq : (fun flow => (edgeDpAndK hyd edge flow).1)
      = fun flow => signed (dpMag hyd edge |flow|) flow := by
    funext flow
    exact edgeDpAndK_fst edge flow
  rw [heq]
  exact strictMono_signed h

/-- The drop grows with the flow at least as `c` times a cube. -/
def Stiff (hyd : Hydraulics K) (c : K) (edge : Edge K) : Prop :=
  ∀ x y, c * |x - y| ^ 3
    ≤ (x - y) * ((edgeDpAndK hyd edge x).1 - (edgeDpAndK hyd edge y).1)

/-- The drop is a multiple of the square of the flow. -/
def Square (hyd : Hydraulics K) (c : K) (edge : Edge K) : Prop := ∀ m, dpMag hyd edge m = c * m ^ 2

theorem Square.resists {c : K} {edge : Edge K} (h : Square hyd c edge) (hc : c ≠ 0) :
    Resists hyd edge := by
  intro x y hx hxy
  rw [h x, h y, abs_mul, abs_mul, abs_of_nonneg (sq_nonneg x), abs_of_nonneg (sq_nonneg y)]
  exact mul_lt_mul_of_pos_left (pow_lt_pow_left₀ hxy hx two_ne_zero) (abs_pos.mpr hc)

theorem Square.drop {c : K} {edge : Edge K} (h : Square hyd c edge) (x : K) :
    (edgeDpAndK hyd edge x).1 = |c| * (x * |x|) := by
  rw [edgeDpAndK_fst, h, sq_abs]
  have habs : |c * x ^ 2| = |c| * x ^ 2 := by rw [abs_mul, abs_of_nonneg (sq_nonneg x)]
  rcases lt_trichotomy x 0 with hx | rfl | hx
  · rw [signed_of_neg _ hx, habs, abs_of_neg hx]
    ring
  · rw [signed_zero, zero_mul, mul_zero]
  · rw [signed_of_pos _ hx, habs, abs_of_pos hx]
    ring

/-- Between flows of one sense, the sum of the flows exceeds their difference;
between flows of opposite senses, the squares are half the square of the
difference at least. -/
theorem cube_le (x y : K) : |x - y| ^ 3 ≤ 2 * ((x - y) * (x * |x| - y * |y|)) := by
  wlog hxy : y ≤ x generalizing x y with hsym
  · rw [abs_sub_comm]
    refine (hsym y x (le_of_not_ge hxy)).trans_eq ?_
    ring
  obtain ⟨d, hd, rfl⟩ : ∃ d, 0 ≤ d ∧ x = y + d := ⟨x - y, sub_nonneg.mpr hxy, by ring⟩
  rw [add_sub_cancel_left, abs_of_nonneg hd]
  rcases le_total 0 y with hy | hy
  · rw [abs_of_nonneg hy, abs_of_nonneg (add_nonneg hy hd)]
    have hrest : 0 ≤ d ^ 3 + 4 * (y * d ^ 2) := by positivity
    linear_combination hrest
  · rw [abs_of_nonpos hy]
    rcases le_total 0 (y + d) with hx | hx
    · rw [abs_of_nonneg hx]
      have hrest : 0 ≤ d * (2 * y + d) ^ 2 := by positivity
      linear_combination hrest
    · rw [abs_of_nonpos hx]
      have hrest : 0 ≤ d ^ 2 * (-(y + d)) := mul_nonneg (sq_nonneg d) (neg_nonneg.mpr hx)
      have hcube : 0 ≤ d ^ 3 := pow_nonneg hd 3
      linear_combination 4 * hrest + hcube

theorem Square.stiff {c : K} {edge : Edge K} (h : Square hyd c edge) :
    Stiff hyd (|c| / 2) edge := by
  intro x y
  rw [h.drop, h.drop]
  have hcube := mul_le_mul_of_nonneg_left (cube_le x y) (abs_nonneg c)
  linear_combination hcube / 2

theorem circleArea_pos (hpi : 0 < hyd.pi) {diameter : K} (hd : diameter ≠ 0) :
    0 < circleArea hyd diameter := by
  rw [circleArea, Arith.square_eq]
  have hhalf : diameter / 2.0 ≠ 0 := div_ne_zero hd (by norm_num)
  positivity

/-- An orifice with a bore. -/
theorem square_orifice (hpi : 0 < hyd.pi) {edge : Edge K} (hkind : edge.kind = .orifice)
    (hcd : 0 < edge.cd) (hbore : edge.boreDiameter ≠ 0) :
    Square hyd (edge.density / (2 * (edge.cd * circleArea hyd edge.boreDiameter) ^ 2)) edge := by
  intro m
  have harea := circleArea_pos hpi hbore
  unfold dpMag orificeDp
  rw [hkind]
  simp only
  rw [if_neg (by rw [not_or, not_le, not_le]; exact ⟨hcd, harea⟩)]
  field_simp
  norm_num

/-- A heat-exchanger segment with a diameter. -/
theorem square_hxSegment (hpi : 0 < hyd.pi) {edge : Edge K} (hkind : edge.kind = .hxSegment)
    (hdiameter : edge.diameter ≠ 0) :
    Square hyd (edge.resistance * edge.density / (2 * circleArea hyd edge.diameter ^ 2)) edge := by
  intro m
  have harea := circleArea_pos hpi hdiameter
  unfold dpMag minorLossDp
  rw [hkind]
  show edge.resistance * edge.density * (if 0 < circleArea hyd edge.diameter then _ else _) *
    (if 0 < circleArea hyd edge.diameter then _ else _) / 2.0 = _
  rw [if_pos harea]
  field_simp
  norm_num

end Laws

end Flownet

end Feldspar

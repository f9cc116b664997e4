/-
Feldspar/Lib/SymmetricEigenvalues.lean

The eigenvalues of a symmetric matrix of order three.

`Eigenvalues a x y z` compares the three invariants of `a` with those of a
diagonal; it says that the characteristic polynomial of `a` is the product of
`X - x`, `X - y` and `X - z` (`Eigenvalues.charpoly_eq`).  A symmetric matrix
has eigenvalues.  If moreover its trace is `0` and its minors sum to `-3`, then
half its determinant is a cosine, and the eigenvalues are twice the cosines of
a third of that angle and of the angles one and two thirds of a turn further.
-/
import Mathlib.Analysis.Matrix.Spectrum
import Mathlib.Analysis.SpecialFunctions.Trigonometric.Inverse
import Mathlib.LinearAlgebra.Matrix.Charpoly.Basic
import Mathlib.Tactic.Linarith
import Mathlib.Tactic.LinearCombination

namespace SymmetricEigenvalues

open Polynomial

/-! ### The invariants -/

section Invariants

variable {R : Type*} [CommRing R]

/-- The sum of the principal minors of order two. -/
def minors (a : Matrix (Fin 3) (Fin 3) R) : R := a.adjugate.trace

theorem minors_eq (a : Matrix (Fin 3) (Fin 3) R) :
    minors a = (a 0 0 * a 1 1 - a 0 1 * a 1 0) + (a 1 1 * a 2 2 - a 1 2 * a 2 1)
      + (a 2 2 * a 0 0 - a 2 0 * a 0 2) := by
  rw [minors, Matrix.adjugate_fin_three, Matrix.trace_fin_three_of]
  ring

/-- The invariants of `a` are those of the diagonal `x, y, z`. -/
structure Eigenvalues (a : Matrix (Fin 3) (Fin 3) R) (x y z : R) : Prop where
  trace : a.trace = x + y + z
  minors : minors a = x * y + y * z + z * x
  det : a.det = x * y * z

theorem eval_charpoly (a : Matrix (Fin 3) (Fin 3) R) (t : R) :
    a.charpoly.eval t = t ^ 3 - a.trace * t ^ 2 + minors a * t - a.det := by
  rw [Matrix.eval_charpoly, Matrix.det_fin_three, Matrix.det_fin_three, Matrix.trace_fin_three,
    minors_eq]
  simp
  ring

variable {a : Matrix (Fin 3) (Fin 3) R} {x y z : R}

/-- Scaling and shifting a matrix scales and shifts its eigenvalues. -/
theorem Eigenvalues.affine (h : Eigenvalues a x y z) (q p : R) :
    Eigenvalues (q • 1 + p • a) (q + p * x) (q + p * y) (q + p * z) := by
  have htrace := h.trace
  have hminors := h.minors
  have hdet := h.det
  rw [Matrix.trace_fin_three] at htrace
  rw [minors_eq] at hminors
  rw [Matrix.det_fin_three] at hdet
  refine ⟨?_, ?_, ?_⟩
  · rw [Matrix.trace_fin_three]
    simp
    linear_combination p * htrace
  · rw [minors_eq]
    simp
    linear_combination 2 * q * p * htrace + p ^ 2 * hminors
  · rw [Matrix.det_fin_three]
    simp
    linear_combination q ^ 2 * p * htrace + q * p ^ 2 * hminors + p ^ 3 * hdet

theorem Eigenvalues.charpoly_eq [IsDomain R] [Infinite R] (h : Eigenvalues a x y z) :
    a.charpoly = (X - C x) * (X - C y) * (X - C z) := by
  apply Polynomial.funext
  intro t
  rw [eval_charpoly, h.trace, h.minors, h.det]
  simp only [eval_mul, eval_sub, eval_X, eval_C]
  ring

end Invariants

/-- The invariants are the values of the polynomial at three points. -/
theorem eigenvalues_of_charpoly {a : Matrix (Fin 3) (Fin 3) ℝ} {x y z : ℝ}
    (h : a.charpoly = (X - C x) * (X - C y) * (X - C z)) : Eigenvalues a x y z := by
  have heval : ∀ t, t ^ 3 - a.trace * t ^ 2 + minors a * t - a.det
      = (t - x) * (t - y) * (t - z) := by
    intro t
    rw [← eval_charpoly, h]
    simp only [eval_mul, eval_sub, eval_X, eval_C]
  have hzero := heval 0
  have hone := heval 1
  have hneg := heval (-1)
  refine ⟨?_, ?_, ?_⟩
  · linarith
  · linarith
  · linarith

theorem exists_eigenvalues {a : Matrix (Fin 3) (Fin 3) ℝ} (ha : a.IsHermitian) :
    ∃ x y z, Eigenvalues a x y z := by
  refine ⟨ha.eigenvalues 0, ha.eigenvalues 1, ha.eigenvalues 2, ?_⟩
  apply eigenvalues_of_charpoly
  rw [ha.charpoly_eq, Fin.prod_univ_three]
  rfl

/-! ### Three cosines -/

section Cosines

theorem cos_two_pi_div_three : Real.cos (2 * Real.pi / 3) = -(1 / 2) := by
  have h : 2 * Real.pi / 3 = Real.pi - Real.pi / 3 := by ring
  rw [h, Real.cos_pi_sub, Real.cos_pi_div_three]

theorem sin_two_pi_div_three : Real.sin (2 * Real.pi / 3) = Real.sqrt 3 / 2 := by
  have h : 2 * Real.pi / 3 = Real.pi - Real.pi / 3 := by ring
  rw [h, Real.sin_pi_sub, Real.sin_pi_div_three]

theorem two_mul_cos_add (φ : ℝ) :
    2 * Real.cos (φ + 2 * Real.pi / 3) = -Real.cos φ - Real.sqrt 3 * Real.sin φ := by
  rw [Real.cos_add, cos_two_pi_div_three, sin_two_pi_div_three]
  ring

/-- A third of an angle is at most a sixth of a turn. -/
theorem arccos_div_three (r : ℝ) :
    0 ≤ Real.sin (Real.arccos r / 3) ∧ 1 / 2 ≤ Real.cos (Real.arccos r / 3) := by
  have hnonneg := Real.arccos_nonneg r
  have hle := Real.arccos_le_pi r
  have hpi := Real.pi_pos
  refine ⟨Real.sin_nonneg_of_nonneg_of_le_pi (by linarith) (by linarith), ?_⟩
  rw [← Real.cos_pi_div_three]
  exact Real.cos_le_cos_of_nonneg_of_le_pi (by linarith) (by linarith) (by linarith)

variable {φ : ℝ}

/-- The second of the three is not above the first. -/
theorem cosines_first (hcos : 1 / 2 ≤ Real.cos φ) :
    -(2 * Real.cos φ) - 2 * Real.cos (φ + 2 * Real.pi / 3) ≤ 2 * Real.cos φ := by
  have hone := Real.sin_sq_add_cos_sq φ
  have hthree : Real.sqrt 3 * Real.sqrt 3 = 3 := Real.mul_self_sqrt (by norm_num)
  rw [two_mul_cos_add]
  -- `√3 sin ≤ 3 / 2 ≤ 3 cos`
  have hle : Real.sqrt 3 * Real.sin φ ≤ 3 / 2 := by
    refine (abs_le_of_sq_le_sq' ?_ (by norm_num)).2
    rw [mul_pow, pow_two (Real.sqrt 3), hthree]
    nlinarith
  linarith

/-- And not below the third. -/
theorem cosines_last (hsin : 0 ≤ Real.sin φ) :
    2 * Real.cos (φ + 2 * Real.pi / 3)
      ≤ -(2 * Real.cos φ) - 2 * Real.cos (φ + 2 * Real.pi / 3) := by
  have hmul := mul_nonneg (Real.sqrt_nonneg 3) hsin
  rw [two_mul_cos_add]
  linarith

variable {b : Matrix (Fin 3) (Fin 3) ℝ} {r : ℝ}

/-- The discriminant of the eigenvalues is a square. -/
theorem mem_Icc_of_eigenvalues {x y z : ℝ} (h : Eigenvalues b x y z) (htrace : b.trace = 0)
    (hminors : minors b = -3) (hdet : b.det = 2 * r) : -1 ≤ r ∧ r ≤ 1 := by
  have hsum : z = -x - y := by linarith [h.trace]
  have hpairs := h.minors
  have hprod := h.det
  rw [hminors, hsum] at hpairs
  rw [hdet, hsum] at hprod
  have hr : r = x * y * (-x - y) / 2 := by linarith
  have hq : x * x + x * y + y * y = 3 := by linarith
  have hdisc : ((x - y) * (x + 2 * y) * (2 * x + y)) ^ 2 = 108 * (1 - r ^ 2) := by
    rw [hr]
    have hcube : (x * x + x * y + y * y) ^ 3 = 27 := by
      rw [hq]
      norm_num
    linear_combination 4 * hcube
  have hsq : r ^ 2 ≤ 1 ^ 2 := by
    have := sq_nonneg ((x - y) * (x + 2 * y) * (2 * x + y))
    linarith
  exact abs_le_of_sq_le_sq' hsq one_pos.le

/-- By the triple angle. -/
theorem eigenvalues_cosines (htrace : b.trace = 0) (hminors : minors b = -3)
    (hdet : b.det = 2 * r) (hφ : Real.cos (3 * φ) = r) :
    Eigenvalues b (2 * Real.cos φ) (-(2 * Real.cos φ) - 2 * Real.cos (φ + 2 * Real.pi / 3))
      (2 * Real.cos (φ + 2 * Real.pi / 3)) := by
  have hone := Real.sin_sq_add_cos_sq φ
  have hthree : Real.sqrt 3 * Real.sqrt 3 = 3 := Real.mul_self_sqrt (by norm_num)
  have htriple := Real.cos_three_mul φ
  rw [hφ] at htriple
  rw [two_mul_cos_add]
  refine ⟨?_, ?_, ?_⟩
  · rw [htrace]
    ring
  · rw [hminors]
    linear_combination 3 * hone + Real.sin φ ^ 2 * hthree
  · rw [hdet]
    linear_combination 2 * htriple + 6 * Real.cos φ * hone
      + 2 * Real.cos φ * Real.sin φ ^ 2 * hthree

end Cosines

end SymmetricEigenvalues

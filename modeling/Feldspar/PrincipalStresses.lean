/-
Feldspar/PrincipalStresses.lean

The principal stresses are the eigenvalues of the stress tensor.

A tensor without shear is diagonal, and its components are put in order.
Otherwise the tensor is `q + p b` where `b` has trace `0` and minors summing to
`-3`, so that half the determinant of `b` needs no clamp and the cosines of the
source are the eigenvalues of `b` (`Lib/SymmetricEigenvalues`).  Arithmetic is
exact in this module.
-/
import Feldspar.FeaResults
import Feldspar.Lib.Fallible
import Feldspar.Lib.SymmetricEigenvalues
import Mathlib.Tactic.FieldSimp

namespace Feldspar

namespace FeaResults

open FloatValue (Value)
open SymmetricEigenvalues (Eigenvalues minors minors_eq)
open Fallible (bind_eq_ok)

/-- The symmetric tensor of six components. -/
def tensor (sxx syy szz sxy sxz syz : ℝ) : Matrix (Fin 3) (Fin 3) ℝ :=
  !![sxx, sxy, sxz; sxy, syy, syz; sxz, syz, szz]

/-- The von Mises stress of six components. -/
noncomputable def vonMises (sxx syy szz sxy sxz syz : ℝ) : ℝ :=
  Real.sqrt (1 / (2 : ℕ) * ((sxx - syy) ^ 2 + (syy - szz) ^ 2 + (szz - sxx) ^ 2)
    + (3 : ℕ) * (sxy ^ 2 + sxz ^ 2 + syz ^ 2))

section Steps

theorem divide_fin (x : ℝ) {y : ℝ} (h : y ≠ 0) :
    divide (.fin x) (.fin y) = .ok (.fin (x / y)) := by
  have hne : (.fin y : Value ℝ) ≠ .fin 0 := fun heq => h (Value.fin.inj heq)
  rw [divide, if_neg hne, Value.div_fin, Value.round_exact]

theorem square_fin (x : ℝ) : square (.fin x) = .ok (.fin (x * x)) := by
  rw [square, Value.round_exact]

theorem sqrt_fin {x : ℝ} (h : 0 ≤ x) : sqrt (.fin x) = .ok (.fin (Real.sqrt x)) := by
  rw [sqrt, if_neg (not_lt.mpr h), Value.round_exact]

theorem acos_fin {x : ℝ} (h : -1 ≤ x ∧ x ≤ 1) : acos (.fin x) = .ok (.fin (Real.arccos x)) := by
  rw [acos, if_pos h, Value.round_exact]

theorem cos_fin (x : ℝ) : cos (.fin x) = .ok (.fin (Real.cos x)) := by
  rw [cos, Value.round_exact]

/-- The clamp leaves a cosine as it is. -/
theorem clamp_fin {x : ℝ} (h : -1 ≤ x ∧ x ≤ 1) :
    pyMax (.fin (-1)) (pyMin (.fin 1) (.fin x)) = .fin x := by
  have hmin : pyMin (.fin 1) (.fin x) = .fin x := by
    rw [pyMin, Value.lt_fin]
    by_cases hlt : x < 1
    · rw [decide_eq_true hlt, if_pos rfl]
    · rw [decide_eq_false hlt, le_antisymm h.2 (not_lt.mp hlt)]
      rfl
  rw [hmin, pyMax, Value.lt_fin]
  by_cases hlt : -1 < x
  · rw [decide_eq_true hlt, if_pos rfl]
  · rw [decide_eq_false hlt, le_antisymm (not_lt.mp hlt) h.1]
    rfl

end Steps

section Tensors

variable (sxx syy szz sxy sxz syz : ℝ)

theorem tensor_isHermitian : (tensor sxx syy szz sxy sxz syz).IsHermitian := by
  ext i j
  fin_cases i <;> fin_cases j <;> rfl

theorem trace_tensor : (tensor sxx syy szz sxy sxz syz).trace = sxx + syy + szz := by
  rw [Matrix.trace_fin_three]
  rfl

theorem minors_tensor :
    minors (tensor sxx syy szz sxy sxz syz)
      = sxx * syy + syy * szz + szz * sxx - (sxy * sxy + sxz * sxz + syz * syz) := by
  rw [minors_eq]
  show (sxx * syy - sxy * sxy) + (syy * szz - syz * syz) + (szz * sxx - sxz * sxz) = _
  ring

theorem det_tensor :
    (tensor sxx syy szz sxy sxz syz).det
      = sxx * (syy * szz - syz * syz) - sxy * (sxy * szz - syz * sxz)
        + sxz * (sxy * syz - syy * sxz) := by
  rw [tensor, Matrix.det_fin_three]
  simp
  ring

theorem tensor_affine (q p : ℝ) :
    q • 1 + p • tensor sxx syy szz sxy sxz syz
      = tensor (q + p * sxx) (q + p * syy) (q + p * szz) (p * sxy) (p * sxz) (p * syz) := by
  ext i j
  fin_cases i <;> fin_cases j <;> simp [tensor]

variable {sxx syy szz sxy sxz syz}

/-- The von Mises stress depends on the invariants. -/
theorem vonMisesPrincipal_eq {s1 s2 s3 : ℝ}
    (h : Eigenvalues (tensor sxx syy szz sxy sxz syz) s1 s2 s3) :
    vonMisesPrincipal (.fin s1, .fin s2, .fin s3) = .fin (vonMises sxx syy szz sxy sxz syz) := by
  have htrace := h.trace
  have hminors := h.minors
  rw [trace_tensor] at htrace
  rw [minors_tensor] at hminors
  simp only [vonMisesPrincipal, squaredVonMises, root, Value.add_exact, Value.mul_exact,
    Value.sub_exact, Value.round_exact]
  rw [vonMises]
  congr 2
  linear_combination (-(sxx + syy + szz) - (s1 + s2 + s3)) * htrace + 3 * hminors

/-! ### Without shear -/

/-- Three numbers in descending order. -/
theorem sort_three (x y z : ℝ) :
    ∃ a b c, [x, y, z].mergeSort (fun a b => decide (b ≤ a)) = [a, b, c] ∧ b ≤ a ∧ c ≤ b
      ∧ [a, b, c].Perm [x, y, z] := by
  have hperm := List.mergeSort_perm [x, y, z] (fun a b => decide (b ≤ a))
  have hsorted : ([x, y, z].mergeSort fun a b => decide (b ≤ a)).Pairwise
      (fun a b => decide (b ≤ a)) := by
    apply List.pairwise_mergeSort
    · intro a b c hab hbc
      exact decide_eq_true (le_trans (of_decide_eq_true hbc) (of_decide_eq_true hab))
    · intro a b
      rw [Bool.or_eq_true, decide_eq_true_eq, decide_eq_true_eq]
      exact le_total b a
  obtain ⟨a, b, c, hl⟩ := List.length_eq_three.mp hperm.length_eq
  rw [hl] at hperm hsorted
  rw [List.pairwise_cons, List.pairwise_cons] at hsorted
  refine ⟨a, b, c, hl, ?_, ?_, hperm⟩
  · exact of_decide_eq_true (hsorted.1 b List.mem_cons_self)
  · exact of_decide_eq_true (hsorted.2.1 c List.mem_cons_self)

/-- The invariants of a diagonal do not depend on its order. -/
theorem eigenvalues_of_perm {a b c : ℝ} (h : [a, b, c].Perm [sxx, syy, szz]) :
    Eigenvalues (tensor sxx syy szz 0 0 0) a b c := by
  have hsum := h.sum_eq
  have hprod := h.prod_eq
  have hsquares := (h.map fun x => x * x).sum_eq
  simp only [List.map_cons, List.map_nil, List.sum_cons, List.sum_nil, List.prod_cons,
    List.prod_nil] at hsum hprod hsquares
  refine ⟨?_, ?_, ?_⟩
  · rw [trace_tensor]
    linarith
  · rw [minors_tensor]
    linear_combination (-(1 / 2 : ℝ)) * (a + b + c + sxx + syy + szz) * hsum + 1 / 2 * hsquares
  · rw [det_tensor]
    linear_combination -hprod

theorem mergeSort_fin (x y z : ℝ) :
    [Value.fin x, .fin y, .fin z].mergeSort (fun a b => !a.lt b)
      = ([x, y, z].mergeSort fun a b => decide (b ≤ a)).map Value.fin := by
  symm
  apply List.map_mergeSort
  intro a _ b _
  rw [Value.lt_fin, ← decide_not, decide_eq_decide, not_lt]

/-- A sum of squares is zero if all of them are. -/
theorem shear_eq_zero (h : sxy * sxy + sxz * sxz + syz * syz = 0) :
    sxy = 0 ∧ sxz = 0 ∧ syz = 0 := by
  have hxy := mul_self_nonneg sxy
  have hxz := mul_self_nonneg sxz
  have hyz := mul_self_nonneg syz
  refine ⟨?_, ?_, ?_⟩
  · exact mul_self_eq_zero.mp (by linarith)
  · exact mul_self_eq_zero.mp (by linarith)
  · exact mul_self_eq_zero.mp (by linarith)

theorem principalStresses_diagonal (sxx syy szz : ℝ) :
    ∃ s1 s2 s3 : ℝ,
      principalStresses (.fin sxx) (.fin syy) (.fin szz) (.fin 0) (.fin 0) (.fin 0)
        = .ok (.fin s1, .fin s2, .fin s3)
      ∧ s2 ≤ s1 ∧ s3 ≤ s2 ∧ Eigenvalues (tensor sxx syy szz 0 0 0) s1 s2 s3 := by
  obtain ⟨a, b, c, hsort, hab, hbc, hperm⟩ := sort_three sxx syy szz
  refine ⟨a, b, c, ?_, hab, hbc, eigenvalues_of_perm hperm⟩
  have hzero : (.fin 0 * .fin 0 + .fin 0 * .fin 0 + .fin 0 * .fin 0 : Value ℝ) = .fin 0 := by
    simp
  rw [principalStresses, if_pos hzero, mergeSort_fin, hsort]
  rfl

/-! ### With shear -/

/-- The mean stress `q` and the deviation `p` of the source. -/
noncomputable def mean (sxx syy szz : ℝ) : ℝ := (sxx + syy + szz) / (3 : ℕ)

noncomputable def deviation (sxx syy szz sxy sxz syz : ℝ) : ℝ :=
  let q := mean sxx syy szz
  Real.sqrt (((sxx - q) * (sxx - q) + (syy - q) * (syy - q) + (szz - q) * (szz - q)
    + (2 : ℕ) * (sxy * sxy + sxz * sxz + syz * syz)) / (6 : ℕ))

/-- The matrix `B` of the source. -/
noncomputable def normalized (sxx syy szz sxy sxz syz : ℝ) : Matrix (Fin 3) (Fin 3) ℝ :=
  let q := mean sxx syy szz
  let p := deviation sxx syy szz sxy sxz syz
  tensor ((sxx - q) / p) ((syy - q) / p) ((szz - q) / p) (sxy / p) (sxz / p) (syz / p)

section Sizes

variable (sxx syy szz)

theorem mean_eq : mean sxx syy szz = (sxx + syy + szz) / 3 := by
  rw [mean, Nat.cast_ofNat]

theorem deviation_eq (sxy sxz syz : ℝ) :
    deviation sxx syy szz sxy sxz syz
      = Real.sqrt (((sxx - mean sxx syy szz) * (sxx - mean sxx syy szz)
          + (syy - mean sxx syy szz) * (syy - mean sxx syy szz)
          + (szz - mean sxx syy szz) * (szz - mean sxx syy szz)
          + 2 * (sxy * sxy + sxz * sxz + syz * syz)) / 6) := by
  rw [deviation, Nat.cast_ofNat, Nat.cast_ofNat]

theorem squares_pos (h : sxy * sxy + sxz * sxz + syz * syz ≠ 0) (q : ℝ) :
    0 < (sxx - q) * (sxx - q) + (syy - q) * (syy - q) + (szz - q) * (szz - q)
      + 2 * (sxy * sxy + sxz * sxz + syz * syz) := by
  have hshear : 0 < sxy * sxy + sxz * sxz + syz * syz := by
    apply lt_of_le_of_ne _ h.symm
    exact add_nonneg (add_nonneg (mul_self_nonneg _) (mul_self_nonneg _)) (mul_self_nonneg _)
  have hx := mul_self_nonneg (sxx - q)
  have hy := mul_self_nonneg (syy - q)
  have hz := mul_self_nonneg (szz - q)
  linarith

theorem deviation_pos (h : sxy * sxy + sxz * sxz + syz * syz ≠ 0) :
    0 < deviation sxx syy szz sxy sxz syz := by
  rw [deviation_eq]
  exact Real.sqrt_pos.mpr (div_pos (squares_pos sxx syy szz h _) (by norm_num))

theorem deviation_sq (h : sxy * sxy + sxz * sxz + syz * syz ≠ 0) :
    6 * (deviation sxx syy szz sxy sxz syz * deviation sxx syy szz sxy sxz syz)
      = (sxx - mean sxx syy szz) * (sxx - mean sxx syy szz)
        + (syy - mean sxx syy szz) * (syy - mean sxx syy szz)
        + (szz - mean sxx syy szz) * (szz - mean sxx syy szz)
        + 2 * (sxy * sxy + sxz * sxz + syz * syz) := by
  rw [deviation_eq, Real.mul_self_sqrt (div_pos (squares_pos sxx syy szz h _) (by norm_num)).le]
  ring

end Sizes

/-- The tensor is `q + p B`. -/
theorem tensor_eq (h : sxy * sxy + sxz * sxz + syz * syz ≠ 0) :
    tensor sxx syy szz sxy sxz syz
      = mean sxx syy szz • 1
        + deviation sxx syy szz sxy sxz syz • normalized sxx syy szz sxy sxz syz := by
  have hp := (deviation_pos sxx syy szz h).ne'
  rw [normalized, tensor_affine]
  congr 1
  all_goals rw [mul_div_cancel₀ _ hp]
  all_goals ring

theorem normalized_isHermitian (sxx syy szz sxy sxz syz : ℝ) :
    (normalized sxx syy szz sxy sxz syz).IsHermitian :=
  tensor_isHermitian _ _ _ _ _ _

theorem trace_normalized : (normalized sxx syy szz sxy sxz syz).trace = 0 := by
  rw [normalized, trace_tensor, mean_eq]
  ring

theorem minors_normalized (h : sxy * sxy + sxz * sxz + syz * syz ≠ 0) :
    minors (normalized sxx syy szz sxy sxz syz) = -3 := by
  have hp := (deviation_pos sxx syy szz h).ne'
  have hsq := deviation_sq sxx syy szz h
  have hmean : 3 * mean sxx syy szz = sxx + syy + szz := by
    rw [mean_eq]
    ring
  rw [normalized, minors_tensor]
  generalize deviation sxx syy szz sxy sxz syz = p at hp hsq
  generalize mean sxx syy szz = q at hmean hsq
  field_simp
  linear_combination (1 / 2 : ℝ) * hsq - (sxx + syy + szz - 3 * q) / 2 * hmean

/-- The steps of the source, with every number in place. -/
theorem principalStresses_of_shear (h : sxy * sxy + sxz * sxz + syz * syz ≠ 0) {r : ℝ}
    (hdet : (normalized sxx syy szz sxy sxz syz).det = 2 * r) (hr : -1 ≤ r ∧ r ≤ 1) {φ : ℝ}
    (hφ : φ = Real.arccos r / 3) :
    principalStresses (.fin sxx) (.fin syy) (.fin szz) (.fin sxy) (.fin sxz) (.fin syz)
      = .ok (.fin (mean sxx syy szz + deviation sxx syy szz sxy sxz syz * (2 * Real.cos φ)),
          .fin (mean sxx syy szz + deviation sxx syy szz sxy sxz syz
            * (-(2 * Real.cos φ) - 2 * Real.cos (φ + 2 * Real.pi / 3))),
          .fin (mean sxx syy szz + deviation sxx syy szz sxy sxz syz
            * (2 * Real.cos (φ + 2 * Real.pi / 3)))) := by
  have hp := (deviation_pos sxx syy szz h).ne'
  have hp2 := (div_pos (squares_pos sxx syy szz h (mean sxx syy szz))
    (by norm_num : (0 : ℝ) < 6)).le
  have hp1 : ((.fin sxy : Value ℝ) * .fin sxy + .fin sxz * .fin sxz + .fin syz * .fin syz)
      = .fin (sxy * sxy + sxz * sxz + syz * syz) := by
    simp only [Value.mul_exact, Value.add_exact]
  have hne : (.fin (sxy * sxy + sxz * sxz + syz * syz) : Value ℝ) ≠ .fin 0 := fun heq =>
    h (Value.fin.inj heq)
  have hq : divide (.fin sxx + .fin syy + .fin szz) (.fin (3 : ℕ))
      = .ok (.fin (mean sxx syy szz)) := by
    rw [Value.add_exact, Value.add_exact, Nat.cast_ofNat, divide_fin _ three_ne_zero, mean_eq]
  have hsquare : ∀ x : ℝ, square (.fin x - .fin (mean sxx syy szz))
      = .ok (.fin ((x - mean sxx syy szz) * (x - mean sxx syy szz))) := by
    intro x
    rw [Value.sub_exact, square_fin]
  have hsqrt := sqrt_fin hp2
  rw [← deviation_eq] at hsqrt
  have hb : ∀ x : ℝ, divide (.fin x) (.fin (deviation sxx syy szz sxy sxz syz))
      = .ok (.fin (x / deviation sxx syy szz sxy sxz syz)) := fun x => divide_fin x hp
  have hdev : ∀ x : ℝ, divide (.fin x - .fin (mean sxx syy szz))
        (.fin (deviation sxx syy szz sxy sxz syz))
      = .ok (.fin ((x - mean sxx syy szz) / deviation sxx syy szz sxy sxz syz)) := by
    intro x
    rw [Value.sub_exact, hb]
  have hturned : cos (.fin φ + .fin (2 * Real.pi / 3))
      = .ok (.fin (Real.cos (φ + 2 * Real.pi / 3))) := by
    rw [Value.add_exact, cos_fin]
  rw [normalized, det_tensor] at hdet
  rw [principalStresses, hp1, if_neg hne]
  refine bind_eq_ok.mpr ⟨_, hq, ?_⟩
  refine bind_eq_ok.mpr ⟨_, hsquare sxx, ?_⟩
  refine bind_eq_ok.mpr ⟨_, hsquare syy, ?_⟩
  refine bind_eq_ok.mpr ⟨_, hsquare szz, ?_⟩
  simp only [Value.add_exact, Value.mul_exact, Nat.cast_ofNat]
  refine bind_eq_ok.mpr ⟨_, divide_fin _ (by norm_num), ?_⟩
  refine bind_eq_ok.mpr ⟨_, hsqrt, ?_⟩
  refine bind_eq_ok.mpr ⟨_, hdev sxx, ?_⟩
  refine bind_eq_ok.mpr ⟨_, hdev syy, ?_⟩
  refine bind_eq_ok.mpr ⟨_, hdev szz, ?_⟩
  refine bind_eq_ok.mpr ⟨_, hb sxy, ?_⟩
  refine bind_eq_ok.mpr ⟨_, hb sxz, ?_⟩
  refine bind_eq_ok.mpr ⟨_, hb syz, ?_⟩
  -- what is left is half the determinant and its angle
  simp only [Value.add_exact, Value.mul_exact, Value.sub_exact, hdet]
  refine bind_eq_ok.mpr ⟨_, divide_fin _ two_ne_zero, ?_⟩
  rw [mul_div_cancel_left₀ r two_ne_zero, clamp_fin hr]
  refine bind_eq_ok.mpr ⟨_, acos_fin hr, ?_⟩
  refine bind_eq_ok.mpr ⟨_, divide_fin _ three_ne_zero, ?_⟩
  rw [← hφ, Value.round_exact, Value.mul_exact]
  refine bind_eq_ok.mpr ⟨_, cos_fin φ, ?_⟩
  refine bind_eq_ok.mpr ⟨_, divide_fin _ three_ne_zero, ?_⟩
  refine bind_eq_ok.mpr ⟨_, hturned, ?_⟩
  simp only [Value.add_exact, Value.mul_exact, Value.sub_exact]
  refine congrArg Except.ok (Prod.ext ?_ (Prod.ext ?_ ?_))
  all_goals refine congrArg Value.fin ?_
  all_goals ring

/-! ### All tensors -/

/-- Three principal stresses, in order, with the invariants of the tensor. -/
theorem principalStresses_fin (sxx syy szz sxy sxz syz : ℝ) :
    ∃ s1 s2 s3 : ℝ,
      principalStresses (.fin sxx) (.fin syy) (.fin szz) (.fin sxy) (.fin sxz) (.fin syz)
        = .ok (.fin s1, .fin s2, .fin s3)
      ∧ s2 ≤ s1 ∧ s3 ≤ s2 ∧ Eigenvalues (tensor sxx syy szz sxy sxz syz) s1 s2 s3 := by
  by_cases h : sxy * sxy + sxz * sxz + syz * syz = 0
  · obtain ⟨rfl, rfl, rfl⟩ := shear_eq_zero h
    exact principalStresses_diagonal sxx syy szz
  · have hp := deviation_pos sxx syy szz h
    obtain ⟨x, y, z, hb⟩ := SymmetricEigenvalues.exists_eigenvalues
      (normalized_isHermitian sxx syy szz sxy sxz syz)
    obtain ⟨r, hdet⟩ : ∃ r, (normalized sxx syy szz sxy sxz syz).det = 2 * r :=
      ⟨(normalized sxx syy szz sxy sxz syz).det / 2, by ring⟩
    have hr := SymmetricEigenvalues.mem_Icc_of_eigenvalues hb trace_normalized
      (minors_normalized h) hdet
    obtain ⟨hsin, hcos⟩ := SymmetricEigenvalues.arccos_div_three r
    have hφ : Real.cos (3 * (Real.arccos r / 3)) = r := by
      rw [mul_div_cancel₀ _ three_ne_zero, Real.cos_arccos hr.1 hr.2]
    refine ⟨_, _, _, principalStresses_of_shear h hdet hr rfl, ?_, ?_, ?_⟩
    · gcongr
      exact SymmetricEigenvalues.cosines_first hcos
    · gcongr
      exact SymmetricEigenvalues.cosines_last hsin
    · rw [tensor_eq h]
      exact (SymmetricEigenvalues.eigenvalues_cosines trace_normalized (minors_normalized h)
        hdet hφ).affine _ _

end Tensors

open Polynomial in
/-- The principal stresses are the eigenvalues of the tensor, with multiplicity
and in descending order, and give its von Mises stress. -/
theorem principalStresses_eigenvalues (sxx syy szz sxy sxz syz : ℝ) :
    ∃ s1 s2 s3 : ℝ,
      principalStresses (.fin sxx) (.fin syy) (.fin szz) (.fin sxy) (.fin sxz) (.fin syz)
        = .ok (.fin s1, .fin s2, .fin s3)
      ∧ s1 ≥ s2 ∧ s2 ≥ s3
      ∧ (tensor sxx syy szz sxy sxz syz).charpoly = (X - C s1) * (X - C s2) * (X - C s3)
      ∧ Eigenvalues (tensor sxx syy szz sxy sxz syz) s1 s2 s3
      ∧ vonMisesPrincipal (.fin s1, .fin s2, .fin s3)
        = .fin (vonMises sxx syy szz sxy sxz syz) := by
  obtain ⟨s1, s2, s3, hok, h12, h23, heigen⟩ := principalStresses_fin sxx syy szz sxy sxz syz
  exact ⟨s1, s2, s3, hok, h12, h23, heigen.charpoly_eq, heigen, vonMisesPrincipal_eq heigen⟩

end FeaResults

end Feldspar

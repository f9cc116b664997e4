/-
Feldspar/StressRange.lean

When the reduction of a stress row raises, and when it stays in range.

`Components` has the quantities of `_principal_stresses` with an arithmetic
that never raises.  The source raises where a deviator is a number and its
power with `2` is none, or where the norm is zero (`Raises`); elsewhere it
gives these quantities (`principalStresses_eq`).  What is not a number is
never made one again on the way to the von Mises stress, so this is a number
exactly in range (`vonMises_isNumber_iff`).
-/
import Feldspar.PrincipalStresses
import Feldspar.Lib.Fallible

namespace Feldspar

namespace FeaResults

open FloatValue (Value Rounding)

/-- The six components of a row. -/
structure Components where
  sxx : Value ℝ
  syy : Value ℝ
  szz : Value ℝ
  sxy : Value ℝ
  sxz : Value ℝ
  syz : Value ℝ

namespace Components

noncomputable section Quantities

variable [Rounding ℝ] (s : Components)

def shear : Value ℝ := s.sxy * s.sxy + s.sxz * s.sxz + s.syz * s.syz

def mean : Value ℝ := (s.sxx + s.syy + s.szz) / .fin (3 : ℕ)

def deviators : List (Value ℝ) := [s.sxx - s.mean, s.syy - s.mean, s.szz - s.mean]

def squares : Value ℝ :=
  (s.sxx - s.mean) * (s.sxx - s.mean) + (s.syy - s.mean) * (s.syy - s.mean)
    + (s.szz - s.mean) * (s.szz - s.mean) + .fin (2 : ℕ) * s.shear

def norm : Value ℝ := root (s.squares / .fin (6 : ℕ))

/-- Half the determinant of the normalized tensor. -/
def halfDet : Value ℝ :=
  let b11 := (s.sxx - s.mean) / s.norm
  let b22 := (s.syy - s.mean) / s.norm
  let b33 := (s.szz - s.mean) / s.norm
  let b12 := s.sxy / s.norm
  let b13 := s.sxz / s.norm
  let b23 := s.syz / s.norm
  (b11 * (b22 * b33 - b23 * b23) - b12 * (b12 * b33 - b23 * b13)
    + b13 * (b12 * b23 - b22 * b13)) / .fin (2 : ℕ)

def arccosine : Value ℝ → Value ℝ
  | .fin x => .round (Real.arccos x)
  | _ => .nan

def cosine : Value ℝ → Value ℝ
  | .fin x => .round (Real.cos x)
  | _ => .nan

def angle : Value ℝ := arccosine (pyMax (.fin (-1)) (pyMin (.fin 1) s.halfDet)) / .fin (3 : ℕ)

def thirdTurn : Value ℝ := .fin (2 : ℕ) * .round Real.pi / .fin (3 : ℕ)

def first : Value ℝ := s.mean + .fin (2 : ℕ) * s.norm * cosine s.angle

def third : Value ℝ := s.mean + .fin (2 : ℕ) * s.norm * cosine (s.angle + thirdTurn)

def second : Value ℝ := .fin (3 : ℕ) * s.mean - s.first - s.third

/-- The diagonal in descending order. -/
def sorted : Triple :=
  match [s.sxx, s.syy, s.szz].mergeSort fun a b => !a.lt b with
  | [s1, s2, s3] => (s1, s2, s3)
  | _ => (s.sxx, s.syy, s.szz)

def principal : Triple :=
  if s.shear = .fin 0 then s.sorted else (s.first, s.second, s.third)

/-- A power of a deviator overflows, or the norm is zero. -/
def Raises : Prop :=
  s.shear ≠ .fin 0
    ∧ ((∃ d ∈ s.deviators, d.IsNumber ∧ ¬ (d * d).IsNumber) ∨ s.norm = .fin 0)

/-- Neither the squares that the norm is the root of nor those that the von
Mises stress is the root of overflow, and the norm does not underflow. -/
structure InRange : Prop where
  squares : s.shear ≠ .fin 0 → s.squares.IsNumber
  norm : s.shear ≠ .fin 0 → s.norm ≠ .fin 0
  spread : (squaredVonMises s.principal).IsNumber

end Quantities

end Components

/-! ### Single operations -/

section Operations

variable [Rounding ℝ] {v : Value ℝ}

theorem divide_eq (x : Value ℝ) {y : Value ℝ} (h : y ≠ .fin 0) : divide x y = .ok (x / y) :=
  if_neg h

theorem divide_number (x : Value ℝ) {y : ℝ} (h : y ≠ 0) : divide x (.fin y) = .ok (x / .fin y) :=
  divide_eq x fun heq => h (Value.fin.inj heq)

theorem ne_zero_of_divide {x y z : Value ℝ} (h : divide x y = .ok z) : y ≠ .fin 0 := by
  rintro rfl
  rw [divide, if_pos rfl] at h
  cases h

/-- A power of two raises only for a number. -/
theorem square_eq (h : v.IsNumber → (v * v).IsNumber) : square v = .ok (v * v) := by
  cases v with
  | fin x =>
      obtain ⟨y, hy⟩ := h (Value.isNumber_fin x)
      rw [Value.mul_fin] at hy ⊢
      rw [square, hy]
  | inf n =>
      show (Except.ok (.inf false) : Except PyError (Value ℝ)) = .ok (.inf (xor n n))
      rw [Bool.xor_self]
  | nan => rfl

theorem isNumber_of_square {w : Value ℝ} (h : square v = .ok w) (hv : v.IsNumber) :
    (v * v).IsNumber := by
  obtain ⟨x, rfl⟩ := hv
  rw [Value.mul_fin]
  rw [square] at h
  rcases hround : (Value.round (x * x) : Value ℝ) with y | n | _
  · exact Value.isNumber_fin y
  · rw [hround] at h
    cases h
  · rw [Value.round] at hround
    split at hround <;> cases hround

theorem sqrt_eq (h : v.NotNegative) : sqrt v = .ok (root v) := by
  cases v with
  | fin x => exact if_neg (not_lt.mpr h)
  | inf n =>
      obtain rfl : n = false := h
      rfl
  | nan => rfl

theorem isNumber_of_root (h : (root v).IsNumber) : v.IsNumber := by
  cases v with
  | fin x => exact Value.isNumber_fin x
  | inf n => exact absurd h (Value.not_isNumber_inf _)
  | nan => exact h

end Operations

/-! ### The angle -/

/-- The clamp makes a cosine of every value. -/
theorem clamp_total (v : Value ℝ) :
    ∃ x, pyMax (.fin (-1)) (pyMin (.fin 1) v) = .fin x ∧ -1 ≤ x ∧ x ≤ 1 := by
  have hone : pyMax (.fin (-1)) (.fin 1 : Value ℝ) = .fin 1 := by
    rw [pyMax, Value.lt_fin, decide_eq_true (by norm_num), if_pos rfl]
  have hneg : ∀ x : ℝ, x ≤ 1 → ∃ y, pyMax (.fin (-1)) (.fin x) = .fin y ∧ -1 ≤ y ∧ y ≤ 1 := by
    intro x hx
    by_cases hlt : -1 < x
    · exact ⟨x, by rw [pyMax, Value.lt_fin, decide_eq_true hlt, if_pos rfl], hlt.le, hx⟩
    · refine ⟨-1, ?_, le_rfl, by norm_num⟩
      rw [pyMax, Value.lt_fin, decide_eq_false hlt]
      rfl
  cases v with
  | fin x =>
      by_cases hlt : x < 1
      · rw [pyMin, Value.lt_fin, decide_eq_true hlt, if_pos rfl]
        exact hneg x hlt.le
      · rw [pyMin, Value.lt_fin, decide_eq_false hlt]
        exact hneg 1 le_rfl
  | inf n =>
      cases n with
      | true => exact ⟨-1, rfl, le_rfl, by norm_num⟩
      | false => exact ⟨1, hone, by norm_num, le_rfl⟩
  | nan => exact ⟨1, hone, by norm_num, le_rfl⟩

section Angle

variable [Rounding ℝ]

theorem lt_limit {a : ℝ} (h : a < 64) : (a : WithTop ℝ) < Rounding.limit := by
  refine lt_of_lt_of_le (WithTop.coe_lt_coe.mpr ?_) Rounding.le_limit
  rw [Nat.cast_ofNat]
  exact h

/-- What `math.acos` gives is an angle of at most `8`, rounding included. -/
theorem acos_clamp (v : Value ℝ) :
    acos (pyMax (.fin (-1)) (pyMin (.fin 1) v))
        = .ok (Components.arccosine (pyMax (.fin (-1)) (pyMin (.fin 1) v)))
      ∧ (Components.arccosine (pyMax (.fin (-1)) (pyMin (.fin 1) v))).Within 8 := by
  obtain ⟨x, hx, hcos⟩ := clamp_total v
  rw [hx]
  refine ⟨if_pos hcos, ?_⟩
  have hle : |Real.arccos x| ≤ 4 := by
    rw [abs_of_nonneg (Real.arccos_nonneg x)]
    exact (Real.arccos_le_pi x).trans Real.pi_le_four
  obtain ⟨y, hy, hyle⟩ := Value.within_round hle (lt_limit (by norm_num))
  exact ⟨y, hy, hyle.trans (by norm_num)⟩

theorem angle_within (s : Components) : s.angle.Within 6 := by
  obtain ⟨y, hy, hyle⟩ := (acos_clamp s.halfDet).2.div (y := ((3 : ℕ) : ℝ)) (by norm_num)
    (lt_limit (by norm_num))
  exact ⟨y, hy, hyle.trans (by norm_num)⟩

theorem thirdTurn_within : Components.thirdTurn.Within 22 := by
  have hpi : |Real.pi| ≤ 4 := by
    rw [abs_of_pos Real.pi_pos]
    exact Real.pi_le_four
  have htwo : (.fin ((2 : ℕ) : ℝ) : Value ℝ).Within 2 := ⟨_, rfl, by norm_num⟩
  have hdouble := htwo.mul (Value.within_round hpi (lt_limit (by norm_num)))
    (lt_limit (by norm_num))
  obtain ⟨y, hy, hyle⟩ := hdouble.div (y := ((3 : ℕ) : ℝ)) (by norm_num)
    (lt_limit (by norm_num))
  exact ⟨y, hy, hyle.trans (by norm_num)⟩

theorem turned_isNumber (s : Components) : (s.angle + Components.thirdTurn).IsNumber :=
  ((angle_within s).add thirdTurn_within (lt_limit (by norm_num))).isNumber

theorem cos_eq {v : Value ℝ} (h : v.IsNumber) : cos v = .ok (Components.cosine v) := by
  obtain ⟨x, rfl⟩ := h
  rfl

theorem cosine_within {v : Value ℝ} (h : v.IsNumber) : (Components.cosine v).Within 2 := by
  obtain ⟨x, rfl⟩ := h
  obtain ⟨y, hy, hyle⟩ := Value.within_round (Real.abs_cos_le_one x) (lt_limit (by norm_num))
  exact ⟨y, hy, hyle.trans (by norm_num)⟩

end Angle

/-! ### The reduction -/

section Reduction

variable [Rounding ℝ] (s : Components)

theorem notNegative_shear : s.shear.NotNegative :=
  ((Value.notNegative_mul_self s.sxy).add (Value.notNegative_mul_self s.sxz)).add
    (Value.notNegative_mul_self s.syz)

theorem notNegative_squares : s.squares.NotNegative :=
  (((Value.notNegative_mul_self _).add (Value.notNegative_mul_self _)).add
    (Value.notNegative_mul_self _)).add ((notNegative_shear s).mul_fin (by norm_num))

omit [Rounding ℝ] in
theorem sorted_eq : ∃ s1 s2 s3, [s.sxx, s.syy, s.szz].mergeSort (fun a b => !a.lt b) = [s1, s2, s3]
    ∧ s.sorted = (s1, s2, s3) := by
  obtain ⟨s1, s2, s3, h⟩ := List.length_eq_three.mp
    (List.mergeSort_perm [s.sxx, s.syy, s.szz] fun a b => !a.lt b).length_eq
  refine ⟨s1, s2, s3, h, ?_⟩
  rw [Components.sorted, h]

variable {s}

/-- Where the source does not raise, it gives the quantities of the row. -/
theorem principalStresses_eq (h : ¬ s.Raises) :
    principalStresses s.sxx s.syy s.szz s.sxy s.sxz s.syz = .ok s.principal := by
  by_cases hshear : s.shear = .fin 0
  · obtain ⟨s1, s2, s3, hsort, hsorted⟩ := sorted_eq s
    rw [Components.principal, if_pos hshear, hsorted]
    rw [Components.shear] at hshear
    rw [principalStresses, if_pos hshear, hsort]
    rfl
  · have hsquare : ∀ d ∈ s.deviators, square d = .ok (d * d) := by
      intro d hd
      apply square_eq
      intro hnumber
      by_contra hnot
      exact h ⟨hshear, .inl ⟨d, hd, hnumber, hnot⟩⟩
    have hnorm : s.norm ≠ .fin 0 := fun hzero => h ⟨hshear, .inr hzero⟩
    have hxx := hsquare (s.sxx - s.mean) (by simp [Components.deviators])
    have hyy := hsquare (s.syy - s.mean) (by simp [Components.deviators])
    have hzz := hsquare (s.szz - s.mean) (by simp [Components.deviators])
    have hsqrt : sqrt (s.squares / .fin (6 : ℕ)) = .ok s.norm :=
      sqrt_eq ((notNegative_squares s).div_fin (by norm_num))
    have hacos := (acos_clamp s.halfDet).1
    have hcos : cos s.angle = .ok (Components.cosine s.angle) :=
      cos_eq (angle_within s).isNumber
    have hturned := cos_eq (turned_isNumber s)
    rw [Components.principal, if_neg hshear]
    rw [Components.shear] at hshear
    rw [principalStresses, if_neg hshear]
    refine Fallible.bind_eq_ok.mpr ⟨_, divide_number _ (by norm_num), ?_⟩
    refine Fallible.bind_eq_ok.mpr ⟨_, hxx, ?_⟩
    refine Fallible.bind_eq_ok.mpr ⟨_, hyy, ?_⟩
    refine Fallible.bind_eq_ok.mpr ⟨_, hzz, ?_⟩
    refine Fallible.bind_eq_ok.mpr ⟨_, divide_number _ (by norm_num), ?_⟩
    refine Fallible.bind_eq_ok.mpr ⟨_, hsqrt, ?_⟩
    refine Fallible.bind_eq_ok.mpr ⟨_, divide_eq _ hnorm, ?_⟩
    refine Fallible.bind_eq_ok.mpr ⟨_, divide_eq _ hnorm, ?_⟩
    refine Fallible.bind_eq_ok.mpr ⟨_, divide_eq _ hnorm, ?_⟩
    refine Fallible.bind_eq_ok.mpr ⟨_, divide_eq _ hnorm, ?_⟩
    refine Fallible.bind_eq_ok.mpr ⟨_, divide_eq _ hnorm, ?_⟩
    refine Fallible.bind_eq_ok.mpr ⟨_, divide_eq _ hnorm, ?_⟩
    refine Fallible.bind_eq_ok.mpr ⟨_, divide_number _ (by norm_num), ?_⟩
    refine Fallible.bind_eq_ok.mpr ⟨_, hacos, ?_⟩
    refine Fallible.bind_eq_ok.mpr ⟨_, divide_number _ (by norm_num), ?_⟩
    refine Fallible.bind_eq_ok.mpr ⟨_, hcos, ?_⟩
    refine Fallible.bind_eq_ok.mpr ⟨_, divide_number _ (by norm_num), ?_⟩
    refine Fallible.bind_eq_ok.mpr ⟨_, hturned, ?_⟩
    rfl

/-- Where it gives anything, the source does not raise. -/
theorem not_raises_of_eq_ok {principal : Triple}
    (h : principalStresses s.sxx s.syy s.szz s.sxy s.sxz s.syz = .ok principal) :
    ¬ s.Raises := by
  rintro ⟨hshear, hraises⟩
  rw [Components.shear] at hshear
  rw [principalStresses, if_neg hshear] at h
  obtain ⟨q, hq, h⟩ := Fallible.bind_eq_ok.mp h
  obtain rfl : s.mean = q :=
    Except.ok.inj ((divide_number _ (by norm_num)).symm.trans hq)
  obtain ⟨x, hx, h⟩ := Fallible.bind_eq_ok.mp h
  obtain ⟨y, hy, h⟩ := Fallible.bind_eq_ok.mp h
  obtain ⟨z, hz, h⟩ := Fallible.bind_eq_ok.mp h
  have hsquare : ∀ d ∈ s.deviators, d.IsNumber → (d * d).IsNumber := by
    intro d hd
    simp only [Components.deviators, List.mem_cons, List.not_mem_nil, or_false] at hd
    rcases hd with rfl | rfl | rfl
    · exact isNumber_of_square hx
    · exact isNumber_of_square hy
    · exact isNumber_of_square hz
  rcases hraises with ⟨d, hd, hnumber, hnot⟩ | hzero
  · exact hnot (hsquare d hd hnumber)
  · obtain rfl : _ = x := Except.ok.inj ((square_eq (hsquare _ (by simp [Components.deviators]))).symm.trans hx)
    obtain rfl : _ = y := Except.ok.inj ((square_eq (hsquare _ (by simp [Components.deviators]))).symm.trans hy)
    obtain rfl : _ = z := Except.ok.inj ((square_eq (hsquare _ (by simp [Components.deviators]))).symm.trans hz)
    obtain ⟨u, hu, h⟩ := Fallible.bind_eq_ok.mp h
    obtain rfl : s.squares / .fin (6 : ℕ) = u :=
      Except.ok.inj ((divide_number _ (by norm_num)).symm.trans hu)
    obtain ⟨p, hp, h⟩ := Fallible.bind_eq_ok.mp h
    obtain rfl : s.norm = p := by
      have hroot := sqrt_eq ((notNegative_squares s).div_fin (x := ((6 : ℕ) : ℝ)) (by norm_num))
      exact Except.ok.inj (hroot.symm.trans hp)
    obtain ⟨b, hb, -⟩ := Fallible.bind_eq_ok.mp h
    exact ne_zero_of_divide hb hzero

end Reduction

/-! ### The range -/

section Range

variable [Rounding ℝ]

/-- The root of a number that came out of an operation does not overflow. -/
theorem isNumber_root_round {x : ℝ} (hx : 0 ≤ x) (h : (Value.round x).IsNumber) :
    (root (.round x)).IsNumber := by
  rw [Value.round] at h ⊢
  split at h
  · rename_i hlt
    rw [if_pos hlt]
    have hnearest : Rounding.nearest x ≤ 2 * x := by
      have hle := Rounding.abs_nearest_le x
      rw [abs_of_nonneg (Rounding.nearest_nonneg x hx), abs_of_nonneg hx, Nat.cast_two] at hle
      exact hle
    rw [abs_of_nonneg hx] at hlt
    have hsqrt : (Real.sqrt (Rounding.nearest x) : WithTop ℝ) < Rounding.limit := by
      rcases le_total x 2 with hle | hle
      · apply lt_limit
        calc Real.sqrt (Rounding.nearest x) ≤ Real.sqrt (2 ^ 2) := Real.sqrt_le_sqrt (by linarith)
          _ = 2 := Real.sqrt_sq (by norm_num)
          _ < 64 := by norm_num
      · refine lt_of_le_of_lt (WithTop.coe_le_coe.mpr ?_) hlt
        calc Real.sqrt (Rounding.nearest x) ≤ Real.sqrt (x ^ 2) := Real.sqrt_le_sqrt (by nlinarith)
          _ = x := Real.sqrt_sq hx
    refine ⟨_, Value.round_fin ?_⟩
    rw [abs_of_nonneg (Real.sqrt_nonneg _)]
    exact hsqrt
  · exact absurd h (Value.not_isNumber_inf _)

theorem notNegative_spread (t : Triple) :
    ((t.1 - t.2.1) * (t.1 - t.2.1) + (t.2.1 - t.2.2) * (t.2.1 - t.2.2)
      + (t.2.2 - t.1) * (t.2.2 - t.1)).NotNegative :=
  ((Value.notNegative_mul_self _).add (Value.notNegative_mul_self _)).add
    (Value.notNegative_mul_self _)

theorem vonMises_isNumber_iff (t : Triple) :
    (vonMisesPrincipal t).IsNumber ↔ (squaredVonMises t).IsNumber := by
  refine ⟨isNumber_of_root, fun h => ?_⟩
  obtain ⟨x, hx⟩ := (Value.IsNumber.of_mul h).2
  have hpos := notNegative_spread t
  rw [hx] at hpos
  rw [vonMisesPrincipal]
  rw [squaredVonMises, hx, Value.mul_fin] at h ⊢
  exact isNumber_root_round (mul_nonneg (by norm_num) hpos) h

theorem squaredMagnitude_isNumber_iff (u : Triple) :
    (magnitude u).IsNumber ↔ (squaredMagnitude u).IsNumber := by
  refine ⟨isNumber_of_root, fun h => ?_⟩
  have hxy := (Value.notNegative_mul_self u.1).add (Value.notNegative_mul_self u.2.1)
  have hz := Value.notNegative_mul_self u.2.2
  obtain ⟨⟨x, hx⟩, ⟨y, hy⟩⟩ := Value.IsNumber.of_add h
  rw [hx] at hxy
  rw [hy] at hz
  rw [magnitude]
  rw [squaredMagnitude, hx, hy, Value.add_fin] at h ⊢
  exact isNumber_root_round (add_nonneg hxy hz) h

namespace Components

variable {s : Components}

theorem isNumber_deviator_squares (h : s.squares.IsNumber) : ∀ d ∈ s.deviators, (d * d).IsNumber := by
  have hsum := (Value.IsNumber.of_add h).1
  have hzz := (Value.IsNumber.of_add hsum).2
  have hxx := (Value.IsNumber.of_add (Value.IsNumber.of_add hsum).1).1
  have hyy := (Value.IsNumber.of_add (Value.IsNumber.of_add hsum).1).2
  intro d hd
  simp only [deviators, List.mem_cons, List.not_mem_nil, or_false] at hd
  rcases hd with rfl | rfl | rfl
  · exact hxx
  · exact hyy
  · exact hzz

theorem InRange.not_raises (h : s.InRange) : ¬ s.Raises := by
  rintro ⟨hshear, ⟨d, hd, -, hnot⟩ | hzero⟩
  · exact hnot (isNumber_deviator_squares (h.squares hshear) d hd)
  · exact h.norm hshear hzero

/-- The von Mises stress of a row is a number exactly in range. -/
theorem inRange_iff :
    s.InRange ↔ ∃ principal,
      principalStresses s.sxx s.syy s.szz s.sxy s.sxz s.syz = .ok principal
        ∧ (vonMisesPrincipal principal).IsNumber := by
  constructor
  · intro h
    exact ⟨s.principal, principalStresses_eq h.not_raises, (vonMises_isNumber_iff _).mpr h.spread⟩
  · rintro ⟨principal, hok, hnumber⟩
    have hraises := not_raises_of_eq_ok hok
    obtain rfl : s.principal = principal :=
      Except.ok.inj ((principalStresses_eq hraises).symm.trans hok)
    have hspread := (vonMises_isNumber_iff _).mp hnumber
    refine ⟨fun hshear => ?_, fun hshear hzero => hraises ⟨hshear, .inr hzero⟩, hspread⟩
    -- the norm is a factor of the first principal stress
    rw [principal, if_neg hshear] at hspread
    have hsum := (Value.IsNumber.of_mul hspread).2
    have hdifference := (Value.IsNumber.of_add (Value.IsNumber.of_add hsum).1).1
    have hfirst : s.first.IsNumber := (Value.IsNumber.of_sub (Value.IsNumber.of_mul hdifference).1).1
    have hnorm := (Value.IsNumber.of_mul (Value.IsNumber.of_mul
      (Value.IsNumber.of_add hfirst).2).1).2
    exact (isNumber_of_root hnorm).of_div

end Components

end Range

/-! ### Rows of moderate size -/

/-- The six numbers of a row. -/
structure Stress where
  sxx : ℝ
  syy : ℝ
  szz : ℝ
  sxy : ℝ
  sxz : ℝ
  syz : ℝ

def Stress.components (s : Stress) : Components where
  sxx := .fin s.sxx
  syy := .fin s.syy
  szz := .fin s.szz
  sxy := .fin s.sxy
  sxz := .fin s.sxz
  syz := .fin s.syz

section Moderate

variable [Rounding ℝ]

/-- A bound whose square is far from the limit, and a shear, if there is one,
whose square is far from being lost. -/
structure Stress.Moderate (s : Stress) : Prop where
  below : ∃ bound : ℝ, ((2 ^ 40 * bound ^ 2 : ℝ) : WithTop ℝ) < Rounding.limit
    ∧ ∀ c ∈ [s.sxx, s.syy, s.szz, s.sxy, s.sxz, s.syz], |c| ≤ bound
  above : (∀ c ∈ [s.sxy, s.sxz, s.syz], c = 0)
    ∨ ∃ c ∈ [s.sxy, s.sxz, s.syz], c ≠ 0 ∧ 2 ^ 8 * Rounding.tiny ≤ c ^ 2

/-- Multiples of `scale` up to the `top`-fold are below the limit. -/
def Scale (scale top : ℝ) : Prop :=
  0 ≤ scale ∧ ∀ k ≤ top, ((k * scale : ℝ) : WithTop ℝ) < Rounding.limit

namespace Scale

variable {scale top k l m c : ℝ} {v w : Value ℝ}

theorem add (h : Scale scale top) (hv : v.Within (k * scale)) (hw : w.Within (l * scale))
    (hk : k + l ≤ top) (hm : 2 * (k + l) ≤ m) : (v + w).Within (m * scale) := by
  obtain ⟨x, hx, hle⟩ := hv.add hw (by rw [← add_mul]; exact h.2 _ hk)
  refine ⟨x, hx, hle.trans ?_⟩
  rw [← add_mul, ← mul_assoc, Nat.cast_two]
  exact mul_le_mul_of_nonneg_right hm h.1

theorem sub (h : Scale scale top) (hv : v.Within (k * scale)) (hw : w.Within (l * scale))
    (hk : k + l ≤ top) (hm : 2 * (k + l) ≤ m) : (v - w).Within (m * scale) := by
  refine h.add hv ?_ hk hm
  obtain ⟨y, rfl, hy⟩ := hw
  exact ⟨-y, rfl, (abs_neg y).trans_le hy⟩

/-- A product with a value that is at most `c`. -/
theorem mul (h : Scale scale top) (hv : v.Within (k * scale)) (hw : w.Within c)
    (hk : k * c ≤ top) (hm : 2 * (k * c) ≤ m) : (v * w).Within (m * scale) := by
  have heq : k * scale * c = k * c * scale := by ring
  obtain ⟨x, hx, hle⟩ := hv.mul hw (by rw [heq]; exact h.2 _ hk)
  refine ⟨x, hx, hle.trans ?_⟩
  rw [heq, ← mul_assoc, Nat.cast_two]
  exact mul_le_mul_of_nonneg_right hm h.1

theorem mul_left (h : Scale scale top) (hv : v.Within (k * scale)) (hw : w.Within c)
    (hk : k * c ≤ top) (hm : 2 * (k * c) ≤ m) : (w * v).Within (m * scale) := by
  have heq : c * (k * scale) = k * c * scale := by ring
  obtain ⟨x, hx, hle⟩ := hw.mul hv (by rw [heq]; exact h.2 _ hk)
  refine ⟨x, hx, hle.trans ?_⟩
  rw [heq, ← mul_assoc, Nat.cast_two]
  exact mul_le_mul_of_nonneg_right hm h.1

theorem div (h : Scale scale top) (hv : v.Within (k * scale)) (hc : 0 < c) (hk : k / c ≤ top)
    (hm : 2 * (k / c) ≤ m) : (v / .fin c).Within (m * scale) := by
  have heq : k * scale / c = k / c * scale := by ring
  obtain ⟨x, hx, hle⟩ := hv.div hc (by rw [heq]; exact h.2 _ hk)
  refine ⟨x, hx, hle.trans ?_⟩
  rw [heq, ← mul_assoc, Nat.cast_two]
  exact mul_le_mul_of_nonneg_right hm h.1

/-- A product of two values at one scale is at its square. -/
theorem product {top' : ℝ} (h : Scale (scale ^ 2) top') (hv : v.Within (k * scale))
    (hw : w.Within (l * scale)) (hk : k * l ≤ top') (hm : 2 * (k * l) ≤ m) :
    (v * w).Within (m * scale ^ 2) := by
  have heq : k * scale * (l * scale) = k * l * scale ^ 2 := by ring
  obtain ⟨x, hx, hle⟩ := hv.mul hw (by rw [heq]; exact h.2 _ hk)
  refine ⟨x, hx, hle.trans ?_⟩
  rw [heq, ← mul_assoc, Nat.cast_two]
  exact mul_le_mul_of_nonneg_right hm h.1

theorem root (h : Scale scale top) (hv : v.Within (k ^ 2 * scale ^ 2)) (hk : 0 ≤ k)
    (htop : k ≤ top) (hm : 2 * k ≤ m) : (root v).Within (m * scale) := by
  obtain ⟨x, rfl, hx⟩ := hv
  have hsqrt : |Real.sqrt x| ≤ k * scale := by
    rw [abs_of_nonneg (Real.sqrt_nonneg x)]
    apply Real.sqrt_le_iff.mpr
    refine ⟨mul_nonneg hk h.1, ?_⟩
    rw [mul_pow]
    exact (le_abs_self x).trans hx
  obtain ⟨y, hy, hle⟩ := Value.within_round hsqrt (h.2 k htop)
  refine ⟨y, hy, hle.trans ?_⟩
  rw [← mul_assoc, Nat.cast_two]
  exact mul_le_mul_of_nonneg_right hm h.1

end Scale

/-- The bound of a moderate row is a scale, and so is its square. -/
theorem scales {bound : ℝ} (hpos : 0 ≤ bound)
    (h : ((2 ^ 40 * bound ^ 2 : ℝ) : WithTop ℝ) < Rounding.limit) :
    Scale bound (2 ^ 20) ∧ Scale (bound ^ 2) (2 ^ 40) := by
  refine ⟨⟨hpos, fun k hk => ?_⟩, ⟨sq_nonneg bound, fun k hk => ?_⟩⟩
  · have hle : k * bound ≤ 2 ^ 20 * bound := mul_le_mul_of_nonneg_right hk hpos
    rcases le_total (2 ^ 20 * bound) 1 with hone | hone
    · exact lt_limit (by linarith)
    · refine lt_of_le_of_lt (WithTop.coe_le_coe.mpr ?_) h
      nlinarith
  · refine lt_of_le_of_lt (WithTop.coe_le_coe.mpr ?_) h
    exact mul_le_mul_of_nonneg_right hk (sq_nonneg bound)

section Bounded

variable {s : Stress} {bound : ℝ} (hlin : Scale bound (2 ^ 20)) (hsq : Scale (bound ^ 2) (2 ^ 40))
variable (hle : ∀ c ∈ [s.sxx, s.syy, s.szz, s.sxy, s.sxz, s.syz], |c| ≤ bound)

omit [Rounding ℝ] in
theorem within_one {c : ℝ} (h : |c| ≤ bound) : (.fin c : Value ℝ).Within (1 * bound) :=
  ⟨c, rfl, by rwa [one_mul]⟩

omit [Rounding ℝ] in
theorem within_const {c : ℝ} (h : 0 ≤ c) : (.fin c : Value ℝ).Within c :=
  ⟨c, rfl, (abs_of_nonneg h).le⟩

include hlin hle in
theorem mean_within : s.components.mean.Within (7 * bound) := by
  have hxx := within_one (hle s.sxx (by simp))
  have hyy := within_one (hle s.syy (by simp))
  have hzz := within_one (hle s.szz (by simp))
  have hxy := hlin.add hxx hyy (m := 4) (by norm_num) (by norm_num)
  have hsum := hlin.add hxy hzz (m := 10) (by norm_num) (by norm_num)
  exact hlin.div hsum (by norm_num) (by norm_num) (by norm_num)

include hlin hle in
theorem deviator_within {c : ℝ} (hc : c ∈ [s.sxx, s.syy, s.szz, s.sxy, s.sxz, s.syz]) :
    (.fin c - s.components.mean).Within (16 * bound) :=
  hlin.sub (within_one (hle c hc)) (mean_within hlin hle) (by norm_num) (by norm_num)

include hsq hle in
theorem shear_within : s.components.shear.Within (20 * bound ^ 2) := by
  have hsquare : ∀ c ∈ [s.sxx, s.syy, s.szz, s.sxy, s.sxz, s.syz],
      (.fin c * .fin c : Value ℝ).Within (2 * bound ^ 2) := fun c hc =>
    hsq.product (within_one (hle c hc)) (within_one (hle c hc)) (by norm_num) (by norm_num)
  have hxy := hsq.add (hsquare s.sxy (by simp)) (hsquare s.sxz (by simp)) (m := 8) (by norm_num)
    (by norm_num)
  exact hsq.add hxy (hsquare s.syz (by simp)) (by norm_num) (by norm_num)

include hlin hsq hle in
theorem squares_within : s.components.squares.Within (10400 * bound ^ 2) := by
  have hsquare : ∀ c ∈ [s.sxx, s.syy, s.szz, s.sxy, s.sxz, s.syz],
      ((.fin c - s.components.mean) * (.fin c - s.components.mean)).Within (512 * bound ^ 2) :=
    fun c hc => hsq.product (deviator_within hlin hle hc) (deviator_within hlin hle hc)
      (by norm_num) (by norm_num)
  have hxx := hsq.add (hsquare s.sxx (by simp)) (hsquare s.syy (by simp)) (m := 2048) (by norm_num)
    (by norm_num)
  have hzz := hsq.add hxx (hsquare s.szz (by simp)) (m := 5120) (by norm_num) (by norm_num)
  have hshear := hsq.mul_left (m := 80) (shear_within hsq hle)
    (within_const (by norm_num : (0 : ℝ) ≤ (2 : ℕ))) (by norm_num) (by norm_num)
  exact hsq.add hzz hshear (by norm_num) (by norm_num)

include hlin hsq hle in
theorem norm_within : s.components.norm.Within (118 * bound) := by
  have hdiv := hsq.div (c := ((6 : ℕ) : ℝ)) (m := 59 ^ 2) (squares_within hlin hsq hle)
    (by norm_num) (by norm_num) (by norm_num)
  exact hlin.root hdiv (by norm_num) (by norm_num) (by norm_num)

include hlin hsq hle in
/-- The mean and twice the norm times a cosine. -/
theorem turned_within {v : Value ℝ} (h : v.IsNumber) :
    (s.components.mean + .fin (2 : ℕ) * s.components.norm * Components.cosine v).Within
      (3790 * bound) := by
  have htwo := hlin.mul_left (m := 472) (norm_within hlin hsq hle)
    (within_const (by norm_num : (0 : ℝ) ≤ (2 : ℕ))) (by norm_num) (by norm_num)
  have hturned := hlin.mul (m := 1888) htwo (cosine_within h) (by norm_num) (by norm_num)
  exact hlin.add (mean_within hlin hle) hturned (by norm_num) (by norm_num)

include hlin hsq hle in
theorem second_within : s.components.second.Within (22908 * bound) := by
  have hmean := hlin.mul_left (m := 42) (mean_within hlin hle)
    (within_const (by norm_num : (0 : ℝ) ≤ (3 : ℕ))) (by norm_num) (by norm_num)
  have hfirst := hlin.sub (m := 7664) hmean
    (turned_within hlin hsq hle (angle_within s.components).isNumber) (by norm_num) (by norm_num)
  exact hlin.sub hfirst (turned_within hlin hsq hle (turned_isNumber s.components)) (by norm_num)
    (by norm_num)

include hlin hsq in
theorem spread_isNumber {t : Triple} (h1 : t.1.Within (22908 * bound))
    (h2 : t.2.1.Within (22908 * bound)) (h3 : t.2.2.Within (22908 * bound)) :
    (squaredVonMises t).IsNumber := by
  have hsquare : ∀ {v w : Value ℝ}, v.Within (22908 * bound) → w.Within (22908 * bound) →
      ((v - w) * (v - w)).Within (2 ^ 35 * bound ^ 2) := by
    intro v w hv hw
    have hsub := hlin.sub (m := 91632) hv hw (by norm_num) (by norm_num)
    exact hsq.product hsub hsub (by norm_num) (by norm_num)
  have h12 := hsq.add (m := 2 ^ 37) (hsquare h1 h2) (hsquare h2 h3) (by norm_num) (by norm_num)
  have hsum := hsq.add (m := 2 ^ 39) h12 (hsquare h3 h1) (by norm_num) (by norm_num)
  exact (hsq.mul_left (m := 2 ^ 40) hsum
    (within_const (by norm_num : (0 : ℝ) ≤ 1 / (2 : ℕ))) (by norm_num) (by norm_num)).isNumber

end Bounded

theorem root_ne_zero {v : Value ℝ} {a : ℝ} (hv : v.AtLeast a) (hpos : 0 < a)
    (ha : Rounding.tiny ≤ a) : root v ≠ .fin 0 := by
  obtain ⟨x, rfl, hx⟩ := hv
  have hsqrt : 0 < Real.sqrt x := Real.sqrt_pos.mpr (hpos.trans_le hx)
  have htiny : Rounding.tiny ≤ |Real.sqrt x| := by
    rw [abs_of_pos hsqrt]
    rcases le_total x 1 with hone | hone
    · refine (ha.trans hx).trans (Real.le_sqrt_of_sq_le ?_)
      nlinarith
    · exact Rounding.tiny_le_one.trans (Real.one_le_sqrt.mpr hone)
  have hnear := Rounding.abs_le_nearest _ htiny
  intro hzero
  rw [root, Value.round] at hzero
  split at hzero
  · rw [Value.fin.inj hzero, abs_zero, mul_zero] at hnear
    exact absurd (abs_pos.mpr hsqrt.ne') (not_lt.mpr hnear)
  · cases hzero

/-- A shear whose square is not lost is found in the norm. -/
theorem norm_ne_zero {s : Stress} (hnumber : s.components.squares.IsNumber)
    (hdiv : (s.components.squares / .fin ((6 : ℕ) : ℝ)).IsNumber) {c : ℝ}
    (hc : c ∈ [s.sxy, s.sxz, s.syz]) (hne : c ≠ 0) (htiny : 2 ^ 8 * Rounding.tiny ≤ c ^ 2) :
    s.components.norm ≠ .fin 0 := by
  have hpos : 0 < c ^ 2 := by positivity
  have htiny0 : 0 ≤ (Rounding.tiny : ℝ) := Rounding.tiny_nonneg
  have hshear := (Value.IsNumber.of_mul (Value.IsNumber.of_add hnumber).2).2
  have hsum := (Value.IsNumber.of_add hshear).1
  have hsquare : ∀ {x : ℝ}, x = c → (.fin x * .fin x : Value ℝ).IsNumber →
      (.fin x * .fin x : Value ℝ).AtLeast (c ^ 2 / (2 : ℕ)) := by
    rintro x rfl h
    exact Value.atLeast_round (by linarith) (by rw [pow_two]) h
  have hshearLe : s.components.shear.AtLeast (c ^ 2 / (2 : ℕ) / (2 : ℕ) / (2 : ℕ)) := by
    simp only [List.mem_cons, List.not_mem_nil, or_false] at hc
    rcases hc with hc | hc | hc
    · have hxy := (hsquare hc.symm (Value.IsNumber.of_add hsum).1).add_right
        (by norm_num; linarith) (Value.notNegative_mul_self (.fin s.sxz)) hsum
      exact hxy.add_right (by norm_num; linarith) (Value.notNegative_mul_self _) hshear
    · have hxz := (hsquare hc.symm (Value.IsNumber.of_add hsum).2).add_left
        (by norm_num; linarith) (Value.notNegative_mul_self (.fin s.sxy)) hsum
      exact hxz.add_right (by norm_num; linarith) (Value.notNegative_mul_self _) hshear
    · have hxy := (Value.notNegative_mul_self (.fin s.sxy)).add
        (Value.notNegative_mul_self (.fin s.sxz))
      obtain ⟨x, hx, hxle⟩ := (hsquare hc.symm (Value.IsNumber.of_add hshear).2).add_left
        (by norm_num; linarith) hxy hshear
      refine ⟨x, hx, le_trans ?_ hxle⟩
      norm_num
      linarith
  have hdouble := hshearLe.mul_fin (c := ((2 : ℕ) : ℝ)) (by norm_num) (by norm_num; linarith)
    (Value.IsNumber.of_add hnumber).2
  have hsquares := hdouble.add_left (by norm_num; linarith)
    (((Value.notNegative_mul_self _).add (Value.notNegative_mul_self _)).add
      (Value.notNegative_mul_self _)) hnumber
  have hsixth := hsquares.div_fin (c := ((6 : ℕ) : ℝ)) (by norm_num) (by norm_num; linarith) hdiv
  exact root_ne_zero hsixth (by norm_num; linarith) (by norm_num; linarith)

theorem shear_eq_zero_of {s : Stress} (h : ∀ c ∈ [s.sxy, s.sxz, s.syz], c = 0) :
    s.components.shear = .fin 0 := by
  have hzero : (Value.round 0 : Value ℝ) = .fin 0 := by
    obtain ⟨x, hx, hle⟩ := Value.within_round (abs_zero (α := ℝ)).le (lt_limit (by norm_num))
    rw [hx, abs_eq_zero.mp (le_antisymm (by simpa using hle) (abs_nonneg x))]
  have hxy := h s.sxy (by simp)
  have hxz := h s.sxz (by simp)
  have hyz := h s.syz (by simp)
  simp only [Components.shear, Stress.components, hxy, hxz, hyz, Value.mul_fin, mul_zero, hzero,
    Value.add_fin, add_zero]

/-- A row of moderate size is in range. -/
theorem Stress.Moderate.inRange {s : Stress} (h : s.Moderate) : s.components.InRange := by
  obtain ⟨bound, hbound, hle⟩ := h.below
  have hpos : 0 ≤ bound := (abs_nonneg s.sxx).trans (hle s.sxx (by simp))
  obtain ⟨hlin, hsq⟩ := scales hpos hbound
  have hsquares := squares_within hlin hsq hle
  refine ⟨fun _ => hsquares.isNumber, fun hshear => ?_, ?_⟩
  · rcases h.above with hzero | ⟨c, hc, hne, htiny⟩
    · exact absurd (shear_eq_zero_of hzero) hshear
    · have hdiv := hsq.div (c := ((6 : ℕ) : ℝ)) (m := 59 ^ 2) hsquares (by norm_num)
        (by norm_num) (by norm_num)
      exact norm_ne_zero hsquares.isNumber hdiv.isNumber hc hne htiny
  · have hgrow : ∀ {v : Value ℝ} {k : ℝ}, k ≤ 22908 → v.Within (k * bound) →
        v.Within (22908 * bound) := by
      rintro v k hk ⟨x, rfl, hx⟩
      exact ⟨x, rfl, hx.trans (mul_le_mul_of_nonneg_right hk hpos)⟩
    by_cases hshear : s.components.shear = .fin 0
    · obtain ⟨s1, s2, s3, hsort, hsorted⟩ := sorted_eq s.components
      have hperm := List.mergeSort_perm [s.components.sxx, s.components.syy, s.components.szz]
        fun a b => !a.lt b
      rw [hsort] at hperm
      have hdiagonal : ∀ v ∈ [s1, s2, s3], v.Within (22908 * bound) := by
        intro v hv
        have hmem := hperm.mem_iff.mp hv
        simp only [Stress.components, List.mem_cons, List.not_mem_nil, or_false] at hmem
        rcases hmem with rfl | rfl | rfl
        · exact hgrow (by norm_num) (within_one (hle s.sxx (by simp)))
        · exact hgrow (by norm_num) (within_one (hle s.syy (by simp)))
        · exact hgrow (by norm_num) (within_one (hle s.szz (by simp)))
      rw [Components.principal, if_pos hshear, hsorted]
      exact spread_isNumber hlin hsq (hdiagonal s1 (by simp)) (hdiagonal s2 (by simp))
        (hdiagonal s3 (by simp))
    · rw [Components.principal, if_neg hshear]
      have hfirst := turned_within hlin hsq hle (angle_within s.components).isNumber
      have hthird := turned_within hlin hsq hle (turned_isNumber s.components)
      exact spread_isNumber hlin hsq (hgrow (by norm_num) hfirst) (second_within hlin hsq hle)
        (hgrow (by norm_num) hthird)

end Moderate

end FeaResults

end Feldspar

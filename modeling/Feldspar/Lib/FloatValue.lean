/-
Feldspar/Lib/FloatValue.lean

The values of a float: a number of an ordered field, one of the two infinities,
or nan.

An operation on numbers rounds the exact result.  A `Rounding` says to which
number, and from which size on to an infinity; without one in scope arithmetic
is exact.  The other operations are those of the standard for binary floats,
without signed zeros.  `NotNegative` holds of what a square can be, and is kept
by sums.  Nothing makes a number of what is none (`IsNumber.of_add` and the like), but
the division by an infinity.
-/
import Mathlib.Algebra.Order.Field.Basic
import Mathlib.Order.WithBot
import Mathlib.Tactic.Linarith

namespace FloatValue

/-- A rounding loses at most a factor of two, but below `tiny` it may lose
everything. -/
class Rounding (R : Type*) [Field R] [LinearOrder R] where
  nearest : R → R
  limit : WithTop R
  tiny : R
  nearest_nonneg : ∀ x, 0 ≤ x → 0 ≤ nearest x
  nearest_neg : ∀ x, nearest (-x) = -nearest x
  nearest_one : nearest 1 = 1
  abs_nearest_le : ∀ x, |nearest x| ≤ (2 : ℕ) * |x|
  abs_le_nearest : ∀ x, tiny ≤ |x| → |x| ≤ (2 : ℕ) * |nearest x|
  tiny_nonneg : 0 ≤ tiny
  tiny_le : tiny * (((10 : ℕ) ^ (12 : ℕ) : ℕ) : R) ≤ 1
  le_limit : (((64 : ℕ) : R) : WithTop R) ≤ limit

inductive Value (R : Type*)
  | fin (x : R)
  | inf (negative : Bool)
  | nan
  deriving DecidableEq

section Roundings

variable {R : Type*} [Field R] [LinearOrder R] [IsStrictOrderedRing R]

/-- Rounding that overflows at a limit, and is exact below. -/
@[reducible] def Rounding.below (limit : WithTop R)
    (h : (((64 : ℕ) : R) : WithTop R) ≤ limit) : Rounding R where
  nearest x := x
  limit := limit
  tiny := 0
  nearest_nonneg _ hx := hx
  nearest_neg _ := rfl
  nearest_one := rfl
  abs_nearest_le x := by
    rw [Nat.cast_two]
    linarith [abs_nonneg x]
  abs_le_nearest x _ := by
    rw [Nat.cast_two]
    linarith [abs_nonneg x]
  tiny_nonneg := le_rfl
  tiny_le := (zero_mul _).trans_le zero_le_one
  le_limit := h

instance (priority := low) Rounding.exact : Rounding R := .below ⊤ le_top

theorem Rounding.tiny_le_one [Rounding R] : (Rounding.tiny : R) ≤ 1 := by
  refine le_trans ?_ Rounding.tiny_le
  refine le_mul_of_one_le_right Rounding.tiny_nonneg ?_
  rw [Nat.one_le_cast]
  exact Nat.one_le_pow _ _ (by decide)

end Roundings

namespace Value

section IsNumber

variable {R : Type*}

def IsNumber (v : Value R) : Prop := ∃ x, v = fin x

theorem isNumber_fin (x : R) : (fin x).IsNumber := ⟨x, rfl⟩

theorem not_isNumber_inf (n : Bool) : ¬ (inf n : Value R).IsNumber := by
  rintro ⟨x, ⟨⟩⟩

theorem not_isNumber_nan : ¬ (nan : Value R).IsNumber := by
  rintro ⟨x, ⟨⟩⟩

theorem not_isNumber_ite {p : Prop} [Decidable p] {n : Bool} :
    ¬ (if p then nan else inf n : Value R).IsNumber := by
  split
  · exact not_isNumber_nan
  · exact not_isNumber_inf n

end IsNumber

/-! ### Operations -/

section Operations

variable {R : Type*} [Field R] [LinearOrder R] [Rounding R]

/-- The float of an exact result. -/
def round (x : R) : Value R :=
  if ((|x| : R) : WithTop R) < Rounding.limit then fin (Rounding.nearest x) else inf (x < 0)

def neg : Value R → Value R
  | fin x => fin (-x)
  | inf n => inf !n
  | nan => nan

def add : Value R → Value R → Value R
  | fin x, fin y => round (x + y)
  | fin _, inf n => inf n
  | inf n, fin _ => inf n
  | inf n, inf m => if n = m then inf n else nan
  | _, _ => nan

def mul : Value R → Value R → Value R
  | fin x, fin y => round (x * y)
  | fin x, inf n => if x = 0 then nan else inf (xor (decide (x < 0)) n)
  | inf n, fin x => if x = 0 then nan else inf (xor (decide (x < 0)) n)
  | inf n, inf m => inf (xor n m)
  | _, _ => nan

/-- The quotient by what is not zero. -/
def div : Value R → Value R → Value R
  | fin x, fin y => round (x / y)
  | inf n, fin y => inf (xor (decide (y < 0)) n)
  | fin _, inf _ => fin 0
  | _, _ => nan

instance : Neg (Value R) := ⟨neg⟩

instance : Add (Value R) := ⟨add⟩

instance : Sub (Value R) := ⟨fun x y => x + -y⟩

instance : Mul (Value R) := ⟨mul⟩

instance : Div (Value R) := ⟨div⟩

/-- `x < y`; nothing is before or after nan. -/
def lt : Value R → Value R → Bool
  | fin x, fin y => decide (x < y)
  | fin _, inf n => !n
  | inf n, fin _ => n
  | inf n, inf m => n && !m
  | _, _ => false

/-- A number that is not negative, or infinity, or nan. -/
def NotNegative : Value R → Prop
  | fin x => 0 ≤ x
  | inf n => n = false
  | nan => True

section Numbers

variable (x y : R)

omit [LinearOrder R] [Rounding R] in
@[simp] theorem neg_fin : -(fin x : Value R) = fin (-x) := rfl

@[simp] theorem add_fin : (fin x : Value R) + fin y = round (x + y) := rfl

@[simp] theorem sub_fin : (fin x : Value R) - fin y = round (x - y) := by
  show (fin x : Value R) + -fin y = round (x - y)
  rw [neg_fin, add_fin, sub_eq_add_neg]

@[simp] theorem mul_fin : (fin x : Value R) * fin y = round (x * y) := rfl

@[simp] theorem div_fin : (fin x : Value R) / fin y = round (x / y) := rfl

omit [Field R] [Rounding R] in
@[simp] theorem lt_fin : (fin x : Value R).lt (fin y) = decide (x < y) := rfl

variable {x}

theorem round_fin (h : ((|x| : R) : WithTop R) < Rounding.limit) :
    round x = fin (Rounding.nearest x) := if_pos h

end Numbers

/-! ### Numbers come from numbers -/

variable {v w : Value R}

theorem IsNumber.of_add (h : (v + w).IsNumber) : v.IsNumber ∧ w.IsNumber := by
  cases v with
  | fin x =>
      cases w with
      | fin y => exact ⟨isNumber_fin x, isNumber_fin y⟩
      | inf m => exact absurd h (not_isNumber_inf m)
      | nan => exact absurd h not_isNumber_nan
  | inf n =>
      cases w with
      | fin y => exact absurd h (not_isNumber_inf n)
      | inf m =>
          have hne : ¬ (if n = m then inf n else nan : Value R).IsNumber := by
            split
            · exact not_isNumber_inf n
            · exact not_isNumber_nan
          exact absurd h hne
      | nan => exact absurd h not_isNumber_nan
  | nan => cases w <;> exact absurd h not_isNumber_nan

omit [LinearOrder R] [Rounding R] in
theorem IsNumber.of_neg (h : (-v).IsNumber) : v.IsNumber := by
  cases v with
  | fin x => exact isNumber_fin x
  | inf n => exact absurd h (not_isNumber_inf _)
  | nan => exact h

theorem IsNumber.of_sub (h : (v - w).IsNumber) : v.IsNumber ∧ w.IsNumber :=
  ⟨(IsNumber.of_add h).1, (IsNumber.of_add h).2.of_neg⟩

theorem IsNumber.of_mul (h : (v * w).IsNumber) : v.IsNumber ∧ w.IsNumber := by
  cases v with
  | fin x =>
      cases w with
      | fin y => exact ⟨isNumber_fin x, isNumber_fin y⟩
      | inf m => exact absurd h not_isNumber_ite
      | nan => exact absurd h not_isNumber_nan
  | inf n =>
      cases w with
      | fin y => exact absurd h not_isNumber_ite
      | inf m => exact absurd h (not_isNumber_inf _)
      | nan => exact absurd h not_isNumber_nan
  | nan => cases w <;> exact absurd h not_isNumber_nan

theorem IsNumber.of_div (h : (v / w).IsNumber) : v.IsNumber := by
  cases v with
  | fin x => exact isNumber_fin x
  | inf n =>
      cases w with
      | fin y => exact absurd h (not_isNumber_inf _)
      | inf m => exact absurd h not_isNumber_nan
      | nan => exact absurd h not_isNumber_nan
  | nan => cases w <;> exact absurd h not_isNumber_nan

end Operations

/-! ### Exact arithmetic -/

section Exact

variable {R : Type*} [Field R] [LinearOrder R] [IsStrictOrderedRing R]

variable (x y : R)

@[simp] theorem round_exact : (round x : Value R) = fin x :=
  if_pos (WithTop.coe_lt_top |x|)

theorem add_exact : (fin x + fin y : Value R) = fin (x + y) := by rw [add_fin, round_exact]

theorem sub_exact : (fin x - fin y : Value R) = fin (x - y) := by rw [sub_fin, round_exact]

theorem mul_exact : (fin x * fin y : Value R) = fin (x * y) := by rw [mul_fin, round_exact]

end Exact

/-! ### Squares -/

section Squares

variable {R : Type*} [Field R] [LinearOrder R] [Rounding R]

theorem notNegative_round {x : R} (h : 0 ≤ x) : (round x).NotNegative := by
  rw [round]
  split
  · exact Rounding.nearest_nonneg x h
  · exact decide_eq_false (not_lt.mpr h)

variable [IsStrictOrderedRing R] {v w : Value R}

theorem notNegative_mul_self (v : Value R) : (v * v).NotNegative := by
  cases v with
  | fin x => exact notNegative_round (mul_self_nonneg x)
  | inf n =>
      show (xor n n) = false
      exact Bool.xor_self n
  | nan => trivial

theorem NotNegative.add (hv : v.NotNegative) (hw : w.NotNegative) : (v + w).NotNegative := by
  cases v with
  | fin x =>
      cases w with
      | fin y => exact notNegative_round (add_nonneg hv hw)
      | inf m => exact hw
      | nan => trivial
  | inf n =>
      cases w with
      | fin y => exact hv
      | inf m =>
          obtain rfl : n = false := hv
          obtain rfl : m = false := hw
          rfl
      | nan => trivial
  | nan => cases w <;> trivial

theorem NotNegative.mul_fin (hv : v.NotNegative) {x : R} (hx : 0 < x) :
    (fin x * v).NotNegative := by
  cases v with
  | fin y => exact notNegative_round (mul_nonneg hx.le hv)
  | inf n =>
      obtain rfl : n = false := hv
      show (if x = 0 then nan else inf (xor (decide (x < 0)) false) : Value R).NotNegative
      rw [if_neg hx.ne', decide_eq_false (not_lt.mpr hx.le)]
      rfl
  | nan => trivial

theorem NotNegative.div_fin (hv : v.NotNegative) {x : R} (hx : 0 < x) :
    (v / fin x).NotNegative := by
  cases v with
  | fin y => exact notNegative_round (div_nonneg hv hx.le)
  | inf n =>
      obtain rfl : n = false := hv
      show xor (decide (x < 0)) false = false
      rw [decide_eq_false (not_lt.mpr hx.le)]
      rfl
  | nan => trivial

end Squares

/-! ### Sizes -/

section Sizes

variable {R : Type*} [Field R] [LinearOrder R] {v w : Value R} {a b : R}

/-- A number of at most this size. -/
def Within (v : Value R) (a : R) : Prop := ∃ x, v = fin x ∧ |x| ≤ a

theorem Within.isNumber (h : v.Within a) : v.IsNumber := by
  obtain ⟨x, rfl, -⟩ := h
  exact isNumber_fin x

variable [IsStrictOrderedRing R] [Rounding R]

theorem within_round {x : R} (hx : |x| ≤ a) (ha : (a : WithTop R) < Rounding.limit) :
    (round x).Within ((2 : ℕ) * a) := by
  refine ⟨_, round_fin (lt_of_le_of_lt (WithTop.coe_le_coe.mpr hx) ha), ?_⟩
  exact (Rounding.abs_nearest_le x).trans (mul_le_mul_of_nonneg_left hx (Nat.cast_nonneg 2))

theorem Within.add (hv : v.Within a) (hw : w.Within b)
    (h : ((a + b : R) : WithTop R) < Rounding.limit) : (v + w).Within ((2 : ℕ) * (a + b)) := by
  obtain ⟨x, rfl, hx⟩ := hv
  obtain ⟨y, rfl, hy⟩ := hw
  exact within_round ((abs_add_le x y).trans (add_le_add hx hy)) h

theorem Within.sub (hv : v.Within a) (hw : w.Within b)
    (h : ((a + b : R) : WithTop R) < Rounding.limit) : (v - w).Within ((2 : ℕ) * (a + b)) := by
  refine Within.add hv ?_ h
  obtain ⟨y, rfl, hy⟩ := hw
  exact ⟨-y, rfl, (abs_neg y).trans_le hy⟩

theorem Within.mul (hv : v.Within a) (hw : w.Within b)
    (h : ((a * b : R) : WithTop R) < Rounding.limit) : (v * w).Within ((2 : ℕ) * (a * b)) := by
  obtain ⟨x, rfl, hx⟩ := hv
  obtain ⟨y, rfl, hy⟩ := hw
  refine within_round ?_ h
  rw [abs_mul]
  exact mul_le_mul hx hy (abs_nonneg y) ((abs_nonneg x).trans hx)

theorem Within.div {y : R} (hv : v.Within a) (hy : 0 < y)
    (h : ((a / y : R) : WithTop R) < Rounding.limit) :
    (v / fin y).Within ((2 : ℕ) * (a / y)) := by
  obtain ⟨x, rfl, hx⟩ := hv
  refine within_round ?_ h
  rw [abs_div, abs_of_pos hy]
  exact div_le_div_of_nonneg_right hx hy.le

/-- A number that is not less. -/
def AtLeast (v : Value R) (a : R) : Prop := ∃ x, v = fin x ∧ a ≤ x

theorem atLeast_round {x : R} (ha : Rounding.tiny ≤ a) (hx : a ≤ x) (h : (round x).IsNumber) :
    (round x).AtLeast (a / (2 : ℕ)) := by
  have hapos : 0 ≤ a := Rounding.tiny_nonneg.trans ha
  have hxpos : 0 ≤ x := hapos.trans hx
  have hnear := Rounding.abs_le_nearest x (by rw [abs_of_nonneg hxpos]; exact ha.trans hx)
  rw [abs_of_nonneg hxpos, abs_of_nonneg (Rounding.nearest_nonneg x hxpos), Nat.cast_two] at hnear
  rw [round] at h ⊢
  split at h
  · rename_i hlt
    rw [if_pos hlt]
    refine ⟨_, rfl, ?_⟩
    rw [Nat.cast_two]
    linarith
  · exact absurd h (not_isNumber_inf _)

theorem AtLeast.add_right (hv : v.AtLeast a) (ha : Rounding.tiny ≤ a) (hw : w.NotNegative)
    (h : (v + w).IsNumber) : (v + w).AtLeast (a / (2 : ℕ)) := by
  obtain ⟨x, rfl, hx⟩ := hv
  obtain ⟨y, rfl⟩ := (IsNumber.of_add h).2
  exact atLeast_round ha (le_add_of_le_of_nonneg hx hw) h

theorem AtLeast.add_left (hw : w.AtLeast a) (ha : Rounding.tiny ≤ a) (hv : v.NotNegative)
    (h : (v + w).IsNumber) : (v + w).AtLeast (a / (2 : ℕ)) := by
  obtain ⟨y, rfl, hy⟩ := hw
  obtain ⟨x, rfl⟩ := (IsNumber.of_add h).1
  exact atLeast_round ha (le_add_of_nonneg_of_le hv hy) h

theorem AtLeast.mul_fin {c : R} (hv : v.AtLeast a) (hc : 0 < c) (ha : Rounding.tiny ≤ c * a)
    (h : (fin c * v).IsNumber) : (fin c * v).AtLeast (c * a / (2 : ℕ)) := by
  obtain ⟨x, rfl, hx⟩ := hv
  exact atLeast_round ha (mul_le_mul_of_nonneg_left hx hc.le) h

theorem AtLeast.div_fin {c : R} (hv : v.AtLeast a) (hc : 0 < c) (ha : Rounding.tiny ≤ a / c)
    (h : (v / fin c).IsNumber) : (v / fin c).AtLeast (a / c / (2 : ℕ)) := by
  obtain ⟨x, rfl, hx⟩ := hv
  exact atLeast_round ha (div_le_div_of_nonneg_right hx hc.le) h

end Sizes

end Value

end FloatValue

/-
Feldspar/Lib/Arith.lean

The operations of a number type, without their laws.

Rounded arithmetic has these operations and not the laws of a field, so what is
to be said about it is stated over an `Arith`.  An ordered field is the exact
instance, in which no operation overflows.
-/
import Mathlib.Algebra.Order.Field.Basic
import Mathlib.Algebra.Order.Ring.Rat
import Mathlib.Order.Interval.Set.ProjIcc
import Mathlib.Tactic.Ring

/-- The operations of a number type; `isFinite` is false of what an operation
gives that overflows. -/
class Arith (K : Type*) where
  zero : K
  add : K → K → K
  neg : K → K
  sub : K → K → K
  mul : K → K → K
  div : K → K → K
  square : K → K
  natCast : ℕ → K
  intCast : ℤ → K
  ofScientific : ℕ → Bool → ℕ → K
  abs : K → K
  isFinite : K → Bool
  lt : K → K → Prop
  le : K → K → Prop
  decLt : DecidableRel lt
  decLe : DecidableRel le
  decEq : DecidableEq K

namespace Arith

variable {K : Type*}

section Operations

variable [Arith K]

instance (priority := low) : Zero K := ⟨zero⟩

instance (priority := low) : Add K := ⟨add⟩

instance (priority := low) : Neg K := ⟨neg⟩

instance (priority := low) : Sub K := ⟨sub⟩

instance (priority := low) : Mul K := ⟨mul⟩

instance (priority := low) : Div K := ⟨div⟩

instance (priority := low) : NatCast K := ⟨natCast⟩

instance (priority := low) : IntCast K := ⟨intCast⟩

instance (priority := low) : OfScientific K := ⟨ofScientific⟩

instance (priority := low) : LT K := ⟨lt⟩

instance (priority := low) : LE K := ⟨le⟩

instance (priority := low) : DecidableLT K := decLt

instance (priority := low) : DecidableLE K := decLe

instance (priority := low) : DecidableEq K := decEq

end Operations

/-- Added up from the left. -/
def sum [Arith K] (l : List K) : K := l.foldl (· + ·) 0

/-- A sum and the error of its additions, with one more summand. -/
def addCompensated [Arith K] (acc : K × K) (x : K) : K × K :=
  let total := acc.1 + x
  (total, acc.2 + if abs x ≤ abs acc.1 then (acc.1 - total) + x else (x - total) + acc.1)

/-- Added up from the left, with the errors of the additions made up for at the
end, if that is possible. -/
def compensatedSum [Arith K] (l : List K) : K :=
  let acc := l.foldl addCompensated (0, 0)
  if acc.2 ≠ 0 ∧ isFinite acc.2 then acc.1 + acc.2 else acc.1

/-- The first number, if the second is not greater. -/
def maxOf [Arith K] (x y : K) : K := if x < y then y else x

/-- Exact arithmetic. -/
instance (priority := low) ofField [Field K] [LinearOrder K] : Arith K where
  zero := 0
  add x y := x + y
  neg x := -x
  sub x y := x - y
  mul x y := x * y
  div x y := x / y
  square x := x ^ (2 : ℕ)
  natCast n := n
  intCast n := n
  ofScientific m s e := OfScientific.ofScientific m s e
  abs x := |x|
  isFinite _ := true
  lt x y := x < y
  le x y := x ≤ y
  decLt := inferInstance
  decLe := inferInstance
  decEq := inferInstance

section Exact

variable [Field K] [LinearOrder K]

@[simp] theorem abs_eq (x : K) : abs x = |x| := rfl

@[simp] theorem square_eq (x : K) : square x = x ^ 2 := rfl

@[simp] theorem isFinite_eq (x : K) : isFinite x = true := rfl

@[simp] theorem sum_eq (l : List K) : sum l = l.sum := List.sum_eq_foldl.symm

theorem foldl_addCompensated (l : List K) (s : K) :
    l.foldl addCompensated (s, 0) = (s + l.sum, 0) := by
  induction l generalizing s with
  | nil => rw [List.foldl_nil, List.sum_nil, add_zero]
  | cons x l ih =>
      have herror : (if abs x ≤ abs s then (s - (s + x)) + x else (x - (s + x)) + s) = 0 := by
        split_ifs <;> ring
      rw [List.foldl_cons, List.sum_cons, ← add_assoc, ← ih (s + x)]
      show l.foldl addCompensated (s + x, 0 + if abs x ≤ abs s then _ else _) = _
      rw [herror, add_zero]

@[simp] theorem compensatedSum_eq (l : List K) :
    compensatedSum l = l.sum := by
  rw [compensatedSum, foldl_addCompensated, zero_add]
  exact if_neg fun h => h.1 rfl

@[simp] theorem maxOf_eq (x y : K) : maxOf x y = max x y := by
  rw [maxOf, max_def]
  rcases lt_trichotomy x y with h | rfl | h
  · rw [if_pos h, if_pos h.le]
  · rw [if_pos le_rfl, ite_self]
  · rw [if_neg h.not_gt, if_neg h.not_ge]

end Exact

/-! ### Saturation -/

/-- Rationals between two infinities, at which the operations stop. -/
def Saturated (limit : ℕ) : Type := Set.Icc (-(limit : ℚ)) limit

namespace Saturated

variable {limit : ℕ}

instance : LinearOrder (Saturated limit) := inferInstanceAs (LinearOrder (Set.Icc _ _))

def saturate (x : ℚ) : Saturated limit :=
  Set.projIcc (-(limit : ℚ)) limit (neg_le_self limit.cast_nonneg) x

instance : Arith (Saturated limit) where
  zero := saturate 0
  add x y := saturate (x.val + y.val)
  sub x y := saturate (x.val - y.val)
  mul x y := saturate (x.val * y.val)
  div x y := saturate (x.val / y.val)
  neg x := saturate (-x.val)
  square x := saturate (x.val ^ (2 : ℕ))
  natCast n := saturate n
  intCast n := saturate n
  ofScientific m s e := saturate (OfScientific.ofScientific m s e)
  abs x := saturate |x.val|
  isFinite x := |x.val| < limit
  lt x y := x < y
  le x y := x ≤ y
  decLt := inferInstance
  decLe := inferInstance
  decEq := inferInstance

end Saturated

end Arith

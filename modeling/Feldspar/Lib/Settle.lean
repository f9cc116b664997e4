/-
Feldspar/Lib/Settle.lean

Fixed-point iteration until it settles.

`settle g tol k` iterates `g` at most `k` times and stops after the first
iteration that moves by less than `tol`.  A map that shortens the distances of
an interval by a factor `q` moves less and less, so with enough iterations it
does stop (`Contracts.settle_spec`), and then near its fixed point
(`Contracts.settle_near`).
-/
import Mathlib.Algebra.Order.Field.Basic
import Mathlib.Algebra.Order.AbsoluteValue.Basic
import Mathlib.Tactic.Linarith
import Mathlib.Tactic.Ring

namespace Settle

variable {R : Type*} [Field R] [LinearOrder R]

/-- At most `k` iterations of `g`, until one moves by less than `tol`. -/
def settle (g : R → R) (tol : R) : ℕ → R → R
  | 0, x => x
  | k + 1, x => if |g x - x| < tol then g x else settle g tol k (g x)

/-- `g` maps the interval into itself and shortens its distances by `q`. -/
structure Contracts (g : R → R) (a b q : R) : Prop where
  nonneg : 0 ≤ q
  lt_one : q < 1
  maps : ∀ x ∈ Set.Icc a b, g x ∈ Set.Icc a b
  shrinks : ∀ x ∈ Set.Icc a b, ∀ y ∈ Set.Icc a b, |g x - g y| ≤ q * |x - y|

variable [IsStrictOrderedRing R] {g : R → R} {a b q tol : R}

/-- With enough iterations, the last one moves by less than `tol`. -/
theorem Contracts.settle_spec (h : Contracts g a b q) : ∀ (k : ℕ) {x : R}, x ∈ Set.Icc a b →
    q ^ k * |g x - x| < tol →
      ∃ y ∈ Set.Icc a b, settle g tol (k + 1) x = g y ∧ |g y - y| < tol := by
  intro k
  induction k with
  | zero =>
      intro x hx hlt
      rw [pow_zero, one_mul] at hlt
      exact ⟨x, hx, if_pos hlt, hlt⟩
  | succ k ih =>
      intro x hx hlt
      by_cases hstop : |g x - x| < tol
      · exact ⟨x, hx, if_pos hstop, hstop⟩
      · have hnext : q ^ k * |g (g x) - g x| < tol := by
          refine lt_of_le_of_lt ?_ hlt
          rw [pow_succ, mul_assoc]
          exact mul_le_mul_of_nonneg_left (h.shrinks _ (h.maps x hx) _ hx) (pow_nonneg h.nonneg k)
        obtain ⟨y, hy, hsettle, hmove⟩ := ih (h.maps x hx) hnext
        exact ⟨y, hy, (if_neg hstop).trans hsettle, hmove⟩

/-- An iteration that moves little ends near a fixed point. -/
theorem Contracts.near (h : Contracts g a b q) {s y : R} (hs : s ∈ Set.Icc a b) (hfix : g s = s)
    (hy : y ∈ Set.Icc a b) (hmove : |g y - y| < tol) : (1 - q) * |g y - s| ≤ q * tol := by
  have hshrinks : |g y - s| ≤ q * |y - s| := by
    have hle := h.shrinks y hy s hs
    rwa [hfix] at hle
  have htriangle : |y - s| ≤ |g y - y| + |g y - s| := by
    have hle := abs_sub_le y (g y) s
    rwa [abs_sub_comm y (g y)] at hle
  have hq : q * |y - s| ≤ q * (tol + |g y - s|) :=
    mul_le_mul_of_nonneg_left (htriangle.trans (add_le_add_left hmove.le _)) h.nonneg
  linarith [hshrinks.trans hq]

/-- **The iteration settles near the fixed point.** -/
theorem Contracts.settle_near (h : Contracts g a b q) {s x : R} (hs : s ∈ Set.Icc a b)
    (hfix : g s = s) {k : ℕ} (hx : x ∈ Set.Icc a b) (hk : q ^ k * |g x - x| < tol) :
    settle g tol (k + 1) x ∈ Set.Icc a b ∧ (1 - q) * |settle g tol (k + 1) x - s| ≤ q * tol := by
  obtain ⟨y, hy, hsettle, hmove⟩ := h.settle_spec k hx hk
  rw [hsettle]
  exact ⟨h.maps y hy, h.near hs hfix hy hmove⟩

end Settle

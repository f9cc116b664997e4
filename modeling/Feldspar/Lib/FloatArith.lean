/-
Feldspar/Lib/FloatArith.lean

The arithmetic of floats, as operations of a number type.

A literal and the float of an integer are rounded like any result.  A quotient
by zero is an infinity or nan, for a zero without sign.  A number that rounds to
itself is `Representable`; where the exact results are, the operations give them,
and a sum whose partial sums are is exact (`compensatedSum_fin`).  In exact
arithmetic numbers give numbers, but for a quotient by zero (`isNumber_div`).
-/
import Feldspar.Lib.Arith
import Feldspar.Lib.FloatValue
import Mathlib.Algebra.Order.Field.Basic
import Mathlib.Data.List.Induction
import Mathlib.Tactic.NormNum
import Mathlib.Tactic.Positivity

namespace FloatValue

namespace Value

variable {R : Type*} [Field R] [LinearOrder R]

section Arithmetic

variable [Rounding R]

/-- The quotient, also by zero. -/
def quotient (v w : Value R) : Value R :=
  if w = fin 0 then
    match v with
    | fin x => if x = 0 then nan else inf (x < 0)
    | inf n => inf n
    | nan => nan
  else v / w

def absolute : Value R → Value R
  | fin x => fin |x|
  | inf _ => inf false
  | nan => nan

def isNumber : Value R → Bool
  | fin _ => true
  | _ => false

instance : Arith (Value R) where
  zero := fin 0
  add v w := v + w
  neg v := -v
  sub v w := v - w
  mul v w := v * w
  div v w := quotient v w
  square v := v * v
  natCast n := round n
  intCast n := round n
  ofScientific m s e := round (OfScientific.ofScientific m s e)
  abs := absolute
  isFinite := isNumber
  lt v w := v.lt w = true
  le v w := v.lt w = true ∨ (v = w ∧ v ≠ nan)
  decLt := inferInstance
  decLe := inferInstance
  decEq := inferInstance

end Arithmetic

/-- The number, if there is one. -/
def number : Value R → R
  | fin x => x
  | _ => 0

/-! ### Exact results -/

section Representable

variable [Rounding R] {x y : R}

/-- The number is a float. -/
def Representable (x : R) : Prop := round x = fin x

theorem Representable.neg (h : Representable x) : Representable (-x) := by
  unfold Representable round at h ⊢
  rw [abs_neg]
  split at h
  · rename_i hlt
    rw [if_pos hlt, Rounding.nearest_neg, Value.fin.inj h]
  · cases h

theorem Representable.add (h : Representable (x + y)) : Arith.add (fin x) (fin y) = fin (x + y) :=
  h

theorem Representable.sub (h : Representable (x - y)) : Arith.sub (fin x) (fin y) = fin (x - y) :=
  (sub_fin x y).trans h

theorem Representable.mul (h : Representable (x * y)) : Arith.mul (fin x) (fin y) = fin (x * y) :=
  h

theorem exists_of_isFinite {v : Value R} (h : Arith.isFinite v = true) : ∃ x, v = fin x := by
  cases v with
  | fin x => exact ⟨x, rfl⟩
  | inf n => cases h
  | nan => cases h

theorem isFinite_of_isNumber {v : Value R} (h : v.IsNumber) : Arith.isFinite v = true := by
  obtain ⟨x, rfl⟩ := h
  rfl

theorem lt_iff : Arith.lt (fin x) (fin y) ↔ x < y := by
  show (fin x : Value R).lt (fin y) = true ↔ x < y
  rw [lt_fin, decide_eq_true_iff]

theorem le_iff : Arith.le (fin x) (fin y) ↔ x ≤ y := by
  have hle : Arith.le (fin x) (fin y) ↔ Arith.lt (fin x) (fin y) ∨ fin x = fin y :=
    or_congr_right (and_iff_left nofun)
  rw [hle, lt_iff, Value.fin.injEq, le_iff_lt_or_eq]

variable [IsStrictOrderedRing R]

theorem round_of_abs_le_one (h : |x| ≤ 1) : round x = fin (Rounding.nearest x) := by
  refine round_fin (lt_of_lt_of_le (WithTop.coe_lt_coe.mpr ?_) Rounding.le_limit)
  refine h.trans_lt ?_
  exact_mod_cast (by decide : 1 < 64)

theorem representable_zero : Representable (0 : R) := by
  rw [Representable, round_of_abs_le_one (by rw [abs_zero]; exact zero_le_one)]
  have hzero := Rounding.abs_nearest_le (0 : R)
  rw [abs_zero, mul_zero] at hzero
  rw [abs_eq_zero.mp (le_antisymm hzero (abs_nonneg _))]

theorem representable_one : Representable (1 : R) := by
  rw [Representable, round_of_abs_le_one abs_one.le, Rounding.nearest_one]

/-- An addition without rounding leaves nothing over. -/
theorem error_fin {s : R} (hx : Representable x) :
    Arith.add (Arith.sub (fin s) (fin (s + x))) (fin x) = fin 0 := by
  have hneg : s - (s + x) = -x := sub_add_cancel_left s x
  have hdiff : Arith.sub (fin s) (fin (s + x)) = fin (-x) := by
    rw [← hneg]
    exact Representable.sub (hneg ▸ hx.neg)
  have hzero : Representable (-x + x) := by
    rw [neg_add_cancel]
    exact representable_zero
  rw [hdiff, hzero.add, neg_add_cancel]

theorem addCompensated_fin {s : R} (hs : Representable s) (hx : Representable x)
    (hsum : Representable (s + x)) :
    Arith.addCompensated (fin s, fin 0) (fin x) = (fin (s + x), fin 0) := by
  have hzero : Arith.add (fin 0) (fin 0) = (fin 0 : Value R) := by
    have hadd : Representable (0 + 0 : R) := by
      rw [add_zero]
      exact representable_zero
    rw [hadd.add, add_zero]
  have htotal : Arith.add (fin s) (fin x) = fin (s + x) := hsum.add
  have hcomm := error_fin (s := x) hs
  rw [add_comm x s] at hcomm
  show (Arith.add (fin s) (fin x),
    Arith.add (fin 0) (if Arith.abs (fin x : Value R) ≤ Arith.abs (fin s) then
      Arith.add (Arith.sub (fin s) (Arith.add (fin s) (fin x))) (fin x)
    else Arith.add (Arith.sub (fin x) (Arith.add (fin s) (fin x))) (fin s))) = _
  rw [htotal, error_fin hx, hcomm, ite_self, hzero]

/-- **A sum** without rounding. -/
theorem foldl_addCompensated_fin {l : List R} {s : R} (hs : Representable s)
    (hl : ∀ x ∈ l, Representable x) (hsums : ∀ l', l' <+: l → Representable (s + l'.sum)) :
    (l.map fin).foldl Arith.addCompensated (fin s, fin 0) = (fin (s + l.sum), fin 0) := by
  induction l generalizing s with
  | nil => rw [List.map_nil, List.foldl_nil, List.sum_nil, add_zero]
  | cons x l ih =>
      have htotal : Representable (s + x) := by
        have hfirst := hsums [x] ⟨l, rfl⟩
        rwa [List.sum_singleton] at hfirst
      rw [List.map_cons, List.foldl_cons,
        addCompensated_fin hs (hl x List.mem_cons_self) htotal, List.sum_cons, ← add_assoc]
      refine ih htotal (fun y hy => hl y (List.mem_cons_of_mem x hy)) fun l' hl' => ?_
      have hnext := hsums (x :: l') (List.cons_prefix_cons.mpr ⟨rfl, hl'⟩)
      rwa [List.sum_cons, ← add_assoc] at hnext

theorem compensatedSum_fin {l : List R} (hl : ∀ x ∈ l, Representable x)
    (hsums : ∀ l', l' <+: l → Representable l'.sum) :
    Arith.compensatedSum (l.map fin) = fin l.sum := by
  have hfold : (l.map fin).foldl Arith.addCompensated ((0, 0) : Value R × Value R)
      = (fin l.sum, fin 0) := by
    have h := foldl_addCompensated_fin representable_zero hl fun l' hl' => by
      rw [zero_add]
      exact hsums l' hl'
    rwa [zero_add] at h
  unfold Arith.compensatedSum
  rw [hfold]
  exact if_neg fun h => h.1 rfl

/-- Zero has no other quotient that is a number. -/
theorem quotient_zero {w : Value R} {q : R} (h : quotient (fin 0) w = fin q) : q = 0 := by
  unfold quotient at h
  split_ifs at h with hw
  · simp at h
  · cases w with
    | fin y =>
        rw [div_fin, zero_div, (representable_zero : round (0 : R) = fin 0)] at h
        exact (Value.fin.inj h).symm
    | inf n => exact (Value.fin.inj h).symm
    | nan => cases h

/-- A number that is not tiny is rounded to one that is not zero. -/
theorem exists_round_pos (hx : 1 ≤ x * 10 ^ 12) (h : x ≤ 1) : ∃ y, 0 < y ∧ round x = fin y := by
  have hpos : 0 < x := by
    by_contra hle
    linarith [mul_nonpos_of_nonpos_of_nonneg (not_lt.mp hle) (by positivity : (0 : R) ≤ 10 ^ 12)]
  have habs := abs_of_pos hpos
  refine ⟨_, ?_, round_of_abs_le_one (habs.trans_le h)⟩
  have htiny : Rounding.tiny ≤ x := by
    have hle := Rounding.tiny_le (R := R)
    rw [Nat.cast_pow, Nat.cast_ofNat] at hle
    exact le_of_mul_le_mul_right (hle.trans hx) (by positivity)
  have hnear := Rounding.abs_le_nearest x (habs.symm ▸ htiny)
  rw [habs, abs_of_nonneg (Rounding.nearest_nonneg x hpos.le), Nat.cast_two] at hnear
  linarith

end Representable

/-! ### Exact arithmetic -/

section Exact

instance (v : Value R) : Decidable v.IsNumber :=
  match v with
  | fin x => isTrue (isNumber_fin x)
  | inf n => isFalse (not_isNumber_inf n)
  | nan => isFalse not_isNumber_nan

variable [IsStrictOrderedRing R] {v w : Value R}

theorem isNumber_add (hv : v.IsNumber) (hw : w.IsNumber) : (Arith.add v w).IsNumber := by
  obtain ⟨x, rfl⟩ := hv
  obtain ⟨y, rfl⟩ := hw
  exact ⟨x + y, round_exact _⟩

theorem isNumber_neg (hv : v.IsNumber) : (Arith.neg v).IsNumber := by
  obtain ⟨x, rfl⟩ := hv
  exact ⟨-x, rfl⟩

theorem isNumber_sub (hv : v.IsNumber) (hw : w.IsNumber) : (Arith.sub v w).IsNumber :=
  isNumber_add hv (isNumber_neg hw)

theorem isNumber_mul (hv : v.IsNumber) (hw : w.IsNumber) : (Arith.mul v w).IsNumber := by
  obtain ⟨x, rfl⟩ := hv
  obtain ⟨y, rfl⟩ := hw
  exact ⟨x * y, round_exact _⟩

theorem isNumber_abs (hv : v.IsNumber) : (Arith.abs v).IsNumber := by
  obtain ⟨x, rfl⟩ := hv
  exact ⟨|x|, rfl⟩

theorem isNumber_div (hv : v.IsNumber) (hw : w.IsNumber) (hne : w ≠ fin 0) :
    (Arith.div v w).IsNumber := by
  obtain ⟨x, rfl⟩ := hv
  obtain ⟨y, rfl⟩ := hw
  refine ⟨x / y, ?_⟩
  show quotient (fin x) (fin y) = fin (x / y)
  rw [quotient, if_neg hne, div_fin, round_exact]

theorem isNumber_square (hv : v.IsNumber) : (Arith.square v).IsNumber := isNumber_mul hv hv

/-- A number over zero. -/
def Positive (v : Value R) : Prop := ∃ x, v = fin x ∧ 0 < x

omit [IsStrictOrderedRing R] in
theorem isNumber_maxOf [Rounding R] (hv : v.IsNumber) (hw : w.IsNumber) :
    (Arith.maxOf v w).IsNumber := by
  unfold Arith.maxOf
  split_ifs
  · exact hw
  · exact hv

omit [IsStrictOrderedRing R] in
theorem Positive.maxOf [Rounding R] (hv : v.IsNumber) (hw : w.Positive) :
    (Arith.maxOf v w).Positive := by
  obtain ⟨x, rfl⟩ := hv
  obtain ⟨y, rfl, hy⟩ := hw
  unfold Arith.maxOf
  split_ifs with h
  · exact ⟨y, rfl, hy⟩
  · exact ⟨x, rfl, hy.trans_le (not_lt.mp fun hlt => h (lt_iff.mpr hlt))⟩

theorem isNumber_literal (m : ℕ) (s : Bool) (e : ℕ) :
    (Arith.ofScientific m s e : Value R).IsNumber := ⟨_, round_exact _⟩

omit [Field R] [LinearOrder R] [IsStrictOrderedRing R] in
theorem isNumber_ite {p : Prop} [Decidable p] (hv : p → v.IsNumber) (hw : ¬ p → w.IsNumber) :
    (if p then v else w).IsNumber := by
  split_ifs with h
  · exact hv h
  · exact hw h

instance (v : Value R) : Decidable v.Positive :=
  match v with
  | fin x => decidable_of_iff (0 < x)
      ⟨fun hx => ⟨x, rfl, hx⟩, fun ⟨_, hx, hpos⟩ => Value.fin.inj hx ▸ hpos⟩
  | inf _ => isFalse fun ⟨_, hx, _⟩ => nomatch hx
  | nan => isFalse fun ⟨_, hx, _⟩ => nomatch hx

omit [IsStrictOrderedRing R] in
theorem Positive.isNumber (h : v.Positive) : v.IsNumber := by
  obtain ⟨x, rfl, -⟩ := h
  exact isNumber_fin x

omit [IsStrictOrderedRing R] in
theorem Positive.ne_zero (h : v.Positive) : v ≠ fin 0 := by
  obtain ⟨x, rfl, hx⟩ := h
  exact fun heq => hx.ne' (Value.fin.inj heq)

theorem Positive.mul (hv : v.Positive) (hw : w.Positive) : (Arith.mul v w).Positive := by
  obtain ⟨x, rfl, hx⟩ := hv
  obtain ⟨y, rfl, hy⟩ := hw
  exact ⟨x * y, round_exact _, mul_pos hx hy⟩

omit [IsStrictOrderedRing R] in
theorem positive_of_lt [Rounding R] (hv : v.IsNumber) (h : Arith.lt (fin 0) v) : v.Positive := by
  obtain ⟨x, rfl⟩ := hv
  exact ⟨x, rfl, lt_iff.mp h⟩

omit [IsStrictOrderedRing R] in
theorem lt_of_not_le [Rounding R] (hv : v.IsNumber) (h : ¬ Arith.le v (fin 0)) :
    Arith.lt (fin 0) v := by
  obtain ⟨x, rfl⟩ := hv
  exact lt_iff.mpr (not_le.mp fun hle => h (le_iff.mpr hle))

end Exact

end Value

end FloatValue

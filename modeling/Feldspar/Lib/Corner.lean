/-
Feldspar/Lib/Corner.lean

Extrema of a function over a box of `ι → α`.

If every coordinate of a finite set can be moved to one of its ends without
lowering the function, then the whole point can be moved to the ends in these
coordinates without lowering it (`exists_ends_ge`).  A function that is monotone
or antitone in each coordinate separately is one of these; the direction may
depend on the other coordinates.  Where the coordinates outside the set have only
one value, the point reached is a corner (`exists_atEnds_ge`).
-/
import Mathlib.Order.Interval.Set.Basic
import Mathlib.Order.Monotone.Defs
import Mathlib.Data.Finset.Insert
import Mathlib.Algebra.Order.Field.Basic
import Mathlib.Tactic.Linarith
import Mathlib.Tactic.Ring

set_option linter.unusedSectionVars false

namespace Feldspar

namespace Corner

variable {ι α β : Type*} [DecidableEq ι] [Preorder α] [Preorder β] {lo hi : ι → α}
  {f : (ι → α) → β} {x : ι → α}

/-- The point moved to an end of coordinate `i` stays in the box. -/
theorem update_mem_Icc (hx : x ∈ Set.Icc lo hi) {i : ι} {t : α} (ht : t ∈ Set.Icc (lo i) (hi i)) :
    Function.update x i t ∈ Set.Icc lo hi := by
  refine ⟨fun j => ?_, fun j => ?_⟩
  · rcases eq_or_ne j i with rfl | hne
    · rw [Function.update_self]
      exact ht.1
    · rw [Function.update_of_ne hne]
      exact hx.1 j
  · rcases eq_or_ne j i with rfl | hne
    · rw [Function.update_self]
      exact ht.2
    · rw [Function.update_of_ne hne]
      exact hx.2 j

/-- Coordinate `i` can be moved to one of its ends without lowering `f`. -/
def EndsDominate (lo hi : ι → α) (f : (ι → α) → β) (i : ι) : Prop :=
  ∀ x ∈ Set.Icc lo hi,
    f x ≤ f (Function.update x i (lo i)) ∨ f x ≤ f (Function.update x i (hi i))

/-- **All coordinates of `S` can be moved to their ends** without lowering `f`. -/
theorem exists_ends_ge (S : Finset ι) (h : ∀ i ∈ S, EndsDominate lo hi f i) :
    ∀ x ∈ Set.Icc lo hi, ∃ y ∈ Set.Icc lo hi,
      (∀ i ∈ S, y i = lo i ∨ y i = hi i) ∧ (∀ i ∉ S, y i = x i) ∧ f x ≤ f y := by
  induction S using Finset.induction_on with
  | empty =>
      intro x hx
      exact ⟨x, hx, fun i hmem => absurd hmem (Finset.notMem_empty i), fun _ _ => rfl, le_rfl⟩
  | insert i S hnotin ih =>
      intro x hx
      have hbox : lo i ≤ hi i := (hx.1 i).trans (hx.2 i)
      -- move coordinate `i` first; the other moves leave it where it is
      obtain ⟨t, htbox, hend, hle⟩ : ∃ t, t ∈ Set.Icc (lo i) (hi i) ∧ (t = lo i ∨ t = hi i) ∧
          f x ≤ f (Function.update x i t) := by
        rcases h i (Finset.mem_insert_self i S) x hx with hle | hle
        · exact ⟨lo i, Set.left_mem_Icc.mpr hbox, Or.inl rfl, hle⟩
        · exact ⟨hi i, Set.right_mem_Icc.mpr hbox, Or.inr rfl, hle⟩
      obtain ⟨y, hy, hends, hrest, hle'⟩ :=
        ih (fun j hj => h j (Finset.mem_insert_of_mem hj)) _ (update_mem_Icc hx htbox)
      refine ⟨y, hy, fun j hj => ?_, fun j hj => ?_, hle.trans hle'⟩
      · rcases Finset.mem_insert.mp hj with rfl | hj
        · have hkept : y j = t := (hrest j hnotin).trans (Function.update_self j t x)
          rw [hkept]
          exact hend
        · exact hends j hj
      · have hne : j ≠ i := fun heq => hj (heq ▸ Finset.mem_insert_self i S)
        rw [hrest j fun hjS => hj (Finset.mem_insert_of_mem hjS)]
        exact Function.update_of_ne hne t x

/-- Monotone or antitone in a coordinate: one of the ends dominates. -/
theorem endsDominate_of_monotone_or_antitone {i : ι}
    (h : ∀ x ∈ Set.Icc lo hi,
      MonotoneOn (fun t => f (Function.update x i t)) (Set.Icc (lo i) (hi i)) ∨
        AntitoneOn (fun t => f (Function.update x i t)) (Set.Icc (lo i) (hi i))) :
    EndsDominate lo hi f i := by
  intro x hx
  have hbox : lo i ≤ hi i := (hx.1 i).trans (hx.2 i)
  have hxi : x i ∈ Set.Icc (lo i) (hi i) := ⟨hx.1 i, hx.2 i⟩
  have hself : f (Function.update x i (x i)) = f x := by rw [Function.update_eq_self]
  rcases h x hx with hmono | hanti
  · apply Or.inr
    rw [← hself]
    exact hmono hxi (Set.right_mem_Icc.mpr hbox) hxi.2
  · apply Or.inl
    rw [← hself]
    exact hanti (Set.left_mem_Icc.mpr hbox) hxi hxi.1

section Quadratic

variable {K : Type*} [Field K] [LinearOrder K] [IsStrictOrderedRing K] {lo hi : ι → K}
  {f : (ι → K) → K} {i : ι}

/-- A parabola that opens upwards is highest at an end. -/
theorem quadratic_le_or_le {a b c s t u : K} (ha : 0 ≤ a) (hst : s ≤ t) (htu : t ≤ u) :
    a * t ^ 2 + b * t + c ≤ a * s ^ 2 + b * s + c ∨
      a * t ^ 2 + b * t + c ≤ a * u ^ 2 + b * u + c := by
  -- the differences to the ends, as slopes of secants
  rcases le_total 0 (a * (t + u) + b) with hslope | hslope
  · apply Or.inr
    have hprod : 0 ≤ (u - t) * (a * (t + u) + b) := mul_nonneg (sub_nonneg.mpr htu) hslope
    linarith [hprod, (by ring : (u - t) * (a * (t + u) + b)
      = (a * u ^ 2 + b * u + c) - (a * t ^ 2 + b * t + c))]
  · apply Or.inl
    have hsecant : a * (t + s) + b ≤ 0 := by
      have hsum : a * (t + s) ≤ a * (t + u) :=
        mul_le_mul_of_nonneg_left (by linarith) ha
      linarith
    have hprod : 0 ≤ (t - s) * -(a * (t + s) + b) :=
      mul_nonneg (sub_nonneg.mpr hst) (neg_nonneg.mpr hsecant)
    linarith [hprod, (by ring : (t - s) * -(a * (t + s) + b)
      = (a * s ^ 2 + b * s + c) - (a * t ^ 2 + b * t + c))]

theorem endsDominate_of_quadratic
    (h : ∀ x ∈ Set.Icc lo hi, ∃ a b c, 0 ≤ a ∧
      ∀ t, f (Function.update x i t) = a * t ^ 2 + b * t + c) :
    EndsDominate lo hi f i := by
  intro x hx
  obtain ⟨a, b, c, ha, hf⟩ := h x hx
  have hself : f x = a * x i ^ 2 + b * x i + c := by rw [← hf, Function.update_eq_self]
  rw [hself, hf, hf]
  exact quadratic_le_or_le ha (hx.1 i) (hx.2 i)

/-- A parabola in the reciprocal of a positive coordinate. -/
theorem endsDominate_of_quadratic_inv (hpos : 0 < lo i)
    (h : ∀ x ∈ Set.Icc lo hi, ∃ a b c, 0 ≤ a ∧
      ∀ t, f (Function.update x i t) = a * (t⁻¹) ^ 2 + b * t⁻¹ + c) :
    EndsDominate lo hi f i := by
  intro x hx
  obtain ⟨a, b, c, ha, hf⟩ := h x hx
  have hself : f x = a * ((x i)⁻¹) ^ 2 + b * (x i)⁻¹ + c := by
    rw [← hf, Function.update_eq_self]
  rw [hself, hf, hf]
  have hx₀ : 0 < x i := hpos.trans_le (hx.1 i)
  exact (quadratic_le_or_le ha (inv_anti₀ hx₀ (hx.2 i)) (inv_anti₀ hpos (hx.1 i))).symm

end Quadratic

/-! ### Corners -/

/-- Every coordinate is at one of its ends. -/
def AtEnds (lo hi x : ι → α) : Prop := ∀ i, x i = lo i ∨ x i = hi i

theorem atEnds_lo : AtEnds lo hi lo := fun _ => Or.inl rfl

theorem AtEnds.mem_Icc (hbox : lo ≤ hi) (hx : AtEnds lo hi x) : x ∈ Set.Icc lo hi := by
  refine ⟨fun i => ?_, fun i => ?_⟩ <;> rcases hx i with h | h <;> rw [h]
  · exact hbox i
  · exact hbox i

theorem AtEnds.update {i : ι} {t : α} (hx : AtEnds lo hi x) (ht : t = lo i ∨ t = hi i) :
    AtEnds lo hi (Function.update x i t) := by
  intro j
  rcases eq_or_ne j i with rfl | hne
  · rw [Function.update_self]
    exact ht
  · rw [Function.update_of_ne hne]
    exact hx j

/-! ### A function of one coordinate -/

section Ends

variable {γ : Type*} [LinearOrder γ] {g : α → γ} {a b : α} {v : γ}

/-- At a corner it is between its values at the ends. -/
theorem AtEnds.min_le (hx : AtEnds lo hi x) (i : ι) (g : α → γ) :
    min (g (lo i)) (g (hi i)) ≤ g (x i) := by
  rcases hx i with h | h <;> rw [h]
  · exact min_le_left _ _
  · exact min_le_right _ _

theorem AtEnds.le_max (hx : AtEnds lo hi x) (i : ι) (g : α → γ) :
    g (x i) ≤ max (g (lo i)) (g (hi i)) := by
  rcases hx i with h | h <;> rw [h]
  · exact le_max_left _ _
  · exact le_max_right _ _

theorem exists_end_le (h : min (g a) (g b) ≤ v) : ∃ t, (t = a ∨ t = b) ∧ g t ≤ v := by
  rcases min_le_iff.mp h with h | h
  · exact ⟨a, Or.inl rfl, h⟩
  · exact ⟨b, Or.inr rfl, h⟩

theorem exists_end_ge (h : v ≤ max (g a) (g b)) : ∃ t, (t = a ∨ t = b) ∧ v ≤ g t := by
  rcases le_max_iff.mp h with h | h
  · exact ⟨a, Or.inl rfl, h⟩
  · exact ⟨b, Or.inr rfl, h⟩

end Ends

/-- The corner at the upper ends of the coordinates of `S` and the lower ends of
the others. -/
def upperOn (lo hi : ι → α) (S : List ι) (i : ι) : α := if i ∈ S then hi i else lo i

theorem atEnds_upperOn (S : List ι) : AtEnds lo hi (upperOn lo hi S) := by
  intro i
  rw [upperOn]
  split_ifs
  · exact Or.inr rfl
  · exact Or.inl rfl

/-- Every point has a corner with a value no smaller, when the coordinates that
vary can be moved to their ends without lowering `f`. -/
theorem exists_atEnds_ge {α : Type*} [PartialOrder α] {lo hi : ι → α} {f : (ι → α) → β}
    (S : Finset ι) (hS : ∀ i ∉ S, lo i = hi i) (h : ∀ i ∈ S, EndsDominate lo hi f i)
    {x : ι → α} (hx : x ∈ Set.Icc lo hi) : ∃ y, AtEnds lo hi y ∧ f x ≤ f y := by
  obtain ⟨y, hy, hends, -, hle⟩ := exists_ends_ge S h x hx
  refine ⟨y, fun i => ?_, hle⟩
  by_cases hi' : i ∈ S
  · exact hends i hi'
  · have hupper : y i ≤ lo i := (hS i hi').symm ▸ hy.2 i
    exact Or.inl (le_antisymm hupper (hy.1 i))

end Corner

end Feldspar

/-
Feldspar/Lib/Cuts.lean

Functions that finitely many cuts divide into simple pieces.

A number that is no cut lies between two neighbouring ones
(`exists_neighbours`).  A line whose root is no point between two numbers keeps
its sign there (`line_sign`), and a quadratic has its extrema over an interval
at the ends or at its vertex (`quadratic_least`, `quadratic_greatest`).  So the
distance from zero of a rectangle whose sides move along lines is least at one
of finitely many times (`exists_candidate`).
-/
import Feldspar.Lib.Corner
import Mathlib.Data.Finset.Max
import Mathlib.Data.List.Dedup
import Mathlib.Tactic.FieldSimp
import Mathlib.Tactic.Linarith
import Mathlib.Tactic.Ring

namespace Cuts

/-! ### Neighbours -/

section Neighbours

variable {R : Type*} [LinearOrder R]

/-- Two cuts without another one between them. -/
structure Neighbours (cuts : List R) (u v : R) : Prop where
  left : u ∈ cuts
  right : v ∈ cuts
  lt : u < v
  between : ∀ c ∈ cuts, ¬ (u < c ∧ c < v)

theorem exists_neighbours {cuts : List R} {t : R} (h : t ∉ cuts) (hlo : ∃ c ∈ cuts, c ≤ t)
    (hhi : ∃ c ∈ cuts, t ≤ c) : ∃ u v, Neighbours cuts u v ∧ u < t ∧ t < v := by
  have hne : ∀ c ∈ cuts, c ≠ t := fun c hc heq => h (heq ▸ hc)
  obtain ⟨u, hu, hmax⟩ := (cuts.toFinset.filter (· < t)).exists_max_image id (by
    obtain ⟨c, hc, hct⟩ := hlo
    exact ⟨c, Finset.mem_filter.mpr ⟨List.mem_toFinset.mpr hc, hct.lt_of_ne (hne c hc)⟩⟩)
  obtain ⟨v, hv, hmin⟩ := (cuts.toFinset.filter (t < ·)).exists_min_image id (by
    obtain ⟨c, hc, htc⟩ := hhi
    exact ⟨c, Finset.mem_filter.mpr ⟨List.mem_toFinset.mpr hc, htc.lt_of_ne (hne c hc).symm⟩⟩)
  obtain ⟨hucut, hut⟩ := Finset.mem_filter.mp hu
  obtain ⟨hvcut, htv⟩ := Finset.mem_filter.mp hv
  refine ⟨u, v, ⟨List.mem_toFinset.mp hucut, List.mem_toFinset.mp hvcut, hut.trans htv, ?_⟩,
    hut, htv⟩
  rintro c hc ⟨huc, hcv⟩
  rcases lt_or_gt_of_ne (hne c hc) with hct | htc
  · exact absurd (hmax c (Finset.mem_filter.mpr ⟨List.mem_toFinset.mpr hc, hct⟩))
      (not_le.mpr huc)
  · exact absurd (hmin c (Finset.mem_filter.mpr ⟨List.mem_toFinset.mpr hc, htc⟩))
      (not_le.mpr hcv)

end Neighbours

variable {R : Type*} [Field R] [LinearOrder R] [IsStrictOrderedRing R]
variable {a b c s t u v : R}

/-! ### Lines -/

/-- A line without root between two numbers keeps its sign there. -/
theorem line_sign (hroot : ¬ (u < -a / b ∧ -a / b < v)) :
    (∀ t ∈ Set.Icc u v, 0 ≤ a + b * t) ∨ ∀ t ∈ Set.Icc u v, a + b * t ≤ 0 := by
  rcases lt_trichotomy b 0 with hb | rfl | hb
  · -- the root is before or behind the interval
    have hle : ∀ t, 0 ≤ a + b * t ↔ t ≤ -a / b := by
      intro t
      rw [le_div_iff_of_neg hb]
      constructor <;> intro h <;> linarith
    rcases le_or_gt (-a / b) u with hu | hu
    · refine .inr fun t ht => ?_
      by_contra hpos
      have hlt := (hle t).mp (not_le.mp hpos).le
      have heq : t = -a / b := le_antisymm hlt (hu.trans ht.1)
      rw [heq, mul_div_cancel₀ _ hb.ne] at hpos
      exact hpos (add_neg_cancel a).le
    · refine .inl fun t ht => (hle t).mpr (ht.2.trans ?_)
      exact not_lt.mp fun hv => hroot ⟨hu, hv⟩
  · rcases le_total 0 a with ha | ha
    · refine .inl fun t _ => ?_
      rwa [zero_mul, add_zero]
    · refine .inr fun t _ => ?_
      rwa [zero_mul, add_zero]
  · have hle : ∀ t, 0 ≤ a + b * t ↔ -a / b ≤ t := by
      intro t
      rw [div_le_iff₀ hb]
      constructor <;> intro h <;> linarith
    rcases le_or_gt (-a / b) u with hu | hu
    · exact .inl fun t ht => (hle t).mpr (hu.trans ht.1)
    · refine .inr fun t ht => ?_
      by_contra hpos
      have hlt := (hle t).mp (not_le.mp hpos).le
      have hv : v ≤ -a / b := not_lt.mp fun hv => hroot ⟨hu, hv⟩
      have heq : t = -a / b := le_antisymm (ht.2.trans hv) hlt
      rw [heq, mul_div_cancel₀ _ hb.ne'] at hpos
      exact hpos (add_neg_cancel a).le

/-! ### Quadratics -/

/-- A quadratic that opens upwards is least at its vertex, or at an end. -/
theorem quadratic_least_of_nonneg (ha : 0 ≤ a) (ht : t ∈ Set.Icc u v) :
    ∃ s ∈ [u, v, -b / (2 * a)], s ∈ Set.Icc u v
      ∧ a * s ^ 2 + b * s + c ≤ a * t ^ 2 + b * t + c := by
  have huv : u ≤ v := ht.1.trans ht.2
  -- the difference to `s`, as the slope of a secant
  have hsecant : ∀ s : R, a * t ^ 2 + b * t + c - (a * s ^ 2 + b * s + c)
      = (t - s) * (a * (t + s) + b) := fun s => by ring
  rcases ha.eq_or_lt with rfl | ha
  · rcases le_total 0 b with hb | hb
    · refine ⟨u, by simp, ⟨le_rfl, huv⟩, ?_⟩
      linarith [hsecant u, mul_nonneg (sub_nonneg.mpr ht.1) hb]
    · refine ⟨v, by simp, ⟨huv, le_rfl⟩, ?_⟩
      linarith [hsecant v, mul_nonneg_of_nonpos_of_nonpos (sub_nonpos.mpr ht.2) hb]
  · have hvertex : ∀ s : R, a * s ^ 2 + b * s + c
        = a * (s - -b / (2 * a)) ^ 2 + (c - b ^ 2 / (4 * a)) := by
      intro s
      field_simp
      ring
    have hnear : ∀ s : R, |s - -b / (2 * a)| ≤ |t - -b / (2 * a)| →
        a * s ^ 2 + b * s + c ≤ a * t ^ 2 + b * t + c := by
      intro s hs
      rw [hvertex s, hvertex t]
      have hsq := mul_le_mul_of_nonneg_left (sq_le_sq.mpr hs) ha.le
      linarith
    rcases le_total (-b / (2 * a)) u with hu | hu
    · refine ⟨u, by simp, ⟨le_rfl, huv⟩, hnear u ?_⟩
      rw [abs_of_nonneg (sub_nonneg.mpr hu), abs_of_nonneg (sub_nonneg.mpr (hu.trans ht.1))]
      exact sub_le_sub_right ht.1 _
    · rcases le_total v (-b / (2 * a)) with hv | hv
      · refine ⟨v, by simp, ⟨huv, le_rfl⟩, hnear v ?_⟩
        rw [abs_of_nonpos (sub_nonpos.mpr hv), abs_of_nonpos (sub_nonpos.mpr (ht.2.trans hv))]
        linarith [ht.2]
      · refine ⟨_, by simp, ⟨hu, hv⟩, hnear _ ?_⟩
        rw [sub_self, abs_zero]
        exact abs_nonneg _

/-- Over an interval a quadratic is least at an end or at its vertex. -/
theorem quadratic_least (a b c : R) (ht : t ∈ Set.Icc u v) :
    ∃ s ∈ [u, v, -b / (2 * a)], s ∈ Set.Icc u v
      ∧ a * s ^ 2 + b * s + c ≤ a * t ^ 2 + b * t + c := by
  rcases le_total 0 a with ha | ha
  · exact quadratic_least_of_nonneg ha ht
  · rcases Feldspar.Corner.quadratic_le_or_le (a := -a) (b := -b) (c := -c)
      (neg_nonneg.mpr ha) ht.1 ht.2 with hle | hle
    · exact ⟨u, by simp, ⟨le_rfl, ht.1.trans ht.2⟩, by linarith⟩
    · exact ⟨v, by simp, ⟨ht.1.trans ht.2, le_rfl⟩, by linarith⟩

theorem quadratic_greatest (a b c : R) (ht : t ∈ Set.Icc u v) :
    ∃ s ∈ [u, v, -b / (2 * a)], s ∈ Set.Icc u v
      ∧ a * t ^ 2 + b * t + c ≤ a * s ^ 2 + b * s + c := by
  obtain ⟨s, hmem, hs, hle⟩ := quadratic_least (-a) (-b) (-c) ht
  refine ⟨s, ?_, hs, by linarith⟩
  rwa [mul_neg, div_neg, neg_div, neg_neg] at hmem

/-! ### The distance of a moving rectangle -/

/-- The value of the line with a pair of coefficients. -/
def line (x : R × R) (t : R) : R := x.1 + x.2 * t

def root (x : R × R) : R := -x.1 / x.2

/-- Where the sum of the squares of two lines is least. -/
def vertex (x y : R × R) : R := -(x.1 * x.2 + y.1 * y.2) / (x.2 ^ 2 + y.2 ^ 2)

/-- The distance of an interval from zero. -/
def distance (lo hi : R) : R := max 0 (max lo (-hi))

def candidates (s e : R) (l₁ h₁ l₂ h₂ : R × R) : List R :=
  s :: e :: root l₁ :: root h₁ :: root l₂ :: root h₂
    :: [vertex l₁ l₂, vertex l₁ h₂, vertex h₁ l₂, vertex h₁ h₂]

/-- Where neither side changes its sign, the distance is that of a side, or zero. -/
theorem distance_eq {l h : R × R} (hl : ¬ (u < root l ∧ root l < v))
    (hh : ¬ (u < root h ∧ root h < v)) (hle : ∀ t ∈ Set.Icc u v, line l t ≤ line h t) :
    ∃ x ∈ [l, h, (0, 0)], ∀ t ∈ Set.Icc u v, distance (line l t) (line h t) ^ 2 = line x t ^ 2 := by
  rcases line_sign hl with hlo | hlo
  · refine ⟨l, by simp, fun t ht => ?_⟩
    have hpos : 0 ≤ line l t := hlo t ht
    rw [distance, max_eq_left (by linarith [hle t ht] : -line h t ≤ line l t), max_eq_right hpos]
  · rcases line_sign hh with hhi | hhi
    · refine ⟨(0, 0), by simp, fun t ht => ?_⟩
      have hneg : line l t ≤ 0 := hlo t ht
      have hpos : 0 ≤ line h t := hhi t ht
      rw [distance, max_eq_left (max_le hneg (neg_nonpos.mpr hpos)), line, zero_mul, add_zero]
    · refine ⟨h, by simp, fun t ht => ?_⟩
      have hneg : line h t ≤ 0 := hhi t ht
      rw [distance, max_eq_right (by linarith [hle t ht] : line l t ≤ -line h t),
        max_eq_right (neg_nonneg.mpr hneg), neg_sq]

theorem vertex_zero_right (x : R × R) : vertex x (0, 0) = root x := by
  rw [vertex, root]
  rcases eq_or_ne x.2 0 with h | h
  · simp [h]
  · field_simp
    simp only [zero_pow two_ne_zero, add_zero]
    ring

theorem vertex_zero_left (y : R × R) : vertex (0, 0) y = root y := by
  rw [← vertex_zero_right, vertex, vertex]
  simp

omit [LinearOrder R] [IsStrictOrderedRing R] in
/-- The sum of two squares, as a quadratic. -/
theorem sq_add_sq_eq (x y : R × R) (t : R) : line x t ^ 2 + line y t ^ 2
    = (x.2 ^ 2 + y.2 ^ 2) * t ^ 2 + 2 * (x.1 * x.2 + y.1 * y.2) * t + (x.1 ^ 2 + y.1 ^ 2) := by
  rw [line, line]
  ring

/-- **The distance of a moving rectangle** is least at one of the candidates. -/
theorem exists_candidate {s e : R} {l₁ h₁ l₂ h₂ : R × R} (ht : t ∈ Set.Icc s e)
    (hle₁ : ∀ t ∈ Set.Icc s e, line l₁ t ≤ line h₁ t)
    (hle₂ : ∀ t ∈ Set.Icc s e, line l₂ t ≤ line h₂ t) :
    ∃ c ∈ candidates s e l₁ h₁ l₂ h₂, c ∈ Set.Icc s e
      ∧ distance (line l₁ c) (line h₁ c) ^ 2 + distance (line l₂ c) (line h₂ c) ^ 2
        ≤ distance (line l₁ t) (line h₁ t) ^ 2 + distance (line l₂ t) (line h₂ t) ^ 2 := by
  have hse : s ≤ e := ht.1.trans ht.2
  -- the ends, and the roots of the sides between them
  let cuts := s :: e :: [root l₁, root h₁, root l₂, root h₂].filter fun c => s ≤ c ∧ c ≤ e
  have hcuts : ∀ c ∈ cuts, c ∈ candidates s e l₁ h₁ l₂ h₂ ∧ c ∈ Set.Icc s e := by
    intro c hc
    rcases List.mem_cons.mp hc with rfl | hc
    · exact ⟨List.mem_cons_self, le_rfl, hse⟩
    · rcases List.mem_cons.mp hc with rfl | hc
      · exact ⟨List.mem_cons_of_mem _ List.mem_cons_self, hse, le_rfl⟩
      · obtain ⟨hmem, hwithin⟩ := List.mem_filter.mp hc
        refine ⟨?_, of_decide_eq_true hwithin⟩
        simp only [List.mem_cons, List.not_mem_nil, or_false] at hmem
        rcases hmem with rfl | rfl | rfl | rfl <;> simp [candidates]
  by_cases hcut : t ∈ cuts
  · exact ⟨t, (hcuts t hcut).1, ht, le_rfl⟩
  obtain ⟨u, v, hn, htuv⟩ := exists_neighbours hcut ⟨s, List.mem_cons_self, ht.1⟩
    ⟨e, List.mem_cons_of_mem _ List.mem_cons_self, ht.2⟩
  have hu := hcuts u hn.left
  have hv := hcuts v hn.right
  have hsub : Set.Icc u v ⊆ Set.Icc s e := Set.Icc_subset_Icc hu.2.1 hv.2.2
  have hroot : ∀ x ∈ [l₁, h₁, l₂, h₂], ¬ (u < root x ∧ root x < v) := by
    intro x hx hbetween
    refine hn.between (root x) ?_ hbetween
    refine List.mem_cons_of_mem _ (List.mem_cons_of_mem _ (List.mem_filter.mpr ⟨?_, ?_⟩))
    · simp only [List.mem_cons, List.not_mem_nil, or_false] at hx
      rcases hx with rfl | rfl | rfl | rfl <;> simp
    · exact decide_eq_true ⟨hu.2.1.trans hbetween.1.le, hbetween.2.le.trans hv.2.2⟩
  obtain ⟨x, hx, heqx⟩ := distance_eq (hroot l₁ (by simp)) (hroot h₁ (by simp))
    fun τ hτ => hle₁ τ (hsub hτ)
  obtain ⟨y, hy, heqy⟩ := distance_eq (hroot l₂ (by simp)) (hroot h₂ (by simp))
    fun τ hτ => hle₂ τ (hsub hτ)
  have htIcc : t ∈ Set.Icc u v := ⟨htuv.1.le, htuv.2.le⟩
  obtain ⟨c, hc, hcuv, hle⟩ := quadratic_least (x.2 ^ 2 + y.2 ^ 2)
    (2 * (x.1 * x.2 + y.1 * y.2)) (x.1 ^ 2 + y.1 ^ 2) htIcc
  rw [← sq_add_sq_eq, ← sq_add_sq_eq, ← heqx c hcuv, ← heqy c hcuv, ← heqx t htIcc,
    ← heqy t htIcc] at hle
  have hvertex : -(2 * (x.1 * x.2 + y.1 * y.2)) / (2 * (x.2 ^ 2 + y.2 ^ 2)) = vertex x y := by
    rw [← mul_neg, mul_div_mul_left _ _ two_ne_zero, vertex]
  rw [hvertex] at hc
  simp only [List.mem_cons, List.not_mem_nil, or_false] at hc hx hy
  rcases hc with rfl | rfl | rfl
  · exact ⟨c, hu.1, hu.2, hle⟩
  · exact ⟨c, hv.1, hv.2, hle⟩
  · by_cases hzero : x = (0, 0) ∧ y = (0, 0)
    · -- the distance is zero all over the piece
      obtain ⟨rfl, rfl⟩ := hzero
      have huIcc : u ∈ Set.Icc u v := ⟨le_rfl, hn.lt.le⟩
      refine ⟨u, hu.1, hu.2, ?_⟩
      rw [heqx u huIcc, heqy u huIcc, heqx t htIcc, heqy t htIcc]
      simp [line]
    · refine ⟨vertex x y, ?_, hsub hcuv, hle⟩
      rcases hx with rfl | rfl | rfl <;> rcases hy with rfl | rfl | rfl
      case inr.inr.inr.inr => exact absurd ⟨rfl, rfl⟩ hzero
      all_goals simp [candidates, vertex_zero_left, vertex_zero_right]

end Cuts

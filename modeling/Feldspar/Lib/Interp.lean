/-
Feldspar/Lib/Interp.lean

Piecewise linear and bilinear interpolation over ascending breakpoints.

`segment x y i` is the line through the breakpoints `i` and `i + 1`.  Two
segments that both cover a point agree there (`segment_agree`), so a piecewise
linear interpolant is a function (`IsInterpolant`).  Its values between two
points are bounded by the values at these points and by the breakpoints between
them; `IsInterpolant.band_iff` is what that says about the breakpoints alone.
-/
import Mathlib.Algebra.Order.Field.Basic
import Mathlib.Algebra.Order.Group.MinMax
import Mathlib.Order.Interval.Set.Basic
import Mathlib.Tactic.FieldSimp
import Mathlib.Tactic.Linarith
import Mathlib.Tactic.Ring

set_option linter.unusedSectionVars false

namespace Feldspar

namespace Interp

variable {K : Type*} [Field K] [LinearOrder K]

/-- The line through the breakpoints `i` and `i + 1`. -/
def segment (x y : ℕ → K) (i : ℕ) (v : K) : K :=
  y i + (v - x i) / (x (i + 1) - x i) * (y (i + 1) - y i)

/-- The breakpoints up to `n` ascend. -/
def Ascending (x : ℕ → K) (n : ℕ) : Prop := ∀ i j, i < j → j ≤ n → x i < x j

/-- Segment `i` covers `v`. -/
def Covers (x : ℕ → K) (i : ℕ) (v : K) : Prop := x i ≤ v ∧ v ≤ x (i + 1)

variable [IsStrictOrderedRing K] {x y : ℕ → K} {n i j k m : ℕ} {v : K}

/-! ### One segment -/

theorem Ascending.step (hx : Ascending x n) (hi : i < n) : x i < x (i + 1) :=
  hx i (i + 1) (Nat.lt_succ_self i) hi

theorem Ascending.le (hx : Ascending x n) (hij : i ≤ j) (hj : j ≤ n) : x i ≤ x j := by
  rcases Nat.eq_or_lt_of_le hij with rfl | hlt
  · exact le_rfl
  · exact (hx i j hlt hj).le

@[simp] theorem segment_left (x y : ℕ → K) (i : ℕ) : segment x y i (x i) = y i := by
  rw [segment, sub_self, zero_div, zero_mul, add_zero]

theorem segment_right (h : x i < x (i + 1)) : segment x y i (x (i + 1)) = y (i + 1) := by
  rw [segment, div_self (sub_pos.mpr h).ne', one_mul, add_sub_cancel]

theorem segment_neg (x y : ℕ → K) (i : ℕ) (v : K) :
    segment x (fun l => -y l) i v = -segment x y i v := by
  unfold segment
  ring

theorem segment_monotone (h : x i < x (i + 1)) (hy : y i ≤ y (i + 1)) :
    Monotone (segment x y i) := by
  intro v w hvw
  have hslope : (v - x i) / (x (i + 1) - x i) ≤ (w - x i) / (x (i + 1) - x i) :=
    div_le_div_of_nonneg_right (sub_le_sub_right hvw _) (sub_pos.mpr h).le
  exact add_le_add_right (mul_le_mul_of_nonneg_right hslope (sub_nonneg.mpr hy)) _

theorem segment_antitone (h : x i < x (i + 1)) (hy : y (i + 1) ≤ y i) :
    Antitone (segment x y i) := by
  intro v w hvw
  have hneg := segment_monotone (y := fun l => -y l) h (neg_le_neg hy) hvw
  rw [segment_neg, segment_neg] at hneg
  exact neg_le_neg_iff.mp hneg

/-- Between two points, a segment is below one of its values there. -/
theorem segment_le_max (h : x i < x (i + 1)) {l r : K} (hl : l ≤ v) (hr : v ≤ r) :
    segment x y i v ≤ max (segment x y i l) (segment x y i r) := by
  rcases le_total (y i) (y (i + 1)) with hy | hy
  · exact (segment_monotone h hy hr).trans (le_max_right _ _)
  · exact (segment_antitone h hy hl).trans (le_max_left _ _)

theorem segment_le (h : x i < x (i + 1)) (hv : Covers x i v) :
    segment x y i v ≤ max (y i) (y (i + 1)) := by
  have hmax := segment_le_max (y := y) h hv.1 hv.2
  rwa [segment_left, segment_right h] at hmax

theorem le_segment (h : x i < x (i + 1)) (hv : Covers x i v) :
    min (y i) (y (i + 1)) ≤ segment x y i v := by
  have hneg := segment_le (y := fun l => -y l) h hv
  rw [segment_neg, max_neg_neg] at hneg
  exact neg_le_neg_iff.mp hneg

/-! ### Which segments cover a point -/

theorem exists_covers (hmn : m < n) (hm : x m ≤ v) (hn : v ≤ x n) :
    ∃ i, m ≤ i ∧ i < n ∧ Covers x i v := by
  induction n, hmn using Nat.le_induction with
  | base => exact ⟨m, le_rfl, Nat.lt_succ_self m, hm, hn⟩
  | succ n hle ih =>
      rcases le_total v (x n) with hv | hv
      · obtain ⟨i, hmi, hin, hcovers⟩ := ih hv
        exact ⟨i, hmi, hin.trans (Nat.lt_succ_self n), hcovers⟩
      · exact ⟨n, (Nat.le_succ m).trans hle, Nat.lt_succ_self n, hv, hn⟩

/-- Two segments that cover a point are one, or meet there. -/
theorem covers_meet (hx : Ascending x n) (hij : i < j) (hj : j < n) (hi : Covers x i v)
    (hv : Covers x j v) : j = i + 1 ∧ v = x j := by
  have hle : x (i + 1) ≤ x j := hx.le hij hj.le
  have heq : v = x j := le_antisymm (hi.2.trans hle) hv.1
  refine ⟨?_, heq⟩
  by_contra hne
  have hlt : x (i + 1) < x j := hx (i + 1) j (lt_of_le_of_ne hij (Ne.symm hne)) hj.le
  exact absurd (hi.2.trans_lt hlt) (not_lt.mpr hv.1)

/-- **Adjacent segments agree** where they meet. -/
theorem segment_agree (hx : Ascending x n) (hin : i < n) (hjn : j < n) (hi : Covers x i v)
    (hj : Covers x j v) : segment x y i v = segment x y j v := by
  have hlt : ∀ {i j : ℕ}, i < j → i < n → j < n → Covers x i v → Covers x j v →
      segment x y i v = segment x y j v := by
    intro i j hij hin hjn hi hj
    obtain ⟨rfl, rfl⟩ := covers_meet hx hij hjn hi hj
    rw [segment_left, segment_right (hx.step hin)]
  rcases lt_trichotomy i j with hij | rfl | hji
  · exact hlt hij hin hjn hi hj
  · rfl
  · exact (hlt hji hjn hin hj hi).symm

/-! ### Piecewise linear interpolants -/

/-- `f` goes through the breakpoints up to `n`, in straight lines. -/
structure IsInterpolant (x y : ℕ → K) (n : ℕ) (f : K → K) : Prop where
  ascending : Ascending x n
  first : f (x 0) = y 0
  line : ∀ i < n, ∀ v, Covers x i v → f v = segment x y i v

namespace IsInterpolant

variable {f : K → K} {a b eps : K}

theorem neg (hf : IsInterpolant x y n f) : IsInterpolant x (fun l => -y l) n fun v => -f v where
  ascending := hf.ascending
  first := congrArg (fun w => -w) hf.first
  line i hi v hv := by rw [hf.line i hi v hv, segment_neg]

theorem node (hf : IsInterpolant x y n f) (hk : k ≤ n) : f (x k) = y k := by
  rcases k with - | k
  · exact hf.first
  · have hlt : x k < x (k + 1) := hf.ascending.step hk
    rw [hf.line k hk _ ⟨hlt.le, le_rfl⟩, segment_right hlt]

/-- Some breakpoint at or before `k` is no higher than the value at a point
before it. -/
theorem exists_node_le (hf : IsInterpolant x y n f) (hk : k ≤ n) (h0 : x 0 ≤ v) (hv : v ≤ x k) :
    ∃ p ≤ k, y p ≤ f v := by
  rcases k with - | k
  · have heq : v = x 0 := le_antisymm hv h0
    exact ⟨0, le_rfl, by rw [heq, hf.first]⟩
  · obtain ⟨i, -, hik, hcovers⟩ := exists_covers (Nat.succ_pos k) h0 hv
    have hin : i < n := hik.trans_le hk
    rw [hf.line i hin v hcovers]
    have hmin := le_segment (y := y) (hf.ascending.step hin) hcovers
    rcases min_choice (y i) (y (i + 1)) with hchoice | hchoice
    · exact ⟨i, hik.le, hchoice ▸ hmin⟩
    · exact ⟨i + 1, hik, hchoice ▸ hmin⟩

/-- Some breakpoint at or after `k` is no higher than the value at a point after
it. -/
theorem exists_le_node (hf : IsInterpolant x y n f) (hk : k ≤ n) (hv : x k ≤ v) (hn : v ≤ x n) :
    ∃ q, k ≤ q ∧ q ≤ n ∧ y q ≤ f v := by
  rcases Nat.eq_or_lt_of_le hk with rfl | hlt
  · have heq : v = x k := le_antisymm hn hv
    exact ⟨k, le_rfl, le_rfl, by rw [heq, hf.node le_rfl]⟩
  · obtain ⟨i, hki, hin, hcovers⟩ := exists_covers hlt hv hn
    rw [hf.line i hin v hcovers]
    have hmin := le_segment (y := y) (hf.ascending.step hin) hcovers
    rcases min_choice (y i) (y (i + 1)) with hchoice | hchoice
    · exact ⟨i, hki, hin.le, hchoice ▸ hmin⟩
    · exact ⟨i + 1, hki.trans (Nat.le_succ i), hin, hchoice ▸ hmin⟩

/-- The breakpoints between `a` and `b` are no higher than the ends, up to
`eps`. -/
theorem node_le_ends (hf : IsInterpolant x y n f)
    (hy : ∀ i k j, i ≤ k → k ≤ j → j ≤ n → y k ≤ max (y i) (y j) + eps) (hk : k ≤ n)
    (ha : x 0 ≤ a) (hb : b ≤ x n) (hak : a ≤ x k) (hkb : x k ≤ b) :
    y k ≤ max (f a) (f b) + eps := by
  obtain ⟨p, hpk, hp⟩ := hf.exists_node_le hk ha hak
  obtain ⟨q, hkq, hqn, hq⟩ := hf.exists_le_node hk hkb hb
  calc y k ≤ max (y p) (y q) + eps := hy p k q hpk hkq hqn
    _ ≤ max (f a) (f b) + eps := add_le_add_left (max_le_max hp hq) eps

theorem le_ends (hf : IsInterpolant x y n f) (heps : 0 ≤ eps)
    (hy : ∀ i k j, i ≤ k → k ≤ j → j ≤ n → y k ≤ max (y i) (y j) + eps)
    (ha : x 0 ≤ a) (hb : b ≤ x n) (hav : a ≤ v) (hvb : v ≤ b) :
    f v ≤ max (f a) (f b) + eps := by
  have hleft : f a ≤ max (f a) (f b) + eps := le_add_of_le_of_nonneg (le_max_left _ _) heps
  have hright : f b ≤ max (f a) (f b) + eps := le_add_of_le_of_nonneg (le_max_right _ _) heps
  rcases Nat.eq_zero_or_pos n with rfl | hn
  · have heq : v = a := le_antisymm ((hvb.trans hb).trans ha) hav
    rw [heq]
    exact hleft
  · obtain ⟨i, -, hin, hcovers⟩ := exists_covers hn (ha.trans hav) (hvb.trans hb)
    have hstep := hf.ascending.step hin
    -- on the part of the segment between `a` and `b`, `f` is a line
    have hl : Covers x i (max a (x i)) := ⟨le_max_right _ _, max_le (hav.trans hcovers.2) hstep.le⟩
    have hr : Covers x i (min b (x (i + 1))) :=
      ⟨le_min (hcovers.1.trans hvb) hstep.le, min_le_right _ _⟩
    have hline := segment_le_max (y := y) hstep (max_le hav hcovers.1) (le_min hvb hcovers.2)
    rw [← hf.line i hin v hcovers, ← hf.line i hin _ hl, ← hf.line i hin _ hr] at hline
    refine hline.trans (max_le ?_ ?_)
    · rcases max_choice a (x i) with heq | heq
      · rw [heq]
        exact hleft
      · have hai : a ≤ x i := max_eq_right_iff.mp heq
        rw [heq, hf.node hin.le]
        exact hf.node_le_ends hy hin.le ha hb hai (hcovers.1.trans hvb)
    · rcases min_choice b (x (i + 1)) with heq | heq
      · rw [heq]
        exact hright
      · have hbi : x (i + 1) ≤ b := min_eq_right_iff.mp heq
        rw [heq, hf.node hin]
        exact hf.node_le_ends hy hin ha hb (hav.trans hcovers.2) hbi

theorem ends_le (hf : IsInterpolant x y n f) (heps : 0 ≤ eps)
    (hy : ∀ i k j, i ≤ k → k ≤ j → j ≤ n → min (y i) (y j) - eps ≤ y k)
    (ha : x 0 ≤ a) (hb : b ≤ x n) (hav : a ≤ v) (hvb : v ≤ b) :
    min (f a) (f b) - eps ≤ f v := by
  have hneg : -f v ≤ max (-f a) (-f b) + eps := by
    refine hf.neg.le_ends heps (fun i k j hik hkj hjn => ?_) ha hb hav hvb
    have := hy i k j hik hkj hjn
    rw [max_neg_neg]
    linarith
  rw [max_neg_neg] at hneg
  linarith

/-- **The values between two points stay within `eps` of the hull of the values
at them** iff the breakpoints do so with respect to each other. -/
theorem band_iff (hf : IsInterpolant x y n f) (heps : 0 ≤ eps) :
    (∀ a v b, x 0 ≤ a → a ≤ v → v ≤ b → b ≤ x n →
      min (f a) (f b) - eps ≤ f v ∧ f v ≤ max (f a) (f b) + eps) ↔
    ∀ i k j, i ≤ k → k ≤ j → j ≤ n →
      min (y i) (y j) - eps ≤ y k ∧ y k ≤ max (y i) (y j) + eps := by
  constructor
  · intro h i k j hik hkj hjn
    have hkn : k ≤ n := hkj.trans hjn
    have hband := h (x i) (x k) (x j) (hf.ascending.le (Nat.zero_le i) (hik.trans hkn))
      (hf.ascending.le hik hkn) (hf.ascending.le hkj hjn) (hf.ascending.le hjn le_rfl)
    rwa [hf.node (hik.trans hkn), hf.node hkn, hf.node hjn] at hband
  · intro h a v b ha hav hvb hb
    exact ⟨hf.ends_le heps (fun i k j hik hkj hjn => (h i k j hik hkj hjn).1) ha hb hav hvb,
      hf.le_ends heps (fun i k j hik hkj hjn => (h i k j hik hkj hjn).2) ha hb hav hvb⟩

end IsInterpolant

/-! ### Bilinear interpolation -/

/-- Along `y` in two rows of the grid, then along `x` between them. -/
def bilinear (x y : ℕ → K) (z : ℕ → ℕ → K) (i j : ℕ) (u v : K) : K :=
  segment x (fun l => segment y (z l) j v) i u

variable {z : ℕ → ℕ → K} {n' i' j' : ℕ} {u : K}

/-- **Adjacent cells agree** on their common edge. -/
theorem bilinear_agree (hx : Ascending x n) (hy : Ascending y n') (hi : i < n) (hi' : i' < n)
    (hj : j < n') (hj' : j' < n') (hu : Covers x i u) (hu' : Covers x i' u) (hv : Covers y j v)
    (hv' : Covers y j' v) : bilinear x y z i j u v = bilinear x y z i' j' u v := by
  have hrow : (fun l => segment y (z l) j v) = fun l => segment y (z l) j' v := by
    funext l
    exact segment_agree hy hj hj' hv hv'
  unfold bilinear
  rw [hrow]
  exact segment_agree hx hi hi' hu hu'

theorem bilinear_le (hx : x i < x (i + 1)) (hy : y j < y (j + 1)) (hu : Covers x i u)
    (hv : Covers y j v) : bilinear x y z i j u v
      ≤ max (max (z i j) (z i (j + 1))) (max (z (i + 1) j) (z (i + 1) (j + 1))) :=
  (segment_le hx hu).trans (max_le_max (segment_le hy hv) (segment_le hy hv))

theorem le_bilinear (hx : x i < x (i + 1)) (hy : y j < y (j + 1)) (hu : Covers x i u)
    (hv : Covers y j v) : min (min (z i j) (z i (j + 1))) (min (z (i + 1) j) (z (i + 1) (j + 1)))
      ≤ bilinear x y z i j u v :=
  (min_le_min (le_segment (y := z i) hy hv) (le_segment (y := z (i + 1)) hy hv)).trans
    (le_segment (y := fun l => segment y (z l) j v) hx hu)

end Interp

end Feldspar

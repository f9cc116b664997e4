/-
Feldspar/PhaseEquilibria.lean

The corner sweep over the two directions of `materials/phase_equilibria.py`.

The lever rule has a pole where the two phase fractions meet.  On a box that keeps
them apart it is monotone in each input.  On any other box that passes at its
corners, two ends can be moved towards each other, and the quotient leaves the
range of the corners (`LeverBox.cases`), unless it is constant.

The mixing energy is affine in the temperature and in the interaction parameter,
so the box matters only through two curves in the mole fraction
(`regularSolution_encloses_iff_curves`).  Each is a multiple of `Binodal.curve`, and
the ends of the composition decide where it is least and greatest.
-/
import Feldspar.Catalog
import Feldspar.Lib.Binodal
import Mathlib.Tactic.Linarith
import Mathlib.Tactic.Positivity
import Mathlib.Tactic.FieldSimp
import Mathlib.Tactic.LinearCombination

set_option linter.unusedSectionVars false

namespace Feldspar

namespace Catalog

open Real (sqrt log)

variable {box : PortMap (Interval ℝ)}

/-! ### The lever rule -/

noncomputable def leverFraction (alpha beta overall : ℝ) : ℝ := (beta - overall) / (beta - alpha)

/-- The two fractions are told apart. -/
def Distinct (alpha beta : ℝ) : Prop := ¬ IsClose alpha beta (decimal 1 12)

/-- The overall fraction passes as one between the two. -/
def OnTieLine (alpha beta overall : ℝ) : Prop :=
  min alpha beta - decimal 1 9 ≤ overall ∧ overall ≤ max alpha beta + decimal 1 9

theorem reports_leverRule : Reports (Entry.direction .leverRule)
    "materials.phase_equilibria.lever.phase_alpha_fraction"
    (fun x => Distinct (x "materials.phase_equilibria.lever.alpha_fraction")
        (x "materials.phase_equilibria.lever.beta_fraction") ∧
      OnTieLine (x "materials.phase_equilibria.lever.alpha_fraction")
        (x "materials.phase_equilibria.lever.beta_fraction")
        (x "materials.phase_equilibria.lever.overall_fraction"))
    (fun x => leverFraction (x "materials.phase_equilibria.lever.alpha_fraction")
      (x "materials.phase_equilibria.lever.beta_fraction")
      (x "materials.phase_equilibria.lever.overall_fraction")) := by
  refine ⟨fun x hx => (if_neg hx.1).trans (if_neg (not_not.mpr hx.2)), fun x hx => ?_⟩
  by_cases hdistinct : Distinct (x "materials.phase_equilibria.lever.alpha_fraction")
    (x "materials.phase_equilibria.lever.beta_fraction")
  · exact ⟨_, (if_neg hdistinct).trans (if_pos fun htie => hx ⟨hdistinct, htie⟩)⟩
  · exact ⟨_, if_pos (not_not.mp hdistinct)⟩

theorem Distinct.symm {x y : ℝ} (h : Distinct x y) : Distinct y x := by
  unfold Distinct IsClose at h ⊢
  rwa [abs_sub_comm, max_comm |y| |x|]

theorem Distinct.ne {x y : ℝ} (h : Distinct x y) : x ≠ y := by
  rintro rfl
  apply h
  unfold IsClose
  rw [sub_self, abs_zero]
  exact le_max_of_le_right decimal_nonneg

theorem OnTieLine.symm {x y z : ℝ} (h : OnTieLine x y z) : OnTieLine y x z := by
  unfold OnTieLine at h ⊢
  rwa [min_comm, max_comm]

/-- The share of the other phase. -/
theorem leverFraction_swap {x y : ℝ} (h : x ≠ y) (z : ℝ) :
    leverFraction y x z = 1 - leverFraction x y z := by
  unfold leverFraction
  have hxy : x - y ≠ 0 := sub_ne_zero.mpr h
  have hyx : y - x ≠ 0 := sub_ne_zero.mpr h.symm
  rw [eq_sub_iff_add_eq, ← neg_sub y x, div_neg, ← sub_eq_neg_add, ← sub_div, div_eq_one_iff_eq hyx]
  ring

/-- `x` is moved towards `y` by the share `t`. -/
def nearer (x y t : ℝ) : ℝ := x + t * (y - x)

theorem leverFraction_nearer {x y t : ℝ} (z : ℝ) :
    leverFraction (nearer x y t) y z = leverFraction x y z / (1 - t) := by
  have hgap : y - nearer x y t = (y - x) * (1 - t) := by
    unfold nearer
    ring
  unfold leverFraction
  rw [hgap, div_mul_eq_div_div]

/-- A move towards `y` stays in the larger of the two fractions. -/
theorem abs_nearer_le {x y t : ℝ} (ht₀ : 0 < t) (ht₁ : t < 1) :
    |nearer x y t| ≤ max |x| |y| := by
  have hconvex : nearer x y t = (1 - t) * x + t * y := by
    unfold nearer
    ring
  rw [hconvex]
  calc |(1 - t) * x + t * y| ≤ |(1 - t) * x| + |t * y| := abs_add_le _ _
    _ = (1 - t) * |x| + t * |y| := by
        rw [abs_mul, abs_mul, abs_of_pos ht₀, abs_of_pos (sub_pos.mpr ht₁)]
    _ ≤ (1 - t) * max |x| |y| + t * max |x| |y| := by
        apply add_le_add
        · exact mul_le_mul_of_nonneg_left (le_max_left _ _) (sub_pos.mpr ht₁).le
        · exact mul_le_mul_of_nonneg_left (le_max_right _ _) ht₀.le
    _ = max |x| |y| := by ring

theorem abs_nearer_sub {x y t : ℝ} (ht₁ : t < 1) :
    |nearer x y t - y| = |x - y| - t * |x - y| := by
  have hmove : nearer x y t - y = (1 - t) * (x - y) := by
    unfold nearer
    ring
  rw [hmove, abs_mul, abs_of_pos (sub_pos.mpr ht₁)]
  ring

/-- Fractions that are told apart still are after a small move. -/
theorem Distinct.exists_nearer {x y u : ℝ} (h : Distinct x y) (hu : 0 < u) :
    ∃ t, 0 < t ∧ t ≤ u ∧ t < 1 ∧ Distinct (nearer x y t) y := by
  unfold Distinct IsClose at h
  rw [not_le] at h
  set tol := max (decimal 1 9 * max |x| |y|) (decimal 1 12) with htol
  have htol₀ : 0 ≤ tol := le_max_of_le_right decimal_nonneg
  have hgap : 0 < |x - y| := htol₀.trans_lt h
  -- half of what the gap has over the tolerance is left
  set t := min u ((|x - y| - tol) / (2 * |x - y|)) with ht
  have ht₀ : 0 < t := lt_min hu (div_pos (sub_pos.mpr h) (by positivity))
  have hshare : t * |x - y| ≤ (|x - y| - tol) / 2 := by
    calc t * |x - y| ≤ (|x - y| - tol) / (2 * |x - y|) * |x - y| :=
          mul_le_mul_of_nonneg_right (min_le_right _ _) hgap.le
      _ = (|x - y| - tol) / 2 := by
          field_simp
  have ht₁ : t < 1 := by
    by_contra hge
    rw [not_lt] at hge
    have := mul_le_mul_of_nonneg_right hge hgap.le
    linarith
  refine ⟨t, ht₀, min_le_left _ _, ht₁, ?_⟩
  unfold Distinct IsClose
  rw [not_le, abs_nearer_sub ht₁]
  have htol' : max (decimal 1 9 * max |nearer x y t| |y|) (decimal 1 12) ≤ tol := by
    apply max_le_max _ le_rfl
    exact mul_le_mul_of_nonneg_left (max_le (abs_nearer_le ht₀ ht₁) (le_max_right _ _))
      decimal_nonneg
  linarith

/-- An end of the interval. -/
def IsEnd (iv : Interval ℝ) (t : ℝ) : Prop := t = iv.lo ∨ t = iv.hi

/-- `x` is an end of the interval, and `y` lies on its inner side. -/
def Toward (iv : Interval ℝ) (x y : ℝ) : Prop := (x = iv.lo ∧ x < y) ∨ (x = iv.hi ∧ y < x)

theorem Toward.exists_nearer {iv : Interval ℝ} {x y : ℝ} (h : Toward iv x y)
    (hwide : iv.lo < iv.hi) (hxy : Distinct x y) :
    ∃ t, 0 < t ∧ t < 1 ∧ iv.contains (nearer x y t) ∧ Distinct (nearer x y t) y := by
  have hgap : 0 < |y - x| := abs_pos.mpr (sub_ne_zero.mpr hxy.ne.symm)
  obtain ⟨t, ht₀, htu, ht₁, hdistinct⟩ := hxy.exists_nearer (div_pos (sub_pos.mpr hwide) hgap)
  have hmove : t * |y - x| ≤ iv.hi - iv.lo := (le_div_iff₀ hgap).mp htu
  refine ⟨t, ht₀, ht₁, ?_, hdistinct⟩
  unfold nearer
  rcases h with ⟨rfl, hlt⟩ | ⟨rfl, hlt⟩
  · rw [abs_of_pos (sub_pos.mpr hlt)] at hmove
    have hstep := mul_pos ht₀ (sub_pos.mpr hlt)
    constructor <;> linarith
  · rw [abs_of_neg (sub_neg.mpr hlt)] at hmove
    have hstep := mul_pos ht₀ (sub_pos.mpr hlt)
    constructor <;> linarith

/-- A box whose corners pass, and whose points have values between corners. -/
structure LeverBox (a b o : Interval ℝ) : Prop where
  ok : ∀ x y z, IsEnd a x → IsEnd b y → IsEnd o z → Distinct x y ∧ OnTieLine x y z
  between : ∀ x y z, a.contains x → b.contains y → IsEnd o z → Distinct x y →
    (∃ x' y' z', IsEnd a x' ∧ IsEnd b y' ∧ IsEnd o z' ∧
      leverFraction x' y' z' ≤ leverFraction x y z) ∧
    ∃ x' y' z', IsEnd a x' ∧ IsEnd b y' ∧ IsEnd o z' ∧
      leverFraction x y z ≤ leverFraction x' y' z'

variable {a b o : Interval ℝ}

/-- The two phases change places. -/
theorem LeverBox.swap (h : LeverBox a b o) : LeverBox b a o := by
  refine ⟨fun y x z hy hx hz => ?_, fun y x z hy hx hz hyx => ?_⟩
  · obtain ⟨hdistinct, htie⟩ := h.ok x y z hx hy hz
    exact ⟨hdistinct.symm, htie.symm⟩
  · obtain ⟨⟨x₁, y₁, z₁, hx₁, hy₁, hz₁, hle⟩, x₂, y₂, z₂, hx₂, hy₂, hz₂, hge⟩ :=
      h.between x y z hx hy hz hyx.symm
    have h₁ := (h.ok x₁ y₁ z₁ hx₁ hy₁ hz₁).1.ne
    have h₂ := (h.ok x₂ y₂ z₂ hx₂ hy₂ hz₂).1.ne
    refine ⟨⟨y₂, x₂, z₂, hy₂, hx₂, hz₂, ?_⟩, y₁, x₁, z₁, hy₁, hx₁, hz₁, ?_⟩
    · rw [leverFraction_swap h₂, leverFraction_swap hyx.symm.ne]
      linarith
    · rw [leverFraction_swap h₁, leverFraction_swap hyx.symm.ne]
      linarith

/-- A corner with the greatest value of `s` times the fraction. -/
structure TopCorner (s : ℝ) (a b o : Interval ℝ) (x y z : ℝ) : Prop where
  alpha : IsEnd a x
  beta : IsEnd b y
  overall : IsEnd o z
  ge : ∀ x' y' z', IsEnd a x' → IsEnd b y' → IsEnd o z' →
    s * leverFraction x' y' z' ≤ s * leverFraction x y z

theorem exists_topCorner (s : ℝ) (a b o : Interval ℝ) : ∃ x y z, TopCorner s a b o x y z := by
  classical
  have hends : ∀ (iv : Interval ℝ) (t : ℝ), IsEnd iv t ↔ t ∈ ({iv.lo, iv.hi} : Finset ℝ) := by
    intro iv t
    rw [Finset.mem_insert, Finset.mem_singleton]
    rfl
  let corners := ({a.lo, a.hi} : Finset ℝ) ×ˢ ({b.lo, b.hi} : Finset ℝ) ×ˢ
    ({o.lo, o.hi} : Finset ℝ)
  obtain ⟨c, hc, hmax⟩ := corners.exists_max_image (fun c => s * leverFraction c.1 c.2.1 c.2.2)
    ⟨(a.lo, b.lo, o.lo), by simp [corners]⟩
  obtain ⟨hx, hyz⟩ := Finset.mem_product.mp hc
  obtain ⟨hy, hz⟩ := Finset.mem_product.mp hyz
  refine ⟨c.1, c.2.1, c.2.2, (hends _ _).mpr hx, (hends _ _).mpr hy, (hends _ _).mpr hz, ?_⟩
  intro x' y' z' hx' hy' hz'
  apply hmax (x', y', z')
  exact Finset.mem_product.mpr ⟨(hends _ _).mp hx',
    Finset.mem_product.mpr ⟨(hends _ _).mp hy', (hends _ _).mp hz'⟩⟩

/-- The greatest value of one share is the least of the other. -/
theorem TopCorner.swap {s x y z : ℝ} (h : LeverBox a b o) (htop : TopCorner s a b o x y z) :
    TopCorner (-s) b a o y x z := by
  refine ⟨htop.beta, htop.alpha, htop.overall, fun y' x' z' hy' hx' hz' => ?_⟩
  have hle := htop.ge x' y' z' hx' hy' hz'
  rw [leverFraction_swap (h.ok x' y' z' hx' hy' hz').1.ne,
    leverFraction_swap (h.ok x y z htop.alpha htop.beta htop.overall).1.ne]
  linarith

/-- A greatest value that can be driven up is not positive. -/
theorem TopCorner.nonpos {s x y z : ℝ} (h : LeverBox a b o) (hs : s = 1 ∨ s = -1)
    (hb : b.lo ≤ b.hi) (hwide : a.lo < a.hi) (htop : TopCorner s a b o x y z)
    (htoward : Toward a x y) : s * leverFraction x y z ≤ 0 := by
  have hxy := (h.ok x y z htop.alpha htop.beta htop.overall).1
  obtain ⟨t, ht₀, ht₁, hmem, hdistinct⟩ := htoward.exists_nearer hwide hxy
  have hy : b.contains y := by
    rcases htop.beta with rfl | rfl
    · exact ⟨le_rfl, hb⟩
    · exact ⟨hb, le_rfl⟩
  have hle : s * (leverFraction x y z / (1 - t)) ≤ s * leverFraction x y z := by
    rw [← leverFraction_nearer]
    obtain ⟨⟨x₁, y₁, z₁, hx₁, hy₁, hz₁, hbelow⟩, x₂, y₂, z₂, hx₂, hy₂, hz₂, habove⟩ :=
      h.between _ y z hmem hy htop.overall hdistinct
    rcases hs with rfl | rfl
    · have := htop.ge x₂ y₂ z₂ hx₂ hy₂ hz₂
      linarith
    · have := htop.ge x₁ y₁ z₁ hx₁ hy₁ hz₁
      linarith
  rw [← mul_div_assoc, div_le_iff₀ (sub_pos.mpr ht₁)] at hle
  by_contra hpos
  rw [not_le] at hpos
  have := mul_pos ht₀ hpos
  linarith

/-- Where the intervals overlap, one of the two ends of a corner has the other
on its inner side. -/
theorem toward_or {x y : ℝ} (hx : IsEnd a x) (hy : IsEnd b y) (hxy : x ≠ y) (hab : a.lo < b.hi)
    (hba : b.lo < a.hi) : Toward a x y ∨ Toward b y x := by
  rcases hx with rfl | rfl <;> rcases hy with rfl | rfl
  · rcases lt_or_gt_of_ne hxy with hlt | hlt
    · exact Or.inl (Or.inl ⟨rfl, hlt⟩)
    · exact Or.inr (Or.inl ⟨rfl, hlt⟩)
  · exact Or.inl (Or.inl ⟨rfl, hab⟩)
  · exact Or.inl (Or.inr ⟨rfl, hba⟩)
  · rcases lt_or_gt_of_ne hxy with hlt | hlt
    · exact Or.inr (Or.inr ⟨rfl, hlt⟩)
    · exact Or.inl (Or.inr ⟨rfl, hlt⟩)

theorem eq_of_leverFraction_eq_zero {x y z : ℝ} (hxy : x ≠ y) (h : leverFraction x y z = 0) :
    z = y := by
  rcases div_eq_zero_iff.mp h with hzero | hzero
  · exact (sub_eq_zero.mp hzero).symm
  · exact absurd (sub_eq_zero.mp hzero).symm hxy

theorem eq_of_leverFraction_eq_one {x y z : ℝ} (hxy : x ≠ y) (h : leverFraction x y z = 1) :
    z = x := by
  apply eq_of_leverFraction_eq_zero hxy.symm
  rw [leverFraction_swap hxy, h, sub_self]

/-- With one fraction fixed inside the other's interval, the overall fraction is
that one. -/
theorem LeverBox.fixed (h : LeverBox a b o) (hfixed : b.lo = b.hi) (hab : a.lo < b.lo)
    (hba : b.lo < a.hi) : o.lo = b.lo ∧ o.hi = b.lo := by
  have htoward : ∀ x y, IsEnd a x → IsEnd b y → Toward a x y := by
    intro x y hx hy
    obtain rfl : y = b.lo := hy.elim id fun hy => hy.trans hfixed.symm
    rcases hx with rfl | rfl
    · exact Or.inl ⟨rfl, hab⟩
    · exact Or.inr ⟨rfl, hba⟩
  obtain ⟨x₁, y₁, z₁, htop⟩ := exists_topCorner 1 a b o
  obtain ⟨x₂, y₂, z₂, hbottom⟩ := exists_topCorner (-1) a b o
  have h₁ := htop.nonpos h (Or.inl rfl) hfixed.le (hab.trans hba)
    (htoward _ _ htop.alpha htop.beta)
  have h₂ := hbottom.nonpos h (Or.inr rfl) hfixed.le (hab.trans hba)
    (htoward _ _ hbottom.alpha hbottom.beta)
  have hall : ∀ z, IsEnd o z → z = b.lo := by
    intro z hz
    have hle := htop.ge a.lo b.lo z (Or.inl rfl) (Or.inl rfl) hz
    have hge := hbottom.ge a.lo b.lo z (Or.inl rfl) (Or.inl rfl) hz
    apply eq_of_leverFraction_eq_zero hab.ne
    linarith
  exact ⟨hall _ (Or.inl rfl), hall _ (Or.inr rfl)⟩

/-- The corners at which only the first end can be moved towards the other. -/
theorem ends_of_not_toward {x y : ℝ} (hx : IsEnd a x) (hy : IsEnd b y) (hxy : x ≠ y)
    (hab : a.lo < b.hi) (hba : b.lo < a.hi) (hnot : ¬ Toward b y x) :
    a.lo < b.lo ∨ b.hi < a.hi := by
  rcases hx with rfl | rfl <;> rcases hy with rfl | rfl
  · left
    apply lt_of_le_of_ne _ hxy
    exact not_lt.mp fun hlt => hnot (Or.inl ⟨rfl, hlt⟩)
  · exact absurd (Or.inr ⟨rfl, hab⟩) hnot
  · exact absurd (Or.inl ⟨rfl, hba⟩) hnot
  · right
    apply lt_of_le_of_ne _ hxy.symm
    exact not_lt.mp fun hlt => hnot (Or.inr ⟨rfl, hlt⟩)

/-- Two fractions that both vary in overlapping intervals are never enclosed. -/
theorem LeverBox.not_overlap (h : LeverBox a b o) (ha : a.lo < a.hi) (hb : b.lo < b.hi)
    (hab : a.lo < b.hi) (hba : b.lo < a.hi) : False := by
  obtain ⟨x₁, y₁, z₁, htop⟩ := exists_topCorner 1 a b o
  obtain ⟨x₂, y₂, z₂, hbottom⟩ := exists_topCorner (-1) a b o
  have hdistinct₁ := (h.ok _ _ _ htop.alpha htop.beta htop.overall).1.ne
  have hdistinct₂ := (h.ok _ _ _ hbottom.alpha hbottom.beta hbottom.overall).1.ne
  -- what moving either end says of the greatest and of the least value
  have htop_alpha : Toward a x₁ y₁ → leverFraction x₁ y₁ z₁ ≤ 0 := by
    intro htoward
    have := htop.nonpos h (Or.inl rfl) hb.le ha htoward
    linarith
  have htop_beta : Toward b y₁ x₁ → leverFraction x₁ y₁ z₁ ≤ 1 := by
    intro htoward
    have := (htop.swap h).nonpos h.swap (Or.inr rfl) ha.le hb htoward
    rw [leverFraction_swap hdistinct₁] at this
    linarith
  have hbottom_alpha : Toward a x₂ y₂ → 0 ≤ leverFraction x₂ y₂ z₂ := by
    intro htoward
    have := hbottom.nonpos h (Or.inr rfl) hb.le ha htoward
    linarith
  have hbottom_beta : Toward b y₂ x₂ → 1 ≤ leverFraction x₂ y₂ z₂ := by
    intro htoward
    have := (hbottom.swap h).nonpos h.swap (Or.inl (neg_neg 1)) ha.le hb htoward
    rw [leverFraction_swap hdistinct₂] at this
    linarith
  have hrange : ∀ x y z, IsEnd a x → IsEnd b y → IsEnd o z →
      leverFraction x₂ y₂ z₂ ≤ leverFraction x y z ∧
        leverFraction x y z ≤ leverFraction x₁ y₁ z₁ := by
    intro x y z hx hy hz
    have hle := htop.ge x y z hx hy hz
    have hge := hbottom.ge x y z hx hy hz
    constructor <;> linarith
  have hcorner : ∀ x y, IsEnd a x → IsEnd b y → x ≠ y := fun x y hx hy =>
    (h.ok x y o.lo hx hy (Or.inl rfl)).1.ne
  -- no corner is constantly 0, or constantly 1, in both ends of an interval
  have hnot_zero : ¬ (leverFraction x₁ y₁ z₁ ≤ 0 ∧ 0 ≤ leverFraction x₂ y₂ z₂) := by
    rintro ⟨hle, hge⟩
    have hzero : ∀ y, IsEnd b y → o.lo = y := by
      intro y hy
      obtain ⟨h₁, h₂⟩ := hrange a.lo y o.lo (Or.inl rfl) hy (Or.inl rfl)
      exact eq_of_leverFraction_eq_zero (hcorner _ _ (Or.inl rfl) hy)
        (le_antisymm (h₂.trans hle) (hge.trans h₁))
    exact hb.ne ((hzero _ (Or.inl rfl)).symm.trans (hzero _ (Or.inr rfl)))
  have hnot_one : ¬ (leverFraction x₁ y₁ z₁ ≤ 1 ∧ 1 ≤ leverFraction x₂ y₂ z₂) := by
    rintro ⟨hle, hge⟩
    have hone : ∀ x, IsEnd a x → o.lo = x := by
      intro x hx
      obtain ⟨h₁, h₂⟩ := hrange x b.lo o.lo hx (Or.inl rfl) (Or.inl rfl)
      exact eq_of_leverFraction_eq_one (hcorner _ _ hx (Or.inl rfl))
        (le_antisymm (h₂.trans hle) (hge.trans h₁))
    exact ha.ne ((hone _ (Or.inl rfl)).symm.trans (hone _ (Or.inr rfl)))
  have htop_le : leverFraction x₁ y₁ z₁ ≤ 1 := by
    rcases toward_or htop.alpha htop.beta hdistinct₁ hab hba with htoward | htoward
    · exact (htop_alpha htoward).trans zero_le_one
    · exact htop_beta htoward
  -- so the least value is at a corner where only alpha can be moved, the greatest at one
  -- where only beta can
  have hbottom_only : ¬ Toward b y₂ x₂ := fun htoward =>
    hnot_one ⟨htop_le, hbottom_beta htoward⟩
  have hbottom_ge : 0 ≤ leverFraction x₂ y₂ z₂ := hbottom_alpha
    ((toward_or hbottom.alpha hbottom.beta hdistinct₂ hab hba).resolve_right hbottom_only)
  have htop_only : ¬ Toward a x₁ y₁ := fun htoward =>
    hnot_zero ⟨htop_alpha htoward, hbottom_ge⟩
  rcases ends_of_not_toward hbottom.alpha hbottom.beta hdistinct₂ hab hba hbottom_only with
    hlow | hhigh
  · rcases ends_of_not_toward htop.beta htop.alpha hdistinct₁.symm hba hab htop_only with
      hlow' | hhigh'
    · exact lt_asymm hlow hlow'
    · -- `alpha` ends below `beta` at both ends
      have h₁ := hbottom_ge.trans (hrange a.lo b.lo o.lo (Or.inl rfl) (Or.inl rfl) (Or.inl rfl)).1
      have h₂ := (hrange a.hi b.hi o.lo (Or.inr rfl) (Or.inr rfl) (Or.inl rfl)).2.trans htop_le
      rw [leverFraction, le_div_iff₀ (sub_pos.mpr hlow)] at h₁
      rw [leverFraction, div_le_one (sub_pos.mpr hhigh')] at h₂
      linarith
  · rcases ends_of_not_toward htop.beta htop.alpha hdistinct₁.symm hba hab htop_only with
      hlow' | hhigh'
    · have h₁ := hbottom_ge.trans (hrange a.hi b.hi o.lo (Or.inr rfl) (Or.inr rfl) (Or.inl rfl)).1
      have h₂ := (hrange a.lo b.lo o.lo (Or.inl rfl) (Or.inl rfl) (Or.inl rfl)).2.trans htop_le
      rw [leverFraction, le_div_iff_of_neg (sub_neg.mpr hhigh)] at h₁
      rw [leverFraction, div_le_iff_of_neg (sub_neg.mpr hlow')] at h₂
      linarith
    · exact lt_asymm hhigh hhigh'

/-- What the sweep of the lever rule needs of a box: the intervals of the two
fractions are apart, or the overall fraction is one of the two, fixed. -/
def TieLineApart (a b o : Interval ℝ) : Prop :=
  a.hi < b.lo ∨ b.hi < a.lo ∨ (b.lo = b.hi ∧ o.lo = b.lo ∧ o.hi = b.lo) ∨
    (a.lo = a.hi ∧ o.lo = a.lo ∧ o.hi = a.lo)

theorem LeverBox.tieLineApart (h : LeverBox a b o) (ha : a.lo ≤ a.hi) (hb : b.lo ≤ b.hi) :
    TieLineApart a b o := by
  by_cases hleft : a.hi < b.lo
  · exact Or.inl hleft
  by_cases hright : b.hi < a.lo
  · exact Or.inr (Or.inl hright)
  right
  right
  have hcorner : ∀ x y, IsEnd a x → IsEnd b y → x ≠ y := fun x y hx hy =>
    (h.ok x y o.lo hx hy (Or.inl rfl)).1.ne
  have hab : a.lo < b.hi := lt_of_le_of_ne (not_lt.mp hright)
    (hcorner _ _ (Or.inl rfl) (Or.inr rfl))
  have hba : b.lo < a.hi := lt_of_le_of_ne (not_lt.mp hleft)
    (hcorner _ _ (Or.inr rfl) (Or.inl rfl)).symm
  rcases ha.lt_or_eq with ha | ha
  · rcases hb.lt_or_eq with hb | hb
    · exact absurd h fun h => h.not_overlap ha hb hab hba
    · exact Or.inl ⟨hb, h.fixed hb (hb ▸ hab) hba⟩
  · exact Or.inr ⟨ha, h.swap.fixed ha (ha ▸ hba) hab⟩

/-- A quotient with a pole outside the interval is highest at an end. -/
theorem div_le_or {k c s t u : ℝ} (hst : s ≤ t) (htu : t ≤ u) (hpole : u < c ∨ c < s) :
    k / (c - t) ≤ k / (c - s) ∨ k / (c - t) ≤ k / (c - u) := by
  have hinv : (c - s)⁻¹ ≤ (c - t)⁻¹ ∧ (c - t)⁻¹ ≤ (c - u)⁻¹ := by
    rcases hpole with hlt | hlt
    · exact ⟨inv_anti₀ (by linarith) (by linarith), inv_anti₀ (by linarith) (by linarith)⟩
    · rw [inv_le_inv_of_neg (by linarith) (by linarith),
        inv_le_inv_of_neg (by linarith) (by linarith)]
      constructor <;> linarith
  simp only [div_eq_mul_inv]
  rcases le_total 0 k with hk | hk
  · exact Or.inr (mul_le_mul_of_nonneg_left hinv.2 hk)
  · exact Or.inl (mul_le_mul_of_nonpos_left hinv.1 hk)

/-- The lever rule of a point. -/
noncomputable def leverValue (x : Port → ℝ) : ℝ :=
  leverFraction (x "materials.phase_equilibria.lever.alpha_fraction")
    (x "materials.phase_equilibria.lever.beta_fraction")
    (x "materials.phase_equilibria.lever.overall_fraction")

/-- The intervals of the two fractions are apart. -/
theorem endsDominate_lever (s : ℝ)
    (hapart : hiEnd box "materials.phase_equilibria.lever.alpha_fraction"
        < loEnd box "materials.phase_equilibria.lever.beta_fraction" ∨
      hiEnd box "materials.phase_equilibria.lever.beta_fraction"
        < loEnd box "materials.phase_equilibria.lever.alpha_fraction") :
    ∀ q ∈ (Entry.direction .leverRule).inputs.map Prod.fst,
      Corner.EndsDominate (loEnd box) (hiEnd box) (fun x => s * leverValue x) q := by
  intro q hq
  simp only [Entry.direction, List.map_cons, List.map_nil, List.mem_cons, List.not_mem_nil,
    or_false] at hq
  rcases hq with rfl | rfl | rfl
  · -- the pole is at the fraction of beta
    intro x hx
    have hvalue : ∀ t, s * leverValue
          (Function.update x "materials.phase_equilibria.lever.alpha_fraction" t)
        = s * (x "materials.phase_equilibria.lever.beta_fraction"
            - x "materials.phase_equilibria.lever.overall_fraction")
          / (x "materials.phase_equilibria.lever.beta_fraction" - t) := by
      intro t
      simp [leverValue, leverFraction, mul_div_assoc]
    have hself := hvalue (x "materials.phase_equilibria.lever.alpha_fraction")
    rw [Function.update_eq_self] at hself
    simp only [hvalue, hself]
    apply div_le_or (hx.1 _) (hx.2 _)
    exact hapart.imp (fun h => h.trans_le (hx.1 _)) fun h => (hx.2 _).trans_lt h
  · -- the pole is at the fraction of alpha
    intro x hx
    have hpole : hiEnd box "materials.phase_equilibria.lever.beta_fraction"
          < x "materials.phase_equilibria.lever.alpha_fraction" ∨
        x "materials.phase_equilibria.lever.alpha_fraction"
          < loEnd box "materials.phase_equilibria.lever.beta_fraction" :=
      hapart.symm.imp (fun h => h.trans_le (hx.1 _)) fun h => (hx.2 _).trans_lt h
    have hvalue : ∀ t, t ∈ Set.Icc (loEnd box "materials.phase_equilibria.lever.beta_fraction")
          (hiEnd box "materials.phase_equilibria.lever.beta_fraction") →
        s * leverValue (Function.update x "materials.phase_equilibria.lever.beta_fraction" t)
          = s + s * (x "materials.phase_equilibria.lever.overall_fraction"
              - x "materials.phase_equilibria.lever.alpha_fraction")
            / (x "materials.phase_equilibria.lever.alpha_fraction" - t) := by
      intro t ht
      have hne : x "materials.phase_equilibria.lever.alpha_fraction" - t ≠ 0 := by
        rcases hpole with hlt | hlt
        · exact (sub_pos.mpr (ht.2.trans_lt hlt)).ne'
        · exact (sub_neg.mpr (hlt.trans_le ht.1)).ne
      have hne' : t - x "materials.phase_equilibria.lever.alpha_fraction" ≠ 0 :=
        sub_ne_zero.mpr (sub_ne_zero.mp hne).symm
      simp [leverValue, leverFraction]
      field_simp
      ring
    have hbox := (hx.1 "materials.phase_equilibria.lever.beta_fraction").trans
      (hx.2 "materials.phase_equilibria.lever.beta_fraction")
    have hself := hvalue (x "materials.phase_equilibria.lever.beta_fraction") ⟨hx.1 _, hx.2 _⟩
    rw [Function.update_eq_self] at hself
    simp only [hself, hvalue _ (Set.left_mem_Icc.mpr hbox), hvalue _ (Set.right_mem_Icc.mpr hbox),
      add_le_add_iff_left]
    exact div_le_or (hx.1 _) (hx.2 _) hpole
  · apply Corner.endsDominate_of_quadratic
    intro x _
    refine ⟨0, -(s / (x "materials.phase_equilibria.lever.beta_fraction"
        - x "materials.phase_equilibria.lever.alpha_fraction")),
      s * x "materials.phase_equilibria.lever.beta_fraction"
        / (x "materials.phase_equilibria.lever.beta_fraction"
          - x "materials.phase_equilibria.lever.alpha_fraction"), le_rfl, fun t => ?_⟩
    simp [leverValue, leverFraction]
    ring

/-- The point with these fractions. -/
noncomputable def leverPoint (box : PortMap (Interval ℝ)) (alpha beta overall : ℝ) : Port → ℝ :=
  Function.update (Function.update (Function.update (loEnd box)
    "materials.phase_equilibria.lever.alpha_fraction" alpha)
    "materials.phase_equilibria.lever.beta_fraction" beta)
    "materials.phase_equilibria.lever.overall_fraction" overall

theorem leverPoint_alpha (x y z : ℝ) :
    leverPoint box x y z "materials.phase_equilibria.lever.alpha_fraction" = x := by
  simp [leverPoint]

theorem leverPoint_beta (x y z : ℝ) :
    leverPoint box x y z "materials.phase_equilibria.lever.beta_fraction" = y := by
  simp [leverPoint]

theorem leverPoint_overall (x y z : ℝ) :
    leverPoint box x y z "materials.phase_equilibria.lever.overall_fraction" = z := by
  simp [leverPoint]

theorem IsEnd.contains {iv : Interval ℝ} (hiv : iv.lo ≤ iv.hi) {t : ℝ} (ht : IsEnd iv t) :
    iv.contains t := by
  rcases ht with rfl | rfl
  · exact ⟨le_rfl, hiv⟩
  · exact ⟨hiv, le_rfl⟩

/-- A box that the sweep encloses, as three intervals. -/
theorem leverBox_of_encloses (h : Swept (Entry.direction .leverRule) box)
    (hencloses : Encloses (Entry.direction .leverRule) box) :
    LeverBox (portRange box "materials.phase_equilibria.lever.alpha_fraction")
      (portRange box "materials.phase_equilibria.lever.beta_fraction")
      (portRange box "materials.phase_equilibria.lever.overall_fraction") := by
  have hbox := h.lo_le_hi
  have hok : ∀ x y z, IsEnd (portRange box "materials.phase_equilibria.lever.alpha_fraction") x →
      IsEnd (portRange box "materials.phase_equilibria.lever.beta_fraction") y →
      IsEnd (portRange box "materials.phase_equilibria.lever.overall_fraction") z →
      Distinct x y ∧ OnTieLine x y z := by
    intro x y z hx hy hz
    have hcorner : AtCorner box (leverPoint box x y z) := by
      refine Corner.AtEnds.update (Corner.AtEnds.update (Corner.AtEnds.update Corner.atEnds_lo
        ?_) ?_) ?_
      · exact hx
      · exact hy
      · exact hz
    have hadmissible := reports_leverRule.corner h hcorner
    simp only [leverPoint_alpha, leverPoint_beta, leverPoint_overall] at hadmissible
    exact hadmissible
  refine ⟨hok, fun x y z hx hy hz hdistinct => ?_⟩
  have hpoint : Point box (leverPoint box x y z) :=
    Corner.update_mem_Icc (Corner.update_mem_Icc (Corner.update_mem_Icc ⟨le_rfl, hbox⟩ hx) hy)
      (hz.contains (hbox _))
  -- the tie line of the corners holds of the point too
  have htie : OnTieLine x y z := by
    have hlow := (hok _ _ z (Or.inr rfl) (Or.inr rfl) hz).2.1
    have hhigh := (hok _ _ z (Or.inl rfl) (Or.inl rfl) hz).2.2
    have hmin := min_le_min hx.2 hy.2
    have hmax := max_le_max hx.1 hy.1
    constructor <;> linarith
  have hall := (reports_leverRule.encloses_iff h).mp hencloses _ hpoint
    (by simp only [leverPoint_alpha, leverPoint_beta, leverPoint_overall]
        exact ⟨hdistinct, htie⟩)
  obtain ⟨⟨c, hc, hle⟩, c', hc', hge⟩ := hall
  simp only [leverPoint_alpha, leverPoint_beta, leverPoint_overall] at hle hge
  exact ⟨⟨_, _, _, hc _, hc _, hc _, hle⟩, _, _, _, hc' _, hc' _, hc' _, hge⟩

/-- **The sweep of the lever rule** encloses it exactly when no tie line of the
box degenerates, or the fraction is constant. -/
theorem leverRule_encloses_iff (h : Swept (Entry.direction .leverRule) box) :
    Encloses (Entry.direction .leverRule) box ↔
      TieLineApart (portRange box "materials.phase_equilibria.lever.alpha_fraction")
        (portRange box "materials.phase_equilibria.lever.beta_fraction")
        (portRange box "materials.phase_equilibria.lever.overall_fraction") := by
  have hbox := h.lo_le_hi
  constructor
  · intro hencloses
    exact (leverBox_of_encloses h hencloses).tieLineApart (hbox _) (hbox _)
  · intro hapart
    apply (reports_leverRule.encloses_iff h).mpr
    intro x hx hadmissible
    show (∃ c, AtCorner box c ∧ leverValue c ≤ leverValue x) ∧
      ∃ c, AtCorner box c ∧ leverValue x ≤ leverValue c
    have hlow : AtCorner box (loEnd box) := Corner.atEnds_lo
    rcases or_assoc.mpr hapart with hapart | ⟨hbeta, hlo, hhi⟩ | ⟨halpha, hlo, hhi⟩
    · obtain ⟨below, hbelow, hle⟩ := h.exists_corner_ge (endsDominate_lever (-1) hapart) hx
      obtain ⟨above, habove, hge⟩ := h.exists_corner_ge (endsDominate_lever 1 hapart) hx
      simp only [neg_mul, one_mul, neg_le_neg_iff] at hle hge
      exact ⟨⟨below, hbelow, hle⟩, above, habove, hge⟩
    · -- nothing of the other phase
      have hzero : ∀ y, Point box y → leverValue y = 0 := by
        intro y hy
        have h₁ := hy.1 "materials.phase_equilibria.lever.beta_fraction"
        have h₂ := hy.2 "materials.phase_equilibria.lever.beta_fraction"
        have h₃ := hy.1 "materials.phase_equilibria.lever.overall_fraction"
        have h₄ := hy.2 "materials.phase_equilibria.lever.overall_fraction"
        simp only [portRange] at hbeta hlo hhi
        rw [leverValue, leverFraction, div_eq_zero_iff]
        left
        linarith
      rw [hzero x hx]
      have hcorner := (hzero _ (h.point hlow)).le
      exact ⟨⟨_, hlow, hcorner⟩, _, hlow, (hzero _ (h.point hlow)).ge⟩
    · have hone : ∀ y, Point box y → Distinct
          (y "materials.phase_equilibria.lever.alpha_fraction")
          (y "materials.phase_equilibria.lever.beta_fraction") → leverValue y = 1 := by
        intro y hy hdistinct
        have h₁ := hy.1 "materials.phase_equilibria.lever.alpha_fraction"
        have h₂ := hy.2 "materials.phase_equilibria.lever.alpha_fraction"
        have h₃ := hy.1 "materials.phase_equilibria.lever.overall_fraction"
        have h₄ := hy.2 "materials.phase_equilibria.lever.overall_fraction"
        simp only [portRange] at halpha hlo hhi
        rw [leverValue, leverFraction, div_eq_one_iff_eq (sub_ne_zero.mpr hdistinct.ne.symm)]
        linarith
      have hcorner := hone _ (h.point hlow) (reports_leverRule.corner h hlow).1
      rw [hone x hx hadmissible.1]
      exact ⟨⟨_, hlow, hcorner.le⟩, _, hlow, hcorner.ge⟩

/-! ### The regular solution -/

/-- `g_mix`. -/
noncomputable def gibbsMixing (moleFraction temperature omega : ℝ) : ℝ :=
  gasConstant * temperature
      * (moleFraction * log moleFraction + (1 - moleFraction) * log (1 - moleFraction))
    + omega * moleFraction * (1 - moleFraction)

/-- The mixing energy of a point. -/
noncomputable def gibbsMixingAt (x : Port → ℝ) : ℝ :=
  gibbsMixing (x "materials.phase_equilibria.regular_solution.mole_fraction")
    (x "materials.phase_equilibria.regular_solution.temperature")
    (x "materials.phase_equilibria.regular_solution.omega")

theorem reports_regularSolution : Reports (Entry.direction .regularSolution)
    "materials.phase_equilibria.regular_solution.gibbs_mixing"
    (fun x => ¬ x "materials.phase_equilibria.regular_solution.temperature" ≤ 0)
    gibbsMixingAt :=
  ⟨fun _ hx => if_neg hx, fun _ hx => ⟨_, if_pos (not_not.mp hx)⟩⟩

/-- Cold and with a great interaction parameter the energy is greatest. -/
theorem gibbsMixing_le {m temperature temperature' omega omega' : ℝ} (hm₀ : 0 ≤ m) (hm₁ : m ≤ 1)
    (ht : temperature ≤ temperature') (homega : omega' ≤ omega) :
    gibbsMixing m temperature' omega' ≤ gibbsMixing m temperature omega := by
  have hentropy : m * log m + (1 - m) * log (1 - m) ≤ 0 := by
    have h₁ : m * log m ≤ 0 := mul_nonpos_iff.mpr (Or.inl ⟨hm₀, Real.log_nonpos hm₀ hm₁⟩)
    have h₂ : (1 - m) * log (1 - m) ≤ 0 := mul_nonpos_iff.mpr
      (Or.inl ⟨sub_nonneg.mpr hm₁, Real.log_nonpos (sub_nonneg.mpr hm₁) (sub_le_self 1 hm₀)⟩)
    linarith
  have hideal : gasConstant * temperature' * (m * log m + (1 - m) * log (1 - m))
      ≤ gasConstant * temperature * (m * log m + (1 - m) * log (1 - m)) := by
    apply mul_le_mul_of_nonpos_right _ hentropy
    exact mul_le_mul_of_nonneg_left ht decimal_nonneg
  have hexcess : omega' * m * (1 - m) ≤ omega * m * (1 - m) := by
    apply mul_le_mul_of_nonneg_right _ (sub_nonneg.mpr hm₁)
    exact mul_le_mul_of_nonneg_right homega hm₀
  exact add_le_add hideal hexcess

/-- The mixing curve does not fall below its ends where it is lowest, nor rise
above them where it is highest. -/
def CurvesBetweenEnds (mole temperature omega : Interval ℝ) : Prop :=
  ∀ m, mole.contains m →
    min (gibbsMixing mole.lo temperature.hi omega.lo)
        (gibbsMixing mole.hi temperature.hi omega.lo)
      ≤ gibbsMixing m temperature.hi omega.lo ∧
    gibbsMixing m temperature.lo omega.hi
      ≤ max (gibbsMixing mole.lo temperature.lo omega.hi)
        (gibbsMixing mole.hi temperature.lo omega.hi)

/-- The point with this composition, temperature and interaction parameter. -/
noncomputable def mixingPoint (box : PortMap (Interval ℝ)) (m temperature omega : ℝ) :
    Port → ℝ :=
  Function.update (Function.update (Function.update (loEnd box)
    "materials.phase_equilibria.regular_solution.mole_fraction" m)
    "materials.phase_equilibria.regular_solution.temperature" temperature)
    "materials.phase_equilibria.regular_solution.omega" omega

theorem gibbsMixingAt_mixingPoint (m temperature omega : ℝ) :
    gibbsMixingAt (mixingPoint box m temperature omega) = gibbsMixing m temperature omega := by
  simp [gibbsMixingAt, mixingPoint]

theorem atCorner_mixingPoint {m temperature omega : ℝ}
    (h₁ : IsEnd (portRange box "materials.phase_equilibria.regular_solution.mole_fraction") m)
    (h₂ : IsEnd (portRange box "materials.phase_equilibria.regular_solution.temperature")
      temperature)
    (h₃ : IsEnd (portRange box "materials.phase_equilibria.regular_solution.omega") omega) :
    AtCorner box (mixingPoint box m temperature omega) := by
  refine Corner.AtEnds.update (Corner.AtEnds.update (Corner.AtEnds.update Corner.atEnds_lo
    ?_) ?_) ?_
  · exact h₁
  · exact h₂
  · exact h₃

theorem point_mixingPoint (hbox : loEnd box ≤ hiEnd box) {m temperature omega : ℝ}
    (h₁ : (portRange box "materials.phase_equilibria.regular_solution.mole_fraction").contains m)
    (h₂ : IsEnd (portRange box "materials.phase_equilibria.regular_solution.temperature")
      temperature)
    (h₃ : IsEnd (portRange box "materials.phase_equilibria.regular_solution.omega") omega) :
    Point box (mixingPoint box m temperature omega) :=
  Corner.update_mem_Icc (Corner.update_mem_Icc (Corner.update_mem_Icc ⟨le_rfl, hbox⟩ h₁)
    (h₂.contains (hbox _))) (h₃.contains (hbox _))

theorem Swept.moleFraction_mem (h : Swept (Entry.direction .regularSolution) box)
    {x : Port → ℝ} (hx : Point box x) :
    0 ≤ x "materials.phase_equilibria.regular_solution.mole_fraction" ∧
      x "materials.phase_equilibria.regular_solution.mole_fraction" ≤ 1 := by
  obtain ⟨hlo, hhi⟩ := h.ends_within List.mem_cons_self
  have hdecimal : (0 : ℝ) ≤ decimal 1 6 := decimal_nonneg
  exact ⟨hdecimal.trans (hlo.trans (hx.1 _)),
    (hx.2 _).trans (hhi.trans (sub_le_self 1 hdecimal))⟩

theorem Swept.temperature_pos (h : Swept (Entry.direction .regularSolution) box)
    {x : Port → ℝ} (hx : Point box x) :
    ¬ x "materials.phase_equilibria.regular_solution.temperature" ≤ 0 := by
  rw [not_le]
  exact zero_lt_one.trans_le (h.lower (.tail _ List.mem_cons_self) hx)

/-- The sweep of the regular solution encloses it exactly when the two extreme
mixing curves stay between their ends. -/
theorem regularSolution_encloses_iff_curves (h : Swept (Entry.direction .regularSolution) box) :
    Encloses (Entry.direction .regularSolution) box ↔
      CurvesBetweenEnds
        (portRange box "materials.phase_equilibria.regular_solution.mole_fraction")
        (portRange box "materials.phase_equilibria.regular_solution.temperature")
        (portRange box "materials.phase_equilibria.regular_solution.omega") := by
  have hbox := h.lo_le_hi
  rw [reports_regularSolution.encloses_iff h]
  constructor
  · intro hall m hm
    constructor
    · have hx := point_mixingPoint hbox hm (Or.inr rfl) (Or.inl rfl)
      obtain ⟨⟨c, hc, hle⟩, -⟩ := hall _ hx (h.temperature_pos hx)
      rw [gibbsMixingAt_mixingPoint] at hle
      -- the corner moved to the high temperature and the low parameter is lower still
      obtain ⟨hm₀, hm₁⟩ := h.moleFraction_mem (h.point hc)
      have hlower := (gibbsMixing_le hm₀ hm₁ ((h.point hc).2 _) ((h.point hc).1 _)).trans hle
      exact (hc.min_le "materials.phase_equilibria.regular_solution.mole_fraction"
        fun m => gibbsMixing m _ _).trans hlower
    · have hx := point_mixingPoint hbox hm (Or.inl rfl) (Or.inr rfl)
      obtain ⟨-, c, hc, hge⟩ := hall _ hx (h.temperature_pos hx)
      rw [gibbsMixingAt_mixingPoint] at hge
      obtain ⟨hm₀, hm₁⟩ := h.moleFraction_mem (h.point hc)
      have hupper := hge.trans (gibbsMixing_le hm₀ hm₁ ((h.point hc).1 _) ((h.point hc).2 _))
      exact hupper.trans (hc.le_max "materials.phase_equilibria.regular_solution.mole_fraction"
        fun m => gibbsMixing m _ _)
  · intro hcurves x hx _
    obtain ⟨hlow, hhigh⟩ := hcurves _ (Point.contains hx _)
    obtain ⟨hm₀, hm₁⟩ := h.moleFraction_mem hx
    have hbelow := hlow.trans (gibbsMixing_le hm₀ hm₁ (hx.2 _) (hx.1 _))
    have habove := (gibbsMixing_le hm₀ hm₁ (hx.1 _) (hx.2 _)).trans hhigh
    constructor
    · obtain ⟨m, hm, hle⟩ := Corner.exists_end_le (g := fun m => gibbsMixing m _ _) hbelow
      refine ⟨_, atCorner_mixingPoint hm (Or.inr rfl) (Or.inl rfl), ?_⟩
      rw [gibbsMixingAt_mixingPoint]
      exact hle
    · obtain ⟨m, hm, hge⟩ := Corner.exists_end_ge (g := fun m => gibbsMixing m _ _) habove
      refine ⟨_, atCorner_mixingPoint hm (Or.inl rfl) (Or.inr rfl), ?_⟩
      rw [gibbsMixingAt_mixingPoint]
      exact hge

/-- The ends of the composition decide where the two extreme mixing curves are
least and greatest. -/
def EndsTakeExtremes (mole temperature omega : Interval ℝ) : Prop :=
  Binodal.LeastAtEnd (omega.lo / (gasConstant * temperature.hi)) mole.lo mole.hi ∧
    Binodal.GreatestAtEnd (omega.hi / (gasConstant * temperature.lo)) mole.lo mole.hi

theorem gasConstant_pos : 0 < gasConstant := decimal_pos.mpr (by norm_num)

/-- The mixing energy in units of `R T`. -/
theorem gibbsMixing_eq_curve {temperature : ℝ} (ht : 0 < temperature) (m omega : ℝ) :
    gibbsMixing m temperature omega = gasConstant * temperature
      * Binodal.curve (omega / (gasConstant * temperature)) m := by
  have hunit := mul_pos gasConstant_pos ht
  have hcancel : gasConstant * temperature * (omega / (gasConstant * temperature)) = omega :=
    mul_div_cancel₀ _ hunit.ne'
  rw [gibbsMixing, Binodal.curve, Real.binEntropy, Real.log_inv, Real.log_inv]
  linear_combination (-(m * (1 - m))) * hcancel

theorem curvesBetweenEnds_iff {mole temperature omega : Interval ℝ} (hlo : 0 < mole.lo)
    (hhi : mole.hi < 1) (hmole : mole.lo ≤ mole.hi) (hcold : 0 < temperature.lo)
    (hhot : 0 < temperature.hi) :
    CurvesBetweenEnds mole temperature omega ↔ EndsTakeExtremes mole temperature omega := by
  have hunit := mul_pos gasConstant_pos hcold
  have hunit' := mul_pos gasConstant_pos hhot
  unfold CurvesBetweenEnds EndsTakeExtremes
  rw [← Binodal.min_le_curve_iff hlo hhi hmole, ← Binodal.curve_le_max_iff hlo hhi hmole]
  simp only [gibbsMixing_eq_curve hcold, gibbsMixing_eq_curve hhot,
    ← mul_min_of_nonneg _ _ hunit'.le, ← mul_max_of_nonneg _ _ hunit.le,
    mul_le_mul_iff_right₀ hunit, mul_le_mul_iff_right₀ hunit']
  constructor
  · exact fun h => ⟨fun m hlow hhigh => (h m ⟨hlow, hhigh⟩).1,
      fun m hlow hhigh => (h m ⟨hlow, hhigh⟩).2⟩
  · exact fun h m hm => ⟨h.1 m hm.1 hm.2, h.2 m hm.1 hm.2⟩

/-- **The sweep of the regular solution** encloses it exactly when the ends of the
composition decide the extremes of the two extreme mixing curves. -/
theorem regularSolution_encloses_iff (h : Swept (Entry.direction .regularSolution) box) :
    Encloses (Entry.direction .regularSolution) box ↔
      EndsTakeExtremes
        (portRange box "materials.phase_equilibria.regular_solution.mole_fraction")
        (portRange box "materials.phase_equilibria.regular_solution.temperature")
        (portRange box "materials.phase_equilibria.regular_solution.omega") := by
  have hbox := h.lo_le_hi
  obtain ⟨hlo, hhi⟩ := h.ends_within List.mem_cons_self
  obtain ⟨hcold, -⟩ := h.ends_within (.tail _ List.mem_cons_self)
  have hdecimal : (0 : ℝ) < decimal 1 6 := decimal_pos.mpr one_pos
  have hcold' : 0 < loEnd box "materials.phase_equilibria.regular_solution.temperature" :=
    zero_lt_one.trans_le hcold
  rw [regularSolution_encloses_iff_curves h]
  apply curvesBetweenEnds_iff
  · exact hdecimal.trans_le hlo
  · exact hhi.trans_lt (sub_lt_self 1 hdecimal)
  · exact hbox _
  · exact hcold'
  · exact hcold'.trans_le (hbox _)

end Catalog

end Feldspar

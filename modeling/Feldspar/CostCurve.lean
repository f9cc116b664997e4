/-
Feldspar/CostCurve.lean

The cost curve of a budget-seeking solver (`seeking.py`): sampled points,
ascending in eps, and the lookup of a cost by the eps budget.

The validators accept every nonempty curve with ascending eps; nothing compares
costs.  The lookup picks by eps only, and among points of one eps the first, so
its answers are those of the first points (`IsFirst`).
-/
import Feldspar.Solver
import Mathlib.Data.List.MinMax

set_option linter.unusedSectionVars false

namespace Feldspar

/-! ### First maximum and first minimum -/

/-- The first maximum is the first of the elements with its value. -/
theorem find?_of_argmax {α β : Type*} [LinearOrder β] {f : α → β} {m : α} :
    ∀ {l : List α}, l.argmax f = some m → l.find? (fun a => f a = f m) = some m
  | [], h => by cases h
  | a :: l, h => by
      rw [List.argmax_cons] at h
      rcases hl : l.argmax f with - | c <;> rw [hl] at h
      · cases h
        simp
      · dsimp only at h
        split_ifs at h with hlt
        · cases h
          rw [List.find?_cons_of_neg (by simpa using hlt.ne)]
          exact find?_of_argmax hl
        · cases h
          simp

theorem find?_of_argmin {α β : Type*} [LinearOrder β] {f : α → β} {m : α} {l : List α}
    (h : l.argmin f = some m) : l.find? (fun a => f a = f m) = some m :=
  find?_of_argmax (β := βᵒᵈ) h

variable {K : Type} [Field K] [LinearOrder K]

/-! ### Curves -/

/-- The points of a curve that the validators accept. -/
structure CostCurve (K : Type) [Field K] [LinearOrder K] where
  points : List (CostPoint K)
  eps_nonneg : ∀ p ∈ points, 0 ≤ p.eps
  cost_pos : ∀ p ∈ points, 0 < p.cost
  ne_nil : points ≠ []
  ascending : points.Pairwise fun p q => p.eps ≤ q.eps

namespace CostCurve

/-- The validators of the points, then that of the curve. -/
def validate (points : List (CostPoint K)) : Except String (CostCurve K) :=
  if heps : ¬ ∀ p ∈ points, 0 ≤ p.eps then .error "CostPoint.eps must be >= 0"
  else if hcost : ¬ ∀ p ∈ points, 0 < p.cost then .error "CostPoint.cost must be > 0"
  else if hne : points = [] then .error "CostCurve requires at least one point"
  else if hasc : ¬ points.Pairwise fun p q => p.eps ≤ q.eps then
    .error "CostCurve points must be sorted ascending by eps"
  else .ok ⟨points, not_not.mp heps, not_not.mp hcost, hne, not_not.mp hasc⟩

/-- Every curve is one that the validators accept. -/
theorem validate_points (curve : CostCurve K) : validate curve.points = .ok curve := by
  rw [validate, dif_neg (not_not.mpr curve.eps_nonneg), dif_neg (not_not.mpr curve.cost_pos),
    dif_neg curve.ne_nil, dif_neg (not_not.mpr curve.ascending)]

/-- `scalar`. -/
def scalar (cost : K) (h : 0 < cost) : CostCurve K where
  points := [⟨0, cost⟩]
  eps_nonneg := by simp
  cost_pos := by simpa using h
  ne_nil := by simp
  ascending := by simp

variable (curve : CostCurve K)

/-- `min(self.points, key=lambda p: p.eps)`. -/
def finest : CostPoint K :=
  (curve.points.argmin CostPoint.eps).get
    (Option.isSome_iff_ne_none.mpr fun h => curve.ne_nil (List.argmin_eq_none.mp h))

def costForBudget (epsBudget : K) : K :=
  let fitting := curve.points.filter fun p => p.eps ≤ epsBudget
  match fitting.argmax CostPoint.eps with
  | some p => p.cost
  | none => curve.finest.cost

/-! ### The points that a lookup picks -/

/-- The first of the points with its eps. -/
def IsFirst (p : CostPoint K) : Prop := curve.points.find? (fun q => q.eps = p.eps) = some p

def Fits (epsBudget : K) : Prop := ∃ p ∈ curve.points, p.eps ≤ epsBudget

variable {curve} {p q : CostPoint K} {epsBudget : K}

theorem IsFirst.mem (h : curve.IsFirst p) : p ∈ curve.points := List.mem_of_find?_eq_some h

theorem IsFirst.unique (hp : curve.IsFirst p) (hq : curve.IsFirst q) (heps : p.eps = q.eps) :
    p = q := by
  unfold IsFirst at hp hq
  rw [heps] at hp
  exact Option.some.inj (hp.symm.trans hq)

theorem isFirst_head : curve.IsFirst (curve.points.head curve.ne_nil) := by
  have hfind : ∀ {l : List (CostPoint K)} (h : l ≠ []),
      l.find? (fun q => q.eps = (l.head h).eps) = some (l.head h) := by
    intro l h
    cases l with
    | nil => exact absurd rfl h
    | cons a l => simp
  exact hfind curve.ne_nil

theorem head_eps_le (hp : p ∈ curve.points) : (curve.points.head curve.ne_nil).eps ≤ p.eps := by
  have hasc := curve.ascending
  rw [← List.cons_head_tail curve.ne_nil] at hasc hp
  rcases List.mem_cons.mp hp with rfl | hp
  · exact le_rfl
  · exact (List.pairwise_cons.mp hasc).1 p hp

/-- Where a point fits, the lookup picks the first of the coarsest that do. -/
theorem costForBudget_of_fits (h : curve.Fits epsBudget) :
    ∃ m, curve.IsFirst m ∧ m.eps ≤ epsBudget ∧
      (∀ q ∈ curve.points, q.eps ≤ epsBudget → q.eps ≤ m.eps) ∧
      curve.costForBudget epsBudget = m.cost := by
  rcases hm : (curve.points.filter fun p => p.eps ≤ epsBudget).argmax CostPoint.eps with - | m
  · obtain ⟨p, hp, hfit⟩ := h
    have hmem : p ∈ curve.points.filter fun p => p.eps ≤ epsBudget :=
      List.mem_filter.mpr ⟨hp, by simpa using hfit⟩
    rw [List.argmax_eq_none.mp hm] at hmem
    cases hmem
  · obtain ⟨-, hfit⟩ := List.mem_filter.mp (List.argmax_mem hm)
    have hfit' : m.eps ≤ epsBudget := by simpa using hfit
    refine ⟨m, ?_, hfit', fun q hq hle => ?_, ?_⟩
    · have hfirst := find?_of_argmax hm
      rw [List.find?_filter] at hfirst
      unfold IsFirst
      rw [← hfirst]
      congr 1
      funext q
      -- a point with the same eps fits too
      by_cases heq : q.eps = m.eps
      · simp [heq, hfit']
      · simp [heq]
    · exact List.le_of_mem_argmax (List.mem_filter.mpr ⟨hq, by simpa using hle⟩) hm
    · unfold costForBudget
      simp only [hm]

theorem finest_eq_head : curve.finest = curve.points.head curve.ne_nil := by
  have hmin : curve.points.argmin CostPoint.eps = some curve.finest := by
    unfold finest
    rw [Option.some_get]
  have hfirst : curve.IsFirst curve.finest := find?_of_argmin hmin
  apply hfirst.unique isFirst_head
  apply le_antisymm
  · exact List.le_of_mem_argmin (List.head_mem curve.ne_nil) hmin
  · exact head_eps_le hfirst.mem

/-- Where none fits, it is the first point. -/
theorem costForBudget_of_not_fits (h : ¬ curve.Fits epsBudget) :
    curve.costForBudget epsBudget = (curve.points.head curve.ne_nil).cost := by
  have hnone : (curve.points.filter fun p => p.eps ≤ epsBudget) = [] := by
    rw [List.filter_eq_nil_iff]
    intro p hp hle
    exact h ⟨p, hp, by simpa using hle⟩
  unfold costForBudget
  simp only [hnone, List.argmax_nil]
  rw [finest_eq_head]

/-- At the eps of a first point, the lookup answers its cost. -/
theorem costForBudget_eps (hp : curve.IsFirst p) : curve.costForBudget p.eps = p.cost := by
  obtain ⟨m, hm, hle, hmax, hcost⟩ := costForBudget_of_fits ⟨p, hp.mem, le_rfl⟩
  rw [hcost, hm.unique hp (le_antisymm hle (hmax p hp.mem le_rfl))]

/-! ### Soundness for pruning -/

/-- What dominance pruning over costs needs of a curve. -/
structure SoundForPruning (curve : CostCurve K) : Prop where
  antitone : ∀ b b', b ≤ b' → curve.costForBudget b' ≤ curve.costForBudget b
  of_fits : ∀ b, ∀ cheapest ∈ curve.points, cheapest.eps ≤ b →
    (∀ q ∈ curve.points, q.eps ≤ b → cheapest.cost ≤ q.cost) →
    cheapest.cost ≤ curve.costForBudget b
  of_not_fits : ∀ b, ¬ curve.Fits b → ∀ p ∈ curve.points, p.cost ≤ curve.costForBudget b

/-- The costs follow the eps: the first point is the dearest, and the first points
do not get dearer. -/
structure Decreasing (curve : CostCurve K) : Prop where
  head : ∀ p ∈ curve.points, p.cost ≤ (curve.points.head curve.ne_nil).cost
  first : ∀ p q, curve.IsFirst p → curve.IsFirst q → p.eps ≤ q.eps → q.cost ≤ p.cost

/-- **Cost curves**: a curve is sound for pruning exactly when its costs follow
its eps. -/
theorem soundForPruning_iff [IsStrictOrderedRing K] (curve : CostCurve K) :
    curve.SoundForPruning ↔ curve.Decreasing := by
  constructor
  · intro h
    refine ⟨?_, fun p q hp hq hle => ?_⟩
    · -- a budget that is tighter than every point
      have htight : ¬ curve.Fits ((curve.points.head curve.ne_nil).eps - 1) := by
        rintro ⟨p, hp, hle⟩
        exact absurd (head_eps_le hp) (not_le.mpr (hle.trans_lt (sub_one_lt _)))
      intro p hp
      rw [← costForBudget_of_not_fits htight]
      exact h.of_not_fits _ htight p hp
    · rw [← costForBudget_eps hp, ← costForBudget_eps hq]
      exact h.antitone _ _ hle
  · intro h
    refine ⟨fun b b' hle => ?_, fun b cheapest _ hfit hcheapest => ?_, fun b hnot p hp => ?_⟩
    · by_cases hb : curve.Fits b
      · obtain ⟨m, hm, hfit, -, hcost⟩ := costForBudget_of_fits hb
        obtain ⟨m', hm', -, hmax', hcost'⟩ :=
          costForBudget_of_fits (⟨m, hm.mem, hfit.trans hle⟩ : curve.Fits b')
        rw [hcost, hcost']
        exact h.first m m' hm hm' (hmax' m hm.mem (hfit.trans hle))
      · rw [costForBudget_of_not_fits hb]
        by_cases hb' : curve.Fits b'
        · obtain ⟨m', hm', -, -, hcost'⟩ := costForBudget_of_fits hb'
          rw [hcost']
          exact h.head m' hm'.mem
        · rw [costForBudget_of_not_fits hb']
    · obtain ⟨m, hm, hle, -, hcost⟩ := costForBudget_of_fits ⟨cheapest, ‹_›, hfit⟩
      rw [hcost]
      exact hcheapest m hm.mem hle
    · rw [costForBudget_of_not_fits hnot]
      exact h.head p hp

theorem soundForPruning_iff_scalar : (scalar (5 : ℚ) (by decide +kernel)).SoundForPruning := by
  have hpoint : ∀ p ∈ (scalar (5 : ℚ) (by decide +kernel)).points, p = ⟨0, 5⟩ :=
    fun p hp => List.mem_singleton.mp hp
  rw [soundForPruning_iff]
  refine ⟨fun p hp => ?_, fun p q hp hq _ => ?_⟩
  · rw [hpoint p hp]
    exact le_rfl
  · rw [hpoint p hp.mem, hpoint q hq.mem]

/-- A point that is coarser and dearer. -/
def rising : CostCurve ℚ where
  points := [⟨0, 1⟩, ⟨1, 2⟩]
  eps_nonneg := by decide +kernel
  cost_pos := by decide +kernel
  ne_nil := by decide +kernel
  ascending := by decide +kernel

/-- A looser budget costs more. -/
theorem not_soundForPruning_rising :
    validate rising.points = .ok rising ∧ rising.costForBudget 0 = 1 ∧
      rising.costForBudget 1 = 2 ∧ ¬ rising.SoundForPruning := by
  have hlow : rising.costForBudget 0 = 1 := by decide +kernel
  have hhigh : rising.costForBudget 1 = 2 := by decide +kernel
  refine ⟨validate_points rising, hlow, hhigh, fun h => ?_⟩
  have hle := h.antitone 0 1 zero_le_one
  rw [hlow, hhigh] at hle
  exact absurd hle (by decide +kernel)

end CostCurve

end Feldspar

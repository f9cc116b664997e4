/-
Feldspar/MinerDamage.lean

Miner's rule and the S-N line (`mech/fatigue.py`).

Both directions take a block's life from one formula, which is a power law
through `(f sut, 10 ^ 3)` and `(se, 10 ^ 6)` (`life_eq`).  The S-N direction
refuses a life outside of `[10 ^ 3, 10 ^ 6]`, up to a tolerance; Miner's rule
leaves out the stresses up to `se`, where a life would be too long, and has no
check on the other end of the line.
-/
import Feldspar.Catalog
import Mathlib.Analysis.SpecialFunctions.Log.Base

set_option linter.unusedSectionVars false

namespace Feldspar

namespace Fatigue

open Catalog (decimal output)

/-! ### The directions -/

/-- `_SN_N_MIN`, `_SN_N_MAX` and `_SN_N_TOL`. -/
noncomputable def snNMin : ℝ := (10 ^ 3 : ℕ)

noncomputable def snNMax : ℝ := (10 ^ 6 : ℕ)

noncomputable def snNTol : ℝ := decimal 1 6

/-- `math.log10`. -/
noncomputable def log10 (x : ℝ) : ℝ := Real.logb (10 : ℕ) x

/-- `_sn_knee_params`. -/
noncomputable def snKneeParams (sut se f : ℝ) : Option (ℝ × ℝ) :=
  if sut ≤ 0 ∨ se ≤ 0 ∨ f ≤ 0 then none
  else
    let knee := f * sut
    if knee ≤ se then none
    else some (knee * knee / se, -(1 / (3 : ℕ)) * log10 (knee / se))

/-- `_sn_cycles_to_failure`. -/
noncomputable def snCyclesToFailure (sigmaA a b : ℝ) : ℝ := (sigmaA / a) ^ (1 / b)

noncomputable def fatigueSnCyclesToFailure (x : Port → ℝ) : Except String (PortMap ℝ) :=
  let sigmaA := x "mech.fatigue.sn.sigma_a"
  match snKneeParams (x "mech.fatigue.sn.sut") (x "mech.fatigue.sn.se") (x "mech.fatigue.sn.f") with
  | none => .error "S-N cycles-to-failure: non-positive/degenerate (need f*sut > se)"
  | some (a, b) =>
      if sigmaA ≤ 0 then
        .error "S-N cycles-to-failure: non-positive/degenerate (need f*sut > se)"
      else
        let n := snCyclesToFailure sigmaA a b
        if ¬ (snNMin * (1 - snNTol) ≤ n ∧ n ≤ snNMax * (1 + snNTol)) then
          .error "S-N cycles-to-failure: outside the knee-line's honest range"
        else .ok (output "mech.fatigue.sn.cycles_to_failure" n)

/-- The content of a spectrum payload. -/
structure Spectrum where
  sigmaA : List ℝ
  cycles : List ℝ

/-- `zip(sigma_a_blocks, cycles_blocks)`. -/
def Spectrum.blocks (spectrum : Spectrum) : List (ℝ × ℝ) := spectrum.sigmaA.zip spectrum.cycles

/-- The loop over the blocks, from the damage so far on. -/
noncomputable def accumulate (se a b : ℝ) : ℝ → List (ℝ × ℝ) → Except String ℝ
  | damage, [] => .ok damage
  | damage, (sigmaA, nApplied) :: blocks =>
      if sigmaA < 0 ∨ nApplied < 0 then .error "miner_damage: negative block"
      -- infinite life
      else if sigmaA ≤ se then accumulate se a b damage blocks
      else accumulate se a b (damage + nApplied / snCyclesToFailure sigmaA a b) blocks

/-- `miner_fn`, on what the resolver gives for the payload. -/
noncomputable def minerFn (resolved : Except String Spectrum) (x : Port → ℝ) :
    Except String (PortMap ℝ) := do
  let spectrum ← resolved
  if spectrum.sigmaA.length ≠ spectrum.cycles.length ∨ spectrum.sigmaA = [] then
    .error "miner_damage: spectrum blocks mismatched length or empty"
  else
    match snKneeParams (x "mech.fatigue.miner.sut") (x "mech.fatigue.miner.se")
      (x "mech.fatigue.miner.f") with
    | none => .error "miner_damage: degenerate S-N params"
    | some (a, b) =>
        let damage ← accumulate (x "mech.fatigue.miner.se") a b 0 spectrum.blocks
        pure (output "mech.fatigue.miner.damage" damage)

/-! ### The line -/

section Line

variable {sut se f : ℝ}

/-- The parameters of a line that falls from `f sut` to `se`. -/
structure Knee (sut se f : ℝ) : Prop where
  sut_pos : 0 < sut
  se_pos : 0 < se
  f_pos : 0 < f
  se_lt : se < f * sut

/-- The slope `b`. -/
noncomputable def slope (sut se f : ℝ) : ℝ := -(1 / (3 : ℕ)) * log10 (f * sut / se)

theorem snKneeParams_eq (h : Knee sut se f) :
    snKneeParams sut se f = some (f * sut * (f * sut) / se, slope sut se f) := by
  have hpos : ¬ (sut ≤ 0 ∨ se ≤ 0 ∨ f ≤ 0) := by
    rw [not_or, not_or, not_le, not_le, not_le]
    exact ⟨h.sut_pos, h.se_pos, h.f_pos⟩
  rw [snKneeParams, if_neg hpos]
  exact if_neg (not_le.mpr h.se_lt)

theorem snKneeParams_eq_none (h : ¬ Knee sut se f) : snKneeParams sut se f = none := by
  rw [snKneeParams]
  by_cases hpos : sut ≤ 0 ∨ se ≤ 0 ∨ f ≤ 0
  · exact if_pos hpos
  · rw [if_neg hpos]
    apply if_pos
    rw [not_or, not_or, not_le, not_le, not_le] at hpos
    exact not_lt.mp fun hlt => h ⟨hpos.1, hpos.2.1, hpos.2.2, hlt⟩

theorem ten_rpow_log10 {r : ℝ} (hr : 0 < r) : (10 : ℝ) ^ log10 r = r := by
  rw [log10, Nat.cast_ofNat]
  exact Real.rpow_logb (by norm_num) (by norm_num) hr

theorem slope_neg (h : Knee sut se f) : slope sut se f < 0 := by
  have hlog : 0 < log10 (f * sut / se) := by
    rw [log10, Nat.cast_ofNat]
    exact Real.logb_pos (by norm_num) ((one_lt_div h.se_pos).mpr h.se_lt)
  rw [slope, Nat.cast_ofNat]
  linarith

/-- From one end of the line to the other the life grows a thousandfold. -/
theorem se_rpow (h : Knee sut se f) : (se / (f * sut)) ^ (1 / slope sut se f) = 1000 := by
  have hknee : 0 < f * sut := mul_pos h.f_pos h.sut_pos
  have hratio : 0 < f * sut / se := div_pos hknee h.se_pos
  have hslope := (slope_neg h).ne
  have hlog : log10 (f * sut / se) = -3 * slope sut se f := by
    rw [slope, Nat.cast_ofNat]
    ring
  calc (se / (f * sut)) ^ (1 / slope sut se f)
      = ((10 : ℝ) ^ (-log10 (f * sut / se))) ^ (1 / slope sut se f) := by
        rw [Real.rpow_neg (by norm_num), ten_rpow_log10 hratio, inv_div]
    _ = (10 : ℝ) ^ (-log10 (f * sut / se) * (1 / slope sut se f)) := by
        rw [Real.rpow_mul (by norm_num)]
    _ = (10 : ℝ) ^ (3 : ℝ) := by
        rw [hlog]
        congr 1
        field_simp
    _ = 1000 := by norm_num

/-- The life is a power law through `f sut` and a thousand cycles. -/
theorem life_eq (h : Knee sut se f) {sigmaA : ℝ} (hpos : 0 ≤ sigmaA) :
    snCyclesToFailure sigmaA (f * sut * (f * sut) / se) (slope sut se f)
      = 1000 * (sigmaA / (f * sut)) ^ (1 / slope sut se f) := by
  have hknee : 0 < f * sut := mul_pos h.f_pos h.sut_pos
  have hse := h.se_pos.ne'
  have hsplit : sigmaA / (f * sut * (f * sut) / se) = sigmaA / (f * sut) * (se / (f * sut)) := by
    field_simp
  rw [snCyclesToFailure, hsplit, Real.mul_rpow (div_nonneg hpos hknee.le)
    (div_nonneg h.se_pos.le hknee.le), se_rpow h, mul_comm]

/-- The largest stress whose life the S-N direction accepts. -/
noncomputable def snLimit (sut se f : ℝ) : ℝ := f * sut * (1 - snNTol) ^ slope sut se f

theorem snNTol_lt : 0 < snNTol ∧ snNTol < 1 := by
  rw [snNTol, decimal]
  constructor <;> norm_num

/-- A stress above `se` has less than a million cycles. -/
theorem life_lt (h : Knee sut se f) {sigmaA : ℝ} (hlt : se < sigmaA) :
    snCyclesToFailure sigmaA (f * sut * (f * sut) / se) (slope sut se f) < snNMax := by
  have hknee : 0 < f * sut := mul_pos h.f_pos h.sut_pos
  have hpos := h.se_pos.trans hlt
  have hpow : (sigmaA / (f * sut)) ^ (1 / slope sut se f)
      < (se / (f * sut)) ^ (1 / slope sut se f) := by
    rw [Real.rpow_lt_rpow_iff_of_neg (div_pos hpos hknee) (div_pos h.se_pos hknee)
      (one_div_neg.mpr (slope_neg h))]
    exact div_lt_div_of_pos_right hlt hknee
  rw [se_rpow h] at hpow
  have hmax : snNMax = 1000 * 1000 := by
    rw [snNMax]
    norm_num
  rw [life_eq h hpos.le, hmax]
  exact mul_lt_mul_of_pos_left hpow (by norm_num)

/-- And at least a thousand up to the limit. -/
theorem le_life_iff (h : Knee sut se f) {sigmaA : ℝ} (hpos : 0 < sigmaA) :
    snNMin * (1 - snNTol) ≤ snCyclesToFailure sigmaA (f * sut * (f * sut) / se) (slope sut se f)
      ↔ sigmaA ≤ snLimit sut se f := by
  have hknee : 0 < f * sut := mul_pos h.f_pos h.sut_pos
  have htol : 0 < 1 - snNTol := sub_pos.mpr snNTol_lt.2
  have hmin : snNMin = 1000 := by
    rw [snNMin]
    norm_num
  rw [life_eq h hpos.le, hmin, mul_le_mul_iff_of_pos_left (by norm_num)]
  calc 1 - snNTol ≤ (sigmaA / (f * sut)) ^ (1 / slope sut se f)
      ↔ ((1 - snNTol) ^ slope sut se f) ^ (1 / slope sut se f)
          ≤ (sigmaA / (f * sut)) ^ (1 / slope sut se f) := by
        rw [one_div, Real.rpow_rpow_inv htol.le (slope_neg h).ne]
    _ ↔ sigmaA / (f * sut) ≤ (1 - snNTol) ^ slope sut se f :=
        Real.rpow_le_rpow_iff_of_neg (Real.rpow_pos_of_pos htol _) (div_pos hpos hknee)
          (one_div_neg.mpr (slope_neg h))
    _ ↔ sigmaA ≤ snLimit sut se f := by
        rw [div_le_iff₀' hknee, snLimit]

end Line

/-! ### The damage of a spectrum -/

section Damage

variable (x : Port → ℝ)

/-- The inputs of the S-N direction for a block's stress. -/
def snInputs (sigmaA : ℝ) : Port → ℝ := fun p =>
  if p = "mech.fatigue.sn.sigma_a" then sigmaA
  else if p = "mech.fatigue.sn.sut" then x "mech.fatigue.miner.sut"
  else if p = "mech.fatigue.sn.se" then x "mech.fatigue.miner.se"
  else x "mech.fatigue.miner.f"

def MinerKnee : Prop :=
  Knee (x "mech.fatigue.miner.sut") (x "mech.fatigue.miner.se") (x "mech.fatigue.miner.f")

/-- The life of a stress on the line. -/
noncomputable def blockLife (sigmaA : ℝ) : ℝ :=
  snCyclesToFailure sigmaA
    (x "mech.fatigue.miner.f" * x "mech.fatigue.miner.sut"
      * (x "mech.fatigue.miner.f" * x "mech.fatigue.miner.sut") / x "mech.fatigue.miner.se")
    (slope (x "mech.fatigue.miner.sut") (x "mech.fatigue.miner.se") (x "mech.fatigue.miner.f"))

noncomputable def blockLimit : ℝ :=
  snLimit (x "mech.fatigue.miner.sut") (x "mech.fatigue.miner.se") (x "mech.fatigue.miner.f")

/-- The sum of `n_i / N_i` over the blocks above `se` with positive cycles. -/
noncomputable def damageSum (life : ℝ → ℝ) (se : ℝ) (blocks : List (ℝ × ℝ)) : ℝ :=
  ((blocks.filter fun block => se < block.1 ∧ 0 < block.2).map fun block =>
    block.2 / life block.1).sum

/-- A spectrum and inputs that give a damage. -/
structure Accepts (spectrum : Spectrum) : Prop where
  length_eq : spectrum.sigmaA.length = spectrum.cycles.length
  ne_nil : spectrum.sigmaA ≠ []
  knee : MinerKnee x
  nonneg : ∀ block ∈ spectrum.blocks, 0 ≤ block.1 ∧ 0 ≤ block.2

theorem damageSum_perm (life : ℝ → ℝ) (se : ℝ) {blocks blocks' : List (ℝ × ℝ)}
    (h : blocks.Perm blocks') : damageSum life se blocks = damageSum life se blocks' :=
  ((h.filter _).map _).sum_eq

/-- One more block; one without cycles adds nothing. -/
theorem damageSum_cons (life : ℝ → ℝ) (se : ℝ) {block : ℝ × ℝ} (hcycles : 0 ≤ block.2)
    (blocks : List (ℝ × ℝ)) :
    damageSum life se (block :: blocks)
      = (if block.1 ≤ se then 0 else block.2 / life block.1) + damageSum life se blocks := by
  by_cases hcounted : se < block.1 ∧ 0 < block.2
  · have hkeep : (decide (se < block.1 ∧ 0 < block.2)) = true := decide_eq_true hcounted
    rw [damageSum, List.filter_cons, if_pos hkeep, if_neg (not_le.mpr hcounted.1), List.map_cons,
      List.sum_cons, damageSum]
  · have hskip : ¬ (decide (se < block.1 ∧ 0 < block.2)) = true :=
      fun h => hcounted (of_decide_eq_true h)
    have hzero : (if block.1 ≤ se then 0 else block.2 / life block.1) = 0 := by
      by_cases hse : block.1 ≤ se
      · exact if_pos hse
      · have hnone : block.2 = 0 :=
          le_antisymm (not_lt.mp fun hlt => hcounted ⟨not_le.mp hse, hlt⟩) hcycles
        rw [if_neg hse, hnone, zero_div]
    rw [damageSum, List.filter_cons, if_neg hskip, damageSum, hzero, zero_add]

theorem accumulate_ok {se a b : ℝ} : ∀ (blocks : List (ℝ × ℝ)) (damage : ℝ),
    (∀ block ∈ blocks, 0 ≤ block.1 ∧ 0 ≤ block.2) →
      accumulate se a b damage blocks
        = .ok (damage + damageSum (fun sigmaA => snCyclesToFailure sigmaA a b) se blocks)
  | [], damage, _ => by
      rw [accumulate]
      exact congrArg _ (add_zero damage).symm
  | (sigmaA, nApplied) :: blocks, damage, h => by
      obtain ⟨⟨hsigma, hcycles⟩, h⟩ := List.forall_mem_cons.mp h
      have hneg : ¬ (sigmaA < 0 ∨ nApplied < 0) := by
        rw [not_or, not_lt, not_lt]
        exact ⟨hsigma, hcycles⟩
      rw [accumulate, if_neg hneg, damageSum_cons _ _ hcycles]
      by_cases hse : sigmaA ≤ se
      · rw [if_pos hse, if_pos hse, zero_add]
        exact accumulate_ok blocks damage h
      · rw [if_neg hse, if_neg hse, ← add_assoc]
        exact accumulate_ok blocks _ h

theorem accumulate_error {se a b : ℝ} : ∀ (blocks : List (ℝ × ℝ)) (damage : ℝ),
    (¬ ∀ block ∈ blocks, 0 ≤ block.1 ∧ 0 ≤ block.2) →
      ∃ e, accumulate se a b damage blocks = .error e
  | [], damage, h => absurd (fun block hmem => absurd hmem List.not_mem_nil) h
  | (sigmaA, nApplied) :: blocks, damage, h => by
      rw [accumulate]
      by_cases hneg : sigmaA < 0 ∨ nApplied < 0
      · exact ⟨_, if_pos hneg⟩
      · rw [if_neg hneg]
        rw [not_or, not_lt, not_lt] at hneg
        have hrest : ¬ ∀ block ∈ blocks, 0 ≤ block.1 ∧ 0 ≤ block.2 :=
          fun hall => h (List.forall_mem_cons.mpr ⟨hneg, hall⟩)
        by_cases hse : sigmaA ≤ se
        · rw [if_pos hse]
          exact accumulate_error blocks damage hrest
        · rw [if_neg hse]
          exact accumulate_error blocks _ hrest

variable {x} {spectrum : Spectrum}

theorem minerFn_ok (h : Accepts x spectrum) :
    minerFn (.ok spectrum) x = .ok (output "mech.fatigue.miner.damage"
      (damageSum (blockLife x) (x "mech.fatigue.miner.se") spectrum.blocks)) := by
  have hshape : ¬ (spectrum.sigmaA.length ≠ spectrum.cycles.length ∨ spectrum.sigmaA = []) := by
    rw [not_or, not_ne_iff]
    exact ⟨h.length_eq, h.ne_nil⟩
  show (if _ then _ else _) = _
  rw [if_neg hshape, snKneeParams_eq h.knee]
  show (accumulate _ _ _ 0 _ >>= fun damage => pure _) = _
  rw [accumulate_ok _ _ h.nonneg, zero_add]
  rfl

theorem minerFn_error (h : ¬ Accepts x spectrum) : ∃ e, minerFn (.ok spectrum) x = .error e := by
  by_cases hshape : spectrum.sigmaA.length ≠ spectrum.cycles.length ∨ spectrum.sigmaA = []
  · exact ⟨_, if_pos hshape⟩
  have hreduce : minerFn (.ok spectrum) x = _ := if_neg hshape
  rw [hreduce]
  rw [not_or, not_ne_iff] at hshape
  by_cases hknee : MinerKnee x
  · rw [snKneeParams_eq hknee]
    have hneg : ¬ ∀ block ∈ spectrum.blocks, 0 ≤ block.1 ∧ 0 ≤ block.2 :=
      fun hall => h ⟨hshape.1, hshape.2, hknee, hall⟩
    obtain ⟨e, he⟩ : ∃ e, accumulate (x "mech.fatigue.miner.se") _ _ 0 spectrum.blocks = .error e :=
      accumulate_error spectrum.blocks 0 hneg
    refine ⟨e, ?_⟩
    show (accumulate _ _ _ 0 _ >>= fun damage => pure _) = _
    rw [he]
    rfl
  · rw [snKneeParams_eq_none hknee]
    exact ⟨_, rfl⟩

theorem snKnee_iff {sigmaA : ℝ} :
    Knee (snInputs x sigmaA "mech.fatigue.sn.sut") (snInputs x sigmaA "mech.fatigue.sn.se")
      (snInputs x sigmaA "mech.fatigue.sn.f") ↔ MinerKnee x := Iff.rfl

/-- The S-N direction on a block's stress above `se`, between the two ends of
the line. -/
theorem sn_ok (h : MinerKnee x) {sigmaA : ℝ} (hse : x "mech.fatigue.miner.se" < sigmaA)
    (hle : sigmaA ≤ blockLimit x) :
    fatigueSnCyclesToFailure (snInputs x sigmaA)
      = .ok (output "mech.fatigue.sn.cycles_to_failure" (blockLife x sigmaA)) := by
  have hpos : 0 < sigmaA := h.se_pos.trans hse
  have hmax : snNMax ≤ snNMax * (1 + snNTol) := by
    have hcast : (0 : ℝ) ≤ snNMax := Nat.cast_nonneg _
    exact le_mul_of_one_le_right hcast (le_add_of_nonneg_right snNTol_lt.1.le)
  have hrange : snNMin * (1 - snNTol) ≤ blockLife x sigmaA
      ∧ blockLife x sigmaA ≤ snNMax * (1 + snNTol) :=
    ⟨(le_life_iff h hpos).mpr hle, (life_lt h hse).le.trans hmax⟩
  rw [fatigueSnCyclesToFailure, snKneeParams_eq (snKnee_iff.mpr h)]
  exact (if_neg (not_le.mpr hpos)).trans (if_neg (not_not.mpr hrange))

theorem sn_error (h : MinerKnee x) {sigmaA : ℝ} (hse : x "mech.fatigue.miner.se" < sigmaA)
    (hlt : blockLimit x < sigmaA) :
    fatigueSnCyclesToFailure (snInputs x sigmaA)
      = .error "S-N cycles-to-failure: outside the knee-line's honest range" := by
  have hpos : 0 < sigmaA := h.se_pos.trans hse
  have hrange : ¬ (snNMin * (1 - snNTol) ≤ blockLife x sigmaA
      ∧ blockLife x sigmaA ≤ snNMax * (1 + snNTol)) :=
    fun hboth => absurd ((le_life_iff h hpos).mp hboth.1) (not_le.mpr hlt)
  rw [fatigueSnCyclesToFailure, snKneeParams_eq (snKnee_iff.mpr h)]
  exact (if_neg (not_le.mpr hpos)).trans (if_pos hrange)

/-! ### Miner's rule beside the S-N direction -/

/-- The blocks that count. -/
def Counted (x : Port → ℝ) (spectrum : Spectrum) (block : ℝ × ℝ) : Prop :=
  block ∈ spectrum.blocks ∧ x "mech.fatigue.miner.se" < block.1 ∧ 0 < block.2

/-- What an accepted damage should be: the S-N direction gives a life to every
counted block, the damage is the sum of the cycles over these lives, and the
order of the blocks has no part in it. -/
structure Agrees (x : Port → ℝ) (spectrum : Spectrum) (damage : ℝ) : Prop where
  sum_lives : ∃ life : ℝ → ℝ,
    (∀ block, Counted x spectrum block → fatigueSnCyclesToFailure (snInputs x block.1)
      = .ok (output "mech.fatigue.sn.cycles_to_failure" (life block.1))) ∧
    damage = damageSum life (x "mech.fatigue.miner.se") spectrum.blocks
  reordered : ∀ spectrum' : Spectrum, spectrum'.sigmaA.length = spectrum'.cycles.length →
    spectrum'.blocks.Perm spectrum.blocks →
      minerFn (.ok spectrum') x = .ok (output "mech.fatigue.miner.damage" damage)

theorem Accepts.of_perm (h : Accepts x spectrum) {spectrum' : Spectrum}
    (hlength : spectrum'.sigmaA.length = spectrum'.cycles.length)
    (hperm : spectrum'.blocks.Perm spectrum.blocks) : Accepts x spectrum' where
  length_eq := hlength
  ne_nil := by
    intro hnil
    have hblocks : spectrum'.blocks = [] := by
      rw [Spectrum.blocks, hnil, List.zip_nil_left]
    have hzip : spectrum.sigmaA.zip spectrum.cycles = [] := by
      have hempty := hperm.symm
      rw [hblocks] at hempty
      exact hempty.eq_nil
    have hcycles : spectrum.cycles ≠ [] := fun hc =>
      h.ne_nil (List.length_eq_zero_iff.mp (h.length_eq.trans (List.length_eq_zero_iff.mpr hc)))
    rcases List.zip_eq_nil_iff.mp hzip with hs | hc
    · exact h.ne_nil hs
    · exact hcycles hc
  knee := h.knee
  nonneg block hmem := h.nonneg block (hperm.subset hmem)

/-- Beyond the end of the line the S-N direction refuses what Miner's rule adds. -/
theorem not_agrees (h : Accepts x spectrum) {block : ℝ × ℝ} (hcounted : Counted x spectrum block)
    (hlt : blockLimit x < block.1) (damage : ℝ) : ¬ Agrees x spectrum damage := by
  intro hagrees
  obtain ⟨life, hlife, -⟩ := hagrees.sum_lives
  have hrefused := sn_error h.knee hcounted.2.1 hlt
  rw [hlife block hcounted] at hrefused
  cases hrefused

/-- An accepted damage agrees with the S-N direction exactly when no counted
block lies beyond the `10 ^ 3` end of the line. -/
theorem miner_agrees_iff (x : Port → ℝ) (spectrum : Spectrum) :
    (∀ damage, minerFn (.ok spectrum) x = .ok (output "mech.fatigue.miner.damage" damage) →
        Agrees x spectrum damage)
      ↔ (Accepts x spectrum → ∀ block, Counted x spectrum block → block.1 ≤ blockLimit x) := by
  constructor
  · intro hagrees haccepts block hcounted
    by_contra hbeyond
    exact not_agrees haccepts hcounted (not_le.mp hbeyond) _ (hagrees _ (minerFn_ok haccepts))
  · intro hlimit damage hok
    have haccepts : Accepts x spectrum := by
      by_contra hnot
      obtain ⟨e, he⟩ := minerFn_error hnot
      rw [he] at hok
      cases hok
    have hdamage : damage
        = damageSum (blockLife x) (x "mech.fatigue.miner.se") spectrum.blocks := by
      rw [minerFn_ok haccepts] at hok
      exact (Catalog.output_injective (Except.ok.inj hok)).symm
    refine ⟨⟨blockLife x, fun block hcounted => ?_, hdamage⟩, fun spectrum' hlength hperm => ?_⟩
    · exact sn_ok haccepts.knee hcounted.2.1 (hlimit haccepts block hcounted)
    · rw [minerFn_ok (haccepts.of_perm hlength hperm), hdamage, damageSum_perm _ _ hperm]

/-! ### A block of low-cycle fatigue -/

/-- A line from 500 MPa to 50 MPa. -/
noncomputable def lowCycleInputs : Port → ℝ := fun p =>
  if p = "mech.fatigue.miner.sut" then (10 ^ 9 : ℕ)
  else if p = "mech.fatigue.miner.se" then (5 * 10 ^ 7 : ℕ)
  else decimal 5 1

/-- One cycle at 1000 MPa. -/
noncomputable def lowCycleSpectrum : Spectrum := ⟨[(10 ^ 9 : ℕ)], [1]⟩

theorem accepts_lowCycle : Accepts lowCycleInputs lowCycleSpectrum where
  length_eq := rfl
  ne_nil := List.cons_ne_nil _ _
  knee := by
    have hknee : Knee ((10 ^ 9 : ℕ) : ℝ) ((5 * 10 ^ 7 : ℕ) : ℝ) (decimal 5 1) := by
      have hf : decimal 5 1 = 1 / 2 := by
        rw [decimal]
        norm_num
      rw [hf]
      constructor <;> norm_num
    exact hknee
  nonneg := by
    intro block hmem
    obtain rfl := List.mem_singleton.mp hmem
    exact ⟨Nat.cast_nonneg _, zero_le_one⟩

/-- The knee is at half of the stress, and the tolerance does not double it. -/
theorem blockLimit_lowCycle_lt : blockLimit lowCycleInputs < ((10 ^ 9 : ℕ) : ℝ) := by
  have hlimit : blockLimit lowCycleInputs
      = snLimit ((10 ^ 9 : ℕ) : ℝ) ((5 * 10 ^ 7 : ℕ) : ℝ) (decimal 5 1) := rfl
  have hratio : decimal 5 1 * ((10 ^ 9 : ℕ) : ℝ) / ((5 * 10 ^ 7 : ℕ) : ℝ) = 10 := by
    rw [decimal]
    norm_num
  have hslope : slope ((10 ^ 9 : ℕ) : ℝ) ((5 * 10 ^ 7 : ℕ) : ℝ) (decimal 5 1) = -(1 / 3) := by
    rw [slope, hratio, log10]
    norm_num
  have htol : (1 - snNTol) ^ (-(1 / 3) : ℝ) ≤ (1 - snNTol) ^ (-1 : ℝ) :=
    Real.rpow_le_rpow_of_exponent_ge (sub_pos.mpr snNTol_lt.2)
      (sub_le_self 1 snNTol_lt.1.le) (by norm_num)
  have hinv : (1 - snNTol) ^ (-1 : ℝ) < 2 := by
    rw [Real.rpow_neg_one, snNTol, decimal]
    norm_num
  rw [hlimit, snLimit, hslope]
  have hhalf : decimal 5 1 * ((10 ^ 9 : ℕ) : ℝ) = 5 * 10 ^ 8 := by
    rw [decimal]
    norm_num
  rw [hhalf]
  have hlt := htol.trans_lt hinv
  push_cast
  linarith

theorem not_agrees_lowCycle :
    ¬ ∀ damage, minerFn (.ok lowCycleSpectrum) lowCycleInputs
        = .ok (output "mech.fatigue.miner.damage" damage) →
      Agrees lowCycleInputs lowCycleSpectrum damage := by
  intro hagrees
  have hcounted : Counted lowCycleInputs lowCycleSpectrum (((10 ^ 9 : ℕ) : ℝ), 1) := by
    refine ⟨List.mem_singleton.mpr rfl, ?_, zero_lt_one⟩
    show ((5 * 10 ^ 7 : ℕ) : ℝ) < ((10 ^ 9 : ℕ) : ℝ)
    exact Nat.cast_lt.mpr (by norm_num)
  exact not_agrees accepts_lowCycle hcounted blockLimit_lowCycle_lt _
    (hagrees _ (minerFn_ok accepts_lowCycle))

end Damage

end Fatigue

end Feldspar

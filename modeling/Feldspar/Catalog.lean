/-
Feldspar/Catalog.lean

The closed-form directions of `materials/phase_equilibria.py`,
`mech/weld_groups.py`, `mech/member_capacity.py` and `mech/vibe.py`, over exact
reals, and what it is for a corner sweep to enclose one.

A `Direction` is what a sweep sees of a registered direction: the scalar inputs
with their declared intervals, and the function.  A payload is resolved before;
`milesGrms` and `maskContainment` take what it holds.  Where the float code gives
a NaN there is no exact value, and the function fails; the values that the error
texts show are left out.
-/
import Feldspar.CornerEnclosure
import Mathlib.Analysis.SpecialFunctions.Log.Basic
import Mathlib.Analysis.SpecialFunctions.Pow.Real
import Mathlib.Analysis.Real.Pi.Bounds

set_option linter.unusedSectionVars false

namespace Feldspar

namespace Catalog

open Real (sqrt log)

/-- A scalar input and its interval in the domain's box. -/
abbrev Input := Port × Interval ℝ

/-- A direction as a corner sweep sees it; `x["port"]` is `x "port"`. -/
structure Direction where
  inputs : List Input
  fn : (Port → ℝ) → Except String (PortMap ℝ)

/-- A result with one output. -/
def output (p : Port) (v : ℝ) : PortMap ℝ := OrdMap.ofFn [p] fun _ => v

/-- The decimal literal with `digits` and so many of them after the point. -/
noncomputable def decimal (digits places : ℕ) : ℝ := digits / (10 ^ places : ℕ)

@[simp] theorem decimal_pos {digits places : ℕ} : 0 < decimal digits places ↔ 0 < digits := by
  have hpow : (0 : ℝ) < (10 ^ places : ℕ) := Nat.cast_pos.mpr (Nat.pow_pos (Nat.succ_pos 9))
  rw [decimal, div_pos_iff_of_pos_right hpow, Nat.cast_pos]

@[simp] theorem decimal_nonneg {digits places : ℕ} : 0 ≤ decimal digits places :=
  div_nonneg (Nat.cast_nonneg _) (Nat.cast_nonneg _)

/-! ### `materials/phase_equilibria.py` -/

/-- `math.isclose` with its default relative tolerance. -/
def IsClose (a b absTol : ℝ) : Prop :=
  |a - b| ≤ max (decimal 1 9 * max |a| |b|) absTol

noncomputable def leverRulePhaseFraction (x : Port → ℝ) : Except String (PortMap ℝ) :=
  let alphaFraction := x "materials.phase_equilibria.lever.alpha_fraction"
  let betaFraction := x "materials.phase_equilibria.lever.beta_fraction"
  let overallFraction := x "materials.phase_equilibria.lever.overall_fraction"
  let lo := min alphaFraction betaFraction
  let hi := max alphaFraction betaFraction
  open Classical in
  if IsClose alphaFraction betaFraction (decimal 1 12) then
    .error "lever rule: degenerate tie line"
  else if ¬ (lo - decimal 1 9 ≤ overallFraction ∧ overallFraction ≤ hi + decimal 1 9) then
    .error "lever rule: overall_fraction not between phase boundaries"
  else .ok (output "materials.phase_equilibria.lever.phase_alpha_fraction"
    ((betaFraction - overallFraction) / (betaFraction - alphaFraction)))

/-- `_GAS_CONSTANT_J_PER_MOL_K`. -/
noncomputable def gasConstant : ℝ := decimal 8314462618 9

noncomputable def regularSolutionBinaryFreeEnergy (x : Port → ℝ) :
    Except String (PortMap ℝ) :=
  let moleFraction := x "materials.phase_equilibria.regular_solution.mole_fraction"
  let temperature := x "materials.phase_equilibria.regular_solution.temperature"
  let omega := x "materials.phase_equilibria.regular_solution.omega"
  if temperature ≤ 0 then .error "regular solution: non-positive temperature"
  else
    let idealTerm := gasConstant * temperature
      * (moleFraction * log moleFraction + (1 - moleFraction) * log (1 - moleFraction))
    let excessTerm := omega * moleFraction * (1 - moleFraction)
    .ok (output "materials.phase_equilibria.regular_solution.gibbs_mixing"
      (idealTerm + excessTerm))

/-! ### `mech/weld_groups.py` -/

/-- `math.hypot`. -/
noncomputable def hypot (a b : ℝ) : ℝ := sqrt (a ^ 2 + b ^ 2)

noncomputable def weldGroupInplaneShearTorsion (x : Port → ℝ) : Except String (PortMap ℝ) :=
  let vx := x "mech.weld.group.vx"
  let vy := x "mech.weld.group.vy"
  let torque := x "mech.weld.group.torque"
  let aw := x "mech.weld.group.aw"
  let jw := x "mech.weld.group.jw"
  let xi := x "mech.weld.group.xi"
  let yi := x "mech.weld.group.yi"
  if aw ≤ 0 then .error "weld group: non-positive weld length"
  else if jw ≤ 0 then .error "weld group: non-positive unit polar moment"
  else
    let fx := vx / aw - torque * yi / jw
    let fy := vy / aw + torque * xi / jw
    .ok (output "mech.weld.group.inplane_line_force" (hypot fx fy))

noncomputable def weldGroupOutofplaneBending (x : Port → ℝ) : Except String (PortMap ℝ) :=
  let moment := x "mech.weld.group.moment"
  let iw := x "mech.weld.group.iw"
  let c := x "mech.weld.group.c"
  if iw ≤ 0 then .error "weld group: non-positive unit second moment"
  else .ok (output "mech.weld.group.bending_line_force" (moment * c / iw))

noncomputable def weldGroupUtilization (x : Port → ℝ) : Except String (PortMap ℝ) :=
  let fInplane := x "mech.weld.group.inplane_line_force"
  let fBending := x "mech.weld.group.bending_line_force"
  let legSize := x "mech.weld.group.leg_size"
  let allowable := x "mech.weld.group.allowable_stress"
  if legSize ≤ 0 then .error "weld group: non-positive leg size"
  else if allowable ≤ 0 then .error "weld group: non-positive allowable stress"
  else
    let fPeak := hypot fInplane fBending
    let throat := decimal 707 3 * legSize
    let stress := fPeak / throat
    let ratio := stress / allowable
    .ok ((output "mech.weld.group.peak_stress" stress).insert
      "mech.weld.group.utilization_ratio" ratio)

/-! ### `mech/member_capacity.py` -/

/-- `_PHI_B`. -/
noncomputable def phiB : ℝ := decimal 9 1

/-- `_PHI_C`. -/
noncomputable def phiC : ℝ := decimal 9 1

noncomputable def flexuralYieldCapacityF2 (x : Port → ℝ) : Except String (PortMap ℝ) :=
  let fy := x "mech.member.flexure.fy"
  let zx := x "mech.member.flexure.zx"
  if fy ≤ 0 ∨ zx ≤ 0 then .error "F2.1: cannot form a flexural yield capacity"
  else
    let mp := fy * zx
    .ok (output "mech.member.flexure.capacity" (phiB * mp))

/-- The critical stress, inelastic or elastic. -/
noncomputable def criticalStress (fy e klR : ℝ) : ℝ :=
  let fe := Real.pi ^ 2 * e / klR ^ 2
  if klR ≤ decimal 471 2 * sqrt (e / fy) then decimal 658 3 ^ (fy / fe) * fy
  else decimal 877 3 * fe

noncomputable def axialYieldBucklingCapacityE3 (x : Port → ℝ) : Except String (PortMap ℝ) :=
  let fy := x "mech.member.axial.fy"
  let ag := x "mech.member.axial.ag"
  let e := x "mech.member.axial.e"
  let klR := x "mech.member.axial.kl_over_r"
  if fy ≤ 0 ∨ ag ≤ 0 ∨ e ≤ 0 ∨ klR ≤ 0 then .error "E3: cannot form an axial capacity"
  else
    let pn := criticalStress fy e klR * ag
    .ok (output "mech.member.axial.capacity" (phiC * pn))

noncomputable def eulerCriticalBucklingLoad (x : Port → ℝ) : Except String (PortMap ℝ) :=
  let e := x "mech.member.euler.e"
  let i := x "mech.member.euler.i"
  let k := x "mech.member.euler.k"
  let length := x "mech.member.euler.length"
  if e ≤ 0 ∨ i ≤ 0 ∨ k ≤ 0 ∨ length ≤ 0 then
    .error "Euler: cannot form a critical buckling load"
  else .ok (output "mech.member.euler.pcr" (Real.pi ^ 2 * e * i / (k * length) ^ 2))

/-! ### `mech/vibe.py` -/

/-- `mech_beam_cantilever_first_mode` of `vibration.rs`. -/
noncomputable def mechBeamCantileverFirstMode
    (youngsModulus secondMoment density area length : ℝ) : ℝ :=
  let beta1 := decimal 187510407 8
  let beta1Sq := beta1 * beta1
  beta1Sq / ((2 : ℕ) * Real.pi * length ^ 2)
    * sqrt (youngsModulus * secondMoment / (density * area))

noncomputable def beamCantileverFirstMode (x : Port → ℝ) : Except String (PortMap ℝ) :=
  let length := x "mech.geom.cantilever.length"
  let secondMoment := x "mech.section.second_moment"
  let youngsModulus := x "mech.material.youngs_modulus"
  let density := x "mech.material.density"
  let area := x "mech.section.area"
  .ok (output "mech.vibe.first_mode_freq"
    (mechBeamCantileverFirstMode youngsModulus secondMoment density area length))

noncomputable def sdofFirstMode (x : Port → ℝ) : Except String (PortMap ℝ) :=
  let stiffness := x "mech.vibe.stiffness"
  let mass := x "mech.vibe.mass"
  .ok (output "mech.vibe.first_mode_freq" (1 / ((2 : ℕ) * Real.pi) * sqrt (stiffness / mass)))

/-- `l[i]`. -/
def sample (l : List ℝ) (i : ℕ) : Except String ℝ :=
  match l[i]? with
  | some v => .ok v
  | none => .error "IndexError"

/-- The first segment of the grid that the frequency lies in. -/
noncomputable def segmentOf (freqHz : List ℝ) (fnHz : ℝ) : Option ℕ :=
  (List.range (freqHz.length - 1)).find? fun i =>
    freqHz[i]?.getD 0 ≤ fnHz ∧ fnHz ≤ freqHz[i + 1]?.getD 0

/-- `_lookup_asd`. -/
noncomputable def lookupAsd (freqHz asd : List ℝ) (fnHz : ℝ) : Except String ℝ := do
  if freqHz = [] ∨ fnHz < freqHz.head?.getD 0 ∨ freqHz.getLast?.getD 0 < fnHz then
    .error "first_mode_freq is outside the supplied spectrum's domain"
  else
    match segmentOf freqHz fnHz with
    | some i =>
        let loF := freqHz[i]?.getD 0
        let hiF := freqHz[i + 1]?.getD 0
        if hiF = loF then sample asd i
        else
          let t := (fnHz - loF) / (hiF - loF)
          let a ← sample asd i
          let b ← sample asd (i + 1)
          pure (a + t * (b - a))
    | none => (asd.getLast?.map .ok).getD (.error "IndexError")

/-- `mech_miles_grms` of `vibration.rs`. -/
noncomputable def mechMilesGrms (fnHz q asd : ℝ) : Except String ℝ :=
  let square := Real.pi / (2 : ℕ) * fnHz * q * asd
  if square < 0 then .error "nan" else .ok (sqrt square)

noncomputable def milesGrms (freqHz asd : List ℝ) (x : Port → ℝ) :
    Except String (PortMap ℝ) := do
  let lookedUp ← lookupAsd freqHz asd (x "mech.vibe.first_mode_freq")
  let grms ← mechMilesGrms (x "mech.vibe.first_mode_freq") (x "mech.vibe.q") lookedUp
  pure (output "mech.vibe.grms" grms)

/-- `all(p <= m for p, m in zip(profile, mask, strict=True))`. -/
noncomputable def allWithin : List ℝ → List ℝ → Except String Bool
  | [], [] => .ok true
  | p :: profile, m :: mask => if p ≤ m then allWithin profile mask else .ok false
  | _, _ => .error "ValueError"

/-- A sampled curve of a payload. -/
structure Samples where
  t : List ℝ
  y : List ℝ

open Classical in
noncomputable def maskContainment (profile mask : Samples) : Except String (PortMap ℝ) := do
  if profile.t ≠ mask.t then .error "profile/mask domain misalignment"
  else
    let contained ← allWithin profile.y mask.y
    pure (output "mech.vibe.mask_containment" (if contained then 1 else 0))

/-! ### The catalog -/

/-- The registered directions, with the content of their payloads. -/
inductive Entry
  | leverRule
  | regularSolution
  | weldInplane
  | weldBending
  | weldUtilization
  | flexureF2
  | axialE3
  | euler
  | beamFirstMode
  | sdofFirstMode
  | milesGrms (freqHz asd : List ℝ)
  | maskContainment (profile mask : Samples)

noncomputable def Entry.direction : Entry → Direction
  | .leverRule =>
      { inputs := [("materials.phase_equilibria.lever.alpha_fraction", ⟨0, 1⟩),
          ("materials.phase_equilibria.lever.beta_fraction", ⟨0, 1⟩),
          ("materials.phase_equilibria.lever.overall_fraction", ⟨0, 1⟩)]
        fn := leverRulePhaseFraction }
  | .regularSolution =>
      { inputs := [("materials.phase_equilibria.regular_solution.mole_fraction",
            ⟨decimal 1 6, 1 - decimal 1 6⟩),
          ("materials.phase_equilibria.regular_solution.temperature", ⟨1, (3500 : ℕ)⟩),
          ("materials.phase_equilibria.regular_solution.omega", ⟨-(50000 : ℕ), (50000 : ℕ)⟩)]
        fn := regularSolutionBinaryFreeEnergy }
  | .weldInplane =>
      { inputs := [("mech.weld.group.vx", ⟨-(10 ^ 7 : ℕ), (10 ^ 7 : ℕ)⟩),
          ("mech.weld.group.vy", ⟨-(10 ^ 7 : ℕ), (10 ^ 7 : ℕ)⟩),
          ("mech.weld.group.torque", ⟨-(10 ^ 6 : ℕ), (10 ^ 6 : ℕ)⟩),
          ("mech.weld.group.aw", ⟨decimal 1 3, (10 : ℕ)⟩),
          ("mech.weld.group.jw", ⟨decimal 1 9, (10 : ℕ)⟩),
          ("mech.weld.group.xi", ⟨-(10 : ℕ), (10 : ℕ)⟩),
          ("mech.weld.group.yi", ⟨-(10 : ℕ), (10 : ℕ)⟩)]
        fn := weldGroupInplaneShearTorsion }
  | .weldBending =>
      { inputs := [("mech.weld.group.moment", ⟨-(10 ^ 6 : ℕ), (10 ^ 6 : ℕ)⟩),
          ("mech.weld.group.iw", ⟨decimal 1 9, (10 : ℕ)⟩),
          ("mech.weld.group.c", ⟨-(10 : ℕ), (10 : ℕ)⟩)]
        fn := weldGroupOutofplaneBending }
  | .weldUtilization =>
      { inputs := [("mech.weld.group.inplane_line_force", ⟨0, (10 ^ 8 : ℕ)⟩),
          ("mech.weld.group.bending_line_force", ⟨0, (10 ^ 8 : ℕ)⟩),
          ("mech.weld.group.leg_size", ⟨decimal 1 3, decimal 5 2⟩),
          ("mech.weld.group.allowable_stress", ⟨(10 ^ 6 : ℕ), (5 * 10 ^ 8 : ℕ)⟩)]
        fn := weldGroupUtilization }
  | .flexureF2 =>
      { inputs := [("mech.member.flexure.fy", ⟨(2 * 10 ^ 8 : ℕ), (5 * 10 ^ 8 : ℕ)⟩),
          ("mech.member.flexure.zx", ⟨decimal 1 7, decimal 1 1⟩)]
        fn := flexuralYieldCapacityF2 }
  | .axialE3 =>
      { inputs := [("mech.member.axial.fy", ⟨(2 * 10 ^ 8 : ℕ), (5 * 10 ^ 8 : ℕ)⟩),
          ("mech.member.axial.ag", ⟨decimal 1 5, 1⟩),
          ("mech.member.axial.e", ⟨(190 * 10 ^ 9 : ℕ), (210 * 10 ^ 9 : ℕ)⟩),
          ("mech.member.axial.kl_over_r", ⟨1, (200 : ℕ)⟩)]
        fn := axialYieldBucklingCapacityE3 }
  | .euler =>
      { inputs := [("mech.member.euler.e", ⟨(10 ^ 9 : ℕ), (5 * 10 ^ 11 : ℕ)⟩),
          ("mech.member.euler.i", ⟨decimal 1 10, 1⟩),
          ("mech.member.euler.k", ⟨decimal 3 1, decimal 25 1⟩),
          ("mech.member.euler.length", ⟨decimal 1 3, (100 : ℕ)⟩)]
        fn := eulerCriticalBucklingLoad }
  | .beamFirstMode =>
      { inputs := [("mech.geom.cantilever.length", ⟨decimal 1 3, (10 : ℕ)⟩),
          ("mech.section.second_moment", ⟨decimal 1 12, 1⟩),
          ("mech.material.youngs_modulus", ⟨(10 ^ 6 : ℕ), (10 ^ 13 : ℕ)⟩),
          ("mech.material.density", ⟨1, (3 * 10 ^ 4 : ℕ)⟩),
          ("mech.section.area", ⟨decimal 1 8, (10 : ℕ)⟩)]
        fn := beamCantileverFirstMode }
  | .sdofFirstMode =>
      { inputs := [("mech.vibe.stiffness", ⟨decimal 1 3, (10 ^ 12 : ℕ)⟩),
          ("mech.vibe.mass", ⟨decimal 1 6, (10 ^ 6 : ℕ)⟩)]
        fn := Catalog.sdofFirstMode }
  | .milesGrms freqHz asd =>
      { inputs := [("mech.vibe.first_mode_freq", ⟨decimal 1 3, (10 ^ 5 : ℕ)⟩),
          ("mech.vibe.q", ⟨1, (200 : ℕ)⟩)]
        fn := Catalog.milesGrms freqHz asd }
  | .maskContainment profile mask =>
      { inputs := [], fn := fun _ => Catalog.maskContainment profile mask }

/-! ### Sweeps over a box -/

variable {d : Direction} {box : PortMap (Interval ℝ)}

/-- What the sweep evaluates at a corner. -/
noncomputable def Direction.eval (d : Direction) (corner : PortMap ℝ) : Except String (PortMap ℝ) :=
  d.fn (valueAt corner)

/-- The box lies in the domain, and every corner evaluates. -/
structure Swept (d : Direction) (box : PortMap (Interval ℝ)) : Prop where
  keys : ∀ p, p ∈ box ↔ p ∈ d.inputs.map Prod.fst
  proper : ProperMap box
  within : ∀ e ∈ d.inputs, ∀ iv, box[e.1]? = some iv → iv.isSubset e.2
  corners : ∀ corner, IsCorner box corner → ∃ out, d.eval corner = .ok out

/-- The hull of the corners contains the value of every output at every point
that evaluates. -/
def Encloses (d : Direction) (box : PortMap (Interval ℝ)) : Prop :=
  ∃ hull, cornerSweep box d.eval = .ok hull ∧
    ∀ x out, InBox box x → d.eval x = .ok out → ∀ (p : Port) (v : ℝ), out[p]? = some v →
      ∃ iv, hull[p]? = some iv ∧ iv.contains v

/-! ### Points and corners as functions of the ports -/

/-- The values of the ports at a point of the box. -/
abbrev Point (box : PortMap (Interval ℝ)) (x : Port → ℝ) : Prop :=
  x ∈ Set.Icc (loEnd box) (hiEnd box)

/-- The values of the ports at a corner. -/
abbrev AtCorner (box : PortMap (Interval ℝ)) (c : Port → ℝ) : Prop :=
  Corner.AtEnds (loEnd box) (hiEnd box) c

theorem ends_eq_of_notMem {q : Port} (hq : q ∉ box) : loEnd box q = 0 ∧ hiEnd box q = 0 := by
  unfold loEnd hiEnd
  rw [Std.ExtTreeMap.getElem?_eq_none hq]
  exact ⟨rfl, rfl⟩

theorem valueAt_pointOf {x : Port → ℝ} (hx : Point box x) : valueAt (pointOf box x) = x := by
  funext q
  rw [valueAt, getElem?_pointOf]
  split_ifs with hq
  · rfl
  · obtain ⟨hlo, hhi⟩ := ends_eq_of_notMem hq
    have hlower := hx.1 q
    have hupper := hx.2 q
    rw [hlo] at hlower
    rw [hhi] at hupper
    exact le_antisymm hlower hupper

theorem Swept.lo_le_hi (h : Swept d box) : loEnd box ≤ hiEnd box := by
  intro q
  by_cases hq : q ∈ box
  · obtain ⟨iv, hiv⟩ := OrdMap.mem_iff_exists.mp hq
    unfold loEnd hiEnd
    rw [hiv]
    exact h.proper q iv hiv
  · obtain ⟨hlo, hhi⟩ := ends_eq_of_notMem hq
    rw [hlo, hhi]

theorem Swept.point (h : Swept d box) {c : Port → ℝ} (hc : AtCorner box c) : Point box c :=
  hc.mem_Icc h.lo_le_hi

/-- A box in the domain lies between the declared ends. -/
theorem Swept.ends_within (h : Swept d box) {q : Port} {iv : Interval ℝ}
    (he : (q, iv) ∈ d.inputs) : iv.lo ≤ loEnd box q ∧ hiEnd box q ≤ iv.hi := by
  have hq : q ∈ box := (h.keys q).mpr (List.mem_map_of_mem he)
  obtain ⟨iv', hiv'⟩ := OrdMap.mem_iff_exists.mp hq
  have hsub := h.within _ he iv' hiv'
  unfold loEnd hiEnd
  rw [hiv']
  exact hsub

theorem Swept.lower (h : Swept d box) {q : Port} {iv : Interval ℝ} (he : (q, iv) ∈ d.inputs)
    {x : Port → ℝ} (hx : Point box x) : iv.lo ≤ x q := (h.ends_within he).1.trans (hx.1 q)

/-- A direction of positive inputs has them positive over the box. -/
theorem Swept.pos (h : Swept d box) (hd : ∀ e ∈ d.inputs, 0 < e.2.lo) {x : Port → ℝ}
    (hx : Point box x) : ∀ q ∈ d.inputs.map Prod.fst, 0 < x q := by
  intro q hq
  obtain ⟨e, he, rfl⟩ := List.mem_map.mp hq
  exact (hd e he).trans_le (h.lower he hx)

/-- The values of a port over the box. -/
noncomputable def portRange (box : PortMap (Interval ℝ)) (q : Port) : Interval ℝ :=
  ⟨loEnd box q, hiEnd box q⟩

theorem Point.contains {x : Port → ℝ} (hx : Point box x) (q : Port) : (portRange box q).contains (x q) :=
  ⟨hx.1 q, hx.2 q⟩

/-- The functions at the ends of the box are its corners. -/
theorem isCorner_iff {corner : PortMap ℝ} :
    IsCorner box corner ↔ ∃ c, AtCorner box c ∧ corner = pointOf box c := by
  constructor
  · intro hcorner
    refine ⟨valueAt corner, fun q => ?_, ?_⟩
    · by_cases hq : q ∈ box
      · obtain ⟨iv, hiv⟩ := OrdMap.mem_iff_exists.mp hq
        obtain ⟨v, hv⟩ := OrdMap.mem_iff_exists.mp ((hcorner.keys q).mpr hq)
        rw [valueAt, loEnd, hiEnd, hiv, hv]
        exact hcorner.vals q v iv hv hiv
      · have hnot : q ∉ corner := fun h => hq ((hcorner.keys q).mp h)
        rw [valueAt, Std.ExtTreeMap.getElem?_eq_none hnot, (ends_eq_of_notMem hq).1]
        exact Or.inl rfl
    · apply Std.ExtTreeMap.ext_getElem?
      intro q
      rw [getElem?_pointOf]
      split_ifs with hq
      · obtain ⟨v, hv⟩ := OrdMap.mem_iff_exists.mp ((hcorner.keys q).mpr hq)
        rw [valueAt, hv]
        rfl
      · exact Std.ExtTreeMap.getElem?_eq_none fun h => hq ((hcorner.keys q).mp h)
  · rintro ⟨c, hc, rfl⟩
    exact isCorner_pointOf fun q _ => hc q

theorem Direction.eval_pointOf {x : Port → ℝ} (hx : Point box x) :
    d.eval (pointOf box x) = d.fn x := by
  rw [Direction.eval, valueAt_pointOf hx]

/-- Every point has a corner with a value no smaller, when every input can be moved
to an end without lowering the function. -/
theorem Swept.exists_corner_ge (h : Swept d box) {f : (Port → ℝ) → ℝ}
    (hf : ∀ q ∈ d.inputs.map Prod.fst, Corner.EndsDominate (loEnd box) (hiEnd box) f q)
    {x : Port → ℝ} (hx : Point box x) : ∃ c, AtCorner box c ∧ f x ≤ f c := by
  apply Corner.exists_atEnds_ge (d.inputs.map Prod.fst).toFinset _ _ hx
  · intro q hq
    have hnot : q ∉ box := fun hmem => hq (List.mem_toFinset.mpr ((h.keys q).mp hmem))
    rw [(ends_eq_of_notMem hnot).1, (ends_eq_of_notMem hnot).2]
  · intro q hq
    exact hf q (List.mem_toFinset.mp hq)

/-- A value of an output at a corner. -/
def CornerValue (d : Direction) (box : PortMap (Interval ℝ)) (p : Port) (v : ℝ) : Prop :=
  ∃ c, AtCorner box c ∧ ∃ out, d.fn c = .ok out ∧ out[p]? = some v

/-- The values at the corners are those that the sweep hulls. -/
theorem Swept.hull (h : Swept d box) : ∃ hull, cornerSweep box d.eval = .ok hull ∧
    ∀ (p : Port) (v : ℝ), (∃ iv, hull[p]? = some iv ∧ iv.contains v) ↔
      (∃ below, CornerValue d box p below ∧ below ≤ v) ∧
        ∃ above, CornerValue d box p above ∧ v ≤ above := by
  choose! f hf using h.corners
  refine ⟨_, cornerSweep_ok hf, fun p v => ?_⟩
  have hvalue : ∀ u, (∃ r ∈ (enumerateCorners box).map f, r[p]? = some u) ↔
      CornerValue d box p u := by
    intro u
    constructor
    · rintro ⟨r, hr, hu⟩
      obtain ⟨corner, hcorner, rfl⟩ := List.mem_map.mp hr
      obtain ⟨c, hc, rfl⟩ := isCorner_iff.mp (mem_enumerateCorners.mp hcorner)
      refine ⟨c, hc, _, ?_, hu⟩
      rw [← hf _ (mem_enumerateCorners.mp hcorner), Direction.eval_pointOf (h.point hc)]
    · rintro ⟨c, hc, out, hout, hu⟩
      have hcorner : IsCorner box (pointOf box c) :=
        isCorner_iff.mpr ⟨c, hc, rfl⟩
      refine ⟨f (pointOf box c), List.mem_map_of_mem (mem_enumerateCorners.mpr hcorner), ?_⟩
      have heval := hf _ hcorner
      rw [Direction.eval_pointOf (h.point hc), hout] at heval
      cases heval
      exact hu
  constructor
  · rintro ⟨iv, hiv, hcontains⟩
    have hhull := isHullOf_hullFromResults hiv
    exact ⟨⟨iv.lo, (hvalue _).mp hhull.lo_mem, hcontains.1⟩,
      ⟨iv.hi, (hvalue _).mp hhull.hi_mem, hcontains.2⟩⟩
  · rintro ⟨⟨below, hbelow, hle⟩, ⟨above, habove, hge⟩⟩
    obtain ⟨r, hr, hu⟩ := (hvalue below).mpr hbelow
    obtain ⟨iv, hiv⟩ := OrdMap.mem_iff_exists.mp
      (mem_hullFromResults.mpr ⟨r, hr, OrdMap.mem_iff_exists.mpr ⟨_, hu⟩⟩)
    have hhull := isHullOf_hullFromResults hiv
    refine ⟨iv, hiv, (hhull.contains _ ⟨r, hr, hu⟩).1.trans hle, ?_⟩
    exact hge.trans (hhull.contains _ ((hvalue above).mpr habove)).2

/-- **A sweep encloses the range** when every value lies between two values at
corners. -/
theorem Swept.encloses_iff (h : Swept d box) : Encloses d box ↔
    ∀ x, Point box x → ∀ out, d.fn x = .ok out → ∀ (p : Port) (v : ℝ), out[p]? = some v →
      (∃ below, CornerValue d box p below ∧ below ≤ v) ∧
        ∃ above, CornerValue d box p above ∧ v ≤ above := by
  obtain ⟨hull, hhull, hcontains⟩ := h.hull
  constructor
  · rintro ⟨hull', hhull', hall⟩ x hx out hout p v hv
    rw [hhull] at hhull'
    cases hhull'
    apply (hcontains p v).mp
    apply hall (pointOf box x) out (inBox_pointOf hx) _ p v hv
    rw [Direction.eval_pointOf hx, hout]
  · intro hall
    refine ⟨hull, hhull, fun x out hx hout p v hv => (hcontains p v).mpr ?_⟩
    apply hall (coordinates x) (coordinates_mem_Icc hx) out _ p v hv
    rw [← Direction.eval_pointOf (coordinates_mem_Icc hx), pointOf_coordinates hx, hout]

/-! ### Directions with one output -/

/-- The direction reports `value` at the port `p` where `admissible` holds, and
fails elsewhere. -/
structure Reports (d : Direction) (p : Port) (admissible : (Port → ℝ) → Prop)
    (value : (Port → ℝ) → ℝ) : Prop where
  ok : ∀ x, admissible x → d.fn x = .ok (output p (value x))
  error : ∀ x, ¬ admissible x → ∃ e, d.fn x = .error e

variable {p : Port} {admissible : (Port → ℝ) → Prop} {value : (Port → ℝ) → ℝ}

theorem getElem?_output {q : Port} {v w : ℝ} :
    (output p v)[q]? = some w ↔ q = p ∧ w = v := by
  rw [output, OrdMap.getElem?_ofFn_eq_some, List.mem_singleton, eq_comm (a := v)]

theorem output_injective {v w : ℝ} (h : output p v = output p w) : v = w := by
  have hv : (output p v)[p]? = some v := getElem?_output.mpr ⟨rfl, rfl⟩
  rw [h] at hv
  exact (getElem?_output.mp hv).2

theorem Reports.admissible_of_ok (hd : Reports d p admissible value) {x : Port → ℝ}
    {out : PortMap ℝ} (h : d.fn x = .ok out) : admissible x := by
  by_contra hnot
  obtain ⟨e, he⟩ := hd.error x hnot
  rw [h] at he
  cases he

theorem Reports.corner (hd : Reports d p admissible value) (h : Swept d box) {c : Port → ℝ}
    (hc : AtCorner box c) : admissible c := by
  obtain ⟨out, hout⟩ := h.corners _ (isCorner_iff.mpr ⟨c, hc, rfl⟩)
  rw [Direction.eval_pointOf (h.point hc)] at hout
  exact hd.admissible_of_ok hout

theorem Reports.encloses_iff (hd : Reports d p admissible value) (h : Swept d box) :
    Encloses d box ↔ ∀ x, Point box x → admissible x →
      (∃ c, AtCorner box c ∧ value c ≤ value x) ∧ ∃ c, AtCorner box c ∧ value x ≤ value c := by
  have hcorner : ∀ u, CornerValue d box p u ↔ ∃ c, AtCorner box c ∧ value c = u := by
    intro u
    constructor
    · rintro ⟨c, hc, out, hout, hu⟩
      rw [hd.ok c (hd.corner h hc)] at hout
      cases hout
      exact ⟨c, hc, (getElem?_output.mp hu).2.symm⟩
    · rintro ⟨c, hc, rfl⟩
      exact ⟨c, hc, _, hd.ok c (hd.corner h hc), getElem?_output.mpr ⟨rfl, rfl⟩⟩
  rw [h.encloses_iff]
  constructor
  · intro hall x hx hok
    obtain ⟨⟨below, hbelow, hle⟩, above, habove, hge⟩ :=
      hall x hx _ (hd.ok x hok) p (value x) (getElem?_output.mpr ⟨rfl, rfl⟩)
    obtain ⟨c, hc, rfl⟩ := (hcorner below).mp hbelow
    obtain ⟨c', hc', rfl⟩ := (hcorner above).mp habove
    exact ⟨⟨c, hc, hle⟩, c', hc', hge⟩
  · intro hall x hx out hout q v hv
    have hok := hd.admissible_of_ok hout
    rw [hd.ok x hok] at hout
    cases hout
    obtain ⟨rfl, rfl⟩ := getElem?_output.mp hv
    obtain ⟨⟨c, hc, hle⟩, c', hc', hge⟩ := hall x hx hok
    exact ⟨⟨_, (hcorner _).mpr ⟨c, hc, rfl⟩, hle⟩, _, (hcorner _).mpr ⟨c', hc', rfl⟩, hge⟩

end Catalog

end Feldspar

/-
Feldspar/CatalogEnclosure.lean

Which boxes of the catalog a corner sweep encloses, entry by entry.

Seven of the twelve directions are enclosed over every box that sweeps.  The other
five can take an extreme inside a box: the condition of each is in `Entry.HoldsOn`,
and `shearBox` is a box that fails its own.
-/
import Feldspar.CatalogMonotone
import Feldspar.PhaseEquilibria
import Feldspar.WeldGroups
import Feldspar.AxialCapacity
import Feldspar.MilesSpectrum

set_option linter.unusedSectionVars false

namespace Feldspar

namespace Catalog

/-- What a box must have for its corner sweep to enclose the direction. -/
def Entry.HoldsOn (box : PortMap (Interval ℝ)) : Entry → Prop
  | .leverRule => TieLineApart
      (portRange box "materials.phase_equilibria.lever.alpha_fraction")
      (portRange box "materials.phase_equilibria.lever.beta_fraction")
      (portRange box "materials.phase_equilibria.lever.overall_fraction")
  | .regularSolution => EndsTakeExtremes
      (portRange box "materials.phase_equilibria.regular_solution.mole_fraction")
      (portRange box "materials.phase_equilibria.regular_solution.temperature")
      (portRange box "materials.phase_equilibria.regular_solution.omega")
  | .weldInplane => LeastAtCorner box
  | .axialE3 => TransitionOutside (portRange box "mech.member.axial.fy")
      (portRange box "mech.member.axial.e") (portRange box "mech.member.axial.kl_over_r")
  | .milesGrms freqHz asd => BetweenEnds freqHz asd (loEnd box "mech.vibe.first_mode_freq")
      (hiEnd box "mech.vibe.first_mode_freq")
  | .weldBending | .weldUtilization | .flexureF2 | .euler | .beamFirstMode | .sdofFirstMode
  | .maskContainment _ _ => True

/-- **The corner sweeps of the catalog**: a sweep that passes at all corners encloses
the direction exactly when its box meets the entry's condition. -/
theorem encloses_iff_holdsOn {box : PortMap (Interval ℝ)} (entry : Entry)
    (h : Swept entry.direction box) : Encloses entry.direction box ↔ entry.HoldsOn box := by
  cases entry with
  | leverRule => exact leverRule_encloses_iff h
  | regularSolution => exact regularSolution_encloses_iff h
  | weldInplane => exact weldInplane_encloses_iff h
  | weldBending => exact iff_true_intro (weldBending_encloses h)
  | weldUtilization => exact iff_true_intro (weldUtilization_encloses h)
  | flexureF2 => exact iff_true_intro (flexureF2_encloses h)
  | axialE3 => exact axialE3_encloses_iff h
  | euler => exact iff_true_intro (euler_encloses h)
  | beamFirstMode => exact iff_true_intro (beamFirstMode_encloses h)
  | sdofFirstMode => exact iff_true_intro (sdofFirstMode_encloses h)
  | milesGrms freqHz asd => exact milesGrms_encloses_iff h
  | maskContainment profile mask => exact iff_true_intro (maskContainment_encloses h)

/-! ### A shear that changes sign -/

/-- The shear is in `[-1, 1]`, and a unit weld carries nothing else. -/
noncomputable def shearRange (q : Port) : Interval ℝ :=
  if q = "mech.weld.group.vx" then ⟨-1, 1⟩
  else if q = "mech.weld.group.aw" ∨ q = "mech.weld.group.jw" then ⟨1, 1⟩
  else ⟨0, 0⟩

noncomputable def shearBox : PortMap (Interval ℝ) :=
  OrdMap.ofFn ((Entry.direction .weldInplane).inputs.map Prod.fst) shearRange

theorem shearRange_proper (q : Port) : (shearRange q).lo ≤ (shearRange q).hi := by
  unfold shearRange
  split_ifs <;> norm_num

theorem getElem?_shearBox {q : Port} {iv : Interval ℝ} : shearBox[q]? = some iv ↔
    q ∈ (Entry.direction .weldInplane).inputs.map Prod.fst ∧ iv = shearRange q := by
  rw [shearBox, OrdMap.getElem?_ofFn_eq_some, eq_comm (a := iv)]

theorem ends_shearBox {q : Port} (hq : q ∈ (Entry.direction .weldInplane).inputs.map Prod.fst) :
    loEnd shearBox q = (shearRange q).lo ∧ hiEnd shearBox q = (shearRange q).hi := by
  have hget := getElem?_shearBox.mpr ⟨hq, rfl⟩
  unfold loEnd hiEnd
  rw [hget]
  exact ⟨rfl, rfl⟩

theorem mem_shearBox {q : Port} :
    q ∈ shearBox ↔ q ∈ (Entry.direction .weldInplane).inputs.map Prod.fst := by
  rw [OrdMap.mem_iff_exists]
  constructor
  · rintro ⟨iv, hiv⟩
    exact (getElem?_shearBox.mp hiv).1
  · exact fun hq => ⟨_, getElem?_shearBox.mpr ⟨hq, rfl⟩⟩

theorem shearBox_ends_le : loEnd shearBox ≤ hiEnd shearBox := by
  intro q
  by_cases hq : q ∈ shearBox
  · obtain ⟨hlo, hhi⟩ := ends_shearBox (mem_shearBox.mp hq)
    rw [hlo, hhi]
    exact shearRange_proper q
  · obtain ⟨hlo, hhi⟩ := ends_eq_of_notMem hq
    rw [hlo, hhi]

/-- A port with one value in the box. -/
theorem eq_of_shearRange {x : Port → ℝ} (hx : Point shearBox x) {q : Port} {v : ℝ}
    (hq : q ∈ (Entry.direction .weldInplane).inputs.map Prod.fst)
    (hv : shearRange q = ⟨v, v⟩) : x q = v := by
  obtain ⟨hlo, hhi⟩ := ends_shearBox hq
  have hlower := hx.1 q
  have hupper := hx.2 q
  rw [hlo, hv] at hlower
  rw [hhi, hv] at hupper
  exact le_antisymm hupper hlower

theorem shear_aw {x : Port → ℝ} (hx : Point shearBox x) : x "mech.weld.group.aw" = 1 :=
  eq_of_shearRange hx (by simp [Entry.direction]) (by simp [shearRange])

theorem shear_jw {x : Port → ℝ} (hx : Point shearBox x) : x "mech.weld.group.jw" = 1 :=
  eq_of_shearRange hx (by simp [Entry.direction]) (by simp [shearRange])

/-- Over the box the line force is the absolute shear. -/
theorem inplaneSquare_shear {x : Port → ℝ} (hx : Point shearBox x) :
    inplaneSquare x = x "mech.weld.group.vx" ^ 2 := by
  have hvy : x "mech.weld.group.vy" = 0 :=
    eq_of_shearRange hx (by simp [Entry.direction]) (by simp [shearRange])
  have htorque : x "mech.weld.group.torque" = 0 :=
    eq_of_shearRange hx (by simp [Entry.direction]) (by simp [shearRange])
  rw [inplaneSquare, hvy, htorque, shear_aw hx, shear_jw hx]
  ring

theorem admissible_shear {x : Port → ℝ} (hx : Point shearBox x) :
    ¬ x "mech.weld.group.aw" ≤ 0 ∧ ¬ x "mech.weld.group.jw" ≤ 0 := by
  rw [shear_aw hx, shear_jw hx]
  exact ⟨not_le.mpr one_pos, not_le.mpr one_pos⟩

theorem shearBox_swept : Swept (Entry.direction .weldInplane) shearBox := by
  refine ⟨fun q => mem_shearBox, fun q iv hiv => ?_, fun e he iv hiv => ?_, fun corner hcorner => ?_⟩
  · obtain ⟨-, rfl⟩ := getElem?_shearBox.mp hiv
    exact shearRange_proper q
  · obtain ⟨-, rfl⟩ := getElem?_shearBox.mp hiv
    simp only [Entry.direction, List.mem_cons, List.not_mem_nil, or_false] at he
    rcases he with rfl | rfl | rfl | rfl | rfl | rfl | rfl <;>
      simp [shearRange, Interval.isSubset, decimal] <;> norm_num
  · obtain ⟨c, hc, rfl⟩ := isCorner_iff.mp hcorner
    have hpoint : Point shearBox c := hc.mem_Icc shearBox_ends_le
    rw [Direction.eval_pointOf hpoint]
    exact ⟨_, reports_weldInplane.ok c (admissible_shear hpoint)⟩

theorem encloses_iff_holdsOn_shear : Encloses (Entry.direction .weldInplane) shearBox ↔
    (Entry.weldInplane).HoldsOn shearBox :=
  encloses_iff_holdsOn .weldInplane shearBox_swept

/-- The corners of the box report 1, and the middle reports 0. -/
theorem shearBox_escapes : Swept (Entry.direction .weldInplane) shearBox ∧
    ¬ Encloses (Entry.direction .weldInplane) shearBox := by
  refine ⟨shearBox_swept, fun hencloses => ?_⟩
  obtain ⟨hlo, hhi⟩ := ends_shearBox (q := "mech.weld.group.vx") (by simp [Entry.direction])
  have hmiddle : Point shearBox (Function.update (loEnd shearBox) "mech.weld.group.vx" 0) := by
    apply Corner.update_mem_Icc ⟨le_rfl, shearBox_ends_le⟩
    rw [hlo, hhi]
    simp [shearRange]
  obtain ⟨⟨c, hc, hle⟩, -⟩ := (reports_weldInplane.encloses_iff shearBox_swept).mp hencloses _
    hmiddle (admissible_shear hmiddle)
  have hone : c "mech.weld.group.vx" ^ 2 = 1 := by
    rcases hc "mech.weld.group.vx" with hend | hend
    · rw [hend, hlo]
      simp [shearRange]
    · rw [hend, hhi]
      simp [shearRange]
  rw [inplaneSquare_shear hmiddle, inplaneSquare_shear (shearBox_swept.point hc), hone,
    Function.update_self, Real.sqrt_one] at hle
  norm_num at hle

end Catalog

end Feldspar

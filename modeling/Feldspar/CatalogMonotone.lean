/-
Feldspar/CatalogMonotone.lean

The directions of the catalog that a corner sweep encloses over every box of
their domains.

Most are monotone in each input, always the same way (`Signed`), so the extremes
are at two known corners.  The bending line force changes direction with the
signs of the moment and of the distance, and the mask containment has no scalar
input at all.
-/
import Feldspar.Catalog
import Mathlib.Tactic.Linarith
import Mathlib.Tactic.Positivity
import Mathlib.Tactic.GCongr

set_option linter.unusedSectionVars false

namespace Feldspar

namespace Catalog

open Real (sqrt log)

variable {d : Direction} {box : PortMap (Interval ℝ)} {value : (Port → ℝ) → ℝ} {x : Port → ℝ}

/-- Increasing in the ports `up` and decreasing in the ports `down`; no other port
matters. -/
def Signed (box : PortMap (Interval ℝ)) (up down : List Port) (value : (Port → ℝ) → ℝ) : Prop :=
  ∀ x y, Point box x → Point box y →
    (∀ q ∈ up, x q ≤ y q) → (∀ q ∈ down, y q ≤ x q) → value x ≤ value y

/-- The extremes of such a function are at two corners. -/
theorem Signed.between {up down : List Port} (h : Signed box up down value)
    (hdisjoint : List.Disjoint up down) (hbox : loEnd box ≤ hiEnd box) (hx : Point box x) :
    (∃ c, AtCorner box c ∧ value c ≤ value x) ∧ ∃ c, AtCorner box c ∧ value x ≤ value c := by
  have hlow : AtCorner box (Corner.upperOn (loEnd box) (hiEnd box) down) :=
    Corner.atEnds_upperOn down
  have hhigh : AtCorner box (Corner.upperOn (loEnd box) (hiEnd box) up) :=
    Corner.atEnds_upperOn up
  refine ⟨⟨_, hlow, ?_⟩, _, hhigh, ?_⟩
  · apply h _ x (hlow.mem_Icc hbox) hx
    · intro q hq
      rw [Corner.upperOn, if_neg fun hdown => hdisjoint hq hdown]
      exact hx.1 q
    · intro q hq
      rw [Corner.upperOn, if_pos hq]
      exact hx.2 q
  · apply h x _ hx (hhigh.mem_Icc hbox)
    · intro q hq
      rw [Corner.upperOn, if_pos hq]
      exact hx.2 q
    · intro q hq
      rw [Corner.upperOn, if_neg fun hup => hdisjoint hup hq]
      exact hx.1 q

theorem Reports.encloses_of_signed {p : Port} {admissible : (Port → ℝ) → Prop}
    (up down : List Port) (hd : Reports d p admissible value) (h : Swept d box)
    (hdisjoint : List.Disjoint up down) (hsigned : Signed box up down value) :
    Encloses d box :=
  (hd.encloses_iff h).mpr fun _ hx _ => hsigned.between hdisjoint h.lo_le_hi hx

/-! ### Flexure and Euler buckling -/

theorem reports_flexureF2 : Reports (Entry.direction .flexureF2) "mech.member.flexure.capacity"
    (fun x => ¬ (x "mech.member.flexure.fy" ≤ 0 ∨ x "mech.member.flexure.zx" ≤ 0))
    (fun x => phiB * (x "mech.member.flexure.fy" * x "mech.member.flexure.zx")) :=
  ⟨fun _ hx => if_neg hx, fun _ hx => ⟨_, if_pos (not_not.mp hx)⟩⟩

theorem flexureF2_encloses (h : Swept (Entry.direction .flexureF2) box) :
    Encloses (Entry.direction .flexureF2) box := by
  have hd : ∀ e ∈ (Entry.direction .flexureF2).inputs, 0 < e.2.lo := by
    norm_num [Entry.direction]
  apply reports_flexureF2.encloses_of_signed
    ["mech.member.flexure.fy", "mech.member.flexure.zx"] [] h (List.disjoint_nil_right _)
  intro x y hx hy hup _
  have hfy : x "mech.member.flexure.fy" ≤ y "mech.member.flexure.fy" := hup _ (by simp)
  have hzx : x "mech.member.flexure.zx" ≤ y "mech.member.flexure.zx" := hup _ (by simp)
  have hfy₀ := h.pos hd hy "mech.member.flexure.fy" (by simp [Entry.direction])
  have hzx₀ := h.pos hd hx "mech.member.flexure.zx" (by simp [Entry.direction])
  have hphi : (0 : ℝ) ≤ phiB := by norm_num [phiB]
  show phiB * _ ≤ phiB * _
  gcongr

theorem reports_euler : Reports (Entry.direction .euler) "mech.member.euler.pcr"
    (fun x => ¬ (x "mech.member.euler.e" ≤ 0 ∨ x "mech.member.euler.i" ≤ 0 ∨
      x "mech.member.euler.k" ≤ 0 ∨ x "mech.member.euler.length" ≤ 0))
    (fun x => Real.pi ^ 2 * x "mech.member.euler.e" * x "mech.member.euler.i" /
      (x "mech.member.euler.k" * x "mech.member.euler.length") ^ 2) :=
  ⟨fun _ hx => if_neg hx, fun _ hx => ⟨_, if_pos (not_not.mp hx)⟩⟩

theorem euler_encloses (h : Swept (Entry.direction .euler) box) :
    Encloses (Entry.direction .euler) box := by
  have hd : ∀ e ∈ (Entry.direction .euler).inputs, 0 < e.2.lo := by norm_num [Entry.direction]
  apply reports_euler.encloses_of_signed ["mech.member.euler.e", "mech.member.euler.i"]
    ["mech.member.euler.k", "mech.member.euler.length"] h (by simp)
  intro x y hx hy hup hdown
  have he : x "mech.member.euler.e" ≤ y "mech.member.euler.e" := hup _ (by simp)
  have hi : x "mech.member.euler.i" ≤ y "mech.member.euler.i" := hup _ (by simp)
  have hk : y "mech.member.euler.k" ≤ x "mech.member.euler.k" := hdown _ (by simp)
  have hlength : y "mech.member.euler.length" ≤ x "mech.member.euler.length" := hdown _ (by simp)
  have he₀ := h.pos hd hy "mech.member.euler.e" (by simp [Entry.direction])
  have hi₀ := h.pos hd hx "mech.member.euler.i" (by simp [Entry.direction])
  have hi₁ := h.pos hd hy "mech.member.euler.i" (by simp [Entry.direction])
  have hk₀ := h.pos hd hy "mech.member.euler.k" (by simp [Entry.direction])
  have hk₁ := h.pos hd hx "mech.member.euler.k" (by simp [Entry.direction])
  have hlength₀ := h.pos hd hy "mech.member.euler.length" (by simp [Entry.direction])
  have hpi := Real.pi_pos
  show Real.pi ^ 2 * _ * _ / _ ≤ Real.pi ^ 2 * _ * _ / _
  gcongr

/-! ### First modes -/

/-- Always evaluates. -/
theorem reports_of_total {p : Port} (hfn : ∀ x, d.fn x = .ok (output p (value x))) :
    Reports d p (fun _ => True) value := ⟨fun x _ => hfn x, fun _ h => absurd trivial h⟩

theorem reports_beamFirstMode : Reports (Entry.direction .beamFirstMode)
    "mech.vibe.first_mode_freq" (fun _ => True)
    (fun x => mechBeamCantileverFirstMode (x "mech.material.youngs_modulus")
      (x "mech.section.second_moment") (x "mech.material.density") (x "mech.section.area")
      (x "mech.geom.cantilever.length")) :=
  reports_of_total fun _ => rfl

theorem beamFirstMode_encloses (h : Swept (Entry.direction .beamFirstMode) box) :
    Encloses (Entry.direction .beamFirstMode) box := by
  have hd : ∀ e ∈ (Entry.direction .beamFirstMode).inputs, 0 < e.2.lo := by
    norm_num [Entry.direction]
  apply reports_beamFirstMode.encloses_of_signed
    ["mech.section.second_moment", "mech.material.youngs_modulus"]
    ["mech.geom.cantilever.length", "mech.material.density", "mech.section.area"] h (by simp)
  intro x y hx hy hup hdown
  have hsecond : x "mech.section.second_moment" ≤ y "mech.section.second_moment" :=
    hup _ (by simp)
  have hyoungs : x "mech.material.youngs_modulus" ≤ y "mech.material.youngs_modulus" :=
    hup _ (by simp)
  have hlength : y "mech.geom.cantilever.length" ≤ x "mech.geom.cantilever.length" :=
    hdown _ (by simp)
  have hdensity : y "mech.material.density" ≤ x "mech.material.density" := hdown _ (by simp)
  have harea : y "mech.section.area" ≤ x "mech.section.area" := hdown _ (by simp)
  have hsecond₀ := h.pos hd hx "mech.section.second_moment" (by simp [Entry.direction])
  have hsecond₁ := h.pos hd hy "mech.section.second_moment" (by simp [Entry.direction])
  have hyoungs₀ := h.pos hd hy "mech.material.youngs_modulus" (by simp [Entry.direction])
  have hlength₀ := h.pos hd hy "mech.geom.cantilever.length" (by simp [Entry.direction])
  have hdensity₀ := h.pos hd hy "mech.material.density" (by simp [Entry.direction])
  have hdensity₁ := h.pos hd hx "mech.material.density" (by simp [Entry.direction])
  have harea₀ := h.pos hd hy "mech.section.area" (by simp [Entry.direction])
  have hpi := Real.pi_pos
  have hbeta : 0 ≤ decimal 187510407 8 * decimal 187510407 8 :=
    mul_nonneg decimal_nonneg decimal_nonneg
  have htwo : (0 : ℝ) < (2 : ℕ) := Nat.cast_pos.mpr Nat.two_pos
  simp only [mechBeamCantileverFirstMode]
  gcongr

theorem reports_sdofFirstMode : Reports (Entry.direction .sdofFirstMode)
    "mech.vibe.first_mode_freq" (fun _ => True)
    (fun x => 1 / ((2 : ℕ) * Real.pi) * sqrt (x "mech.vibe.stiffness" / x "mech.vibe.mass")) :=
  reports_of_total fun _ => rfl

theorem sdofFirstMode_encloses (h : Swept (Entry.direction .sdofFirstMode) box) :
    Encloses (Entry.direction .sdofFirstMode) box := by
  have hd : ∀ e ∈ (Entry.direction .sdofFirstMode).inputs, 0 < e.2.lo := by
    norm_num [Entry.direction]
  apply reports_sdofFirstMode.encloses_of_signed ["mech.vibe.stiffness"] ["mech.vibe.mass"] h
    (by simp)
  intro x y hx hy hup hdown
  have hstiffness : x "mech.vibe.stiffness" ≤ y "mech.vibe.stiffness" := hup _ (by simp)
  have hmass : y "mech.vibe.mass" ≤ x "mech.vibe.mass" := hdown _ (by simp)
  have hstiffness₀ := h.pos hd hy "mech.vibe.stiffness" (by simp [Entry.direction])
  have hmass₀ := h.pos hd hy "mech.vibe.mass" (by simp [Entry.direction])
  have hpi := Real.pi_pos
  show 1 / ((2 : ℕ) * Real.pi) * _ ≤ 1 / ((2 : ℕ) * Real.pi) * _
  gcongr

/-! ### Weld utilization -/

/-- The stress on the throat. -/
noncomputable def weldStress (x : Port → ℝ) : ℝ :=
  hypot (x "mech.weld.group.inplane_line_force") (x "mech.weld.group.bending_line_force") /
    (decimal 707 3 * x "mech.weld.group.leg_size")

theorem weldGroupUtilization_ok (hleg : 0 < x "mech.weld.group.leg_size")
    (hallowable : 0 < x "mech.weld.group.allowable_stress") :
    ∃ out, weldGroupUtilization x = .ok out ∧ ∀ (p : Port) (v : ℝ), out[p]? = some v ↔
      (p = "mech.weld.group.peak_stress" ∧ v = weldStress x) ∨
        (p = "mech.weld.group.utilization_ratio" ∧
          v = weldStress x / x "mech.weld.group.allowable_stress") := by
  refine ⟨_, (if_neg (not_le.mpr hleg)).trans (if_neg (not_le.mpr hallowable)), fun p v => ?_⟩
  rw [OrdMap.getElem?_insert_eq]
  split_ifs with hp
  · subst hp
    simp [eq_comm, weldStress]
  · rw [getElem?_output]
    simp [Ne.symm hp, weldStress]

theorem weldUtilization_encloses (h : Swept (Entry.direction .weldUtilization) box) :
    Encloses (Entry.direction .weldUtilization) box := by
  have hinplane : ∀ x, Point box x → 0 ≤ x "mech.weld.group.inplane_line_force" := fun x hx =>
    h.lower (List.mem_cons_self) hx
  have hbending : ∀ x, Point box x → 0 ≤ x "mech.weld.group.bending_line_force" := fun x hx =>
    h.lower (.tail _ List.mem_cons_self) hx
  have hleg : ∀ x, Point box x → 0 < x "mech.weld.group.leg_size" := fun x hx =>
    lt_of_lt_of_le (by norm_num) (h.lower (.tail _ (.tail _ List.mem_cons_self)) hx)
  have hallowable : ∀ x, Point box x → 0 < x "mech.weld.group.allowable_stress" := fun x hx =>
    lt_of_lt_of_le (by norm_num) (h.lower (.tail _ (.tail _ (.tail _ List.mem_cons_self))) hx)
  have hstress : Signed box
      ["mech.weld.group.inplane_line_force", "mech.weld.group.bending_line_force"]
      ["mech.weld.group.leg_size", "mech.weld.group.allowable_stress"] weldStress := by
    intro x y hx hy hup hdown
    have h₁ := hinplane x hx
    have h₂ := hbending x hx
    have h₃ := hleg y hy
    have h₄ : x "mech.weld.group.inplane_line_force" ≤ y "mech.weld.group.inplane_line_force" :=
      hup _ (by simp)
    have h₅ : x "mech.weld.group.bending_line_force" ≤ y "mech.weld.group.bending_line_force" :=
      hup _ (by simp)
    have h₆ : y "mech.weld.group.leg_size" ≤ x "mech.weld.group.leg_size" := hdown _ (by simp)
    have hthroat : 0 < decimal 707 3 := decimal_pos.mpr (by norm_num)
    unfold weldStress hypot
    gcongr
  have hratio : Signed box
      ["mech.weld.group.inplane_line_force", "mech.weld.group.bending_line_force"]
      ["mech.weld.group.leg_size", "mech.weld.group.allowable_stress"]
      (fun x => weldStress x / x "mech.weld.group.allowable_stress") := by
    intro x y hx hy hup hdown
    have h₁ : weldStress x ≤ weldStress y := hstress x y hx hy hup hdown
    have h₂ : 0 ≤ weldStress y :=
      div_nonneg (Real.sqrt_nonneg _) (mul_pos (by norm_num) (hleg y hy)).le
    have h₃ := hallowable y hy
    have h₄ : y "mech.weld.group.allowable_stress" ≤ x "mech.weld.group.allowable_stress" :=
      hdown _ (by simp)
    exact div_le_div₀ h₂ h₁ h₃ h₄
  have hdisjoint : List.Disjoint
      ["mech.weld.group.inplane_line_force", "mech.weld.group.bending_line_force"]
      ["mech.weld.group.leg_size", "mech.weld.group.allowable_stress"] := by simp
  rw [h.encloses_iff]
  intro x hx out hout p v hv
  obtain ⟨out', hout', hports⟩ := weldGroupUtilization_ok (hleg x hx) (hallowable x hx)
  cases hout.symm.trans hout'
  -- what a corner reports at either port
  have hcorner : ∀ c, AtCorner box c → ∀ u,
      (p = "mech.weld.group.peak_stress" ∧ u = weldStress c) ∨
        (p = "mech.weld.group.utilization_ratio" ∧
          u = weldStress c / c "mech.weld.group.allowable_stress") →
      CornerValue (Entry.direction .weldUtilization) box p u := by
    intro c hc u hu
    have hpoint := h.point hc
    obtain ⟨out, hout, hports⟩ := weldGroupUtilization_ok (hleg c hpoint) (hallowable c hpoint)
    exact ⟨c, hc, out, hout, (hports p u).mpr hu⟩
  rcases (hports p v).mp hv with ⟨hp, rfl⟩ | ⟨hp, rfl⟩
  · obtain ⟨⟨c, hc, hle⟩, c', hc', hge⟩ := hstress.between hdisjoint h.lo_le_hi hx
    exact ⟨⟨_, hcorner c hc _ (Or.inl ⟨hp, rfl⟩), hle⟩,
      _, hcorner c' hc' _ (Or.inl ⟨hp, rfl⟩), hge⟩
  · obtain ⟨⟨c, hc, hle⟩, c', hc', hge⟩ := hratio.between hdisjoint h.lo_le_hi hx
    exact ⟨⟨_, hcorner c hc _ (Or.inr ⟨hp, rfl⟩), hle⟩,
      _, hcorner c' hc' _ (Or.inr ⟨hp, rfl⟩), hge⟩

/-! ### Mask containment -/

theorem maskContainment_encloses {profile mask : Samples}
    (h : Swept (Entry.direction (.maskContainment profile mask)) box) :
    Encloses (Entry.direction (.maskContainment profile mask)) box := by
  rw [h.encloses_iff]
  intro x _ out hout p v hv
  -- the result does not depend on the point
  have hcorner : CornerValue (Entry.direction (.maskContainment profile mask)) box p v :=
    ⟨loEnd box, Corner.atEnds_lo, out, hout, hv⟩
  exact ⟨⟨v, hcorner, le_rfl⟩, v, hcorner, le_rfl⟩

end Catalog

end Feldspar

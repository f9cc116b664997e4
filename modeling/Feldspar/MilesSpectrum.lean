/-
Feldspar/MilesSpectrum.lean

The corner sweep of Miles' equation over a resolved spectrum (`mech/vibe.py`).

The response is the root of the amplification times `f · asd(f)`, and the sweep
samples the spectrum at the two ends of the frequency interval only.  A peak or a
notch between them is missed.  The frequencies of the table cut the interval into
pieces on which the lookup follows a line, so that `f · asd(f)` is a quadratic
there: the sweep encloses the response exactly when it stays between its values
at the ends at every frequency of the table, and on every piece at its ends and
at the vertex of the quadratic (`milesGrms_encloses_iff`).
-/
import Feldspar.Catalog
import Feldspar.Lib.Cuts
import Mathlib.Tactic.Positivity
import Mathlib.Topology.Order.DenselyOrdered
import Mathlib.Topology.Algebra.Order.Field

namespace Feldspar

namespace Catalog

open Real (sqrt log)

variable {freqHz asd : List ℝ} {box : PortMap (Interval ℝ)} {x : Port → ℝ}

/-- `f · asd(f)`, zero where the spectrum is not defined. -/
noncomputable def weightedAsd (freqHz asd : List ℝ) (f : ℝ) : ℝ :=
  f * (lookupAsd freqHz asd f).toOption.getD 0

theorem weightedAsd_of_ok {f a : ℝ} (h : lookupAsd freqHz asd f = .ok a) :
    weightedAsd freqHz asd f = f * a := by
  rw [weightedAsd, h]
  rfl

/-- What stands under the root. -/
noncomputable def milesSquare (freqHz asd : List ℝ) (x : Port → ℝ) : ℝ :=
  Real.pi / (2 : ℕ) * x "mech.vibe.q" * weightedAsd freqHz asd (x "mech.vibe.first_mode_freq")

theorem reports_milesGrms : Reports (Entry.direction (.milesGrms freqHz asd)) "mech.vibe.grms"
    (fun x => (∃ a, lookupAsd freqHz asd (x "mech.vibe.first_mode_freq") = .ok a) ∧
      0 ≤ milesSquare freqHz asd x)
    (fun x => sqrt (milesSquare freqHz asd x)) := by
  have hsquare : ∀ x a, lookupAsd freqHz asd (x "mech.vibe.first_mode_freq") = .ok a →
      Real.pi / (2 : ℕ) * x "mech.vibe.first_mode_freq" * x "mech.vibe.q" * a
        = milesSquare freqHz asd x := by
    intro x a ha
    rw [milesSquare, weightedAsd_of_ok ha]
    ring
  refine ⟨?_, fun x hx => ?_⟩
  · rintro x ⟨⟨a, ha⟩, hnonneg⟩
    show milesGrms freqHz asd x = _
    rw [milesGrms, ha]
    show (mechMilesGrms _ _ a >>= _) = _
    rw [mechMilesGrms, hsquare x a ha]
    simp only [if_neg hnonneg.not_gt]
    rfl
  · show ∃ e, milesGrms freqHz asd x = _
    rw [milesGrms]
    rcases ha : lookupAsd freqHz asd (x "mech.vibe.first_mode_freq") with e | a
    · exact ⟨e, rfl⟩
    · have hneg : milesSquare freqHz asd x < 0 :=
        not_le.mp fun hnonneg => hx ⟨⟨a, ha⟩, hnonneg⟩
      refine ⟨"nan", ?_⟩
      show (mechMilesGrms _ _ a >>= _) = _
      rw [mechMilesGrms, hsquare x a ha]
      simp only [if_pos hneg]
      rfl

/-- Between the values of `f · asd(f)` at the ends of the frequencies. -/
def WithinEnds (freqHz asd : List ℝ) (f₁ f₂ w : ℝ) : Prop :=
  w ∈ Set.Icc (min (weightedAsd freqHz asd f₁) (weightedAsd freqHz asd f₂))
    (max (weightedAsd freqHz asd f₁) (weightedAsd freqHz asd f₂))

/-- `f · asd(f)` stays there wherever it is defined and not negative. -/
def StaysWithin (freqHz asd : List ℝ) (f₁ f₂ : ℝ) : Prop :=
  ∀ f ∈ Set.Icc f₁ f₂, ∀ a, lookupAsd freqHz asd f = .ok a → 0 ≤ a →
    WithinEnds freqHz asd f₁ f₂ (f * a)

/-- The point with a frequency and an amplification. -/
noncomputable def milesPoint (box : PortMap (Interval ℝ)) (f q : ℝ) : Port → ℝ :=
  Function.update (Function.update (loEnd box) "mech.vibe.q" q) "mech.vibe.first_mode_freq" f

theorem milesSquare_milesPoint {f q : ℝ} : milesSquare freqHz asd (milesPoint box f q)
    = Real.pi / (2 : ℕ) * q * weightedAsd freqHz asd f := by
  simp [milesSquare, milesPoint]

theorem point_milesPoint (hbox : loEnd box ≤ hiEnd box) {f q : ℝ}
    (hf : f ∈ Set.Icc (loEnd box "mech.vibe.first_mode_freq")
      (hiEnd box "mech.vibe.first_mode_freq"))
    (hq : q ∈ Set.Icc (loEnd box "mech.vibe.q") (hiEnd box "mech.vibe.q")) :
    Point box (milesPoint box f q) :=
  Corner.update_mem_Icc (Corner.update_mem_Icc ⟨le_rfl, hbox⟩ hq) hf

theorem atCorner_milesPoint {f q : ℝ}
    (hf : f = loEnd box "mech.vibe.first_mode_freq" ∨ f = hiEnd box "mech.vibe.first_mode_freq")
    (hq : q = loEnd box "mech.vibe.q" ∨ q = hiEnd box "mech.vibe.q") :
    AtCorner box (milesPoint box f q) := by
  apply Corner.AtEnds.update _ hf
  exact Corner.atEnds_lo.update hq

theorem milesInputs_pos : ∀ e ∈ (Entry.direction (.milesGrms freqHz asd)).inputs, 0 < e.2.lo := by
  norm_num [Entry.direction]

theorem weightedAsd_nonneg {f q : ℝ} (hq : 0 < q)
    (h : 0 ≤ Real.pi / (2 : ℕ) * q * weightedAsd freqHz asd f) : 0 ≤ weightedAsd freqHz asd f :=
  nonneg_of_mul_nonneg_right h (mul_pos (by positivity) hq)

section Sweep

variable (h : Swept (Entry.direction (.milesGrms freqHz asd)) box)
include h

theorem Swept.q_pos (hx : Point box x) : 0 < x "mech.vibe.q" :=
  h.pos milesInputs_pos hx "mech.vibe.q" (by simp [Entry.direction])

theorem Swept.firstModeFreq_pos (hx : Point box x) : 0 < x "mech.vibe.first_mode_freq" :=
  h.pos milesInputs_pos hx "mech.vibe.first_mode_freq" (by simp [Entry.direction])

/-- A corner has at least the amplification of the lower end. -/
theorem Swept.le_milesSquare {c : Port → ℝ} (hc : AtCorner box c) :
    Real.pi / (2 : ℕ) * loEnd box "mech.vibe.q"
        * weightedAsd freqHz asd (c "mech.vibe.first_mode_freq")
      ≤ milesSquare freqHz asd c := by
  have hc₀ := weightedAsd_nonneg (h.q_pos (h.point hc)) (reports_milesGrms.corner h hc).2
  apply mul_le_mul_of_nonneg_right _ hc₀
  exact mul_le_mul_of_nonneg_left ((h.point hc).1 "mech.vibe.q") (by positivity)

/-- And at most that of the upper one. -/
theorem Swept.milesSquare_le {c : Port → ℝ} (hc : AtCorner box c) :
    milesSquare freqHz asd c ≤ Real.pi / (2 : ℕ) * hiEnd box "mech.vibe.q"
      * weightedAsd freqHz asd (c "mech.vibe.first_mode_freq") := by
  have hc₀ := weightedAsd_nonneg (h.q_pos (h.point hc)) (reports_milesGrms.corner h hc).2
  apply mul_le_mul_of_nonneg_right _ hc₀
  exact mul_le_mul_of_nonneg_left ((h.point hc).2 "mech.vibe.q") (by positivity)

/-- What the corners enclose at the ends of the amplification, they enclose in
`f · asd(f)`. -/
theorem staysWithin_of_encloses
    (hencloses : Encloses (Entry.direction (.milesGrms freqHz asd)) box) :
    StaysWithin freqHz asd (loEnd box "mech.vibe.first_mode_freq")
      (hiEnd box "mech.vibe.first_mode_freq") := by
  have hall := (reports_milesGrms.encloses_iff h).mp hencloses
  have hbox := h.lo_le_hi
  have hpi : 0 < Real.pi / (2 : ℕ) := by positivity
  have hq₁ : 0 < loEnd box "mech.vibe.q" := h.q_pos ⟨le_rfl, hbox⟩
  have hq₂ : 0 < hiEnd box "mech.vibe.q" := h.q_pos ⟨hbox, le_rfl⟩
  intro f hf a ha ha₀
  have hw : weightedAsd freqHz asd f = f * a := weightedAsd_of_ok ha
  have hlow := point_milesPoint hbox hf (Set.left_mem_Icc.mpr (hbox "mech.vibe.q"))
  have hhigh := point_milesPoint hbox hf (Set.right_mem_Icc.mpr (hbox "mech.vibe.q"))
  have hf₀ : 0 < f := by
    have := h.firstModeFreq_pos hlow
    simpa [milesPoint] using this
  have hw₀ : 0 ≤ weightedAsd freqHz asd f := hw ▸ mul_nonneg hf₀.le ha₀
  -- the points at `f`, with the least and with the largest amplification
  have hadmissible : ∀ q, 0 < q → (∃ a, lookupAsd freqHz asd
        (milesPoint box f q "mech.vibe.first_mode_freq") = .ok a) ∧
      0 ≤ milesSquare freqHz asd (milesPoint box f q) := by
    intro q hq
    refine ⟨⟨a, by simpa [milesPoint] using ha⟩, ?_⟩
    rw [milesSquare_milesPoint]
    exact mul_nonneg (mul_pos hpi hq).le hw₀
  rw [← hw]
  constructor
  · obtain ⟨⟨c, hc, hle⟩, -⟩ := hall _ hlow (hadmissible _ hq₁)
    have hsquare := (Real.sqrt_le_sqrt_iff (hadmissible _ hq₁).2).mp hle
    rw [milesSquare_milesPoint] at hsquare
    apply (hc.min_le "mech.vibe.first_mode_freq" (weightedAsd freqHz asd)).trans
    exact le_of_mul_le_mul_left ((h.le_milesSquare hc).trans hsquare) (mul_pos hpi hq₁)
  · obtain ⟨-, c, hc, hge⟩ := hall _ hhigh (hadmissible _ hq₂)
    have hsquare := (Real.sqrt_le_sqrt_iff (reports_milesGrms.corner h hc).2).mp hge
    rw [milesSquare_milesPoint] at hsquare
    apply le_trans _ (hc.le_max "mech.vibe.first_mode_freq" (weightedAsd freqHz asd))
    exact le_of_mul_le_mul_left (hsquare.trans (h.milesSquare_le hc)) (mul_pos hpi hq₂)

/-- The corner at an end of the frequencies with the least or the largest
amplification. -/
theorem encloses_of_staysWithin
    (hwithin : StaysWithin freqHz asd (loEnd box "mech.vibe.first_mode_freq")
      (hiEnd box "mech.vibe.first_mode_freq")) :
    Encloses (Entry.direction (.milesGrms freqHz asd)) box := by
  have hbox := h.lo_le_hi
  have hpi : 0 < Real.pi / (2 : ℕ) := by positivity
  have hq₁ : 0 < loEnd box "mech.vibe.q" := h.q_pos ⟨le_rfl, hbox⟩
  have hq₂ : 0 < hiEnd box "mech.vibe.q" := h.q_pos ⟨hbox, le_rfl⟩
  apply (reports_milesGrms.encloses_iff h).mpr
  rintro x hx ⟨⟨a, ha⟩, hsquare⟩
  have hw := weightedAsd_of_ok ha
  have hw₀ := weightedAsd_nonneg (h.q_pos hx) hsquare
  have ha₀ : 0 ≤ a := by
    rw [hw] at hw₀
    exact nonneg_of_mul_nonneg_right hw₀ (h.firstModeFreq_pos hx)
  obtain ⟨hmin, hmax⟩ := hwithin _ ⟨hx.1 _, hx.2 _⟩ a ha ha₀
  rw [← hw] at hmin hmax
  constructor
  · obtain ⟨f, hf, hle⟩ := Corner.exists_end_le hmin
    refine ⟨_, atCorner_milesPoint hf (Or.inl rfl), ?_⟩
    rw [milesSquare_milesPoint]
    apply Real.sqrt_le_sqrt
    calc Real.pi / (2 : ℕ) * loEnd box "mech.vibe.q" * weightedAsd freqHz asd f
        ≤ Real.pi / (2 : ℕ) * loEnd box "mech.vibe.q" * weightedAsd freqHz asd _ :=
          mul_le_mul_of_nonneg_left hle (mul_pos hpi hq₁).le
      _ ≤ milesSquare freqHz asd x :=
          mul_le_mul_of_nonneg_right (mul_le_mul_of_nonneg_left (hx.1 _) hpi.le) hw₀
  · obtain ⟨f, hf, hge⟩ := Corner.exists_end_ge hmax
    refine ⟨_, atCorner_milesPoint hf (Or.inr rfl), ?_⟩
    rw [milesSquare_milesPoint]
    apply Real.sqrt_le_sqrt
    calc milesSquare freqHz asd x
        ≤ Real.pi / (2 : ℕ) * hiEnd box "mech.vibe.q" * weightedAsd freqHz asd _ :=
          mul_le_mul_of_nonneg_right (mul_le_mul_of_nonneg_left (hx.2 _) hpi.le) hw₀
      _ ≤ Real.pi / (2 : ℕ) * hiEnd box "mech.vibe.q" * weightedAsd freqHz asd f :=
          mul_le_mul_of_nonneg_left hge (mul_pos hpi hq₂).le

end Sweep

/-! ### The pieces of the table -/

/-- The ends, and the frequencies of the table between them. -/
noncomputable def cuts (freqHz : List ℝ) (f₁ f₂ : ℝ) : List ℝ :=
  f₁ :: f₂ :: freqHz.filter fun f => f₁ ≤ f ∧ f ≤ f₂

/-- The line `α + β f` through the ends of the segment that the lookup uses
between two neighbouring cuts. -/
noncomputable def lineBetween (freqHz asd : List ℝ) (u v : ℝ) : Option (ℝ × ℝ) := do
  let mid := (u + v) / (2 : ℕ)
  if mid < freqHz.head?.getD 0 ∨ freqHz.getLast?.getD 0 < mid then none
  else
    let i ← segmentOf freqHz mid
    let slope := ((← asd[i + 1]?) - (← asd[i]?)) / (freqHz[i + 1]?.getD 0 - freqHz[i]?.getD 0)
    pure ((← asd[i]?) - slope * freqHz[i]?.getD 0, slope)

/-- The line is not negative somewhere strictly between the two. -/
def Defined (u v α β : ℝ) : Prop :=
  0 < max (α + β * u) (α + β * v) ∨ (α + β * u = 0 ∧ α + β * v = 0)

/-- At the cuts, and on every piece between two of them at its ends and at the
vertex of `f (α + β f)`, all values that the response has or comes near to are
between those at the ends. -/
structure BetweenEnds (freqHz asd : List ℝ) (f₁ f₂ : ℝ) : Prop where
  atCuts : ∀ f ∈ cuts freqHz f₁ f₂, ∀ a, lookupAsd freqHz asd f = .ok a → 0 ≤ a →
    WithinEnds freqHz asd f₁ f₂ (f * a)
  onPieces : ∀ u v, Cuts.Neighbours (cuts freqHz f₁ f₂) u v →
    ∀ α β, lineBetween freqHz asd u v = some (α, β) → Defined u v α β →
      ∀ f ∈ [u, v, -α / (2 * β)], f ∈ Set.Icc u v →
        WithinEnds freqHz asd f₁ f₂ (max 0 (f * (α + β * f)))

section Pieces

variable {f₁ f₂ u v f : ℝ}

theorem mem_Icc_of_mem_cuts (h : f₁ ≤ f₂) (hf : f ∈ cuts freqHz f₁ f₂) : f ∈ Set.Icc f₁ f₂ := by
  rcases List.mem_cons.mp hf with rfl | hf
  · exact ⟨le_rfl, h⟩
  · rcases List.mem_cons.mp hf with rfl | hf
    · exact ⟨h, le_rfl⟩
    · simpa using (List.mem_filter.mp hf).2

/-- No frequency of the table is between two neighbouring cuts. -/
theorem le_iff_of_neighbours (h : f₁ ≤ f₂) (hn : Cuts.Neighbours (cuts freqHz f₁ f₂) u v) {g : ℝ}
    (hg : g ∈ freqHz) : g ≤ u ∨ v ≤ g := by
  by_contra hnot
  rw [not_or, not_le, not_le] at hnot
  have hu := mem_Icc_of_mem_cuts h hn.left
  have hv := mem_Icc_of_mem_cuts h hn.right
  refine hn.between g ?_ hnot
  refine List.mem_cons_of_mem _ (List.mem_cons_of_mem _ (List.mem_filter.mpr ⟨hg, ?_⟩))
  simpa using ⟨hu.1.trans hnot.1.le, hnot.2.le.trans hv.2⟩

/-- A frequency of the table is on the same side of all of a piece. -/
theorem le_iff_le_of_neighbours (h : f₁ ≤ f₂) (hn : Cuts.Neighbours (cuts freqHz f₁ f₂) u v)
    {g s t : ℝ} (hg : g ∈ freqHz) (hs : s ∈ Set.Ioo u v) (ht : t ∈ Set.Ioo u v) :
    (g ≤ s ↔ g ≤ t) ∧ (s ≤ g ↔ t ≤ g) := by
  rcases le_iff_of_neighbours h hn hg with hle | hle
  · exact ⟨iff_of_true (hle.trans hs.1.le) (hle.trans ht.1.le),
      iff_of_false (hle.trans_lt hs.1).not_ge (hle.trans_lt ht.1).not_ge⟩
  · exact ⟨iff_of_false (hs.2.trans_le hle).not_ge (ht.2.trans_le hle).not_ge,
      iff_of_true (hs.2.le.trans hle) (ht.2.le.trans hle)⟩

theorem getD_mem_freqHz {i : ℕ} (hi : i < freqHz.length) : freqHz[i]?.getD 0 ∈ freqHz := by
  rw [List.getElem?_eq_getElem hi]
  exact List.getElem_mem hi

theorem segmentOf_eq (h : f₁ ≤ f₂) (hn : Cuts.Neighbours (cuts freqHz f₁ f₂) u v) {s t : ℝ}
    (hs : s ∈ Set.Ioo u v) (ht : t ∈ Set.Ioo u v) : segmentOf freqHz s = segmentOf freqHz t := by
  apply Fallible.find?_congr_left
  intro i hi
  have hlt : i + 1 < freqHz.length := by
    have hrange := List.mem_range.mp hi
    omega
  have hlo := le_iff_le_of_neighbours h hn (getD_mem_freqHz (i := i) (by omega)) hs ht
  have hhi := le_iff_le_of_neighbours h hn (getD_mem_freqHz hlt) hs ht
  exact decide_eq_decide.mpr (and_congr hlo.1 hhi.2)

theorem mid_mem (h : u < v) : (u + v) / (2 : ℕ) ∈ Set.Ioo u v := by
  rw [Nat.cast_two]
  constructor <;> linarith

/-- A frequency between the first and the last of a table, and not in it, is in
a segment. -/
theorem exists_segment {f : ℝ} : ∀ {l : List ℝ}, l ≠ [] → l.head?.getD 0 ≤ f →
    f ≤ l.getLast?.getD 0 → f ∉ l →
      ∃ i, i + 1 < l.length ∧ l[i]?.getD 0 ≤ f ∧ f ≤ l[i + 1]?.getD 0
  | [], h, _, _, _ => absurd rfl h
  | [g], _, hlo, hhi, hnot => absurd (le_antisymm hhi hlo) (by simpa using hnot)
  | g :: g' :: l, _, hlo, hhi, hnot => by
      rcases le_or_gt f g' with hle | hlt
      · exact ⟨0, by simp, by simpa using hlo, by simpa using hle⟩
      · obtain ⟨i, hi, hbelow, habove⟩ := exists_segment (f := f) (l := g' :: l)
          (List.cons_ne_nil _ _) (by simpa using hlt.le) (by simpa using hhi)
          (fun hmem => hnot (List.mem_cons_of_mem _ hmem))
        refine ⟨i + 1, ?_, by simpa using hbelow, by simpa using habove⟩
        rw [List.length_cons]
        omega

theorem segmentOf_eq_some {f : ℝ} (hne : freqHz ≠ []) (hlo : freqHz.head?.getD 0 ≤ f)
    (hhi : f ≤ freqHz.getLast?.getD 0) (hnot : f ∉ freqHz) :
    ∃ i, segmentOf freqHz f = some i ∧ i + 1 < freqHz.length ∧ freqHz[i]?.getD 0 ≤ f
      ∧ f ≤ freqHz[i + 1]?.getD 0 := by
  obtain ⟨j, hj, hbelow, habove⟩ := exists_segment hne hlo hhi hnot
  rcases hfind : segmentOf freqHz f with _ | i
  · rw [segmentOf, List.find?_eq_none] at hfind
    exact absurd (decide_eq_true ⟨hbelow, habove⟩) (hfind j (List.mem_range.mpr (by omega)))
  · have hrange := List.mem_range.mp (List.mem_of_find?_eq_some hfind)
    obtain ⟨hbelow, habove⟩ := of_decide_eq_true (List.find?_some
      (p := fun i => freqHz[i]?.getD 0 ≤ f ∧ f ≤ freqHz[i + 1]?.getD 0) hfind)
    exact ⟨i, rfl, by omega, hbelow, habove⟩

/-- On a piece the lookup follows its line. -/
theorem lookupAsd_eq_ok_iff (h : f₁ ≤ f₂) (hn : Cuts.Neighbours (cuts freqHz f₁ f₂) u v)
    (hf : f ∈ Set.Ioo u v) {a : ℝ} : lookupAsd freqHz asd f = .ok a ↔
      ∃ α β, lineBetween freqHz asd u v = some (α, β) ∧ a = α + β * f := by
  have hmid := mid_mem hn.lt
  by_cases hne : freqHz = []
  · rw [lookupAsd, if_pos (.inl hne), lineBetween, hne]
    simp [segmentOf]
  have hhead : freqHz.head?.getD 0 ∈ freqHz := by
    rw [List.head?_eq_some_head hne]
    exact List.head_mem hne
  have hlast : freqHz.getLast?.getD 0 ∈ freqHz := by
    rw [List.getLast?_eq_some_getLast hne]
    exact List.getLast_mem hne
  have hfirst := (le_iff_le_of_neighbours h hn hhead hf hmid).1
  have hfinal := (le_iff_le_of_neighbours h hn hlast hf hmid).2
  by_cases hrange : freqHz.head?.getD 0 ≤ f ∧ f ≤ freqHz.getLast?.getD 0
  · have hnot : f ∉ freqHz := by
      intro hmem
      rcases le_iff_of_neighbours h hn hmem with hle | hle
      · exact absurd hf.1 hle.not_gt
      · exact absurd hf.2 hle.not_gt
    obtain ⟨i, hsegment, hi, hbelow, habove⟩ := segmentOf_eq_some hne hrange.1 hrange.2 hnot
    have hlt : freqHz[i]?.getD 0 < freqHz[i + 1]?.getD 0 := by
      refine lt_of_le_of_ne (hbelow.trans habove) fun heq => hnot ?_
      rw [← le_antisymm hbelow (habove.trans_eq heq.symm)]
      exact getD_mem_freqHz (by omega)
    have hsegment' := segmentOf_eq h hn hmid hf
    rw [hsegment] at hsegment'
    have hin : ¬ (freqHz = [] ∨ f < freqHz.head?.getD 0 ∨ freqHz.getLast?.getD 0 < f) := by
      simp only [not_or, not_lt]
      exact ⟨hne, hrange⟩
    have hmidIn : ¬ ((u + v) / (2 : ℕ) < freqHz.head?.getD 0
        ∨ freqHz.getLast?.getD 0 < (u + v) / (2 : ℕ)) := by
      simp only [not_or, not_lt]
      exact ⟨hfirst.mp hrange.1, hfinal.mp hrange.2⟩
    rw [lookupAsd, if_neg hin, hsegment, lineBetween, if_neg hmidIn, hsegment']
    simp only [if_neg hlt.ne', Option.bind_some, bind, Except.bind, sample]
    rcases asd[i]? with _ | a₀
    · simp
    · rcases asd[i + 1]? with _ | a₁
      · simp
      · have hslope : a₀ + (f - freqHz[i]?.getD 0) / (freqHz[i + 1]?.getD 0 - freqHz[i]?.getD 0)
              * (a₁ - a₀)
            = a₀ - (a₁ - a₀) / (freqHz[i + 1]?.getD 0 - freqHz[i]?.getD 0) * freqHz[i]?.getD 0
              + (a₁ - a₀) / (freqHz[i + 1]?.getD 0 - freqHz[i]?.getD 0) * f := by ring
        simp only [hslope, pure]
        constructor
        · rintro ⟨⟩
          exact ⟨_, _, rfl, rfl⟩
        · rintro ⟨α, β, ⟨⟩, rfl⟩
          rfl
  · have hout : freqHz = [] ∨ f < freqHz.head?.getD 0 ∨ freqHz.getLast?.getD 0 < f := by
      rw [not_and_or, not_le, not_le] at hrange
      exact .inr hrange
    have hmidOut : (u + v) / (2 : ℕ) < freqHz.head?.getD 0
        ∨ freqHz.getLast?.getD 0 < (u + v) / (2 : ℕ) := by
      rw [hfirst, hfinal, not_and_or, not_le, not_le] at hrange
      exact hrange
    rw [lookupAsd, if_pos hout, lineBetween, if_pos hmidOut]
    simp

/-- A line that is defined on a piece is not negative somewhere inside. -/
theorem exists_nonneg {α β : ℝ} (huv : u < v) (h : Defined u v α β) :
    ∃ f ∈ Set.Ioo u v, 0 ≤ α + β * f := by
  have hmid := mid_mem huv
  by_cases hroot : u < -α / β ∧ -α / β < v
  · refine ⟨-α / β, hroot, ?_⟩
    rcases eq_or_ne β 0 with rfl | hβ
    · simp only [Defined, zero_mul, add_zero, max_self, and_self] at h ⊢
      exact h.elim le_of_lt ge_of_eq
    · rw [mul_div_cancel₀ _ hβ, add_neg_cancel]
  · refine ⟨_, hmid, ?_⟩
    rcases Cuts.line_sign hroot with hpos | hneg
    · exact hpos _ ⟨hmid.1.le, hmid.2.le⟩
    · have hu := hneg u ⟨le_rfl, huv.le⟩
      have hv := hneg v ⟨huv.le, le_rfl⟩
      obtain ⟨hu₀, hv₀⟩ := h.resolve_left (max_le hu hv).not_gt
      rw [Nat.cast_two]
      linarith

theorem defined_of_nonneg {α β : ℝ} (hf : f ∈ Set.Ioo u v) (h : 0 ≤ α + β * f) :
    Defined u v α β := by
  by_contra hnot
  rw [Defined, not_or, not_lt] at hnot
  have hu : α + β * u ≤ 0 := (le_max_left _ _).trans hnot.1
  have hv : α + β * v ≤ 0 := (le_max_right _ _).trans hnot.1
  -- a combination of two values that are not positive
  have hcombine : (v - u) * (α + β * f) = (v - f) * (α + β * u) + (f - u) * (α + β * v) := by ring
  have huv := mul_nonneg (sub_nonneg.mpr (hf.1.trans hf.2).le) h
  have h₁ := mul_nonpos_of_nonneg_of_nonpos (sub_nonneg.mpr hf.2.le) hu
  have h₂ := mul_nonpos_of_nonneg_of_nonpos (sub_nonneg.mpr hf.1.le) hv
  apply hnot.2
  constructor
  · have hzero : (v - f) * (α + β * u) = 0 := by linarith
    exact (mul_eq_zero.mp hzero).resolve_left (sub_pos.mpr hf.2).ne'
  · have hzero : (f - u) * (α + β * v) = 0 := by linarith
    exact (mul_eq_zero.mp hzero).resolve_left (sub_pos.mpr hf.1).ne'

/-- Staying within the ends is a matter of the cuts and of the pieces. -/
theorem staysWithin_iff (hpos : 0 < f₁) (h : f₁ ≤ f₂) :
    StaysWithin freqHz asd f₁ f₂ ↔ BetweenEnds freqHz asd f₁ f₂ := by
  constructor
  · intro hall
    refine ⟨fun f hf => hall f (mem_Icc_of_mem_cuts h hf), ?_⟩
    intro u v hn α β hline hdefined f _ hf
    have hu := mem_Icc_of_mem_cuts h hn.left
    have hv := mem_Icc_of_mem_cuts h hn.right
    have hpiece : ∀ g ∈ Set.Ioo u v, 0 ≤ α + β * g →
        WithinEnds freqHz asd f₁ f₂ (g * (α + β * g)) := fun g hg =>
      hall g ⟨hu.1.trans hg.1.le, hg.2.le.trans hv.2⟩ _
        ((lookupAsd_eq_ok_iff h hn hg).mpr ⟨α, β, hline, rfl⟩)
    -- inside the piece, where the line is negative there is a zero of it as well
    have hinside : ∀ g ∈ Set.Ioo u v, WithinEnds freqHz asd f₁ f₂ (max 0 (g * (α + β * g))) := by
      intro g hg
      have hgpos : 0 < g := hpos.trans_le (hu.1.trans hg.1.le)
      rcases le_or_gt 0 (α + β * g) with hline₀ | hline₀
      · rw [max_eq_right (mul_nonneg hgpos.le hline₀)]
        exact hpiece g hg hline₀
      · rw [max_eq_left (mul_nonpos_of_nonneg_of_nonpos hgpos.le hline₀.le)]
        obtain ⟨t, ht, htpos⟩ := exists_nonneg hn.lt hdefined
        obtain ⟨z, hz, hzero⟩ : ∃ z ∈ Set.Ioo u v, α + β * z = 0 := by
          have hcont : Continuous fun z : ℝ => α + β * z := by fun_prop
          obtain ⟨z, hz, hzero⟩ := intermediate_value_uIcc (hcont.continuousOn (s := Set.uIcc g t))
            (Set.mem_uIcc_of_le hline₀.le htpos)
          exact ⟨z, Set.ordConnected_Ioo.uIcc_subset hg ht hz, hzero⟩
        have hzw := hpiece z hz hzero.ge
        rwa [hzero, mul_zero] at hzw
    have hcont : Continuous fun g : ℝ => max 0 (g * (α + β * g)) := by fun_prop
    have hclosure := (isClosed_Icc.preimage hcont).closure_subset_iff.mpr hinside
    rw [closure_Ioo hn.lt.ne] at hclosure
    exact hclosure hf
  · intro hends f hf a ha ha₀
    by_cases hcut : f ∈ cuts freqHz f₁ f₂
    · exact hends.atCuts f hcut a ha ha₀
    obtain ⟨u, v, hn, hfuv⟩ := Cuts.exists_neighbours hcut ⟨f₁, List.mem_cons_self, hf.1⟩
      ⟨f₂, List.mem_cons_of_mem _ List.mem_cons_self, hf.2⟩
    obtain ⟨α, β, hline, rfl⟩ := (lookupAsd_eq_ok_iff h hn hfuv).mp ha
    have hpiece := hends.onPieces u v hn α β hline (defined_of_nonneg hfuv ha₀)
    have hicc : f ∈ Set.Icc u v := ⟨hfuv.1.le, hfuv.2.le⟩
    have hquadratic : ∀ s : ℝ, β * s ^ 2 + α * s + 0 = s * (α + β * s) := fun s => by ring
    have hfw : 0 ≤ f * (α + β * f) := mul_nonneg (hpos.le.trans hf.1) ha₀
    constructor
    · obtain ⟨s, hs, hsuv, hle⟩ := Cuts.quadratic_least β α 0 hicc
      rw [hquadratic, hquadratic] at hle
      exact (hpiece s hs hsuv).1.trans (max_le hfw hle)
    · obtain ⟨s, hs, hsuv, hle⟩ := Cuts.quadratic_greatest β α 0 hicc
      rw [hquadratic, hquadratic] at hle
      exact (hle.trans (le_max_right 0 _)).trans (hpiece s hs hsuv).2

end Pieces

/-- **The sweep of Miles' equation** encloses the response exactly when
`f · asd(f)` stays between its values at the ends. -/
theorem milesGrms_encloses_iff (h : Swept (Entry.direction (.milesGrms freqHz asd)) box) :
    Encloses (Entry.direction (.milesGrms freqHz asd)) box ↔
      BetweenEnds freqHz asd (loEnd box "mech.vibe.first_mode_freq")
        (hiEnd box "mech.vibe.first_mode_freq") := by
  rw [← staysWithin_iff (h.firstModeFreq_pos ⟨le_rfl, h.lo_le_hi⟩) (h.lo_le_hi _)]
  exact ⟨staysWithin_of_encloses h, encloses_of_staysWithin h⟩

end Catalog

end Feldspar

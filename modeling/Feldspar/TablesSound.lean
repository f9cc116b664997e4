/-
Feldspar/TablesSound.lean

What the table solvers compute.

An accepted table is an ascending axis with its values (`Axis`).  The search
finds a cell that covers the value (`clampIndex_covers`), so the 1-D solver is
the piecewise linear interpolant of its data and the 2-D solver is bilinear in
every cell that covers the point.
-/
import Feldspar.Tables

set_option linter.unusedSectionVars false

namespace Feldspar

namespace Tables

variable {K : Type} [Field K] [LinearOrder K]

open Interp (Ascending Covers segment)

/-! ### Indexing -/

section Item

variable {α : Type} {l : List α} {a : α}

theorem item_natCast {i : ℕ} : item l (i : ℤ) = .ok a ↔ l[i]? = some a := by
  rw [item, if_pos (Int.natCast_nonneg i), Int.toNat_natCast]
  rcases l[i]? with - | b
  · simp
  · exact ⟨fun h => congrArg some (Except.ok.inj h), fun h => congrArg _ (Option.some.inj h)⟩

theorem item_zero : item l 0 = .ok a ↔ l[0]? = some a := item_natCast (i := 0)

theorem item_succ {i : ℕ} : item l ((i : ℤ) + 1) = .ok a ↔ l[i + 1]? = some a := by
  rw [← Nat.cast_succ]
  exact item_natCast

/-- `l[-1]` is the last element. -/
theorem item_neg_one : item l (-1) = .ok a ↔ l ≠ [] ∧ l[l.length - 1]? = some a := by
  rcases l with - | ⟨b, l⟩
  · simp [item]
  · have hindex : ((b :: l).length : ℤ) + -1 = (l.length : ℕ) := by
      rw [List.length_cons]
      push_cast
      ring
    have hitem : item (b :: l) (-1) = item (b :: l) (l.length : ℕ) := by
      unfold item
      rw [if_neg (by decide), hindex, if_pos (Int.natCast_nonneg _), if_pos (Int.natCast_nonneg _)]
    rw [hitem, item_natCast]
    exact ⟨fun h => ⟨by simp, h⟩, fun h => h.2⟩

end Item

/-! ### Ascending axes -/

/-- The entry of a list; total, for the library's breakpoints. -/
def nth (l : List K) (i : ℕ) : K := l[i]?.getD 0

theorem nth_eq {l : List K} {i : ℕ} {a : K} (h : l[i]? = some a) : nth l i = a := by
  rw [nth, h]
  rfl

theorem getElem?_nth {l : List K} {i : ℕ} (h : i < l.length) : l[i]? = some (nth l i) := by
  rw [nth, List.getElem?_eq_getElem h]
  rfl

/-- An axis that the builders accept. -/
structure Axis (axis : List K) : Prop where
  ascending : Ascending (nth axis) (axis.length - 1)
  pos : 0 < axis.length

theorem ascending_of_check {axis : List K} (h : checkStrictlyAscending axis = .ok ()) :
    Ascending (nth axis) (axis.length - 1) := by
  unfold checkStrictlyAscending at h
  split_ifs at h with hall
  have hstep : ∀ i, i + 1 < axis.length → nth axis i < nth axis (i + 1) := by
    intro i hi
    have hmem : (axis.zip axis.tail)[i]? = some (nth axis i, nth axis (i + 1)) := by
      rw [List.getElem?_zip_eq_some, List.getElem?_tail]
      exact ⟨getElem?_nth (Nat.lt_of_succ_lt hi), getElem?_nth hi⟩
    exact of_decide_eq_true (List.all_eq_true.mp hall _ (List.mem_of_getElem? hmem))
  intro i j hij hj
  induction j, hij using Nat.le_induction with
  | base => exact hstep i (by omega)
  | succ j hle ih => exact (ih (by omega)).trans (hstep j (by omega))

theorem extent_eq_ok {axis : List K} {box : Interval K} (h : extent axis = .ok box) :
    0 < axis.length ∧ box = ⟨nth axis 0, nth axis (axis.length - 1)⟩ := by
  unfold extent at h
  split at h
  · rename_i lo hi hlo hhi
    obtain ⟨hne, hlast⟩ := item_neg_one.mp hhi
    rw [← Except.ok.inj h, nth_eq (item_zero.mp hlo), nth_eq hlast]
    exact ⟨List.length_pos_of_ne_nil hne, rfl⟩
  · cases h

section Search

variable {axis : List K} {v : K}

/-- The search stops at a cell that covers the value. -/
theorem findIdx?_covers (haxis : Axis axis) (hfirst : nth axis 0 < v)
    (hlast : v < nth axis (axis.length - 1)) :
    ∃ k, axis.tail.findIdx? (fun x => decide (v ≤ x)) = some k ∧ k + 1 < axis.length ∧
      Covers (nth axis) k v := by
  have hpos := haxis.pos
  rcases hfind : axis.tail.findIdx? (fun x => decide (v ≤ x)) with - | k
  · -- the last breakpoint is not below the value
    exfalso
    have hne : axis.length - 1 ≠ 0 := fun h => by
      rw [h] at hlast
      exact absurd (hfirst.trans hlast) (lt_irrefl _)
    have hmem : nth axis (axis.length - 1) ∈ axis.tail := by
      apply List.mem_of_getElem? (i := axis.length - 2)
      rw [List.getElem?_tail, show axis.length - 2 + 1 = axis.length - 1 by omega]
      exact getElem?_nth (by omega)
    have := List.findIdx?_eq_none_iff.mp hfind _ hmem
    exact absurd hlast.le (of_decide_eq_false this)
  · obtain ⟨hlt, hle, hbefore⟩ := List.findIdx?_eq_some_iff_getElem.mp hfind
    have hk : k + 1 < axis.length := by
      rw [List.length_tail] at hlt
      omega
    have htail : ∀ j (hj : j < axis.tail.length), axis.tail[j] = nth axis (j + 1) := by
      intro j hj
      apply Option.some.inj
      rw [← List.getElem?_eq_getElem hj, List.getElem?_tail]
      exact getElem?_nth (by rw [List.length_tail] at hj; omega)
    refine ⟨k, rfl, hk, ?_, ?_⟩
    · rcases k with - | k
      · exact hfirst.le
      · have hprev := hbefore k (Nat.lt_succ_self k)
        rw [htail k (by omega), Bool.not_eq_true, decide_eq_false_iff_not] at hprev
        exact (not_le.mp hprev).le
    · rw [htail k hlt] at hle
      exact of_decide_eq_true hle

end Search

/-! ### The 1-D solver -/

section OneAxis

variable [IsStrictOrderedRing K] {xs ys : List K} {v : K}

theorem lineAt_eq {i : ℕ} (hx : i + 1 < xs.length) (hy : i + 1 < ys.length) :
    lineAt xs ys (i + 1) v = .ok (segment (nth xs) (nth ys) i v) := by
  have hitem : ∀ (l : List K), i + 1 < l.length →
      item l ((i : ℤ) + 1 - 1) = .ok (nth l i) ∧ item l ((i : ℤ) + 1) = .ok (nth l (i + 1)) := by
    intro l hl
    rw [add_sub_cancel_right]
    exact ⟨item_natCast.mpr (getElem?_nth (Nat.lt_of_succ_lt hl)), item_succ.mpr (getElem?_nth hl)⟩
  rw [lineAt, (hitem xs hx).1, (hitem xs hx).2, (hitem ys hy).1, (hitem ys hy).2]
  rfl

/-- The value of the 1-D solver. -/
def interpolant (xs ys : List K) (v : K) : K := (interpLinear xs ys v).toOption.getD 0

/-- On an accepted table the 1-D solver returns, and what it returns. -/
theorem interpLinear_cases (haxis : Axis xs) (hlength : xs.length = ys.length) :
    (v ≤ nth xs 0 ∧ interpLinear xs ys v = .ok (nth ys 0)) ∨
      (nth xs (xs.length - 1) ≤ v ∧ interpLinear xs ys v = .ok (nth ys (xs.length - 1))) ∨
      ∃ k, k + 1 < xs.length ∧ Covers (nth xs) k v ∧
        interpLinear xs ys v = .ok (segment (nth xs) (nth ys) k v) := by
  have hpos := haxis.pos
  have hfirst : item xs 0 = .ok (nth xs 0) := item_zero.mpr (getElem?_nth hpos)
  have hlast : ∀ l : List K, xs.length = l.length → item l (-1) = .ok (nth l (l.length - 1)) :=
    fun l hl => item_neg_one.mpr
      ⟨List.ne_nil_of_length_pos (hl ▸ hpos), getElem?_nth (by omega)⟩
  unfold interpLinear
  rw [hfirst]
  by_cases hle : v ≤ nth xs 0
  · refine Or.inl ⟨hle, ?_⟩
    show (if v ≤ nth xs 0 then item ys 0 else _) = _
    rw [if_pos hle]
    exact item_zero.mpr (getElem?_nth (hlength ▸ hpos))
  · apply Or.inr
    show _ ∨ ∃ k, _ ∧ _ ∧ (if v ≤ nth xs 0 then item ys 0 else _) = _
    rw [if_neg hle, hlast xs rfl]
    by_cases hge : nth xs (xs.length - 1) ≤ v
    · refine Or.inl ⟨hge, ?_⟩
      show (if v ≤ nth xs 0 then item ys 0 else _) = _
      rw [if_neg hle]
      show (if nth xs (xs.length - 1) ≤ v then item ys (-1) else _) = _
      rw [if_pos hge, hlast ys hlength, hlength]
    · obtain ⟨k, hfind, hk, hcovers⟩ := findIdx?_covers haxis (not_le.mp hle) (not_le.mp hge)
      refine Or.inr ⟨k, hk, hcovers, ?_⟩
      show (if nth xs (xs.length - 1) ≤ v then item ys (-1) else _) = _
      rw [if_neg hge, hfind]
      exact lineAt_eq hk (hlength ▸ hk)

theorem interpLinear_eq (haxis : Axis xs) (hlength : xs.length = ys.length) (v : K) :
    interpLinear xs ys v = .ok (interpolant xs ys v) := by
  unfold interpolant
  rcases interpLinear_cases haxis hlength (v := v) with ⟨-, h⟩ | ⟨-, h⟩ | ⟨k, -, -, h⟩ <;>
    rw [h] <;> rfl

/-- **The 1-D solver is the piecewise linear interpolant** of its data. -/
theorem isInterpolant (haxis : Axis xs) (hlength : xs.length = ys.length) :
    Interp.IsInterpolant (nth xs) (nth ys) (xs.length - 1) (interpolant xs ys) := by
  have hpos := haxis.pos
  have hvalue : ∀ {v w : K}, interpLinear xs ys v = .ok w → interpolant xs ys v = w := by
    intro v w h
    rw [interpolant, h]
    rfl
  refine ⟨haxis.ascending, ?_, fun i hi v hv => ?_⟩
  · rcases interpLinear_cases haxis hlength (v := nth xs 0) with
      ⟨-, h⟩ | ⟨hle, h⟩ | ⟨k, hk, hcovers, h⟩
    · exact hvalue h
    · -- one breakpoint only
      have hzero : xs.length - 1 = 0 := by
        by_contra hne
        exact absurd (haxis.ascending 0 _ (Nat.pos_of_ne_zero hne) le_rfl) (not_lt.mpr hle)
      rw [hvalue h, hzero]
    · have hk0 : k = 0 := by
        by_contra hne
        exact absurd (haxis.ascending 0 k (Nat.pos_of_ne_zero hne) (by omega))
          (not_lt.mpr hcovers.1)
      rw [hvalue h, hk0, Interp.segment_left]
  · rcases interpLinear_cases haxis hlength (v := v) with ⟨hle, h⟩ | ⟨hle, h⟩ | ⟨k, hk, hcovers, h⟩
    · -- the first breakpoint
      have hi0 : i = 0 := by
        by_contra hne
        exact absurd (haxis.ascending 0 i (Nat.pos_of_ne_zero hne) (by omega))
          (not_lt.mpr (hv.1.trans hle))
      subst hi0
      rw [hvalue h, le_antisymm hle hv.1, Interp.segment_left]
    · -- the last breakpoint
      have hilast : i + 1 = xs.length - 1 := by
        by_contra hne
        exact absurd (haxis.ascending (i + 1) _ (by omega) le_rfl) (not_lt.mpr (hle.trans hv.2))
      have heq : v = nth xs (i + 1) := le_antisymm hv.2 (hilast ▸ hle)
      rw [hvalue h, heq, Interp.segment_right (haxis.ascending.step hi), hilast]
    · rw [hvalue h]
      exact Interp.segment_agree haxis.ascending (by omega) hi hcovers hv

/-- The reads of a 1-D table's closure. -/
theorem readPort_insert (port : Port) (v : K) :
    readPort ((∅ : PortMap K).insert port v) port = .ok v := by
  rw [readPort, OrdMap.getElem?_insert_eq, if_pos rfl]

theorem insert_injective {port : Port} {v w : K}
    (h : (∅ : PortMap K).insert port v = (∅ : PortMap K).insert port w) : v = w := by
  have hget := congrArg (fun m : PortMap K => m[port]?) h
  simp only [OrdMap.getElem?_insert_eq, if_true] at hget
  exact Option.some.inj hget

/-- What the builder checked of an accepted table, and what it registers. -/
structure Accepted1d (args : TableArgs K) (xPort yPort : Port) (x y : List K)
    (dir : TableDirection K) : Prop where
  axis : Axis x
  sameLength : x.length = y.length
  eps_nonneg : 0 ≤ args.epsAbs
  box : dir.info.domain.portBox[xPort]? = some ⟨nth x 0, nth x (x.length - 1)⟩
  value : ∀ v, dir.rawFn ((∅ : PortMap K).insert xPort v)
    = .ok ((∅ : PortMap K).insert yPort (interpolant x y v))

theorem accepted1d {args : TableArgs K} {xPort yPort : Port} {x y : List K}
    {dir : TableDirection K} (h : tableSolver1d args xPort yPort x y = .ok dir) :
    Accepted1d args xPort yPort x y dir := by
  unfold tableSolver1d at h
  obtain ⟨⟨⟩, hcheck, h⟩ := Fallible.bind_eq_ok.mp h
  simp only at h
  split_ifs at h with hlength
  · cases h
  rw [not_not] at hlength
  obtain ⟨box, hbox, h⟩ := Fallible.bind_eq_ok.mp h
  obtain ⟨accuracy, haccuracy, h⟩ := Fallible.bind_eq_ok.mp h
  obtain rfl := Except.ok.inj h
  obtain ⟨hpos, rfl⟩ := extent_eq_ok hbox
  have haxis : Axis x := ⟨ascending_of_check hcheck, hpos⟩
  refine ⟨haxis, hlength, ?_, ?_, fun v => ?_⟩
  · unfold tableAccuracy at haccuracy
    split_ifs at haccuracy with heps
    exact heps
  · show ((∅ : PortMap (Interval K)).insert xPort _)[xPort]? = _
    rw [OrdMap.getElem?_insert_eq, if_pos rfl]
  · show (do
      let v ← readPort ((∅ : PortMap K).insert xPort v) xPort
      let value ← interpLinear x y v
      pure ((∅ : PortMap K).insert yPort value)) = _
    rw [readPort_insert]
    show (do
      let value ← interpLinear x y v
      pure ((∅ : PortMap K).insert yPort value)) = _
    rw [interpLinear_eq haxis hlength]
    rfl

/-- The value at `v` lies in the hull of the values at the ends of `iv`,
inflated by `eps`. -/
def InsideBand (dir : TableDirection K) (xPort yPort : Port) (eps : K) (iv : Interval K)
    (v : K) : Prop :=
  ∃ lo value hi,
    dir.rawFn ((∅ : PortMap K).insert xPort iv.lo) = .ok ((∅ : PortMap K).insert yPort lo) ∧
    dir.rawFn ((∅ : PortMap K).insert xPort v) = .ok ((∅ : PortMap K).insert yPort value) ∧
    dir.rawFn ((∅ : PortMap K).insert xPort iv.hi) = .ok ((∅ : PortMap K).insert yPort hi) ∧
    (inflate ((Interval.point lo).hull (Interval.point hi)) eps).contains value

/-- Every breakpoint lies in the hull of any two that it is between, inflated by
`eps`. -/
def BreakpointsInBand (eps : K) (y : List K) : Prop :=
  ∀ i k j, i ≤ k → k ≤ j → j < y.length →
    (inflate ((Interval.point (nth y i)).hull (Interval.point (nth y j))) eps).contains (nth y k)

theorem insideBand_iff {args : TableArgs K} {xPort yPort : Port} {x y : List K}
    {dir : TableDirection K} (h : Accepted1d args xPort yPort x y dir) {eps : K} {iv : Interval K} :
    InsideBand dir xPort yPort eps iv v ↔
      min (interpolant x y iv.lo) (interpolant x y iv.hi) - eps ≤ interpolant x y v ∧
        interpolant x y v ≤ max (interpolant x y iv.lo) (interpolant x y iv.hi) + eps := by
  constructor
  · rintro ⟨lo, value, hi, hlo, hvalue, hhi, hcontains⟩
    rw [h.value, Except.ok.injEq] at hlo hvalue hhi
    rw [insert_injective hlo, insert_injective hvalue, insert_injective hhi]
    exact hcontains
  · exact fun hband => ⟨_, _, _, h.value _, h.value _, h.value _, hband⟩

/-- **When a 1-D table solver stays inside its error band**: over every interval
in the extent, iff the breakpoints do. -/
theorem tableSolver1d_insideBand_iff {args : TableArgs K} {xPort yPort : Port} {x y : List K}
    {dir : TableDirection K} (h : tableSolver1d args xPort yPort x y = .ok dir) :
    (∀ (box iv : Interval K) (v : K), dir.info.domain.portBox[xPort]? = some box →
      iv.isSubset box → iv.contains v → InsideBand dir xPort yPort args.epsAbs iv v) ↔
    BreakpointsInBand args.epsAbs y := by
  have hacc := accepted1d h
  have hpos := hacc.axis.pos
  have hband := (isInterpolant hacc.axis hacc.sameLength).band_iff hacc.eps_nonneg
  have hindex : ∀ j, j ≤ x.length - 1 ↔ j < y.length := fun j => by
    have := hacc.sameLength
    omega
  simp only [hindex] at hband
  refine Iff.trans ?_ hband
  constructor
  · intro hinside a v b ha hav hvb hb
    exact (insideBand_iff hacc).mp
      (hinside _ ⟨a, b⟩ v hacc.box ⟨ha, hb⟩ ⟨hav, hvb⟩)
  · rintro hinside box iv v hbox ⟨hlo, hhi⟩ ⟨hlov, hvhi⟩
    rw [hacc.box] at hbox
    obtain rfl := Option.some.inj hbox
    exact (insideBand_iff hacc).mpr (hinside iv.lo v iv.hi hlo hlov hvhi hhi)

/-- A table's arguments, with no error allowed for. -/
def tightArgs : TableArgs ℚ where
  ns := "materials"
  epsAbs := 0
  citations := []
  version := "1"
  cost := 1
  settingsDigest := ""

/-- The peak between the ends of the interval is missed. -/
theorem not_insideBand_peak : ∃ dir,
    tableSolver1d tightArgs "materials.t" "materials.k" [0, 1, 2] [0, 10, 0] = .ok dir ∧
    ¬ ∀ (box iv : Interval ℚ) (v : ℚ), dir.info.domain.portBox["materials.t"]? = some box →
      iv.isSubset box → iv.contains v →
        InsideBand dir "materials.t" "materials.k" tightArgs.epsAbs iv v := by
  refine ⟨_, rfl, fun hinside => ?_⟩
  have hacc := accepted1d (rfl : tableSolver1d tightArgs "materials.t" "materials.k" [0, 1, 2]
    [0, 10, 0] = .ok _)
  have hpeak := (insideBand_iff hacc).mp (hinside _ ⟨0, 2⟩ 1 hacc.box (by decide +kernel)
    (by decide +kernel))
  have hends : ¬ interpolant [0, 1, 2] [0, 10, 0] (1 : ℚ)
      ≤ max (interpolant [0, 1, 2] [0, 10, 0] 0) (interpolant [0, 1, 2] [0, 10, 0] 2)
        + tightArgs.epsAbs := by
    decide +kernel
  exact hends hpeak.2

theorem tableSolver1d_insideBand_rising : ∃ dir,
    tableSolver1d tightArgs "materials.t" "materials.k" [0, 1, 3] [0, 2, 5] = .ok dir ∧
    ((∀ (box iv : Interval ℚ) (v : ℚ), dir.info.domain.portBox["materials.t"]? = some box →
      iv.isSubset box → iv.contains v →
        InsideBand dir "materials.t" "materials.k" tightArgs.epsAbs iv v) ↔
      BreakpointsInBand tightArgs.epsAbs [0, 2, 5]) :=
  ⟨_, rfl, tableSolver1d_insideBand_iff (x := [0, 1, 3]) rfl⟩

end OneAxis

/-! ### The 2-D solver -/

section TwoAxes

variable [IsStrictOrderedRing K] {xs ys axis : List K} {grid : List (List K)} {u v : K} {i j : ℕ}

def InExtent (axis : List K) (v : K) : Prop := nth axis 0 ≤ v ∧ v ≤ nth axis (axis.length - 1)

/-- Cell `i` of the axis covers `v`. -/
def CellCovers (axis : List K) (i : ℕ) (v : K) : Prop :=
  i + 1 < axis.length ∧ Covers (nth axis) i v

def gridNth (grid : List (List K)) (i j : ℕ) : K := nth (grid[i]?.getD []) j

/-- A grid of the shape of its axes. -/
def Shaped (xs ys : List K) (grid : List (List K)) : Prop :=
  grid.length = xs.length ∧ ∀ row ∈ grid, row.length = ys.length

theorem clampIndex_first (haxis : Axis axis) (hv : v ≤ nth axis 0) : clampIndex v axis = .ok 0 := by
  have hfirst : item axis 0 = .ok (nth axis 0) := item_zero.mpr (getElem?_nth haxis.pos)
  unfold clampIndex
  rw [hfirst]
  show (if v ≤ nth axis 0 then _ else _) = _
  rw [if_pos hv]
  rfl

/-- **The cell that is chosen covers the value**, on an axis with a cell. -/
theorem clampIndex_covers (haxis : Axis axis) (htwo : 2 ≤ axis.length) (hv : InExtent axis v) :
    ∃ i : ℕ, clampIndex v axis = .ok i ∧ CellCovers axis i v := by
  have hfirst : item axis 0 = .ok (nth axis 0) := item_zero.mpr (getElem?_nth haxis.pos)
  have hlast : item axis (-1) = .ok (nth axis (axis.length - 1)) :=
    item_neg_one.mpr ⟨List.ne_nil_of_length_pos haxis.pos, getElem?_nth (by omega)⟩
  by_cases hle : v ≤ nth axis 0
  · refine ⟨0, clampIndex_first haxis hle, by omega, hv.1, ?_⟩
    exact hle.trans (haxis.ascending.step (by omega)).le
  · unfold clampIndex
    rw [hfirst, hlast]
    show ∃ i : ℕ, (if v ≤ nth axis 0 then _ else
      if nth axis (axis.length - 1) ≤ v then _ else _) = _ ∧ _
    rw [if_neg hle]
    by_cases hge : nth axis (axis.length - 1) ≤ v
    · rw [if_pos hge]
      refine ⟨axis.length - 2, congrArg Except.ok (by omega), by omega, ?_, ?_⟩
      · exact (haxis.ascending.le (by omega) le_rfl).trans hge
      · rw [show axis.length - 2 + 1 = axis.length - 1 by omega]
        exact hv.2
    · obtain ⟨k, hfind, hk, hcovers⟩ := findIdx?_covers haxis (not_le.mp hle) (not_le.mp hge)
      rw [if_neg hge, hfind]
      exact ⟨k, rfl, hk, hcovers⟩

theorem fraction_eq (haxis : Axis axis) (hcell : CellCovers axis i v) :
    fraction axis i v = .ok ((v - nth axis i) / (nth axis (i + 1) - nth axis i)) := by
  obtain ⟨hi, -⟩ := hcell
  have hright : item axis ((i : ℤ) + 1) = .ok (nth axis (i + 1)) := item_succ.mpr (getElem?_nth hi)
  have hleft : item axis (i : ℤ) = .ok (nth axis i) :=
    item_natCast.mpr (getElem?_nth (Nat.lt_of_succ_lt hi))
  have hne : nth axis (i + 1) ≠ nth axis i := (haxis.ascending.step (by omega)).ne'
  unfold fraction
  rw [hright, hleft]
  show Except.ok (if nth axis (i + 1) = nth axis i then 0 else _) = _
  rw [if_neg hne]

theorem gridItem_eq (hshape : Shaped xs ys grid) {i' j' : ℤ} (hi' : i' = i) (hj' : j' = j)
    (hi : i < xs.length) (hj : j < ys.length) : gridItem grid i' j' = .ok (gridNth grid i j) := by
  subst hi' hj'
  have hi : i < grid.length := hshape.1 ▸ hi
  have hrow : grid[i]? = some grid[i] := List.getElem?_eq_getElem hi
  have hlength : grid[i].length = ys.length := hshape.2 _ (List.getElem_mem hi)
  have hitem : item grid (i : ℤ) = .ok grid[i] := item_natCast.mpr hrow
  unfold gridItem
  rw [hitem]
  show item grid[i] (j : ℤ) = _
  rw [gridNth, hrow]
  exact item_natCast.mpr (getElem?_nth (hlength ▸ hj))

/-- In a cell that covers the point, the value is the bilinear one. -/
theorem interpCell_eq (hx : Axis xs) (hy : Axis ys) (hshape : Shaped xs ys grid)
    (hu : CellCovers xs i u) (hv : CellCovers ys j v) :
    interpCell xs ys grid i j u v
      = .ok (Interp.bilinear (nth xs) (nth ys) (gridNth grid) i j u v) := by
  have hi : i < xs.length := Nat.lt_of_succ_lt hu.1
  have hj : j < ys.length := Nat.lt_of_succ_lt hv.1
  unfold interpCell
  rw [fraction_eq hx hu, fraction_eq hy hv, gridItem_eq hshape rfl rfl hi hj,
    gridItem_eq hshape rfl (Nat.cast_succ j).symm hi hv.1,
    gridItem_eq hshape (Nat.cast_succ i).symm rfl hu.1 hj,
    gridItem_eq hshape (Nat.cast_succ i).symm (Nat.cast_succ j).symm hu.1 hv.1]
  rfl

/-- What the builder checked of an accepted grid. -/
structure Accepted2d (xs ys : List K) (grid : List (List K)) (dir : TableDirection2d K) : Prop where
  axisX : Axis xs
  axisY : Axis ys
  shaped : Shaped xs ys grid
  lookup : dir.lookup = interpBilinear xs ys grid

theorem accepted2d {args : TableArgs K} {xPort yPort zPort : Port} {dir : TableDirection2d K}
    (h : tableSolver2d args xPort yPort zPort xs ys grid = .ok dir) :
    Accepted2d xs ys grid dir := by
  unfold tableSolver2d at h
  obtain ⟨⟨⟩, hx, h⟩ := Fallible.bind_eq_ok.mp h
  obtain ⟨⟨⟩, hy, h⟩ := Fallible.bind_eq_ok.mp h
  simp only at h
  split_ifs at h with hshape
  · cases h
  obtain ⟨boxX, hboxX, h⟩ := Fallible.bind_eq_ok.mp h
  obtain ⟨boxY, hboxY, h⟩ := Fallible.bind_eq_ok.mp h
  obtain ⟨accuracy, -, h⟩ := Fallible.bind_eq_ok.mp h
  obtain rfl := Except.ok.inj h
  obtain ⟨hlength, hrows⟩ := not_or.mp hshape
  refine ⟨⟨ascending_of_check hx, (extent_eq_ok hboxX).1⟩,
    ⟨ascending_of_check hy, (extent_eq_ok hboxY).1⟩, ⟨not_not.mp hlength, fun row hrow => ?_⟩, rfl⟩
  by_contra hne
  exact hrows (List.any_eq_true.mpr ⟨row, hrow, decide_eq_true hne⟩)

/-- Bilinear interpolation: every point of the box has a value, a grid node has
its entry, and whichever cell covers a point, the value is the one of that cell
and lies between its four entries. -/
structure Interpolates (xs ys : List K) (grid : List (List K)) (lookup : K → K → Except PyError K) :
    Prop where
  total : ∀ u v, InExtent xs u → InExtent ys v → ∃ value, lookup u v = .ok value
  node : ∀ i < xs.length, ∀ j < ys.length, lookup (nth xs i) (nth ys j) = .ok (gridNth grid i j)
  covered : ∀ u v, InExtent xs u → InExtent ys v → ∃ i j, CellCovers xs i u ∧ CellCovers ys j v
  cell : ∀ u v (i j : ℕ), CellCovers xs i u → CellCovers ys j v →
    interpCell xs ys grid i j u v = lookup u v
  between : ∀ u v (i j : ℕ) value, CellCovers xs i u → CellCovers ys j v →
    lookup u v = .ok value →
      min (min (gridNth grid i j) (gridNth grid i (j + 1)))
        (min (gridNth grid (i + 1) j) (gridNth grid (i + 1) (j + 1))) ≤ value ∧
      value ≤ max (max (gridNth grid i j) (gridNth grid i (j + 1)))
        (max (gridNth grid (i + 1) j) (gridNth grid (i + 1) (j + 1)))

/-- A breakpoint of an axis with a cell is covered by a cell that starts or ends
there. -/
theorem exists_cellCovers (haxis : Axis axis) (htwo : 2 ≤ axis.length) (hi : i < axis.length) :
    ∃ k, CellCovers axis k (nth axis i) ∧ (i = k ∨ i = k + 1) := by
  rcases i with - | i
  · have hstep : nth axis 0 < nth axis 1 := haxis.ascending.step (Nat.lt_sub_of_add_lt htwo)
    exact ⟨0, ⟨htwo, le_rfl, hstep.le⟩, Or.inl rfl⟩
  · exact ⟨i, ⟨hi, (haxis.ascending.step (by omega)).le, le_rfl⟩, Or.inr rfl⟩

theorem lookup_eq (hx : Axis xs) (hy : Axis ys) (hshape : Shaped xs ys grid)
    (hu : CellCovers xs i u) (hv : CellCovers ys j v) :
    interpBilinear xs ys grid u v
      = .ok (Interp.bilinear (nth xs) (nth ys) (gridNth grid) i j u v) := by
  have hin : ∀ {axis : List K} {i : ℕ} {v : K}, Axis axis → CellCovers axis i v →
      InExtent axis v := fun haxis hcell =>
    ⟨(haxis.ascending.le (Nat.zero_le _) (by have := hcell.1; omega)).trans hcell.2.1,
      hcell.2.2.trans (haxis.ascending.le (by have := hcell.1; omega) le_rfl)⟩
  obtain ⟨i', hi', hu'⟩ := clampIndex_covers hx (by have := hu.1; omega) (hin hx hu)
  obtain ⟨j', hj', hv'⟩ := clampIndex_covers hy (by have := hv.1; omega) (hin hy hv)
  unfold interpBilinear
  rw [hi', hj']
  show interpCell xs ys grid i' j' u v = _
  rw [interpCell_eq hx hy hshape hu' hv']
  refine congrArg _ (Interp.bilinear_agree hx.ascending hy.ascending ?_ ?_ ?_ ?_ hu'.2 hu.2
    hv'.2 hv.2)
  · exact Nat.lt_sub_of_add_lt hu'.1
  · exact Nat.lt_sub_of_add_lt hu.1
  · exact Nat.lt_sub_of_add_lt hv'.1
  · exact Nat.lt_sub_of_add_lt hv.1

/-- The value of a segment at one of its breakpoints. -/
theorem segment_node {y : ℕ → K} {k : ℕ} (haxis : Axis axis) (hk : k + 1 < axis.length)
    (hi : i = k ∨ i = k + 1) : segment (nth axis) y k (nth axis i) = y i := by
  rcases hi with rfl | rfl
  · exact Interp.segment_left _ _ _
  · exact Interp.segment_right (haxis.ascending.step (Nat.lt_sub_of_add_lt hk))

theorem interpolates (hx : Axis xs) (hy : Axis ys) (hshape : Shaped xs ys grid)
    (htwoX : 2 ≤ xs.length) (htwoY : 2 ≤ ys.length) :
    Interpolates xs ys grid (interpBilinear xs ys grid) := by
  have hcovered : ∀ u v, InExtent xs u → InExtent ys v →
      ∃ i j, CellCovers xs i u ∧ CellCovers ys j v := by
    intro u v hu hv
    obtain ⟨i, -, hi⟩ := clampIndex_covers hx htwoX hu
    obtain ⟨j, -, hj⟩ := clampIndex_covers hy htwoY hv
    exact ⟨i, j, hi, hj⟩
  refine ⟨fun u v hu hv => ?_, fun i hi j hj => ?_, hcovered, fun u v i j hu hv => ?_,
    fun u v i j value hu hv hvalue => ?_⟩
  · obtain ⟨i, j, hi, hj⟩ := hcovered u v hu hv
    exact ⟨_, lookup_eq hx hy hshape hi hj⟩
  · obtain ⟨k, hk, hik⟩ := exists_cellCovers hx htwoX hi
    obtain ⟨l, hl, hjl⟩ := exists_cellCovers hy htwoY hj
    rw [lookup_eq hx hy hshape hk hl]
    refine congrArg _ ?_
    show segment (nth xs) (fun a => segment (nth ys) (gridNth grid a) l (nth ys j)) k (nth xs i) = _
    rw [segment_node hx hk.1 hik, segment_node hy hl.1 hjl]
  · rw [interpCell_eq hx hy hshape hu hv, lookup_eq hx hy hshape hu hv]
  · rw [lookup_eq hx hy hshape hu hv] at hvalue
    obtain rfl := Except.ok.inj hvalue
    have hstepX := hx.ascending.step (Nat.lt_sub_of_add_lt hu.1)
    have hstepY := hy.ascending.step (Nat.lt_sub_of_add_lt hv.1)
    exact ⟨Interp.le_bilinear hstepX hstepY hu.2 hv.2, Interp.bilinear_le hstepX hstepY hu.2 hv.2⟩

/-- With one breakpoint on an axis there is no second one to read. -/
theorem interpBilinear_single (hx : Axis xs) (hy : Axis ys) (h : xs.length = 1 ∨ ys.length = 1) :
    interpBilinear xs ys grid (nth xs 0) (nth ys 0) = .error .indexError := by
  have hsingle : ∀ {axis : List K} {v : K}, axis.length = 1 →
      fraction axis 0 v = .error .indexError := by
    intro axis v hone
    obtain ⟨a, rfl⟩ := List.length_eq_one_iff.mp hone
    rfl
  have hfraction : ∀ {axis : List K} {v : K}, 0 < axis.length → axis.length ≠ 1 →
      ∃ t, fraction axis 0 v = .ok t := by
    intro axis v hpos hne
    have hlt : 0 + 1 < axis.length := by omega
    have hright : item axis (0 + 1) = .ok (nth axis 1) := item_succ.mpr (getElem?_nth hlt)
    have hleft : item axis 0 = .ok (nth axis 0) := item_zero.mpr (getElem?_nth hpos)
    unfold fraction
    rw [hright, hleft]
    exact ⟨_, rfl⟩
  unfold interpBilinear
  rw [clampIndex_first hx le_rfl, clampIndex_first hy le_rfl]
  show interpCell xs ys grid 0 0 _ _ = _
  unfold interpCell
  by_cases hone : xs.length = 1
  · rw [hsingle hone]
    rfl
  · obtain ⟨t, ht⟩ := hfraction (v := nth xs 0) hx.pos hone
    rw [ht, hsingle (h.resolve_left hone)]
    rfl

/-- **When a 2-D table solver interpolates its grid**: iff both axes have two
breakpoints. -/
theorem tableSolver2d_interpolates_iff {args : TableArgs K} {xPort yPort zPort : Port}
    {dir : TableDirection2d K}
    (h : tableSolver2d args xPort yPort zPort xs ys grid = .ok dir) :
    Interpolates xs ys grid dir.lookup ↔ 2 ≤ xs.length ∧ 2 ≤ ys.length := by
  have hacc := accepted2d h
  have hposX := hacc.axisX.pos
  have hposY := hacc.axisY.pos
  rw [hacc.lookup]
  constructor
  · intro hinterp
    by_contra hshort
    have hone : xs.length = 1 ∨ ys.length = 1 := by omega
    have hin : ∀ {axis : List K}, Axis axis → InExtent axis (nth axis 0) := fun haxis =>
      ⟨le_rfl, haxis.ascending.le (Nat.zero_le _) le_rfl⟩
    obtain ⟨value, hvalue⟩ := hinterp.total _ _ (hin hacc.axisX) (hin hacc.axisY)
    rw [interpBilinear_single hacc.axisX hacc.axisY hone] at hvalue
    cases hvalue
  · rintro ⟨htwoX, htwoY⟩
    exact interpolates hacc.axisX hacc.axisY hacc.shaped htwoX htwoY

/-- A grid of one row is accepted, and its only lookup is an index error. -/
theorem not_interpolates_row : ∃ dir : TableDirection2d ℚ,
    tableSolver2d tightArgs "materials.t" "materials.p" "materials.k" [300] [1, 2] [[5, 6]]
      = .ok dir ∧
    dir.lookup 300 1 = .error .indexError ∧ ¬ Interpolates [300] [1, 2] [[5, 6]] dir.lookup := by
  refine ⟨_, rfl, rfl, fun hinterp => ?_⟩
  obtain ⟨value, hvalue⟩ := hinterp.total 300 1 ⟨le_rfl, le_rfl⟩ ⟨le_rfl, by decide +kernel⟩
  cases hvalue

theorem tableSolver2d_interpolates_square : ∃ dir : TableDirection2d ℚ,
    tableSolver2d tightArgs "materials.t" "materials.p" "materials.k" [300, 400] [1, 2]
      [[5, 6], [8, 7]] = .ok dir ∧
    (Interpolates [300, 400] [1, 2] [[5, 6], [8, 7]] dir.lookup ↔
      2 ≤ [300, (400 : ℚ)].length ∧ 2 ≤ [1, (2 : ℚ)].length) :=
  ⟨_, rfl, tableSolver2d_interpolates_iff (show tableSolver2d tightArgs "materials.t" "materials.p"
    "materials.k" [300, 400] [1, 2] [[5, 6], [8, 7]] = .ok _ from rfl)⟩

end TwoAxes

end Tables

end Feldspar

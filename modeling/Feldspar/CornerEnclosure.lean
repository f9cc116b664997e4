/-
Feldspar/CornerEnclosure.lean

The corner sweep encloses the range of a function over the box.

The values at the points of a box are those of a function on coordinates
(`pointOf`), so the library's result on corners applies port by port:
`exists_corner_ge` and `exists_corner_le` give, for every point, a corner with a
value no smaller and one with a value no larger, and `cornerSweep_encloses` is
what the hull of the corners is.
-/
import Feldspar.Derivation
import Feldspar.ExecuteSound
import Feldspar.Lib.Corner
import Mathlib.Order.Interval.Set.Basic
import Mathlib.Tactic.Ring

set_option linter.unusedSectionVars false

namespace Feldspar

variable {K : Type} [Field K] [LinearOrder K]

/-- The value of an output port. -/
def valueAt (outputs : PortMap K) (p : Port) : K := outputs[p]?.getD 0

/-- In the port `q`, with the other ports held fixed, monotone or affine. -/
def MonotoneOrAffineIn (f : PortMap K → K) (box : PortMap (Interval K)) (q : Port)
    (iv : Interval K) : Prop :=
  ∀ x, InBox box x →
    MonotoneOn (fun t => f (x.insert q t)) (Set.Icc iv.lo iv.hi) ∨
      AntitoneOn (fun t => f (x.insert q t)) (Set.Icc iv.lo iv.hi) ∨
        ∃ a b, ∀ t ∈ Set.Icc iv.lo iv.hi, f (x.insert q t) = a * t + b

/-- In each port separately, with the others held fixed, monotone or affine. -/
def SeparatelyMonotone (f : PortMap K → K) (box : PortMap (Interval K)) : Prop :=
  ∀ q iv, box[q]? = some iv → MonotoneOrAffineIn f box q iv

/-- An affine function of one port is monotone or antitone in it. -/
theorem MonotoneOrAffineIn.monotone_or_antitone [IsStrictOrderedRing K] {f : PortMap K → K}
    {box : PortMap (Interval K)} {q : Port} {iv : Interval K}
    (h : MonotoneOrAffineIn f box q iv) {x : PortMap K} (hx : InBox box x) :
    MonotoneOn (fun t => f (x.insert q t)) (Set.Icc iv.lo iv.hi) ∨
      AntitoneOn (fun t => f (x.insert q t)) (Set.Icc iv.lo iv.hi) := by
  rcases h x hx with hmono | hanti | ⟨a, b, haffine⟩
  · exact Or.inl hmono
  · exact Or.inr hanti
  · rcases le_total 0 a with ha | ha
    · apply Or.inl
      intro s hs t ht hst
      show f (x.insert q s) ≤ f (x.insert q t)
      rw [haffine s hs, haffine t ht]
      exact add_le_add (mul_le_mul_of_nonneg_left hst ha) le_rfl
    · apply Or.inr
      intro s hs t ht hst
      show f (x.insert q t) ≤ f (x.insert q s)
      rw [haffine s hs, haffine t ht]
      exact add_le_add (mul_le_mul_of_nonpos_left hst ha) le_rfl

/-! ### Points of a box as functions on coordinates -/

section Points

variable {box : PortMap (Interval K)}

/-- The point of the box with the coordinates `g`. -/
def pointOf (box : PortMap (Interval K)) (g : Port → K) : PortMap K := OrdMap.ofFn box.keys g

def loEnd (box : PortMap (Interval K)) (q : Port) : K := (box[q]?.map Interval.lo).getD 0

def hiEnd (box : PortMap (Interval K)) (q : Port) : K := (box[q]?.map Interval.hi).getD 0

theorem getElem?_pointOf {g : Port → K} {q : Port} :
    (pointOf box g)[q]? = if q ∈ box then some (g q) else none := by
  rw [pointOf, OrdMap.getElem?_ofFn]
  simp only [Std.ExtTreeMap.mem_keys]

theorem mem_pointOf {g : Port → K} {q : Port} : q ∈ pointOf box g ↔ q ∈ box := by
  rw [OrdMap.mem_iff_exists, getElem?_pointOf]
  split_ifs with hq
  · exact ⟨fun _ => hq, fun _ => ⟨_, rfl⟩⟩
  · simp [hq]

theorem inBox_pointOf {g : Port → K} (hg : g ∈ Set.Icc (loEnd box) (hiEnd box)) :
    InBox box (pointOf box g) := by
  refine ⟨fun q => mem_pointOf, fun q v iv hv hiv => ?_⟩
  have hq : q ∈ box := OrdMap.mem_iff_exists.mpr ⟨iv, hiv⟩
  rw [getElem?_pointOf, if_pos hq, Option.some.injEq] at hv
  have hlo : loEnd box q = iv.lo := by rw [loEnd, hiv]; rfl
  have hhi : hiEnd box q = iv.hi := by rw [hiEnd, hiv]; rfl
  rw [← hv]
  exact ⟨hlo ▸ hg.1 q, hhi ▸ hg.2 q⟩

/-- The coordinates of a point of the box. -/
def coordinates (x : PortMap K) (q : Port) : K := x[q]?.getD 0

theorem pointOf_coordinates {x : PortMap K} (hx : InBox box x) :
    pointOf box (coordinates x) = x := by
  apply Std.ExtTreeMap.ext_getElem?
  intro q
  rw [getElem?_pointOf]
  split_ifs with hq
  · obtain ⟨v, hv⟩ := OrdMap.mem_iff_exists.mp ((hx.keys q).mpr hq)
    rw [coordinates, hv]
    rfl
  · have hnot : q ∉ x := fun h => hq ((hx.keys q).mp h)
    exact (Std.ExtTreeMap.getElem?_eq_none hnot).symm

theorem coordinates_mem_Icc {x : PortMap K} (hx : InBox box x) :
    coordinates x ∈ Set.Icc (loEnd box) (hiEnd box) := by
  have hends : ∀ q, loEnd box q ≤ coordinates x q ∧ coordinates x q ≤ hiEnd box q := by
    intro q
    unfold loEnd hiEnd coordinates
    rcases hiv : box[q]? with - | iv
    · have hq : q ∉ x := fun h => by
        obtain ⟨iv, hiv'⟩ := OrdMap.mem_iff_exists.mp ((hx.keys q).mp h)
        rw [hiv] at hiv'
        cases hiv'
      rw [Std.ExtTreeMap.getElem?_eq_none hq]
      exact ⟨le_rfl, le_rfl⟩
    · obtain ⟨v, hv, hcontains⟩ := hx.exists_left hiv
      rw [hv]
      exact hcontains
  exact ⟨fun q => (hends q).1, fun q => (hends q).2⟩

/-- Changing a coordinate changes one port. -/
theorem pointOf_update {g : Port → K} {q : Port} {t : K} (hq : q ∈ box) :
    pointOf box (Function.update g q t) = (pointOf box g).insert q t := by
  apply Std.ExtTreeMap.ext_getElem?
  intro p
  rw [getElem?_pointOf, OrdMap.getElem?_insert_eq, getElem?_pointOf]
  rcases eq_or_ne q p with rfl | hne
  · rw [if_pos hq, if_pos rfl, Function.update_self]
  · rw [if_neg hne, Function.update_of_ne hne.symm]

/-- The coordinates that are all at an end are those of a corner. -/
theorem isCorner_pointOf {g : Port → K}
    (hg : ∀ q ∈ box, g q = loEnd box q ∨ g q = hiEnd box q) :
    IsCorner box (pointOf box g) := by
  refine ⟨fun q => mem_pointOf, fun q v iv hv hiv => ?_⟩
  have hq : q ∈ box := OrdMap.mem_iff_exists.mpr ⟨iv, hiv⟩
  rw [getElem?_pointOf, if_pos hq, Option.some.injEq] at hv
  have hlo : loEnd box q = iv.lo := by rw [loEnd, hiv]; rfl
  have hhi : hiEnd box q = iv.hi := by rw [hiEnd, hiv]; rfl
  rw [← hv, ← hlo, ← hhi]
  exact hg q hq

/-- A corner of a box of proper intervals is a point of it. -/
theorem inBox_of_isCorner {c : PortMap K} (hproper : ProperMap box) (hc : IsCorner box c) :
    InBox box c := by
  refine ⟨hc.keys, fun q v iv hv hiv => ?_⟩
  rcases hc.vals q v iv hv hiv with rfl | rfl
  · exact ⟨le_rfl, hproper q iv hiv⟩
  · exact ⟨hproper q iv hiv, le_rfl⟩

end Points

/-! ### The extrema are at corners -/

section Extrema

variable [IsStrictOrderedRing K] {f : PortMap K → K} {box : PortMap (Interval K)}

theorem endsDominate_pointOf {q : Port} (hq : q ∈ box) (hf : SeparatelyMonotone f box) :
    Corner.EndsDominate (loEnd box) (hiEnd box) (fun g => f (pointOf box g)) q := by
  obtain ⟨iv, hiv⟩ := OrdMap.mem_iff_exists.mp hq
  have hlo : loEnd box q = iv.lo := by rw [loEnd, hiv]; rfl
  have hhi : hiEnd box q = iv.hi := by rw [hiEnd, hiv]; rfl
  apply Corner.endsDominate_of_monotone_or_antitone
  intro g hg
  rw [hlo, hhi]
  simp only [pointOf_update hq]
  exact (hf q iv hiv).monotone_or_antitone (inBox_pointOf hg)

/-- Every point has a corner with a value no smaller. -/
theorem exists_corner_ge (hf : SeparatelyMonotone f box) {x : PortMap K} (hx : InBox box x) :
    ∃ corner, IsCorner box corner ∧ f x ≤ f corner := by
  have hends : ∀ q ∈ box.keys.toFinset,
      Corner.EndsDominate (loEnd box) (hiEnd box) (fun g => f (pointOf box g)) q := fun q hq =>
    endsDominate_pointOf (Std.ExtTreeMap.mem_keys.mp (List.mem_toFinset.mp hq)) hf
  obtain ⟨y, -, hy, -, hle⟩ :=
    Corner.exists_ends_ge box.keys.toFinset hends _ (coordinates_mem_Icc hx)
  refine ⟨pointOf box y, isCorner_pointOf fun q hq => ?_, ?_⟩
  · exact hy q (List.mem_toFinset.mpr (Std.ExtTreeMap.mem_keys.mpr hq))
  · rw [← pointOf_coordinates hx]
    exact hle

/-- The same function with the sign changed. -/
theorem SeparatelyMonotone.neg (hf : SeparatelyMonotone f box) :
    SeparatelyMonotone (fun x => -f x) box := by
  intro q iv hiv x hx
  rcases hf q iv hiv x hx with hmono | hanti | ⟨a, b, haffine⟩
  · exact Or.inr (Or.inl hmono.neg)
  · exact Or.inl hanti.neg
  · refine Or.inr (Or.inr ⟨-a, -b, fun t ht => ?_⟩)
    show -f (x.insert q t) = -a * t + -b
    rw [haffine t ht]
    ring

/-- Every point has a corner with a value no larger. -/
theorem exists_corner_le (hf : SeparatelyMonotone f box) {x : PortMap K} (hx : InBox box x) :
    ∃ corner, IsCorner box corner ∧ f corner ≤ f x := by
  obtain ⟨corner, hcorner, hle⟩ := exists_corner_ge hf.neg hx
  exact ⟨corner, hcorner, neg_le_neg_iff.mp hle⟩

end Extrema

/-! ### The sweep -/

section Sweep

variable {box : PortMap (Interval K)} {ε : Type}

theorem mapM_ok {α β : Type} {eval : α → Except ε β} {f : α → β} {l : List α}
    (h : ∀ x ∈ l, eval x = .ok (f x)) : l.mapM eval = .ok (l.map f) := by
  induction l with
  | nil => rfl
  | cons x l ih =>
      rw [List.mapM_cons, h x List.mem_cons_self, ih fun y hy => h y (List.mem_cons_of_mem _ hy)]
      rfl

/-- A sweep whose corners all evaluate is the hull of the values. -/
theorem cornerSweep_ok {eval : PortMap K → Except ε (PortMap K)} {f : PortMap K → PortMap K}
    (heval : ∀ corner, IsCorner box corner → eval corner = .ok (f corner)) :
    cornerSweep box eval = .ok (hullFromResults ((enumerateCorners box).map f)) := by
  rw [cornerSweep_eq, mapM_ok fun corner hcorner => heval corner (mem_enumerateCorners.mp hcorner)]
  rfl

/-- **The corner sweep encloses the range**: at a port that every evaluation
reports, the interval contains the value at every point of the box, and both its
ends are values at corners. -/
theorem cornerSweep_encloses [IsStrictOrderedRing K]
    {eval : PortMap K → Except ε (PortMap K)} {f : PortMap K → PortMap K}
    (hproper : ProperMap box)
    (heval : ∀ x, InBox box x → eval x = .ok (f x)) :
    ∃ hull, cornerSweep box eval = .ok hull ∧ ∀ p,
      (∀ x, InBox box x → p ∈ f x) → SeparatelyMonotone (fun x => valueAt (f x) p) box →
      ∃ iv, hull[p]? = some iv ∧
        (∀ x, InBox box x → iv.contains (valueAt (f x) p)) ∧
        (∃ corner, IsCorner box corner ∧ valueAt (f corner) p = iv.lo) ∧
        ∃ corner, IsCorner box corner ∧ valueAt (f corner) p = iv.hi := by
  have hcorners : ∀ corner, IsCorner box corner → eval corner = .ok (f corner) :=
    fun corner hcorner => heval corner (inBox_of_isCorner hproper hcorner)
  refine ⟨_, cornerSweep_ok hcorners, fun p hp hmono => ?_⟩
  obtain ⟨corner₀, hcorner₀⟩ := List.exists_mem_of_ne_nil _ (enumerateCorners_ne_nil box)
  have hin₀ := inBox_of_isCorner hproper (mem_enumerateCorners.mp hcorner₀)
  obtain ⟨iv, hiv⟩ := OrdMap.mem_iff_exists.mp
    (mem_hullFromResults.mpr ⟨f corner₀, List.mem_map_of_mem hcorner₀, hp _ hin₀⟩)
  have hhull := isHullOf_hullFromResults hiv
  -- a value of the hull is the value at a corner, and conversely
  have hvalue : ∀ v, (∃ r ∈ (enumerateCorners box).map f, r[p]? = some v) →
      ∃ corner, IsCorner box corner ∧ valueAt (f corner) p = v := by
    rintro v ⟨r, hr, hv⟩
    obtain ⟨corner, hcorner, rfl⟩ := List.mem_map.mp hr
    exact ⟨corner, mem_enumerateCorners.mp hcorner, by rw [valueAt, hv]; rfl⟩
  have hcontains : ∀ corner, IsCorner box corner → iv.contains (valueAt (f corner) p) := by
    intro corner hcorner
    obtain ⟨v, hv⟩ := OrdMap.mem_iff_exists.mp (hp corner (inBox_of_isCorner hproper hcorner))
    have hmem : f corner ∈ (enumerateCorners box).map f :=
      List.mem_map_of_mem (mem_enumerateCorners.mpr hcorner)
    rw [valueAt, hv]
    exact hhull.contains v ⟨f corner, hmem, hv⟩
  refine ⟨iv, hiv, fun x hx => ?_, hvalue _ hhull.lo_mem, hvalue _ hhull.hi_mem⟩
  obtain ⟨below, hbelow, hle⟩ := exists_corner_le hmono hx
  obtain ⟨above, habove, hge⟩ := exists_corner_ge hmono hx
  exact ⟨(hcontains below hbelow).1.trans hle, hge.trans (hcontains above habove).2⟩

end Sweep

section Product

/-- A product of two ports; its direction in one depends on the sign of the
other. -/
def productOf (x : PortMap ℚ) : PortMap ℚ :=
  OrdMap.ofFn ["w"] fun _ => valueAt x "u" * valueAt x "v"

def productBox : PortMap (Interval ℚ) :=
  OrdMap.ofFn ["u", "v"] fun q => if q = "u" then ⟨-1, 2⟩ else ⟨-3, 1⟩

theorem valueAt_insert (x : PortMap ℚ) (q p : Port) (t : ℚ) :
    valueAt (x.insert q t) p = if q = p then t else valueAt x p := by
  rw [valueAt, OrdMap.getElem?_insert_eq]
  split_ifs <;> rfl

theorem valueAt_productOf (x : PortMap ℚ) :
    valueAt (productOf x) "w" = valueAt x "u" * valueAt x "v" := by
  rw [valueAt, productOf, OrdMap.getElem?_ofFn, if_pos List.mem_cons_self]
  rfl

theorem separatelyMonotone_product :
    SeparatelyMonotone (fun x => valueAt (productOf x) "w") productBox := by
  intro q iv hiv x _
  simp only [valueAt_productOf, valueAt_insert]
  have hq : q = "u" ∨ q = "v" := by
    simpa using (OrdMap.getElem?_ofFn_eq_some.mp hiv).1
  rcases hq with rfl | rfl
  · exact Or.inr (Or.inr ⟨valueAt x "v", 0, fun t _ => by simp [mul_comm]⟩)
  · exact Or.inr (Or.inr ⟨valueAt x "u", 0, fun t _ => by simp⟩)

theorem cornerSweep_encloses_product :
    ∃ hull, cornerSweep productBox
        (fun x => (.ok (productOf x) : Except Unit (PortMap ℚ))) = .ok hull ∧
      ∃ iv, hull["w"]? = some iv ∧
        (∀ x, InBox productBox x → iv.contains (valueAt (productOf x) "w")) ∧
        (∃ corner, IsCorner productBox corner ∧ valueAt (productOf corner) "w" = iv.lo) ∧
        ∃ corner, IsCorner productBox corner ∧ valueAt (productOf corner) "w" = iv.hi := by
  have hproper : ProperMap productBox := by
    intro q iv hiv
    obtain ⟨-, rfl⟩ := OrdMap.getElem?_ofFn_eq_some.mp hiv
    show (if q = "u" then (⟨-1, 2⟩ : Interval ℚ) else ⟨-3, 1⟩).lo ≤ _
    split_ifs <;> norm_num
  obtain ⟨hull, hhull, hports⟩ := cornerSweep_encloses hproper fun x _ =>
    (rfl : (.ok (productOf x) : Except Unit (PortMap ℚ)) = .ok (productOf x))
  refine ⟨hull, hhull, hports "w" (fun x _ => ?_) separatelyMonotone_product⟩
  exact OrdMap.mem_iff_exists.mpr ⟨_, OrdMap.getElem?_ofFn_eq_some.mpr ⟨List.mem_cons_self, rfl⟩⟩

end Product

end Feldspar

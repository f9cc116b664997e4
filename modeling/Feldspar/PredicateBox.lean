/-
Feldspar/PredicateBox.lean

What `predicate_to_box` makes of a list of predicates.

A box is closed, so a strict predicate bounds its port by the same end as its
non-strict one: `Cmp.close` is the comparator that the box keeps.  The box reads
a predicate off its canonical difference, which is affine in one port
(`linearSingleVar_affine`); `Bounds.Admits` is the invariant of the fold, and
`tighten_admits` what one predicate adds to it.

A predicate that is linear in one port may still be refused: the canonical
difference of `x + 1` and `5` has three operands.  `Recognized` is what is not
refused, read off the canonical forms of the two sides.
-/
import Feldspar.Law

set_option linter.unusedSectionVars false

namespace Feldspar

/-! ### Closed predicates -/

/-- The comparator with its end. -/
def Cmp.close : Cmp → Cmp
  | .lt | .le => .le
  | .gt | .ge => .ge

theorem Cmp.Holds.close {cmp : Cmp} {a b : ℝ} (h : cmp.Holds a b) : cmp.close.Holds a b := by
  cases cmp with
  | lt => exact le_of_lt h
  | le => exact h
  | gt => exact le_of_lt h
  | ge => exact h

/-- A comparison of `c * x + k` with 0 is one of `x`, turned around when `c` is
negative. -/
theorem Cmp.close_affine (cmp : Cmp) {c k : ℚ} (hc : c ≠ 0) (x : ℝ) :
    (if c < 0 then cmp.flip else cmp).close.Holds x ((-k / c : ℚ) : ℝ)
      ↔ cmp.close.Holds (c * x + k) 0 := by
  have hbound : ((-k / c : ℚ) : ℝ) = -k / c := by push_cast; rfl
  rw [hbound]
  rcases lt_or_gt_of_ne hc with hneg | hpos
  · have hneg' : (c : ℝ) < 0 := Rat.cast_lt_zero.mpr hneg
    have hle : (-k / c : ℝ) ≤ x ↔ (c * x + k : ℝ) ≤ 0 := by
      rw [div_le_iff_of_neg hneg']
      constructor <;> intro h <;> linarith
    have hge : x ≤ (-k / c : ℝ) ↔ 0 ≤ (c * x + k : ℝ) := by
      rw [le_div_iff_of_neg hneg']
      constructor <;> intro h <;> linarith
    rw [if_pos hneg]
    cases cmp with
    | lt => exact hle
    | le => exact hle
    | gt => exact hge
    | ge => exact hge
  · have hpos' : (0 : ℝ) < c := Rat.cast_pos.mpr hpos
    have hle : x ≤ (-k / c : ℝ) ↔ (c * x + k : ℝ) ≤ 0 := by
      rw [le_div_iff₀ hpos']
      constructor <;> intro h <;> linarith
    have hge : (-k / c : ℝ) ≤ x ↔ 0 ≤ (c * x + k : ℝ) := by
      rw [div_le_iff₀ hpos']
      constructor <;> intro h <;> linarith
    rw [if_neg hpos.not_gt]
    cases cmp with
    | lt => exact hle
    | le => exact hle
    | gt => exact hge
    | ge => exact hge

namespace Predicate

/-- Both sides evaluate. -/
def Evaluates (inputs : PortMap ℝ) (p : Predicate) : Prop :=
  p.lhs.Evaluates inputs ∧ p.rhs.Evaluates inputs

/-- The predicate with the end of its comparator. -/
def close (p : Predicate) : Predicate := { p with cmp := p.cmp.close }

/-- The closed predicate, as its canonical difference has it. -/
def ClosedHolds (inputs : PortMap ℝ) (p : Predicate) : Prop :=
  ∃ d, (difference p.lhs p.rhs).eval inputs = .ok d ∧ p.cmp.close.Holds d 0

end Predicate

theorem Predicate.closedHolds_iff {inputs : PortMap ℝ} {p : Predicate} (h : p.Evaluates inputs) :
    p.ClosedHolds inputs ↔ p.close.Holds inputs := by
  have hd := eval_difference h.1.eval h.2.eval
  have hcmp : ∀ {cmp : Cmp} {a b : ℝ}, cmp.close.Holds (a - b) 0 ↔ cmp.close.Holds a b := by
    intro cmp a b
    cases cmp with
    | lt => exact sub_nonpos
    | le => exact sub_nonpos
    | gt => exact sub_nonneg
    | ge => exact sub_nonneg
  constructor
  · rintro ⟨d, hd', hholds⟩
    obtain rfl := Except.ok.inj (hd.symm.trans hd')
    exact ⟨h.1, h.2, hcmp.mp hholds⟩
  · rintro ⟨-, -, hholds⟩
    exact ⟨_, hd, hcmp.mpr hholds⟩

/-! ### Affine differences -/

namespace Expr

/-- `e` is `c * port + k`, with `c` not 0. -/
def IsAffine (e : Expr) (c : ℚ) (port : Port) (k : ℚ) : Prop :=
  c ≠ 0 ∧ ∀ (inputs : PortMap ℝ) (d : ℝ),
    e.eval inputs = .ok d ↔ ∃ x, inputs[port]? = some x ∧ d = c * x + k

theorem eval_asConstant {e : Expr} {k : ℚ} (h : e.asConstant = some k) (inputs : PortMap ℝ) :
    e.eval inputs = .ok (k : ℝ) := by
  induction e using ind generalizing k with
  | lit x =>
      obtain rfl := Option.some.inj h
      rfl
  | neg e ih =>
      obtain ⟨k, hk, rfl⟩ := Option.map_eq_some_iff.mp h
      rw [eval_neg_eq_ok]
      exact ⟨k, ih hk, by push_cast; rfl⟩
  | _ => cases h

theorem linearTerm_affine {e : Expr} {c : ℚ} {port : Port} (h : e.linearTerm = some (c, port)) :
    e.IsAffine c port 0 := by
  unfold linearTerm at h
  split at h
  · cases h
    refine ⟨one_ne_zero, fun inputs d => ?_⟩
    rw [eval_var]
    simp
  · cases h
    refine ⟨by norm_num, fun inputs d => ?_⟩
    rw [eval_neg_eq_ok]
    constructor
    · rintro ⟨w, hw, rfl⟩
      exact ⟨w, (eval_var _).mp hw, by simp⟩
    · rintro ⟨x, hx, rfl⟩
      exact ⟨x, (eval_var _).mpr hx, by simp⟩
  · split_ifs at h with hc
    cases h
    refine ⟨hc, fun inputs d => ?_⟩
    rw [eval_mul_pair]
    constructor
    · rintro ⟨u, v, hu, hv, rfl⟩
      obtain rfl := Except.ok.inj hu
      exact ⟨v, (eval_var _).mp hv, by simp⟩
    · rintro ⟨x, hx, rfl⟩
      exact ⟨c, x, rfl, (eval_var _).mpr hx, by simp⟩
  · split_ifs at h with hc
    cases h
    refine ⟨hc, fun inputs d => ?_⟩
    rw [eval_mul_pair]
    constructor
    · rintro ⟨u, v, hu, hv, rfl⟩
      obtain rfl := Except.ok.inj hv
      exact ⟨u, (eval_var _).mp hu, by rw [Rat.cast_zero, add_zero, mul_comm]⟩
    · rintro ⟨x, hx, rfl⟩
      exact ⟨x, c, (eval_var _).mpr hx, rfl, by rw [Rat.cast_zero, add_zero, mul_comm]⟩
  · cases h

theorem IsAffine.add_left {a b : Expr} {c k k₀ : ℚ} {port : Port} (h : b.IsAffine c port k₀)
    (ha : a.asConstant = some k) : (add [a, b]).IsAffine c port (k₀ + k) := by
  refine ⟨h.1, fun inputs d => ?_⟩
  rw [eval_add_pair]
  constructor
  · rintro ⟨u, v, hu, hv, rfl⟩
    obtain ⟨x, hx, rfl⟩ := (h.2 inputs v).mp hv
    obtain rfl := Except.ok.inj (hu.symm.trans (eval_asConstant ha inputs))
    exact ⟨x, hx, by push_cast; ring⟩
  · rintro ⟨x, hx, rfl⟩
    exact ⟨k, _, eval_asConstant ha inputs, (h.2 inputs _).mpr ⟨x, hx, rfl⟩, by push_cast; ring⟩

theorem IsAffine.add_right {a b : Expr} {c k k₀ : ℚ} {port : Port} (h : a.IsAffine c port k₀)
    (hb : b.asConstant = some k) : (add [a, b]).IsAffine c port (k₀ + k) := by
  refine ⟨h.1, fun inputs d => ?_⟩
  rw [eval_add_pair]
  constructor
  · rintro ⟨u, v, hu, hv, rfl⟩
    obtain ⟨x, hx, rfl⟩ := (h.2 inputs u).mp hu
    obtain rfl := Except.ok.inj (hv.symm.trans (eval_asConstant hb inputs))
    exact ⟨x, hx, by push_cast; ring⟩
  · rintro ⟨x, hx, rfl⟩
    exact ⟨_, k, (h.2 inputs _).mpr ⟨x, hx, rfl⟩, eval_asConstant hb inputs, by push_cast; ring⟩

/-- What `linear_single_var` recognizes is affine. -/
theorem linearSingleVar_affine {e : Expr} {c k : ℚ} {port : Port}
    (h : e.linearSingleVar = some (c, port, k)) : e.IsAffine c port k := by
  fun_induction linearSingleVar e generalizing c port k with
  | case1 a b k' ha ih =>
      obtain ⟨⟨c', port', k₀⟩, hb, heq⟩ := Option.map_eq_some_iff.mp h
      cases heq
      exact (ih hb).add_left ha
  | case2 a b ha k' hb ih =>
      obtain ⟨⟨c', port', k₀⟩, ha', heq⟩ := Option.map_eq_some_iff.mp h
      cases heq
      exact (ih ha').add_right hb
  | case3 => cases h
  | case4 e hne =>
      obtain ⟨⟨c', port'⟩, hterm, heq⟩ := Option.map_eq_some_iff.mp h
      cases heq
      exact linearTerm_affine hterm

end Expr

/-! ### The bounds of the fold -/

section Bounds

/-- Every port of `ends` has a value, on the side `R` of its end. -/
def AdmitsSide (R : ℝ → ℝ → Prop) (ends : PortMap ℝ) (inputs : PortMap ℝ) : Prop :=
  ∀ (port : Port) (bound : ℝ), ends[port]? = some bound →
    ∃ v, inputs[port]? = some v ∧ R v bound

/-- One more end; `f` keeps the narrower of two. -/
theorem admitsSide_insert {R : ℝ → ℝ → Prop} {f : ℝ → ℝ → ℝ}
    (hf : ∀ v a b, R v (f a b) ↔ R v a ∧ R v b) {ends inputs : PortMap ℝ} {port : Port}
    {bound : ℝ} :
    AdmitsSide R (ends.insert port (f (ends[port]?.getD bound) bound)) inputs ↔
      AdmitsSide R ends inputs ∧ ∃ v, inputs[port]? = some v ∧ R v bound := by
  constructor
  · intro h
    obtain ⟨v, hv, hR⟩ := h port _ (by rw [OrdMap.getElem?_insert_eq, if_pos rfl])
    refine ⟨fun q a hq => ?_, v, hv, ((hf v _ _).mp hR).2⟩
    by_cases hport : port = q
    · subst hport
      rw [hq] at hR
      exact ⟨v, hv, ((hf v _ _).mp hR).1⟩
    · exact h q a (by rw [OrdMap.getElem?_insert_eq, if_neg hport, hq])
  · rintro ⟨h, v, hv, hR⟩ q a hq
    rw [OrdMap.getElem?_insert_eq] at hq
    split_ifs at hq with hport
    · subst hport
      obtain rfl := Option.some.inj hq
      refine ⟨v, hv, (hf v _ _).mpr ⟨?_, hR⟩⟩
      rcases hend : ends[port]? with - | a
      · exact hR
      · obtain ⟨w, hw, hRw⟩ := h port a hend
        obtain rfl := Option.some.inj (hv.symm.trans hw)
        exact hRw
    · exact h q a hq

/-- The valuation is within the bounds. -/
def Bounds.Admits (b : Bounds ℝ) (inputs : PortMap ℝ) : Prop :=
  AdmitsSide (fun v lo => lo ≤ v) b.lower inputs ∧ AdmitsSide (fun v hi => v ≤ hi) b.upper inputs

theorem Bounds.tighten_admits {b : Bounds ℝ} {cmp : Cmp} {port : Port} {bound : ℝ}
    {inputs : PortMap ℝ} : (b.tighten cmp port bound).Admits inputs ↔
      b.Admits inputs ∧ ∃ v, inputs[port]? = some v ∧ cmp.close.Holds v bound := by
  have hupper : AdmitsSide (fun v hi => v ≤ hi)
      (b.upper.insert port (min (b.upper[port]?.getD bound) bound)) inputs ↔
        AdmitsSide (fun v hi => v ≤ hi) b.upper inputs ∧ ∃ v, inputs[port]? = some v ∧ v ≤ bound :=
    admitsSide_insert (R := fun v hi => v ≤ hi) (f := min) fun v a b => le_min_iff
  have hlower : AdmitsSide (fun v lo => lo ≤ v)
      (b.lower.insert port (max (b.lower[port]?.getD bound) bound)) inputs ↔
        AdmitsSide (fun v lo => lo ≤ v) b.lower inputs ∧ ∃ v, inputs[port]? = some v ∧ bound ≤ v :=
    admitsSide_insert (R := fun v lo => lo ≤ v) (f := max) fun v a b => max_le_iff
  cases cmp with
  | lt => exact (and_congr_right fun _ => hupper).trans and_assoc.symm
  | le => exact (and_congr_right fun _ => hupper).trans and_assoc.symm
  | gt => exact (and_congr_left fun _ => hlower).trans and_right_comm
  | ge => exact (and_congr_left fun _ => hlower).trans and_right_comm

variable {formatF64 : F64 ℚ → String} {predicates : List Predicate} {inputs : PortMap ℝ}

/-- One predicate's bound adds the closed predicate. -/
theorem addPredicate_admits {b b' : Bounds ℝ} {p : Predicate}
    (h : addPredicate formatF64 b p = .ok b') :
    b'.Admits inputs ↔ b.Admits inputs ∧ p.ClosedHolds inputs := by
  unfold addPredicate at h
  split at h
  · cases h
  · rename_i c port k hlinear
    obtain ⟨hc, heval⟩ := Expr.linearSingleVar_affine hlinear
    obtain rfl := Except.ok.inj h
    rw [Bounds.tighten_admits]
    refine and_congr_right fun _ => ?_
    constructor
    · rintro ⟨x, hx, hholds⟩
      exact ⟨_, (heval inputs _).mpr ⟨x, hx, rfl⟩, (p.cmp.close_affine hc x).mp hholds⟩
    · rintro ⟨d, hd, hholds⟩
      obtain ⟨x, hx, rfl⟩ := (heval inputs d).mp hd
      exact ⟨x, hx, (p.cmp.close_affine hc x).mpr hholds⟩

theorem foldlM_addPredicate_admits : ∀ {predicates : List Predicate} {b b' : Bounds ℝ},
    predicates.foldlM (addPredicate formatF64) b = .ok b' →
    (b'.Admits inputs ↔ b.Admits inputs ∧ ∀ p ∈ predicates, p.ClosedHolds inputs)
  | [], b, b', h => by
      obtain rfl := Except.ok.inj h
      simp
  | p :: predicates, b, b', h => by
      rw [List.foldlM_cons] at h
      obtain ⟨b₁, hb₁, h⟩ := Fallible.bind_eq_ok.mp h
      rw [foldlM_addPredicate_admits h, addPredicate_admits hb₁, List.forall_mem_cons, and_assoc]

/-- A point of the box: every port of the box has a value in its interval. -/
def Within (box : PortMap (Interval ℝ)) (inputs : PortMap ℝ) : Prop :=
  ∀ (port : Port) (iv : Interval ℝ), box[port]? = some iv →
    ∃ v, inputs[port]? = some v ∧ iv.contains v

/-- The bounds of a declared box. -/
def Bounds.ofBox (declaredBox : PortMap (Interval ℝ)) : Bounds ℝ :=
  ⟨declaredBox.map fun _ iv => iv.lo, declaredBox.map fun _ iv => iv.hi⟩

theorem Bounds.ofBox_admits {declaredBox : PortMap (Interval ℝ)} :
    (Bounds.ofBox declaredBox).Admits inputs ↔ Within declaredBox inputs := by
  have hlower : ∀ (port : Port), (Bounds.ofBox declaredBox).lower[port]?
      = declaredBox[port]?.map Interval.lo := fun port => Std.ExtTreeMap.getElem?_map
  have hupper : ∀ (port : Port), (Bounds.ofBox declaredBox).upper[port]?
      = declaredBox[port]?.map Interval.hi := fun port => Std.ExtTreeMap.getElem?_map
  constructor
  · rintro ⟨hlo, hhi⟩ port iv hiv
    obtain ⟨v, hv, hle⟩ := hlo port iv.lo (by rw [hlower, hiv]; rfl)
    obtain ⟨w, hw, hle'⟩ := hhi port iv.hi (by rw [hupper, hiv]; rfl)
    obtain rfl := Option.some.inj (hv.symm.trans hw)
    exact ⟨v, hv, hle, hle'⟩
  · intro h
    constructor
    · intro port bound hbound
      rw [hlower] at hbound
      obtain ⟨iv, hiv, rfl⟩ := Option.map_eq_some_iff.mp hbound
      obtain ⟨v, hv, hcontains⟩ := h port iv hiv
      exact ⟨v, hv, hcontains.1⟩
    · intro port bound hbound
      rw [hupper] at hbound
      obtain ⟨iv, hiv, rfl⟩ := Option.map_eq_some_iff.mp hbound
      obtain ⟨v, hv, hcontains⟩ := h port iv hiv
      exact ⟨v, hv, hcontains.2⟩

/-- The box of the ports gone through. -/
structure BoxInvariant (b : Bounds ℝ) (done : List Port) (box : PortMap (Interval ℝ)) : Prop where
  bounded : ∀ port ∈ done, ∃ lo hi, b.lower[port]? = some lo ∧ b.upper[port]? = some hi ∧ lo ≤ hi
  lookup : ∀ (port : Port) (iv : Interval ℝ), box[port]? = some iv ↔
    port ∈ done ∧ b.lower[port]? = some iv.lo ∧ b.upper[port]? = some iv.hi

/-- The body of the loop over the ports. -/
theorem boxOf_invariant {b : Bounds ℝ} {box : PortMap (Interval ℝ)} (h : boxOf b = .ok box) :
    BoxInvariant b (b.lower ∪ b.upper).keys box := by
  refine Fallible.foldlM_invariant (I := BoxInvariant b) ?_ ?_ h
  · intro done port box₁ box₂ hinv hstep
    split at hstep
    · rename_i lo hi hlo hhi
      split_ifs at hstep with hlt
      obtain rfl := Except.ok.inj hstep
      constructor
      · intro q hq
        rcases List.mem_append.mp hq with hq | hq
        · exact hinv.bounded q hq
        · obtain rfl := List.mem_singleton.mp hq
          exact ⟨lo, hi, hlo, hhi, not_lt.mp hlt⟩
      · intro q iv
        rw [OrdMap.getElem?_insert_eq, List.mem_append, List.mem_singleton]
        split_ifs with hport
        · subst hport
          rw [hlo, hhi]
          constructor
          · intro heq
            obtain rfl := Option.some.inj heq
            exact ⟨Or.inr rfl, rfl, rfl⟩
          · rintro ⟨-, heqlo, heqhi⟩
            obtain rfl := Option.some.inj heqlo
            obtain rfl := Option.some.inj heqhi
            rfl
        · rw [hinv.lookup]
          refine and_congr_left fun _ => ?_
          exact ⟨Or.inl, fun h => h.resolve_right (Ne.symm hport)⟩
    · cases hstep
  · constructor
    · exact fun port hport => absurd hport List.not_mem_nil
    · intro port iv
      simp

theorem mem_keys_union {b : Bounds ℝ} {port : Port} :
    port ∈ (b.lower ∪ b.upper).keys ↔ port ∈ b.lower ∨ port ∈ b.upper := by
  rw [Std.ExtTreeMap.mem_keys, Std.ExtTreeMap.mem_union_iff]

/-- The box is the bounds. -/
theorem boxOf_within {b : Bounds ℝ} {box : PortMap (Interval ℝ)} (h : boxOf b = .ok box) :
    Within box inputs ↔ b.Admits inputs := by
  have hinv := boxOf_invariant h
  constructor
  · intro hwithin
    have hall : ∀ port ∈ (b.lower ∪ b.upper).keys, ∃ lo hi v, b.lower[port]? = some lo ∧
        b.upper[port]? = some hi ∧ inputs[port]? = some v ∧ lo ≤ v ∧ v ≤ hi := by
      intro port hport
      obtain ⟨lo, hi, hlo, hhi, -⟩ := hinv.bounded port hport
      obtain ⟨v, hv, hcontains⟩ := hwithin port ⟨lo, hi⟩
        ((hinv.lookup port ⟨lo, hi⟩).mpr ⟨hport, hlo, hhi⟩)
      exact ⟨lo, hi, v, hlo, hhi, hv, hcontains.1, hcontains.2⟩
    constructor
    · intro port bound hbound
      obtain ⟨lo, hi, v, hlo, -, hv, hle, -⟩ :=
        hall port (mem_keys_union.mpr (Or.inl (OrdMap.mem_iff_exists.mpr ⟨bound, hbound⟩)))
      obtain rfl := Option.some.inj (hlo.symm.trans hbound)
      exact ⟨v, hv, hle⟩
    · intro port bound hbound
      obtain ⟨lo, hi, v, -, hhi, hv, -, hle⟩ :=
        hall port (mem_keys_union.mpr (Or.inr (OrdMap.mem_iff_exists.mpr ⟨bound, hbound⟩)))
      obtain rfl := Option.some.inj (hhi.symm.trans hbound)
      exact ⟨v, hv, hle⟩
  · rintro ⟨hlower, hupper⟩ port iv hiv
    obtain ⟨-, hlo, hhi⟩ := (hinv.lookup port iv).mp hiv
    obtain ⟨v, hv, hle⟩ := hlower port iv.lo hlo
    obtain ⟨w, hw, hle'⟩ := hupper port iv.hi hhi
    obtain rfl := Option.some.inj (hv.symm.trans hw)
    exact ⟨v, hv, hle, hle'⟩

/-- The lower ends are a point of the box. -/
theorem exists_within {b : Bounds ℝ} {box : PortMap (Interval ℝ)} (h : boxOf b = .ok box) :
    ∃ inputs, Within box inputs := by
  have hinv := boxOf_invariant h
  refine ⟨box.map fun _ iv => iv.lo, fun port iv hiv => ?_⟩
  obtain ⟨hport, hlo, hhi⟩ := (hinv.lookup port iv).mp hiv
  obtain ⟨lo, hi, hlo', hhi', hle⟩ := hinv.bounded port hport
  rw [hlo] at hlo'
  rw [hhi] at hhi'
  refine ⟨iv.lo, by rw [Std.ExtTreeMap.getElem?_map, hiv]; rfl, le_rfl, ?_⟩
  rw [Option.some.inj hlo', Option.some.inj hhi']
  exact hle

/-- A box fails on a port whose bounds exclude each other, or on one without one of
them. -/
theorem boxOf_error {b : Bounds ℝ} {e : SymbolicError} (h : boxOf b = .error e) :
    (∃ port, e = .emptyDomain port ∧ ∃ lo hi, b.lower[port]? = some lo ∧
      b.upper[port]? = some hi ∧ hi < lo) ∨
    ∃ port, e = .unboundablePredicate ("port `" ++ port ++ "` bounded on one side only") ∧
      port ∈ (b.lower ∪ b.upper).keys ∧ (port ∉ b.lower ∨ port ∉ b.upper) := by
  obtain ⟨box, port, hport, herror⟩ := Fallible.foldlM_eq_error h
  split at herror
  · rename_i lo hi hlo hhi
    split_ifs at herror with hlt
    exact Or.inl ⟨port, (Except.error.inj herror).symm, lo, hi, hlo, hhi, hlt⟩
  · rename_i hnone
    refine Or.inr ⟨port, (Except.error.inj herror).symm, hport, ?_⟩
    by_contra hboth
    push Not at hboth
    obtain ⟨lo, hlo⟩ := OrdMap.mem_iff_exists.mp hboth.1
    obtain ⟨hi, hhi⟩ := OrdMap.mem_iff_exists.mp hboth.2
    exact hnone lo hi hlo hhi

/-- Bounds that are two-sided and do not exclude each other make a box. -/
theorem succeeds_boxOf {b : Bounds ℝ} (h : ∀ port ∈ (b.lower ∪ b.upper).keys,
    ∃ lo hi, b.lower[port]? = some lo ∧ b.upper[port]? = some hi ∧ lo ≤ hi) :
    ∃ box, boxOf b = .ok box := by
  apply Fallible.succeeds_foldlM
  intro port hport box
  obtain ⟨lo, hi, hlo, hhi, hle⟩ := h port hport
  refine ⟨box.insert port ⟨lo, hi⟩, ?_⟩
  rw [hlo, hhi]
  exact if_neg (not_lt.mpr hle)

theorem addPredicate_error {b : Bounds ℝ} {p : Predicate} {e : SymbolicError}
    (h : addPredicate formatF64 b p = .error e) :
    e = .unboundablePredicate (p.canonicalString formatF64) := by
  unfold addPredicate at h
  split at h
  · exact (Except.error.inj h).symm
  · cases h

/-- The three ways in which `predicate_to_box` fails. -/
theorem predicateToBox_error {declaredBox : PortMap (Interval ℝ)} {tags : TagSet}
    {e : SymbolicError} (h : predicateToBox formatF64 predicates declaredBox tags = .error e) :
    (∃ text, e = .unboundablePredicate text) ∨
      ∃ port, e = .emptyDomain port ∧
        ∀ inputs, Within declaredBox inputs → ¬ ∀ p ∈ predicates, p.ClosedHolds inputs := by
  rcases Fallible.bind_eq_error.mp h with hfold | ⟨b, hfold, h⟩
  · obtain ⟨b, p, -, hp⟩ := Fallible.foldlM_eq_error hfold
    exact Or.inl ⟨_, addPredicate_error hp⟩
  rcases Fallible.bind_eq_error.mp h with hbox | ⟨box, -, h⟩
  · rcases boxOf_error hbox with ⟨port, rfl, lo, hi, hlo, hhi, hlt⟩ | ⟨port, rfl, -⟩
    · refine Or.inr ⟨port, rfl, fun inputs hwithin hall => ?_⟩
      -- the ends of an empty port admit no value
      have hadmits := (foldlM_addPredicate_admits hfold).mpr
        ⟨Bounds.ofBox_admits.mpr hwithin, hall⟩
      obtain ⟨v, hv, hle⟩ := hadmits.1 port lo hlo
      obtain ⟨w, hw, hle'⟩ := hadmits.2 port hi hhi
      obtain rfl := Option.some.inj (hv.symm.trans hw)
      exact absurd (hle.trans hle') (not_le.mpr hlt)
    · exact Or.inl ⟨_, rfl⟩
  · cases h

/-- A box that is derived. -/
theorem predicateToBox_ok {declaredBox : PortMap (Interval ℝ)} {tags : TagSet} {domain : Domain ℝ}
    (h : predicateToBox formatF64 predicates declaredBox tags = .ok domain) :
    domain.tags = tags ∧ (∃ inputs, Within domain.portBox inputs) ∧
      ∀ inputs, Within domain.portBox inputs ↔
        Within declaredBox inputs ∧ ∀ p ∈ predicates, p.ClosedHolds inputs := by
  obtain ⟨b, hfold, h⟩ := Fallible.bind_eq_ok.mp h
  obtain ⟨box, hbox, h⟩ := Fallible.bind_eq_ok.mp h
  obtain rfl := Except.ok.inj h
  refine ⟨rfl, exists_within hbox, fun inputs => ?_⟩
  rw [boxOf_within hbox, foldlM_addPredicate_admits hfold]
  exact and_congr_left fun _ => Bounds.ofBox_admits

end Bounds

/-! ### The derived box -/

section DerivedBox

variable (formatF64 : F64 ℚ → String) (predicates : List Predicate)
variable (declaredBox : PortMap (Interval ℝ)) (tags : TagSet)

/-- **The derived box** is the declared box with the closed predicates.  Where these
leave no point there is no box, or one at whose points some side has no value; and a
law's domain is the relation's own one, or derived from it. -/
theorem predicateToBox_exact :
    (∀ domain, predicateToBox formatF64 predicates declaredBox tags = .ok domain →
      domain.tags = tags ∧ ∀ inputs, (∀ p ∈ predicates, p.Evaluates inputs) →
        (Within domain.portBox inputs ↔
          Within declaredBox inputs ∧ ∀ p ∈ predicates, p.close.Holds inputs)) ∧
    ((∀ inputs, ¬ (Within declaredBox inputs ∧ ∀ p ∈ predicates, p.close.Holds inputs)) →
      (∃ port, predicateToBox formatF64 predicates declaredBox tags = .error (.emptyDomain port)) ∨
      (∃ text, predicateToBox formatF64 predicates declaredBox tags
        = .error (.unboundablePredicate text)) ∨
      ∃ domain, predicateToBox formatF64 predicates declaredBox tags = .ok domain ∧
        (∃ inputs, Within domain.portBox inputs) ∧
        ∀ inputs, Within domain.portBox inputs → ∃ p ∈ predicates, ¬ p.Evaluates inputs) ∧
    (∀ port, predicateToBox formatF64 predicates declaredBox tags = .error (.emptyDomain port) →
      ∀ inputs, ¬ (Within declaredBox inputs ∧ ∀ p ∈ predicates, p.close.Holds inputs)) ∧
    ∀ (Env : Type) (rel : Relation) (lhs rhs : Expr) (branches : OrdMap.Map String Branch),
      ∀ d ∈ (law formatF64 rel lhs rhs predicates branches declaredBox :
          List (Direction Env) × _).1,
        (predicates = [] → d.info.domain.portBox = rel.domain.coerce.portBox ∧
          ∀ own, rel.domain = .domain own → d.info.domain = own) ∧
        (predicates ≠ [] → ∀ inputs, (∀ p ∈ predicates, p.Evaluates inputs) →
          (Within d.info.domain.portBox inputs ↔
            Within (rel.domain.coerce.portBox ∪ declaredBox) inputs ∧
              ∀ p ∈ predicates, p.close.Holds inputs)) := by
  have hclosed : ∀ {inputs : PortMap ℝ}, (∀ p ∈ predicates, p.Evaluates inputs) →
      ((∀ p ∈ predicates, p.ClosedHolds inputs) ↔ ∀ p ∈ predicates, p.close.Holds inputs) :=
    fun hev => forall₂_congr fun p hp => Predicate.closedHolds_iff (hev p hp)
  refine ⟨?_, ?_, ?_, ?_⟩
  · intro domain h
    obtain ⟨htags, -, hwithin⟩ := predicateToBox_ok h
    refine ⟨htags, fun inputs hev => ?_⟩
    rw [hwithin inputs, hclosed hev]
  · intro hnone
    rcases h : predicateToBox formatF64 predicates declaredBox tags with e | domain
    · rcases predicateToBox_error h with ⟨text, rfl⟩ | ⟨port, rfl, -⟩
      · exact Or.inr (Or.inl ⟨text, rfl⟩)
      · exact Or.inl ⟨port, rfl⟩
    · obtain ⟨-, hpoint, hwithin⟩ := predicateToBox_ok h
      refine Or.inr (Or.inr ⟨domain, rfl, hpoint, fun inputs hinputs => ?_⟩)
      -- where all sides have a value, the point of the box satisfies the predicates
      by_contra hev
      push Not at hev
      obtain ⟨hdeclared, hall⟩ := (hwithin inputs).mp hinputs
      exact hnone inputs ⟨hdeclared, (hclosed hev).mp hall⟩
  · rintro port h inputs ⟨hdeclared, hholds⟩
    have hev : ∀ p ∈ predicates, p.Evaluates inputs :=
      fun p hp => ⟨(hholds p hp).1, (hholds p hp).2.1⟩
    rcases predicateToBox_error h with ⟨text, heq⟩ | ⟨port, -, hempty⟩
    · cases heq
    · exact hempty inputs hdeclared ((hclosed hev).mpr hholds)
  · intro Env rel lhs rhs branches d hd
    obtain ⟨target, -, hderive⟩ := mem_deriveAll hd
    obtain ⟨-, inv, -, -, -, hdomain⟩ := derive_ok hderive
    refine ⟨fun hnil => ?_, fun hne inputs hev => ?_⟩
    · rw [lawDomain, if_pos hnil] at hdomain
      rw [← Except.ok.inj hdomain]
      exact ⟨rfl, fun own hown => by rw [hown, DomainSpec.coerce]⟩
    · rw [lawDomain, if_neg hne] at hdomain
      rw [(predicateToBox_ok hdomain).2.2 inputs, hclosed hev]

end DerivedBox

/-- The valuation with the one port `x`. -/
noncomputable def onlyX (v : ℝ) : PortMap ℝ := OrdMap.ofFn ["x"] fun _ => v

/-- `x < 5`. -/
def belowFive : Predicate := ⟨.var "x", .lt, .lit 5⟩

/-- The declared box `0 ≤ x ≤ 10`. -/
noncomputable def zeroToTen : PortMap (Interval ℝ) := OrdMap.ofFn ["x"] fun _ => ⟨0, 10⟩

theorem onlyX_lookup (v : ℝ) : (onlyX v)["x"]? = some v := by
  rw [onlyX, OrdMap.getElem?_ofFn, if_pos (List.mem_singleton_self _)]

theorem addPredicate_belowFive (b : Bounds ℝ) :
    addPredicate (fun _ => "") b belowFive = .ok (b.tighten .lt "x" 5) := by
  have hlinear : (difference belowFive.lhs belowFive.rhs).linearSingleVar = some (1, "x", -5) := by
    decide +kernel
  unfold addPredicate
  rw [hlinear]
  dsimp only
  rw [if_neg (by norm_num)]
  norm_num [belowFive]

theorem predicateToBox_belowFive :
    ∃ domain, predicateToBox (fun _ => "") [belowFive] zeroToTen ∅ = .ok domain := by
  have hport : ∀ port : Port, port ∈ zeroToTen ↔ port = "x" := by
    intro port
    simp [zeroToTen, OrdMap.mem_iff_exists, OrdMap.getElem?_ofFn]
  have hx : zeroToTen["x"]? = some ⟨0, 10⟩ := by
    rw [zeroToTen, OrdMap.getElem?_ofFn, if_pos (List.mem_singleton_self _)]
  obtain ⟨box, hbox⟩ : ∃ box, boxOf ((Bounds.ofBox zeroToTen).tighten .lt "x" 5) = .ok box := by
    apply succeeds_boxOf
    intro port hmem
    obtain rfl : port = "x" := by
      rw [← hport]
      rcases mem_keys_union.mp hmem with hmem | hmem
      · exact Std.ExtTreeMap.mem_map.mp hmem
      · rcases Std.ExtTreeMap.mem_insert.mp hmem with heq | hmem
        · exact (hport port).mpr (Std.LawfulEqOrd.eq_of_compare heq).symm
        · exact Std.ExtTreeMap.mem_map.mp hmem
    have hlo : (Bounds.ofBox zeroToTen).lower["x"]? = some 0 := by
      rw [Bounds.ofBox, Std.ExtTreeMap.getElem?_map, hx]
      rfl
    have hhi : (Bounds.ofBox zeroToTen).upper["x"]? = some 10 := by
      rw [Bounds.ofBox, Std.ExtTreeMap.getElem?_map, hx]
      rfl
    refine ⟨0, min 10 5, hlo, ?_, by norm_num⟩
    show ((Bounds.ofBox zeroToTen).upper.insert "x" _)["x"]? = _
    rw [OrdMap.getElem?_insert_eq, if_pos rfl, hhi]
    rfl
  refine ⟨⟨box, ∅⟩, ?_⟩
  apply Fallible.bind_eq_ok.mpr
  refine ⟨_, ?_, Fallible.bind_eq_ok.mpr ⟨box, hbox, rfl⟩⟩
  rw [List.foldlM_cons]
  exact Fallible.bind_eq_ok.mpr ⟨_, addPredicate_belowFive _, rfl⟩

/-- In the declared box `0 ≤ x ≤ 10`, the predicate `x < 5` gives a box that has the
point `x = 5`. -/
theorem predicateToBox_strict :
    ∃ domain, predicateToBox (fun _ => "") [belowFive] zeroToTen ∅ = .ok domain ∧
      Within domain.portBox (onlyX 5) ∧ ¬ belowFive.Holds (onlyX 5) := by
  obtain ⟨domain, hdomain⟩ := predicateToBox_belowFive
  have hx : (Expr.var "x").eval (onlyX 5) = .ok 5 := (Expr.eval_var _).mpr (onlyX_lookup 5)
  have hfive : (Expr.lit 5).eval (onlyX 5) = .ok ((5 : ℚ) : ℝ) := rfl
  have hev : belowFive.Evaluates (onlyX 5) := ⟨⟨_, hx⟩, ⟨_, hfive⟩⟩
  refine ⟨domain, hdomain, ?_, ?_⟩
  · rw [(predicateToBox_ok hdomain).2.2]
    constructor
    · intro port iv hiv
      obtain ⟨hmem, rfl⟩ := OrdMap.getElem?_ofFn_eq_some.mp hiv
      obtain rfl := List.mem_singleton.mp hmem
      exact ⟨5, onlyX_lookup 5, by norm_num [Interval.contains]⟩
    · intro p hp
      obtain rfl := List.mem_singleton.mp hp
      rw [Predicate.closedHolds_iff hev]
      refine ⟨hev.1, hev.2, ?_⟩
      show (Expr.var "x").value _ ≤ (Expr.lit 5).value _
      rw [Expr.value_of_eval hx, Expr.value_of_eval hfive]
      norm_num
  · rintro ⟨-, -, hlt⟩
    have hlt : (Expr.var "x").value (onlyX 5) < (Expr.lit 5).value (onlyX 5) := hlt
    rw [Expr.value_of_eval hx, Expr.value_of_eval hfive] at hlt
    norm_num at hlt

end Feldspar

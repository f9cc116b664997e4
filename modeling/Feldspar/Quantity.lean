/-
Feldspar/Quantity.lean

The quantity core: intervals, declared accuracies and validity domains
(`interval.rs`, `accuracy.rs`, `domain.rs`).

Numbers are those of an `Arith K`.  Over an ordered field the arithmetic is exact,
and `ℚ` is the instance that evaluates; rounded arithmetic is another instance.
An `f64` that may be a NaN or an infinity (what a solver hands back) is an
`F64 K`.  `BTreeMap<String, _>` is a `PortMap`,
iterated in key order.
-/
import Feldspar.Lib.Arith
import Feldspar.Lib.Fallible
import Feldspar.Lib.OrdMap
import Mathlib.Algebra.Order.Field.Basic
import Mathlib.Data.String.Basic
import Mathlib.Tactic.Linarith
import Std.Data.ExtTreeSet.Lemmas

set_option linter.unusedSectionVars false

namespace Feldspar

abbrev Port := String
abbrev SolverId := String

/-- `BTreeMap<String, α>`. -/
abbrev PortMap (α : Type*) := OrdMap.Map Port α

/-- `BTreeSet<String>`. -/
abbrev TagSet := Std.ExtTreeSet String compare

/-- An `f64`: a number of `K`, or a NaN or an infinity. -/
inductive F64 (K : Type*)
  | finite (x : K)
  | nonFinite
  deriving DecidableEq, Repr

/-! ### Intervals -/

inductive CoreError (K : Type*)
  | nonFiniteBound
  | invertedInterval (lo hi : K)
  deriving DecidableEq, Repr

/-- A closed interval `[lo, hi]`.  `inflate` and `hull` build the fields
directly, so `lo ≤ hi` is a predicate (`Proper`) and not a field. -/
@[ext] structure Interval (K : Type*) where
  lo : K
  hi : K
  deriving DecidableEq, Repr

variable {K : Type} [Arith K] [LinearOrder K]

namespace Interval

/-- Checked constructor. -/
def new : F64 K → F64 K → Except (CoreError K) (Interval K)
  | .nonFinite, _ => .error .nonFiniteBound
  | .finite _, .nonFinite => .error .nonFiniteBound
  | .finite lo, .finite hi => if hi < lo then .error (.invertedInterval lo hi) else .ok ⟨lo, hi⟩

/-- The degenerate interval `[x, x]`. -/
def point (x : K) : Interval K := ⟨x, x⟩

def width (iv : Interval K) : K := iv.hi - iv.lo

def halfWidth (iv : Interval K) : K := iv.width / 2

def midpoint (iv : Interval K) : K := (iv.lo + iv.hi) / 2

def contains (iv : Interval K) (x : K) : Prop := iv.lo ≤ x ∧ x ≤ iv.hi

/-- Whether `iv` sits entirely inside `outer`. -/
def isSubset (iv outer : Interval K) : Prop := outer.lo ≤ iv.lo ∧ iv.hi ≤ outer.hi

instance (iv : Interval K) (x : K) : Decidable (iv.contains x) :=
  inferInstanceAs (Decidable (_ ∧ _))

instance (iv outer : Interval K) : Decidable (iv.isSubset outer) :=
  inferInstanceAs (Decidable (_ ∧ _))

/-- The smallest interval containing both. -/
def hull (iv other : Interval K) : Interval K := ⟨min iv.lo other.lo, max iv.hi other.hi⟩

/-- What the checked constructor guarantees. -/
def Proper (iv : Interval K) : Prop := iv.lo ≤ iv.hi

instance (iv : Interval K) : Decidable iv.Proper := inferInstanceAs (Decidable (_ ≤ _))

theorem new_proper {lo hi : F64 K} {iv : Interval K} (h : new lo hi = .ok iv) : iv.Proper := by
  rcases lo with lo | - <;> rcases hi with hi | - <;> simp only [new, reduceCtorEq] at h
  split at h
  · cases h
  · cases h
    exact le_of_not_gt ‹_›

@[simp] theorem point_lo (x : K) : (point x).lo = x := rfl
@[simp] theorem point_hi (x : K) : (point x).hi = x := rfl

theorem isSubset_refl (iv : Interval K) : iv.isSubset iv := ⟨le_rfl, le_rfl⟩

theorem isSubset_trans {a b c : Interval K} (h : a.isSubset b) (h' : b.isSubset c) :
    a.isSubset c :=
  ⟨h'.1.trans h.1, h.2.trans h'.2⟩

theorem contains_of_isSubset {iv outer : Interval K} {x : K} (hx : iv.contains x)
    (h : iv.isSubset outer) : outer.contains x :=
  ⟨h.1.trans hx.1, hx.2.trans h.2⟩

theorem isSubset_hull_left (iv other : Interval K) : iv.isSubset (iv.hull other) :=
  ⟨min_le_left _ _, le_max_left _ _⟩

theorem isSubset_hull_right (iv other : Interval K) : other.isSubset (iv.hull other) :=
  ⟨min_le_right _ _, le_max_right _ _⟩

theorem halfWidth_le_of_isSubset {K : Type} [Field K] [LinearOrder K] [IsStrictOrderedRing K]
    {a b : Interval K} (h : a.isSubset b) :
    a.halfWidth ≤ b.halfWidth := by
  have h₁ := h.1
  have h₂ := h.2
  simp only [halfWidth, width]
  linarith

end Interval

/-! ### Accuracy -/

/-- A declared model-error bound `eps(v) = epsAbs + epsRel * |v|`; the
constructor asserts both fields non-negative. -/
structure Accuracy (K : Type) [Arith K] [LinearOrder K] where
  epsAbs : K
  epsRel : K
  epsAbs_nonneg : 0 ≤ epsAbs
  epsRel_nonneg : 0 ≤ epsRel
  deriving DecidableEq

namespace Accuracy

/-- The `EXACT` constant. -/
def exact : Accuracy K := ⟨0, 0, le_rfl, le_rfl⟩

/-- A constant bound. -/
def absolute (epsAbs : K) (h : 0 ≤ epsAbs) : Accuracy K := ⟨epsAbs, 0, h, le_rfl⟩

/-- The declared model error at value `v`. -/
def eps (acc : Accuracy K) (v : K) : K := acc.epsAbs + acc.epsRel * Arith.abs v

/-- The worst-case `eps` over an interval, at the endpoint of larger
absolute value. -/
def worstOver (acc : Accuracy K) (iv : Interval K) : K :=
  acc.eps (if Arith.abs iv.hi ≤ Arith.abs iv.lo then iv.lo else iv.hi)

section Exact

variable {K : Type} [Field K] [LinearOrder K] [IsStrictOrderedRing K]

theorem eps_nonneg (acc : Accuracy K) (v : K) : 0 ≤ acc.eps v :=
  add_nonneg acc.epsAbs_nonneg (mul_nonneg acc.epsRel_nonneg (abs_nonneg v))

theorem worstOver_nonneg (acc : Accuracy K) (iv : Interval K) : 0 ≤ acc.worstOver iv :=
  acc.eps_nonneg _

theorem worstOver_eq (acc : Accuracy K) (iv : Interval K) :
    acc.worstOver iv = acc.epsAbs + acc.epsRel * max |iv.lo| |iv.hi| := by
  simp only [worstOver, eps, Arith.abs_eq]
  split
  · rw [max_eq_left ‹_›]
  · rw [max_eq_right (le_of_not_ge ‹_›)]

/-- `worstOver` bounds `eps` at every point of the interval. -/
theorem eps_le_worstOver (acc : Accuracy K) {iv : Interval K} {v : K} (h : iv.contains v) :
    acc.eps v ≤ acc.worstOver iv := by
  have hv : |v| ≤ max |iv.lo| |iv.hi| := by
    rcases abs_cases v with ⟨e, -⟩ | ⟨e, -⟩ <;> rw [e]
    · exact (h.2.trans (le_abs_self _)).trans (le_max_right _ _)
    · exact ((neg_le_neg h.1).trans (neg_le_abs _)).trans (le_max_left _ _)
  have := mul_le_mul_of_nonneg_left hv acc.epsRel_nonneg
  rw [worstOver_eq, eps, Arith.abs_eq]
  linarith

/-- `worstOver` is monotone in the interval. -/
theorem worstOver_le_worstOver (acc : Accuracy K) {a b : Interval K} (ha : a.Proper)
    (h : a.isSubset b) : acc.worstOver a ≤ acc.worstOver b := by
  have hlo : b.contains a.lo := ⟨h.1, ha.trans h.2⟩
  have hhi : b.contains a.hi := ⟨h.1.trans ha, h.2⟩
  unfold worstOver
  split
  · exact acc.eps_le_worstOver hlo
  · exact acc.eps_le_worstOver hhi

end Exact

end Accuracy

/-! ### Domains -/

inductive DomainViolation (K : Type*)
  | missingInput (port : Port)
  | outOfBox (port : Port) (lo hi boxLo boxHi : K)
  | missingTag (tag : String)
  deriving DecidableEq, Repr

/-- Where a solver may be trusted: a box of per-port intervals and a set of
required regime tags. -/
structure Domain (K : Type) where
  portBox : PortMap (Interval K)
  tags : TagSet

instance {K : Type} [DecidableEq K] : DecidableEq (Domain K) := fun a b =>
  decidable_of_iff (a.portBox = b.portBox ∧ a.tags = b.tags)
    ⟨fun h => by cases a; cases b; simp_all, fun h => by simp [h]⟩

namespace Domain

/-- The required tags, in sorted order. -/
def admitsTags (d : Domain K) (tags : TagSet) : Except (DomainViolation K) Unit :=
  d.tags.toList.forM fun tag =>
    if tag ∈ tags then .ok () else .error (.missingTag tag)

/-- The box entries, in port order. -/
def admitsBox (d : Domain K) (inputs : PortMap (Interval K)) :
    Except (DomainViolation K) Unit :=
  d.portBox.toList.forM fun (port, allowed) =>
    match inputs[port]? with
    | none => .error (.missingInput port)
    | some value =>
        if value.isSubset allowed then .ok ()
        else .error (.outOfBox port value.lo value.hi allowed.lo allowed.hi)

/-- `Ok` iff every required tag is supplied and every box entry has a
supplied input inside it; the first violation is reported. -/
def admits (d : Domain K) (inputs : PortMap (Interval K)) (tags : TagSet) :
    Except (DomainViolation K) Unit := do
  d.admitsTags tags
  d.admitsBox inputs

theorem admitsTags_eq_ok {d : Domain K} {tags : TagSet} :
    d.admitsTags tags = .ok () ↔ ∀ tag ∈ d.tags, tag ∈ tags := by
  rw [admitsTags, Fallible.forM_eq_ok]
  simp only [Std.ExtTreeSet.mem_toList]
  refine forall₂_congr fun tag _ => ?_
  split <;> simp_all

theorem admitsBox_eq_ok {d : Domain K} {inputs : PortMap (Interval K)} :
    d.admitsBox inputs = .ok () ↔
      ∀ (port : Port) (allowed : Interval K), d.portBox[port]? = some allowed →
        ∃ value, inputs[port]? = some value ∧ value.isSubset allowed := by
  rw [admitsBox, Fallible.forM_eq_ok, Prod.forall]
  simp only [Std.ExtTreeMap.mem_toList_iff_getElem?_eq_some]
  refine forall₂_congr fun port allowed => imp_congr_right fun _ => ?_
  rcases inputs[port]? with - | value
  · simp
  · by_cases hs : value.isSubset allowed <;> simp [hs]

theorem admits_eq_ok {d : Domain K} {inputs : PortMap (Interval K)} {tags : TagSet} :
    d.admits inputs tags = .ok () ↔
      (∀ tag ∈ d.tags, tag ∈ tags) ∧
      ∀ (port : Port) (allowed : Interval K), d.portBox[port]? = some allowed →
        ∃ value, inputs[port]? = some value ∧ value.isSubset allowed := by
  rw [← admitsTags_eq_ok, ← admitsBox_eq_ok, admits]
  rcases d.admitsTags tags with e | ⟨⟩ <;> simp [bind, Except.bind]

end Domain

end Feldspar

/-
Feldspar/Propagation.lean

The corner sweep and the accumulation rule (`propagation.rs`), shared by the
planner's estimate and the executor's exact sweep.

`cornerSweep` takes the callback as a function into a monad `m`: the Rust
`FnMut` that may fail is `m = StateT _ (Except _)`, the planner's total
surrogate is `m = Id`.  `cornerSweep_eq` splits it into evaluating every
corner in enumeration order and hulling the results, and
`mem_enumerateCorners` says which points are corners.
-/
import Feldspar.Quantity
import Mathlib.Data.List.Induction
import Mathlib.Data.List.Sort
import Mathlib.Data.Rat.Defs

set_option linter.unusedSectionVars false

namespace Feldspar

variable {K : Type} [Arith K] [LinearOrder K]

/-! ### Corner enumeration -/

def cornerCandidates (iv : Interval K) : List K :=
  if iv.lo = iv.hi then [iv.lo] else [iv.lo, iv.hi]

/-- Lexicographic comparison of two corners by value, in port order. -/
def cornerCmp (a b : PortMap K) : Ordering :=
  ((OrdMap.vals a).zip (OrdMap.vals b)).foldr (fun v o => (compare v.1 v.2).then o) .eq

/-- Extend every corner by every candidate value of one more port. -/
def extendCorners (corners : List (PortMap K)) (e : Port × Interval K) : List (PortMap K) :=
  corners.flatMap fun corner => (cornerCandidates e.2).map fun v => corner.insert e.1 v

def enumerateCorners (box : PortMap (Interval K)) : List (PortMap K) :=
  (box.toList.foldl extendCorners [∅]).insertionSort fun a b => (cornerCmp a b).isLE

/-- `c` picks one end of every interval of the box. -/
def IsCorner (box : PortMap (Interval K)) (c : PortMap K) : Prop :=
  OrdMap.Rel (fun (x : K) iv => x = iv.lo ∨ x = iv.hi) c box

theorem mem_cornerCandidates {iv : Interval K} {x : K} :
    x ∈ cornerCandidates iv ↔ x = iv.lo ∨ x = iv.hi := by
  unfold cornerCandidates
  split
  · simp_all
  · simp

theorem mem_foldl_extendCorners :
    ∀ (l : List (Port × Interval K)), (l.map Prod.fst).Nodup → ∀ corner : PortMap K,
      corner ∈ l.foldl extendCorners [∅] ↔
        (∀ k, k ∈ corner ↔ k ∈ l.map Prod.fst) ∧
        ∀ k iv x, (k, iv) ∈ l → corner[k]? = some x → x = iv.lo ∨ x = iv.hi := by
  intro l
  induction l using List.reverseRecOn with
  | nil =>
      intro _ corner
      constructor
      · intro h
        simp only [List.foldl_nil, List.mem_singleton] at h
        subst h
        simp
      · rintro ⟨hk, -⟩
        have : corner = ∅ := by
          apply Std.ExtTreeMap.ext_getElem?
          intro k
          have hk' := hk k
          simp only [List.map_nil, List.not_mem_nil, iff_false] at hk'
          simp [Std.ExtTreeMap.getElem?_eq_none hk']
        simp [this]
  | append_singleton l e ih =>
      obtain ⟨p, iv⟩ := e
      intro hnd corner
      rw [List.map_append, List.nodup_append] at hnd
      obtain ⟨hl, -, hdisj⟩ := hnd
      have hp : p ∉ l.map Prod.fst := fun h => hdisj p h p (by simp) rfl
      rw [List.foldl_append, List.foldl_cons, List.foldl_nil, extendCorners, List.mem_flatMap]
      simp only [List.mem_map, mem_cornerCandidates]
      constructor
      · rintro ⟨corner', hc', v, hv, rfl⟩
        obtain ⟨hk, hval⟩ := (ih hl corner').mp hc'
        refine ⟨fun k => ?_, fun k iv' x hmem hx => ?_⟩
        · rw [Std.ExtTreeMap.mem_insert, Std.LawfulEqOrd.compare_eq_iff_eq, hk k, or_comm]
          simp
        · rw [OrdMap.getElem?_insert_eq] at hx
          rw [List.mem_append, List.mem_singleton, Prod.mk.injEq] at hmem
          rcases hmem with hmem | ⟨rfl, rfl⟩
          · have hne : p ≠ k := by
              rintro rfl
              exact hp (List.mem_map.mpr ⟨_, hmem, rfl⟩)
            rw [if_neg hne] at hx
            exact hval k iv' x hmem hx
          · rw [if_pos rfl] at hx
            exact Option.some.inj hx ▸ hv
      · rintro ⟨hk, hval⟩
        -- a corner of all the ports is one of the ports before `p` with its value at `p` put back
        have hpc : p ∈ corner := (hk p).mpr (by simp)
        obtain ⟨v, hv⟩ := OrdMap.mem_iff_exists.mp hpc
        refine ⟨corner.erase p, (ih hl _).mpr ⟨fun k => ?_, fun k iv' x hmem hx => ?_⟩, v,
          hval p iv v (by simp) hv, ?_⟩
        · rw [Std.ExtTreeMap.mem_erase, hk k]
          by_cases hkp : p = k
          · subst hkp; simpa using hp
          · simp [hkp]
        · rw [Std.ExtTreeMap.getElem?_erase] at hx
          split at hx
          · cases hx
          · exact hval k iv' x (List.mem_append_left _ hmem) hx
        · apply Std.ExtTreeMap.ext_getElem?
          intro k
          rw [OrdMap.getElem?_insert_eq, Std.ExtTreeMap.getElem?_erase]
          by_cases hkp : p = k
          · subst hkp; simp [hv]
          · simp [hkp]

/-- The enumerated corners are exactly the choices of one end per port. -/
theorem mem_enumerateCorners {box : PortMap (Interval K)} {c : PortMap K} :
    c ∈ enumerateCorners box ↔ IsCorner box c := by
  rw [enumerateCorners, List.mem_insertionSort,
    mem_foldl_extendCorners _ (OrdMap.nodup_keys_toList box)]
  have hkeys : ∀ k, k ∈ box.toList.map Prod.fst ↔ k ∈ box := by simp
  constructor
  · rintro ⟨hk, hval⟩
    refine ⟨fun k => (hk k).trans (hkeys k), fun k x iv hx hiv => hval k iv x ?_ hx⟩
    rwa [Std.ExtTreeMap.mem_toList_iff_getElem?_eq_some]
  · intro h
    refine ⟨fun k => (h.keys k).trans (hkeys k).symm, fun k iv x hiv hx => h.vals k x iv hx ?_⟩
    rwa [Std.ExtTreeMap.mem_toList_iff_getElem?_eq_some] at hiv

/-- The corner that picks one end of every interval. -/
theorem isCorner_map {box : PortMap (Interval K)} {f : Interval K → K}
    (hf : ∀ iv, f iv = iv.lo ∨ f iv = iv.hi) :
    IsCorner box (box.map fun _ iv => f iv) := by
  refine ⟨fun k => by simp, fun k x iv hx hiv => ?_⟩
  rw [Std.ExtTreeMap.getElem?_map, hiv] at hx
  cases hx
  exact hf iv

theorem enumerateCorners_ne_nil (box : PortMap (Interval K)) : enumerateCorners box ≠ [] :=
  List.ne_nil_of_mem (mem_enumerateCorners.mpr (isCorner_map (f := Interval.lo) fun _ => Or.inl rfl))

/-! ### The sweep -/

/-- Widen one port's hull entry by one more value. -/
def hullEntry (value : K) : Option (Interval K) → Option (Interval K)
  | some existing => some (existing.hull (Interval.point value))
  | none => some (Interval.point value)

/-- Fold one corner's outputs into the hull. -/
def hullOutputs (hull : PortMap (Interval K)) (outputs : PortMap K) : PortMap (Interval K) :=
  OrdMap.foldAlter hullEntry outputs hull

/-- Evaluate `eval` at every corner of `box` and hull the per-port results. -/
def cornerSweep {m : Type → Type} [Monad m] (box : PortMap (Interval K))
    (eval : PortMap K → m (PortMap K)) : m (PortMap (Interval K)) :=
  (enumerateCorners box).foldlM (fun hull corner => do
    let outputs ← eval corner
    pure (hullOutputs hull outputs)) ∅

/-- The fold-only half of `cornerSweep`. -/
def hullFromResults (results : List (PortMap K)) : PortMap (Interval K) :=
  results.foldl hullOutputs ∅

theorem cornerSweep_eq {m : Type → Type} [Monad m] [LawfulMonad m]
    (box : PortMap (Interval K)) (eval : PortMap K → m (PortMap K)) :
    cornerSweep box eval = hullFromResults <$> (enumerateCorners box).mapM eval := by
  have aux : ∀ (l : List (PortMap K)) (hull : PortMap (Interval K)),
      l.foldlM (fun hull corner => do
        let outputs ← eval corner
        pure (hullOutputs hull outputs)) hull
        = (fun rs => rs.foldl hullOutputs hull) <$> l.mapM eval := by
    intro l
    induction l with
    | nil => intro hull; simp
    | cons c l ih =>
        intro hull
        simp only [List.foldlM_cons, bind_assoc, pure_bind, ih, List.mapM_cons,
          List.foldl_cons, map_eq_pure_bind]
  exact aux _ _

/-- What a hull entry is: it contains every value of its port, and both its
ends are values of its port. -/
structure IsHullOf (iv : Interval K) (values : K → Prop) : Prop where
  contains : ∀ x, values x → iv.contains x
  lo_mem : values iv.lo
  hi_mem : values iv.hi

theorem IsHullOf.congr {iv : Interval K} {values values' : K → Prop} (h : IsHullOf iv values)
    (heq : ∀ y, values' y ↔ values y) : IsHullOf iv values' where
  contains := fun y hy => h.contains y ((heq y).mp hy)
  lo_mem := (heq _).mpr h.lo_mem
  hi_mem := (heq _).mpr h.hi_mem

theorem isHullOf_point (x : K) : IsHullOf (Interval.point x) (· = x) where
  contains := by
    rintro y rfl
    exact ⟨le_rfl, le_rfl⟩
  lo_mem := rfl
  hi_mem := rfl

/-- One more value takes the hull with its point. -/
theorem IsHullOf.hull_point {iv : Interval K} {values : K → Prop} (h : IsHullOf iv values)
    (x : K) : IsHullOf (iv.hull (Interval.point x)) fun y => values y ∨ y = x where
  contains := by
    rintro y (hy | rfl)
    · exact Interval.contains_of_isSubset (h.contains y hy) (Interval.isSubset_hull_left iv _)
    · exact Interval.contains_of_isSubset ⟨le_rfl, le_rfl⟩ (Interval.isSubset_hull_right iv _)
  lo_mem := by
    rcases min_choice iv.lo x with e | e
    · exact Or.inl (e.symm ▸ h.lo_mem : values (min iv.lo x))
    · exact Or.inr e
  hi_mem := by
    rcases max_choice iv.hi x with e | e
    · exact Or.inl (e.symm ▸ h.hi_mem : values (max iv.hi x))
    · exact Or.inr e

private theorem foldl_hullOutputs_spec (p : Port) :
    ∀ (results : List (PortMap K)),
      match (hullFromResults results)[p]? with
      | some iv => IsHullOf iv fun x => ∃ r ∈ results, r[p]? = some x
      | none => ∀ r ∈ results, r[p]? = none := by
  intro results
  induction results using List.reverseRecOn with
  | nil => simp [hullFromResults]
  | append_singleton results r ih =>
      have hfold : hullFromResults (results ++ [r]) = hullOutputs (hullFromResults results) r := by
        simp [hullFromResults]
      have hvalues : ∀ y, (∃ r' ∈ results ++ [r], r'[p]? = some y)
          ↔ (∃ r' ∈ results, r'[p]? = some y) ∨ r[p]? = some y := by
        simp [or_and_right, exists_or]
      rw [hfold, hullOutputs, OrdMap.getElem?_foldAlter]
      rcases hr : r[p]? with - | x <;> rcases hh : (hullFromResults results)[p]? with - | iv <;>
        simp only [hh] at ih
      · intro r' hr'
        rcases List.mem_append.mp hr' with hr' | hr'
        · exact ih r' hr'
        · rw [List.mem_singleton.mp hr']
          exact hr
      · -- the corner does not compute the port
        refine ih.congr fun y => (hvalues y).trans ?_
        simp [hr]
      · -- the first corner that computes it
        refine (isHullOf_point x).congr fun y => (hvalues y).trans ?_
        have hnone : ¬ ∃ r' ∈ results, r'[p]? = some y := by
          rintro ⟨r', hr', hy⟩
          rw [ih r' hr'] at hy
          cases hy
        rw [or_iff_right hnone, hr, Option.some_inj, eq_comm]
      · refine (ih.hull_point x).congr fun y => (hvalues y).trans ?_
        rw [hr, Option.some_inj, eq_comm]

theorem isHullOf_hullFromResults {results : List (PortMap K)} {p : Port} {iv : Interval K}
    (h : (hullFromResults results)[p]? = some iv) :
    IsHullOf iv fun x => ∃ r ∈ results, r[p]? = some x := by
  have := foldl_hullOutputs_spec p results
  rwa [h] at this

theorem mem_hullFromResults {results : List (PortMap K)} {p : Port} :
    p ∈ hullFromResults results ↔ ∃ r ∈ results, p ∈ r := by
  have := foldl_hullOutputs_spec p results
  rw [OrdMap.mem_iff_exists]
  rcases h : (hullFromResults results)[p]? with - | iv <;> rw [h] at this
  · simp only [reduceCtorEq, exists_false, false_iff, not_exists, not_and]
    intro r hr hp
    obtain ⟨v, hv⟩ := OrdMap.mem_iff_exists.mp hp
    rw [this r hr] at hv
    cases hv
  · obtain ⟨r, hr, hlo⟩ := this.lo_mem
    exact ⟨fun _ => ⟨r, hr, OrdMap.mem_iff_exists.mpr ⟨_, hlo⟩⟩, fun _ => ⟨iv, rfl⟩⟩

/-! ### Accumulation -/

/-- `[lo - eps, hi + eps]`; the accumulation primitive. -/
def inflate (iv : Interval K) (eps : K) : Interval K := ⟨iv.lo - eps, iv.hi + eps⟩

/-- `halfWidth(outHull) + modelEps`; the budget-checked quantity. -/
def totalError (outHull : Interval K) (modelEps : K) : K := outHull.halfWidth + modelEps

section Ordered

variable {K : Type} [Field K] [LinearOrder K]

@[simp] theorem inflate_zero (iv : Interval K) : inflate iv 0 = iv := by
  simp [inflate]

variable [IsStrictOrderedRing K]

theorem inflate_contains {iv : Interval K} {eps x y : K} (hy : iv.contains y)
    (h : |y - x| ≤ eps) : (inflate iv eps).contains x := by
  obtain ⟨h₁, h₂⟩ := abs_le.mp h
  obtain ⟨h₃, h₄⟩ := hy
  constructor <;> simp only [inflate] <;> linarith

theorem inflate_proper {iv : Interval K} {eps : K} (h : iv.Proper) (heps : 0 ≤ eps) :
    (inflate iv eps).Proper := by
  simp only [Interval.Proper, inflate] at h ⊢
  linarith

/-- The total error is the half-width of the inflated interval. -/
theorem totalError_eq (iv : Interval K) (eps : K) :
    totalError iv eps = (inflate iv eps).halfWidth := by
  simp only [totalError, Interval.halfWidth, Interval.width, inflate]
  linarith

theorem inflate_isSubset_inflate {a b : Interval K} {e e' : K} (h : a.isSubset b)
    (he : e ≤ e') : (inflate a e).isSubset (inflate b e') := by
  obtain ⟨h₁, h₂⟩ := h
  constructor <;> simp only [inflate] <;> linarith

/-- A point of the inflated interval is within the total error of the
midpoint. -/
theorem abs_sub_midpoint_le {iv : Interval K} {eps x : K} (h : (inflate iv eps).contains x) :
    |x - iv.midpoint| ≤ totalError iv eps := by
  obtain ⟨h₁, h₂⟩ := h
  simp only [inflate] at h₁ h₂
  simp only [abs_le, Interval.midpoint, totalError, Interval.halfWidth, Interval.width]
  constructor <;> linarith

end Ordered

end Feldspar

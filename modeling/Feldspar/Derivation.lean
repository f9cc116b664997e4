/-
Feldspar/Derivation.lean

What the planner searches for: derivation trees.

A `Deriv` is a tree of solver applications over known ports.  `Deriv.label`
gives it an interval, a model eps and an additive cost by the planner's own
estimate, and `Admissible rq p t` says that `t` derives port `p` and every
node passes the sense filter and the domain check.  Nothing here mentions the
frontier or Pareto pruning.

The estimate is monotone (`outLabel_dominates`): inputs that dominate give
outputs that dominate, because the sum surrogate hulls to `[Σ lo, Σ hi]`
(`estimateOutputs_eq`).  Admission is monotone too (`admits_mono`), and a tie
key says everything about a combo that these depend on (`tieKeyFor_inj`).
-/
import Feldspar.Search
import Std.Data.String.ToNat

set_option linter.unusedSectionVars false

namespace Feldspar

variable {K : Type} [Arith K] [LinearOrder K]

/-! ### The sum surrogate in closed form -/

/-- `[Σ lo, Σ hi]`. -/
def sumHull (inputs : PortMap (Interval K)) : Interval K :=
  ⟨((OrdMap.vals inputs).map Interval.lo).sum, ((OrdMap.vals inputs).map Interval.hi).sum⟩

def ProperMap (inputs : PortMap (Interval K)) : Prop :=
  ∀ (p : Port) (iv : Interval K), inputs[p]? = some iv → iv.Proper

section Ordered

variable {K : Type} [Field K] [LinearOrder K] [IsStrictOrderedRing K]

theorem lo_le_of_isCorner {inputs : PortMap (Interval K)} (hp : ProperMap inputs)
    {c : PortMap K} (hc : IsCorner inputs c) :
    (sumHull inputs).lo ≤ (OrdMap.vals c).sum ∧ (OrdMap.vals c).sum ≤ (sumHull inputs).hi := by
  have hlo : OrdMap.Rel (fun (iv : Interval K) (x : K) => iv.lo ≤ x) inputs c := by
    refine ⟨fun k => (hc.keys k).symm, fun k iv x hiv hx => ?_⟩
    rcases hc.vals k x iv hx hiv with rfl | rfl
    · exact le_rfl
    · exact hp k iv hiv
  have hhi : OrdMap.Rel (fun (x : K) (iv : Interval K) => x ≤ iv.hi) c inputs := by
    refine ⟨hc.keys, fun k x iv hx hiv => ?_⟩
    rcases hc.vals k x iv hx hiv with rfl | rfl
    · exact hp k iv hiv
    · exact le_rfl
  have h₁ := OrdMap.Rel.sum_le (f := Interval.lo) (g := id) hlo
  have h₂ := OrdMap.Rel.sum_le (f := id) (g := Interval.hi) hhi
  rw [List.map_id] at h₁ h₂
  exact ⟨h₁, h₂⟩

/-- The hull of the sum surrogate. -/
theorem hull_surrogate {s : SolverSummary K} {inputs : PortMap (Interval K)}
    (hp : ProperMap inputs) {o : Port} (ho : o ∈ s.outputs) :
    (Id.run (cornerSweep inputs fun corner => pure (surrogate s corner)))[o]?
      = some (sumHull inputs) := by
  have hsweep : Id.run (cornerSweep inputs fun corner => pure (surrogate s corner))
      = hullFromResults ((enumerateCorners inputs).map (surrogate s)) := by
    rw [cornerSweep_eq, List.mapM_pure]
    rfl
  rw [hsweep]
  have hval : ∀ (c : PortMap K) (x : K), (surrogate s c)[o]? = some x ↔ (OrdMap.vals c).sum = x :=
    fun c x => by rw [surrogate, Arith.sum_eq, OrdMap.getElem?_ofFn_eq_some, and_iff_right ho]
  have hcorner : ∀ {f : Interval K → K}, (∀ iv, f iv = iv.lo ∨ f iv = iv.hi) →
      ∃ r ∈ (enumerateCorners inputs).map (surrogate s),
        r[o]? = some ((OrdMap.vals inputs).map f).sum := by
    intro f hf
    refine ⟨_, List.mem_map_of_mem (mem_enumerateCorners.mpr (isCorner_map hf)), ?_⟩
    rw [hval, OrdMap.vals_map]
  have hmem : o ∈ hullFromResults ((enumerateCorners inputs).map (surrogate s)) := by
    obtain ⟨r, hr, hx⟩ := hcorner (f := Interval.lo) fun _ => Or.inl rfl
    exact mem_hullFromResults.mpr ⟨r, hr, OrdMap.mem_iff_exists.mpr ⟨_, hx⟩⟩
  obtain ⟨iv, hiv⟩ := OrdMap.mem_iff_exists.mp hmem
  have hull := isHullOf_hullFromResults hiv
  -- every value of the port is the sum of a corner, hence between the two sums
  have hbound : ∀ x, (∃ r ∈ (enumerateCorners inputs).map (surrogate s), r[o]? = some x) →
      (sumHull inputs).lo ≤ x ∧ x ≤ (sumHull inputs).hi := by
    rintro x ⟨r, hr, hx⟩
    obtain ⟨c, hc, rfl⟩ := List.mem_map.mp hr
    rw [hval] at hx
    subst hx
    exact lo_le_of_isCorner hp (mem_enumerateCorners.mp hc)
  have hlo := (hull.contains _ (hcorner (f := Interval.lo) fun _ => Or.inl rfl)).1
  have hhi := (hull.contains _ (hcorner (f := Interval.hi) fun _ => Or.inr rfl)).2
  rw [hiv]
  congr 1
  exact Interval.ext (le_antisymm hlo (hbound _ hull.lo_mem).1)
    (le_antisymm (hbound _ hull.hi_mem).2 hhi)

theorem estimateOutputs_eq {s : SolverSummary K} {inputs : PortMap (Interval K)}
    (hp : ProperMap inputs) :
    estimateOutputs s inputs
      = OrdMap.ofFn s.outputs fun o => (sumHull inputs, declaredEps s o (sumHull inputs)) := by
  apply Std.ExtTreeMap.ext_getElem?
  intro o
  simp only [estimateOutputs, OrdMap.getElem?_ofFn]
  by_cases ho : o ∈ s.outputs
  · rw [if_pos ho, if_pos ho, hull_surrogate hp ho]
    rfl
  · rw [if_neg ho, if_neg ho]

theorem sumHull_isSubset {a b : PortMap (Interval K)}
    (h : OrdMap.Rel (fun x y : Interval K => x.isSubset y) a b) :
    (sumHull a).isSubset (sumHull b) := by
  constructor
  · refine OrdMap.Rel.sum_le (f := Interval.lo) (g := Interval.lo) ?_
    exact ⟨fun k => (h.keys k).symm, fun k y x hy hx => (h.vals k x y hx hy).1⟩
  · exact OrdMap.Rel.sum_le (f := Interval.hi) (g := Interval.hi)
      ⟨h.keys, fun k x y hx hy => (h.vals k x y hx hy).2⟩

theorem sumHull_proper {a : PortMap (Interval K)} (h : ProperMap a) : (sumHull a).Proper := by
  refine OrdMap.Rel.sum_le (f := Interval.lo) (g := Interval.hi) ⟨fun _ => Iff.rfl, ?_⟩
  intro k x y hx hy
  rw [hx] at hy
  cases hy
  exact h k x hx

theorem declaredEps_nonneg (s : SolverSummary K) (o : Port) (iv : Interval K) :
    0 ≤ declaredEps s o iv := by
  unfold declaredEps
  split
  · exact Accuracy.worstOver_nonneg _ _
  · exact le_rfl

theorem declaredEps_mono (s : SolverSummary K) (o : Port) {a b : Interval K} (ha : a.Proper)
    (h : a.isSubset b) : declaredEps s o a ≤ declaredEps s o b := by
  unfold declaredEps
  split
  · exact Accuracy.worstOver_le_worstOver _ ha h
  · exact le_rfl

end Ordered

/-! ### One application, on labels -/

/-- A label as the search makes them: a proper interval and a non-negative
eps. -/
def Label.Proper (l : Label K) : Prop := l.interval.Proper ∧ 0 ≤ l.eps

/-- The label without its producer. -/
def Label.forget (l : Label K) : Label K := { l with node := none }

def ProperCombo (combo : PortMap (Label K)) : Prop :=
  ∀ (p : Port) (l : Label K), combo[p]? = some l → l.Proper

/-- The label that applying `s` to `combo` gives its output `o`. -/
def outLabel (s : SolverSummary K) (combo : PortMap (Label K)) (o : Port) : Label K :=
  let iv := sumHull (inflatedInputs combo)
  ⟨iv, declaredEps s o iv, comboCost s combo, none⟩

/-- `combo` is admitted by the input domain of `s`. -/
def Admits (rq : PlanRequest K) (s : SolverSummary K) (combo : PortMap (Label K)) : Prop :=
  (inputDomain s).admits (inflatedInputs combo) rq.tags = .ok ()

theorem getElem?_inflatedInputs {combo : PortMap (Label K)} {p : Port} {iv : Interval K} :
    (inflatedInputs combo)[p]? = some iv ↔ ∃ l, combo[p]? = some l ∧ l.inflated = iv := by
  simp [inflatedInputs]

theorem inflatedInputs_rel {c c' : PortMap (Label K)} (h : OrdMap.Rel Label.dominates c c') :
    OrdMap.Rel (fun x y : Interval K => x.isSubset y) (inflatedInputs c) (inflatedInputs c') :=
  OrdMap.Rel.map (f := Label.inflated) (g := Label.inflated)
    ⟨h.keys, fun k l l' hl hl' => (h.vals k l l' hl hl').2⟩

/-- Admission is monotone: a tighter combo is admitted wherever a wider one
is. -/
theorem admits_mono {rq : PlanRequest K} {s : SolverSummary K} {c c' : PortMap (Label K)}
    (h : OrdMap.Rel Label.dominates c c') (ha : Admits rq s c') : Admits rq s c := by
  rw [Admits, Domain.admits_eq_ok] at ha ⊢
  refine ⟨ha.1, fun p allowed hp => ?_⟩
  obtain ⟨value', hv', hsub'⟩ := ha.2 p allowed hp
  obtain ⟨value, hv, hsub⟩ := (inflatedInputs_rel h).exists_left hv'
  exact ⟨value, hv, Interval.isSubset_trans hsub hsub'⟩

section Ordered

variable {K : Type} [Field K] [LinearOrder K] [IsStrictOrderedRing K]

theorem Label.Proper.inflated {l : Label K} (h : l.Proper) : l.inflated.Proper :=
  inflate_proper h.1 h.2

theorem ProperCombo.inflatedInputs {combo : PortMap (Label K)} (h : ProperCombo combo) :
    ProperMap (inflatedInputs combo) := by
  intro p iv hiv
  obtain ⟨l, hl, rfl⟩ := getElem?_inflatedInputs.mp hiv
  exact (h p l hl).inflated

theorem outLabel_proper {s : SolverSummary K} {combo : PortMap (Label K)}
    (h : ProperCombo combo) (o : Port) : (outLabel s combo o).Proper :=
  ⟨sumHull_proper h.inflatedInputs, declaredEps_nonneg _ _ _⟩

theorem comboCost_mono {s : SolverSummary K} {c c' : PortMap (Label K)}
    (h : OrdMap.Rel Label.dominates c c') : comboCost s c ≤ comboCost s c' := by
  have := OrdMap.Rel.sum_le (f := Label.cost) (g := Label.cost)
    ⟨h.keys, fun k l l' hl hl' => (h.vals k l l' hl hl').1⟩
  simp only [comboCost, Arith.sum_eq]
  linarith

/-- The estimate is monotone: dominating inputs give dominating outputs. -/
theorem outLabel_dominates {s : SolverSummary K} {c c' : PortMap (Label K)}
    (hc : ProperCombo c) (h : OrdMap.Rel Label.dominates c c') (o : Port) :
    (outLabel s c o).dominates (outLabel s c' o) := by
  have hsub := sumHull_isSubset (inflatedInputs_rel h)
  refine ⟨comboCost_mono h, inflate_isSubset_inflate hsub ?_⟩
  exact declaredEps_mono s o (sumHull_proper hc.inflatedInputs) hsub

/-- The estimated outputs of a node are its output labels. -/
theorem getElem?_estimateOutputs {s : SolverSummary K} {combo : PortMap (Label K)}
    (hc : ProperCombo combo) {o : Port} {e : Interval K × K} :
    (estimateOutputs s (inflatedInputs combo))[o]? = some e ↔
      o ∈ s.outputs ∧ e = ((outLabel s combo o).interval, (outLabel s combo o).eps) := by
  rw [estimateOutputs_eq hc.inflatedInputs, OrdMap.getElem?_ofFn_eq_some]
  exact and_congr_right fun _ => eq_comm

theorem Label.totalError_le {a b : Label K} (h : a.dominates b) : a.totalError ≤ b.totalError := by
  simp only [Label.totalError, totalError_eq]
  exact Interval.halfWidth_le_of_isSubset h.2

end Ordered

/-! ### Tie keys -/

/-- The two combos have the same ports, with labels of the same inflated
interval and cost. -/
def SameKey (c c' : PortMap (Label K)) : Prop :=
  OrdMap.Rel (fun l l' : Label K => l.inflated = l'.inflated ∧ l.cost = l'.cost) c c'

theorem SameKey.dominates {c c' : PortMap (Label K)} (h : SameKey c c') :
    OrdMap.Rel Label.dominates c c' where
  keys := h.keys
  vals k l l' hl hl' := by
    obtain ⟨hiv, hcost⟩ := h.vals k l l' hl hl'
    exact ⟨hcost.le, hiv ▸ l.inflated.isSubset_refl⟩

theorem SameKey.symm {c c' : PortMap (Label K)} (h : SameKey c c') : SameKey c' c where
  keys k := (h.keys k).symm
  vals k l l' hl hl' := ⟨(h.vals k l' l hl' hl).1.symm, (h.vals k l' l hl' hl).2.symm⟩

/-- An application depends on its combo only through what a tie key says. -/
theorem outLabel_congr {s : SolverSummary K} {c c' : PortMap (Label K)} (h : SameKey c c')
    (o : Port) : outLabel s c o = outLabel s c' o := by
  have hiv : inflatedInputs c = inflatedInputs c' :=
    OrdMap.Rel.of_eq (OrdMap.Rel.map (f := Label.inflated) (g := Label.inflated)
      ⟨h.keys, fun k l l' hl hl' => (h.vals k l l' hl hl').1⟩)
  have hcost : (OrdMap.vals c).map Label.cost = (OrdMap.vals c').map Label.cost := by
    rw [← List.forall₂_eq_eq_eq, List.forall₂_map_left_iff, List.forall₂_map_right_iff]
    exact h.vals_forall₂.imp fun _ _ he => he.2
  simp only [outLabel, comboCost, hiv, hcost]

private theorem notMem_toList_toString {n : ℕ} {c : Char} (h : c.isDigit = false) :
    c ∉ (toString n).toList := by
  intro hc
  rw [Nat.toString_eq_repr, Nat.toList_repr] at hc
  rw [Nat.isDigit_of_mem_toDigits (by decide) (by decide) hc] at h
  cases h

private theorem toString_inj {m n : ℕ} (h : (toString m).toList = (toString n).toList) : m = n := by
  rw [String.toList_inj, Nat.toString_eq_repr, Nat.toString_eq_repr] at h
  exact Nat.repr_injective h

/-- Equal strings with a separator that does not occur before it split
equally. -/
private theorem append_cons_cancel {c : Char} :
    ∀ {x y u v : List Char}, c ∉ x → c ∉ y → x ++ c :: u = y ++ c :: v → x = y ∧ u = v
  | [], [], _, _, _, _, h => by simpa using h
  | [], b :: y, _, _, _, hy, h => by
      simp only [List.nil_append, List.cons_append, List.cons.injEq] at h
      exact absurd (h.1 ▸ List.mem_cons_self) hy
  | a :: x, [], _, _, hx, _, h => by
      simp only [List.nil_append, List.cons_append, List.cons.injEq] at h
      exact absurd (h.1 ▸ List.mem_cons_self) hx
  | a :: x, b :: y, _, _, hx, hy, h => by
      simp only [List.cons_append, List.cons.injEq] at h
      obtain ⟨rfl, h⟩ := h
      obtain ⟨rfl, rfl⟩ := append_cons_cancel (fun m => hx (List.mem_cons_of_mem _ m))
        (fun m => hy (List.mem_cons_of_mem _ m)) h
      exact ⟨rfl, rfl⟩

private theorem cut_toString {m n : ℕ} {c : Char} {x y : List Char} (hc : c.isDigit = false)
    (h : (toString m).toList ++ c :: x = (toString n).toList ++ c :: y) : m = n ∧ x = y := by
  obtain ⟨hmn, hxy⟩ := append_cons_cancel (notMem_toList_toString hc)
    (notMem_toList_toString hc) h
  exact ⟨toString_inj hmn, hxy⟩

section TieKey

variable [ToBits K]

private theorem toList_tieEntry (p : Port) (l : Label K) :
    (tieEntry p l).toList = p.toList ++ ':' :: ((toString (ToBits.toBits l.inflated.lo)).toList
      ++ ':' :: ((toString (ToBits.toBits l.inflated.hi)).toList
      ++ ':' :: (toString (ToBits.toBits l.cost)).toList)) := by
  simp only [tieEntry, String.toList_append, List.append_assoc]
  rfl

/-- What follows one tie entry: nothing, or a separator. -/
private inductive SameTail : List Char → List Char → Prop
  | nil : SameTail [] []
  | cons (x y : List Char) : SameTail ('|' :: x) ('|' :: y)

private theorem tieEntry_inj {p : Port} {l l' : Label K} {x y : List Char} (ht : SameTail x y)
    (h : (tieEntry p l).toList ++ x = (tieEntry p l').toList ++ y) :
    (l.inflated = l'.inflated ∧ l.cost = l'.cost) ∧ x = y := by
  have hinj := ToBits.toBits_injective (K := K)
  simp only [toList_tieEntry, List.append_assoc, List.cons_append, List.append_cancel_left_eq,
    List.cons.injEq, true_and] at h
  obtain ⟨hlo, h⟩ := cut_toString rfl h
  obtain ⟨hhi, h⟩ := cut_toString rfl h
  have hiv : l.inflated = l'.inflated := Interval.ext (hinj hlo) (hinj hhi)
  cases ht with
  | nil =>
      rw [List.append_nil, List.append_nil] at h
      exact ⟨⟨hiv, hinj (toString_inj h)⟩, rfl⟩
  | cons x y =>
      obtain ⟨hcost, rfl⟩ := cut_toString rfl h
      exact ⟨⟨hiv, hinj hcost⟩, rfl⟩

private theorem intercalate_inj :
    ∀ {l l' : List (Port × Label K)}, l.map Prod.fst = l'.map Prod.fst →
      "|".intercalate (l.map fun (p, x) => tieEntry p x)
        = "|".intercalate (l'.map fun (p, x) => tieEntry p x) →
      List.Forall₂ (fun e e' => e.1 = e'.1 ∧
        (e.2.inflated = e'.2.inflated ∧ e.2.cost = e'.2.cost)) l l'
  | [], [], _, _ => List.Forall₂.nil
  | [], _ :: _, hk, _ => by simp at hk
  | _ :: _, [], hk, _ => by simp at hk
  | [(p, x)], (p', x') :: l', hk, h => by
      simp only [List.map_cons, List.map_nil, List.cons.injEq, List.nil_eq,
        List.map_eq_nil_iff] at hk
      obtain ⟨rfl, rfl⟩ := hk
      simp only [List.map_cons, List.map_nil, String.intercalate_singleton] at h
      have hx := (tieEntry_inj SameTail.nil (congrArg (String.toList · ++ []) h)).1
      exact List.Forall₂.cons ⟨rfl, hx⟩ List.Forall₂.nil
  | (p, x) :: e :: l, [(p', x')], hk, h => by simp at hk
  | (p, x) :: e :: l, (p', x') :: e' :: l', hk, h => by
      obtain ⟨hp, hk'⟩ := List.cons.inj hk
      dsimp only at hp
      subst hp
      simp only [List.map_cons, String.intercalate_cons_cons, ← String.toList_inj,
        String.toList_append, List.append_assoc] at h
      obtain ⟨hx, ht⟩ := tieEntry_inj (SameTail.cons _ _) h
      refine List.Forall₂.cons ⟨rfl, hx⟩ (intercalate_inj hk' ?_)
      rw [← String.toList_inj]
      exact (List.cons.inj ht).2

/-- A tie key determines its combo up to labels of the same inflated
interval and cost, among combos of the same ports. -/
theorem tieKeyFor_inj {c c' : PortMap (Label K)} (hk : ∀ p : Port, p ∈ c ↔ p ∈ c')
    (h : tieKeyFor c = tieKeyFor c') : SameKey c c' :=
  OrdMap.rel_of_forall₂ (intercalate_inj (OrdMap.keys_eq_of_mem_iff hk) h)

end TieKey

/-! ### Derivation trees -/

/-- A known port, or a solver applied to one derivation per input port, read
at one of its outputs. -/
inductive Deriv (K : Type) [Arith K] [LinearOrder K]
  | leaf (port : Port)
  | node (s : SolverSummary K) (out : Port) (kids : Port → Deriv K)

namespace Deriv

/-- The estimated interval and eps of a derivation, and its additive cost. -/
def label (known : PortMap (Interval K)) : Deriv K → Label K
  | leaf port => Label.known (known[port]?.getD (Interval.point 0))
  | node s out kids => outLabel s (OrdMap.ofFn s.inputs fun p => (kids p).label known) out

/-- The labels of a node's kids, one per input port. -/
def combo (known : PortMap (Interval K)) (s : SolverSummary K) (kids : Port → Deriv K) :
    PortMap (Label K) :=
  OrdMap.ofFn s.inputs fun p => (kids p).label known

end Deriv

/-- `t` derives the port `p`: its leaves are known, and every node passes the
sense filter and admits the inflated intervals of its inputs. -/
inductive Admissible (rq : PlanRequest K) : Port → Deriv K → Prop
  | leaf {p : Port} (hp : p ∈ rq.known) : Admissible rq p (.leaf p)
  | node {s : SolverSummary K} {o : Port} {kids : Port → Deriv K}
      (hs : s ∈ rq.solvers) (hf : passesFilter rq s) (ho : o ∈ s.outputs)
      (hk : ∀ p ∈ s.inputs, Admissible rq p (kids p))
      (hd : Admits rq s (Deriv.combo rq.known s kids)) : Admissible rq o (.node s o kids)

/-- The error that the budget is compared with. -/
def Deriv.totalError (rq : PlanRequest K) (t : Deriv K) : K := (t.label rq.known).totalError

def Deriv.cost (rq : PlanRequest K) (t : Deriv K) : K := (t.label rq.known).cost

theorem getElem?_combo {known : PortMap (Interval K)} {s : SolverSummary K}
    {kids : Port → Deriv K} {p : Port} {l : Label K} :
    (Deriv.combo known s kids)[p]? = some l ↔ p ∈ s.inputs ∧ (kids p).label known = l :=
  OrdMap.getElem?_ofFn_eq_some

theorem mem_combo {known : PortMap (Interval K)} {s : SolverSummary K} {kids : Port → Deriv K}
    {p : Port} : p ∈ Deriv.combo known s kids ↔ p ∈ s.inputs := by
  simp [OrdMap.mem_iff_exists, getElem?_combo]

section Ordered

variable {K : Type} [Field K] [LinearOrder K] [IsStrictOrderedRing K]

theorem known_proper_of_getElem? {rq : PlanRequest K} {p : Port} {iv : Interval K}
    (h : rq.known[p]? = some iv) : (Label.known iv).Proper :=
  ⟨rq.known_proper iv (OrdMap.mem_vals.mpr ⟨p, h⟩), le_rfl⟩

theorem Admissible.proper {rq : PlanRequest K} {p : Port} {t : Deriv K} (h : Admissible rq p t) :
    (t.label rq.known).Proper := by
  induction h with
  | @leaf p hp =>
      obtain ⟨iv, hiv⟩ := OrdMap.mem_iff_exists.mp hp
      simpa only [Deriv.label, hiv, Option.getD_some] using known_proper_of_getElem? hiv
  | node hs hf ho hk hd ih =>
      refine outLabel_proper (fun p l hl => ?_) _
      obtain ⟨hp, rfl⟩ := getElem?_combo.mp hl
      exact ih p hp

end Ordered

end Feldspar

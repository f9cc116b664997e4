/-
Feldspar/BoundablePredicate.lean

Which linear predicates `predicate_to_box` refuses.

`BoundedBy` is linear arithmetic: the two sides are sums of ports, literals,
negations and multiples by literals, and their difference is `c * port + k`.
What is accepted goes by shape instead.  The canonicalizer neither distributes nor
folds a negated literal, and `linear_single_var` wants a sum of two operands; so of
the two canonical sides one is a constant and the other a multiple of a port, or, on
the right, a bare port (`linearSingleVar_difference`).  Where the bound is
recognized, it is the one that linear arithmetic gives (`BoundedBy.unique`).
-/
import Feldspar.PredicateBox
import Mathlib.Data.List.Permutation

set_option linter.unusedSectionVars false

namespace Feldspar

namespace Expr

/-! ### Linear expressions -/

mutual

/-- Sums of ports, literals, negations and multiples by literals. -/
def IsLinear : Expr → Prop
  | var _ => True
  | lit _ => True
  | neg e => IsLinear e
  | add operands => AllLinear operands
  | mul operands => LinearProduct operands
  | _ => False

def AllLinear : List Expr → Prop
  | [] => True
  | op :: operands => IsLinear op ∧ AllLinear operands

/-- All operands but one are literals. -/
def LinearProduct : List Expr → Prop
  | [] => True
  | op :: operands =>
      (op.lit?.isSome ∧ LinearProduct operands) ∨ (IsLinear op ∧ ∀ op' ∈ operands, op'.lit?.isSome)

end

theorem isLinear_of_lit {e : Expr} (h : e.lit?.isSome) : e.IsLinear := by
  obtain ⟨x, hx⟩ := Option.isSome_iff_exists.mp h
  rw [lit?_eq_some.mp hx]
  trivial

theorem AllLinear.mem {operands : List Expr} (h : AllLinear operands) :
    ∀ op ∈ operands, op.IsLinear := by
  induction operands with
  | nil => exact fun op hop => absurd hop List.not_mem_nil
  | cons op operands ih => exact List.forall_mem_cons.mpr ⟨h.1, ih h.2⟩

theorem LinearProduct.mem {operands : List Expr} (h : LinearProduct operands) :
    ∀ op ∈ operands, op.IsLinear := by
  induction operands with
  | nil => exact fun op hop => absurd hop List.not_mem_nil
  | cons op operands ih =>
      rcases h with ⟨hlit, h⟩ | ⟨hop, hlits⟩
      · exact List.forall_mem_cons.mpr ⟨isLinear_of_lit hlit, ih h⟩
      · exact List.forall_mem_cons.mpr ⟨hop, fun op' hop' => isLinear_of_lit (hlits op' hop')⟩

/-- A linear expression evaluates wherever its variables have values. -/
theorem IsLinear.evaluates {e : Expr} (h : e.IsLinear) {inputs : PortMap ℝ}
    (hvars : ∀ name : String, e.countVar name ≠ 0 → name ∈ inputs) : e.Evaluates inputs := by
  have hop : ∀ {operands : List Expr} {op : Expr},
      (∀ name : String, countVars name operands ≠ 0 → name ∈ inputs) → op ∈ operands →
      ∀ name : String, op.countVar name ≠ 0 → name ∈ inputs := by
    intro operands op hall hmem name hne
    exact hall name fun hzero => hne (countVars_eq_zero.mp hzero op hmem)
  induction e using ind with
  | var name => exact (evaluates_var name).mpr (hvars name (by simp [countVar]))
  | lit x => exact evaluates_lit x
  | neg e ih => exact evaluates_neg.mpr (ih h hvars)
  | add operands ih =>
      exact evaluates_add.mpr fun op hmem => ih op hmem (AllLinear.mem h op hmem) (hop hvars hmem)
  | mul operands ih =>
      exact evaluates_mul.mpr fun op hmem =>
        ih op hmem (LinearProduct.mem h op hmem) (hop hvars hmem)
  | pow base exp _ _ => exact h.elim
  | powInf base _ => exact h.elim
  | unary f e _ => exact h.elim

/-- `collect_vars` has the variables that are counted. -/
theorem mem_collectVars (name : String) (e : Expr) : ∀ names : TagSet,
    name ∈ e.collectVars names ↔ name ∈ names ∨ e.countVar name ≠ 0 := by
  have hall : ∀ operands : List Expr,
      (∀ op ∈ operands, ∀ names : TagSet,
        name ∈ op.collectVars names ↔ name ∈ names ∨ op.countVar name ≠ 0) →
      ∀ names : TagSet, name ∈ collectAllVars names operands ↔
        name ∈ names ∨ countVars name operands ≠ 0 := by
    intro operands ih
    induction operands with
    | nil => exact fun names => by simp [collectAllVars, countVars]
    | cons op operands ihops =>
        intro names
        rw [collectAllVars, ihops fun op' hop => ih op' (List.mem_cons_of_mem _ hop),
          ih op List.mem_cons_self, countVars, or_assoc]
        exact or_congr_right (by omega)
  induction e using ind with
  | var x =>
      intro names
      rw [collectVars, countVar, Std.ExtTreeSet.mem_insert, Std.LawfulEqCmp.compare_eq_iff_eq]
      by_cases hx : x = name <;> simp [hx]
  | lit x => exact fun names => by simp [collectVars, countVar]
  | neg e ih => exact ih
  | add operands ih => exact hall operands ih
  | mul operands ih => exact hall operands ih
  | pow base exp ihb ihx =>
      intro names
      rw [collectVars, ihx, ihb, countVar, or_assoc]
      exact or_congr_right (by omega)
  | powInf base ih => exact ih
  | unary f e ih => exact ih

end Expr

/-! ### Linear predicates -/

namespace Predicate

/-- Where both sides evaluate, their difference is `c * port + k`. -/
def Zeroed (p : Predicate) (c : ℚ) (port : Port) (k : ℚ) : Prop :=
  ∀ (inputs : PortMap ℝ) (l r : ℝ), p.lhs.eval inputs = .ok l → p.rhs.eval inputs = .ok r →
    ∃ x, inputs[port]? = some x ∧ l - r = c * x + k

/-- By linear arithmetic, the predicate is `c * port + k <cmp> 0`. -/
structure BoundedBy (p : Predicate) (c : ℚ) (port : Port) (k : ℚ) : Prop where
  lhs : p.lhs.IsLinear
  rhs : p.rhs.IsLinear
  coeff : c ≠ 0
  zeroed : p.Zeroed c port k

/-- The values of the two sides, and of two more ports, as given. -/
theorem BoundedBy.exists_inputs {p : Predicate} {c k : ℚ} {port : Port} (h : p.BoundedBy c port k)
    (ports : List Port) (f : Port → ℝ) : ∃ inputs : PortMap ℝ, p.Evaluates inputs ∧
      (∀ q ∈ ports, inputs[q]? = some (f q)) ∧ ∀ (q : Port) x, inputs[q]? = some x → x = f q := by
  let names := (p.rhs.collectVars (p.lhs.collectVars ∅)).toList ++ ports
  have hlookup : ∀ q : Port, (OrdMap.ofFn names f)[q]? = if q ∈ names then some (f q) else none :=
    OrdMap.getElem?_ofFn names f
  have hmem : ∀ q ∈ names, q ∈ OrdMap.ofFn names f := by
    intro q hq
    rw [OrdMap.mem_iff_exists]
    exact ⟨f q, (hlookup q).trans (if_pos hq)⟩
  refine ⟨OrdMap.ofFn names f, ⟨?_, ?_⟩, ?_, ?_⟩
  · apply h.lhs.evaluates
    intro name hname
    apply hmem
    apply List.mem_append_left
    rw [Std.ExtTreeSet.mem_toList, Expr.mem_collectVars, Expr.mem_collectVars]
    exact Or.inl (Or.inr hname)
  · apply h.rhs.evaluates
    intro name hname
    apply hmem
    apply List.mem_append_left
    rw [Std.ExtTreeSet.mem_toList, Expr.mem_collectVars]
    exact Or.inr hname
  · intro q hq
    exact (hlookup q).trans (if_pos (List.mem_append_right _ hq))
  · intro q x hx
    exact (OrdMap.getElem?_ofFn_eq_some.mp hx).2.symm

theorem zeroed_of_isAffine {p : Predicate} {c k : ℚ} {port : Port}
    (h : (difference p.lhs p.rhs).IsAffine c port k) : p.Zeroed c port k :=
  fun inputs _ _ hl hr => (h.2 inputs _).mp (eval_difference hl hr)

/-- The bound is determined by the predicate. -/
theorem BoundedBy.unique {p : Predicate} {c c' k k' : ℚ} {port port' : Port}
    (h : p.BoundedBy c port k) (h' : p.Zeroed c' port' k') :
    c = c' ∧ port = port' ∧ k = k' := by
  have hform : ∀ f : Port → ℝ, (c * f port + k : ℝ) = c' * f port' + k' := by
    intro f
    obtain ⟨inputs, ⟨⟨l, hl⟩, ⟨r, hr⟩⟩, -, hvalue⟩ := h.exists_inputs [port, port'] f
    obtain ⟨x, hx, heq⟩ := h.zeroed inputs l r hl hr
    obtain ⟨x', hx', heq'⟩ := h' inputs l r hl hr
    rw [← hvalue port x hx, ← hvalue port' x' hx', ← heq, ← heq']
  have hk : k = k' := by
    have hzero := hform fun _ => 0
    simpa using hzero
  have hport : port = port' := by
    by_contra hne
    have hone := hform fun q => if q = port then 1 else 0
    rw [if_pos rfl, if_neg (Ne.symm hne), hk] at hone
    have hc : (c : ℝ) = 0 := by linarith
    exact h.coeff (Rat.cast_eq_zero.mp hc)
  refine ⟨?_, hport, hk⟩
  have hone := hform fun _ => 1
  rw [hk] at hone
  have hc : (c : ℝ) = c' := by linarith
  exact Rat.cast_injective hc

end Predicate

/-! ### What is recognized -/

namespace Expr

theorem linearSingleVar_of_not_add {e : Expr} (h : ∀ a b, e ≠ add [a, b]) :
    e.linearSingleVar = e.linearTerm.map fun (c, name) => (c, name, 0) := by
  unfold linearSingleVar
  split
  · exact absurd rfl (h _ _)
  · rfl

/-- A constant is not recognized. -/
theorem linearSingleVar_of_constant {e : Expr} (h : e.asConstant.isSome) :
    e.linearSingleVar = none := by
  cases e with
  | lit x => rfl
  | neg e =>
      cases e with
      | var name => cases h
      | _ => rfl
  | _ => cases h

/-- Of two operands one is a constant, and the other is recognized. -/
theorem linearSingleVar_pair {a b : Expr} : (add [a, b]).linearSingleVar.isSome ↔
    (a.asConstant.isSome ∧ b.linearSingleVar.isSome) ∨
      (b.asConstant.isSome ∧ a.linearSingleVar.isSome) := by
  rw [linearSingleVar]
  rcases ha : a.asConstant with - | k
  · rcases hb : b.asConstant with - | k
    · simp
    · simp
  · simp only [Option.isSome_map]
    rw [linearSingleVar_of_constant (e := a) (by rw [ha]; rfl)]
    simp

theorem linearSingleVar_sorted {a b : Expr} {operands : List Expr} (h : operands.Perm [a, b]) :
    (add operands).linearSingleVar.isSome ↔
      (a.asConstant.isSome ∧ b.linearSingleVar.isSome) ∨
        (b.asConstant.isSome ∧ a.linearSingleVar.isSome) := by
  rcases List.perm_pair.mp h with rfl | rfl
  · exact linearSingleVar_pair
  · exact linearSingleVar_pair.trans or_comm

theorem linearSingleVar_of_three {operands : List Expr} (h : 3 ≤ operands.length) :
    (add operands).linearSingleVar = none := by
  rw [linearSingleVar_of_not_add]
  · rfl
  · intro a b heq
    cases heq
    simp at h

theorem linearSingleVar_neg {e : Expr} :
    (neg e).linearSingleVar.isSome ↔ ∃ name, e = var name := by
  rw [linearSingleVar_of_not_add (fun a b h => by cases h), Option.isSome_map]
  cases e with
  | var name => simp [linearTerm]
  | _ => simp [linearTerm]

/-- A port, a negated port, or a multiple of a port. -/
def IsPortTerm (e : Expr) : Prop :=
  ∃ name, e = var name ∨ e = neg (var name) ∨
    ∃ c, c ≠ 0 ∧ (e = mul [lit c, var name] ∨ e = mul [var name, lit c])

theorem linearTerm_isSome {e : Expr} : e.linearTerm.isSome ↔ e.IsPortTerm := by
  constructor
  · intro h
    obtain ⟨⟨c, name⟩, h⟩ := Option.isSome_iff_exists.mp h
    unfold linearTerm at h
    split at h
    · exact ⟨_, Or.inl rfl⟩
    · exact ⟨_, Or.inr (Or.inl rfl)⟩
    · split_ifs at h with hc
      exact ⟨_, Or.inr (Or.inr ⟨_, hc, Or.inl rfl⟩)⟩
    · split_ifs at h with hc
      exact ⟨_, Or.inr (Or.inr ⟨_, hc, Or.inr rfl⟩)⟩
    · cases h
  · rintro ⟨name, rfl | rfl | ⟨c, hc, rfl | rfl⟩⟩
    · rfl
    · rfl
    · simp [linearTerm, hc]
    · simp [linearTerm, hc]

/-- The canonical difference: the operands of the left side, and the negated right
side. -/
theorem difference_eq (lhs rhs : Expr) : difference lhs rhs =
    assemble add 0 (lits (addends lhs.canonicalize)).sum
      (nonLits (addends lhs.canonicalize) ++ [neg rhs.canonicalize]) := by
  have hflat : [lhs.canonicalize, neg rhs.canonicalize].flatMap addends
      = addends lhs.canonicalize ++ [neg rhs.canonicalize] := by
    simp only [List.flatMap_cons, List.flatMap_nil, List.append_nil]
    rfl
  show canonAdd [lhs.canonicalize, neg rhs.canonicalize] = _
  rw [canonAdd_eq, hflat, lits_append, nonLits_append,
    show lits [neg rhs.canonicalize] = [] from rfl, List.append_nil]
  rfl

end Expr

/-- Of the canonical sides one is a constant and the other a multiple of a port; on
the right it is a bare port. -/
def Predicate.Recognized (p : Predicate) : Prop :=
  (p.lhs.canonicalize.IsPortTerm ∧ p.rhs.canonicalize.asConstant.isSome) ∨
    (p.lhs.canonicalize.asConstant.isSome ∧ ∃ name, p.rhs.canonicalize = .var name)

namespace Expr

/-- The difference of a left side that is neither a sum nor a literal. -/
theorem difference_pair {lhs rhs : Expr} (hadd : ∀ operands, lhs.canonicalize ≠ add operands)
    (hlit : lhs.canonicalize.lit? = none) : (difference lhs rhs).linearSingleVar.isSome ↔
      (lhs.canonicalize.asConstant.isSome ∧ ∃ name, rhs.canonicalize = var name) ∨
        (rhs.canonicalize.asConstant.isSome ∧ lhs.canonicalize.linearSingleVar.isSome) := by
  have hnon : nonLits [lhs.canonicalize] = [lhs.canonicalize] := by simp [nonLits, hlit]
  have hlits : lits [lhs.canonicalize] = [] := by simp [lits, hlit]
  rw [difference_eq, addends_eq_self hadd, hnon, hlits, List.sum_nil,
    assemble_of_two (by simp), remaining_self, List.map_nil, List.append_nil, List.singleton_append,
    linearSingleVar_sorted (List.perm_insertionSort le _), linearSingleVar_neg]
  have hneg : (neg rhs.canonicalize).asConstant.isSome = rhs.canonicalize.asConstant.isSome :=
    Option.isSome_map
  rw [hneg]

/-- The difference of a literal. -/
theorem difference_lit {lhs rhs : Expr} {a : ℚ} (h : lhs.canonicalize = lit a) :
    (difference lhs rhs).linearSingleVar.isSome ↔ ∃ name, rhs.canonicalize = var name := by
  have hflat : addends (lit a) = [lit a] := rfl
  have hlits : lits [lit a] = [a] := rfl
  have hnon : nonLits [lit a] = [] := rfl
  rw [difference_eq, h, hflat, hlits, hnon, List.sum_singleton, List.nil_append]
  by_cases ha : a = 0
  · rw [ha, assemble_singleton, linearSingleVar_neg]
  · rw [assemble_of_two (by simp [remaining_of_ne ha]), remaining_of_ne ha, List.map_singleton,
      List.singleton_append, linearSingleVar_sorted (List.perm_insertionSort le _), linearSingleVar_neg]
    have hnone : (lit a).linearSingleVar.isSome = false := rfl
    have hsome : (lit a).asConstant.isSome = true := rfl
    simp [hnone, hsome]

/-- The difference of a sum has three operands or more. -/
theorem difference_add {lhs rhs : Expr} {operands : List Expr}
    (h : lhs.canonicalize = add operands) : (difference lhs rhs).linearSingleVar = none := by
  have hcanon := canonical_canonicalize lhs
  rw [h] at hcanon
  obtain ⟨htwo, folded, hlits⟩ : 2 ≤ operands.length ∧ ∃ folded, lits operands = remaining 0 folded := by
    cases hcanon with
    | add _ hops => exact ⟨hops.two, hops.lits⟩
  have hlen := (nonLits_append_lits_perm operands).length_eq
  have hremaining : remaining 0 (lits operands).sum = lits operands := by
    rw [hlits]
    unfold remaining
    split_ifs <;> simp_all
  have hthree : 3 ≤ (nonLits operands ++ [neg rhs.canonicalize] ++
      (remaining 0 (lits operands).sum).map lit).length := by
    rw [hremaining]
    simp only [List.length_append, List.length_map, List.length_singleton] at hlen ⊢
    omega
  rw [difference_eq, h, show addends (add operands) = operands from rfl,
    assemble_of_two (by omega)]
  apply linearSingleVar_of_three
  rwa [List.length_insertionSort]

/-- The shape of a recognized predicate. -/
theorem linearSingleVar_difference (p : Predicate) :
    (difference p.lhs p.rhs).linearSingleVar.isSome ↔ p.Recognized := by
  unfold Predicate.Recognized
  by_cases hadd : ∃ operands, p.lhs.canonicalize = add operands
  · obtain ⟨operands, h⟩ := hadd
    rw [difference_add h, h]
    constructor
    · intro hsome
      cases hsome
    · rintro (⟨⟨name, hterm | hterm | ⟨c, -, hterm | hterm⟩⟩, -⟩ | ⟨hconst, -⟩)
      · cases hterm
      · cases hterm
      · cases hterm
      · cases hterm
      · cases hconst
  · push Not at hadd
    rcases hlit : p.lhs.canonicalize.lit? with - | a
    · rw [difference_pair hadd hlit, linearSingleVar_of_not_add fun a b => hadd [a, b],
        Option.isSome_map, linearTerm_isSome]
      exact or_comm.trans (or_congr_left and_comm)
    · have h := lit?_eq_some.mp hlit
      rw [difference_lit h, h]
      constructor
      · exact fun hvar => Or.inr ⟨rfl, hvar⟩
      · rintro (⟨⟨name, hterm | hterm | ⟨c, -, hterm | hterm⟩⟩, -⟩ | ⟨-, hvar⟩)
        · cases hterm
        · cases hterm
        · cases hterm
        · cases hterm
        · exact hvar

end Expr

/-! ### What is refused -/

/-- Whether `c * port + k <cmp> 0` bounds its port from above. -/
def Cmp.boundsAbove (cmp : Cmp) (c : ℚ) : Bool :=
  match cmp with
  | .lt | .le => 0 < c
  | .gt | .ge => c < 0

section Refusal

variable {formatF64 : F64 ℚ → String} {predicates : List Predicate}
variable {declaredBox : PortMap (Interval ℝ)} {tags : TagSet}

/-- Every port that a predicate bounds gets its other side from the declared box or
from another predicate. -/
def TwoSided (predicates : List Predicate) (declaredBox : PortMap (Interval ℝ)) : Prop :=
  ∀ p ∈ predicates, ∀ (c : ℚ) (port : Port) (k : ℚ), p.BoundedBy c port k →
    port ∈ declaredBox ∨ ∃ q ∈ predicates, ∃ c' k', q.BoundedBy c' port k' ∧
      q.cmp.boundsAbove c' ≠ p.cmp.boundsAbove c

/-- The side of a port that a predicate bounds, as it is recognized. -/
def Predicate.BoundsSide (above : Bool) (p : Predicate) (port : Port) : Prop :=
  ∃ c k, (difference p.lhs p.rhs).linearSingleVar = some (c, port, k) ∧ p.cmp.boundsAbove c = above

theorem Bounds.mem_tighten {b : Bounds ℝ} {cmp : Cmp} {c : ℚ} (hc : c ≠ 0) {port q : Port}
    {bound : ℝ} :
    (q ∈ (b.tighten (if c < 0 then cmp.flip else cmp) port bound).upper ↔
      q ∈ b.upper ∨ (cmp.boundsAbove c = true ∧ port = q)) ∧
    (q ∈ (b.tighten (if c < 0 then cmp.flip else cmp) port bound).lower ↔
      q ∈ b.lower ∨ (cmp.boundsAbove c = false ∧ port = q)) := by
  have hinsert : ∀ (m : PortMap ℝ) (v : ℝ), q ∈ m.insert port v ↔ q ∈ m ∨ port = q := by
    intro m v
    rw [Std.ExtTreeMap.mem_insert, Std.LawfulEqCmp.compare_eq_iff_eq, or_comm]
  rcases lt_or_gt_of_ne hc with hneg | hpos
  · rw [if_pos hneg]
    cases cmp with
    | lt => simp [Cmp.flip, tighten, Cmp.boundsAbove, hinsert, hneg.not_gt]
    | le => simp [Cmp.flip, tighten, Cmp.boundsAbove, hinsert, hneg.not_gt]
    | gt => simp [Cmp.flip, tighten, Cmp.boundsAbove, hinsert, hneg]
    | ge => simp [Cmp.flip, tighten, Cmp.boundsAbove, hinsert, hneg]
  · rw [if_neg hpos.not_gt]
    cases cmp with
    | lt => simp [tighten, Cmp.boundsAbove, hinsert, hpos]
    | le => simp [tighten, Cmp.boundsAbove, hinsert, hpos]
    | gt => simp [tighten, Cmp.boundsAbove, hinsert, hpos.not_gt]
    | ge => simp [tighten, Cmp.boundsAbove, hinsert, hpos.not_gt]

/-- The sides that a predicate adds. -/
theorem addPredicate_sides {b b' : Bounds ℝ} {p : Predicate}
    (h : addPredicate formatF64 b p = .ok b') (q : Port) :
    (q ∈ b'.upper ↔ q ∈ b.upper ∨ p.BoundsSide true q) ∧
      (q ∈ b'.lower ↔ q ∈ b.lower ∨ p.BoundsSide false q) := by
  unfold addPredicate at h
  split at h
  · cases h
  · rename_i c port k hlinear
    obtain rfl := Except.ok.inj h
    have hside : ∀ above, p.BoundsSide above q ↔ p.cmp.boundsAbove c = above ∧ port = q := by
      intro above
      constructor
      · rintro ⟨c', k', hlinear', habove⟩
        cases hlinear.symm.trans hlinear'
        exact ⟨habove, rfl⟩
      · rintro ⟨habove, rfl⟩
        exact ⟨c, k, hlinear, habove⟩
    rw [hside, hside]
    exact Bounds.mem_tighten (Expr.linearSingleVar_affine hlinear).1

theorem foldlM_addPredicate_sides (q : Port) : ∀ {predicates : List Predicate} {b b' : Bounds ℝ},
    predicates.foldlM (addPredicate formatF64) b = .ok b' →
    (q ∈ b'.upper ↔ q ∈ b.upper ∨ ∃ p ∈ predicates, p.BoundsSide true q) ∧
      (q ∈ b'.lower ↔ q ∈ b.lower ∨ ∃ p ∈ predicates, p.BoundsSide false q)
  | [], b, b', h => by
      obtain rfl := Except.ok.inj h
      simp
  | p :: predicates, b, b', h => by
      rw [List.foldlM_cons] at h
      obtain ⟨b₁, hb₁, h⟩ := Fallible.bind_eq_ok.mp h
      obtain ⟨hupper, hlower⟩ := foldlM_addPredicate_sides q h
      obtain ⟨hupper₁, hlower₁⟩ := addPredicate_sides hb₁ q
      rw [hupper, hlower, hupper₁, hlower₁]
      simp [or_assoc]

theorem succeeds_addPredicate {b : Bounds ℝ} {p : Predicate} :
    Fallible.Succeeds (addPredicate formatF64 b p) ↔ p.Recognized := by
  rw [← Expr.linearSingleVar_difference, addPredicate]
  rcases (difference p.lhs p.rhs).linearSingleVar with - | ⟨c, port, k⟩
  · refine iff_of_false (Fallible.not_succeeds_error _) ?_
    simp
  · exact iff_of_true ⟨_, rfl⟩ rfl

/-- A recognized predicate bounds its port on the side of its linear bound. -/
theorem Predicate.BoundedBy.boundsSide {p : Predicate} {c k : ℚ} {port : Port}
    (h : p.BoundedBy c port k) (hrec : p.Recognized) :
    p.BoundsSide (p.cmp.boundsAbove c) port := by
  obtain ⟨⟨c', port', k'⟩, hlinear⟩ :=
    Option.isSome_iff_exists.mp ((Expr.linearSingleVar_difference p).mpr hrec)
  obtain ⟨rfl, rfl, rfl⟩ := h.unique (Predicate.zeroed_of_isAffine (Expr.linearSingleVar_affine hlinear))
  exact ⟨c, k, hlinear, rfl⟩

theorem mem_ofBox {port : Port} : (port ∈ (Bounds.ofBox declaredBox).upper ↔ port ∈ declaredBox) ∧
    (port ∈ (Bounds.ofBox declaredBox).lower ↔ port ∈ declaredBox) :=
  ⟨Std.ExtTreeMap.mem_map, Std.ExtTreeMap.mem_map⟩

/-- Two-sided ports are bounded on both sides. -/
theorem bounded_of_twoSided {b : Bounds ℝ} {port : Port}
    (hlinear : ∀ p ∈ predicates, ∃ c port k, p.BoundedBy c port k)
    (hsides : TwoSided predicates declaredBox) (hrec : ∀ p ∈ predicates, p.Recognized)
    (hfold : predicates.foldlM (addPredicate formatF64) (Bounds.ofBox declaredBox) = .ok b)
    (hport : port ∈ b.lower ∨ port ∈ b.upper) : port ∈ b.lower ∧ port ∈ b.upper := by
  obtain ⟨hupper, hlower⟩ := foldlM_addPredicate_sides port hfold
  rw [mem_ofBox.1] at hupper
  rw [mem_ofBox.2] at hlower
  by_cases hdeclared : port ∈ declaredBox
  · exact ⟨hlower.mpr (Or.inl hdeclared), hupper.mpr (Or.inl hdeclared)⟩
  · obtain ⟨above, p, hp, hside⟩ : ∃ above, ∃ p ∈ predicates, p.BoundsSide above port := by
      rcases hport with h | h
      · exact ⟨false, (hlower.mp h).resolve_left hdeclared⟩
      · exact ⟨true, (hupper.mp h).resolve_left hdeclared⟩
    -- the recognized bound is the linear one, so another predicate has the other side
    obtain ⟨c, k, hrecognized, rfl⟩ := hside
    obtain ⟨c₀, port₀, k₀, hbounded⟩ := hlinear p hp
    obtain ⟨rfl, rfl, rfl⟩ := hbounded.unique
      (Predicate.zeroed_of_isAffine (Expr.linearSingleVar_affine hrecognized))
    obtain ⟨q, hq, c', k', hbounded', hother⟩ := (hsides p hp _ _ _ hbounded).resolve_left hdeclared
    have hsideP : ∃ p' ∈ predicates, p'.BoundsSide (p.cmp.boundsAbove c₀) port₀ :=
      ⟨p, hp, hbounded.boundsSide (hrec p hp)⟩
    have hsideQ : ∃ p' ∈ predicates, p'.BoundsSide (q.cmp.boundsAbove c') port₀ :=
      ⟨q, hq, hbounded'.boundsSide (hrec q hq)⟩
    rcases habove : p.cmp.boundsAbove c₀ with - | -
    · have habove' : q.cmp.boundsAbove c' = true := by
        rw [habove] at hother
        exact Bool.eq_true_of_not_eq_false hother
      rw [habove] at hsideP
      rw [habove'] at hsideQ
      exact ⟨hlower.mpr (Or.inr hsideP), hupper.mpr (Or.inr hsideQ)⟩
    · have habove' : q.cmp.boundsAbove c' = false := by
        rw [habove] at hother
        exact Bool.eq_false_of_not_eq_true hother
      rw [habove] at hsideP
      rw [habove'] at hsideQ
      exact ⟨hlower.mpr (Or.inr hsideQ), hupper.mpr (Or.inr hsideP)⟩

/-- **Refused predicates**: of linear predicates whose ports are two-sided, exactly
those are refused whose canonical sides are not a constant and a multiple of a port. -/
theorem predicateToBox_refuses_iff
    (hlinear : ∀ p ∈ predicates, ∃ c port k, p.BoundedBy c port k)
    (hsides : TwoSided predicates declaredBox) :
    (∀ text, predicateToBox formatF64 predicates declaredBox tags
        ≠ .error (.unboundablePredicate text)) ↔ ∀ p ∈ predicates, p.Recognized := by
  constructor
  · intro hnot p hp
    rcases hfold : predicates.foldlM (addPredicate formatF64) (Bounds.ofBox declaredBox) with e | b
    · obtain ⟨b, p', -, hp'⟩ := Fallible.foldlM_eq_error hfold
      obtain rfl := addPredicate_error hp'
      exact absurd (Fallible.bind_eq_error.mpr (Or.inl hfold)) (hnot _)
    · obtain ⟨b₁, hb₁⟩ := Fallible.foldlM_mem_ok hfold hp
      exact succeeds_addPredicate.mp hb₁
  · intro hrec text herror
    rcases Fallible.bind_eq_error.mp herror with hfold | ⟨b, hfold, herror⟩
    · obtain ⟨b, p, hp, hb⟩ := Fallible.foldlM_eq_error hfold
      obtain ⟨b', hb'⟩ := succeeds_addPredicate.mpr (hrec p hp)
      cases hb.symm.trans hb'
    rcases Fallible.bind_eq_error.mp herror with hbox | ⟨box, -, herror⟩
    · rcases boxOf_error hbox with ⟨port, heq, -⟩ | ⟨port, -, hport, hone⟩
      · cases heq
      · obtain ⟨hlower, hupper⟩ :=
          bounded_of_twoSided hlinear hsides hrec hfold (mem_keys_union.mp hport)
        exact hone.elim (absurd hlower) (absurd hupper)
    · cases herror

end Refusal

/-! ### A shifted port -/

/-- `x + 1 ≤ 5`. -/
def shifted : Predicate := ⟨.add [.var "x", .lit 1], .le, .lit 5⟩

theorem shifted_boundedBy : shifted.BoundedBy 1 "x" (-4) where
  lhs := ⟨trivial, trivial, trivial⟩
  rhs := trivial
  coeff := one_ne_zero
  zeroed inputs l r hl hr := by
    obtain ⟨u, v, hu, hv, rfl⟩ := Expr.eval_add_pair.mp hl
    obtain rfl := Except.ok.inj hv
    obtain rfl := Except.ok.inj hr
    refine ⟨u, (Expr.eval_var _).mp hu, ?_⟩
    push_cast
    ring

/-- `x < 5`, by linear arithmetic. -/
theorem belowFive_boundedBy : belowFive.BoundedBy 1 "x" (-5) where
  lhs := trivial
  rhs := trivial
  coeff := one_ne_zero
  zeroed inputs l r hl hr := by
    obtain rfl := Except.ok.inj hr
    refine ⟨l, (Expr.eval_var _).mp hl, ?_⟩
    push_cast
    ring

/-- The declared box has both sides of `x`. -/
theorem twoSided_zeroToTen {p : Predicate} {c k : ℚ} (h : p.BoundedBy c "x" k) :
    TwoSided [p] zeroToTen := by
  intro q hq c' port k' h'
  obtain rfl := List.mem_singleton.mp hq
  obtain ⟨-, rfl, -⟩ := h.unique h'.zeroed
  refine Or.inl (OrdMap.mem_iff_exists.mpr ⟨⟨0, 10⟩, ?_⟩)
  rw [zeroToTen, OrdMap.getElem?_ofFn, if_pos (List.mem_singleton_self _)]

theorem predicateToBox_refuses_iff_belowFive :
    (∀ text, predicateToBox (fun _ => "") [belowFive] zeroToTen ∅
        ≠ .error (.unboundablePredicate text)) ↔ ∀ p ∈ [belowFive], p.Recognized := by
  apply predicateToBox_refuses_iff _ (twoSided_zeroToTen belowFive_boundedBy)
  intro p hp
  rw [List.mem_singleton.mp hp]
  exact ⟨1, "x", -5, belowFive_boundedBy⟩

/-- In a declared box for `x`, the predicate `x + 1 ≤ 5` is refused. -/
theorem predicateToBox_shifted :
    (∀ p ∈ [shifted], ∃ c port k, p.BoundedBy c port k) ∧ TwoSided [shifted] zeroToTen ∧
      ∃ text, predicateToBox (fun _ => "") [shifted] zeroToTen ∅
        = .error (.unboundablePredicate text) := by
  have hnone : (difference shifted.lhs shifted.rhs).linearSingleVar = none := by decide +kernel
  refine ⟨?_, twoSided_zeroToTen shifted_boundedBy, shifted.canonicalString fun _ => "", ?_⟩
  · intro p hp
    rw [List.mem_singleton.mp hp]
    exact ⟨1, "x", -4, shifted_boundedBy⟩
  · apply Fallible.bind_eq_error.mpr
    left
    rw [List.foldlM_cons]
    apply Fallible.bind_eq_error.mpr
    left
    rw [addPredicate, hnone]

end Feldspar

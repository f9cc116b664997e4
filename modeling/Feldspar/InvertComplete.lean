/-
Feldspar/InvertComplete.lean

The converse of soundness: whether the inversion finds a given solution.

`Carries` is what the walk keeps at a solution: the other side has the value of the
node.  A step keeps it (`PeelStep.carries`) if no factor that is divided out is 0,
and if the root of an odd power is defined; and `powf` defines the roots of a
negative number for the exponents 1 and -1 only.  A new other side that evaluates
had an old one that evaluates (`PeelStep.acc_evaluates`), so an undefined root is
not made up for later.
-/
import Feldspar.PeelPath

set_option linter.unusedSectionVars false

namespace Feldspar

/-! ### Odd roots -/

/-- `powf` has the `n`-th root of `w`. -/
def RootDefined (n : ℚ) (w : ℝ) : Prop := n = 1 ∨ n = -1 ∨ 0 ≤ w

theorem zpow_cast {b : ℝ} {n : ℚ} (hint : ((n.num : ℤ) : ℚ) = n) : b ^ (n : ℝ) = b ^ n.num := by
  rw [← Real.rpow_intCast, ← Rat.cast_intCast, hint]

/-- Where the power is defined, its root is, or is not. -/
theorem powDefined_root_iff {b : ℝ} {n : ℚ} (hint : ((n.num : ℤ) : ℚ) = n) (hodd : Odd n.num)
    (hd : PowDefined b n) :
    PowDefined (b ^ (n : ℝ)) ((1 / n : ℚ) : ℝ) ↔ RootDefined n (b ^ (n : ℝ)) := by
  have hne : n ≠ 0 := by
    rintro rfl
    exact absurd hodd (by decide)
  constructor
  · rintro ⟨-, hneg⟩
    rcases le_or_gt 0 (b ^ (n : ℝ)) with hle | hlt
    · exact Or.inr (Or.inr hle)
    · -- an integer with an integer inverse
      obtain ⟨m, hm⟩ := hneg hlt
      have hmul : n.num * m = 1 := by
        have hinv : (n : ℝ) * ((1 / n : ℚ) : ℝ) = 1 := by
          rw [← Rat.cast_mul, mul_one_div_cancel hne, Rat.cast_one]
        rw [hm, ← hint] at hinv
        exact_mod_cast hinv
      rcases Int.eq_one_or_neg_one_of_mul_eq_one hmul with h | h
      · left
        rw [← hint, h]
        rfl
      · right
        left
        rw [← hint, h]
        rfl
  · have hzero : b ^ (n : ℝ) = 0 → 0 ≤ (n : ℝ) := by
      intro h
      rw [zpow_cast hint] at h
      apply hd.1
      by_contra hb
      exact zpow_ne_zero _ hb h
    rintro (rfl | rfl | hle)
    · exact ⟨fun _ => by norm_num, fun _ => ⟨1, by norm_num⟩⟩
    · refine ⟨fun h => ?_, fun _ => ⟨-1, by norm_num⟩⟩
      have := hzero h
      norm_num at this
    · refine ⟨fun h => ?_, fun h => absurd hle (not_le.mpr h)⟩
      rw [Rat.cast_div, Rat.cast_one]
      exact one_div_nonneg.mpr (hzero h)

/-- The defined root of an odd power. -/
theorem root_rpow {b : ℝ} {n : ℚ} (hint : ((n.num : ℤ) : ℚ) = n) (hodd : Odd n.num)
    (hd : PowDefined (b ^ (n : ℝ)) ((1 / n : ℚ) : ℝ)) :
    (b ^ (n : ℝ)) ^ ((1 / n : ℚ) : ℝ) = b := by
  have hne : n ≠ 0 := by
    rintro rfl
    exact absurd hodd (by decide)
  have hmul : (n : ℝ) * ((1 / n : ℚ) : ℝ) = 1 := by
    rw [← Rat.cast_mul, mul_one_div_cancel hne, Rat.cast_one]
  rcases le_or_gt 0 b with hb | hb
  · rw [← Real.rpow_mul hb, hmul, Real.rpow_one]
  · -- the power is negative, so the inverse of the exponent is an integer
    obtain ⟨m, hm⟩ := hd.2 (by rw [zpow_cast hint]; exact hodd.zpow_neg hb)
    have hunit : n.num * m = 1 := by
      rw [hm, ← hint] at hmul
      exact_mod_cast hmul
    rw [hm, zpow_cast hint, Real.rpow_intCast, ← zpow_mul, hunit, zpow_one]

/-! ### One step at a solution -/

section Carry

open Expr

variable {target : String} {node child : Expr} {s s₁ s' : Peeled} {inputs inputs' : PortMap ℝ}

/-- The other side at `inputs` has the value of the node at `inputs'`. -/
def Carries (inputs inputs' : PortMap ℝ) (node acc : Expr) : Prop :=
  ∃ w, node.eval inputs' = .ok w ∧ acc.eval inputs = .ok w

/-- Canonicalization keeps it. -/
theorem Carries.canonicalize {node acc : Expr} (h : Carries inputs inputs' node acc) :
    Carries inputs inputs' node acc.canonicalize := by
  obtain ⟨w, hnode, hacc⟩ := h
  exact ⟨w, hnode, canonicalize_eval inputs acc w hacc⟩

theorem carries_add {acc : Expr} {before after : List Expr}
    (hagree : ∀ e : Expr, e.countVar target = 0 → e.eval inputs' = e.eval inputs)
    (hothers : ∀ op ∈ before ++ after, op.countVar target = 0)
    (h : Carries inputs inputs' (.add (before ++ child :: after)) acc) :
    Carries inputs inputs' child (.add [acc, .neg (.add (before ++ after))]) := by
  obtain ⟨w, hnode, hacc⟩ := h
  obtain ⟨hops, hsum⟩ := eval_add_eq_ok.mp hnode
  have hchild := (hops child (by simp)).eval
  have hothersum : (Expr.add (before ++ after)).eval inputs
      = .ok ((before ++ after).map (Expr.value inputs)).sum := by
    rw [eval_add_eq_ok]
    refine ⟨fun op hop => ?_, rfl⟩
    obtain ⟨v, hv⟩ := hops op (by simp at hop ⊢; tauto)
    exact ⟨v, (hagree op (hothers op hop)).symm.trans hv⟩
  refine ⟨_, hchild, ?_⟩
  rw [eval_add_pair]
  refine ⟨w, _, hacc, eval_neg_eq_ok.mpr ⟨_, hothersum, rfl⟩, ?_⟩
  have hmap := congrArg List.sum (map_value_others hagree hothers)
  rw [← hmap, ← hsum]
  simp only [List.map_append, List.map_cons, List.sum_append, List.sum_cons]
  ring

theorem carries_mul {acc : Expr} {before after : List Expr}
    (hagree : ∀ e : Expr, e.countVar target = 0 → e.eval inputs' = e.eval inputs)
    (hothers : ∀ op ∈ before ++ after, op.countVar target = 0)
    (hne : ∀ op ∈ before ++ after, op.value inputs' ≠ 0)
    (h : Carries inputs inputs' (.mul (before ++ child :: after)) acc) :
    Carries inputs inputs' child (.mul [acc, .pow (.mul (before ++ after)) (.lit (-1))]) := by
  obtain ⟨w, hnode, hacc⟩ := h
  obtain ⟨hops, hprod⟩ := eval_mul_eq_ok.mp hnode
  have hchild := (hops child (by simp)).eval
  have hmap := congrArg List.prod (map_value_others hagree hothers)
  have hotherprod : (Expr.mul (before ++ after)).eval inputs
      = .ok ((before ++ after).map (Expr.value inputs')).prod := by
    rw [eval_mul_eq_ok, hmap]
    refine ⟨fun op hop => ?_, rfl⟩
    obtain ⟨v, hv⟩ := hops op (by simp at hop ⊢; tauto)
    exact ⟨v, (hagree op (hothers op hop)).symm.trans hv⟩
  have hprodne : ((before ++ after).map (Expr.value inputs')).prod ≠ 0 := by
    rw [Ne, List.prod_eq_zero_iff]
    intro hzero
    obtain ⟨op, hop, hvalue⟩ := List.mem_map.mp hzero
    exact hne op hop hvalue
  refine ⟨_, hchild, ?_⟩
  rw [eval_mul_pair]
  refine ⟨w, _, hacc, eval_pow_eq_ok.mpr ⟨_, _, hotherprod, rfl, ⟨?_, ?_⟩, rfl⟩, ?_⟩
  · exact fun hzero => absurd hzero hprodne
  · exact fun _ => ⟨-1, by norm_num⟩
  · rw [Rat.cast_neg, Rat.cast_one, Real.rpow_neg_one, ← hprod, eq_mul_inv_iff_mul_eq₀ hprodne]
    simp only [List.map_append, List.map_cons, List.prod_append, List.prod_cons]
    ring

/-- The root of an odd power is the base, where it is defined. -/
theorem carries_root {acc base : Expr} {n : ℚ} (hint : ((n.num : ℤ) : ℚ) = n) (hodd : Odd n.num)
    (hroot : RootDefined n ((Expr.pow base (.lit n)).value inputs'))
    (h : Carries inputs inputs' (.pow base (.lit n)) acc) :
    Carries inputs inputs' base (nthRoot acc n) := by
  obtain ⟨w, hnode, hacc⟩ := h
  rw [value_of_eval hnode] at hroot
  obtain ⟨b, x, hb, hx, hd, rfl⟩ := eval_pow_eq_ok.mp hnode
  obtain rfl := Except.ok.inj hx
  have hne : n ≠ 0 := by
    rintro rfl
    exact absurd hodd (by decide)
  have hdroot := (powDefined_root_iff hint hodd hd).mpr hroot
  refine ⟨b, hb, ?_⟩
  rw [nthRoot, if_neg hne, eval_pow_eq_ok]
  exact ⟨_, _, hacc, rfl, hdroot, root_rpow hint hodd hdroot⟩

/-- A power that is not even, and is taken off, is odd. -/
theorem odd_of_isOddInteger {n : ℚ} {base : Expr} (hodd : isOddInteger n = true)
    (heven : ¬ (Expr.pow base (.lit n)).IsEvenPower) : Odd n.num := by
  rw [isOddInteger, decide_eq_true_eq] at hodd
  rw [← Int.not_even_iff_odd]
  exact fun h => heven ⟨base, n, rfl, hodd.1, h⟩

theorem not_isEvenInteger {n : ℚ} {base : Expr}
    (heven : ¬ (Expr.pow base (.lit n)).IsEvenPower) : ¬ isEvenInteger n = true := by
  intro h
  have hden : n.den = 1 := by
    rw [isEvenInteger, decide_eq_true_eq] at h
    exact h.1
  exact heven ⟨base, n, rfl, hden, even_num_of_isEvenInteger h⟩

/-- Every factor that is divided out at the node is not 0. -/
def FactorsNonzero (target : String) (inputs' : PortMap ℝ) (node : Expr) : Prop :=
  ∀ operands, node = .mul operands →
    ∀ op ∈ operands, op.countVar target = 0 → op.value inputs' ≠ 0

/-- The root that is taken at the node is defined. -/
def NodeRootDefined (inputs' : PortMap ℝ) (node : Expr) : Prop :=
  ∀ base n, node = .pow base (.lit n) → RootDefined n (node.value inputs')

/-- One step at a solution. -/
theorem PeelStep.carries (h : PeelStep target node s child s₁) (hone : node.countVar target = 1)
    (hagree : ∀ e : Expr, e.countVar target = 0 → e.eval inputs' = e.eval inputs)
    (heven : ¬ node.IsEvenPower) (hfactors : FactorsNonzero target inputs' node)
    (hroot : NodeRootDefined inputs' node) (hcarries : Carries inputs inputs' node s.acc) :
    Carries inputs inputs' child s₁.acc := by
  cases h with
  | add hchild =>
      exact (carries_add hagree (countVar_others hchild hone).2 hcarries).canonicalize
  | mul hchild =>
      have hothers := (countVar_others hchild hone).2
      refine (carries_mul hagree hothers (fun op hop => ?_) hcarries).canonicalize
      exact hfactors _ rfl op (by simp at hop ⊢; tauto) (hothers op hop)
  | neg =>
      obtain ⟨w, hnode, hacc⟩ := hcarries
      obtain ⟨u, hu, rfl⟩ := eval_neg_eq_ok.mp hnode
      exact Carries.canonicalize ⟨u, hu, eval_neg_eq_ok.mpr ⟨-u, hacc, neg_neg u⟩⟩
  | odd hodd =>
      exact (carries_root (isInt_of_isOddInteger hodd) (odd_of_isOddInteger hodd heven)
        (hroot _ _ rfl) hcarries).canonicalize
  | even h _ => exact absurd h (not_isEvenInteger heven)
  | sqrt =>
      obtain ⟨w, hnode, hacc⟩ := hcarries
      obtain ⟨u, hu, hd, rfl⟩ := eval_unary_eq_ok.mp hnode
      refine Carries.canonicalize ⟨u, hu, eval_pow_eq_ok.mpr ⟨√u, 2, hacc, ?_, ⟨?_, ?_⟩, ?_⟩⟩
      · exact congrArg Except.ok (Rat.cast_ofNat 2)
      · exact fun _ => two_pos.le
      · exact fun _ => ⟨2, by norm_num⟩
      · rw [Real.rpow_two]
        exact Real.sq_sqrt hd
  | exp =>
      obtain ⟨w, hnode, hacc⟩ := hcarries
      obtain ⟨u, hu, -, rfl⟩ := eval_unary_eq_ok.mp hnode
      exact Carries.canonicalize
        ⟨u, hu, eval_unary_eq_ok.mpr ⟨_, hacc, Real.exp_pos u, Real.log_exp u⟩⟩
  | ln =>
      obtain ⟨w, hnode, hacc⟩ := hcarries
      obtain ⟨u, hu, hd, rfl⟩ := eval_unary_eq_ok.mp hnode
      exact Carries.canonicalize
        ⟨u, hu, eval_unary_eq_ok.mpr ⟨_, hacc, trivial, Real.exp_log hd⟩⟩

/-- Where the new other side evaluates, the old one does. -/
theorem PeelStep.acc_evaluates (h : PeelStep target node s child s₁) (hnode : Expr.Canonical node)
    (hacc : Expr.Canonical s.acc) (hone : node.countVar target = 1) (heven : ¬ node.IsEvenPower)
    (hev : s₁.acc.Evaluates inputs) : s.acc.Evaluates inputs := by
  have hsame : ∀ e : Expr, e.countVar target = 0 → e.eval inputs = e.eval inputs := fun _ _ => rfl
  cases h with
  | add hchild => exact (undoes_add hsame (countVar_others hchild hone).2 hnode hacc hev).acc_evaluates
  | mul hchild => exact (undoes_mul hsame (countVar_others hchild hone).2 hnode hacc hev).acc_evaluates
  | neg =>
      rw [Peeled.withAcc, canonicalize, hacc.canonicalize_eq] at hev
      exact evaluates_neg.mp hev
  | odd hodd =>
      rw [Peeled.withAcc, nthRoot, if_neg (ne_zero_of_isOddInteger hodd), canonicalize] at hev
      have hev := (evaluates_pow.mp hev).1
      rwa [hacc.canonicalize_eq] at hev
  | even h _ => exact absurd h (not_isEvenInteger heven)
  | sqrt =>
      rw [Peeled.withAcc, canonicalize] at hev
      have hev := (evaluates_pow.mp hev).1
      rwa [hacc.canonicalize_eq] at hev
  | exp =>
      rw [Peeled.withAcc, canonicalize] at hev
      have hev := (evaluates_unary.mp hev).1
      rwa [hacc.canonicalize_eq] at hev
  | ln =>
      rw [Peeled.withAcc, canonicalize] at hev
      have hev := (evaluates_unary.mp hev).1
      rwa [hacc.canonicalize_eq] at hev

/-- Where the new other side evaluates, the root was defined. -/
theorem PeelStep.rootDefined (h : PeelStep target node s child s₁) (hacc : Expr.Canonical s.acc)
    (heven : ¬ node.IsEvenPower) (hcarries : Carries inputs inputs' node s.acc)
    (hev : s₁.acc.Evaluates inputs) : NodeRootDefined inputs' node := by
  rintro base n rfl
  cases h with
  | odd hodd =>
      have hint := isInt_of_isOddInteger hodd
      rw [Peeled.withAcc, nthRoot, if_neg (ne_zero_of_isOddInteger hodd), canonicalize] at hev
      obtain ⟨-, -, hd⟩ := evaluates_pow.mp hev
      obtain ⟨w, hnode, haccval⟩ := hcarries
      rw [hacc.canonicalize_eq, value_of_eval haccval] at hd
      obtain ⟨b, x, hb, hx, hdb, rfl⟩ := eval_pow_eq_ok.mp hnode
      obtain rfl := Except.ok.inj hx
      rw [value_of_eval hnode]
      exact (powDefined_root_iff hint (odd_of_isOddInteger hodd heven) hdb).mp hd
  | even h _ => exact absurd h (not_isEvenInteger heven)

/-! ### The walk at a solution -/

theorem Peels.acc_evaluates (h : Peels target node s s') (hnode : Expr.Canonical node)
    (hacc : Expr.Canonical s.acc) (hone : node.countVar target = 1)
    (heven : ∀ e ∈ pathTo target node, ¬ e.IsEvenPower) (hev : s'.acc.Evaluates inputs) :
    s.acc.Evaluates inputs := by
  induction h with
  | done => exact hev
  | step hstep _ ih =>
      rw [hstep.path hone] at heven
      obtain ⟨hhere, hbelow⟩ := List.forall_mem_cons.mp heven
      exact hstep.acc_evaluates hnode hacc hone hhere
        (ih (hstep.canonical_child hnode) hstep.canonical_acc (hstep.countVar_child hone) hbelow hev)

/-- At a solution, the walk finds the target exactly where every root that it takes is
defined. -/
theorem Peels.complete_iff {t : ℝ} (h : Peels target node s s') (hnode : Expr.Canonical node)
    (hacc : Expr.Canonical s.acc) (hone : node.countVar target = 1)
    (hagree : ∀ e : Expr, e.countVar target = 0 → e.eval inputs' = e.eval inputs)
    (htarget : (Expr.var target).eval inputs' = .ok t)
    (heven : ∀ e ∈ pathTo target node, ¬ e.IsEvenPower)
    (hfactors : ∀ e ∈ pathTo target node, FactorsNonzero target inputs' e)
    (hcarries : Carries inputs inputs' node s.acc) :
    s'.acc.eval inputs = .ok t ↔ ∀ e ∈ pathTo target node, NodeRootDefined inputs' e := by
  induction h with
  | done =>
      obtain ⟨w, hw, haccval⟩ := hcarries
      obtain rfl := Except.ok.inj (htarget.symm.trans hw)
      exact iff_of_true haccval fun e he => absurd he List.not_mem_nil
  | step hstep hpeels ih =>
      rw [hstep.path hone] at heven hfactors ⊢
      obtain ⟨heven, hevens⟩ := List.forall_mem_cons.mp heven
      obtain ⟨hfactor, hfactors⟩ := List.forall_mem_cons.mp hfactors
      have hchild := hstep.canonical_child hnode
      have hone' := hstep.countVar_child hone
      rw [List.forall_mem_cons]
      constructor
      · intro hfinal
        have hev := hpeels.acc_evaluates hchild hstep.canonical_acc hone' hevens ⟨t, hfinal⟩
        have hroot := hstep.rootDefined hacc heven hcarries hev
        refine ⟨hroot, (ih hchild hstep.canonical_acc hone' hevens hfactors ?_).mp hfinal⟩
        exact hstep.carries hone hagree heven hfactor hroot hcarries
      · rintro ⟨hroot, hroots⟩
        refine (ih hchild hstep.canonical_acc hone' hevens hfactors ?_).mpr hroots
        exact hstep.carries hone hagree heven hfactor hroot hcarries

end Carry

/-! ### The inversion -/

section Invert

open Expr

variable {formatF64 : F64 ℚ → String} {lhs rhs : Expr} {target : String} {branch : Option Branch}
variable {inv : Inversion}

/-- **A solution is found**, of an equation without even powers above the target and
where no factor that is divided out is 0, exactly where every power above the target
has the exponent 1 or -1 or is not negative. -/
theorem invertFor_complete_iff (h : invertFor formatF64 lhs rhs target branch = .ok inv)
    (heven : ∀ node ∈ pathTo target (difference lhs rhs), ¬ node.IsEvenPower)
    {inputs : PortMap ℝ} {t v : ℝ} (hl : lhs.eval (inputs.insert target t) = .ok v)
    (hr : rhs.eval (inputs.insert target t) = .ok v)
    (hfactors : ∀ node ∈ pathTo target (difference lhs rhs),
      FactorsNonzero target (inputs.insert target t) node) :
    inv.rhs.eval inputs = .ok t ↔ ∀ node ∈ pathTo target (difference lhs rhs),
      NodeRootDefined (inputs.insert target t) node := by
  obtain ⟨hone, s, hpeels, hrhs, -, -⟩ := invertFor_ok h
  rw [hrhs]
  apply hpeels.complete_iff (canonical_canonicalize _) (.lit 0) hone
    (fun e he => eval_insert_of_countVar he inputs t) ((eval_var target).mpr (by simp)) heven hfactors
  refine ⟨0, ?_, congrArg Except.ok Rat.cast_zero⟩
  rw [eval_difference hl hr, sub_self]

/-! ### A cube -/

/-- `x^3`. -/
def cube : Expr := .pow (.var "x") (.lit 3)

/-- The valuation with the one port `y`. -/
noncomputable def onlyY (y : ℝ) : PortMap ℝ := OrdMap.ofFn ["y"] fun _ => y

/-- The inversion of `x^3 = y`, and its path. -/
theorem invertFor_cube :
    (invertFor (fun _ => "") cube (.var "y") "x" none).toOption.map Inversion.rhs
      = some (.pow (.neg (.neg (.var "y"))) (.lit (1 / 3))) ∧
    pathTo "x" (difference cube (.var "y")) = [.add [.neg (.var "y"), cube], cube] := by
  decide +kernel

theorem eval_cube (y t : ℝ) : cube.eval ((onlyY y).insert "x" t) = .ok (t ^ 3) := by
  rw [cube, eval_pow_eq_ok]
  refine ⟨t, 3, (eval_var "x").mpr (by simp), congrArg Except.ok (Rat.cast_ofNat 3), ⟨?_, ?_⟩, ?_⟩
  · exact fun _ => by norm_num
  · exact fun _ => ⟨3, by norm_num⟩
  · exact Real.rpow_ofNat t 3

theorem eval_y (y t : ℝ) : (Expr.var "y").eval ((onlyY y).insert "x" t) = .ok y := by
  rw [eval_var, OrdMap.getElem?_insert_eq, if_neg (by decide), onlyY, OrdMap.getElem?_ofFn,
    if_pos (List.mem_singleton_self _)]

/-- No even power and no product is on the path of the cube. -/
theorem path_cube (y t : ℝ) :
    (∀ node ∈ pathTo "x" (difference cube (.var "y")), ¬ node.IsEvenPower) ∧
      ∀ node ∈ pathTo "x" (difference cube (.var "y")),
        FactorsNonzero "x" ((onlyY y).insert "x" t) node := by
  rw [invertFor_cube.2]
  constructor
  · intro node hnode
    rcases List.mem_cons.mp hnode with rfl | hnode
    · rintro ⟨base, n, heq, -⟩
      cases heq
    · obtain rfl := List.mem_singleton.mp hnode
      rintro ⟨base, n, heq, -, heven⟩
      cases heq
      exact absurd heven (by decide)
  · intro node hnode operands heq
    rcases List.mem_cons.mp hnode with rfl | hnode
    · cases heq
    · obtain rfl := List.mem_singleton.mp hnode
      cases heq

/-- The solution `x = 2` of `x^3 = 8` is found. -/
theorem invertFor_complete_iff_cube :
    ∃ inv, invertFor (fun _ => "") cube (.var "y") "x" none = .ok inv ∧
      inv.rhs.eval (onlyY 8) = .ok 2 := by
  obtain ⟨inv, hinv, -⟩ := Option.map_eq_some_iff.mp invertFor_cube.1
  have hok := Fallible.eq_ok_of_toOption hinv
  have height : (2 : ℝ) ^ 3 = 8 := by norm_num
  refine ⟨inv, hok, ?_⟩
  apply (invertFor_complete_iff hok (path_cube 8 2).1 (height ▸ eval_cube 8 2) (eval_y 8 2)
    (path_cube 8 2).2).mpr
  rw [invertFor_cube.2]
  intro node hnode base n heq
  rcases List.mem_cons.mp hnode with rfl | hnode
  · cases heq
  · obtain rfl := List.mem_singleton.mp hnode
    rw [value_of_eval (eval_cube 8 2)]
    exact Or.inr (Or.inr (by norm_num))

/-- The solution `x = -2` of `x^3 = -8` is not. -/
theorem invertFor_cube_negative :
    ∃ inv, invertFor (fun _ => "") cube (.var "y") "x" none = .ok inv ∧
      (∀ node ∈ pathTo "x" (difference cube (.var "y")), ¬ node.IsEvenPower) ∧
      cube.eval ((onlyY (-8)).insert "x" (-2)) = .ok (-8) ∧
      (Expr.var "y").eval ((onlyY (-8)).insert "x" (-2)) = .ok (-8) ∧
      (∀ node ∈ pathTo "x" (difference cube (.var "y")),
        FactorsNonzero "x" ((onlyY (-8)).insert "x" (-2)) node) ∧
      inv.rhs.eval (onlyY (-8)) ≠ .ok (-2) := by
  obtain ⟨inv, hinv, hrhs⟩ := Option.map_eq_some_iff.mp invertFor_cube.1
  have height : (-2 : ℝ) ^ 3 = -8 := by norm_num
  refine ⟨inv, Fallible.eq_ok_of_toOption hinv, (path_cube (-8) (-2)).1,
    height ▸ eval_cube (-8) (-2), eval_y (-8) (-2), (path_cube (-8) (-2)).2, ?_⟩
  rw [hrhs, Ne, eval_pow_eq_ok]
  rintro ⟨b, x, hb, hx, hd, -⟩
  obtain ⟨u, hu, rfl⟩ := eval_neg_eq_ok.mp hb
  obtain ⟨v, hv, rfl⟩ := eval_neg_eq_ok.mp hu
  obtain rfl := Except.ok.inj hx
  rw [eval_var, onlyY, OrdMap.getElem?_ofFn, if_pos (List.mem_singleton_self _)] at hv
  obtain rfl := Option.some.inj hv
  -- the exponent is not an integer
  obtain ⟨m, hm⟩ := hd.2 (by norm_num)
  have hthree : (3 : ℝ) * m = 1 := by
    rw [← hm]
    norm_num
  have hint : (3 : ℤ) * m = 1 := by exact_mod_cast hthree
  omega

end Invert

end Feldspar

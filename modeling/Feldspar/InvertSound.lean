/-
Feldspar/InvertSound.lean

An inversion solves its equation.

`PeelStep.undo` is the soundness of one step of the peel: where the new other
side evaluates, so does the old one, and if the child has the value of the new
one, the node has the value of the old one.  `Peels.sound` is the walk.

A power with the literal exponent 0 forgets its base, so it cannot be undone.
`readZeroth` reads such a power above the target as 1; if there is one, the
target drops out, and the equation holds or not whatever the target is
(`invertFor_sound_iff`).
-/
import Feldspar.Invert

set_option linter.unusedSectionVars false

namespace Feldspar

namespace Expr

/-! ### Occurrences -/

theorem countVars_append (target : String) (as bs : List Expr) :
    countVars target (as ++ bs) = countVars target as + countVars target bs := by
  induction as with
  | nil => simp [countVars]
  | cons a as ih => simp [countVars, ih, Nat.add_assoc]

theorem countVars_eq_zero {target : String} {operands : List Expr} :
    countVars target operands = 0 ↔ ∀ op ∈ operands, countVar target op = 0 := by
  induction operands with
  | nil => simp [countVars]
  | cons op operands ih => simp [countVars, ih]

/-- Where the target does not occur, its value does not matter. -/
theorem eval_insert_of_countVar {target : String} {e : Expr} (h : e.countVar target = 0)
    (inputs : PortMap ℝ) (t : ℝ) : e.eval (inputs.insert target t) = e.eval inputs := by
  have hall : ∀ operands : List Expr,
      (∀ op ∈ operands, op.countVar target = 0 →
        op.eval (inputs.insert target t) = op.eval inputs) →
      countVars target operands = 0 →
      evalAll (inputs.insert target t) operands = evalAll inputs operands := by
    intro operands ih hc
    induction operands with
    | nil => rfl
    | cons op operands ihops =>
        rw [countVars, Nat.add_eq_zero_iff] at hc
        rw [evalAll, evalAll, ih op List.mem_cons_self hc.1,
          ihops (fun op' hop => ih op' (List.mem_cons_of_mem _ hop)) hc.2]
  induction e using ind with
  | var name =>
      have hne : target ≠ name := by
        rintro rfl
        simp [countVar] at h
      rw [eval, eval, OrdMap.getElem?_insert_eq, if_neg hne]
  | lit x => rfl
  | neg e ih => rw [eval, eval, ih h]
  | add operands ih => rw [eval, eval, hall operands ih h]
  | mul operands ih => rw [eval, eval, hall operands ih h]
  | pow base exp ihb ihx =>
      rw [countVar, Nat.add_eq_zero_iff] at h
      rw [eval, eval, ihb h.1, ihx h.2]
  | powInf base ih => rw [eval, eval, ih h]
  | unary f e ih => rw [eval, eval, ih h]

mutual

/-- The expression with its zeroth powers above the target read as 1. -/
def readZeroth (target : String) : Expr → Expr
  | var name => var name
  | lit x => lit x
  | neg e => neg (readZeroth target e)
  | add operands => add (readZeroths target operands)
  | mul operands => mul (readZeroths target operands)
  | pow base exp =>
      if exp.lit? = some 0 ∧ 0 < base.countVar target then lit 1
      else pow (readZeroth target base) exp
  | powInf base => powInf base
  | unary f e => unary f (readZeroth target e)

def readZeroths (target : String) : List Expr → List Expr
  | [] => []
  | op :: operands => readZeroth target op :: readZeroths target operands

end

theorem readZeroths_eq_map (target : String) (operands : List Expr) :
    readZeroths target operands = operands.map (readZeroth target) := by
  induction operands with
  | nil => rfl
  | cons op operands ih => rw [readZeroths, ih, List.map_cons]

theorem countVar_readZeroth_le (target : String) (e : Expr) :
    (readZeroth target e).countVar target ≤ e.countVar target := by
  have hall : ∀ operands : List Expr,
      (∀ op ∈ operands, (readZeroth target op).countVar target ≤ op.countVar target) →
      countVars target (readZeroths target operands) ≤ countVars target operands := by
    intro operands ih
    induction operands with
    | nil => exact le_rfl
    | cons op operands ihops =>
        exact Nat.add_le_add (ih op List.mem_cons_self)
          (ihops fun op' hop => ih op' (List.mem_cons_of_mem _ hop))
  induction e using ind with
  | var name => exact le_rfl
  | lit x => exact le_rfl
  | neg e ih => exact ih
  | add operands ih => exact hall operands ih
  | mul operands ih => exact hall operands ih
  | pow base exp ihb _ =>
      rw [readZeroth]
      split
      · exact Nat.zero_le _
      · exact Nat.add_le_add_right ihb _
  | powInf base _ => exact le_rfl
  | unary f e ih => exact ih

/-- A zeroth power is 1, wherever its base evaluates. -/
theorem eval_readZeroth (target : String) (inputs : PortMap ℝ) {e : Expr} {v : ℝ}
    (h : e.eval inputs = .ok v) : (readZeroth target e).eval inputs = .ok v := by
  have hall : ∀ operands : List Expr,
      (∀ op ∈ operands, ∀ v, op.eval inputs = .ok v →
        (readZeroth target op).eval inputs = .ok v) →
      (∀ op ∈ operands, Evaluates inputs op) →
      (∀ op ∈ readZeroths target operands, Evaluates inputs op) ∧
        (readZeroths target operands).map (value inputs) = operands.map (value inputs) := by
    intro operands ih hops
    rw [readZeroths_eq_map, List.map_map]
    refine ⟨?_, List.map_congr_left fun op hop => (eval_eq_ok.mp (ih op hop _ (hops op hop).eval)).2⟩
    intro op' hop'
    obtain ⟨op, hop, rfl⟩ := List.mem_map.mp hop'
    exact ⟨_, ih op hop _ (hops op hop).eval⟩
  induction e using ind generalizing v with
  | var name => exact h
  | lit x => exact h
  | neg e ih =>
      obtain ⟨w, hw, rfl⟩ := eval_neg_eq_ok.mp h
      exact eval_neg_eq_ok.mpr ⟨w, ih hw, rfl⟩
  | add operands ih =>
      obtain ⟨hops, rfl⟩ := eval_add_eq_ok.mp h
      obtain ⟨hev, hmap⟩ := hall operands (fun op hop v => ih op hop) hops
      exact eval_add_eq_ok.mpr ⟨hev, by rw [hmap]⟩
  | mul operands ih =>
      obtain ⟨hops, rfl⟩ := eval_mul_eq_ok.mp h
      obtain ⟨hev, hmap⟩ := hall operands (fun op hop v => ih op hop) hops
      exact eval_mul_eq_ok.mpr ⟨hev, by rw [hmap]⟩
  | pow base exp ihb ihx =>
      obtain ⟨b, x, hb, hx, hd, rfl⟩ := eval_pow_eq_ok.mp h
      rw [readZeroth]
      split_ifs with hz
      · obtain rfl := lit?_eq_some.mp hz.1
        obtain rfl := Except.ok.inj (show Except.ok ((0 : ℚ) : ℝ) = .ok x from hx)
        rw [Rat.cast_zero, Real.rpow_zero]
        exact congrArg Except.ok Rat.cast_one
      · exact eval_pow_eq_ok.mpr ⟨b, x, ihb hb, hx, hd, rfl⟩
  | powInf base _ => exact h
  | unary f e ih =>
      obtain ⟨w, hw, hd, rfl⟩ := eval_unary_eq_ok.mp h
      exact eval_unary_eq_ok.mpr ⟨w, ih hw, hd, rfl⟩

end Expr

/-! ### The walk -/

section Walk

open Expr

variable {target : String}

variable (target) in
/-- One step of the peel: from a node and what was carried to it, to the child
with the target and what is carried on. -/
inductive PeelStep : Expr → Peeled → Expr → Peeled → Prop
  | add {before after : List Expr} {child : Expr} {s : Peeled} : 0 < child.countVar target →
      PeelStep (.add (before ++ child :: after)) s child (s.peelAdd (before ++ after))
  | mul {before after : List Expr} {child : Expr} {s : Peeled} : 0 < child.countVar target →
      PeelStep (.mul (before ++ child :: after)) s child (s.peelMul (before ++ after))
  | neg {inner : Expr} {s : Peeled} : PeelStep (.neg inner) s inner (s.withAcc (.neg s.acc))
  | odd {base : Expr} {n : ℚ} {s : Peeled} : isOddInteger n = true →
      PeelStep (.pow base (.lit n)) s base ((s.take .principal).withAcc (nthRoot s.acc n))
  | even {base : Expr} {n : ℚ} {s s' : Peeled} : isEvenInteger n = true →
      s.peelEven target n = .ok s' → PeelStep (.pow base (.lit n)) s base s'
  | sqrt {inner : Expr} {s : Peeled} : PeelStep (.unary .sqrt inner) s inner
      (((s.pushPredicate .ge).take .principal).withAcc (.pow s.acc (.lit 2)))
  | exp {inner : Expr} {s : Peeled} : PeelStep (.unary .exp inner) s inner
      (((s.pushPredicate .gt).take .principal).withAcc (.unary .ln s.acc))
  | ln {inner : Expr} {s : Peeled} : PeelStep (.unary .ln inner) s inner
      ((s.take .principal).withAcc (.unary .exp s.acc))

variable (target) in
/-- The walk to the target. -/
inductive Peels : Expr → Peeled → Peeled → Prop
  | done {s : Peeled} : Peels (.var target) s s
  | step {node child : Expr} {s s₁ s' : Peeled} : PeelStep target node s child s₁ →
      Peels child s₁ s' → Peels node s s'

theorem peelAmong_ok {off : List Expr → Peeled} : ∀ {operands before : List Expr} {s' : Peeled},
    peelAmong target off before operands = .ok s' →
    ∃ skipped child after, operands = skipped ++ child :: after ∧ 0 < child.countVar target ∧
      peel target child (off (before ++ skipped ++ after)) = .ok s'
  | [], _, _, h => by cases h
  | op :: operands, before, s', h => by
      rw [peelAmong] at h
      split_ifs at h with hop
      · exact ⟨[], op, operands, rfl, hop, by simpa using h⟩
      · obtain ⟨skipped, child, after, rfl, hchild, hpeel⟩ := peelAmong_ok h
        exact ⟨op :: skipped, child, after, rfl, hchild, by simpa using hpeel⟩

/-- The walk that `peel` takes. -/
theorem peels_of_peel {node : Expr} {s s' : Peeled} (h : peel target node s = .ok s') :
    Peels target node s s' := by
  induction node using ind generalizing s with
  | var name =>
      rw [peel] at h
      split_ifs at h with hname
      cases h
      exact hname ▸ .done
  | lit x => cases h
  | neg inner ih => exact .step .neg (ih h)
  | add operands ih =>
      obtain ⟨skipped, child, after, rfl, hchild, hpeel⟩ := peelAmong_ok h
      exact .step (.add hchild) (ih child (by simp) hpeel)
  | mul operands ih =>
      obtain ⟨skipped, child, after, rfl, hchild, hpeel⟩ := peelAmong_ok h
      exact .step (.mul hchild) (ih child (by simp) hpeel)
  | pow base exp ihb _ =>
      rw [peel] at h
      split_ifs at h
      · cases h
      · rcases hn : exp.lit? with - | n <;> simp only [hn] at h
        · cases h
        obtain rfl := lit?_eq_some.mp hn
        split_ifs at h with hodd heven
        · exact .step (.odd hodd) (ihb h)
        · rcases hs : s.peelEven target n with e | s₁ <;> simp only [hs] at h
          · cases h
          · exact .step (.even heven hs) (ihb h)
        · cases h
  | powInf base _ =>
      rw [peel] at h
      split_ifs at h
      all_goals cases h
  | unary f inner ih =>
      cases f with
      | sqrt => exact .step .sqrt (ih h)
      | exp => exact .step .exp (ih h)
      | ln => exact .step .ln (ih h)
      | sin => cases h
      | cos => cases h

/-! ### What a step keeps -/

variable {node child : Expr} {s s₁ s' : Peeled}

@[simp] theorem Peeled.admission_withAcc (s : Peeled) (acc : Expr) :
    (s.withAcc acc).admission = s.admission := rfl

@[simp] theorem Peeled.admission_take (s : Peeled) (branch : Branch) :
    (s.take branch).admission = s.admission := rfl

/-- The two roots of an even power. -/
theorem peelEven_ok {n : ℚ} (h : s.peelEven target n = .ok s₁) :
    s₁.admission = s.admission ∧ (s₁.acc = (nthRoot s.acc n).canonicalize ∨
      s₁.acc = (Expr.neg (nthRoot s.acc n).canonicalize).canonicalize) := by
  unfold Peeled.peelEven at h
  split at h
  · cases h
  · cases h
    exact ⟨rfl, Or.inl rfl⟩
  · cases h
    exact ⟨rfl, Or.inr rfl⟩
  · cases h

theorem PeelStep.admission_subset (h : PeelStep target node s child s₁) :
    s.admission ⊆ s₁.admission := by
  cases h with
  | even _ heven => exact (peelEven_ok heven).1 ▸ fun p hp => hp
  | sqrt => exact List.subset_append_left _ _
  | exp => exact List.subset_append_left _ _
  | _ => exact fun p hp => hp

theorem Peels.admission_subset (h : Peels target node s s') : s.admission ⊆ s'.admission := by
  induction h with
  | done => exact fun p hp => hp
  | step hstep _ ih => exact fun p hp => ih (hstep.admission_subset hp)

theorem PeelStep.canonical_acc (h : PeelStep target node s child s₁) : Expr.Canonical s₁.acc := by
  cases h with
  | even _ heven =>
      rcases (peelEven_ok heven).2 with heq | heq <;> rw [heq] <;>
        exact canonical_canonicalize _
  | _ => exact canonical_canonicalize _

theorem PeelStep.canonical_child (h : PeelStep target node s child s₁) (hnode : Expr.Canonical node) :
    Expr.Canonical child := by
  cases h with
  | add _ =>
      cases hnode with
      | add hops _ => exact hops _ (by simp)
  | mul _ =>
      cases hnode with
      | mul hops _ _ => exact hops _ (by simp)
  | neg => cases hnode; assumption
  | odd _ => cases hnode; assumption
  | even _ _ => cases hnode; assumption
  | sqrt => cases hnode; assumption
  | exp => cases hnode; assumption
  | ln => cases hnode; assumption

/-- The other operands do not have the target. -/
theorem countVar_others {before after : List Expr} (hchild : 0 < child.countVar target)
    (hone : countVars target (before ++ child :: after) = 1) :
    child.countVar target = 1 ∧ ∀ op ∈ before ++ after, op.countVar target = 0 := by
  rw [countVars_append, countVars] at hone
  refine ⟨by omega, countVars_eq_zero.mp ?_⟩
  rw [countVars_append]
  omega

theorem PeelStep.countVar_child (h : PeelStep target node s child s₁)
    (hone : node.countVar target = 1) : child.countVar target = 1 := by
  cases h with
  | add hchild => exact (countVar_others hchild hone).1
  | mul hchild => exact (countVar_others hchild hone).1
  | _ => exact hone

theorem countVars_readZeroths_pos {before after : List Expr} (hchild : 0 < child.countVar target)
    (hone : countVars target (before ++ child :: after) = 1)
    (hread : 0 < countVars target (readZeroths target (before ++ child :: after))) :
    0 < (readZeroth target child).countVar target := by
  have hothers := (countVar_others hchild hone).2
  have hzero : ∀ operands : List Expr, (∀ op ∈ operands, op.countVar target = 0) →
      countVars target (readZeroths target operands) = 0 := by
    intro operands hops
    rw [readZeroths_eq_map, countVars_eq_zero]
    intro op' hop'
    obtain ⟨op, hop, rfl⟩ := List.mem_map.mp hop'
    exact Nat.le_zero.mp ((countVar_readZeroth_le target op).trans (hops op hop).le)
  rw [readZeroths_eq_map, List.map_append, List.map_cons, countVars_append, countVars,
    ← readZeroths_eq_map, ← readZeroths_eq_map,
    hzero before fun op hop => hothers op (List.mem_append_left _ hop),
    hzero after fun op hop => hothers op (List.mem_append_right _ hop)] at hread
  omega

/-- Below a node without a zeroth power above the target there is none
either. -/
theorem PeelStep.readZeroth_child (h : PeelStep target node s child s₁)
    (hone : node.countVar target = 1) (hread : 0 < (readZeroth target node).countVar target) :
    0 < (readZeroth target child).countVar target := by
  cases h with
  | add hchild => exact countVars_readZeroths_pos hchild hone hread
  | mul hchild => exact countVars_readZeroths_pos hchild hone hread
  | odd _ =>
      rw [readZeroth] at hread
      split_ifs at hread
      · cases hread
      · exact hread
  | even _ _ =>
      rw [readZeroth] at hread
      split_ifs at hread
      · cases hread
      · exact hread
  | _ => exact hread

/-- The exponent of a step is not 0. -/
theorem exponent_ne_zero {base : Expr} {n : ℚ} (hone : (Expr.pow base (.lit n)).countVar target = 1)
    (hread : 0 < (readZeroth target (.pow base (.lit n))).countVar target) : n ≠ 0 := by
  rintro rfl
  have hbase : base.countVar target = 1 := hone
  rw [readZeroth, if_pos ⟨rfl, hbase ▸ one_pos⟩] at hread
  cases hread

end Walk

/-! ### Roots -/

theorem isInt_of_den {n : ℚ} (h : n.den = 1) : ((n.num : ℤ) : ℚ) = n := by
  rw [← Rat.num_div_den n, h]
  simp

theorem ne_zero_of_isOddInteger {n : ℚ} (h : isOddInteger n = true) : n ≠ 0 := by
  rintro rfl
  exact absurd h (by decide)

theorem isInt_of_isOddInteger {n : ℚ} (h : isOddInteger n = true) : ((n.num : ℤ) : ℚ) = n := by
  rw [isOddInteger, decide_eq_true_eq] at h
  exact isInt_of_den h.1

theorem isInt_of_isEvenInteger {n : ℚ} (h : isEvenInteger n = true) : ((n.num : ℤ) : ℚ) = n := by
  rw [isEvenInteger, decide_eq_true_eq] at h
  exact isInt_of_den h.1

theorem even_num_of_isEvenInteger {n : ℚ} (h : isEvenInteger n = true) : Even n.num := by
  rw [isEvenInteger, decide_eq_true_eq, asI64] at h
  rw [Int.even_iff]
  rcases le_total (2 ^ 63 - 1) n.num with hle | hle
  · -- the saturated cast is odd
    rw [min_eq_left hle] at h
    omega
  · rw [min_eq_right hle] at h
    exact h.2

/-- The `n`-th power of a defined `n`-th root. -/
theorem rpow_root {a : ℝ} {n : ℚ} (hint : ((n.num : ℤ) : ℚ) = n) (hne : n ≠ 0)
    (hd : PowDefined a ((1 / n : ℚ) : ℝ)) : (a ^ ((1 / n : ℚ) : ℝ)) ^ ((n : ℚ) : ℝ) = a := by
  have hmul : ((1 / n : ℚ) : ℝ) * (n : ℝ) = 1 := by
    rw [← Rat.cast_mul, one_div_mul_cancel hne, Rat.cast_one]
  rcases le_or_gt 0 a with ha | ha
  · rw [← Real.rpow_mul ha, hmul, Real.rpow_one]
  · -- of a negative number only the exponents 1 and -1 have a root
    obtain ⟨m, hm⟩ := hd.2 ha
    have hcast : (n : ℝ) = (n.num : ℝ) := by rw [← Rat.cast_intCast, hint]
    have hunit : m * n.num = 1 := by
      rw [hm, hcast] at hmul
      exact_mod_cast hmul
    rw [hm, hcast, Real.rpow_intCast, Real.rpow_intCast, ← zpow_mul, hunit, zpow_one]

/-- An even power forgets a sign. -/
theorem neg_rpow_even {b : ℝ} {n : ℚ} (heven : isEvenInteger n = true) :
    (-b) ^ ((n : ℚ) : ℝ) = b ^ ((n : ℚ) : ℝ) := by
  have hcast : (n : ℝ) = (n.num : ℝ) := by
    rw [← Rat.cast_intCast, isInt_of_isEvenInteger heven]
  rw [hcast, Real.rpow_intCast, Real.rpow_intCast, (even_num_of_isEvenInteger heven).neg_zpow]

/-! ### Undoing a step -/

section Undo

open Expr

variable {target : String} {node child : Expr} {s s₁ s' : Peeled} {inputs inputs' : PortMap ℝ}

/-- The step can be undone at `inputs`: where the new other side evaluates, so
does the old one, and if the child at `inputs'` has the value of the new one,
the node has the value of the old one. -/
structure Undoes (inputs inputs' : PortMap ℝ) (node acc child acc₁ : Expr) : Prop where
  acc_evaluates : acc.Evaluates inputs
  child_evaluates : node.Evaluates inputs' → child.Evaluates inputs'
  value_eq : node.Evaluates inputs' → child.value inputs' = acc₁.value inputs →
    node.value inputs' = acc.value inputs

/-- The other operands have the same values at both inputs. -/
theorem map_value_others {operands : List Expr}
    (hagree : ∀ e : Expr, e.countVar target = 0 → e.eval inputs' = e.eval inputs)
    (hothers : ∀ op ∈ operands, op.countVar target = 0) :
    operands.map (Expr.value inputs') = operands.map (Expr.value inputs) := by
  refine List.map_congr_left fun op hop => ?_
  rw [Expr.value, Expr.value, hagree op (hothers op hop)]

theorem canonicalizeAll_eq_self {operands : List Expr} (h : ∀ op ∈ operands, Expr.Canonical op) :
    canonicalizeAll operands = operands := by
  rw [canonicalizeAll_eq_map, List.map_congr_left fun op hop => (h op hop).canonicalize_eq,
    List.map_id']

theorem undoes_add {acc : Expr} {before after : List Expr}
    (hagree : ∀ e : Expr, e.countVar target = 0 → e.eval inputs' = e.eval inputs)
    (hothers : ∀ op ∈ before ++ after, op.countVar target = 0)
    (hnode : Expr.Canonical (.add (before ++ child :: after))) (hacc : Expr.Canonical acc)
    (hev : (Expr.add [acc, .neg (.add (before ++ after))]).canonicalize.Evaluates inputs) :
    Undoes inputs inputs' (.add (before ++ child :: after)) acc child
      (Expr.add [acc, .neg (.add (before ++ after))]).canonicalize := by
  have hops : ∀ op ∈ before ++ after, Expr.Canonical op := by
    cases hnode with
    | add hops _ => exact fun op hop => hops op (by simp at hop ⊢; tauto)
  have hcanon : (Expr.add [acc, .neg (.add (before ++ after))]).canonicalize
      = canonAdd [acc, .neg (canonAdd (before ++ after))] := by
    simp only [canonicalize, canonicalizeAll, hacc.canonicalize_eq, canonicalizeAll_eq_self hops]
  rw [hcanon, evaluates_canonAdd] at hev
  have hevacc : acc.Evaluates inputs := hev acc (by simp)
  have hevsum : (canonAdd (before ++ after)).Evaluates inputs :=
    evaluates_neg.mp (hev _ (by simp))
  have hevops := evaluates_canonAdd.mp hevsum
  refine ⟨hevacc, fun h => evaluates_add.mp h child (by simp), fun h hchild => ?_⟩
  rw [hcanon, value_canonAdd hev] at hchild
  have hsum := map_value_others hagree hothers
  rw [List.map_append, List.map_append] at hsum
  have hsum' := congrArg List.sum hsum
  rw [List.sum_append, List.sum_append] at hsum'
  rw [value_add (evaluates_add.mp h), List.map_append, List.map_cons, List.sum_append,
    List.sum_cons, hchild]
  simp only [List.map_cons, List.map_nil, List.sum_cons, List.sum_nil, value_neg,
    value_canonAdd hevops, List.map_append, List.sum_append]
  linarith

/-- A canonical other side has a literal factor 0 only when it is 0. -/
theorem eq_zero_of_collapses {acc e : Expr} (hacc : Expr.Canonical acc)
    (h : Collapses [acc, .pow e (.lit (-1))]) : acc = .lit 0 := by
  have hprod : (lits (factors acc)).prod = 0 := by
    have : lits (factors acc ++ [Expr.pow e (.lit (-1))]) = lits (factors acc) := by
      rw [lits_append]
      exact List.append_nil _
    rw [← this]
    exact h
  cases hacc with
  | lit x => simpa [factors, lits, lit?] using hprod
  | mul _ _ hzero => exact absurd (List.prod_eq_zero_iff.mp hprod) hzero
  | _ => exact absurd hprod one_ne_zero

/-- The other factors are not 0, and do not collapse. -/
theorem not_collapses_others {before after : List Expr}
    (hnode : Expr.Canonical (.mul (before ++ child :: after))) : ¬ Collapses (before ++ after) := by
  cases hnode with
  | mul hops hflat hzero =>
      have hsub : ∀ op ∈ before ++ after, op ∈ before ++ child :: after := by
        intro op hop
        simp at hop ⊢
        tauto
      rw [Collapses, flatMap_eq_self fun op hop => hflat.flat op (hsub op hop),
        List.prod_eq_zero_iff]
      exact fun h => hzero (mem_lits.mpr (hsub _ (mem_lits.mp h)))

theorem undoes_mul {acc : Expr} {before after : List Expr}
    (hagree : ∀ e : Expr, e.countVar target = 0 → e.eval inputs' = e.eval inputs)
    (hothers : ∀ op ∈ before ++ after, op.countVar target = 0)
    (hnode : Expr.Canonical (.mul (before ++ child :: after))) (hacc : Expr.Canonical acc)
    (hev : (Expr.mul [acc, .pow (.mul (before ++ after)) (.lit (-1))]).canonicalize.Evaluates
      inputs) :
    Undoes inputs inputs' (.mul (before ++ child :: after)) acc child
      (Expr.mul [acc, .pow (.mul (before ++ after)) (.lit (-1))]).canonicalize := by
  have hops : ∀ op ∈ before ++ after, Expr.Canonical op := by
    cases hnode with
    | mul hops _ _ => exact fun op hop => hops op (by simp at hop ⊢; tauto)
  have hcanon : (Expr.mul [acc, .pow (.mul (before ++ after)) (.lit (-1))]).canonicalize
      = canonMul [acc, .pow (canonMul (before ++ after)) (.lit (-1))] := by
    simp only [canonicalize, canonicalizeAll, hacc.canonicalize_eq, canonicalizeAll_eq_self hops]
  have hprod := congrArg List.prod (map_value_others hagree hothers)
  rw [List.map_append, List.map_append, List.prod_append, List.prod_append] at hprod
  have hvalue : ∀ h : (Expr.mul (before ++ child :: after)).Evaluates inputs',
      (Expr.mul (before ++ child :: after)).value inputs' = child.value inputs' *
        ((before.map (Expr.value inputs)).prod * (after.map (Expr.value inputs)).prod) := by
    intro h
    rw [value_mul (evaluates_mul.mp h), List.map_append, List.map_cons, List.prod_append,
      List.prod_cons, ← hprod]
    ring
  rw [hcanon, evaluates_canonMul] at hev
  rcases hev with hcol | hev
  · -- the other side is 0, and so is the new one
    obtain rfl := eq_zero_of_collapses hacc hcol
    refine ⟨evaluates_lit 0, fun h => evaluates_mul.mp h child (by simp), fun h hchild => ?_⟩
    rw [hcanon, canonMul_of_collapses hcol, value_lit, Rat.cast_zero] at hchild
    rw [hvalue h, hchild, zero_mul, value_lit, Rat.cast_zero]
  · have hevacc : acc.Evaluates inputs := hev acc (by simp)
    have hevpow : (Expr.pow (canonMul (before ++ after)) (.lit (-1))).Evaluates inputs :=
      hev _ (by simp)
    obtain ⟨hevprod, -, hdef⟩ := evaluates_pow.mp hevpow
    have hevops := (evaluates_canonMul.mp hevprod).resolve_left (not_collapses_others hnode)
    have hothersval : (canonMul (before ++ after)).value inputs =
        (before.map (Expr.value inputs)).prod * (after.map (Expr.value inputs)).prod := by
      rw [value_canonMul hevops, List.map_append, List.prod_append]
    have hne : (canonMul (before ++ after)).value inputs ≠ 0 := by
      intro hzero
      have := hdef.1 hzero
      rw [value_lit] at this
      norm_num at this
    refine ⟨hevacc, fun h => evaluates_mul.mp h child (by simp), fun h hchild => ?_⟩
    rw [hcanon, value_canonMul hev] at hchild
    simp only [List.map_cons, List.map_nil, List.prod_cons, List.prod_nil, mul_one,
      value_pow hevpow, value_lit, Rat.cast_neg, Rat.cast_one, Real.rpow_neg_one] at hchild
    rw [hvalue h, hchild, ← hothersval, inv_mul_cancel_right₀ hne]

/-- A power whose root the child is. -/
theorem undoes_pow {acc acc₁ base : Expr} {n : ℚ} (hint : ((n.num : ℤ) : ℚ) = n) (hne : n ≠ 0)
    (hacc : Expr.Canonical acc)
    (hev : (nthRoot acc n).canonicalize.Evaluates inputs)
    (hpow : (acc₁.value inputs) ^ (n : ℝ)
      = ((nthRoot acc n).canonicalize.value inputs) ^ (n : ℝ)) :
    Undoes inputs inputs' (.pow base (.lit n)) acc base acc₁ := by
  have hcanon : (nthRoot acc n).canonicalize = .pow acc (.lit (1 / n)) := by
    rw [nthRoot, if_neg hne, canonicalize, hacc.canonicalize_eq]
    rfl
  rw [hcanon] at hev hpow
  obtain ⟨hevacc, -, hdef⟩ := evaluates_pow.mp hev
  refine ⟨hevacc, fun h => (evaluates_pow.mp h).1, fun h hchild => ?_⟩
  rw [value_pow h, hchild, value_lit, hpow, value_pow hev, value_lit]
  exact rpow_root hint hne hdef

/-- Every step can be undone, where the predicates admitted so far hold. -/
theorem PeelStep.undo (h : PeelStep target node s child s₁) (hnode : Expr.Canonical node)
    (hacc : Expr.Canonical s.acc) (hone : node.countVar target = 1)
    (hread : 0 < (readZeroth target node).countVar target)
    (hagree : ∀ e : Expr, e.countVar target = 0 → e.eval inputs' = e.eval inputs)
    (hadm : ∀ p ∈ s₁.admission, p.Holds inputs) (hev : s₁.acc.Evaluates inputs) :
    Undoes inputs inputs' node s.acc child s₁.acc := by
  cases h with
  | add hchild => exact undoes_add hagree (countVar_others hchild hone).2 hnode hacc hev
  | mul hchild => exact undoes_mul hagree (countVar_others hchild hone).2 hnode hacc hev
  | neg =>
      have hcanon : (Expr.neg s.acc).canonicalize = .neg s.acc :=
        congrArg Expr.neg hacc.canonicalize_eq
      show Undoes inputs inputs' _ _ _ (Expr.neg s.acc).canonicalize
      rw [Peeled.withAcc, hcanon] at hev
      rw [hcanon]
      refine ⟨evaluates_neg.mp hev, evaluates_neg.mp, fun _ hchild => ?_⟩
      rw [value_neg, hchild, value_neg, neg_neg]
  | odd hodd =>
      exact undoes_pow (isInt_of_isOddInteger hodd) (ne_zero_of_isOddInteger hodd) hacc hev rfl
  | @even _ n _ _ heven hbranch =>
      have hne := exponent_ne_zero hone hread
      obtain ⟨-, hroot | hroot⟩ := peelEven_ok hbranch
      · rw [hroot] at hev ⊢
        exact undoes_pow (isInt_of_isEvenInteger heven) hne hacc hev rfl
      · -- the other sign gives the same power
        have hcanon : (Expr.neg (nthRoot s.acc n).canonicalize).canonicalize
            = .neg (nthRoot s.acc n).canonicalize :=
          congrArg Expr.neg (canonicalize_idem _)
        rw [hroot, hcanon] at hev
        rw [hroot]
        refine undoes_pow (isInt_of_isEvenInteger heven) hne hacc (evaluates_neg.mp hev) ?_
        rw [hcanon, value_neg, neg_rpow_even heven]
  | sqrt =>
      have hcanon : (Expr.pow s.acc (.lit 2)).canonicalize = .pow s.acc (.lit 2) := by
        rw [canonicalize, hacc.canonicalize_eq]
        rfl
      -- the admission of this step is what makes the root of the square the accumulator again
      obtain ⟨hevacc, -, hnn⟩ := hadm ⟨s.acc, .ge, .lit 0⟩ (by simp [Peeled.pushPredicate])
      show Undoes inputs inputs' _ _ _ (Expr.pow s.acc (.lit 2)).canonicalize
      rw [hcanon]
      have hevpow : (Expr.pow s.acc (.lit 2)).Evaluates inputs := by
        rw [← hcanon]
        exact hev
      have hnn' : 0 ≤ s.acc.value inputs := by
        have : s.acc.value inputs ≥ ((0 : ℚ) : ℝ) := hnn
        simpa using this
      refine ⟨hevacc, fun h => (evaluates_unary.mp h).1, fun h hchild => ?_⟩
      rw [value_unary h, hchild, value_pow hevpow, value_lit, Rat.cast_ofNat, Real.rpow_ofNat]
      exact Real.sqrt_sq hnn'
  | exp =>
      have hcanon : (Expr.unary .ln s.acc).canonicalize = .unary .ln s.acc := by
        rw [canonicalize, hacc.canonicalize_eq]
      show Undoes inputs inputs' _ _ _ (Expr.unary .ln s.acc).canonicalize
      rw [hcanon]
      have hevln : (Expr.unary .ln s.acc).Evaluates inputs := by
        rw [← hcanon]
        exact hev
      obtain ⟨hevacc, hpos⟩ := evaluates_unary.mp hevln
      refine ⟨hevacc, fun h => (evaluates_unary.mp h).1, fun h hchild => ?_⟩
      rw [value_unary h, hchild, value_unary hevln]
      exact Real.exp_log hpos
  | ln =>
      have hcanon : (Expr.unary .exp s.acc).canonicalize = .unary .exp s.acc := by
        rw [canonicalize, hacc.canonicalize_eq]
      show Undoes inputs inputs' _ _ _ (Expr.unary .exp s.acc).canonicalize
      rw [hcanon]
      have hevexp : (Expr.unary .exp s.acc).Evaluates inputs := by
        rw [← hcanon]
        exact hev
      refine ⟨(evaluates_unary.mp hevexp).1, fun h => (evaluates_unary.mp h).1, fun h hchild => ?_⟩
      rw [value_unary h, hchild, value_unary hevexp]
      exact Real.log_exp _

/-- The peel undone: with the target at the value that was found, the node has
the value of the other side. -/
theorem Peels.sound (h : Peels target node s s') (hnode : Expr.Canonical node) (hacc : Expr.Canonical s.acc)
    (hone : node.countVar target = 1) (hread : 0 < (readZeroth target node).countVar target)
    (hagree : ∀ e : Expr, e.countVar target = 0 → e.eval inputs' = e.eval inputs)
    (htarget : (Expr.var target).value inputs' = s'.acc.value inputs)
    (hadm : ∀ p ∈ s'.admission, p.Holds inputs) (hev : s'.acc.Evaluates inputs) :
    s.acc.Evaluates inputs ∧ (node.Evaluates inputs' → node.value inputs' = s.acc.value inputs) := by
  induction h with
  | done => exact ⟨hev, fun _ => htarget⟩
  | step hstep hpeels ih =>
      obtain ⟨hev₁, hvalue⟩ := ih (hstep.canonical_child hnode) hstep.canonical_acc
        (hstep.countVar_child hone) (hstep.readZeroth_child hone hread) htarget hadm hev
      have hundo := hstep.undo hnode hacc hone hread hagree
        (fun p hp => hadm p (hpeels.admission_subset hp)) hev₁
      exact ⟨hundo.acc_evaluates, fun h => hundo.value_eq h (hvalue (hundo.child_evaluates h))⟩

theorem Peels.canonical_acc (h : Peels target node s s') (hacc : Expr.Canonical s.acc) :
    Expr.Canonical s'.acc := by
  induction h with
  | done => exact hacc
  | step hstep _ ih => exact ih hstep.canonical_acc

end Undo

/-! ### The inversion -/

section Invert

open Expr

variable {formatF64 : F64 ℚ → String} {lhs rhs : Expr} {target : String} {branch : Option Branch}
variable {inv : Inversion}

/-- An inversion is a walk through the zeroed equation. -/
theorem invertFor_ok (h : invertFor formatF64 lhs rhs target branch = .ok inv) :
    (difference lhs rhs).countVar target = 1 ∧
      ∃ s, Peels target (difference lhs rhs) ⟨.lit 0, branch, [], none⟩ s ∧ inv.rhs = s.acc ∧
        inv.admission = s.admission ∧ inv.branch = s.branchTaken.getD .principal := by
  unfold invertFor at h
  dsimp only at h
  split_ifs at h with hzero hmany
  obtain ⟨s, hs, h⟩ := Fallible.bind_eq_ok.mp h
  obtain rfl := Except.ok.inj h
  have hpeels := peels_of_peel hs
  exact ⟨by omega, s, hpeels, (hpeels.canonical_acc (.lit 0)).canonicalize_eq, rfl, rfl⟩

/-- Both sides evaluate, so their difference does. -/
theorem eval_difference {inputs : PortMap ℝ} {l r : ℝ} (hl : lhs.eval inputs = .ok l)
    (hr : rhs.eval inputs = .ok r) : (difference lhs rhs).eval inputs = .ok (l - r) := by
  apply canonicalize_eval
  rw [eval_add_eq_ok]
  obtain ⟨hevl, rfl⟩ := eval_eq_ok.mp hl
  obtain ⟨hevr, rfl⟩ := eval_eq_ok.mp hr
  constructor
  · rintro op (_ | ⟨_, _ | ⟨_, _ | _⟩⟩)
    · exact hevl
    · exact evaluates_neg.mpr hevr
  · simp [sub_eq_add_neg]

/-- Without a zeroth power above the target, the target that is found solves
the equation. -/
theorem invertFor_sound (h : invertFor formatF64 lhs rhs target branch = .ok inv)
    (hread : 0 < (readZeroth target (difference lhs rhs)).countVar target)
    {inputs : PortMap ℝ} {t l r : ℝ} (ht : inv.rhs.eval inputs = .ok t)
    (hadm : ∀ p ∈ inv.admission, p.Holds inputs)
    (hl : lhs.eval (inputs.insert target t) = .ok l)
    (hr : rhs.eval (inputs.insert target t) = .ok r) : l = r := by
  obtain ⟨hone, s, hpeels, hrhs, hadmission, -⟩ := invertFor_ok h
  rw [hrhs] at ht
  rw [hadmission] at hadm
  obtain ⟨hev, ht⟩ := eval_eq_ok.mp ht
  have htarget : (Expr.var target).value (inputs.insert target t) = s.acc.value inputs := by
    rw [ht]
    exact value_of_eval ((eval_var target).mpr (by simp))
  obtain ⟨hevdiff, hdiff⟩ := eval_eq_ok.mp (eval_difference hl hr)
  obtain ⟨-, hsound⟩ := hpeels.sound (canonical_canonicalize _) (.lit 0) hone hread
    (fun e he => eval_insert_of_countVar he inputs t) htarget hadm hev
  have hzero := hsound hevdiff
  rw [hdiff, value_lit, Rat.cast_zero] at hzero
  exact sub_eq_zero.mp hzero

/-- **Inversion**: the target that is found solves the equation, if no zeroth
power stands above it, or the equation, with that power read as 1, holds
whatever the target is. -/
theorem invertFor_sound_iff (h : invertFor formatF64 lhs rhs target branch = .ok inv)
    {inputs : PortMap ℝ} {t l r : ℝ} (ht : inv.rhs.eval inputs = .ok t)
    (hadm : ∀ p ∈ inv.admission, p.Holds inputs)
    (hl : lhs.eval (inputs.insert target t) = .ok l)
    (hr : rhs.eval (inputs.insert target t) = .ok r) :
    l = r ↔ 0 < (readZeroth target (difference lhs rhs)).countVar target ∨
      (readZeroth target (difference lhs rhs)).eval inputs = .ok 0 := by
  constructor
  · rintro rfl
    by_cases hread : 0 < (readZeroth target (difference lhs rhs)).countVar target
    · exact Or.inl hread
    · refine Or.inr ?_
      rw [← eval_insert_of_countVar (Nat.eq_zero_of_not_pos hread) inputs t]
      have := eval_difference hl hr
      rw [sub_self] at this
      exact eval_readZeroth target _ this
  · intro hcond
    by_cases hread : 0 < (readZeroth target (difference lhs rhs)).countVar target
    · exact invertFor_sound h hread ht hadm hl hr
    · have hzero := hcond.resolve_left hread
      rw [← eval_insert_of_countVar (Nat.eq_zero_of_not_pos hread) inputs t,
        eval_readZeroth target _ (eval_difference hl hr)] at hzero
      exact sub_eq_zero.mp (Except.ok.inj hzero)

/-- `-x = -2` is solved by 2. -/
theorem invertFor_sound_iff_neg :
    (-2 : ℝ) = ((-2 : ℚ) : ℝ) ↔
      0 < (readZeroth "x" (difference (.neg (.var "x")) (.lit (-2)))).countVar "x" ∨
        (readZeroth "x" (difference (.neg (.var "x")) (.lit (-2)))).eval ∅ = .ok 0 := by
  have hinv : (invertFor (fun _ => "") (.neg (.var "x")) (.lit (-2)) "x" none).toOption.map
      (fun inv => (inv.rhs, inv.admission))
      = some (.neg (.neg (.neg (.lit (-2)))), []) := by decide +kernel
  obtain ⟨inv, h, hrhs⟩ := Option.map_eq_some_iff.mp hinv
  obtain ⟨hrhs, hadm⟩ := Prod.mk.inj hrhs
  refine invertFor_sound_iff (t := 2) (Fallible.eq_ok_of_toOption h) ?_ (by simp [hadm]) ?_ rfl
  · rw [hrhs, eval_eq_ok]
    simp
  · exact eval_neg_eq_ok.mpr ⟨2, (eval_var "x").mpr (by simp), rfl⟩

/-- `x ^ 0 = 1/2` has the positive root `x = 0`. -/
theorem invertFor_zeroth :
    ∃ inv, invertFor (fun _ => "") (.pow (.var "x") (.lit 0)) (.lit (1 / 2)) "x" (some .positive)
        = .ok inv ∧
      inv.rhs.eval ∅ = .ok 0 ∧ (∀ p ∈ inv.admission, p.Holds ∅) ∧
      (Expr.pow (.var "x") (.lit 0)).eval ((∅ : PortMap ℝ).insert "x" 0) = .ok 1 ∧
      (Expr.lit (1 / 2)).eval ((∅ : PortMap ℝ).insert "x" 0) = .ok (1 / 2) := by
  have hinv : (invertFor (fun _ => "") (.pow (.var "x") (.lit 0)) (.lit (1 / 2)) "x"
      (some .positive)).toOption.map (fun inv => (inv.rhs, inv.admission))
      = some (.powInf (.neg (.neg (.lit (1 / 2)))), []) := by decide +kernel
  obtain ⟨inv, h, hrhs⟩ := Option.map_eq_some_iff.mp hinv
  obtain ⟨hrhs, hadm⟩ := Prod.mk.inj hrhs
  refine ⟨inv, Fallible.eq_ok_of_toOption h, ?_, by simp [hadm], ?_, ?_⟩
  · rw [hrhs, eval_powInf_eq_ok]
    refine ⟨1 / 2, ?_, ?_⟩
    · simp [eval_eq_ok]
    · rw [powfInf, if_pos (by norm_num [abs_of_pos])]
  · rw [eval_pow_eq_ok]
    exact ⟨0, 0, (eval_var "x").mpr (by simp), congrArg Except.ok Rat.cast_zero,
      ⟨fun _ => le_rfl, fun h => absurd h (lt_irrefl 0)⟩, Real.rpow_zero 0⟩
  · exact congrArg Except.ok (by norm_num)

end Invert

end Feldspar

/-
Feldspar/SymbolicEval.lean

`Expr::eval` in exact arithmetic, and what canonicalization keeps of it.

`Evaluates inputs e` says that `eval` returns a number, and `value inputs e` is
that number; the lemmas give both for each kind of node.  A sum is folded
without loss (`evaluates_canonAdd`).  A product is too, unless it collapses to
0 (`evaluates_canonMul`): then the canonical form may evaluate where the
product does not, but never the other way round.

`exp` never overflows here, so it has no fault.
-/
import Feldspar.Canonical
import Mathlib.Analysis.SpecialFunctions.Pow.Real
import Mathlib.Analysis.SpecialFunctions.Sqrt

set_option linter.unusedSectionVars false

namespace Feldspar

/-! ### Evaluation -/

/-- The details of `EvalError::DomainFault`. -/
inductive Fault
  | power (b x : ℝ)
  | powerInf (b : ℝ)
  | unary (f : UnaryFn) (v : ℝ)

inductive EvalError
  | missingPort (port : Port)
  | domainFault (detail : Fault)

/-- `b.powf(x)` is finite. -/
def PowDefined (b x : ℝ) : Prop := (b = 0 → 0 ≤ x) ∧ (b < 0 → ∃ n : ℤ, x = n)

open Classical in
/-- `powf`; `none` is a result that is not finite.  `powf(b, 0)` is 1, also
for `b = 0`. -/
noncomputable def powf (b x : ℝ) : Option ℝ := if PowDefined b x then some (b ^ x) else none

open Classical in
/-- `powf` with the exponent infinity. -/
noncomputable def powfInf (b : ℝ) : Option ℝ :=
  if |b| < 1 then some 0 else if |b| = 1 then some 1 else none

namespace UnaryFn

/-- Where `eval` accepts the argument. -/
def Defined : UnaryFn → ℝ → Prop
  | sqrt, v => 0 ≤ v
  | ln, v => 0 < v
  | _, _ => True

noncomputable def real : UnaryFn → ℝ → ℝ
  | sqrt, v => √v
  | sin, v => Real.sin v
  | cos, v => Real.cos v
  | exp, v => Real.exp v
  | ln, v => Real.log v

open Classical in
/-- The `Unary` arms of `eval`, on the value of the argument. -/
noncomputable def eval (f : UnaryFn) (v : ℝ) : Except EvalError ℝ :=
  if f.Defined v then .ok (f.real v) else .error (.domainFault (.unary f v))

theorem eval_eq_ok {f : UnaryFn} {v w : ℝ} : f.eval v = .ok w ↔ f.Defined v ∧ f.real v = w := by
  unfold eval
  split_ifs with hd <;> simp [hd]

end UnaryFn

namespace Expr

mutual

/-- `Expr::eval`. -/
noncomputable def eval (inputs : PortMap ℝ) : Expr → Except EvalError ℝ
  | var name => ((inputs[name]?).map .ok).getD (.error (.missingPort name))
  | lit x => .ok x
  | neg e => (eval inputs e).map (- ·)
  | add operands => (evalAll inputs operands).map List.sum
  | mul operands => (evalAll inputs operands).map List.prod
  | pow base exp => do
      let b ← eval inputs base
      let x ← eval inputs exp
      ((powf b x).map .ok).getD (.error (.domainFault (.power b x)))
  | powInf base => do
      let b ← eval inputs base
      ((powfInf b).map .ok).getD (.error (.domainFault (.powerInf b)))
  | unary f e => do
      let v ← eval inputs e
      f.eval v

/-- The values of the operands, in order, up to the first error. -/
noncomputable def evalAll (inputs : PortMap ℝ) : List Expr → Except EvalError (List ℝ)
  | [] => .ok []
  | op :: operands => do
      let v ← eval inputs op
      let vs ← evalAll inputs operands
      pure (v :: vs)

end

/-! ### Where it evaluates, and to what -/

def Evaluates (inputs : PortMap ℝ) (e : Expr) : Prop := ∃ v, e.eval inputs = .ok v

noncomputable def value (inputs : PortMap ℝ) (e : Expr) : ℝ := (e.eval inputs).toOption.getD 0

section Eval

variable {inputs : PortMap ℝ}

theorem value_of_eval {e : Expr} {v : ℝ} (h : e.eval inputs = .ok v) : value inputs e = v := by
  rw [value, h]
  rfl

theorem eval_eq_ok {e : Expr} {v : ℝ} :
    e.eval inputs = .ok v ↔ Evaluates inputs e ∧ value inputs e = v := by
  constructor
  · exact fun h => ⟨⟨v, h⟩, value_of_eval h⟩
  · rintro ⟨⟨w, hw⟩, rfl⟩
    rw [hw, value_of_eval hw]

theorem Evaluates.eval {e : Expr} (h : Evaluates inputs e) :
    e.eval inputs = .ok (value inputs e) :=
  eval_eq_ok.mpr ⟨h, rfl⟩

@[simp] theorem evaluates_lit (x : ℚ) : Evaluates inputs (lit x) := ⟨x, rfl⟩

@[simp] theorem value_lit (x : ℚ) : value inputs (lit x) = x := rfl

theorem eval_var (name : String) {v : ℝ} :
    (var name).eval inputs = .ok v ↔ inputs[name]? = some v := by
  rw [Expr.eval]
  rcases inputs[name]? with - | w <;> simp

theorem evaluates_var (name : String) : Evaluates inputs (var name) ↔ name ∈ inputs := by
  rw [OrdMap.mem_iff_exists]
  exact exists_congr fun v => eval_var name

theorem eval_neg_eq_ok {e : Expr} {v : ℝ} :
    (neg e).eval inputs = .ok v ↔ ∃ w, e.eval inputs = .ok w ∧ -w = v := by
  rw [Expr.eval]
  rcases e.eval inputs with err | w <;> simp [Except.map]

@[simp] theorem evaluates_neg {e : Expr} : Evaluates inputs (neg e) ↔ Evaluates inputs e := by
  simp [Evaluates, eval_neg_eq_ok]

@[simp] theorem value_neg (e : Expr) : value inputs (neg e) = -value inputs e := by
  rw [value, value, Expr.eval]
  rcases e.eval inputs with err | w <;> simp [Except.map, Except.toOption]

theorem evalAll_eq_ok : ∀ {operands : List Expr} {vs : List ℝ},
    evalAll inputs operands = .ok vs ↔
      (∀ op ∈ operands, Evaluates inputs op) ∧ operands.map (value inputs) = vs
  | [], vs => by simp [evalAll]
  | op :: operands, vs => by
      rw [evalAll, Fallible.bind_eq_ok]
      constructor
      · rintro ⟨v, hv, h⟩
        obtain ⟨ws, hws, h⟩ := Fallible.bind_eq_ok.mp h
        obtain ⟨hall, rfl⟩ := evalAll_eq_ok.mp hws
        refine ⟨?_, ?_⟩
        · rintro op' (_ | ⟨_, hop⟩)
          · exact ⟨v, hv⟩
          · exact hall op' hop
        · rw [List.map_cons, value_of_eval hv]
          exact Except.ok.inj h
      · rintro ⟨hall, rfl⟩
        refine ⟨_, (hall op List.mem_cons_self).eval, ?_⟩
        rw [evalAll_eq_ok.mpr ⟨fun op' h => hall op' (List.mem_cons_of_mem _ h), rfl⟩]
        rfl

theorem evalAll_map_eq_ok {f : List ℝ → ℝ} {operands : List Expr} {v : ℝ} :
    (evalAll inputs operands).map f = .ok v ↔
      (∀ op ∈ operands, Evaluates inputs op) ∧ f (operands.map (value inputs)) = v := by
  rcases h : evalAll inputs operands with err | vs
  · simp only [Except.map, reduceCtorEq, false_iff]
    rintro ⟨hall, -⟩
    rw [evalAll_eq_ok.mpr ⟨hall, rfl⟩] at h
    cases h
  · obtain ⟨hall, rfl⟩ := evalAll_eq_ok.mp h
    rw [and_iff_right hall]
    exact ⟨Except.ok.inj, congrArg Except.ok⟩

theorem eval_add_eq_ok {operands : List Expr} {v : ℝ} : (add operands).eval inputs = .ok v ↔
    (∀ op ∈ operands, Evaluates inputs op) ∧ (operands.map (value inputs)).sum = v := by
  rw [Expr.eval]
  exact evalAll_map_eq_ok

theorem eval_mul_eq_ok {operands : List Expr} {v : ℝ} : (mul operands).eval inputs = .ok v ↔
    (∀ op ∈ operands, Evaluates inputs op) ∧ (operands.map (value inputs)).prod = v := by
  rw [Expr.eval]
  exact evalAll_map_eq_ok

theorem evaluates_add {operands : List Expr} :
    Evaluates inputs (add operands) ↔ ∀ op ∈ operands, Evaluates inputs op := by
  simp [Evaluates, eval_add_eq_ok]

theorem evaluates_mul {operands : List Expr} :
    Evaluates inputs (mul operands) ↔ ∀ op ∈ operands, Evaluates inputs op := by
  simp [Evaluates, eval_mul_eq_ok]

theorem value_add {operands : List Expr} (h : ∀ op ∈ operands, Evaluates inputs op) :
    value inputs (add operands) = (operands.map (value inputs)).sum :=
  value_of_eval (eval_add_eq_ok.mpr ⟨h, rfl⟩)

theorem value_mul {operands : List Expr} (h : ∀ op ∈ operands, Evaluates inputs op) :
    value inputs (mul operands) = (operands.map (value inputs)).prod :=
  value_of_eval (eval_mul_eq_ok.mpr ⟨h, rfl⟩)

theorem eval_add_pair {a b : Expr} {d : ℝ} :
    (add [a, b]).eval inputs = .ok d ↔
      ∃ u v, a.eval inputs = .ok u ∧ b.eval inputs = .ok v ∧ d = u + v := by
  rw [eval_add_eq_ok]
  constructor
  · rintro ⟨hops, rfl⟩
    have ha := (hops a (by simp)).eval
    have hb := (hops b (by simp)).eval
    exact ⟨_, _, ha, hb, by simp⟩
  · rintro ⟨u, v, ha, hb, rfl⟩
    refine ⟨fun op hop => ?_, by simp [value_of_eval ha, value_of_eval hb]⟩
    rcases List.mem_cons.mp hop with rfl | hop
    · exact ⟨u, ha⟩
    · exact List.mem_singleton.mp hop ▸ ⟨v, hb⟩

theorem eval_mul_pair {a b : Expr} {d : ℝ} :
    (mul [a, b]).eval inputs = .ok d ↔
      ∃ u v, a.eval inputs = .ok u ∧ b.eval inputs = .ok v ∧ d = u * v := by
  rw [eval_mul_eq_ok]
  constructor
  · rintro ⟨hops, rfl⟩
    have ha := (hops a (by simp)).eval
    have hb := (hops b (by simp)).eval
    exact ⟨_, _, ha, hb, by simp⟩
  · rintro ⟨u, v, ha, hb, rfl⟩
    refine ⟨fun op hop => ?_, by simp [value_of_eval ha, value_of_eval hb]⟩
    rcases List.mem_cons.mp hop with rfl | hop
    · exact ⟨u, ha⟩
    · exact List.mem_singleton.mp hop ▸ ⟨v, hb⟩

theorem eval_pow_eq_ok {base exp : Expr} {v : ℝ} : (pow base exp).eval inputs = .ok v ↔
    ∃ b x, base.eval inputs = .ok b ∧ exp.eval inputs = .ok x ∧ PowDefined b x ∧ b ^ x = v := by
  rw [Expr.eval, Fallible.bind_eq_ok]
  refine exists_congr fun b => ?_
  rw [Fallible.bind_eq_ok]
  by_cases hb : base.eval inputs = .ok b <;> simp only [hb, true_and, false_and, exists_false]
  refine exists_congr fun x => and_congr_right fun _ => ?_
  unfold powf
  split_ifs with hd <;> simp [hd]

theorem evaluates_pow {base exp : Expr} : Evaluates inputs (pow base exp) ↔
    Evaluates inputs base ∧ Evaluates inputs exp ∧
      PowDefined (value inputs base) (value inputs exp) := by
  simp only [Evaluates, eval_pow_eq_ok]
  constructor
  · rintro ⟨v, b, x, hb, hx, hd, -⟩
    exact ⟨⟨b, hb⟩, ⟨x, hx⟩, by rwa [value_of_eval hb, value_of_eval hx]⟩
  · rintro ⟨⟨b, hb⟩, ⟨x, hx⟩, hd⟩
    rw [value_of_eval hb, value_of_eval hx] at hd
    exact ⟨_, b, x, hb, hx, hd, rfl⟩

theorem value_pow {base exp : Expr} (h : Evaluates inputs (pow base exp)) :
    value inputs (pow base exp) = value inputs base ^ value inputs exp := by
  obtain ⟨v, hv⟩ := h
  obtain ⟨b, x, hb, hx, -, rfl⟩ := eval_pow_eq_ok.mp hv
  rw [value_of_eval hv, value_of_eval hb, value_of_eval hx]

theorem eval_powInf_eq_ok {base : Expr} {v : ℝ} : (powInf base).eval inputs = .ok v ↔
    ∃ b, base.eval inputs = .ok b ∧ powfInf b = some v := by
  rw [Expr.eval, Fallible.bind_eq_ok]
  refine exists_congr fun b => and_congr_right fun _ => ?_
  rcases powfInf b with - | w <;> simp

theorem eval_unary_eq_ok {f : UnaryFn} {e : Expr} {v : ℝ} : (unary f e).eval inputs = .ok v ↔
    ∃ w, e.eval inputs = .ok w ∧ f.Defined w ∧ f.real w = v := by
  rw [Expr.eval, Fallible.bind_eq_ok]
  exact exists_congr fun w => and_congr_right fun _ => UnaryFn.eval_eq_ok

theorem evaluates_unary {f : UnaryFn} {e : Expr} : Evaluates inputs (unary f e) ↔
    Evaluates inputs e ∧ f.Defined (value inputs e) := by
  simp only [Evaluates, eval_unary_eq_ok]
  constructor
  · rintro ⟨v, w, hw, hd, -⟩
    exact ⟨⟨w, hw⟩, by rwa [value_of_eval hw]⟩
  · rintro ⟨⟨w, hw⟩, hd⟩
    rw [value_of_eval hw] at hd
    exact ⟨_, w, hw, hd, rfl⟩

theorem value_unary {f : UnaryFn} {e : Expr} (h : Evaluates inputs (unary f e)) :
    value inputs (unary f e) = f.real (value inputs e) := by
  obtain ⟨v, hv⟩ := h
  obtain ⟨w, hw, -, rfl⟩ := eval_unary_eq_ok.mp hv
  rw [value_of_eval hv, value_of_eval hw]

/-! ### The folds -/

theorem evaluates_addends {e : Expr} :
    (∀ x ∈ addends e, Evaluates inputs x) ↔ Evaluates inputs e := by
  cases e with
  | add operands => exact evaluates_add.symm
  | _ => exact List.forall_mem_singleton

theorem evaluates_factors {e : Expr} :
    (∀ x ∈ factors e, Evaluates inputs x) ↔ Evaluates inputs e := by
  cases e with
  | mul operands => exact evaluates_mul.symm
  | _ => exact List.forall_mem_singleton

theorem sum_addends {e : Expr} (h : Evaluates inputs e) :
    ((addends e).map (value inputs)).sum = value inputs e := by
  cases e with
  | add operands => exact (value_add (evaluates_add.mp h)).symm
  | _ => exact List.sum_singleton

theorem prod_factors {e : Expr} (h : Evaluates inputs e) :
    ((factors e).map (value inputs)).prod = value inputs e := by
  cases e with
  | mul operands => exact (value_mul (evaluates_mul.mp h)).symm
  | _ => exact List.prod_singleton

theorem sum_flatMap_addends : ∀ {cs : List Expr}, (∀ c ∈ cs, Evaluates inputs c) →
    ((cs.flatMap addends).map (value inputs)).sum = (cs.map (value inputs)).sum
  | [], _ => rfl
  | c :: cs, h => by
      rw [List.flatMap_cons, List.map_append, List.sum_append, List.map_cons, List.sum_cons,
        sum_addends (h c List.mem_cons_self),
        sum_flatMap_addends fun c' hc => h c' (List.mem_cons_of_mem _ hc)]

theorem prod_flatMap_factors : ∀ {cs : List Expr}, (∀ c ∈ cs, Evaluates inputs c) →
    ((cs.flatMap factors).map (value inputs)).prod = (cs.map (value inputs)).prod
  | [], _ => rfl
  | c :: cs, h => by
      rw [List.flatMap_cons, List.map_append, List.prod_append, List.map_cons, List.prod_cons,
        prod_factors (h c List.mem_cons_self),
        prod_flatMap_factors fun c' hc => h c' (List.mem_cons_of_mem _ hc)]

theorem evaluates_flatMap {parts : Expr → List Expr}
    (hparts : ∀ e, (∀ x ∈ parts e, Evaluates inputs x) ↔ Evaluates inputs e) {cs : List Expr} :
    (∀ x ∈ cs.flatMap parts, Evaluates inputs x) ↔ ∀ c ∈ cs, Evaluates inputs c := by
  simp only [List.mem_flatMap, forall_exists_index, and_imp]
  constructor
  · exact fun h c hc => (hparts c).mp fun x hx => h x c hc hx
  · exact fun h x c hc hx => (hparts c).mpr (h c hc) x hx

/-- Literals always evaluate. -/
theorem evaluates_nonLits {flat : List Expr} :
    (∀ e ∈ nonLits flat, Evaluates inputs e) ↔ ∀ e ∈ flat, Evaluates inputs e := by
  constructor
  · intro h e he
    rcases hl : e.lit? with - | x
    · exact h e (mem_nonLits.mpr ⟨he, hl⟩)
    · exact lit?_eq_some.mp hl ▸ evaluates_lit x
  · exact fun h e he => h e (mem_nonLits.mp he).1

theorem sum_eq_nonLits_add (flat : List Expr) : (flat.map (value inputs)).sum
    = ((nonLits flat).map (value inputs)).sum + ((lits flat).sum : ℚ) := by
  rw [← ((nonLits_append_lits_perm flat).map (value inputs)).sum_eq, List.map_append,
    List.sum_append, List.map_map, Rat.cast_list_sum]
  rfl

theorem prod_eq_nonLits_mul (flat : List Expr) : (flat.map (value inputs)).prod
    = ((nonLits flat).map (value inputs)).prod * ((lits flat).prod : ℚ) := by
  rw [← ((nonLits_append_lits_perm flat).map (value inputs)).prod_eq, List.map_append,
    List.prod_append, List.map_map, Rat.cast_list_prod]
  rfl

section Sorted

variable {identity folded : ℚ} {others : List Expr}

theorem evaluates_sorted : (∀ e ∈ (others ++ (remaining identity folded).map lit).insertionSort le,
    Evaluates inputs e) ↔ ∀ e ∈ others, Evaluates inputs e := by
  simp only [List.mem_insertionSort, List.mem_append, List.mem_map]
  constructor
  · exact fun h e he => h e (Or.inl he)
  · rintro h e (he | ⟨x, -, rfl⟩)
    · exact h e he
    · exact evaluates_lit x

theorem evaluates_assemble_add : Evaluates inputs (assemble add identity folded others) ↔
    ∀ e ∈ others, Evaluates inputs e := by
  rcases assemble_cases add identity folded others with
    ⟨rfl, -, heq⟩ | ⟨e, rfl, -, heq⟩ | ⟨rfl, -, heq⟩ | ⟨-, heq⟩ <;> rw [heq]
  · simp
  · simp
  · simp
  · rw [evaluates_add, evaluates_sorted]

theorem evaluates_assemble_mul : Evaluates inputs (assemble mul identity folded others) ↔
    ∀ e ∈ others, Evaluates inputs e := by
  rcases assemble_cases mul identity folded others with
    ⟨rfl, -, heq⟩ | ⟨e, rfl, -, heq⟩ | ⟨rfl, -, heq⟩ | ⟨-, heq⟩ <;> rw [heq]
  · simp
  · simp
  · simp
  · rw [evaluates_mul, evaluates_sorted]

theorem value_assemble_add (h : ∀ e ∈ others, Evaluates inputs e) :
    value inputs (assemble add 0 folded others) = (others.map (value inputs)).sum + folded := by
  rcases assemble_cases add 0 folded others with
    ⟨rfl, rfl, heq⟩ | ⟨e, rfl, rfl, heq⟩ | ⟨rfl, -, heq⟩ | ⟨-, heq⟩ <;> rw [heq]
  · simp
  · simp
  · simp
  · rw [value_add (evaluates_sorted.mpr h),
      ((List.perm_insertionSort le _).map (value inputs)).sum_eq, List.map_append, List.sum_append]
    unfold remaining
    split_ifs with hne
    · simp
    · simp [not_not.mp hne]

theorem value_assemble_mul (h : ∀ e ∈ others, Evaluates inputs e) :
    value inputs (assemble mul 1 folded others) = (others.map (value inputs)).prod * folded := by
  rcases assemble_cases mul 1 folded others with
    ⟨rfl, rfl, heq⟩ | ⟨e, rfl, rfl, heq⟩ | ⟨rfl, -, heq⟩ | ⟨-, heq⟩ <;> rw [heq]
  · simp
  · simp
  · simp
  · rw [value_mul (evaluates_sorted.mpr h),
      ((List.perm_insertionSort le _).map (value inputs)).prod_eq, List.map_append,
      List.prod_append]
    unfold remaining
    split_ifs with hne
    · simp
    · simp [not_not.mp hne]

end Sorted

/-- A folded sum evaluates exactly where its operands do. -/
theorem evaluates_canonAdd {cs : List Expr} :
    Evaluates inputs (canonAdd cs) ↔ ∀ c ∈ cs, Evaluates inputs c := by
  rw [canonAdd_eq, evaluates_assemble_add, evaluates_nonLits]
  exact evaluates_flatMap fun _ => evaluates_addends

theorem value_canonAdd {cs : List Expr} (h : ∀ c ∈ cs, Evaluates inputs c) :
    value inputs (canonAdd cs) = (cs.map (value inputs)).sum := by
  have hflat : ∀ x ∈ cs.flatMap addends, Evaluates inputs x :=
    (evaluates_flatMap fun _ => evaluates_addends).mpr h
  rw [canonAdd_eq, value_assemble_add (evaluates_nonLits.mpr hflat), ← sum_eq_nonLits_add,
    sum_flatMap_addends h]

/-- The product has a literal factor 0, which takes the others with it. -/
def Collapses (cs : List Expr) : Prop := (lits (cs.flatMap factors)).prod = 0

theorem canonMul_of_collapses {cs : List Expr} (h : Collapses cs) : canonMul cs = lit 0 :=
  canonMul_of_prod_eq_zero h

/-- A folded product evaluates exactly where its operands do, or everywhere. -/
theorem evaluates_canonMul {cs : List Expr} :
    Evaluates inputs (canonMul cs) ↔ Collapses cs ∨ ∀ c ∈ cs, Evaluates inputs c := by
  by_cases hzero : Collapses cs
  · simp [canonMul_of_collapses hzero, hzero]
  · rw [canonMul_of_prod_ne_zero hzero, evaluates_assemble_mul, evaluates_nonLits,
      or_iff_right hzero]
    exact evaluates_flatMap fun _ => evaluates_factors

theorem value_canonMul {cs : List Expr} (h : ∀ c ∈ cs, Evaluates inputs c) :
    value inputs (canonMul cs) = (cs.map (value inputs)).prod := by
  have hflat : ∀ x ∈ cs.flatMap factors, Evaluates inputs x :=
    (evaluates_flatMap fun _ => evaluates_factors).mpr h
  rw [← prod_flatMap_factors h, prod_eq_nonLits_mul]
  by_cases hzero : (lits (cs.flatMap factors)).prod = 0
  · rw [canonMul_of_prod_eq_zero hzero, hzero, value_lit, Rat.cast_zero, mul_zero]
  · rw [canonMul_of_prod_ne_zero hzero, value_assemble_mul (evaluates_nonLits.mpr hflat)]

/-! ### Canonicalization preserves meaning -/

/-- What the operands keep, the list keeps. -/
theorem canonicalizeAll_eval {operands : List Expr}
    (ih : ∀ op ∈ operands, ∀ v, op.eval inputs = .ok v → op.canonicalize.eval inputs = .ok v)
    (h : ∀ op ∈ operands, Evaluates inputs op) :
    (∀ c ∈ canonicalizeAll operands, Evaluates inputs c) ∧
      (canonicalizeAll operands).map (value inputs) = operands.map (value inputs) := by
  have hop : ∀ op ∈ operands, Evaluates inputs op.canonicalize ∧
      value inputs op.canonicalize = value inputs op :=
    fun op hmem => eval_eq_ok.mp (ih op hmem _ (h op hmem).eval)
  rw [canonicalizeAll_eq_map, List.map_map]
  constructor
  · intro c hc
    obtain ⟨op, hmem, rfl⟩ := List.mem_map.mp hc
    exact (hop op hmem).1
  · exact List.map_congr_left fun op hmem => (hop op hmem).2

/-- **Canonicalization preserves meaning**: what an expression evaluates to,
its canonical form does. -/
theorem canonicalize_eval (inputs : PortMap ℝ) (e : Expr) (v : ℝ)
    (h : e.eval inputs = .ok v) : e.canonicalize.eval inputs = .ok v := by
  induction e using ind generalizing v with
  | var name => exact h
  | lit x => exact h
  | neg e ih =>
      obtain ⟨w, hw, rfl⟩ := eval_neg_eq_ok.mp h
      exact eval_neg_eq_ok.mpr ⟨w, ih w hw, rfl⟩
  | add operands ih =>
      obtain ⟨hall, rfl⟩ := eval_add_eq_ok.mp h
      obtain ⟨hcs, hmap⟩ := canonicalizeAll_eval ih hall
      rw [canonicalize, eval_eq_ok, evaluates_canonAdd, value_canonAdd hcs, hmap]
      exact ⟨hcs, rfl⟩
  | mul operands ih =>
      obtain ⟨hall, rfl⟩ := eval_mul_eq_ok.mp h
      obtain ⟨hcs, hmap⟩ := canonicalizeAll_eval ih hall
      rw [canonicalize, eval_eq_ok, evaluates_canonMul, value_canonMul hcs, hmap]
      exact ⟨Or.inr hcs, rfl⟩
  | pow base exp ihb ihx =>
      obtain ⟨b, x, hb, hx, hd, rfl⟩ := eval_pow_eq_ok.mp h
      exact eval_pow_eq_ok.mpr ⟨b, x, ihb b hb, ihx x hx, hd, rfl⟩
  | powInf base ih =>
      obtain ⟨b, hb, hv⟩ := eval_powInf_eq_ok.mp h
      exact eval_powInf_eq_ok.mpr ⟨b, ih b hb, hv⟩
  | unary f e ih =>
      obtain ⟨w, hw, hd, rfl⟩ := eval_unary_eq_ok.mp h
      exact eval_unary_eq_ok.mpr ⟨w, ih w hw, hd, rfl⟩

/-- `1 * (2 + 0)` is 2, and so is its canonical form. -/
theorem canonicalize_eval_two :
    (mul [lit 1, add [lit 2, lit 0]]).canonicalize.eval ∅ = .ok 2 := by
  apply canonicalize_eval
  simp [eval_mul_eq_ok, evaluates_add, value_add]

end Eval

end Expr

end Feldspar

/-
Feldspar/DerivativeSound.lean

What `differentiate` computes.

A power whose exponent is no literal has the derivative 0 here, whatever it
contains.  So a derivative is the derivative of the expression with these
powers held at their values (`held`, `hasDerivAt_held`), and it is the partial
derivative exactly where holding them makes no difference
(`differentiate_eval_iff`): in particular where none of them contains the port
(`differentiate_eval_of_literalPowers`).

The rules need the expression to be regular where a root, a logarithm or a
power is, and that is what the derivative's own evaluation gives them, except
where a product collapsed: then a factor's derivative is literally 0, and the
factor is constant (`held_sub_of_differentiate`).
-/
import Feldspar.Differentiate
import Feldspar.InvertSound
import Mathlib

set_option linter.unusedSectionVars false

namespace Feldspar

namespace Expr

/-! ### Powers held at their values -/

mutual

/-- The value with the powers whose exponent is no literal read at `at₀`. -/
noncomputable def held (at₀ : PortMap ℝ) : Expr → PortMap ℝ → ℝ
  | var name, inputs => (inputs[name]?).getD 0
  | lit x, _ => x
  | neg e, inputs => -held at₀ e inputs
  | add operands, inputs => (heldAll at₀ operands inputs).sum
  | mul operands, inputs => (heldAll at₀ operands inputs).prod
  | pow base exp, inputs =>
      match exp.lit? with
      | some n => held at₀ base inputs ^ (n : ℝ)
      | none => held at₀ base at₀ ^ held at₀ exp at₀
  | powInf base, inputs => (powfInf (held at₀ base inputs)).getD 0
  | unary f e, inputs => f.real (held at₀ e inputs)

noncomputable def heldAll (at₀ : PortMap ℝ) : List Expr → PortMap ℝ → List ℝ
  | [], _ => []
  | op :: operands, inputs => held at₀ op inputs :: heldAll at₀ operands inputs

end

section Held

variable {at₀ inputs : PortMap ℝ} {v : String}

theorem heldAll_eq_map (operands : List Expr) :
    heldAll at₀ operands inputs = operands.map fun op => held at₀ op inputs := by
  induction operands with
  | nil => rfl
  | cons op operands ih => rw [heldAll, ih, List.map_cons]

theorem held_add (operands : List Expr) :
    held at₀ (add operands) inputs = (operands.map fun op => held at₀ op inputs).sum := by
  rw [held, heldAll_eq_map]

theorem held_mul (operands : List Expr) :
    held at₀ (mul operands) inputs = (operands.map fun op => held at₀ op inputs).prod := by
  rw [held, heldAll_eq_map]

theorem held_pow_lit (base : Expr) (n : ℚ) :
    held at₀ (pow base (lit n)) inputs = held at₀ base inputs ^ (n : ℝ) := rfl

theorem held_pow_of_not_lit {base exp : Expr} (h : exp.lit? = none) :
    held at₀ (pow base exp) inputs = held at₀ base at₀ ^ held at₀ exp at₀ := by
  rw [held, h]

/-- Nothing is held at the values themselves. -/
theorem held_self {e : Expr} (h : Evaluates inputs e) : held inputs e inputs = value inputs e := by
  have hmap : ∀ operands : List Expr,
      (∀ op ∈ operands, Evaluates inputs op → held inputs op inputs = value inputs op) →
      (∀ op ∈ operands, Evaluates inputs op) →
      (operands.map fun op => held inputs op inputs) = operands.map (value inputs) :=
    fun operands ih hops => List.map_congr_left fun op hop => ih op hop (hops op hop)
  induction e using ind with
  | var name =>
      obtain ⟨w, hw⟩ := h
      rw [value_of_eval hw, held, (eval_var name).mp hw]
      rfl
  | lit x => rfl
  | neg e ih => rw [held, ih (evaluates_neg.mp h), value_neg]
  | add operands ih =>
      have hops := evaluates_add.mp h
      rw [held_add, hmap operands ih hops, value_add hops]
  | mul operands ih =>
      have hops := evaluates_mul.mp h
      rw [held_mul, hmap operands ih hops, value_mul hops]
  | pow base exp ihb ihx =>
      obtain ⟨hb, hx, -⟩ := evaluates_pow.mp h
      rw [value_pow h, ← ihb hb, ← ihx hx]
      rcases hl : exp.lit? with - | n
      · exact held_pow_of_not_lit hl
      · obtain rfl := lit?_eq_some.mp hl
        rfl
  | powInf base ih =>
      obtain ⟨w, hw⟩ := h
      obtain ⟨b, hb, hb'⟩ := eval_powInf_eq_ok.mp hw
      rw [held, ih ⟨b, hb⟩, value_of_eval hb, hb', value_of_eval hw]
      rfl
  | unary f e ih => rw [held, ih (evaluates_unary.mp h).1, value_unary h]

/-- Where the port does not occur, its value does not matter. -/
theorem held_insert_of_countVar {e : Expr} (h : e.countVar v = 0) (x : ℝ) :
    held at₀ e (inputs.insert v x) = held at₀ e inputs := by
  have hmap : ∀ operands : List Expr,
      (∀ op ∈ operands, op.countVar v = 0 →
        held at₀ op (inputs.insert v x) = held at₀ op inputs) → countVars v operands = 0 →
      (operands.map fun op => held at₀ op (inputs.insert v x))
        = operands.map fun op => held at₀ op inputs :=
    fun operands ih hc => List.map_congr_left fun op hop => ih op hop (countVars_eq_zero.mp hc op hop)
  induction e using ind with
  | var name =>
      have hne : v ≠ name := by
        rintro rfl
        simp [countVar] at h
      rw [held, held, OrdMap.getElem?_insert_eq, if_neg hne]
  | lit x => rfl
  | neg e ih => rw [held, held, ih h]
  | add operands ih => rw [held_add, held_add, hmap operands ih h]
  | mul operands ih => rw [held_mul, held_mul, hmap operands ih h]
  | pow base exp ihb _ =>
      rw [countVar, Nat.add_eq_zero_iff] at h
      rcases hl : exp.lit? with - | n
      · rw [held_pow_of_not_lit hl, held_pow_of_not_lit hl]
      · obtain rfl := lit?_eq_some.mp hl
        rw [held_pow_lit, held_pow_lit, ihb h.1]
  | powInf base ih => rw [held, held, ih h]
  | unary f e ih => rw [held, held, ih h]

/-- Operands that are numbers. -/
theorem map_held_of_lits {operands : List Expr} {qs : List ℚ}
    (hop : ∀ op ∈ operands, ∀ {c : ℚ}, op.canonicalize = lit c → held at₀ op inputs = c)
    (hqs : operands.map canonicalize = qs.map lit) :
    (operands.map fun op => held at₀ op inputs) = qs.map ((↑) : ℚ → ℝ) := by
  induction operands generalizing qs with
  | nil =>
      obtain rfl : qs = [] := List.map_eq_nil_iff.mp hqs.symm
      rfl
  | cons op operands ih =>
      rcases qs with - | ⟨q, qs⟩
      · cases hqs
      · rw [List.map_cons, List.map_cons, List.cons.injEq] at hqs
        rw [List.map_cons, List.map_cons, hop op List.mem_cons_self hqs.1,
          ih (fun op' h => hop op' (List.mem_cons_of_mem _ h)) hqs.2]

/-- What canonicalizes to a number is that number. -/
theorem held_of_canonicalize {e : Expr} {c : ℚ} (h : e.canonicalize = lit c) :
    held at₀ e inputs = c := by
  induction e using ind generalizing c with
  | var name => cases h
  | lit x => rw [held, Expr.lit.inj h]
  | neg e _ => cases h
  | pow base exp _ _ => cases h
  | powInf base _ => cases h
  | unary f e _ => cases h
  | add operands ih =>
      rw [canonicalize, canonicalizeAll_eq_map] at h
      obtain ⟨qs, hqs, rfl⟩ := canonAdd_eq_lit canonical_map_canonicalize h
      rw [held_add, Rat.cast_list_sum, map_held_of_lits ih hqs]
  | mul operands ih =>
      rw [canonicalize, canonicalizeAll_eq_map] at h
      rw [held_mul]
      rcases canonMul_eq_lit canonical_map_canonicalize h with ⟨hzero, rfl⟩ | ⟨qs, hqs, rfl⟩
      · obtain ⟨op, hop, heq⟩ := List.mem_map.mp hzero
        rw [Rat.cast_zero, List.prod_eq_zero_iff]
        refine List.mem_map.mpr ⟨op, hop, ?_⟩
        rw [ih op hop heq, Rat.cast_zero]
      · rw [Rat.cast_list_prod, map_held_of_lits ih hqs]

end Held

/-! ### Where the derivative is a number -/

section Affine

variable {at₀ inputs : PortMap ℝ} {v : String}

/-- The value at a value of the port. -/
noncomputable abbrev heldAt (at₀ inputs : PortMap ℝ) (v : String) (e : Expr) (x : ℝ) : ℝ :=
  held at₀ e (inputs.insert v x)

/-- The product rule for operands with numbers as derivatives: the terms of the
telescoping sum are the terms of the derivative. -/
theorem heldAt_mul_sub {operands before : List Expr} {qs : List ℚ} (x y : ℝ)
    (hop : ∀ op ∈ operands, ∀ c : ℚ, differentiate v op = lit c →
      heldAt at₀ inputs v op x - heldAt at₀ inputs v op y = c * (x - y))
    (hzero : ∀ o ∈ before ++ operands, o.canonicalize ≠ lit 0)
    (hqs : canonTerms v before operands = qs.map lit) :
    (before.map fun o => heldAt at₀ inputs v o y).prod *
        ((operands.map fun o => heldAt at₀ inputs v o x).prod
          - (operands.map fun o => heldAt at₀ inputs v o y).prod)
      = (qs.sum : ℚ) * (x - y) := by
  induction operands generalizing before qs with
  | nil =>
      obtain rfl : qs = [] := List.map_eq_nil_iff.mp hqs.symm
      simp
  | cons op after ih =>
      rcases qs with - | ⟨q, qs⟩
      · cases hqs
      rw [canonTerms, List.map_cons, List.cons.injEq] at hqs
      have hafter := @ih (before ++ [op]) qs
        (fun o h => hop o (List.mem_cons_of_mem _ h)) (by simpa using hzero) hqs.2
      have hterm : (before.map fun o => heldAt at₀ inputs v o y).prod *
          (heldAt at₀ inputs v op x - heldAt at₀ inputs v op y) *
          (after.map fun o => heldAt at₀ inputs v o x).prod = q * (x - y) := by
        rcases canonMul_eq_lit canonical_canonTerm_operands hqs.1 with ⟨hmem, rfl⟩ | ⟨rs, hrs, rfl⟩
        · -- no other operand is 0, so this one is constant
          rcases List.mem_cons.mp hmem with h | h
          · rw [hop op List.mem_cons_self 0 h.symm]
            simp
          · obtain ⟨o, ho, heq⟩ := List.mem_map.mp h
            refine absurd heq (hzero o ?_)
            simp only [List.mem_append, List.mem_cons] at ho ⊢
            tauto
        · rcases rs with - | ⟨r, rs⟩
          · cases hrs
          rw [List.map_cons, List.cons.injEq, List.map_append] at hrs
          obtain ⟨bs, as, rfl, hbs, has⟩ := List.map_eq_append_iff.mp hrs.2.symm
          have hnum : ∀ z, ∀ o : Expr, ∀ {c : ℚ}, o.canonicalize = lit c →
              heldAt at₀ inputs v o z = c := fun z o _ h => held_of_canonicalize h
          rw [hop op List.mem_cons_self r hrs.1, map_held_of_lits (fun o _ => hnum y o) hbs.symm,
            map_held_of_lits (fun o _ => hnum x o) has.symm, ← Rat.cast_list_prod,
            ← Rat.cast_list_prod, List.prod_cons, List.prod_append]
          push_cast
          ring
      rw [List.map_append, List.prod_append, List.map_singleton, List.prod_singleton] at hafter
      rw [List.map_cons, List.prod_cons, List.map_cons, List.prod_cons, List.sum_cons,
        Rat.cast_add]
      linear_combination hterm + hafter

/-- A sum of operands with numbers as derivatives. -/
theorem heldAt_add_sub {operands : List Expr} {qs : List ℚ} (x y : ℝ)
    (hop : ∀ op ∈ operands, ∀ c : ℚ, differentiate v op = lit c →
      heldAt at₀ inputs v op x - heldAt at₀ inputs v op y = c * (x - y))
    (hqs : operands.map (differentiate v) = qs.map lit) :
    (operands.map fun o => heldAt at₀ inputs v o x).sum
        - (operands.map fun o => heldAt at₀ inputs v o y).sum
      = (qs.sum : ℚ) * (x - y) := by
  induction operands generalizing qs with
  | nil =>
      obtain rfl : qs = [] := List.map_eq_nil_iff.mp hqs.symm
      simp
  | cons op operands ih =>
      rcases qs with - | ⟨q, qs⟩
      · cases hqs
      rw [List.map_cons, List.map_cons, List.cons.injEq] at hqs
      have hrest := ih (fun o h => hop o (List.mem_cons_of_mem _ h)) hqs.2
      have hfirst := hop op List.mem_cons_self q hqs.1
      rw [List.map_cons, List.sum_cons, List.map_cons, List.sum_cons, List.sum_cons, Rat.cast_add]
      linear_combination hfirst + hrest

/-- A product of canonical operands that is a number although one of them is
none has an operand 0. -/
theorem zero_mem_of_canonMul {cs : List Expr} (hcs : ∀ c ∈ cs, Canonical c) {c : ℚ}
    (h : canonMul cs = lit c) {e : Expr} (he : e ∈ cs) (hlit : e.lit? = none) :
    lit 0 ∈ cs ∧ c = 0 := by
  rcases canonMul_eq_lit hcs h with hzero | ⟨qs, rfl, -⟩
  · exact hzero
  · obtain ⟨q, -, rfl⟩ := List.mem_map.mp he
    cases hlit

theorem canonical_powRule {base : Expr} {n : ℚ} :
    ∀ d ∈ [lit n, pow base.canonicalize (lit (n - 1)), differentiate v base], Canonical d := by
  simp only [List.forall_mem_cons, List.not_mem_nil, false_imp_iff, implies_true, and_true]
  exact ⟨.lit n, canonical_canonicalize (pow base (lit (n - 1))), canonical_differentiate v base⟩

theorem mem_powRule {base d : Expr} {n : ℚ} :
    lit 0 ∈ [lit n, pow base.canonicalize (lit (n - 1)), d] ↔ lit 0 = lit n ∨ lit 0 = d := by
  simp

theorem canonical_powInfRule {base : Expr} :
    ∀ d ∈ [powInf (lit 2), powInf base.canonicalize, differentiate v base], Canonical d := by
  simp only [List.forall_mem_cons, List.not_mem_nil, false_imp_iff, implies_true, and_true]
  exact ⟨canonical_canonicalize (powInf (lit 2)), canonical_canonicalize (powInf base),
    canonical_differentiate v base⟩

/-- The chain rule gives a number only from a factor 0. -/
theorem chainRule_eq_lit {f : UnaryFn} {u d : Expr} (hd : Canonical d) {c : ℚ}
    (h : (chainRule f u d).canonicalize = lit c) : d = lit 0 ∧ c = 0 := by
  have hcanon : ∀ w : Expr, Canonical w.canonicalize := canonical_canonicalize
  -- the factor that is no number is the other one
  have hfactor : ∀ w : Expr, Canonical w → w.lit? = none → ∀ cs, (cs = [d, w] ∨ cs = [w, d]) →
      canonMul cs = lit c → d = lit 0 ∧ c = 0 := by
    intro w hw hlit cs hcs h
    have hmem : ∀ e, e ∈ cs ↔ e = d ∨ e = w := by
      rcases hcs with rfl | rfl <;> simp [or_comm]
    obtain ⟨hzero, hc⟩ := zero_mem_of_canonMul (fun e he => by
      rcases (hmem e).mp he with rfl | rfl
      · exact hd
      · exact hw) h ((hmem w).mpr (Or.inr rfl)) hlit
    rcases (hmem _).mp hzero with h | rfl
    · exact ⟨h.symm, hc⟩
    · cases hlit
  cases f with
  | sqrt =>
      simp only [chainRule, canonicalize, canonicalizeAll, hd.canonicalize_eq] at h
      exact hfactor _ (hcanon (pow (mul [lit 2, unary .sqrt u]) (lit (-1)))) rfl _ (Or.inl rfl) h
  | sin =>
      simp only [chainRule, canonicalize, canonicalizeAll, hd.canonicalize_eq] at h
      exact hfactor _ (hcanon (unary .cos u)) rfl _ (Or.inr rfl) h
  | cos => cases h
  | exp =>
      simp only [chainRule, canonicalize, canonicalizeAll, hd.canonicalize_eq] at h
      exact hfactor _ (hcanon (unary .exp u)) rfl _ (Or.inr rfl) h
  | ln =>
      simp only [chainRule, canonicalize, canonicalizeAll, hd.canonicalize_eq] at h
      exact hfactor _ (hcanon (pow u (lit (-1)))) rfl _ (Or.inl rfl) h

/-- **A number for a derivative**: the expression is affine in the port, with
that slope. -/
theorem held_sub_of_differentiate {e : Expr} {c : ℚ} (h : differentiate v e = lit c) (x y : ℝ) :
    heldAt at₀ inputs v e x - heldAt at₀ inputs v e y = c * (x - y) := by
  -- what does not contain the port has the slope 0
  have hfree : ∀ {u : Expr}, u.countVar v = 0 → ∀ {c : ℚ}, differentiate v u = lit c →
      heldAt at₀ inputs v u x - heldAt at₀ inputs v u y = c * (x - y) := by
    intro u hv c h
    obtain rfl : (0 : ℚ) = c := Expr.lit.inj ((differentiate_of_countVar hv).symm.trans h)
    rw [heldAt, heldAt, held_insert_of_countVar hv, held_insert_of_countVar hv]
    simp
  have hconst : ∀ {u : Expr}, (∀ {c : ℚ}, differentiate v u = lit c →
      heldAt at₀ inputs v u x - heldAt at₀ inputs v u y = c * (x - y)) →
      differentiate v u = lit 0 → held at₀ u (inputs.insert v x) = held at₀ u (inputs.insert v y) := by
    intro u ih hu
    have := ih hu
    rw [Rat.cast_zero, zero_mul] at this
    exact sub_eq_zero.mp this
  induction e using ind generalizing c with
  | var name =>
      by_cases hv : (var name).countVar v = 0
      · exact hfree hv h
      · obtain rfl : name = v := by
          by_contra hne
          exact hv (by simp [countVar, hne])
        rw [differentiate, gate, if_neg hv, if_pos rfl] at h
        obtain rfl : (1 : ℚ) = c := Expr.lit.inj h
        simp [heldAt, held]
  | lit x => exact hfree rfl h
  | neg u _ =>
      by_cases hv : (neg u).countVar v = 0
      · exact hfree hv h
      · rw [differentiate_neg hv] at h
        cases h
  | add operands ih =>
      by_cases hv : (add operands).countVar v = 0
      · exact hfree hv h
      · rw [differentiate_add hv] at h
        obtain ⟨qs, hqs, rfl⟩ := canonAdd_eq_lit canonical_map_differentiate h
        rw [heldAt, heldAt, held_add, held_add]
        exact heldAt_add_sub x y (fun op hop c hc => ih op hop hc) hqs
  | mul operands ih =>
      by_cases hv : (mul operands).countVar v = 0
      · exact hfree hv h
      by_cases hzero : ∃ o ∈ operands, o.canonicalize = lit 0
      · have hcanon := canonicalize_mul_of_zero hzero
        obtain rfl : (0 : ℚ) = c := Expr.lit.inj ((differentiate_of_canonicalize hcanon).symm.trans h)
        rw [heldAt, heldAt, held_of_canonicalize hcanon, held_of_canonicalize hcanon]
        simp
      · rw [differentiate_mul hv] at h
        obtain ⟨qs, hqs, rfl⟩ := canonAdd_eq_lit canonical_canonTerms h
        have hsub := @heldAt_mul_sub at₀ inputs v operands [] qs x y
          (fun op hop c hc => ih op hop hc) (fun o ho heq => hzero ⟨o, ho, heq⟩) hqs
        rw [heldAt, heldAt, held_mul, held_mul]
        simpa using hsub
  | pow base exp ihb _ =>
      by_cases hv : (pow base exp).countVar v = 0
      · exact hfree hv h
      rcases hl : exp.lit? with - | n
      · obtain rfl : (0 : ℚ) = c :=
          Expr.lit.inj ((differentiate_pow_of_not_lit hl).symm.trans h)
        rw [heldAt, heldAt, held_pow_of_not_lit hl, held_pow_of_not_lit hl]
        simp
      · obtain rfl := lit?_eq_some.mp hl
        rw [differentiate_pow hv] at h
        obtain ⟨hmem, rfl⟩ := zero_mem_of_canonMul canonical_powRule h
          (List.mem_cons_of_mem _ List.mem_cons_self) rfl
        rw [heldAt, heldAt, held_pow_lit, held_pow_lit]
        rcases mem_powRule.mp hmem with hn | hd
        · obtain rfl := Expr.lit.inj hn
          simp
        · rw [hconst ihb hd.symm]
          simp
  | powInf base ih =>
      by_cases hv : (powInf base).countVar v = 0
      · exact hfree hv h
      · rw [differentiate_powInf hv] at h
        obtain ⟨hmem, rfl⟩ := zero_mem_of_canonMul canonical_powInfRule h List.mem_cons_self rfl
        have hd : differentiate v base = lit 0 := by simpa [eq_comm] using hmem
        rw [heldAt, heldAt, held, held, hconst ih hd]
        simp
  | unary f u ih =>
      by_cases hv : (unary f u).countVar v = 0
      · exact hfree hv h
      · rw [differentiate_unary hv] at h
        obtain ⟨hd, rfl⟩ := chainRule_eq_lit (canonical_differentiate v u) h
        rw [heldAt, heldAt, held, held, hconst ih hd]
        simp

end Affine

/-! ### The rules -/

section Rules

variable {inputs : PortMap ℝ} {v : String} {x₀ : ℝ}

theorem evaluates_canonicalize {e : Expr} (h : Evaluates inputs e) :
    Evaluates inputs e.canonicalize ∧ value inputs e.canonicalize = value inputs e :=
  eval_eq_ok.mp (canonicalize_eval inputs e _ h.eval)

/-- The value held at `x₀`, as a function of the port. -/
noncomputable abbrev heldNear (inputs : PortMap ℝ) (v : String) (x₀ : ℝ) (e : Expr) : ℝ → ℝ :=
  heldAt (inputs.insert v x₀) inputs v e

theorem heldNear_self {e : Expr} (h : Evaluates (inputs.insert v x₀) e) :
    heldNear inputs v x₀ e x₀ = value (inputs.insert v x₀) e :=
  held_self h

theorem hasDerivAt_heldNear_add {operands : List Expr}
    (hop : ∀ op ∈ operands, HasDerivAt (heldNear inputs v x₀ op)
      (value (inputs.insert v x₀) (differentiate v op)) x₀) :
    HasDerivAt (fun x => (operands.map fun op => heldNear inputs v x₀ op x).sum)
      ((operands.map (differentiate v)).map (value (inputs.insert v x₀))).sum x₀ := by
  induction operands with
  | nil => exact hasDerivAt_const x₀ 0
  | cons op operands ih =>
      simp only [List.map_cons, List.sum_cons]
      exact (hop op List.mem_cons_self).add (ih fun op' h => hop op' (List.mem_cons_of_mem _ h))

/-- The product rule, from the operands after `before` on. -/
theorem hasDerivAt_heldNear_mul {operands before : List Expr}
    (hop : ∀ op ∈ operands, Evaluates (inputs.insert v x₀) (differentiate v op) →
      HasDerivAt (heldNear inputs v x₀ op) (value (inputs.insert v x₀) (differentiate v op)) x₀)
    (heval : ∀ o ∈ before ++ operands, Evaluates (inputs.insert v x₀) o)
    (hzero : ∀ o ∈ before ++ operands, o.canonicalize ≠ lit 0)
    (hterms : ∀ t ∈ canonTerms v before operands, Evaluates (inputs.insert v x₀) t) :
    ∃ d, HasDerivAt (fun x => (operands.map fun op => heldNear inputs v x₀ op x).prod) d x₀ ∧
      ((canonTerms v before operands).map (value (inputs.insert v x₀))).sum
        = (before.map (value (inputs.insert v x₀))).prod * d := by
  induction operands generalizing before with
  | nil => exact ⟨0, hasDerivAt_const x₀ 1, by simp [canonTerms]⟩
  | cons op after ih =>
      rw [canonTerms, List.forall_mem_cons] at hterms
      obtain ⟨d, hd, hsum⟩ := @ih (before ++ [op])
        (fun o h => hop o (List.mem_cons_of_mem _ h)) (by simpa using heval)
        (by simpa using hzero) hterms.2
      have hothers : ∀ o ∈ before ++ after, o ∈ before ++ op :: after := by
        simp only [List.mem_append, List.mem_cons]
        tauto
      -- a term that collapsed is 0 because its own derivative is
      have hterm : Evaluates (inputs.insert v x₀) (differentiate v op) ∧
          value (inputs.insert v x₀) (canonTerm v op (before ++ after))
            = value (inputs.insert v x₀) (differentiate v op)
              * ((before ++ after).map (value (inputs.insert v x₀))).prod := by
        have hvalues : ((before ++ after).map canonicalize).map (value (inputs.insert v x₀))
            = (before ++ after).map (value (inputs.insert v x₀)) := by
          rw [List.map_map]
          exact List.map_congr_left fun o ho => (evaluates_canonicalize (heval o (hothers o ho))).2
        rcases evaluates_canonMul.mp hterms.1 with hcol | hall
        · rcases List.mem_cons.mp ((collapses_iff canonical_canonTerm_operands).mp hcol) with h | h
          · rw [canonTerm, canonMul_of_collapses hcol, ← h]
            simp
          · obtain ⟨o, ho, heq⟩ := List.mem_map.mp h
            exact absurd heq (hzero o (hothers o ho))
        · refine ⟨hall _ List.mem_cons_self, ?_⟩
          rw [canonTerm, value_canonMul hall, List.map_cons, List.prod_cons, hvalues]
      have hafter : (after.map fun o => heldNear inputs v x₀ o x₀)
          = after.map (value (inputs.insert v x₀)) :=
        List.map_congr_left fun o ho => heldNear_self (heval o (by simp [ho]))
      refine ⟨value (inputs.insert v x₀) (differentiate v op)
          * (after.map (value (inputs.insert v x₀))).prod
          + value (inputs.insert v x₀) op * d, ?_, ?_⟩
      · rw [← hafter, ← heldNear_self (heval op (by simp))]
        simp only [List.map_cons, List.prod_cons]
        exact (hop op List.mem_cons_self hterm.1).mul hd
      · rw [canonTerms, List.map_cons, List.sum_cons, hsum, hterm.2, List.map_append,
          List.prod_append, List.map_append, List.prod_append, List.map_singleton,
          List.prod_singleton]
        ring

/-- The power rule. -/
theorem hasDerivAt_heldNear_pow {base : Expr} {n : ℚ}
    (hb : HasDerivAt (heldNear inputs v x₀ base)
      (value (inputs.insert v x₀) (differentiate v base)) x₀)
    (hbase : Evaluates (inputs.insert v x₀) base)
    (hall : ∀ d ∈ [lit n, pow base.canonicalize (lit (n - 1)), differentiate v base],
      Evaluates (inputs.insert v x₀) d) :
    HasDerivAt (heldNear inputs v x₀ (pow base (lit n)))
      (value (inputs.insert v x₀)
        (canonMul [lit n, pow base.canonicalize (lit (n - 1)), differentiate v base])) x₀ := by
  have hpow := hall (pow base.canonicalize (lit (n - 1))) (by simp)
  have hregular : heldNear inputs v x₀ base x₀ ≠ 0 ∨ (1 : ℝ) ≤ n := by
    obtain ⟨-, -, hdef⟩ := evaluates_pow.mp hpow
    rw [(evaluates_canonicalize hbase).2, value_lit] at hdef
    rw [heldNear_self hbase, or_iff_not_imp_left, not_not]
    intro hzero
    have := hdef.1 hzero
    push_cast at this
    linarith
  have hvalue : value (inputs.insert v x₀)
      (canonMul [lit n, pow base.canonicalize (lit (n - 1)), differentiate v base])
      = value (inputs.insert v x₀) (differentiate v base) * n
        * heldNear inputs v x₀ base x₀ ^ ((n : ℝ) - 1) := by
    rw [value_canonMul hall, heldNear_self hbase]
    simp only [List.map_cons, List.map_nil, List.prod_cons, List.prod_nil, value_lit, mul_one]
    rw [value_pow hpow, (evaluates_canonicalize hbase).2, value_lit]
    push_cast
    ring
  rw [hvalue]
  exact hb.rpow_const hregular

/-- A product of two factors that did not collapse. -/
theorem eval_canonMul_pair {d w : Expr} (hd : Canonical d) (hw : Canonical w) (hd0 : d ≠ lit 0)
    (hw0 : w ≠ lit 0) (h : Evaluates inputs (canonMul [d, w])) :
    Evaluates inputs d ∧ Evaluates inputs w ∧
      value inputs (canonMul [d, w]) = value inputs d * value inputs w := by
  have hcs : ∀ e ∈ [d, w], Canonical e := by simp [hd, hw]
  have hall : ∀ e ∈ [d, w], Evaluates inputs e := by
    refine (evaluates_canonMul.mp h).resolve_left fun hcol => ?_
    rcases List.mem_pair.mp ((collapses_iff hcs).mp hcol) with heq | heq
    · exact hd0 heq.symm
    · exact hw0 heq.symm
  refine ⟨hall d (by simp), hall w (by simp), ?_⟩
  rw [value_canonMul hall]
  simp

/-- A power to -1 is the inverse of what is not 0. -/
theorem value_pow_neg_one {base : Expr} (h : Evaluates inputs (pow base (lit (-1)))) :
    value inputs base ≠ 0 ∧ value inputs (pow base (lit (-1))) = (value inputs base)⁻¹ := by
  obtain ⟨-, -, hdef⟩ := evaluates_pow.mp h
  rw [value_lit] at hdef
  push_cast at hdef
  refine ⟨fun hzero => ?_, ?_⟩
  · have := hdef.1 hzero
    norm_num at this
  · rw [value_pow h, value_lit]
    push_cast
    exact Real.rpow_neg_one _

/-- The chain rule. -/
theorem hasDerivAt_heldNear_unary {f : UnaryFn} {u : Expr}
    (hu : Evaluates (inputs.insert v x₀) (differentiate v u) →
      HasDerivAt (heldNear inputs v x₀ u) (value (inputs.insert v x₀) (differentiate v u)) x₀)
    (heval : Evaluates (inputs.insert v x₀) u) (hd0 : differentiate v u ≠ lit 0)
    (hchain : Evaluates (inputs.insert v x₀) (chainRule f u (differentiate v u)).canonicalize) :
    HasDerivAt (heldNear inputs v x₀ (unary f u))
      (value (inputs.insert v x₀) (chainRule f u (differentiate v u)).canonicalize) x₀ := by
  have hd := canonical_differentiate v u
  have hself := heldNear_self heval
  have hvalue : value (inputs.insert v x₀) u.canonicalize = heldNear inputs v x₀ u x₀ :=
    (evaluates_canonicalize heval).2.trans hself.symm
  have hw : ∀ g : UnaryFn, Canonical (unary g u.canonicalize) :=
    fun g => canonical_canonicalize (unary g u)
  cases f with
  | sqrt =>
      simp only [chainRule, canonicalize, canonicalizeAll, hd.canonicalize_eq] at hchain ⊢
      have hw' : Canonical (pow (canonMul [lit 2, unary .sqrt u.canonicalize]) (lit (-1))) :=
        canonical_canonicalize (pow (mul [lit 2, unary .sqrt u]) (lit (-1)))
      obtain ⟨hdu, hpow, hmul⟩ := eval_canonMul_pair hd hw' hd0 (by simp) hchain
      obtain ⟨hne, hinv⟩ := value_pow_neg_one hpow
      obtain ⟨-, hroot, htwo⟩ :=
        eval_canonMul_pair (.lit 2) (hw .sqrt) (by simp) (by simp) (evaluates_pow.mp hpow).1
      have hbase : value (inputs.insert v x₀) (canonMul [lit 2, unary .sqrt u.canonicalize])
          = 2 * √(heldNear inputs v x₀ u x₀) := by
        rw [htwo, value_unary hroot, hvalue, value_lit, Rat.cast_ofNat]
        rfl
      -- the derivative evaluates, so the root it divides by is not 0
      have hpos : heldNear inputs v x₀ u x₀ ≠ 0 := by
        intro h
        rw [hbase, h, Real.sqrt_zero, mul_zero] at hne
        exact hne rfl
      rw [hmul, hinv, hbase, ← div_eq_mul_inv]
      exact (hu hdu).sqrt hpos
  | sin =>
      simp only [chainRule, canonicalize, canonicalizeAll, hd.canonicalize_eq] at hchain ⊢
      obtain ⟨hcos, hdu, hmul⟩ := eval_canonMul_pair (hw .cos) hd (by simp) hd0 hchain
      rw [hmul, value_unary hcos, hvalue]
      exact (hu hdu).sin
  | cos =>
      simp only [chainRule, canonicalize, canonicalizeAll, hd.canonicalize_eq, evaluates_neg,
        value_neg] at hchain ⊢
      obtain ⟨hsin, hdu, hmul⟩ := eval_canonMul_pair (hw .sin) hd (by simp) hd0 hchain
      rw [hmul, value_unary hsin, hvalue, ← neg_mul]
      exact (hu hdu).cos
  | exp =>
      simp only [chainRule, canonicalize, canonicalizeAll, hd.canonicalize_eq] at hchain ⊢
      obtain ⟨hexp, hdu, hmul⟩ := eval_canonMul_pair (hw .exp) hd (by simp) hd0 hchain
      rw [hmul, value_unary hexp, hvalue]
      exact (hu hdu).exp
  | ln =>
      simp only [chainRule, canonicalize, canonicalizeAll, hd.canonicalize_eq] at hchain ⊢
      have hw' : Canonical (pow u.canonicalize (lit (-1))) :=
        canonical_canonicalize (pow u (lit (-1)))
      obtain ⟨hdu, hpow, hmul⟩ := eval_canonMul_pair hd hw' hd0 (by simp) hchain
      obtain ⟨hne, hinv⟩ := value_pow_neg_one hpow
      rw [hvalue] at hne
      rw [hmul, hinv, hvalue, ← div_eq_mul_inv]
      exact (hu hdu).log hne

/-- The chain rule at a derivative that is literally 0. -/
theorem value_chainRule_zero (f : UnaryFn) (u : Expr) :
    value inputs (chainRule f u (lit 0)).canonicalize = 0 := by
  have hcol : ∀ cs : List Expr, lit 0 ∈ cs → value inputs (canonMul cs) = 0 := by
    intro cs hmem
    rw [canonMul_of_prod_eq_zero, value_lit, Rat.cast_zero]
    exact List.prod_eq_zero (mem_lits.mpr (List.mem_flatMap.mpr ⟨_, hmem, List.mem_cons_self⟩))
  cases f with
  | cos =>
      rw [chainRule, canonicalize, value_neg, canonicalize, hcol, neg_zero]
      simp [canonicalizeAll, canonicalize]
  | _ =>
      rw [chainRule, canonicalize, hcol]
      simp [canonicalizeAll, canonicalize]

/-- No infinity evaluates. -/
theorem not_evaluates_infinity : ¬Evaluates inputs (powInf (lit 2)) := by
  rintro ⟨w, hw⟩
  obtain ⟨b, hb, hb'⟩ := eval_powInf_eq_ok.mp hw
  obtain rfl : ((2 : ℚ) : ℝ) = b := value_of_eval hb
  norm_num [powfInf] at hb'
  cases hb'

/-- The derivative is that of the expression with its powers held. -/
theorem hasDerivAt_held {e : Expr} (heval : Evaluates (inputs.insert v x₀) e)
    (hd : Evaluates (inputs.insert v x₀) (differentiate v e)) :
    HasDerivAt (heldNear inputs v x₀ e) (value (inputs.insert v x₀) (differentiate v e)) x₀ := by
  -- where the derivative is literally 0, the subexpression is constant
  have hconst : ∀ {u : Expr}, differentiate v u = lit 0 → ∀ x,
      heldNear inputs v x₀ u x = heldNear inputs v x₀ u x₀ := by
    intro u hu x
    have := @held_sub_of_differentiate (inputs.insert v x₀) inputs v u 0 hu x x₀
    rw [Rat.cast_zero, zero_mul] at this
    exact sub_eq_zero.mp this
  have hzero : ∀ {u : Expr}, differentiate v u = lit 0 →
      HasDerivAt (heldNear inputs v x₀ u)
        (value (inputs.insert v x₀) (differentiate v u)) x₀ := by
    intro u hu
    rw [hu, value_lit, Rat.cast_zero, funext (hconst hu)]
    exact hasDerivAt_const x₀ _
  induction e using ind with
  | var name =>
      by_cases hv : (var name).countVar v = 0
      · exact hzero (differentiate_of_countVar hv)
      · obtain rfl : name = v := by
          by_contra hne
          exact hv (by simp [countVar, hne])
        have hone : differentiate name (var name) = lit 1 := by
          rw [differentiate, gate, if_neg hv, if_pos rfl]
          rfl
        have hid : heldNear inputs name x₀ (var name) = id := by
          funext x
          simp [heldNear, heldAt, held]
        rw [hone, hid, value_lit, Rat.cast_one]
        exact hasDerivAt_id x₀
  | lit x => exact hzero rfl
  | neg u ih =>
      by_cases hv : (neg u).countVar v = 0
      · exact hzero (differentiate_of_countVar hv)
      · rw [differentiate_neg hv] at hd ⊢
        rw [value_neg]
        exact (ih (evaluates_neg.mp heval) (evaluates_neg.mp hd)).neg
  | add operands ih =>
      by_cases hv : (add operands).countVar v = 0
      · exact hzero (differentiate_of_countVar hv)
      · rw [differentiate_add hv] at hd ⊢
        have hops := evaluates_canonAdd.mp hd
        have hfun : heldNear inputs v x₀ (add operands)
            = fun x => (operands.map fun op => heldNear inputs v x₀ op x).sum :=
          funext fun x => held_add operands
        rw [hfun, value_canonAdd hops]
        exact hasDerivAt_heldNear_add fun op hop =>
          ih op hop (evaluates_add.mp heval op hop) (hops _ (List.mem_map_of_mem hop))
  | mul operands ih =>
      by_cases hv : (mul operands).countVar v = 0
      · exact hzero (differentiate_of_countVar hv)
      by_cases hnone : ∃ o ∈ operands, o.canonicalize = lit 0
      · exact hzero (differentiate_of_canonicalize (canonicalize_mul_of_zero hnone))
      · rw [differentiate_mul hv] at hd ⊢
        have hterms := evaluates_canonAdd.mp hd
        obtain ⟨d, hderiv, hsum⟩ := @hasDerivAt_heldNear_mul inputs v x₀ operands []
          (fun op hop => ih op hop (evaluates_mul.mp heval op hop)) (evaluates_mul.mp heval)
          (fun o ho heq => hnone ⟨o, ho, heq⟩) hterms
        have hfun : heldNear inputs v x₀ (mul operands)
            = fun x => (operands.map fun op => heldNear inputs v x₀ op x).prod :=
          funext fun x => held_mul operands
        rw [hfun, value_canonAdd hterms, hsum, List.map_nil, List.prod_nil, one_mul]
        exact hderiv
  | pow base exp ihb _ =>
      by_cases hv : (pow base exp).countVar v = 0
      · exact hzero (differentiate_of_countVar hv)
      rcases hl : exp.lit? with - | n
      · exact hzero (differentiate_pow_of_not_lit hl)
      · obtain rfl := lit?_eq_some.mp hl
        by_cases hcol : Collapses
            [lit n, pow base.canonicalize (lit (n - 1)), differentiate v base]
        · apply hzero
          rw [differentiate_pow hv, canonMul_of_collapses hcol]
        · rw [differentiate_pow hv] at hd ⊢
          have hall := (evaluates_canonMul.mp hd).resolve_left hcol
          have hbase := (evaluates_pow.mp heval).1
          exact hasDerivAt_heldNear_pow (ihb hbase (hall _ (by simp))) hbase hall
  | powInf base ih =>
      by_cases hv : (powInf base).countVar v = 0
      · exact hzero (differentiate_of_countVar hv)
      by_cases hcol : Collapses
          [powInf (lit 2), powInf base.canonicalize, differentiate v base]
      · apply hzero
        rw [differentiate_powInf hv, canonMul_of_collapses hcol]
      · rw [differentiate_powInf hv] at hd
        have hall := (evaluates_canonMul.mp hd).resolve_left hcol
        exact absurd (hall (powInf (lit 2)) List.mem_cons_self) not_evaluates_infinity
  | unary f u ih =>
      by_cases hv : (unary f u).countVar v = 0
      · exact hzero (differentiate_of_countVar hv)
      have hu := (evaluates_unary.mp heval).1
      by_cases hd0 : differentiate v u = lit 0
      · -- a function of what is constant
        have hfun : heldNear inputs v x₀ (unary f u) = fun _ => f.real (heldNear inputs v x₀ u x₀) :=
          funext fun x => congrArg f.real (hconst hd0 x)
        rw [differentiate_unary hv, hd0, value_chainRule_zero, hfun]
        exact hasDerivAt_const x₀ _
      · rw [differentiate_unary hv] at hd ⊢
        exact hasDerivAt_heldNear_unary (ih hu) hu hd0 hd

end Rules

/-! ### The partial derivative -/

mutual

/-- No power whose exponent is no literal contains the port. -/
def LiteralPowers (v : String) : Expr → Prop
  | var _ => True
  | lit _ => True
  | neg e => LiteralPowers v e
  | add operands => AllLiteralPowers v operands
  | mul operands => AllLiteralPowers v operands
  | pow base exp =>
      LiteralPowers v base ∧ LiteralPowers v exp ∧
        (exp.lit? = none → (pow base exp).countVar v = 0)
  | powInf base => LiteralPowers v base
  | unary _ e => LiteralPowers v e

def AllLiteralPowers (v : String) : List Expr → Prop
  | [] => True
  | op :: operands => LiteralPowers v op ∧ AllLiteralPowers v operands

end

section Partial

variable {e : Expr} {p : String} {inputs : PortMap ℝ} {x₀ d d' : ℝ} {S : Set ℝ}

theorem allLiteralPowers_iff {operands : List Expr} :
    AllLiteralPowers p operands ↔ ∀ op ∈ operands, LiteralPowers p op := by
  induction operands with
  | nil => simp [AllLiteralPowers]
  | cons op operands ih => simp [AllLiteralPowers, ih]

/-- The value that is held is of no account then. -/
theorem held_insert_of_literalPowers (h : LiteralPowers p e) (at₀ : PortMap ℝ) (y : ℝ) :
    held (at₀.insert p y) e inputs = held at₀ e inputs := by
  induction e using ind generalizing inputs with
  | var name => rfl
  | lit x => rfl
  | neg u ih => rw [held, held, ih h]
  | add operands ih =>
      rw [held_add, held_add]
      exact congrArg List.sum
        (List.map_congr_left fun op hop => ih op hop (allLiteralPowers_iff.mp h op hop))
  | mul operands ih =>
      rw [held_mul, held_mul]
      exact congrArg List.prod
        (List.map_congr_left fun op hop => ih op hop (allLiteralPowers_iff.mp h op hop))
  | pow base exp ihb ihx =>
      obtain ⟨hb, hx, hfree⟩ := h
      rcases hl : exp.lit? with - | n
      · obtain ⟨hb0, hx0⟩ := Nat.add_eq_zero_iff.mp (hfree hl)
        rw [held_pow_of_not_lit hl, held_pow_of_not_lit hl, ihb hb, ihx hx,
          held_insert_of_countVar hb0, held_insert_of_countVar hx0]
      · obtain rfl := lit?_eq_some.mp hl
        rw [held_pow_lit, held_pow_lit, ihb hb]
  | powInf base ih => rw [held, held, ih h]
  | unary f u ih => rw [held, held, ih h]

theorem heldNear_of_literalPowers (h : LiteralPowers p e) {x : ℝ}
    (heval : Evaluates (inputs.insert p x) e) :
    heldNear inputs p x₀ e x = value (inputs.insert p x) e :=
  calc held (inputs.insert p x₀) e (inputs.insert p x)
      = held inputs e (inputs.insert p x) := held_insert_of_literalPowers h inputs x₀
    _ = held (inputs.insert p x) e (inputs.insert p x) :=
        (held_insert_of_literalPowers h inputs x).symm
    _ = value (inputs.insert p x) e := held_self heval

/-- **Differentiation**: where the expression has a partial derivative and the
derivative evaluates, they agree exactly if holding the port at its value in
the powers whose exponent is no literal leaves the partial derivative as it
is. -/
theorem differentiate_eval_iff (heval : Evaluates (inputs.insert p x₀) e)
    (hS : UniqueDiffWithinAt ℝ S x₀)
    (hderiv : HasDerivWithinAt (fun x => value (inputs.insert p x) e) d' S x₀)
    (hd : (differentiate p e).eval (inputs.insert p x₀) = .ok d) :
    d = d' ↔ HasDerivWithinAt (heldNear inputs p x₀ e) d' S x₀ := by
  have hheld := hasDerivAt_held heval ⟨d, hd⟩
  rw [value_of_eval hd] at hheld
  constructor
  · rintro rfl
    exact hheld.hasDerivWithinAt
  · exact fun h => hS.eq_deriv S hheld.hasDerivWithinAt h

/-- The square, at 3. -/
theorem differentiate_eval_iff_square : (6 : ℝ) = 6 ↔
    HasDerivWithinAt (heldNear ∅ "x" 3 (pow (var "x") (lit 2))) 6 Set.univ 3 := by
  have hvar : ∀ x : ℝ, (var "x").eval ((∅ : PortMap ℝ).insert "x" x) = .ok x :=
    fun x => (eval_var "x").mpr (by simp)
  have hpow : ∀ (x : ℝ) (n : ℚ), 0 ≤ n → n.den = 1 →
      (pow (var "x") (lit n)).eval ((∅ : PortMap ℝ).insert "x" x) = .ok (x ^ (n : ℝ)) := by
    intro x n hn hden
    refine eval_pow_eq_ok.mpr ⟨x, n, hvar x, rfl, ⟨fun _ => by exact_mod_cast hn, fun _ => ?_⟩, rfl⟩
    exact ⟨n.num, by exact_mod_cast (Rat.den_eq_one_iff n).mp hden |>.symm⟩
  have hone := hpow 3 1 (by norm_num) rfl
  refine @differentiate_eval_iff (pow (var "x") (lit 2)) "x" ∅ 3 6 6 Set.univ
    ⟨_, hpow 3 2 (by norm_num) rfl⟩ uniqueDiffWithinAt_univ ?_ ?_
  · have hfun : (fun x : ℝ => value ((∅ : PortMap ℝ).insert "x" x) (pow (var "x") (lit 2)))
        = fun x => x ^ 2 := by
      funext x
      rw [value_of_eval (hpow x 2 (by norm_num) rfl)]
      norm_num
    rw [hfun]
    have := hasDerivAt_pow 2 (3 : ℝ)
    norm_num at this
    exact this.hasDerivWithinAt
  · have hd : differentiate "x" (pow (var "x") (lit 2))
        = canonMul [lit 2, pow (var "x") (lit 1), lit 1] := by decide +kernel
    have hall : ∀ t ∈ [lit 2, pow (var "x") (lit 1), lit 1],
        Evaluates ((∅ : PortMap ℝ).insert "x" 3) t := by
      simp only [List.forall_mem_cons, List.not_mem_nil, false_imp_iff, implies_true, and_true]
      exact ⟨evaluates_lit 2, ⟨_, hone⟩, evaluates_lit 1⟩
    rw [hd, eval_eq_ok, value_canonMul hall]
    refine ⟨evaluates_canonMul.mpr (Or.inr hall), ?_⟩
    simp only [List.map_cons, List.map_nil, List.prod_cons, List.prod_nil, value_lit,
      value_of_eval hone]
    norm_num

/-- `2^x` has the derivative `ln 2` at 0, and 0 is what is computed. -/
theorem differentiate_exponential :
    (∀ x : ℝ, Evaluates ((∅ : PortMap ℝ).insert "x" x) (pow (lit 2) (var "x"))) ∧
      HasDerivAt (fun x => value ((∅ : PortMap ℝ).insert "x" x) (pow (lit 2) (var "x")))
        (Real.log 2) 0 ∧
      (differentiate "x" (pow (lit 2) (var "x"))).eval ((∅ : PortMap ℝ).insert "x" 0) = .ok 0 ∧
      Real.log 2 ≠ 0 := by
  have hpow : ∀ x : ℝ,
      (pow (lit 2) (var "x")).eval ((∅ : PortMap ℝ).insert "x" x) = .ok ((2 : ℝ) ^ x) := by
    intro x
    refine eval_pow_eq_ok.mpr ⟨_, x, rfl, (eval_var "x").mpr (by simp), ?_, by norm_num⟩
    constructor <;> intro h <;> norm_num at h
  refine ⟨fun x => ⟨_, hpow x⟩, ?_, ?_, ?_⟩
  · rw [funext fun x => value_of_eval (hpow x)]
    have := Real.hasStrictDerivAt_const_rpow (show (0 : ℝ) < 2 by norm_num) 0
    rw [Real.rpow_zero, one_mul] at this
    exact this.hasDerivAt
  · rw [differentiate_pow_of_not_lit rfl, eval, Rat.cast_zero]
  · exact (Real.log_pos (by norm_num)).ne'

/-- What the product, power and chain rules cover is differentiated right. -/
theorem differentiate_eval_of_literalPowers (h : LiteralPowers p e)
    (heval : ∀ x ∈ insert x₀ S, Evaluates (inputs.insert p x) e) (hS : UniqueDiffWithinAt ℝ S x₀)
    (hderiv : HasDerivWithinAt (fun x => value (inputs.insert p x) e) d' S x₀)
    (hd : (differentiate p e).eval (inputs.insert p x₀) = .ok d) : d = d' := by
  have hx₀ := heval x₀ (Set.mem_insert x₀ S)
  have hheld := hasDerivAt_held hx₀ ⟨d, hd⟩
  rw [value_of_eval hd] at hheld
  refine hS.eq_deriv S (hheld.hasDerivWithinAt.congr (fun x hx => ?_) ?_) hderiv
  · exact (heldNear_of_literalPowers h (heval x (Set.mem_insert_of_mem _ hx))).symm
  · exact (heldNear_of_literalPowers h hx₀).symm

end Partial

end Expr

end Feldspar

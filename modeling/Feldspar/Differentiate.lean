/-
Feldspar/Differentiate.lean

`differentiate`: the derivative of an expression by a port, in canonical form.

The rules are folded by the canonicalization as they are built, so the value of
a derivative is the sum and the products of the rules only where no product
collapsed.  A product collapses exactly at an operand that is literally 0
(`collapses_iff`), and what is literally a number is read back by
`canonAdd_eq_lit` and `canonMul_eq_lit`.
-/
import Feldspar.SymbolicEval

set_option linter.unusedSectionVars false

namespace Feldspar

namespace Expr

/-! ### The rules -/

/-- The occurrence gate: what does not contain the port has the derivative
0. -/
def gate (v : String) (e raw : Expr) : Expr :=
  if e.countVar v = 0 then lit 0 else raw.canonicalize

/-- A term of the product rule. -/
def productTerm (d : Expr) (others : List Expr) : Expr :=
  if others.isEmpty then d else mul (d :: others)

/-- The product rule, for the operands after `before` and their derivatives. -/
def productRule (before : List Expr) : List Expr → List Expr → List Expr
  | op :: after, d :: ds =>
      productTerm d (before ++ after) :: productRule (before ++ [op]) after ds
  | _, _ => []

/-- `d/dx[f(u)]`, from `u` and `u'`. -/
def chainRule (f : UnaryFn) (u d : Expr) : Expr :=
  match f with
  | .sqrt => mul [d, pow (mul [lit 2, unary .sqrt u]) (lit (-1))]
  | .sin => mul [unary .cos u, d]
  | .cos => neg (mul [unary .sin u, d])
  | .exp => mul [unary .exp u, d]
  | .ln => mul [d, pow u (lit (-1))]

mutual

/-- `differentiate`. -/
def differentiate (v : String) : Expr → Expr
  | var name => gate v (var name) (if name = v then lit 1 else lit 0)
  | lit x => gate v (lit x) (lit 0)
  | neg inner => gate v (neg inner) (neg (differentiate v inner))
  | add operands => gate v (add operands) (add (differentiateAll v operands))
  | mul operands =>
      gate v (mul operands) (add (productRule [] operands (differentiateAll v operands)))
  | pow base exp =>
      gate v (pow base exp)
        (match exp.lit? with
        | some n => mul [lit n, pow base (lit (n - 1)), differentiate v base]
        -- the port in the exponent, or a base to no literal power
        | none => lit 0)
  -- the rule's factor is the exponent, infinity: literals are rational here, so it stands
  -- as the power with that value, and is not folded
  | powInf base =>
      gate v (powInf base) (mul [powInf (lit 2), powInf base, differentiate v base])
  | unary f inner => gate v (unary f inner) (chainRule f inner (differentiate v inner))

def differentiateAll (v : String) : List Expr → List Expr
  | [] => []
  | op :: operands => differentiate v op :: differentiateAll v operands

end

theorem differentiateAll_eq_map (v : String) (operands : List Expr) :
    differentiateAll v operands = operands.map (differentiate v) := by
  induction operands with
  | nil => rfl
  | cons op operands ih => rw [differentiateAll, ih, List.map_cons]

/-! ### Canonical derivatives -/

theorem canonical_gate (v : String) (e raw : Expr) : Canonical (gate v e raw) := by
  unfold gate
  split_ifs
  · exact .lit 0
  · exact canonical_canonicalize raw

theorem gate_of_countVar {v : String} {e raw : Expr} (h : e.countVar v = 0) :
    gate v e raw = lit 0 := if_pos h

theorem canonical_differentiate (v : String) (e : Expr) : Canonical (differentiate v e) := by
  cases e <;> exact canonical_gate _ _ _

theorem differentiate_of_countVar {v : String} {e : Expr} (h : e.countVar v = 0) :
    differentiate v e = lit 0 := by
  cases e <;> exact gate_of_countVar h

section Forms

variable {v : String}

theorem differentiate_neg {inner : Expr} (h : (neg inner).countVar v ≠ 0) :
    differentiate v (neg inner) = neg (differentiate v inner) := by
  rw [differentiate, gate, if_neg h, canonicalize, (canonical_differentiate v inner).canonicalize_eq]

theorem differentiate_add {operands : List Expr} (h : (add operands).countVar v ≠ 0) :
    differentiate v (add operands) = canonAdd (operands.map (differentiate v)) := by
  rw [differentiate, gate, if_neg h, canonicalize, differentiateAll_eq_map, canonicalizeAll_eq_map,
    List.map_map]
  congr 1
  exact List.map_congr_left fun op _ => (canonical_differentiate v op).canonicalize_eq

/-- The term of the product rule at `op`, in canonical form. -/
def canonTerm (v : String) (op : Expr) (others : List Expr) : Expr :=
  canonMul (differentiate v op :: others.map canonicalize)

theorem canonicalize_productTerm (op : Expr) (others : List Expr) :
    (productTerm (differentiate v op) others).canonicalize = canonTerm v op others := by
  have hd := canonical_differentiate v op
  unfold productTerm canonTerm
  rcases others with - | ⟨o, others⟩
  · exact hd.canonicalize_eq.trans (canonMul_single hd).symm
  · rw [if_neg (by simp), canonicalize, canonicalizeAll_eq_map, List.map_cons, hd.canonicalize_eq]

/-- The canonical terms of the operands after `before`. -/
def canonTerms (v : String) (before : List Expr) : List Expr → List Expr
  | [] => []
  | op :: after => canonTerm v op (before ++ after) :: canonTerms v (before ++ [op]) after

theorem canonicalize_productRule : ∀ (before operands : List Expr),
    (productRule before operands (operands.map (differentiate v))).map canonicalize
      = canonTerms v before operands
  | _, [] => rfl
  | before, op :: after => by
      rw [List.map_cons, productRule, List.map_cons, canonicalize_productTerm,
        canonicalize_productRule (before ++ [op]) after, canonTerms]

theorem differentiate_mul {operands : List Expr} (h : (mul operands).countVar v ≠ 0) :
    differentiate v (mul operands) = canonAdd (canonTerms v [] operands) := by
  rw [differentiate, gate, if_neg h, canonicalize, differentiateAll_eq_map, canonicalizeAll_eq_map,
    canonicalize_productRule]

theorem differentiate_pow {base : Expr} {n : ℚ} (h : (pow base (lit n)).countVar v ≠ 0) :
    differentiate v (pow base (lit n))
      = canonMul [lit n, pow base.canonicalize (lit (n - 1)), differentiate v base] := by
  rw [differentiate, gate, if_neg h]
  show (mul [lit n, pow base (lit (n - 1)), differentiate v base]).canonicalize = _
  simp only [canonicalize, canonicalizeAll, (canonical_differentiate v base).canonicalize_eq]

theorem differentiate_pow_of_not_lit {base exp : Expr} (h : exp.lit? = none) :
    differentiate v (pow base exp) = lit 0 := by
  rw [differentiate, h, gate]
  split_ifs <;> rfl

theorem differentiate_powInf {base : Expr} (h : (powInf base).countVar v ≠ 0) :
    differentiate v (powInf base)
      = canonMul [powInf (lit 2), powInf base.canonicalize, differentiate v base] := by
  rw [differentiate, gate, if_neg h]
  simp only [canonicalize, canonicalizeAll, (canonical_differentiate v base).canonicalize_eq]

theorem differentiate_unary {f : UnaryFn} {inner : Expr} (h : (unary f inner).countVar v ≠ 0) :
    differentiate v (unary f inner) = (chainRule f inner (differentiate v inner)).canonicalize := by
  rw [differentiate, gate, if_neg h]

end Forms

/-! ### What is literally a number -/

theorem factors_prod_eq_zero {c : Expr} (hc : Canonical c) :
    (lits (factors c)).prod = 0 ↔ c = lit 0 := by
  constructor
  · intro h
    cases hc with
    | lit x => simpa [factors, lits, lit?] using h
    | mul _ _ hzero => exact absurd (List.prod_eq_zero_iff.mp h) hzero
    | _ => exact absurd h one_ne_zero
  · rintro rfl
    exact List.prod_singleton

theorem prod_lits_flatMap (cs : List Expr) :
    (lits (cs.flatMap factors)).prod = (cs.map fun c => (lits (factors c)).prod).prod := by
  induction cs with
  | nil => rfl
  | cons c cs ih => rw [List.flatMap_cons, lits_append, List.prod_append, ih, List.map_cons,
      List.prod_cons]

/-- A product of canonical operands collapses at an operand that is 0. -/
theorem collapses_iff {cs : List Expr} (hcs : ∀ c ∈ cs, Canonical c) :
    Collapses cs ↔ lit 0 ∈ cs := by
  rw [Collapses, prod_lits_flatMap, List.prod_eq_zero_iff, List.mem_map]
  constructor
  · rintro ⟨c, hc, hzero⟩
    exact (factors_prod_eq_zero (hcs c hc)).mp hzero ▸ hc
  · exact fun h => ⟨_, h, (factors_prod_eq_zero (.lit 0)).mpr rfl⟩

theorem lit?_assemble {node : List Expr → Expr} {identity folded c : ℚ} {others : List Expr}
    (hnode : ∀ l, (node l).lit? = none) (hothers : ∀ e ∈ others, e.lit? = none)
    (h : assemble node identity folded others = lit c) : others = [] ∧ c = folded := by
  rcases assemble_cases node identity folded others with
    ⟨rfl, rfl, heq⟩ | ⟨e, rfl, rfl, heq⟩ | ⟨rfl, -, heq⟩ | ⟨-, heq⟩ <;> rw [heq] at h
  · exact ⟨rfl, (Expr.lit.inj h).symm⟩
  · have := hothers e List.mem_cons_self
    rw [h] at this
    cases this
  · exact ⟨rfl, (Expr.lit.inj h).symm⟩
  · have := hnode ((others ++ (remaining identity folded).map lit).insertionSort le)
    rw [h] at this
    cases this

/-- An operand without other parts than literals is a literal. -/
theorem eq_lit_of_parts {parts : Expr → List Expr} {c : Expr}
    (hparts : parts c = [c] ∨ 2 ≤ (parts c).length ∧ (lits (parts c)).length ≤ 1)
    (h : nonLits (parts c) = []) : ∃ q, c = lit q := by
  rcases hparts with hself | ⟨htwo, hone⟩
  · rw [hself] at h
    rcases hc : c.lit? with - | q
    · have : c ∈ nonLits [c] := mem_nonLits.mpr ⟨List.mem_cons_self, hc⟩
      rw [h] at this
      cases this
    · exact ⟨q, lit?_eq_some.mp hc⟩
  · have hlen := (nonLits_append_lits_perm (parts c)).length_eq
    rw [h, List.nil_append, List.length_map] at hlen
    omega

theorem length_lits_le {parts : Expr → List Expr} {identity : ℚ} {operands : List Expr}
    (h : Operands parts identity operands) : (lits operands).length ≤ 1 := by
  obtain ⟨folded, hl⟩ := h.lits
  rw [hl, remaining]
  split_ifs <;> simp

theorem addends_cases {c : Expr} (hc : Canonical c) :
    addends c = [c] ∨ 2 ≤ (addends c).length ∧ (lits (addends c)).length ≤ 1 := by
  cases hc with
  | add _ hops => exact Or.inr ⟨hops.two, length_lits_le hops⟩
  | _ => exact Or.inl rfl

theorem factors_cases {c : Expr} (hc : Canonical c) :
    factors c = [c] ∨ 2 ≤ (factors c).length ∧ (lits (factors c)).length ≤ 1 := by
  cases hc with
  | mul _ hops _ => exact Or.inr ⟨hops.two, length_lits_le hops⟩
  | _ => exact Or.inl rfl

/-- A list whose parts are all literals is a list of literals. -/
theorem exists_lits {parts : Expr → List Expr} : ∀ {cs : List Expr},
    (∀ c ∈ cs, parts c = [c] ∨ 2 ≤ (parts c).length ∧ (lits (parts c)).length ≤ 1) →
    nonLits (cs.flatMap parts) = [] → ∃ qs : List ℚ, cs = qs.map lit
  | [], _, _ => ⟨[], rfl⟩
  | c :: cs, hcs, h => by
      rw [List.flatMap_cons, nonLits_append, List.append_eq_nil_iff] at h
      obtain ⟨q, rfl⟩ := eq_lit_of_parts (hcs c List.mem_cons_self) h.1
      obtain ⟨qs, rfl⟩ := exists_lits (fun c' hc => hcs c' (List.mem_cons_of_mem _ hc)) h.2
      exact ⟨q :: qs, rfl⟩

theorem lits_flatMap_map_lit {parts : Expr → List Expr} (hlit : ∀ x, parts (lit x) = [lit x])
    (qs : List ℚ) : lits ((qs.map lit).flatMap parts) = qs := by
  rw [flatMap_eq_self, lits_map_lit]
  intro op hop
  obtain ⟨x, -, rfl⟩ := List.mem_map.mp hop
  exact hlit x

/-- A sum that is a number has numbers for operands. -/
theorem canonAdd_eq_lit {cs : List Expr} (hcs : ∀ c ∈ cs, Canonical c) {c : ℚ}
    (h : canonAdd cs = lit c) : ∃ qs : List ℚ, cs = qs.map lit ∧ qs.sum = c := by
  obtain ⟨hnil, rfl⟩ := lit?_assemble (fun _ => rfl) (fun e he => (mem_nonLits.mp he).2) h
  obtain ⟨qs, rfl⟩ := exists_lits (fun c hc => addends_cases (hcs c hc)) hnil
  exact ⟨qs, rfl, by rw [lits_flatMap_map_lit fun _ => rfl]⟩

/-- A product that is a number has an operand 0, or numbers for operands. -/
theorem canonMul_eq_lit {cs : List Expr} (hcs : ∀ c ∈ cs, Canonical c) {c : ℚ}
    (h : canonMul cs = lit c) :
    (lit 0 ∈ cs ∧ c = 0) ∨ ∃ qs : List ℚ, cs = qs.map lit ∧ qs.prod = c := by
  by_cases hcol : Collapses cs
  · rw [canonMul_of_collapses hcol] at h
    exact Or.inl ⟨(collapses_iff hcs).mp hcol, (Expr.lit.inj h).symm⟩
  · rw [canonMul_of_prod_ne_zero hcol] at h
    obtain ⟨hnil, rfl⟩ := lit?_assemble (fun _ => rfl) (fun e he => (mem_nonLits.mp he).2) h
    obtain ⟨qs, rfl⟩ := exists_lits (fun c hc => factors_cases (hcs c hc)) hnil
    exact Or.inr ⟨qs, rfl, by rw [lits_flatMap_map_lit fun _ => rfl]⟩

theorem canonAdd_of_all_zero {cs : List Expr} (h : ∀ c ∈ cs, c = lit 0) : canonAdd cs = lit 0 := by
  obtain ⟨n, rfl⟩ : ∃ n, cs = (List.replicate n (0 : ℚ)).map lit := by
    refine ⟨cs.length, ?_⟩
    rw [List.map_replicate]
    exact List.eq_replicate_of_mem h
  rw [canonAdd_eq, lits_flatMap_map_lit fun _ => rfl, flatMap_eq_self, nonLits_map_lit]
  · simp [assemble]
  · intro op hop
    obtain ⟨x, -, rfl⟩ := List.mem_map.mp hop
    rfl

/-! ### Numbers have the derivative 0 -/

/-- The other operands of a product, at each of them. -/
theorem mem_canonTerms {v : String} {t : Expr} : ∀ {before operands : List Expr},
    t ∈ canonTerms v before operands →
    ∃ l op r, operands = l ++ op :: r ∧ t = canonTerm v op (before ++ l ++ r)
  | _, [], h => by cases h
  | before, op :: after, h => by
      rcases List.mem_cons.mp h with rfl | h
      · exact ⟨[], op, after, rfl, by simp⟩
      · obtain ⟨l, op', r, rfl, rfl⟩ := mem_canonTerms h
        exact ⟨op :: l, op', r, rfl, by simp⟩

theorem canonical_canonTerm_operands {v : String} {op : Expr} {others : List Expr} :
    ∀ c ∈ differentiate v op :: others.map canonicalize, Canonical c := by
  intro c hc
  rcases List.mem_cons.mp hc with rfl | hc
  · exact canonical_differentiate v op
  · obtain ⟨o, -, rfl⟩ := List.mem_map.mp hc
    exact canonical_canonicalize o

theorem canonical_canonTerms {v : String} {before operands : List Expr} :
    ∀ c ∈ canonTerms v before operands, Canonical c := by
  intro c hc
  obtain ⟨l, op, r, -, rfl⟩ := mem_canonTerms hc
  exact canonical_canonMul canonical_canonTerm_operands

theorem canonTerm_of_zero {v : String} {op : Expr} {others : List Expr}
    (h : differentiate v op = lit 0 ∨ ∃ o ∈ others, o.canonicalize = lit 0) :
    canonTerm v op others = lit 0 := by
  apply canonMul_of_collapses
  rw [collapses_iff canonical_canonTerm_operands]
  rcases h with h | ⟨o, ho, hzero⟩
  · exact h ▸ List.mem_cons_self
  · exact List.mem_cons_of_mem _ (hzero ▸ List.mem_map_of_mem ho)

theorem canonical_map_canonicalize {operands : List Expr} :
    ∀ c ∈ operands.map canonicalize, Canonical c := by
  intro c hc
  obtain ⟨op, -, rfl⟩ := List.mem_map.mp hc
  exact canonical_canonicalize op

theorem canonical_map_differentiate {v : String} {operands : List Expr} :
    ∀ d ∈ operands.map (differentiate v), Canonical d := by
  intro d hd
  obtain ⟨op, -, rfl⟩ := List.mem_map.mp hd
  exact canonical_differentiate v op

theorem canonicalize_mul_of_zero {operands : List Expr}
    (h : ∃ o ∈ operands, o.canonicalize = lit 0) : (mul operands).canonicalize = lit 0 := by
  obtain ⟨o, ho, hzero⟩ := h
  rw [canonicalize, canonicalizeAll_eq_map]
  apply canonMul_of_collapses
  rw [collapses_iff canonical_map_canonicalize]
  exact hzero ▸ List.mem_map_of_mem ho

/-- What canonicalizes to a number has the derivative 0. -/
theorem differentiate_of_canonicalize {v : String} {e : Expr} {c : ℚ}
    (h : e.canonicalize = lit c) : differentiate v e = lit 0 := by
  by_cases hv : e.countVar v = 0
  · exact differentiate_of_countVar hv
  induction e using ind generalizing c with
  | var name => cases h
  | lit x => exact absurd rfl hv
  | neg e _ => cases h
  | pow base exp _ _ => cases h
  | powInf base _ => cases h
  | unary f e _ => cases h
  | add operands ih =>
      rw [canonicalize, canonicalizeAll_eq_map] at h
      obtain ⟨qs, hqs, -⟩ := canonAdd_eq_lit canonical_map_canonicalize h
      rw [differentiate_add hv]
      apply canonAdd_of_all_zero
      intro d hd
      obtain ⟨op, hop, rfl⟩ := List.mem_map.mp hd
      have hlit : op.canonicalize ∈ qs.map lit := hqs ▸ List.mem_map_of_mem hop
      obtain ⟨q, -, hq⟩ := List.mem_map.mp hlit
      by_cases hvop : op.countVar v = 0
      · exact differentiate_of_countVar hvop
      · exact ih op hop hq.symm hvop
  | mul operands ih =>
      rw [canonicalize, canonicalizeAll_eq_map] at h
      have hop : ∀ op ∈ operands, ∀ q, op.canonicalize = lit q → differentiate v op = lit 0 := by
        intro op hop q hq
        by_cases hvop : op.countVar v = 0
        · exact differentiate_of_countVar hvop
        · exact ih op hop hq hvop
      rw [differentiate_mul hv]
      apply canonAdd_of_all_zero
      intro t ht
      obtain ⟨l, op, r, rfl, rfl⟩ := mem_canonTerms ht
      apply canonTerm_of_zero
      rcases canonMul_eq_lit canonical_map_canonicalize h with ⟨hzero, -⟩ | ⟨qs, hqs, -⟩
      · -- the operand that is 0 is this one or another one
        obtain ⟨o, ho, heq⟩ := List.mem_map.mp hzero
        rcases List.mem_append.mp ho with ho | ho
        · exact Or.inr ⟨o, by simp [ho], heq⟩
        · rcases List.mem_cons.mp ho with rfl | ho
          · exact Or.inl (hop o (by simp) 0 heq)
          · exact Or.inr ⟨o, by simp [ho], heq⟩
      · have hlit : op.canonicalize ∈ qs.map lit := hqs ▸ List.mem_map_of_mem (by simp)
        obtain ⟨q, -, hq⟩ := List.mem_map.mp hlit
        exact Or.inl (hop op (by simp) q hq.symm)

end Expr

end Feldspar

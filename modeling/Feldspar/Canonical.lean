/-
Feldspar/Canonical.lean

The canonical form is canonical.

`Canonical` says what `canonicalize` leaves: operands flat, sorted, and with at
most one literal, which is not the identity.  It is what `canonicalize` returns
(`canonical_canonicalize`) and what it does not change
(`Canonical.canonicalize_eq`).

`Same` is the equality that the canonical form decides in one direction: the
operands of a sum or a product reordered, regrouped, and with identities
inserted or removed, at any depth.  What `canonicalize` makes of a list of
operands depends only on the multiset of the other operands and on the folded
literal (`assemble_congr`), and none of these steps changes either.
-/
import Feldspar.SymbolicOrder
import Mathlib.Algebra.BigOperators.Ring.List
import Mathlib.Algebra.Order.Ring.Rat

set_option linter.unusedSectionVars false

namespace Feldspar

namespace Expr

/-! ### Literals and the rest -/

theorem canonicalizeAll_eq_map (operands : List Expr) :
    canonicalizeAll operands = operands.map canonicalize := by
  induction operands with
  | nil => rfl
  | cons op operands ih => rw [canonicalizeAll, ih, List.map_cons]

@[simp] theorem lits_append (as bs : List Expr) : lits (as ++ bs) = lits as ++ lits bs :=
  List.filterMap_append

@[simp] theorem nonLits_append (as bs : List Expr) :
    nonLits (as ++ bs) = nonLits as ++ nonLits bs :=
  List.filter_append ..

theorem lits_perm {as bs : List Expr} (h : as.Perm bs) : (lits as).Perm (lits bs) :=
  h.filterMap lit?

theorem nonLits_perm {as bs : List Expr} (h : as.Perm bs) : (nonLits as).Perm (nonLits bs) :=
  h.filter _

theorem lit?_eq_some {e : Expr} {x : ℚ} : e.lit? = some x ↔ e = lit x := by
  cases e <;> simp [lit?]

theorem mem_nonLits {flat : List Expr} {e : Expr} : e ∈ nonLits flat ↔ e ∈ flat ∧ e.lit? = none := by
  rw [nonLits, List.mem_filter, Option.isNone_iff_eq_none]

theorem mem_lits {flat : List Expr} {x : ℚ} : x ∈ lits flat ↔ lit x ∈ flat := by
  simp only [lits, List.mem_filterMap, lit?_eq_some]
  constructor
  · rintro ⟨e, he, rfl⟩
    exact he
  · exact fun h => ⟨_, h, rfl⟩

@[simp] theorem lits_nonLits (flat : List Expr) : lits (nonLits flat) = [] := by
  rw [List.eq_nil_iff_forall_not_mem]
  intro x hx
  have := (mem_nonLits.mp (mem_lits.mp hx)).2
  cases this

@[simp] theorem nonLits_nonLits (flat : List Expr) : nonLits (nonLits flat) = nonLits flat := by
  simp [nonLits]

@[simp] theorem lits_map_lit (xs : List ℚ) : lits (xs.map lit) = xs := by
  induction xs with
  | nil => rfl
  | cons x xs ih => exact congrArg (x :: ·) ih

@[simp] theorem nonLits_map_lit (xs : List ℚ) : nonLits (xs.map lit) = [] := by
  simp [nonLits, lit?]

/-- A list is its literals and the rest. -/
theorem nonLits_append_lits_perm (flat : List Expr) :
    (nonLits flat ++ (lits flat).map lit).Perm flat := by
  induction flat with
  | nil => exact .nil
  | cons e flat ih =>
      rcases he : e.lit? with - | x
      · have h₁ : nonLits (e :: flat) = e :: nonLits flat := by simp [nonLits, he]
        have h₂ : lits (e :: flat) = lits flat := by simp [lits, he]
        rw [h₁, h₂, List.cons_append]
        exact ih.cons e
      · have h₁ : nonLits (e :: flat) = nonLits flat := by simp [nonLits, he]
        have h₂ : lits (e :: flat) = x :: lits flat := by simp [lits, he]
        rw [h₁, h₂, List.map_cons, lit?_eq_some.mp he]
        exact List.perm_middle.trans (ih.cons _)

/-! ### The end of the folds -/

section Assemble

variable {node : List Expr → Expr} {parts : Expr → List Expr} {identity folded : ℚ}
variable {others others' : List Expr}

/-- The literal that is left. -/
def remaining (identity folded : ℚ) : List ℚ := if folded ≠ identity then [folded] else []

theorem remaining_of_ne (h : folded ≠ identity) : remaining identity folded = [folded] := if_pos h

@[simp] theorem remaining_self : remaining identity identity = [] := if_neg (not_not.mpr rfl)

theorem assemble_eq (node : List Expr → Expr) (identity folded : ℚ) (others : List Expr) :
    assemble node identity folded others =
      match others ++ (remaining identity folded).map lit with
      | [] => lit identity
      | [e] => e
      | result => node (result.insertionSort le) := by
  unfold assemble remaining
  split_ifs <;> rfl

/-- Two or more operands make a node. -/
theorem assemble_of_two (h : 2 ≤ (others ++ (remaining identity folded).map lit).length) :
    assemble node identity folded others
      = node ((others ++ (remaining identity folded).map lit).insertionSort le) := by
  rw [assemble_eq]
  split
  · rename_i hl
    simp [hl] at h
  · rename_i hl
    simp [hl] at h
  · rfl

@[simp] theorem assemble_singleton (e : Expr) : assemble node identity identity [e] = e := by
  simp [assemble]

/-- The four endings. -/
theorem assemble_cases (node : List Expr → Expr) (identity folded : ℚ) (others : List Expr) :
    (others = [] ∧ folded = identity ∧ assemble node identity folded others = lit identity) ∨
    (∃ e, others = [e] ∧ folded = identity ∧ assemble node identity folded others = e) ∨
    (others = [] ∧ folded ≠ identity ∧ assemble node identity folded others = lit folded) ∨
    (2 ≤ (others ++ (remaining identity folded).map lit).length ∧
      assemble node identity folded others
        = node ((others ++ (remaining identity folded).map lit).insertionSort le)) := by
  by_cases hf : folded = identity
  · subst hf
    rcases others with - | ⟨e, - | ⟨e', others⟩⟩
    · exact Or.inl ⟨rfl, rfl, by simp [assemble]⟩
    · exact Or.inr (Or.inl ⟨e, rfl, rfl, by simp [assemble]⟩)
    · refine Or.inr (Or.inr (Or.inr ⟨by simp, assemble_of_two (by simp)⟩))
  · rcases others with - | ⟨e, others⟩
    · exact Or.inr (Or.inr (Or.inl ⟨rfl, hf, by simp [assemble, hf]⟩))
    · refine Or.inr (Or.inr (Or.inr ⟨?_, assemble_of_two ?_⟩)) <;>
        simp [remaining_of_ne hf]

/-- The order of the operands does not matter. -/
theorem assemble_congr (h : others.Perm others') :
    assemble node identity folded others = assemble node identity folded others' := by
  rcases assemble_cases node identity folded others with
    ⟨rfl, rfl, -⟩ | ⟨e, rfl, rfl, -⟩ | ⟨rfl, -, -⟩ | ⟨htwo, heq⟩
  · rw [List.nil_perm.mp h]
  · rw [List.singleton_perm.mp h]
  · rw [List.nil_perm.mp h]
  · have hperm := h.append_right ((remaining identity folded).map lit)
    rw [heq, sort_eq_of_perm hperm, assemble_of_two (hperm.length_eq ▸ htwo)]

/-- What the result is flattened to: the operands, and the literal. -/
theorem parts_assemble (hnode : ∀ l, parts (node l) = l) (hlit : ∀ x, parts (lit x) = [lit x])
    (hflat : ∀ e ∈ others, parts e = [e]) (hlits : lits others = []) (identity folded : ℚ) :
    (nonLits (parts (assemble node identity folded others))).Perm (nonLits others) ∧
      ((lits (parts (assemble node identity folded others))).Perm (remaining identity folded) ∨
        folded = identity ∧ lits (parts (assemble node identity folded others)) = [identity]) := by
  rcases assemble_cases node identity folded others with
    ⟨rfl, rfl, heq⟩ | ⟨e, rfl, rfl, heq⟩ | ⟨rfl, hf, heq⟩ | ⟨-, heq⟩ <;> rw [heq]
  · rw [hlit]
    exact ⟨.refl _, Or.inr ⟨rfl, rfl⟩⟩
  · rw [hflat e List.mem_cons_self, hlits, remaining_self]
    exact ⟨.refl _, Or.inl (.refl _)⟩
  · rw [hlit, remaining_of_ne hf]
    exact ⟨.refl _, Or.inl (.refl _)⟩
  · rw [hnode]
    have hperm := List.perm_insertionSort le (others ++ (remaining identity folded).map lit)
    refine ⟨(nonLits_perm hperm).trans ?_, Or.inl ((lits_perm hperm).trans ?_)⟩
    · simp
    · simp [hlits]

end Assemble

/-! ### Canonical expressions -/

/-- The operands of a canonical sum or product. -/
structure Operands (parts : Expr → List Expr) (identity : ℚ) (operands : List Expr) : Prop where
  two : 2 ≤ operands.length
  sorted : operands.Pairwise le
  flat : ∀ op ∈ operands, parts op = [op]
  /-- at most one literal, and not the identity -/
  lits : ∃ folded, lits operands = remaining identity folded

inductive Canonical : Expr → Prop
  | var (name : String) : Canonical (var name)
  | lit (x : ℚ) : Canonical (lit x)
  | neg {e : Expr} : Canonical e → Canonical (neg e)
  | pow {base exp : Expr} : Canonical base → Canonical exp → Canonical (pow base exp)
  | powInf {base : Expr} : Canonical base → Canonical (powInf base)
  | unary {f : UnaryFn} {e : Expr} : Canonical e → Canonical (unary f e)
  | add {operands : List Expr} : (∀ op ∈ operands, Canonical op) →
      Operands addends 0 operands → Canonical (add operands)
  | mul {operands : List Expr} : (∀ op ∈ operands, Canonical op) →
      Operands factors 1 operands → 0 ∉ lits operands → Canonical (mul operands)

theorem addends_eq_self {e : Expr} (h : ∀ operands, e ≠ add operands) : addends e = [e] := by
  cases e <;> first | rfl | exact absurd rfl (h _)

theorem Canonical.addends {e op : Expr} (h : Canonical e) (hop : op ∈ addends e) :
    Canonical op ∧ Expr.addends op = [op] := by
  cases h with
  | add hops hflat => exact ⟨hops op hop, hflat.flat op hop⟩
  | _ =>
      obtain rfl := List.mem_singleton.mp hop
      exact ⟨by constructor <;> assumption, rfl⟩

theorem Canonical.factors {e op : Expr} (h : Canonical e) (hop : op ∈ factors e) :
    Canonical op ∧ Expr.factors op = [op] := by
  cases h with
  | mul hops hflat _ => exact ⟨hops op hop, hflat.flat op hop⟩
  | _ =>
      obtain rfl := List.mem_singleton.mp hop
      exact ⟨by constructor <;> assumption, rfl⟩

theorem operands_assemble {parts : Expr → List Expr} {identity folded : ℚ} {others : List Expr}
    (hlit : ∀ x, parts (lit x) = [lit x]) (hflat : ∀ e ∈ others, parts e = [e])
    (hlits : lits others = [])
    (htwo : 2 ≤ (others ++ (remaining identity folded).map lit).length) :
    Operands parts identity
        ((others ++ (remaining identity folded).map lit).insertionSort le) ∧
      lits ((others ++ (remaining identity folded).map lit).insertionSort le)
        = remaining identity folded := by
  have hperm := List.perm_insertionSort le (others ++ (remaining identity folded).map lit)
  have hl : lits ((others ++ (remaining identity folded).map lit).insertionSort le)
      = remaining identity folded := by
    have := lits_perm hperm
    rw [lits_append, hlits, List.nil_append, lits_map_lit] at this
    unfold remaining at this ⊢
    split_ifs at this ⊢
    · exact List.perm_singleton.mp this
    · exact List.perm_nil.mp this
  refine ⟨⟨?_, List.pairwise_insertionSort le _, fun op hop => ?_, folded, hl⟩, hl⟩
  · rwa [hperm.length_eq]
  · rcases List.mem_append.mp (hperm.mem_iff.mp hop) with hop | hop
    · exact hflat op hop
    · obtain ⟨x, -, rfl⟩ := List.mem_map.mp hop
      exact hlit x

section Operand

variable {folded : ℚ} {others : List Expr}

theorem mem_remaining {identity x : ℚ} (h : x ∈ remaining identity folded) : x = folded := by
  unfold remaining at h
  split at h
  · exact List.mem_singleton.mp h
  · cases h

/-- The operands of an assembled node are canonical. -/
theorem canonical_of_mem_sorted {identity : ℚ} (hcanon : ∀ e ∈ others, Canonical e) {op : Expr}
    (hop : op ∈ (others ++ (remaining identity folded).map lit).insertionSort le) :
    Canonical op := by
  rcases List.mem_append.mp (List.mem_insertionSort le |>.mp hop) with hop | hop
  · exact hcanon op hop
  · obtain ⟨x, -, rfl⟩ := List.mem_map.mp hop
    exact .lit x

theorem canonical_assemble_add (hcanon : ∀ e ∈ others, Canonical e ∧ addends e = [e])
    (hlits : lits others = []) : Canonical (assemble add 0 folded others) := by
  rcases assemble_cases add 0 folded others with
    ⟨-, -, heq⟩ | ⟨e, rfl, -, heq⟩ | ⟨-, -, heq⟩ | ⟨htwo, heq⟩ <;> rw [heq]
  · exact .lit 0
  · exact (hcanon e List.mem_cons_self).1
  · exact .lit folded
  · exact .add (fun op => canonical_of_mem_sorted fun e he => (hcanon e he).1)
      (operands_assemble (fun _ => rfl) (fun e he => (hcanon e he).2) hlits htwo).1

theorem canonical_assemble_mul (hcanon : ∀ e ∈ others, Canonical e ∧ factors e = [e])
    (hlits : lits others = []) (hne : folded ≠ 0) :
    Canonical (assemble mul 1 folded others) := by
  rcases assemble_cases mul 1 folded others with
    ⟨-, -, heq⟩ | ⟨e, rfl, -, heq⟩ | ⟨-, -, heq⟩ | ⟨htwo, heq⟩ <;> rw [heq]
  · exact .lit 1
  · exact (hcanon e List.mem_cons_self).1
  · exact .lit folded
  · obtain ⟨hops, hl⟩ :=
      operands_assemble (fun _ => rfl) (fun e he => (hcanon e he).2) hlits htwo
    refine .mul (fun op => canonical_of_mem_sorted fun e he => (hcanon e he).1) hops ?_
    rw [hl]
    exact fun h => hne (mem_remaining h).symm

end Operand

theorem canonical_of_mem_nonLits_addends {cs : List Expr} (h : ∀ c ∈ cs, Canonical c) {e : Expr}
    (he : e ∈ nonLits (cs.flatMap addends)) : Canonical e ∧ addends e = [e] := by
  obtain ⟨c, hc, he⟩ := List.mem_flatMap.mp (mem_nonLits.mp he).1
  exact (h c hc).addends he

theorem canonical_of_mem_nonLits_factors {cs : List Expr} (h : ∀ c ∈ cs, Canonical c) {e : Expr}
    (he : e ∈ nonLits (cs.flatMap factors)) : Canonical e ∧ factors e = [e] := by
  obtain ⟨c, hc, he⟩ := List.mem_flatMap.mp (mem_nonLits.mp he).1
  exact (h c hc).factors he

theorem canonical_canonAdd {cs : List Expr} (h : ∀ c ∈ cs, Canonical c) :
    Canonical (canonAdd cs) :=
  canonical_assemble_add (fun _ => canonical_of_mem_nonLits_addends h) (lits_nonLits _)

theorem canonical_canonMul {cs : List Expr} (h : ∀ c ∈ cs, Canonical c) :
    Canonical (canonMul cs) := by
  unfold canonMul
  dsimp only
  split
  · exact .lit 0
  · exact canonical_assemble_mul (fun _ => canonical_of_mem_nonLits_factors h) (lits_nonLits _) ‹_›

theorem canonical_canonicalizeAll {operands : List Expr}
    (h : ∀ op ∈ operands, Canonical op.canonicalize) :
    ∀ c ∈ canonicalizeAll operands, Canonical c := by
  rw [canonicalizeAll_eq_map]
  intro c hc
  obtain ⟨op, hop, rfl⟩ := List.mem_map.mp hc
  exact h op hop

/-- `canonicalize` returns a canonical expression. -/
theorem canonical_canonicalize (e : Expr) : Canonical e.canonicalize := by
  induction e using ind with
  | var name => exact .var name
  | lit x => exact .lit x
  | neg e ih => exact .neg ih
  | add operands ih => exact canonical_canonAdd (canonical_canonicalizeAll ih)
  | mul operands ih => exact canonical_canonMul (canonical_canonicalizeAll ih)
  | pow base exp ihb ihx => exact .pow ihb ihx
  | powInf base ih => exact .powInf ih
  | unary f e ih => exact .unary ih

theorem flatMap_eq_self {parts : Expr → List Expr} {operands : List Expr}
    (h : ∀ op ∈ operands, parts op = [op]) : operands.flatMap parts = operands := by
  rw [List.flatMap_congr h]
  simp

/-- Folding canonical operands again gives them back. -/
theorem assemble_of_operands {parts : Expr → List Expr} {node : List Expr → Expr}
    {identity folded : ℚ} {operands : List Expr} (h : Operands parts identity operands)
    (hl : lits operands = remaining identity folded) :
    assemble node identity folded (nonLits operands) = node operands := by
  have hperm : (nonLits operands ++ (remaining identity folded).map lit).Perm operands :=
    hl ▸ nonLits_append_lits_perm operands
  rw [assemble_of_two (hperm.length_eq ▸ h.two), sort_eq_of_perm hperm, h.sorted.insertionSort_eq]

/-- `canonicalize` does not change a canonical expression. -/
theorem Canonical.canonicalize_eq {e : Expr} (h : Canonical e) : e.canonicalize = e := by
  induction h with
  | var name => rfl
  | lit x => rfl
  | neg _ ih => exact congrArg Expr.neg ih
  | pow _ _ ihb ihx => rw [canonicalize, ihb, ihx]
  | powInf _ ih => exact congrArg Expr.powInf ih
  | unary _ ih => rw [canonicalize, ih]
  | @add operands _ hops ih =>
      obtain ⟨folded, hl⟩ := hops.lits
      have hsum : (lits operands).sum = folded ∨ remaining 0 folded = [] := by
        rw [hl, remaining]
        split_ifs <;> simp
      have hl' : lits operands = remaining 0 (lits operands).sum := by
        rcases hsum with hsum | hnil
        · rw [hsum, hl]
        · rw [hl, hnil]
          simp
      rw [canonicalize, canonicalizeAll_eq_map, List.map_congr_left ih, List.map_id', canonAdd,
        flatMap_eq_self hops.flat]
      exact assemble_of_operands hops hl'
  | @mul operands _ hops hzero ih =>
      obtain ⟨folded, hl⟩ := hops.lits
      have hl' : lits operands = remaining 1 (lits operands).prod := by
        unfold remaining at hl
        split_ifs at hl with h <;> rw [hl]
        · simp [remaining_of_ne h]
        · simp
      have hne : (lits operands).prod ≠ 0 := fun h => hzero (List.prod_eq_zero_iff.mp h)
      rw [canonicalize, canonicalizeAll_eq_map, List.map_congr_left ih, List.map_id', canonMul,
        flatMap_eq_self hops.flat, if_neg hne]
      exact assemble_of_operands hops hl'

theorem canonicalize_idem (e : Expr) : e.canonicalize.canonicalize = e.canonicalize :=
  (canonical_canonicalize e).canonicalize_eq

/-! ### What does not change the canonical form -/

section Congr

variable {cs cs' : List Expr}

theorem canonAdd_eq (cs : List Expr) : canonAdd cs =
    assemble add 0 (lits (cs.flatMap addends)).sum (nonLits (cs.flatMap addends)) :=
  rfl

theorem canonMul_of_prod_eq_zero (h : (lits (cs.flatMap factors)).prod = 0) :
    canonMul cs = lit 0 :=
  if_pos h

theorem canonMul_of_prod_ne_zero (h : (lits (cs.flatMap factors)).prod ≠ 0) : canonMul cs =
    assemble mul 1 (lits (cs.flatMap factors)).prod (nonLits (cs.flatMap factors)) :=
  if_neg h

theorem canonAdd_congr
    (hothers : (nonLits (cs.flatMap addends)).Perm (nonLits (cs'.flatMap addends)))
    (hlits : (lits (cs.flatMap addends)).sum = (lits (cs'.flatMap addends)).sum) :
    canonAdd cs = canonAdd cs' := by
  rw [canonAdd_eq, canonAdd_eq, hlits]
  exact assemble_congr hothers

theorem canonMul_congr
    (hothers : (nonLits (cs.flatMap factors)).Perm (nonLits (cs'.flatMap factors)))
    (hlits : (lits (cs.flatMap factors)).prod = (lits (cs'.flatMap factors)).prod) :
    canonMul cs = canonMul cs' := by
  by_cases hzero : (lits (cs.flatMap factors)).prod = 0
  · rw [canonMul_of_prod_eq_zero hzero, canonMul_of_prod_eq_zero (hlits ▸ hzero)]
  · rw [canonMul_of_prod_ne_zero hzero, canonMul_of_prod_ne_zero (hlits ▸ hzero), hlits]
    exact assemble_congr hothers

theorem canonAdd_perm (h : cs.Perm cs') : canonAdd cs = canonAdd cs' :=
  canonAdd_congr (nonLits_perm (h.flatMap_right addends)) (lits_perm (h.flatMap_right addends)).sum_eq

theorem canonMul_perm (h : cs.Perm cs') : canonMul cs = canonMul cs' :=
  canonMul_congr (nonLits_perm (h.flatMap_right factors)) (lits_perm (h.flatMap_right factors)).prod_eq

/-- A nested sum is what it was folded from. -/
theorem addends_canonAdd (h : ∀ c ∈ cs, Canonical c) :
    (nonLits (addends (canonAdd cs))).Perm (nonLits (cs.flatMap addends)) ∧
      (lits (addends (canonAdd cs))).sum = (lits (cs.flatMap addends)).sum := by
  have hparts := parts_assemble (fun _ => rfl : ∀ l, addends (add l) = l) (fun _ => rfl)
    (fun e he => (canonical_of_mem_nonLits_addends h he).2) (lits_nonLits _)
    (0 : ℚ) (lits (cs.flatMap addends)).sum
  obtain ⟨hothers, hlits⟩ := hparts
  rw [nonLits_nonLits] at hothers
  refine ⟨hothers, ?_⟩
  rcases hlits with hlits | ⟨hzero, hlits⟩
  · rw [canonAdd_eq, hlits.sum_eq, remaining]
    split_ifs with hne
    · exact List.sum_singleton
    · exact (not_not.mp hne).symm
  · rw [canonAdd_eq, hlits, hzero]
    exact List.sum_singleton

/-- A nested product too, unless it collapsed. -/
theorem factors_canonMul (h : ∀ c ∈ cs, Canonical c)
    (hne : (lits (cs.flatMap factors)).prod ≠ 0) :
    (nonLits (factors (canonMul cs))).Perm (nonLits (cs.flatMap factors)) ∧
      (lits (factors (canonMul cs))).prod = (lits (cs.flatMap factors)).prod := by
  have hparts := parts_assemble (fun _ => rfl : ∀ l, factors (mul l) = l) (fun _ => rfl)
    (fun e he => (canonical_of_mem_nonLits_factors h he).2) (lits_nonLits _)
    (1 : ℚ) (lits (cs.flatMap factors)).prod
  obtain ⟨hothers, hlits⟩ := hparts
  rw [nonLits_nonLits] at hothers
  rw [canonMul_of_prod_ne_zero hne]
  refine ⟨hothers, ?_⟩
  rcases hlits with hlits | ⟨hone, hlits⟩
  · rw [hlits.prod_eq, remaining]
    split_ifs with hne'
    · exact List.prod_singleton
    · exact (not_not.mp hne').symm
  · rw [hlits, hone]
    exact List.prod_singleton

theorem canonAdd_flatten (h : ∀ c ∈ cs, Canonical c) :
    canonAdd (canonAdd cs :: cs') = canonAdd (cs ++ cs') := by
  obtain ⟨hothers, hlits⟩ := addends_canonAdd h
  apply canonAdd_congr
  · rw [List.flatMap_cons, List.flatMap_append, nonLits_append, nonLits_append]
    exact hothers.append_right _
  · rw [List.flatMap_cons, List.flatMap_append, lits_append, lits_append, List.sum_append,
      List.sum_append, hlits]

theorem canonMul_flatten (h : ∀ c ∈ cs, Canonical c) :
    canonMul (canonMul cs :: cs') = canonMul (cs ++ cs') := by
  by_cases hzero : (lits (cs.flatMap factors)).prod = 0
  · -- the inner product collapsed, and so does the outer one, either way
    rw [canonMul_of_prod_eq_zero hzero, canonMul_of_prod_eq_zero, canonMul_of_prod_eq_zero]
    · rw [List.flatMap_append, lits_append, List.prod_append, hzero, zero_mul]
    · have hlits : lits (factors (lit 0)) = [0] := rfl
      rw [List.flatMap_cons, lits_append, List.prod_append, hlits, List.prod_singleton, zero_mul]
  · obtain ⟨hothers, hlits⟩ := factors_canonMul h hzero
    apply canonMul_congr
    · rw [List.flatMap_cons, List.flatMap_append, nonLits_append, nonLits_append]
      exact hothers.append_right _
    · rw [List.flatMap_cons, List.flatMap_append, lits_append, lits_append, List.prod_append,
        List.prod_append, hlits]

theorem canonAdd_zero : canonAdd (lit 0 :: cs) = canonAdd cs := by
  apply canonAdd_congr
  · exact .refl _
  · exact zero_add _

theorem canonMul_one : canonMul (lit 1 :: cs) = canonMul cs := by
  apply canonMul_congr
  · exact .refl _
  · exact one_mul _

theorem canonAdd_singleton {e : Expr} (hflat : addends e = [e]) (hlit : e.lit? = none) :
    canonAdd [e] = e := by
  rw [canonAdd_eq, List.flatMap_singleton, hflat]
  simp [lits, nonLits, hlit]

theorem canonMul_singleton {e : Expr} (hflat : factors e = [e]) (hlit : e.lit? = none) :
    canonMul [e] = e := by
  have hlits : lits ([e].flatMap factors) = [] := by
    rw [List.flatMap_singleton, hflat]
    simp [lits, hlit]
  rw [canonMul_of_prod_ne_zero (by rw [hlits]; exact one_ne_zero), hlits, List.flatMap_singleton,
    hflat]
  simp [nonLits, hlit]

theorem canonAdd_single {c : Expr} (h : Canonical c) : canonAdd [c] = c := by
  have hc := h.canonicalize_eq
  cases h with
  | @add operands hops hflat =>
      -- a canonical sum is folded again
      rw [canonicalize, canonicalizeAll_eq_map,
        List.map_congr_left fun op hop => (hops op hop).canonicalize_eq, List.map_id'] at hc
      refine Eq.trans (canonAdd_congr ?_ ?_) hc <;>
        rw [flatMap_eq_self hflat.flat, List.flatMap_singleton] <;> rfl
  | lit x =>
      by_cases hx : x = 0 <;> simp [canonAdd, assemble, addends, lits, nonLits, lit?, hx]
  | _ => exact canonAdd_singleton rfl rfl

theorem canonMul_single {c : Expr} (h : Canonical c) : canonMul [c] = c := by
  have hc := h.canonicalize_eq
  cases h with
  | @mul operands hops hflat hzero =>
      rw [canonicalize, canonicalizeAll_eq_map,
        List.map_congr_left fun op hop => (hops op hop).canonicalize_eq, List.map_id'] at hc
      refine Eq.trans (canonMul_congr ?_ ?_) hc <;>
        rw [flatMap_eq_self hflat.flat, List.flatMap_singleton] <;> rfl
  | lit x =>
      by_cases hx : x = 0
      · subst hx
        exact canonMul_of_prod_eq_zero (by simp [factors, lits, lit?])
      · by_cases hx' : x = 1 <;>
          simp [canonMul, assemble, factors, lits, nonLits, lit?, hx, hx']
  | _ => exact canonMul_singleton rfl rfl

end Congr

/-- The expressions differ by the order and the grouping of operands, and by
identities, at any depth. -/
inductive Same : Expr → Expr → Prop
  | refl (e : Expr) : Same e e
  | symm {e e' : Expr} : Same e e' → Same e' e
  | trans {e e' e'' : Expr} : Same e e' → Same e' e'' → Same e e''
  -- at any depth
  | neg {e e' : Expr} : Same e e' → Same (neg e) (neg e')
  | pow {base base' exp exp' : Expr} : Same base base' → Same exp exp' →
      Same (pow base exp) (pow base' exp')
  | powInf {base base' : Expr} : Same base base' → Same (powInf base) (powInf base')
  | unary {f : UnaryFn} {e e' : Expr} : Same e e' → Same (unary f e) (unary f e')
  | add_operand {pre post : List Expr} {op op' : Expr} : Same op op' →
      Same (add (pre ++ op :: post)) (add (pre ++ op' :: post))
  | mul_operand {pre post : List Expr} {op op' : Expr} : Same op op' →
      Same (mul (pre ++ op :: post)) (mul (pre ++ op' :: post))
  -- permuting
  | add_perm {operands operands' : List Expr} : operands.Perm operands' →
      Same (add operands) (add operands')
  | mul_perm {operands operands' : List Expr} : operands.Perm operands' →
      Same (mul operands) (mul operands')
  -- regrouping
  | add_nested {inner rest : List Expr} : Same (add (add inner :: rest)) (add (inner ++ rest))
  | mul_nested {inner rest : List Expr} : Same (mul (mul inner :: rest)) (mul (inner ++ rest))
  | add_single {e : Expr} : Same (add [e]) e
  | mul_single {e : Expr} : Same (mul [e]) e
  -- identities
  | add_zero {rest : List Expr} : Same (add (lit 0 :: rest)) (add rest)
  | mul_one {rest : List Expr} : Same (mul (lit 1 :: rest)) (mul rest)

theorem Same.canonicalize_eq {e e' : Expr} (h : Same e e') :
    e.canonicalize = e'.canonicalize := by
  have hall : ∀ operands : List Expr, ∀ c ∈ canonicalizeAll operands, Canonical c :=
    fun operands => canonical_canonicalizeAll fun op _ => canonical_canonicalize op
  induction h with
  | refl => rfl
  | symm _ ih => exact ih.symm
  | trans _ _ ih ih' => exact ih.trans ih'
  | neg _ ih => exact congrArg Expr.neg ih
  | pow _ _ ihb ihx => rw [canonicalize, canonicalize, ihb, ihx]
  | powInf _ ih => exact congrArg Expr.powInf ih
  | unary _ ih => rw [canonicalize, canonicalize, ih]
  | add_operand _ ih =>
      simp only [canonicalize, canonicalizeAll_eq_map, List.map_append, List.map_cons, ih]
  | mul_operand _ ih =>
      simp only [canonicalize, canonicalizeAll_eq_map, List.map_append, List.map_cons, ih]
  | add_perm hperm =>
      simp only [canonicalize, canonicalizeAll_eq_map]
      exact canonAdd_perm (hperm.map canonicalize)
  | mul_perm hperm =>
      simp only [canonicalize, canonicalizeAll_eq_map]
      exact canonMul_perm (hperm.map canonicalize)
  | @add_nested inner rest =>
      have := @canonAdd_flatten _ (canonicalizeAll rest) (hall inner)
      simpa only [canonicalize, canonicalizeAll, canonicalizeAll_eq_map, List.map_append] using this
  | @mul_nested inner rest =>
      have := @canonMul_flatten _ (canonicalizeAll rest) (hall inner)
      simpa only [canonicalize, canonicalizeAll, canonicalizeAll_eq_map, List.map_append] using this
  | add_single => exact canonAdd_single (canonical_canonicalize _)
  | mul_single => exact canonMul_single (canonical_canonicalize _)
  | add_zero => exact canonAdd_zero
  | mul_one => exact canonMul_one

/-- **The canonical form**: it is a fixed point, and it does not see order,
grouping and identities. -/
theorem canonical_form (formatF64 : F64 ℚ → String) {e e' : Expr} (h : Same e e') :
    e.canonicalize.canonicalize = e.canonicalize ∧ e.canonicalize = e'.canonicalize ∧
      canonicalString formatF64 e.canonicalize = canonicalString formatF64 e'.canonicalize :=
  ⟨canonicalize_idem e, h.canonicalize_eq, congrArg _ h.canonicalize_eq⟩

/-- `b + (a + 0)` and `a + b`. -/
theorem canonical_form_sum :
    (add [var "b", add [lit 0, var "a"]]).canonicalize.canonicalize
        = (add [var "b", add [lit 0, var "a"]]).canonicalize ∧
      (add [var "b", add [lit 0, var "a"]]).canonicalize = (add [var "a", var "b"]).canonicalize ∧
      canonicalString (fun _ => "") (add [var "b", add [lit 0, var "a"]]).canonicalize
        = canonicalString (fun _ => "") (add [var "a", var "b"]).canonicalize := by
  apply canonical_form
  refine .trans (.add_perm (.swap (add [lit 0, var "a"]) (var "b") [])) (.trans .add_nested ?_)
  exact .add_zero

end Expr

end Feldspar

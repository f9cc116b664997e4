/-
Feldspar/SymbolicOrder.lean

`Expr::cmp` is a total order, and its equality is equality of trees.  So a
list of operands has one sorted listing (`sort_eq_of_perm`).
-/
import Feldspar.Symbolic

set_option linter.unusedSectionVars false

namespace Feldspar

namespace Expr

/-- Two kinds are compared by their rank. -/
theorem cmp_of_rank_ne {a b : Expr} (h : a.kindRank ≠ b.kindRank) :
    cmp a b = compare a.kindRank b.kindRank := by
  cases a <;> cases b <;> first | rfl | exact absurd rfl h

theorem rank_le_of_cmp_ne_gt {a b : Expr} (h : cmp a b ≠ .gt) : a.kindRank ≤ b.kindRank := by
  by_contra hlt
  have hgt := not_le.mp hlt
  rw [cmp_of_rank_ne hgt.ne', Nat.compare_eq_gt.mpr hgt] at h
  exact h rfl

theorem rank_le_of_cmp_lt {a b : Expr} (h : cmp a b = .lt) : a.kindRank ≤ b.kindRank :=
  rank_le_of_cmp_ne_gt (by rw [h]; decide)

/-! ### Equality -/

theorem cmpAll_eq_iff : ∀ {as bs : List Expr},
    (∀ a ∈ as, ∀ b, cmp a b = .eq ↔ a = b) → (cmpAll as bs = .eq ↔ as = bs)
  | [], [], _ => by simp [cmpAll]
  | [], _ :: _, _ => by simp [cmpAll]
  | _ :: _, [], _ => by simp [cmpAll]
  | a :: as, b :: bs, h => by
      rw [cmpAll, Ordering.then_eq_eq, h a List.mem_cons_self b,
        cmpAll_eq_iff fun a' ha => h a' (List.mem_cons_of_mem _ ha), List.cons.injEq]

theorem cmp_eq_iff (a b : Expr) : cmp a b = .eq ↔ a = b := by
  induction a using ind generalizing b with
  | var name => cases b <;> simp [cmp, kindRank]
  | lit x => cases b <;> simp [cmp, kindRank]
  | neg e ih => cases b <;> simp [cmp, kindRank, ih]
  | add operands ih => cases b <;> simp [cmp, kindRank, cmpAll_eq_iff ih]
  | mul operands ih => cases b <;> simp [cmp, kindRank, cmpAll_eq_iff ih]
  | pow base exp ihb ihx =>
      cases b <;> simp [cmp, kindRank, ihb, ihx]
      intro _
      split <;> simp
  | powInf base ih =>
      cases b <;> simp [cmp, kindRank, ih]
      intro _
      split <;> simp
  | unary f e ih => cases b <;> simp [cmp, kindRank, ih, UnaryFn.rank_injective.eq_iff]

/-! ### Orientation -/

theorem cmpAll_swap : ∀ {as bs : List Expr},
    (∀ a ∈ as, ∀ b, cmp b a = (cmp a b).swap) → cmpAll bs as = (cmpAll as bs).swap
  | [], [], _ => rfl
  | [], _ :: _, _ => rfl
  | _ :: _, [], _ => rfl
  | a :: as, b :: bs, h => by
      rw [cmpAll, cmpAll, Ordering.swap_then, h a List.mem_cons_self b,
        cmpAll_swap fun a' ha => h a' (List.mem_cons_of_mem _ ha)]

/-- Two kinds are in order by their rank; so only equal kinds are left. -/
theorem swap_of_rank {a b : Expr} (h : a.kindRank = b.kindRank → cmp b a = (cmp a b).swap) :
    cmp b a = (cmp a b).swap := by
  by_cases hr : a.kindRank = b.kindRank
  · exact h hr
  · rw [cmp_of_rank_ne hr, cmp_of_rank_ne (Ne.symm hr), Nat.compare_swap]

theorem cmp_swap (a b : Expr) : cmp b a = (cmp a b).swap := by
  induction a using ind generalizing b with
  | var name =>
      refine swap_of_rank fun hr => ?_
      cases b <;> cases hr
      exact (Std.OrientedOrd.eq_swap : compare (_ : String) _ = _)
  | lit x =>
      refine swap_of_rank fun hr => ?_
      cases b <;> cases hr
      exact (Std.OrientedOrd.eq_swap : compare (_ : ℚ) _ = _)
  | neg e ih =>
      refine swap_of_rank fun hr => ?_
      cases b <;> cases hr
      exact ih _
  | add operands ih =>
      refine swap_of_rank fun hr => ?_
      cases b <;> cases hr
      exact cmpAll_swap ih
  | mul operands ih =>
      refine swap_of_rank fun hr => ?_
      cases b <;> cases hr
      exact cmpAll_swap ih
  | pow base exp ihb ihx =>
      refine swap_of_rank fun hr => ?_
      cases b <;> cases hr
      · simp only [cmp, Ordering.swap_then, ihb, ihx]
      · simp only [cmp, Ordering.swap_then, ihb]
        split <;> rfl
  | powInf base ih =>
      refine swap_of_rank fun hr => ?_
      cases b <;> cases hr
      · simp only [cmp, Ordering.swap_then, ih]
        split <;> rfl
      · simp only [cmp, Ordering.swap_then, ih, Ordering.swap_eq]
  | unary f e ih =>
      refine swap_of_rank fun hr => ?_
      cases b <;> cases hr
      simp only [cmp, Ordering.swap_then, ih, Nat.compare_swap]

/-! ### Transitivity -/

/-- Trichotomy on `then`, where the first part is an order on `α`. -/
theorem then_lt_trans {α : Type*} {f : α → α → Ordering} (heq : ∀ x y, f x y = .eq ↔ x = y)
    {x y z : α} (htrans : f x y = .lt → f y z = .lt → f x z = .lt) {o o' o'' : Ordering}
    (ho : o = .lt → o' = .lt → o'' = .lt) (h : (f x y).then o = .lt)
    (h' : (f y z).then o' = .lt) : (f x z).then o'' = .lt := by
  rw [Ordering.then_eq_lt] at h h' ⊢
  rcases h with h | ⟨h, hlt⟩ <;> rcases h' with h' | ⟨h', hlt'⟩
  · exact Or.inl (htrans h h')
  · exact Or.inl ((heq y z).mp h' ▸ h)
  · exact Or.inl ((heq x y).mp h ▸ h')
  · obtain rfl := (heq x y).mp h
    exact Or.inr ⟨h', ho hlt hlt'⟩

theorem cmpAll_lt_trans : ∀ {as bs cs : List Expr},
    (∀ a ∈ as, ∀ b c, cmp a b = .lt → cmp b c = .lt → cmp a c = .lt) →
    cmpAll as bs = .lt → cmpAll bs cs = .lt → cmpAll as cs = .lt
  | [], [], _, _, h, _ => by cases h
  | _ :: _, [], _, _, h, _ => by cases h
  | _, _ :: _, [], _, _, h => by cases h
  | [], _ :: _, _ :: _, _, _, _ => rfl
  | a :: as, b :: bs, c :: cs, ih, h, h' => by
      refine then_lt_trans (f := cmp) cmp_eq_iff (ih a List.mem_cons_self b c) ?_ h h'
      exact cmpAll_lt_trans fun a' ha => ih a' (List.mem_cons_of_mem _ ha)

/-- The step to a higher kind closes the goal; so only equal kinds are left. -/
theorem lt_trans_of_rank {a b c : Expr} (hab : cmp a b = .lt) (hbc : cmp b c = .lt)
    (h : a.kindRank = b.kindRank → b.kindRank = c.kindRank → cmp a c = .lt) : cmp a c = .lt := by
  have h₁ := rank_le_of_cmp_lt hab
  have h₂ := rank_le_of_cmp_lt hbc
  rcases h₁.lt_or_eq with hlt | heq
  · rw [cmp_of_rank_ne (hlt.trans_le h₂).ne]
    exact Nat.compare_eq_lt.mpr (hlt.trans_le h₂)
  · rcases h₂.lt_or_eq with hlt | heq'
    · rw [cmp_of_rank_ne (heq ▸ hlt).ne]
      exact Nat.compare_eq_lt.mpr (heq ▸ hlt)
    · exact h heq heq'

section Exponents

variable {a b : Expr}

theorem exponent_lt_inf (hr : a.kindRank ≤ b.kindRank)
    (h : (if b.kindRank = 0 then Ordering.lt else .gt) = .lt) :
    (if a.kindRank = 0 then Ordering.lt else .gt) = .lt := by
  split at h
  · exact if_pos (by omega)
  · cases h

theorem inf_lt_exponent (hr : a.kindRank ≤ b.kindRank)
    (h : (if a.kindRank = 0 then Ordering.gt else .lt) = .lt) :
    (if b.kindRank = 0 then Ordering.gt else .lt) = .lt := by
  split at h
  · cases h
  · exact if_neg (by omega)

/-- Before and after the infinite exponent: a literal and another kind. -/
theorem lt_of_around_inf (h : (if a.kindRank = 0 then Ordering.lt else .gt) = .lt)
    (h' : (if b.kindRank = 0 then Ordering.gt else .lt) = .lt) : cmp a b = .lt := by
  split at h <;> split at h'
  · cases h'
  · rw [cmp_of_rank_ne (by omega), Nat.compare_eq_lt]
    omega
  · cases h
  · cases h

end Exponents

theorem cmp_lt_trans (a b c : Expr) (hab : cmp a b = .lt) (hbc : cmp b c = .lt) :
    cmp a c = .lt := by
  induction a using ind generalizing b c with
  | var name =>
      refine lt_trans_of_rank hab hbc fun hr hr' => ?_
      cases b <;> cases hr
      cases c <;> cases hr'
      exact (Std.TransCmp.lt_trans hab hbc : compare (_ : String) _ = _)
  | lit x =>
      refine lt_trans_of_rank hab hbc fun hr hr' => ?_
      cases b <;> cases hr
      cases c <;> cases hr'
      exact compare_lt_iff_lt.mpr
        ((compare_lt_iff_lt.mp hab).trans (compare_lt_iff_lt.mp hbc))
  | neg e ih =>
      refine lt_trans_of_rank hab hbc fun hr hr' => ?_
      cases b <;> cases hr
      cases c <;> cases hr'
      exact ih _ _ hab hbc
  | add operands ih =>
      refine lt_trans_of_rank hab hbc fun hr hr' => ?_
      cases b <;> cases hr
      cases c <;> cases hr'
      exact cmpAll_lt_trans ih hab hbc
  | mul operands ih =>
      refine lt_trans_of_rank hab hbc fun hr hr' => ?_
      cases b <;> cases hr
      cases c <;> cases hr'
      exact cmpAll_lt_trans ih hab hbc
  | pow base exp ihb ihx =>
      refine lt_trans_of_rank hab hbc fun hr hr' => ?_
      -- the exponents of `b` and `c` are finite or infinite
      cases b <;> cases hr <;> cases c <;> cases hr' <;>
        refine then_lt_trans cmp_eq_iff (ihb _ _) ?_ hab hbc
      · exact ihx _ _
      · exact fun h h' => exponent_lt_inf (rank_le_of_cmp_lt h) h'
      · exact fun h h' => lt_of_around_inf h h'
      · exact fun h _ => h
  | powInf base ih =>
      refine lt_trans_of_rank hab hbc fun hr hr' => ?_
      cases b <;> cases hr <;> cases c <;> cases hr' <;>
        refine then_lt_trans cmp_eq_iff (ih _ _) ?_ hab hbc
      · exact fun h h' => inf_lt_exponent (rank_le_of_cmp_lt h') h
      · intro h h'
        split at h
        · cases h
        · rw [if_neg ‹_›] at h'
          cases h'
      · exact fun _ h => h
      · exact fun h _ => h
  | unary f e ih =>
      refine lt_trans_of_rank hab hbc fun hr hr' => ?_
      cases b <;> cases hr
      cases c <;> cases hr'
      refine then_lt_trans (f := fun m n : ℕ => compare m n) (fun m n => Nat.compare_eq_eq) ?_
        (ih _ _) hab hbc
      simp only [Nat.compare_eq_lt]
      exact Nat.lt_trans

/-! ### Sorting -/

instance : Std.Total le where
  total a b := by
    unfold le
    rw [cmp_swap a b]
    cases cmp a b <;> decide

instance : Std.Antisymm le where
  antisymm a b hab hba := by
    unfold le at hab hba
    rw [cmp_swap a b] at hba
    rcases h : cmp a b <;> rw [h] at hab hba
    · exact absurd rfl hba
    · exact (cmp_eq_iff a b).mp h
    · exact absurd rfl hab

instance : IsTrans Expr le where
  trans a b c hab hbc := by
    unfold le at hab hbc ⊢
    rcases h : cmp a b
    · rcases h' : cmp b c
      · rw [cmp_lt_trans a b c h h']
        decide
      · rw [← (cmp_eq_iff b c).mp h', h]
        decide
      · exact absurd h' hbc
    · rw [(cmp_eq_iff a b).mp h]
      exact hbc
    · exact absurd h hab

/-- A multiset of operands has one sorted listing. -/
theorem sort_eq_of_perm {as bs : List Expr} (h : as.Perm bs) :
    as.insertionSort le = bs.insertionSort le := by
  apply List.Perm.eq_of_pairwise' (List.pairwise_insertionSort le as)
    (List.pairwise_insertionSort le bs)
  exact (List.perm_insertionSort le as).trans (h.trans (List.perm_insertionSort le bs).symm)

instance : DecidableEq Expr := fun a b => decidable_of_iff (cmp a b = .eq) (cmp_eq_iff a b)

end Expr

end Feldspar

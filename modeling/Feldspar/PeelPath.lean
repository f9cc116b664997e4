/-
Feldspar/PeelPath.lean

The nodes that `peel` goes through, and what its outcome owes to them.

`pathTo` is the way from the root of an expression to the target.  Every step of
`peel` goes one node down this path (`PeelStep.path`), so what it does is read off
the path: which branch it reports (`Peels.branchTaken_eq`), and whether it comes
to a node that it cannot take off (`peel_of_invertible`,
`peel_of_not_invertible`).
-/
import Feldspar.Law

set_option linter.unusedSectionVars false

namespace Feldspar

namespace Expr

/-! ### The path -/

mutual

/-- The nodes from the root down to the first occurrence of the target. -/
def pathTo (target : String) : Expr → List Expr
  | var _ => []
  | lit _ => []
  | neg e => neg e :: pathTo target e
  | add operands => add operands :: pathAmong target operands
  | mul operands => mul operands :: pathAmong target operands
  | pow base exp =>
      pow base exp :: (if 0 < base.countVar target then pathTo target base else pathTo target exp)
  | powInf base => powInf base :: pathTo target base
  | unary f e => unary f e :: pathTo target e

def pathAmong (target : String) : List Expr → List Expr
  | [] => []
  | op :: operands => if 0 < op.countVar target then pathTo target op else pathAmong target operands

end

variable {target : String}

theorem pathAmong_append {before after : List Expr} {child : Expr}
    (hbefore : ∀ op ∈ before, op.countVar target = 0) (hchild : 0 < child.countVar target) :
    pathAmong target (before ++ child :: after) = pathTo target child := by
  induction before with
  | nil => rw [List.nil_append, pathAmong, if_pos hchild]
  | cons op before ih =>
      rw [List.cons_append, pathAmong, if_neg (by simp [hbefore op List.mem_cons_self])]
      exact ih fun op' hop => hbefore op' (List.mem_cons_of_mem _ hop)

theorem pathTo_add {before after : List Expr} {child : Expr}
    (hbefore : ∀ op ∈ before, op.countVar target = 0) (hchild : 0 < child.countVar target) :
    pathTo target (add (before ++ child :: after))
      = add (before ++ child :: after) :: pathTo target child := by
  rw [pathTo, pathAmong_append hbefore hchild]

theorem pathTo_mul {before after : List Expr} {child : Expr}
    (hbefore : ∀ op ∈ before, op.countVar target = 0) (hchild : 0 < child.countVar target) :
    pathTo target (mul (before ++ child :: after))
      = mul (before ++ child :: after) :: pathTo target child := by
  rw [pathTo, pathAmong_append hbefore hchild]

theorem pathTo_pow {base exp : Expr} (hbase : 0 < base.countVar target) :
    pathTo target (pow base exp) = pow base exp :: pathTo target base := by
  rw [pathTo, if_pos hbase]

/-- One operand has the one occurrence. -/
theorem exists_operand {operands : List Expr} (hone : countVars target operands = 1) :
    ∃ before child after, operands = before ++ child :: after ∧ child.countVar target = 1 ∧
      (∀ op ∈ before ++ after, op.countVar target = 0) := by
  induction operands with
  | nil => cases hone
  | cons op operands ih =>
      rw [countVars] at hone
      rcases Nat.eq_zero_or_pos (op.countVar target) with hzero | hpos
      · obtain ⟨before, child, after, rfl, hchild, hothers⟩ := ih (by omega)
        refine ⟨op :: before, child, after, rfl, hchild, fun op' hop => ?_⟩
        rcases List.mem_cons.mp hop with rfl | hop
        · exact hzero
        · exact hothers op' hop
      · refine ⟨[], op, operands, rfl, by omega, ?_⟩
        exact countVars_eq_zero.mp (show countVars target operands = 0 by omega)

end Expr

section Path

open Expr

variable {target : String} {node child : Expr} {s s₁ s' : Peeled}

theorem peelAmong_append {off : List Expr → Peeled} {after : List Expr}
    (hchild : 0 < child.countVar target) : ∀ {skipped before : List Expr},
    (∀ op ∈ before, op.countVar target = 0) →
    peelAmong target off skipped (before ++ child :: after)
      = peel target child (off (skipped ++ before ++ after))
  | skipped, [], _ => by
      rw [List.nil_append, peelAmong, if_pos hchild, List.append_nil]
  | skipped, op :: before, hbefore => by
      rw [List.cons_append, peelAmong, if_neg (by simp [hbefore op List.mem_cons_self]),
        peelAmong_append hchild fun op' hop => hbefore op' (List.mem_cons_of_mem _ hop)]
      simp

theorem peel_add {before after : List Expr}
    (hbefore : ∀ op ∈ before, op.countVar target = 0) (hchild : 0 < child.countVar target) :
    peel target (.add (before ++ child :: after)) s
      = peel target child (s.peelAdd (before ++ after)) := by
  rw [peel, peelAmong_append hchild hbefore, List.nil_append]

theorem peel_mul {before after : List Expr}
    (hbefore : ∀ op ∈ before, op.countVar target = 0) (hchild : 0 < child.countVar target) :
    peel target (.mul (before ++ child :: after)) s
      = peel target child (s.peelMul (before ++ after)) := by
  rw [peel, peelAmong_append hchild hbefore, List.nil_append]

/-- A step goes one node down the path. -/
theorem PeelStep.path (h : PeelStep target node s child s₁) (hone : node.countVar target = 1) :
    pathTo target node = node :: pathTo target child := by
  cases h with
  | add hchild =>
      apply pathTo_add _ hchild
      exact fun op hop => (countVar_others hchild hone).2 op (List.mem_append_left _ hop)
  | mul hchild =>
      apply pathTo_mul _ hchild
      exact fun op hop => (countVar_others hchild hone).2 op (List.mem_append_left _ hop)
  | odd _ => exact pathTo_pow (hone.symm ▸ one_pos)
  | even _ _ => exact pathTo_pow (hone.symm ▸ one_pos)
  | neg => rw [pathTo]
  | sqrt => rw [pathTo]
  | exp => rw [pathTo]
  | ln => rw [pathTo]

/-! ### The branch -/

/-- A power with an even literal exponent. -/
def Expr.IsEvenPower (node : Expr) : Prop :=
  ∃ base n, node = .pow base (.lit n) ∧ n.den = 1 ∧ Even n.num

/-- What a node on the path writes into `branch_taken`. -/
def Expr.branchWritten (branch : Option Branch) : Expr → Option Branch
  | .pow _ (.lit n) => if isEvenInteger n then branch else some .principal
  | .unary .sqrt _ => some .principal
  | .unary .exp _ => some .principal
  | .unary .ln _ => some .principal
  | _ => none

/-- The nodes that write a branch. -/
def Expr.writesBranch (node : Expr) : Bool := (node.branchWritten (some .principal)).isSome

/-- A power that `peel` takes for an even one. -/
def Expr.TakesEvenRoot (node : Expr) : Prop :=
  ∃ base n, node = .pow base (.lit n) ∧ isEvenInteger n = true

/-- A step keeps the declared branch, and takes the one that its node writes. -/
theorem PeelStep.branch_eq (h : PeelStep target node s child s₁) : s₁.branch = s.branch ∧
    s₁.branchTaken = (node.branchWritten s.branch).or s.branchTaken := by
  cases h with
  | @odd base n _ hodd =>
      have heven : isEvenInteger n = false := by
        simp only [isOddInteger, isEvenInteger, decide_eq_true_eq, decide_eq_false_iff_not] at hodd ⊢
        omega
      rw [branchWritten, heven]
      exact ⟨rfl, rfl⟩
  | even heven hpeel =>
      rw [branchWritten, if_pos heven]
      unfold Peeled.peelEven at hpeel
      split at hpeel
      · cases hpeel
      · rename_i hbranch
        cases hpeel
        rw [hbranch]
        exact ⟨hbranch, rfl⟩
      · rename_i hbranch
        cases hpeel
        rw [hbranch]
        exact ⟨hbranch, rfl⟩
      · cases hpeel
  | _ => exact ⟨rfl, rfl⟩

/-- The branch that the walk reports is the one that the last of the writing nodes
wrote. -/
theorem Peels.branchTaken_eq (h : Peels target node s s') (hone : node.countVar target = 1) :
    s'.branchTaken
      = (((pathTo target node).filterMap (branchWritten s.branch)).getLast?).or s.branchTaken := by
  induction h with
  | done => rfl
  | @step node child s s₁ s' hstep _ ih =>
      obtain ⟨hbranch, htaken⟩ := hstep.branch_eq
      rw [ih (hstep.countVar_child hone), hbranch, htaken, hstep.path hone, List.filterMap_cons]
      rcases node.branchWritten s.branch with - | b
      · rfl
      · dsimp only
        rw [List.getLast?_cons]
        rcases ((pathTo target child).filterMap (branchWritten s.branch)).getLast? <;> rfl

/-- An even power is taken off only with one of its two branches. -/
theorem Peels.branch_of_evenRoot (h : Peels target node s s') (hone : node.countVar target = 1)
    (heven : ∃ n ∈ pathTo target node, n.TakesEvenRoot) :
    s.branch = some .positive ∨ s.branch = some .negative := by
  induction h with
  | done =>
      obtain ⟨n, hn, -⟩ := heven
      cases hn
  | @step node child s s₁ s' hstep _ ih =>
      obtain ⟨n, hn, hroot⟩ := heven
      rw [hstep.path hone] at hn
      rcases List.mem_cons.mp hn with rfl | hn
      · obtain ⟨base, m, hnode, hm⟩ := hroot
        cases hstep with
        | odd hodd =>
            cases hnode
            simp only [isOddInteger, isEvenInteger, decide_eq_true_eq] at hodd hm
            omega
        | even _ hpeel =>
            unfold Peeled.peelEven at hpeel
            split at hpeel
            · cases hpeel
            · exact Or.inl ‹_›
            · exact Or.inr ‹_›
            · cases hpeel
        | _ => cases hnode
      · rw [← hstep.branch_eq.1]
        exact ih (hstep.countVar_child hone) ⟨n, hn, hroot⟩

theorem getLast?_filterMap {α β : Type*} {f : α → Option β} {p : α → Bool} {l : List α}
    (h : ∀ a, p a = (f a).isSome) : (l.filterMap f).getLast? = (l.filter p).getLast?.bind f := by
  induction l using List.reverseRecOn with
  | nil => rfl
  | append_singleton l a ih =>
      rw [List.filterMap_append, List.filter_append, List.getLast?_append, List.getLast?_append, ih]
      rcases hf : f a with - | b
      · have hp : p a = false := by rw [h, hf]; rfl
        simp [hf, hp]
      · have hp : p a = true := by rw [h, hf]; rfl
        simp [hf, hp]

theorem branchWritten_isSome (branch : Branch) (node : Expr) :
    node.writesBranch = (node.branchWritten (some branch)).isSome := by
  unfold Expr.writesBranch Expr.branchWritten
  split
  · split_ifs <;> rfl
  all_goals rfl

/-- What a node writes is the declared branch or the principal one. -/
theorem branchWritten_eq {branch b : Branch} {node : Expr}
    (h : node.branchWritten (some branch) = some b) :
    (node.TakesEvenRoot ∧ b = branch) ∨ (¬ node.TakesEvenRoot ∧ b = .principal) := by
  have hother : ∀ {e : Expr}, (∀ base n, e ≠ .pow base (.lit n)) → ¬ e.TakesEvenRoot := by
    rintro e he ⟨base, n, rfl, -⟩
    exact he base n rfl
  unfold Expr.branchWritten at h
  split at h
  · split_ifs at h with heven
    · exact Or.inl ⟨⟨_, _, rfl, heven⟩, (Option.some.inj h).symm⟩
    · refine Or.inr ⟨?_, (Option.some.inj h).symm⟩
      rintro ⟨base, n, heq, hn⟩
      cases heq
      exact heven hn
  · exact Or.inr ⟨hother (by rintro base n heq; cases heq), (Option.some.inj h).symm⟩
  · exact Or.inr ⟨hother (by rintro base n heq; cases heq), (Option.some.inj h).symm⟩
  · exact Or.inr ⟨hother (by rintro base n heq; cases heq), (Option.some.inj h).symm⟩
  · cases h

end Path

/-! ### The reported branch -/

section Branch

open Expr

variable {formatF64 : F64 ℚ → String} {lhs rhs : Expr} {target : String} {branch : Option Branch}
variable {inv : Inversion}

/-- The inversion reports the declared branch, and it is one of the two roots. -/
def ReportsDeclared (branch : Option Branch) (inv : Inversion) : Prop :=
  branch = some inv.branch ∧ (inv.branch = .positive ∨ inv.branch = .negative)

/-- Of the nodes on the path that write a branch, the last is an even power. -/
def EvenRootLast (target : String) (e : Expr) : Prop :=
  ∃ node, ((pathTo target e).filter writesBranch).getLast? = some node ∧ node.TakesEvenRoot

theorem reportsDeclared_iff (h : invertFor formatF64 lhs rhs target branch = .ok inv) :
    ReportsDeclared branch inv ↔ EvenRootLast target (difference lhs rhs) := by
  obtain ⟨hone, s, hpeels, -, -, hbranch⟩ := invertFor_ok h
  rw [hpeels.branchTaken_eq hone, Option.or_none] at hbranch
  have heven := hpeels.branch_of_evenRoot hone
  constructor
  · rintro ⟨hdeclared, hroot⟩
    rw [getLast?_filterMap (hdeclared ▸ branchWritten_isSome inv.branch)] at hbranch
    -- a sign that is not the principal one was written by the last node that writes any
    rcases hlast : ((pathTo target (difference lhs rhs)).filter writesBranch).getLast? with - | node
    · rw [hlast] at hbranch
      rw [show inv.branch = .principal from hbranch] at hroot
      rcases hroot with hroot | hroot <;> cases hroot
    · refine ⟨node, hlast, ?_⟩
      rw [hlast] at hbranch
      show node.TakesEvenRoot
      rcases hwritten : node.branchWritten branch with - | b
      · rw [show inv.branch = .principal by rw [hbranch]; simp [hwritten]] at hroot
        rcases hroot with hroot | hroot <;> cases hroot
      · rw [show inv.branch = b by rw [hbranch]; simp [hwritten]] at hroot
        rw [hdeclared] at hwritten
        rcases branchWritten_eq hwritten with ⟨hnode, -⟩ | ⟨-, rfl⟩
        · exact hnode
        · rcases hroot with hroot | hroot <;> cases hroot
  · rintro ⟨node, hlast, hnode⟩
    have hmem : node ∈ pathTo target (difference lhs rhs) :=
      (List.mem_filter.mp (List.mem_of_getLast? hlast)).1
    obtain ⟨b, hdeclared, hroot⟩ : ∃ b, branch = some b ∧ (b = .positive ∨ b = .negative) := by
      rcases heven ⟨node, hmem, hnode⟩ with hb | hb
      · exact ⟨_, hb, Or.inl rfl⟩
      · exact ⟨_, hb, Or.inr rfl⟩
    have hwritten : node.branchWritten (some b) = some b := by
      obtain ⟨base, n, rfl, hn⟩ := hnode
      rw [branchWritten, if_pos hn]
    rw [hdeclared] at hbranch
    rw [getLast?_filterMap (branchWritten_isSome b), hlast] at hbranch
    have heq : inv.branch = b := by
      rw [hbranch]
      simp [hwritten]
    exact ⟨heq ▸ hdeclared, heq ▸ hroot⟩

/-- **The reported branch**: on a path with an even power, it is the declared one
exactly when no odd power, square root, exponential or logarithm comes after the
last even power. -/
theorem invertFor_branch_iff (h : invertFor formatF64 lhs rhs target branch = .ok inv) :
    ((∃ node ∈ pathTo target (difference lhs rhs), node.IsEvenPower) →
        ReportsDeclared branch inv) ↔
      ((∃ node ∈ pathTo target (difference lhs rhs), node.IsEvenPower) →
        EvenRootLast target (difference lhs rhs)) :=
  forall_congr' fun _ => reportsDeclared_iff h

/-- The inversion of `x^2 = y` for `x`, on its negative branch. -/
theorem invertFor_square : ((invertFor (fun _ => "") (.pow (.var "x") (.lit 2)) (.var "y") "x"
    (some .negative)).toOption.map Inversion.branch) = some .negative ∧
    Expr.pow (.var "x") (.lit 2) ∈
      pathTo "x" (difference (.pow (.var "x") (.lit 2)) (.var "y")) := by
  decide +kernel

theorem isEvenPower_two (base : Expr) : (Expr.pow base (.lit 2)).IsEvenPower :=
  ⟨base, 2, rfl, rfl, even_two⟩

theorem invertFor_branch_iff_square :
    ∃ inv, invertFor (fun _ => "") (.pow (.var "x") (.lit 2)) (.var "y") "x" (some .negative)
        = .ok inv ∧ inv.branch = .negative ∧
      EvenRootLast "x" (difference (.pow (.var "x") (.lit 2)) (.var "y")) := by
  obtain ⟨hbranch, hmem⟩ := invertFor_square
  obtain ⟨inv, hinv, hneg⟩ := Option.map_eq_some_iff.mp hbranch
  have hok := Fallible.eq_ok_of_toOption hinv
  refine ⟨inv, hok, hneg, ?_⟩
  apply (invertFor_branch_iff hok).mp
  · exact fun _ => ⟨congrArg some hneg.symm, Or.inr hneg⟩
  · exact ⟨_, hmem, isEvenPower_two _⟩

/-- `(sqrt x)^2 = y` on its positive branch: the square root is taken off after
the square, and the reported branch is the principal one. -/
theorem invertFor_branch_overwritten :
    ∃ inv, invertFor (fun _ => "") (.pow (.unary .sqrt (.var "x")) (.lit 2)) (.var "y") "x"
        (some .positive) = .ok inv ∧
      (∃ node ∈ pathTo "x"
          (difference (.pow (.unary .sqrt (.var "x")) (.lit 2)) (.var "y")), node.IsEvenPower) ∧
      ¬ ReportsDeclared (some .positive) inv := by
  have hbranch : ((invertFor (fun _ => "") (.pow (.unary .sqrt (.var "x")) (.lit 2)) (.var "y") "x"
      (some .positive)).toOption.map Inversion.branch) = some .principal := by
    decide +kernel
  have hmem : Expr.pow (.unary .sqrt (.var "x")) (.lit 2) ∈ pathTo "x"
      (difference (.pow (.unary .sqrt (.var "x")) (.lit 2)) (.var "y")) := by
    decide +kernel
  obtain ⟨inv, hinv, hprincipal⟩ := Option.map_eq_some_iff.mp hbranch
  refine ⟨inv, Fallible.eq_ok_of_toOption hinv, ⟨_, hmem, isEvenPower_two _⟩, ?_⟩
  rintro ⟨-, hroot⟩
  rw [hprincipal] at hroot
  rcases hroot with hroot | hroot <;> cases hroot

end Branch

/-! ### What can be taken off -/

section Invertible

open Expr

/-- The nodes that `peel` takes off. -/
def Expr.Invertible : Expr → Prop
  | .pow _ exp => ∃ n, exp = .lit n ∧ n.den = 1
  | .powInf _ => False
  | .unary .sin _ => False
  | .unary .cos _ => False
  | _ => True

theorem isEvenInteger_of_not_odd {n : ℚ} (hn : n.den = 1) (hodd : ¬ isOddInteger n = true) :
    isEvenInteger n = true := by
  simp only [isOddInteger, isEvenInteger, decide_eq_true_eq] at hodd ⊢
  refine ⟨hn, ?_⟩
  have hodd : ¬ asI64 n % 2 = 1 := fun h => hodd ⟨hn, h⟩
  omega

variable {target : String} {base node : Expr} {n : ℚ} {s : Peeled}

/-- `peel` at a power with a literal exponent. -/
theorem peel_pow_lit (hbase : base.countVar target = 1) :
    peel target (.pow base (.lit n)) s
      = if isOddInteger n then peel target base ((s.take .principal).withAcc (nthRoot s.acc n))
        else if isEvenInteger n then
          match s.peelEven target n with
          | .error e => .error e
          | .ok s => peel target base s
        else noInverse target "a non-integer power" := by
  rw [peel, if_neg (by simp [countVar]), if_neg (by omega)]
  rfl

/-- A root of an even power that can be taken keeps the declared branch. -/
theorem peelEven_of_root (hbranch : s.branch = some .positive ∨ s.branch = some .negative) :
    ∃ s₁, s.peelEven target n = .ok s₁ ∧ s₁.branch = s.branch := by
  unfold Peeled.peelEven
  rcases hbranch with h | h <;> rw [h]
  · exact ⟨_, rfl, h⟩
  · exact ⟨_, rfl, h⟩

/-- How an even power stops the walk. -/
def NeedsBranch (target : String) (node : Expr) (s : Peeled) : Prop :=
  (s.branch = none ∧
    peel target node s = .error (.error (.multiBranch target [.positive, .negative]))) ∨
  (s.branch = some .principal ∧
    ∃ context, peel target node s = .error (.error (.nonInvertible target (.noInverse context))))

/-- The walk ends, or an even power stops it. -/
def EndsOrNeedsBranch (target : String) (node : Expr) (s : Peeled) : Prop :=
  (∃ s', peel target node s = .ok s') ∨
    ((∃ e ∈ pathTo target node, e.TakesEvenRoot) ∧ NeedsBranch target node s)

theorem EndsOrNeedsBranch.up {child : Expr} {s₁ : Peeled}
    (hnode : pathTo target node = node :: pathTo target child)
    (hpeel : peel target node s = peel target child s₁) (hbranch : s₁.branch = s.branch)
    (h : EndsOrNeedsBranch target child s₁) : EndsOrNeedsBranch target node s := by
  rw [EndsOrNeedsBranch, hnode, hpeel, NeedsBranch, hpeel, ← hbranch]
  refine Or.imp_right (fun h => ⟨?_, h.2⟩) h
  obtain ⟨e, he, heven⟩ := h.1
  exact ⟨e, List.mem_cons_of_mem _ he, heven⟩

/-- A power with a whole exponent: an odd root is taken, and an even one with the
branch that is declared for it. -/
theorem EndsOrNeedsBranch.pow_lit {base : Expr} {n : ℚ} (hbase : base.countVar target = 1)
    (hn : n.den = 1) (h : ∀ s', EndsOrNeedsBranch target base s') :
    EndsOrNeedsBranch target (.pow base (.lit n)) s := by
  have hnode : pathTo target (.pow base (.lit n)) = _ := pathTo_pow (hbase ▸ one_pos)
  by_cases hodd : isOddInteger n = true
  · have hpeel : peel target (.pow base (.lit n)) s
        = peel target base ((s.take .principal).withAcc (nthRoot s.acc n)) := by
      rw [peel_pow_lit hbase, if_pos hodd]
    exact EndsOrNeedsBranch.up hnode hpeel rfl (h _)
  · have heven := isEvenInteger_of_not_odd hn hodd
    have hpeel : ∀ {r : Except PeelFailure Peeled}, s.peelEven target n = r →
        peel target (.pow base (.lit n)) s = r >>= peel target base := by
      rintro r rfl
      rw [peel_pow_lit hbase, if_neg hodd, if_pos heven]
      cases s.peelEven target n <;> rfl
    have hhere : ∃ e ∈ pathTo target (.pow base (.lit n)), e.TakesEvenRoot :=
      ⟨.pow base (.lit n), hnode ▸ List.mem_cons_self, base, n, rfl, heven⟩
    rcases hb : s.branch with - | b
    · have hnone : s.peelEven target n
          = .error (.error (.multiBranch target [.positive, .negative])) := by
        rw [Peeled.peelEven, hb]
      exact Or.inr ⟨hhere, Or.inl ⟨hb, hpeel hnone⟩⟩
    · by_cases hroot : b = .positive ∨ b = .negative
      · obtain ⟨s₁, hs₁, hkept⟩ : ∃ s₁, s.peelEven target n = .ok s₁ ∧ s₁.branch = s.branch := by
          apply peelEven_of_root
          rw [hb]
          exact hroot.imp (congrArg some) (congrArg some)
        exact EndsOrNeedsBranch.up hnode (hpeel hs₁) hkept (h _)
      · obtain rfl : b = .principal := by
          cases b with
          | principal => rfl
          | positive => exact absurd (Or.inl rfl) hroot
          | negative => exact absurd (Or.inr rfl) hroot
        have hprincipal : s.peelEven target n = noInverse target
            "an even power without a declared +/- branch" := by
          rw [Peeled.peelEven, hb]
          rfl
        exact Or.inr ⟨hhere, Or.inr ⟨hb, _, hpeel hprincipal⟩⟩

/-- A path of nodes that can be taken off is walked to its end, or to an even power
without a root to take. -/
theorem peel_of_invertible (hone : node.countVar target = 1)
    (hpath : ∀ e ∈ pathTo target node, e.Invertible) : EndsOrNeedsBranch target node s := by
  induction node using ind generalizing s with
  | var name =>
      have hname : name = target := by
        by_contra hne
        simp [countVar, hne] at hone
      left
      rw [peel, if_pos hname]
      exact ⟨s, rfl⟩
  | lit x => cases hone
  | neg inner ih =>
      have hnode : pathTo target (.neg inner) = .neg inner :: pathTo target inner := by rw [pathTo]
      have hpeel : peel target (.neg inner) s = peel target inner (s.withAcc (.neg s.acc)) := by
        rw [peel]
      apply EndsOrNeedsBranch.up hnode hpeel rfl
      exact ih hone fun e he => hpath e (hnode ▸ List.mem_cons_of_mem _ he)
  | add operands ih =>
      obtain ⟨before, child, after, rfl, hchild, hothers⟩ := exists_operand hone
      have hbefore := fun op hop => hothers op (List.mem_append_left _ hop)
      have hnode : pathTo target (.add (before ++ child :: after)) = _ :=
        pathTo_add hbefore (hchild ▸ one_pos)
      apply EndsOrNeedsBranch.up hnode (peel_add hbefore (hchild ▸ one_pos)) rfl
      exact ih child (by simp) hchild fun e he => hpath e (hnode ▸ List.mem_cons_of_mem _ he)
  | mul operands ih =>
      obtain ⟨before, child, after, rfl, hchild, hothers⟩ := exists_operand hone
      have hbefore := fun op hop => hothers op (List.mem_append_left _ hop)
      have hnode : pathTo target (.mul (before ++ child :: after)) = _ :=
        pathTo_mul hbefore (hchild ▸ one_pos)
      apply EndsOrNeedsBranch.up hnode (peel_mul hbefore (hchild ▸ one_pos)) rfl
      exact ih child (by simp) hchild fun e he => hpath e (hnode ▸ List.mem_cons_of_mem _ he)
  | pow base exp ihb _ =>
      obtain ⟨n, rfl, hn⟩ : ∃ n, exp = .lit n ∧ n.den = 1 :=
        hpath (.pow base exp) (by rw [pathTo]; exact List.mem_cons_self)
      -- the one node that may stop the walk: an even power without a declared root
      refine EndsOrNeedsBranch.pow_lit hone hn fun s' => ihb hone fun e he => hpath e ?_
      rw [pathTo_pow (show 0 < base.countVar target from hone ▸ one_pos)]
      exact List.mem_cons_of_mem _ he
  | powInf base _ =>
      exact (hpath (.powInf base) (by rw [pathTo]; exact List.mem_cons_self)).elim
  | unary f inner ih =>
      have hnode : pathTo target (.unary f inner) = .unary f inner :: pathTo target inner := by
        rw [pathTo]
      have hbelow : ∀ e ∈ pathTo target inner, e.Invertible :=
        fun e he => hpath e (hnode ▸ List.mem_cons_of_mem _ he)
      have hhere : (Expr.unary f inner).Invertible := hpath _ (hnode ▸ List.mem_cons_self)
      cases f with
      | sqrt =>
          have hpeel : peel target (.unary .sqrt inner) s = peel target inner
              (((s.pushPredicate .ge).take .principal).withAcc (.pow s.acc (.lit 2))) := by
            rw [peel]
          exact EndsOrNeedsBranch.up hnode hpeel rfl (ih hone hbelow)
      | exp =>
          have hpeel : peel target (.unary .exp inner) s = peel target inner
              (((s.pushPredicate .gt).take .principal).withAcc (.unary .ln s.acc)) := by
            rw [peel]
          exact EndsOrNeedsBranch.up hnode hpeel rfl (ih hone hbelow)
      | ln =>
          have hpeel : peel target (.unary .ln inner) s = peel target inner
              ((s.take .principal).withAcc (.unary .exp s.acc)) := by
            rw [peel]
          exact EndsOrNeedsBranch.up hnode hpeel rfl (ih hone hbelow)
      | sin => exact hhere.elim
      | cos => exact hhere.elim

/-- At a node that cannot be taken off the walk fails, whatever branch is declared
for the even powers before it. -/
theorem peel_of_not_invertible (hone : node.countVar target = 1)
    (hbranch : s.branch = some .positive)
    (hpath : ∃ e ∈ pathTo target node, ¬ e.Invertible) :
    ∃ context, peel target node s = .error (.error (.nonInvertible target (.noInverse context))) := by
  induction node using ind generalizing s with
  | var name =>
      obtain ⟨e, he, -⟩ := hpath
      cases he
  | lit x => cases hone
  | neg inner ih =>
      obtain ⟨e, he, hnot⟩ := hpath
      rw [pathTo] at he
      rcases List.mem_cons.mp he with rfl | he
      · exact absurd trivial hnot
      · rw [peel]
        exact ih hone hbranch ⟨e, he, hnot⟩
  | add operands ih =>
      obtain ⟨e, he, hnot⟩ := hpath
      obtain ⟨before, child, after, rfl, hchild, hothers⟩ := exists_operand hone
      have hbefore := fun op hop => hothers op (List.mem_append_left _ hop)
      rw [pathTo_add hbefore (hchild ▸ one_pos)] at he
      rcases List.mem_cons.mp he with rfl | he
      · exact absurd trivial hnot
      · rw [peel_add hbefore (hchild ▸ one_pos)]
        exact ih child (by simp) hchild hbranch ⟨e, he, hnot⟩
  | mul operands ih =>
      obtain ⟨e, he, hnot⟩ := hpath
      obtain ⟨before, child, after, rfl, hchild, hothers⟩ := exists_operand hone
      have hbefore := fun op hop => hothers op (List.mem_append_left _ hop)
      rw [pathTo_mul hbefore (hchild ▸ one_pos)] at he
      rcases List.mem_cons.mp he with rfl | he
      · exact absurd trivial hnot
      · rw [peel_mul hbefore (hchild ▸ one_pos)]
        exact ih child (by simp) hchild hbranch ⟨e, he, hnot⟩
  | pow base exp ihb _ =>
      -- the power itself is refused where the target is in the exponent, and for an exponent
      -- that is no literal
      rcases Nat.eq_zero_or_pos (exp.countVar target) with hexp | hexp
      · rcases hn : exp.lit? with - | n
        · rw [peel, if_neg (by omega), if_neg (by rw [countVar] at hone; omega)]
          simp only [hn]
          exact ⟨_, rfl⟩
        · obtain rfl := lit?_eq_some.mp hn
          have hbase : base.countVar target = 1 := hone
          rw [peel_pow_lit hbase]
          by_cases hden : n.den = 1
          · obtain ⟨e, he, hnot⟩ := hpath
            rw [pathTo_pow (hbase ▸ one_pos)] at he
            have hbelow : ∃ e ∈ pathTo target base, ¬ e.Invertible := by
              rcases List.mem_cons.mp he with rfl | he
              · exact absurd ⟨n, rfl, hden⟩ hnot
              · exact ⟨e, he, hnot⟩
            split_ifs with hodd heven
            · exact ihb hbase hbranch hbelow
            · obtain ⟨s₁, hs₁, hkept⟩ := peelEven_of_root (Or.inl hbranch)
              rw [hs₁]
              exact ihb hbase (hkept.trans hbranch) hbelow
            · exact absurd (isEvenInteger_of_not_odd hden hodd) heven
          · rw [if_neg (by simp [isOddInteger, hden]), if_neg (by simp [isEvenInteger, hden])]
            exact ⟨_, rfl⟩
      · rw [peel, if_pos hexp]
        exact ⟨_, rfl⟩
  | powInf base _ =>
      have hbase : base.countVar target = 1 := hone
      rw [peel, if_neg (by omega)]
      exact ⟨_, rfl⟩
  | unary f inner ih =>
      obtain ⟨e, he, hnot⟩ := hpath
      rw [pathTo] at he
      cases f with
      | sqrt | exp | ln =>
          rcases List.mem_cons.mp he with rfl | he
          · exact absurd trivial hnot
          · rw [peel]
            exact ih hone hbranch ⟨e, he, hnot⟩
      | sin | cos => exact ⟨_, rfl⟩

end Invertible

end Feldspar

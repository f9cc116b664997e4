/-
Feldspar/LawTargets.lean

Which targets of a law can be solved for, and what a failed law leaves behind.

`invertible_targets` counts occurrences; `invert_for` wants every node on the path
to the target to be one that `peel` takes off.  `Solvable` is when an inversion
succeeds (`invertFor_succeeds_iff`), so the two agree where all paths are
`Invertible` (`invertibleTargets_sound_iff`).

`law` appends a direction as soon as it is derived.  What it appends before an error
is empty exactly when the first target already fails (`law_atomic_iff`).
-/
import Feldspar.PeelPath
import Feldspar.PredicateBox

set_option linter.unusedSectionVars false

namespace Feldspar

open Expr

/-! ### The targets of a law -/

section Targets

variable {formatF64 : F64 ℚ → String} {lhs rhs : Expr} {port : String}

theorem countVar_of_invertibleTargets (h : port ∈ invertibleTargets lhs rhs) :
    (difference lhs rhs).countVar port = 1 := by
  have hcount := (List.mem_filter.mp h).2
  exact of_decide_eq_true hcount

theorem invertFor_eq_error {branch : Option Branch} {e : PeelFailure}
    (hone : (difference lhs rhs).countVar port = 1)
    (h : peel port (difference lhs rhs) ⟨.lit 0, branch, [], none⟩ = .error e) :
    invertFor formatF64 lhs rhs port branch = .error e := by
  simp only [invertFor, hone, h]
  rfl

theorem invertFor_eq_ok {branch : Option Branch} {s : Peeled}
    (hone : (difference lhs rhs).countVar port = 1)
    (h : peel port (difference lhs rhs) ⟨.lit 0, branch, [], none⟩ = .ok s) :
    ∃ inv, invertFor formatF64 lhs rhs port branch = .ok inv := by
  simp only [invertFor, hone, h]
  exact ⟨_, rfl⟩

variable (formatF64 lhs rhs port) in
/-- `invert_for` solves for the port or lists its two branches, whichever root is
declared. -/
def SolvesFor : Prop :=
  ∀ branch : Option Branch, branch ≠ some .principal →
    (∃ inv, invertFor formatF64 lhs rhs port branch = .ok inv) ∨
      invertFor formatF64 lhs rhs port branch
        = .error (.error (.multiBranch port [.positive, .negative]))

variable (formatF64 lhs rhs) in
/-- No law of the equation fails with `NonInvertible`. -/
def LawSolves : Prop :=
  ∀ (Env : Type) (rel : Relation) (predicates : List Predicate)
    (branches : OrdMap.Map String Branch) (declaredBox : PortMap (Interval ℝ)),
    (∀ name : String, branches[name]? ≠ some .principal) →
    ∀ v reason, (law formatF64 rel lhs rhs predicates branches declaredBox :
      List (Direction Env) × _).2 ≠ .error (.error (.nonInvertible v reason))

/-- What `peel` needs of the path to the target. -/
def Solvable (target : String) (branch : Option Branch) (e : Expr) : Prop :=
  (∀ node ∈ pathTo target e, node.Invertible) ∧
    ((∃ node ∈ pathTo target e, node.TakesEvenRoot) →
      branch = some .positive ∨ branch = some .negative)

/-- A node that a step takes off. -/
theorem PeelStep.invertible {target : String} {node child : Expr} {s s₁ : Peeled}
    (h : PeelStep target node s child s₁) : node.Invertible := by
  cases h with
  | odd hodd =>
      rw [isOddInteger, decide_eq_true_eq] at hodd
      exact ⟨_, rfl, hodd.1⟩
  | even heven _ =>
      rw [isEvenInteger, decide_eq_true_eq] at heven
      exact ⟨_, rfl, heven.1⟩
  | _ => trivial

theorem Peels.invertible {target : String} {node : Expr} {s s' : Peeled}
    (h : Peels target node s s') (hone : node.countVar target = 1) :
    ∀ e ∈ pathTo target node, e.Invertible := by
  induction h with
  | done => exact fun e he => absurd he List.not_mem_nil
  | step hstep _ ih =>
      rw [hstep.path hone]
      exact List.forall_mem_cons.mpr ⟨hstep.invertible, ih (hstep.countVar_child hone)⟩

/-- When an inversion succeeds. -/
theorem invertFor_succeeds_iff {branch : Option Branch}
    (hone : (difference lhs rhs).countVar port = 1) :
    (∃ inv, invertFor formatF64 lhs rhs port branch = .ok inv) ↔
      Solvable port branch (difference lhs rhs) := by
  constructor
  · rintro ⟨inv, hinv⟩
    obtain ⟨-, s, hpeels, -, -, -⟩ := invertFor_ok hinv
    exact ⟨hpeels.invertible hone, hpeels.branch_of_evenRoot hone⟩
  · rintro ⟨hpath, hroot⟩
    rcases peel_of_invertible (s := ⟨.lit 0, branch, [], none⟩) hone hpath with
      ⟨s', hpeel⟩ | ⟨heven, hneeds⟩
    · exact invertFor_eq_ok hone hpeel
    · rcases hneeds with ⟨hnone, -⟩ | ⟨hprincipal, -⟩ <;> rcases hroot heven with hb | hb
      · cases hnone.symm.trans hb
      · cases hnone.symm.trans hb
      · cases hprincipal.symm.trans hb
      · cases hprincipal.symm.trans hb

/-- Solving for the port, read off its path. -/
theorem solvesFor_iff (hone : (difference lhs rhs).countVar port = 1) :
    SolvesFor formatF64 lhs rhs port ↔
      ∀ node ∈ pathTo port (difference lhs rhs), node.Invertible := by
  constructor
  · intro h node hnode
    by_contra hnot
    obtain ⟨context, hpeel⟩ := peel_of_not_invertible (s := ⟨.lit 0, some .positive, [], none⟩)
      hone rfl ⟨node, hnode, hnot⟩
    have herror : invertFor formatF64 lhs rhs port (some .positive) = _ :=
      invertFor_eq_error hone hpeel
    rcases h (some .positive) (by decide) with ⟨inv, hok⟩ | hmulti
    · cases hok.symm.trans herror
    · cases hmulti.symm.trans herror
  · intro hpath branch hbranch
    rcases peel_of_invertible (s := ⟨.lit 0, branch, [], none⟩) hone hpath with
      ⟨s', hpeel⟩ | ⟨-, ⟨-, hpeel⟩ | ⟨hprincipal, -⟩⟩
    · exact Or.inl (invertFor_eq_ok hone hpeel)
    · exact Or.inr (invertFor_eq_error hone hpeel)
    · exact absurd hprincipal hbranch

variable {rel : Relation} {predicates : List Predicate} {branches : OrdMap.Map String Branch}
variable {declaredBox : PortMap (Interval ℝ)} {Env : Type}

/-- The domain of a law is never the reason for a `NonInvertible`. -/
theorem lawDomain_error {e : SymbolicError}
    (h : lawDomain formatF64 rel predicates declaredBox = .error e) (v : String)
    (reason : NonInvertibleReason) : e ≠ .nonInvertible v reason := by
  rintro rfl
  unfold lawDomain at h
  split_ifs at h with hnil
  rcases predicateToBox_error h with ⟨text, heq⟩ | ⟨port, heq, -⟩
  · cases heq
  · cases heq

/-- Why a direction is not derived. -/
theorem derive_error {target : String} {e : PeelFailure}
    (h : (derive formatF64 rel lhs rhs predicates branches declaredBox target :
      Except PeelFailure (Direction Env)) = .error e) :
    invertFor formatF64 lhs rhs target branches[target]? = .error e ∨
      ∃ e', e = .error e' ∧ lawDomain formatF64 rel predicates declaredBox = .error e' := by
  rcases Fallible.bind_eq_error.mp h with hinv | ⟨inv, -, h⟩
  · exact Or.inl hinv
  · rcases Fallible.bind_eq_error.mp h with hdomain | ⟨domain, -, h⟩
    · right
      rcases hlaw : lawDomain formatF64 rel predicates declaredBox with e' | domain
      · rw [hlaw] at hdomain
        exact ⟨e', (Except.error.inj hdomain).symm, rfl⟩
      · rw [hlaw] at hdomain
        cases hdomain
    · cases h

/-- The error of a law is that of one of its targets. -/
theorem deriveAll_error {e : PeelFailure} : ∀ {targets : List String},
    (deriveAll formatF64 rel lhs rhs predicates branches declaredBox targets :
      List (Direction Env) × _).2 = .error e →
    ∃ target ∈ targets, (derive formatF64 rel lhs rhs predicates branches declaredBox target :
      Except PeelFailure (Direction Env)) = .error e
  | [], h => by cases h
  | target :: targets, h => by
      unfold deriveAll at h
      rcases hd : (derive formatF64 rel lhs rhs predicates branches declaredBox target :
        Except PeelFailure (Direction Env)) with e' | d <;> simp only [hd] at h
      · obtain rfl := Except.error.inj h
        exact ⟨target, List.mem_cons_self, hd⟩
      · obtain ⟨target', hmem, herror⟩ := deriveAll_error h
        exact ⟨target', List.mem_cons_of_mem _ hmem, herror⟩

variable (formatF64 lhs rhs) in
/-- **The pre-filter**: the targets it lets through can all be solved for, and no law
fails with `NonInvertible`, exactly when no node on their paths is a sine, a cosine or
a power whose exponent is not an integer literal. -/
theorem invertibleTargets_sound_iff :
    ((∀ port ∈ invertibleTargets lhs rhs, SolvesFor formatF64 lhs rhs port) ∧
        LawSolves formatF64 lhs rhs) ↔
      ∀ port ∈ invertibleTargets lhs rhs,
        ∀ node ∈ pathTo port (difference lhs rhs), node.Invertible := by
  constructor
  · rintro ⟨hsolves, -⟩ port hport
    exact (solvesFor_iff (countVar_of_invertibleTargets hport)).mp (hsolves port hport)
  · intro hpaths
    have hsolves : ∀ port ∈ invertibleTargets lhs rhs, SolvesFor formatF64 lhs rhs port :=
      fun port hport =>
        (solvesFor_iff (countVar_of_invertibleTargets hport)).mpr (hpaths port hport)
    refine ⟨hsolves, ?_⟩
    intro Env rel predicates branches declaredBox hbranches v reason herror
    obtain ⟨target, htarget, hderive⟩ := deriveAll_error herror
    rcases derive_error hderive with hinv | ⟨e, heq, hdomain⟩
    · rcases hsolves target htarget branches[target]? (hbranches target) with ⟨inv, hok⟩ | hmulti
      · cases hok.symm.trans hinv
      · cases hmulti.symm.trans hinv
    · cases heq
      exact lawDomain_error hdomain v reason rfl

/-- `sin(x) = y`: the port `x` is let through, and cannot be solved for. -/
theorem invertibleTargets_sine :
    "x" ∈ invertibleTargets (.unary .sin (.var "x")) (.var "y") ∧
      ∃ context, invertFor (fun _ => "") (.unary .sin (.var "x")) (.var "y") "x" none
        = .error (.error (.nonInvertible "x" (.noInverse context))) := by
  constructor
  · decide +kernel
  · refine ⟨"a periodic function (Sin) with no unique v1 inverse", ?_⟩
    apply invertFor_eq_error
    · decide +kernel
    · rfl

end Targets

/-! ### What a failed law leaves -/

section Atomic

variable {formatF64 : F64 ℚ → String} {rel : Relation} {lhs rhs : Expr}
variable {predicates : List Predicate} {branches : OrdMap.Map String Branch}
variable {declaredBox : PortMap (Interval ℝ)} {Env : Type}

variable (formatF64 rel lhs rhs predicates branches declaredBox) in
/-- The directions of the relation after `Relation.law`. -/
noncomputable def directionsAfterLaw (directions : List (Direction Env)) : List (Direction Env) :=
  directions ++ (law formatF64 rel lhs rhs predicates branches declaredBox).1

/-- `Relation.register`: up to the first direction that is rejected. -/
noncomputable def registerDirections :
    List (Direction Env) → SolverRegistry ℝ Env → SolverRegistry ℝ Env × Except RegistryError Unit
  | [], reg => (reg, .ok ())
  | d :: directions, reg =>
      match reg.register d.info d.fn with
      | .error e => (reg, .error e)
      | .ok reg => registerDirections directions reg

variable (formatF64 rel lhs rhs predicates branches declaredBox) in
/-- The law fails before its first direction: the predicates make no box, or the first
target cannot be solved for. -/
def FailsAtOnce : Prop :=
  (∃ e, lawDomain formatF64 rel predicates declaredBox = .error e) ∨
    ∃ target ∈ (invertibleTargets lhs rhs).head?,
      ¬ Solvable target branches[target]? (difference lhs rhs)

theorem derive_succeeds_iff {target : String} (hone : (difference lhs rhs).countVar target = 1) :
    (∃ d : Direction Env,
        derive formatF64 rel lhs rhs predicates branches declaredBox target = .ok d) ↔
      Solvable target branches[target]? (difference lhs rhs) ∧
        ∃ domain, lawDomain formatF64 rel predicates declaredBox = .ok domain := by
  constructor
  · rintro ⟨d, hd⟩
    obtain ⟨-, inv, hinv, -, -, hdomain⟩ := derive_ok hd
    exact ⟨(invertFor_succeeds_iff hone).mp ⟨inv, hinv⟩, d.info.domain, hdomain⟩
  · rintro ⟨hsolvable, domain, hdomain⟩
    obtain ⟨inv, hinv⟩ : ∃ inv, invertFor formatF64 lhs rhs target branches[target]? = .ok inv :=
      (invertFor_succeeds_iff hone).mpr hsolvable
    unfold derive
    rw [hinv, hdomain]
    exact ⟨_, rfl⟩

/-- What a failed law has appended. -/
theorem law_eq_nil_iff {e : PeelFailure}
    (herror : (law formatF64 rel lhs rhs predicates branches declaredBox :
      List (Direction Env) × _).2 = .error e) :
    (law formatF64 rel lhs rhs predicates branches declaredBox : List (Direction Env) × _).1 = [] ↔
      FailsAtOnce formatF64 rel lhs rhs predicates branches declaredBox := by
  unfold FailsAtOnce
  unfold law at herror ⊢
  rcases htargets : invertibleTargets lhs rhs with - | ⟨target, targets⟩
  · rw [htargets] at herror
    cases herror
  · have hone : (difference lhs rhs).countVar target = 1 :=
      countVar_of_invertibleTargets (htargets ▸ List.mem_cons_self)
    have hfirst : (∃ e, lawDomain formatF64 rel predicates declaredBox = .error e) ∨
          (∃ target' ∈ (target :: targets).head?,
            ¬ Solvable target' branches[target']? (difference lhs rhs)) ↔
        ¬ ∃ d : Direction Env,
          derive formatF64 rel lhs rhs predicates branches declaredBox target = .ok d := by
      rw [derive_succeeds_iff hone, not_and_or, or_comm]
      apply or_congr
      · simp
      · rcases lawDomain formatF64 rel predicates declaredBox with e' | domain <;> simp
    rw [hfirst, deriveAll]
    rcases (derive formatF64 rel lhs rhs predicates branches declaredBox target :
      Except PeelFailure (Direction Env)) with e' | d <;> simp

/-- **A failed law** leaves the directions as they were exactly when it fails before
its first direction, and then `register` installs what it would have installed. -/
theorem law_atomic_iff {directions : List (Direction Env)} {e : PeelFailure}
    (herror : (law formatF64 rel lhs rhs predicates branches declaredBox :
      List (Direction Env) × _).2 = .error e) :
    (directionsAfterLaw formatF64 rel lhs rhs predicates branches declaredBox directions = directions ↔
      FailsAtOnce formatF64 rel lhs rhs predicates branches declaredBox) ∧
    (FailsAtOnce formatF64 rel lhs rhs predicates branches declaredBox → ∀ reg,
      registerDirections (directionsAfterLaw formatF64 rel lhs rhs predicates branches declaredBox
        directions) reg = registerDirections directions reg) := by
  have hsame : directionsAfterLaw formatF64 rel lhs rhs predicates branches declaredBox directions
      = directions ↔ FailsAtOnce formatF64 rel lhs rhs predicates branches declaredBox := by
    rw [← law_eq_nil_iff herror]
    exact List.append_right_eq_self
  refine ⟨hsame, fun hfails reg => ?_⟩
  rw [hsame.mpr hfails]

theorem derive_of_peel_error {target : String} {branch : Option Branch} {e : PeelFailure}
    (hone : (difference lhs rhs).countVar target = 1) (hbranch : branches[target]? = branch)
    (h : peel target (difference lhs rhs) ⟨.lit 0, branch, [], none⟩ = .error e) :
    (derive formatF64 rel lhs rhs predicates branches declaredBox target :
      Except PeelFailure (Direction Env)) = .error e := by
  unfold derive
  rw [hbranch, invertFor_eq_error hone h]
  rfl

theorem no_branches (name : String) : (∅ : OrdMap.Map String Branch)[name]? = none :=
  Std.ExtTreeMap.getElem?_empty

/-- The law `x^2 = 4` fails at its only target. -/
theorem law_atomic_iff_only :
    directionsAfterLaw (fun _ => "") squareRoot (.pow (.var "x") (.lit 2)) (.lit 4) [] ∅ ∅
      ([] : List (Direction Unit)) = [] := by
  have hone : (difference (.pow (.var "x") (.lit 2)) (.lit 4)).countVar "x" = 1 := by
    decide +kernel
  have htargets : invertibleTargets (.pow (.var "x") (.lit 2)) (.lit 4) = ["x"] := by
    decide +kernel
  have hpeel : peel "x" (difference (.pow (.var "x") (.lit 2)) (.lit 4)) ⟨.lit 0, none, [], none⟩
      = .error (.error (.multiBranch "x" [.positive, .negative])) := rfl
  have hderive : (derive (fun _ => "") squareRoot (.pow (.var "x") (.lit 2)) (.lit 4) [] ∅ ∅ "x" :
      Except PeelFailure (Direction Unit)) = _ := derive_of_peel_error hone (no_branches _) hpeel
  have herror : (law (fun _ => "") squareRoot (.pow (.var "x") (.lit 2)) (.lit 4) [] ∅ ∅ :
      List (Direction Unit) × _).2 = .error (.error (.multiBranch "x" [.positive, .negative])) := by
    unfold law
    rw [htargets, deriveAll, hderive]
  apply (law_atomic_iff herror).1.mpr
  refine Or.inr ⟨"x", by rw [htargets]; rfl, ?_⟩
  rintro ⟨-, hroot⟩
  rw [no_branches] at hroot
  have hmem : Expr.pow (.var "x") (.lit 2) ∈
      pathTo "x" (difference (.pow (.var "x") (.lit 2)) (.lit 4)) := by decide +kernel
  rcases hroot ⟨_, hmem, .var "x", 2, rfl, by decide +kernel⟩ with h | h <;> cases h

/-- The law `a = x^2` without a branch fails at `x`, and leaves the direction for `a`
behind. -/
theorem law_not_atomic :
    (law (fun _ => "") squareRoot (.var "a") (.pow (.var "x") (.lit 2)) [] ∅ ∅ :
        List (Direction Unit) × _).2
      = .error (.error (.multiBranch "x" [.positive, .negative])) ∧
    directionsAfterLaw (fun _ => "") squareRoot (.var "a") (.pow (.var "x") (.lit 2)) [] ∅ ∅
      ([] : List (Direction Unit)) ≠ [] := by
  have htargets : invertibleTargets (.var "a") (.pow (.var "x") (.lit 2)) = ["a", "x"] := by
    decide +kernel
  have hone : ∀ name ∈ ["a", "x"],
      (difference (.var "a") (.pow (.var "x") (.lit 2))).countVar name = 1 := by
    decide +kernel
  have hpeel : peel "x" (difference (.var "a") (.pow (.var "x") (.lit 2))) ⟨.lit 0, none, [], none⟩
      = .error (.error (.multiBranch "x" [.positive, .negative])) := rfl
  have hx : (derive (fun _ => "") squareRoot (.var "a") (.pow (.var "x") (.lit 2)) [] ∅ ∅ "x" :
      Except PeelFailure (Direction Unit)) = _ :=
    derive_of_peel_error (hone "x" (by simp)) (no_branches _) hpeel
  have hpath : pathTo "a" (difference (.var "a") (.pow (.var "x") (.lit 2)))
      = [difference (.var "a") (.pow (.var "x") (.lit 2))] := by decide +kernel
  have hshape : difference (.var "a") (.pow (.var "x") (.lit 2))
      = .add [.var "a", .neg (.pow (.var "x") (.lit 2))] := by decide +kernel
  obtain ⟨d, hd⟩ : ∃ d : Direction Unit,
      derive (fun _ => "") squareRoot (.var "a") (.pow (.var "x") (.lit 2)) [] ∅ ∅ "a" = .ok d := by
    apply (derive_succeeds_iff (hone "a" (by simp))).mpr
    refine ⟨⟨?_, ?_⟩, _, if_pos rfl⟩
    · rw [hpath, hshape]
      exact List.forall_mem_singleton.mpr trivial
    · rw [hpath, hshape]
      rintro ⟨node, hnode, base, n, rfl, -⟩
      cases List.mem_singleton.mp hnode
  unfold directionsAfterLaw law
  rw [htargets, deriveAll]
  simp only [hd]
  rw [deriveAll, hx]
  simp

end Atomic

end Feldspar

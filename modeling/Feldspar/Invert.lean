/-
Feldspar/Invert.lean

`invert_for`: solving an equation for a variable that occurs once.

`peel` walks from the root of the zeroed equation to the variable and carries
to the other side what it takes off; `Peeled` is what it carries.  `PeelStep`
is one step of the walk, and `Peels` the walk as a relation: every invariant is
proved on `PeelStep`.

A power with the literal exponent 0 counts as even, and its root has the
exponent `1.0 / 0.0`.
-/
import Feldspar.SymbolicEval

set_option linter.unusedSectionVars false

namespace Feldspar

/-! ### Data -/

inductive Cmp
  | lt
  | le
  | gt
  | ge
  deriving DecidableEq, Repr

def Cmp.symbol : Cmp → String
  | .lt => "<"
  | .le => "<="
  | .gt => ">"
  | .ge => ">="

def Cmp.Holds : Cmp → ℝ → ℝ → Prop
  | .lt, a, b => a < b
  | .le, a, b => a ≤ b
  | .gt, a, b => a > b
  | .ge, a, b => a ≥ b

/-- An inequality over ports. -/
structure Predicate where
  lhs : Expr
  cmp : Cmp
  rhs : Expr
  deriving DecidableEq

namespace Predicate

def canonicalString (formatF64 : F64 ℚ → String) (p : Predicate) : String :=
  p.lhs.canonicalString formatF64 ++ " " ++ p.cmp.symbol ++ " " ++ p.rhs.canonicalString formatF64

/-- Both sides evaluate, and compare as the predicate says. -/
def Holds (inputs : PortMap ℝ) (p : Predicate) : Prop :=
  p.lhs.Evaluates inputs ∧ p.rhs.Evaluates inputs ∧
    p.cmp.Holds (p.lhs.value inputs) (p.rhs.value inputs)

end Predicate

inductive Branch
  | principal
  | positive
  | negative
  deriving DecidableEq, Repr

def Branch.label : Branch → String
  | .principal => "principal"
  | .positive => "+"
  | .negative => "-"

structure Inversion where
  solvedFor : String
  rhs : Expr
  branch : Branch
  admission : List Predicate
  form : String

inductive NonInvertibleReason
  | absent
  | multipleOccurrences (count : ℕ)
  | noInverse (context : String)
  deriving DecidableEq, Repr

inductive SymbolicError
  | nonInvertible (variable_ : String) (reason : NonInvertibleReason)
  | multiBranch (variable_ : String) (branches : List Branch)
  | unboundablePredicate (predicate : String)
  | emptyDomain (port : Port)
  deriving DecidableEq, Repr

/-- How the peel fails: with an error, or at an `unreachable!`. -/
inductive PeelFailure
  | error (e : SymbolicError)
  | unreachable
  deriving DecidableEq, Repr

/-! ### Peeling -/

/-- What `peel` carries: the other side, the branch to take, and what was
admitted and taken on the way. -/
structure Peeled where
  acc : Expr
  branch : Option Branch
  admission : List Predicate
  branchTaken : Option Branch

namespace Peeled

/-- Go on with another other side. -/
def withAcc (s : Peeled) (acc : Expr) : Peeled := { s with acc := acc.canonicalize }

def take (s : Peeled) (branch : Branch) : Peeled := { s with branchTaken := some branch }

def pushPredicate (s : Peeled) (cmp : Cmp) : Peeled :=
  { s with admission := s.admission ++ [⟨s.acc, cmp, .lit 0⟩] }

end Peeled

/-- `n as i64`, up to parity.  The cast saturates: every number from `2^63` on
becomes an odd one.  Below `-2^63` every `f64` is even, and so is what it
becomes. -/
def asI64 (n : ℚ) : ℤ := min (2 ^ 63 - 1) n.num

/-- `n.fract() == 0.0 && (n as i64).rem_euclid(2) == 1`. -/
def isOddInteger (n : ℚ) : Bool := n.den = 1 ∧ asI64 n % 2 = 1

def isEvenInteger (n : ℚ) : Bool := n.den = 1 ∧ asI64 n % 2 = 0

/-- `Pow(acc, Lit(1.0 / n))`. -/
def nthRoot (acc : Expr) (n : ℚ) : Expr := if n = 0 then .powInf acc else .pow acc (.lit (1 / n))

section Peel

variable (target : String)

def noInverse (context : String) : Except PeelFailure Peeled :=
  .error (.error (.nonInvertible target (.noInverse context)))

/-- The state after the sum is taken off, all but one of its operands. -/
def Peeled.peelAdd (s : Peeled) (others : List Expr) : Peeled :=
  s.withAcc (.add [s.acc, .neg (.add others)])

def Peeled.peelMul (s : Peeled) (others : List Expr) : Peeled :=
  s.withAcc (.mul [s.acc, .pow (.mul others) (.lit (-1))])

/-- The chosen root of an even power, or why there is none. -/
def Peeled.peelEven (s : Peeled) (n : ℚ) : Except PeelFailure Peeled :=
  match s.branch with
  | none => .error (.error (.multiBranch target [.positive, .negative]))
  | some .positive => .ok ((s.take .positive).withAcc (nthRoot s.acc n))
  | some .negative => .ok ((s.take .negative).withAcc (.neg (nthRoot s.acc n).canonicalize))
  | some .principal =>
      .error (.error (.nonInvertible target
        (.noInverse "an even power without a declared +/- branch")))

mutual

def peel : Expr → Peeled → Except PeelFailure Peeled
  | .var name, s => if name = target then .ok s else .error .unreachable
  | .lit _, _ => .error .unreachable
  | .add operands, s => peelAmong s.peelAdd [] operands
  | .mul operands, s => peelAmong s.peelMul [] operands
  | .neg inner, s => peel inner (s.withAcc (.neg s.acc))
  | .pow base exp, s =>
      if 0 < exp.countVar target then noInverse target "an exponent"
      else if base.countVar target = 0 then .error .unreachable
      else
        match exp.lit? with
        | none => noInverse target "a power with a non-literal exponent"
        | some n =>
            if isOddInteger n then peel base ((s.take .principal).withAcc (nthRoot s.acc n))
            else if isEvenInteger n then
              match s.peelEven target n with
              | .error e => .error e
              | .ok s => peel base s
            else noInverse target "a non-integer power"
  | .powInf base, _ =>
      if base.countVar target = 0 then .error .unreachable
      -- infinity has no fractional part that is 0
      else noInverse target "a non-integer power"
  | .unary .sqrt inner, s =>
      peel inner (((s.pushPredicate .ge).take .principal).withAcc (.pow s.acc (.lit 2)))
  | .unary .exp inner, s =>
      peel inner (((s.pushPredicate .gt).take .principal).withAcc (.unary .ln s.acc))
  | .unary .ln inner, s => peel inner ((s.take .principal).withAcc (.unary .exp s.acc))
  | .unary .sin _, _ => noInverse target "a periodic function (Sin) with no unique v1 inverse"
  | .unary .cos _, _ => noInverse target "a periodic function (Cos) with no unique v1 inverse"

/-- Go on with the first operand that has the target; `off` takes the others
off. -/
def peelAmong (off : List Expr → Peeled) (before : List Expr) :
    List Expr → Except PeelFailure Peeled
  | [] => .error .unreachable
  | op :: after =>
      if 0 < op.countVar target then peel op (off (before ++ after))
      else peelAmong off (before ++ [op]) after

end

end Peel

/-- The zeroed equation `lhs - rhs`. -/
def difference (lhs rhs : Expr) : Expr := (Expr.add [lhs, .neg rhs]).canonicalize

/-- `invert_for`. -/
def invertFor (formatF64 : F64 ℚ → String) (lhs rhs : Expr) (target : String)
    (branch : Option Branch) : Except PeelFailure Inversion :=
  let expr := difference lhs rhs
  let count := expr.countVar target
  if count = 0 then .error (.error (.nonInvertible target .absent))
  else if 1 < count then .error (.error (.nonInvertible target (.multipleOccurrences count)))
  else do
    let s ← peel target expr ⟨.lit 0, branch, [], none⟩
    let rhs := s.acc.canonicalize
    pure
      { solvedFor := target
        rhs
        branch := s.branchTaken.getD .principal
        admission := s.admission
        form := target ++ " = " ++ rhs.canonicalString formatF64 }

end Feldspar

/-
Feldspar/Symbolic.lean

The expressions of `symbolic.rs`: their total order, their canonical form, its
string, and the count of a variable.

Literals are exact.  The one literal that is not a number is `1.0 / 0.0`, which
the inversion of a zeroth power writes as an exponent: `powInf b` is
`Pow(b, Lit(f64::INFINITY))`.

`canonicalizeAll` and the other functions on operand lists are the loops over
`Vec<Expr>`; a function and its loop are mutually recursive on the tree.
-/
import Feldspar.Quantity
import Mathlib.Data.List.Sort

set_option linter.unusedSectionVars false

namespace Feldspar

/-! ### Expressions -/

inductive UnaryFn
  | sqrt
  | sin
  | cos
  | exp
  | ln
  deriving DecidableEq, Repr

namespace UnaryFn

/-- The place in the derived order. -/
def rank : UnaryFn → ℕ
  | sqrt => 0
  | sin => 1
  | cos => 2
  | exp => 3
  | ln => 4

def name : UnaryFn → String
  | sqrt => "sqrt"
  | sin => "sin"
  | cos => "cos"
  | exp => "exp"
  | ln => "ln"

theorem rank_injective : Function.Injective rank := by
  intro f g h
  cases f <;> cases g <;> first | rfl | cases h

end UnaryFn

/-- A symbolic expression over ports. -/
inductive Expr
  | var (name : String)
  | lit (x : ℚ)
  | neg (e : Expr)
  | add (operands : List Expr)
  | mul (operands : List Expr)
  | pow (base exp : Expr)
  /-- a power with the literal exponent `1.0 / 0.0` -/
  | powInf (base : Expr)
  | unary (f : UnaryFn) (e : Expr)

namespace Expr

/-- Induction with a hypothesis for every operand. -/
@[elab_as_elim]
theorem ind {motive : Expr → Prop} (var : ∀ name, motive (.var name))
    (lit : ∀ x, motive (.lit x)) (neg : ∀ e, motive e → motive (.neg e))
    (add : ∀ operands, (∀ op ∈ operands, motive op) → motive (.add operands))
    (mul : ∀ operands, (∀ op ∈ operands, motive op) → motive (.mul operands))
    (pow : ∀ base exp, motive base → motive exp → motive (.pow base exp))
    (powInf : ∀ base, motive base → motive (.powInf base))
    (unary : ∀ f e, motive e → motive (.unary f e)) (e : Expr) : motive e :=
  Expr.rec (motive_1 := motive) (motive_2 := fun operands => ∀ op ∈ operands, motive op)
    var lit neg add mul pow powInf unary (fun _ h => absurd h List.not_mem_nil)
    (fun _ _ hop hops op h => (List.mem_cons.mp h).elim (fun he => he ▸ hop) (hops op)) e

/-! ### The total order -/

/-- `kind_rank`. -/
def kindRank : Expr → ℕ
  | lit _ => 0
  | var _ => 1
  | neg _ => 2
  | pow _ _ => 3
  | powInf _ => 3
  | unary _ _ => 4
  | add _ => 5
  | mul _ => 6

mutual

/-- `Expr::cmp`: by kind, then structurally. -/
def cmp : Expr → Expr → Ordering
  | lit a, lit b => compare a b
  | var a, var b => compare a b
  | neg a, neg b => cmp a b
  | unary fa a, unary fb b => (compare fa.rank fb.rank).then (cmp a b)
  | pow ba xa, pow bb xb => (cmp ba bb).then (cmp xa xb)
  -- an infinite exponent comes after the other literals and before the rest
  | pow ba xa, powInf bb => (cmp ba bb).then (if xa.kindRank = 0 then .lt else .gt)
  | powInf ba, pow bb xb => (cmp ba bb).then (if xb.kindRank = 0 then .gt else .lt)
  | powInf ba, powInf bb => (cmp ba bb).then .eq
  | add a, add b => cmpAll a b
  | mul a, mul b => cmpAll a b
  | a, b => compare a.kindRank b.kindRank

/-- Operand by operand, then by length. -/
def cmpAll : List Expr → List Expr → Ordering
  | [], [] => .eq
  | [], _ :: _ => .lt
  | _ :: _, [] => .gt
  | a :: as, b :: bs => (cmp a b).then (cmpAll as bs)

end

/-- The order that operands are sorted by. -/
def le (a b : Expr) : Prop := cmp a b ≠ .gt

instance : DecidableRel le := fun a b => inferInstanceAs (Decidable (cmp a b ≠ .gt))

/-! ### Canonicalization -/

/-- The literal that an operand is. -/
def lit? : Expr → Option ℚ
  | lit x => some x
  | _ => none

/-- What an operand of a sum is flattened to. -/
def addends : Expr → List Expr
  | add operands => operands
  | e => [e]

/-- What an operand of a product is flattened to. -/
def factors : Expr → List Expr
  | mul operands => operands
  | e => [e]

def lits (flat : List Expr) : List ℚ := flat.filterMap lit?

def nonLits (flat : List Expr) : List Expr := flat.filter fun e => e.lit?.isNone

/-- The end of both folds: the literal that was folded joins the other
operands, unless it is the identity. -/
def assemble (node : List Expr → Expr) (identity folded : ℚ) (others : List Expr) : Expr :=
  match others ++ (if folded ≠ identity then [lit folded] else []) with
  | [] => lit identity
  | [e] => e
  | result => node (result.insertionSort le)

/-- The `Add` arm of `canonicalize`, after the recursion. -/
def canonAdd (operands : List Expr) : Expr :=
  let flat := operands.flatMap addends
  assemble add 0 (lits flat).sum (nonLits flat)

/-- The `Mul` arm. -/
def canonMul (operands : List Expr) : Expr :=
  let flat := operands.flatMap factors
  if (lits flat).prod = 0 then lit 0
  else assemble mul 1 (lits flat).prod (nonLits flat)

mutual

def canonicalize : Expr → Expr
  | var name => var name
  | lit x => lit x
  | neg e => neg e.canonicalize
  | unary f e => unary f e.canonicalize
  | pow base exp => pow base.canonicalize exp.canonicalize
  | powInf base => powInf base.canonicalize
  | add operands => canonAdd (canonicalizeAll operands)
  | mul operands => canonMul (canonicalizeAll operands)

def canonicalizeAll : List Expr → List Expr
  | [] => []
  | op :: operands => op.canonicalize :: canonicalizeAll operands

end

/-! ### The canonical string and the count -/

mutual

/-- `formatF64` is `digest::format_f64`. -/
def canonicalString (formatF64 : F64 ℚ → String) : Expr → String
  | var name => "V:" ++ name
  | lit x => "L:" ++ formatF64 (.finite x)
  | neg e => "(neg " ++ canonicalString formatF64 e ++ ")"
  | unary f e => "(" ++ f.name ++ " " ++ canonicalString formatF64 e ++ ")"
  | pow base exp =>
      "(pow " ++ canonicalString formatF64 base ++ " " ++ canonicalString formatF64 exp ++ ")"
  | powInf base =>
      "(pow " ++ canonicalString formatF64 base ++ " L:" ++ formatF64 .nonFinite ++ ")"
  | add operands => "(add " ++ " ".intercalate (canonicalStrings formatF64 operands) ++ ")"
  | mul operands => "(mul " ++ " ".intercalate (canonicalStrings formatF64 operands) ++ ")"

def canonicalStrings (formatF64 : F64 ℚ → String) : List Expr → List String
  | [] => []
  | op :: operands => canonicalString formatF64 op :: canonicalStrings formatF64 operands

end

mutual

/-- `count_var`. -/
def countVar (target : String) : Expr → ℕ
  | var name => if name = target then 1 else 0
  | lit _ => 0
  | neg e => countVar target e
  | unary _ e => countVar target e
  | pow base exp => countVar target base + countVar target exp
  | powInf base => countVar target base
  | add operands => countVars target operands
  | mul operands => countVars target operands

def countVars (target : String) : List Expr → ℕ
  | [] => 0
  | op :: operands => countVar target op + countVars target operands

end

end Expr

end Feldspar

/-
Feldspar/FeaResults.lean

The result tables of a finite-element run (`fea/results.py`).

A line whose first token is an integer starts a row, and a row that is not read
cleanly fails the whole parse; every other line is skipped.  Stress rows are
reduced to principal stresses as they are read.  The arithmetic is that of
`FloatValue`, with any rounding, and the infinities and nan that a token can
be.  What `int` and `float` make of a token is a parameter.
-/
import Feldspar.Lib.FloatValue
import Mathlib.Analysis.SpecialFunctions.Pow.Real
import Mathlib.Analysis.SpecialFunctions.Trigonometric.Inverse

namespace Feldspar

namespace FeaResults

open FloatValue (Value Rounding)

/-! ### Lines and tokens -/

/-- The code points that `str.splitlines` breaks at. -/
def lineBreaks : List ℕ := [10, 11, 12, 13, 28, 29, 30, 133, 8232, 8233]

/-- The code points that `str.isspace` holds of. -/
def spaces : List ℕ :=
  [9, 10, 11, 12, 13, 28, 29, 30, 31, 32, 133, 160, 5760, 8192, 8193, 8194, 8195, 8196, 8197, 8198,
    8199, 8200, 8201, 8202, 8232, 8233, 8239, 8287, 12288]

/-- The lines from the characters `line` (reversed) on; a line feed right after
a carriage return is part of the same break. -/
def splitlinesFrom : Bool → List Char → List Char → List String
  | _, line, [] => if line = [] then [] else [String.ofList line.reverse]
  | afterCr, line, c :: text =>
      if afterCr ∧ c.toNat = 10 then splitlinesFrom false line text
      else if c.toNat ∈ lineBreaks then
        String.ofList line.reverse :: splitlinesFrom (c.toNat = 13) [] text
      else splitlinesFrom false (c :: line) text

/-- `text.splitlines()`. -/
def splitlines (text : String) : List String := splitlinesFrom false [] text.toList

def splitFrom : List Char → List Char → List String
  | token, [] => if token = [] then [] else [String.ofList token.reverse]
  | token, c :: line =>
      if c.toNat ∈ spaces then
        if token = [] then splitFrom [] line
        else String.ofList token.reverse :: splitFrom [] line
      else splitFrom (c :: token) line

/-- `line.split()`. -/
def split (line : String) : List String := splitFrom [] line.toList

/-- What Python makes of a token, and of a line in a message. -/
structure PyTokens where
  int : String → Option ℤ
  float : String → Option (Value ℝ)
  repr : String → String

inductive PyError
  | valueError
  | zeroDivisionError
  | overflowError
  | indexError
  deriving DecidableEq

inductive SolveError
  | parseFailed (context : String)
  deriving DecidableEq

/-- Why there is no value: an `Err`, or an exception. -/
inductive Failure
  | err (e : SolveError)
  | raised (e : PyError)
  deriving DecidableEq

/-! ### Principal stresses -/

noncomputable section Stresses

variable [Rounding ℝ]

def divide (x y : Value ℝ) : Except PyError (Value ℝ) :=
  if y = .fin 0 then .error .zeroDivisionError else .ok (x / y)

/-- `x ** 2`; the power of a number raises where it overflows. -/
def square : Value ℝ → Except PyError (Value ℝ)
  | .fin x =>
      match Value.round (x * x) with
      | .inf _ => .error .overflowError
      | v => .ok v
  | .inf _ => .ok (.inf false)
  | .nan => .ok .nan

/-- `math.sqrt`. -/
def sqrt : Value ℝ → Except PyError (Value ℝ)
  | .fin x => if x < 0 then .error .valueError else .ok (.round (Real.sqrt x))
  | .inf negative => if negative then .error .valueError else .ok (.inf false)
  | .nan => .ok .nan

/-- `math.acos`. -/
def acos : Value ℝ → Except PyError (Value ℝ)
  | .fin x => if -1 ≤ x ∧ x ≤ 1 then .ok (.round (Real.arccos x)) else .error .valueError
  | .inf _ => .error .valueError
  | .nan => .ok .nan

/-- `math.cos`. -/
def cos : Value ℝ → Except PyError (Value ℝ)
  | .fin x => .ok (.round (Real.cos x))
  | .inf _ => .error .valueError
  | .nan => .ok .nan

/-- `min(a, b)` and `max(a, b)` of two values. -/
def pyMin (a b : Value ℝ) : Value ℝ := if b.lt a then b else a

def pyMax (a b : Value ℝ) : Value ℝ := if a.lt b then b else a

abbrev Triple := Value ℝ × Value ℝ × Value ℝ

/-- `_principal_stresses`. -/
def principalStresses (sxx syy szz sxy sxz syz : Value ℝ) : Except PyError Triple := do
  let p1 := sxy * sxy + sxz * sxz + syz * syz
  if p1 = .fin 0 then
    -- `sorted(.., reverse=True)`
    match [sxx, syy, szz].mergeSort fun a b => !a.lt b with
    | [s1, s2, s3] => pure (s1, s2, s3)
    | _ => throw .indexError
  else
    let q ← divide (sxx + syy + szz) (.fin (3 : ℕ))
    let p2 := (← square (sxx - q)) + (← square (syy - q)) + (← square (szz - q)) + .fin (2 : ℕ) * p1
    let p ← sqrt (← divide p2 (.fin (6 : ℕ)))
    let b11 ← divide (sxx - q) p
    let b22 ← divide (syy - q) p
    let b33 ← divide (szz - q) p
    let b12 ← divide sxy p
    let b13 ← divide sxz p
    let b23 ← divide syz p
    let detB := b11 * (b22 * b33 - b23 * b23) - b12 * (b12 * b33 - b23 * b13)
      + b13 * (b12 * b23 - b22 * b13)
    let r := pyMax (.fin (-1)) (pyMin (.fin 1) (← divide detB (.fin (2 : ℕ))))
    let phi ← divide (← acos r) (.fin (3 : ℕ))
    let s1 := q + .fin (2 : ℕ) * p * (← cos phi)
    let third ← divide (.fin (2 : ℕ) * .round Real.pi) (.fin (3 : ℕ))
    let s3 := q + .fin (2 : ℕ) * p * (← cos (phi + third))
    let s2 := .fin (3 : ℕ) * q - s1 - s3
    pure (s1, s2, s3)

/-! ### The tables -/

/-- `enumerate(text.splitlines(), start=1)`. -/
def numberedLines (text : String) : List (ℕ × String) :=
  (splitlines text).zipIdx.map fun line => (line.2 + 1, line.1)

def parseFailed (py : PyTokens) (line : ℕ × String) : Failure :=
  .err (.parseFailed ("line " ++ toString line.1 ++ ": " ++ py.repr line.2))

/-- `rows[key] = value`. -/
def setItem {α : Type} : List (ℤ × α) → ℤ → α → List (ℤ × α)
  | [], key, value => [(key, value)]
  | row :: rows, key, value =>
      if row.1 = key then (key, value) :: rows else row :: setItem rows key value

/-- The three floats of a row. -/
def threeColumns (py : PyTokens) : List String → Option Triple
  | [a, b, c] => do
      let a ← py.float a
      let b ← py.float b
      let c ← py.float c
      pure (a, b, c)
  | _ => none

/-- One line of `_parse_three_column_table`; a blank line has no token. -/
def threeColumnLine (py : PyTokens) (rows : List (ℤ × Triple)) (line : ℕ × String) :
    Except Failure (List (ℤ × Triple)) :=
  match split line.2 with
  | [] => .ok rows
  | token :: valueTokens =>
      match py.int token with
      | none => .ok rows
      | some rowId =>
          match threeColumns py valueTokens with
          | some columns => .ok (setItem rows rowId columns)
          | none => .error (parseFailed py line)

/-- `parse_dat_displacements`. -/
def parseDatDisplacements (py : PyTokens) (text : String) :
    Except Failure (List (ℤ × Triple)) :=
  (numberedLines text).foldlM (threeColumnLine py) []

/-- The six floats of a row, after an integration point. -/
def sixColumns (py : PyTokens) (valueTokens : List String) : Option (List (Value ℝ)) :=
  let tokens := if valueTokens.length = 7 then valueTokens.tail else valueTokens
  if tokens.length = 6 then tokens.mapM py.float else none

/-- The principal stresses of six components. -/
def reduceRow : List (Value ℝ) → Except PyError Triple
  | [sxx, syy, szz, sxy, sxz, syz] => principalStresses sxx syy szz sxy sxz syz
  | _ => .error .valueError

/-- One line of `parse_dat_principal_stresses`; the rows have a running index. -/
def principalStressLine (py : PyTokens) (rows : List Triple) (line : ℕ × String) :
    Except Failure (List Triple) :=
  match split line.2 with
  | [] => .ok rows
  | token :: valueTokens =>
      match py.int token with
      | none => .ok rows
      | some _ =>
          match sixColumns py valueTokens with
          | some columns => do
              let stresses ← (reduceRow columns).mapError Failure.raised
              pure (rows ++ [stresses])
          | none => .error (parseFailed py line)

/-- `parse_dat_principal_stresses`. -/
def parseDatPrincipalStresses (py : PyTokens) (text : String) : Except Failure (List Triple) :=
  (numberedLines text).foldlM (principalStressLine py) []

/-! ### The maxima -/

/-- `max(values)`. -/
def maximum : List (Value ℝ) → Except Failure (Value ℝ)
  | [] => .error (.raised .valueError)
  | v :: values => .ok (values.foldl pyMax v)

/-- The root of what is not negative; its power with `0.5`. -/
def root : Value ℝ → Value ℝ
  | .fin x => .round (Real.sqrt x)
  | .inf _ => .inf false
  | .nan => .nan

/-- The sum that the magnitude of a displacement is the root of. -/
def squaredMagnitude (u : Triple) : Value ℝ := u.1 * u.1 + u.2.1 * u.2.1 + u.2.2 * u.2.2

def magnitude (u : Triple) : Value ℝ := root (squaredMagnitude u)

/-- `max_displacement_magnitude`. -/
def maxDisplacementMagnitude (displacements : List (ℤ × Triple)) : Except Failure (Value ℝ) :=
  maximum (displacements.map fun row => magnitude row.2)

/-- The sum that the von Mises stress is the root of. -/
def squaredVonMises (s : Triple) : Value ℝ :=
  .fin (1 / (2 : ℕ)) * ((s.1 - s.2.1) * (s.1 - s.2.1) + (s.2.1 - s.2.2) * (s.2.1 - s.2.2)
    + (s.2.2 - s.1) * (s.2.2 - s.1))

/-- `mech_von_mises_principal`. -/
def vonMisesPrincipal (s : Triple) : Value ℝ := root (squaredVonMises s)

/-- `max_von_mises`. -/
def maxVonMises (stresses : List Triple) : Except Failure (Value ℝ) :=
  maximum (stresses.map vonMisesPrincipal)

/-- A displacement text to its largest magnitude. -/
def largestDisplacement (py : PyTokens) (text : String) : Except Failure (Value ℝ) := do
  maxDisplacementMagnitude (← parseDatDisplacements py text)

/-- A stress text to its largest von Mises stress. -/
def largestVonMises (py : PyTokens) (text : String) : Except Failure (Value ℝ) := do
  maxVonMises (← parseDatPrincipalStresses py text)

end Stresses

end FeaResults

end Feldspar

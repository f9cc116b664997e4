/-
Feldspar/Frame.lean

The planar direct-stiffness solver (`mech::frame`), in exact arithmetic.

A member's local stiffness matrix is condensed to the degrees of freedom that
are not released (`condense`), rotated, and added to the global system
(`assemble`); the free degrees of freedom are solved for, and the end forces are
recovered from the full local matrix (`recover`).

Local degrees of freedom are `[u1, v1, th1, u2, v2, th2]`.  A matrix over some of
them is indexed by the degrees of freedom themselves, not by their positions.
`sqrt` is a parameter.
-/
import Feldspar.Lib.Gauss
import Mathlib.Data.Fin.VecNotation
import Mathlib.Data.List.FinRange
import Mathlib.Data.Fintype.BigOperators

set_option linter.unusedSectionVars false

namespace Feldspar

namespace Frame

variable {K : Type} [Field K] [LinearOrder K]

structure FrameMemberInput (K : Type) where
  i : ℕ
  j : ℕ
  dx : K
  dy : K
  ea : K
  ei : K
  releaseARz : Bool
  releaseBRz : Bool
  fefLocal : Fin 6 → K

inductive FrameError
  | degenerateMember (idx : ℕ)
  | singularSystem
  | invalidShape (msg : String)
  deriving DecidableEq

/-- The displacements and reactions of each node, and the end forces of each
member. -/
structure FrameSolution (K : Type) (nNodes : ℕ) where
  displacements : Fin nNodes → Fin 3 → K
  reactions : Fin nNodes → Fin 3 → K
  memberEndForcesLocal : List (Fin 6 → K)

def dofPerNode : ℕ := 3

def degenerateLengthEps : K := 1e-9

/-- `solve_dense` on the rows and columns `idx`; the other unknowns stay zero. -/
def solveDense {ι : Type} [DecidableEq ι] (idx : List ι) (a : ι → ι → K) (b : ι → K) :
    Except FrameError (ι → K) :=
  match Gauss.solveOn 1e-12 idx a b with
  | some x => .ok x
  | none => .error .singularSystem

/-! ### Members -/

def localStiffnessFull (ea ei length : K) : Fin 6 → Fin 6 → K :=
  let l := length
  let a := ea / l
  let b1 := 12.0 * ei / l ^ 3
  let b2 := 6.0 * ei / l ^ 2
  let b3 := 4.0 * ei / l
  let b4 := 2.0 * ei / l
  ![![a, 0, 0, -a, 0, 0],
    ![0, b1, b2, 0, -b1, b2],
    ![0, b2, b3, 0, -b2, b4],
    ![-a, 0, 0, a, 0, 0],
    ![0, -b1, -b2, 0, b1, -b2],
    ![0, b2, b4, 0, -b2, b3]]

/-- The reduced stiffness and load, and the degrees of freedom they are over. -/
structure Condensation (K : Type) where
  kRed : Fin 6 → Fin 6 → K
  fefRed : Fin 6 → K
  retained : List (Fin 6)

/-- The degrees of freedom that are left. -/
def retainedOf (condensed : List (Fin 6)) : List (Fin 6) :=
  (List.finRange 6).filter fun i => i ∉ condensed

/-- The column of `kcc_inv_kcr` of a retained degree of freedom. -/
def condenseColumn (k : Fin 6 → Fin 6 → K) (condensed : List (Fin 6))
    (kccInvKcr : Fin 6 → Fin 6 → K) (rcol : Fin 6) : Except FrameError (Fin 6 → Fin 6 → K) := do
  let sol ← solveDense condensed k fun r => k r rcol
  pure (Function.update kccInvKcr rcol sol)

/-- Static condensation of the degrees of freedom `condensed`. -/
def condense (k : Fin 6 → Fin 6 → K) (fef : Fin 6 → K) (condensed : List (Fin 6)) :
    Except FrameError (Condensation K) :=
  let retained := retainedOf condensed
  if condensed.isEmpty then .ok ⟨k, fef, retained⟩
  else do
    let kccInvKcr ← retained.foldlM (condenseColumn k condensed) fun _ _ => 0
    let kccInvFefc ← solveDense condensed k fef
    pure
      { kRed := fun rp rq => k rp rq - (condensed.map fun c => k rp c * kccInvKcr rq c).sum
        fefRed := fun rp => fef rp - (condensed.map fun c => k rp c * kccInvFefc c).sum
        retained := retained }

/-- The row of a local degree of freedom in the rotation matrix. -/
def transformRow (localIdx : Fin 6) (c s : K) : Fin 6 → K :=
  match localIdx with
  | 0 => ![c, s, 0, 0, 0, 0]
  | 1 => ![-s, c, 0, 0, 0, 0]
  | 2 => ![0, 0, 1, 0, 0, 0]
  | 3 => ![0, 0, 0, c, s, 0]
  | 4 => ![0, 0, 0, -s, c, 0]
  | 5 => ![0, 0, 0, 0, 0, 1]

namespace FrameMemberInput

def length (sqrt : K → K) (m : FrameMemberInput K) : K := sqrt (m.dx * m.dx + m.dy * m.dy)

/-- The direction of the member. -/
def c (sqrt : K → K) (m : FrameMemberInput K) : K := m.dx / m.length sqrt

def s (sqrt : K → K) (m : FrameMemberInput K) : K := m.dy / m.length sqrt

def globalDof (m : FrameMemberInput K) : Fin 6 → ℕ :=
  ![m.i * dofPerNode, m.i * dofPerNode + 1, m.i * dofPerNode + 2,
    m.j * dofPerNode, m.j * dofPerNode + 1, m.j * dofPerNode + 2]

def condensed (m : FrameMemberInput K) : List (Fin 6) :=
  (if m.releaseARz then [2] else []) ++ if m.releaseBRz then [5] else []

/-- The vertical part of a member's fixed-end forces. -/
def fefVertical (sqrt : K → K) (m : FrameMemberInput K) : K :=
  m.s sqrt * (m.fefLocal 0 + m.fefLocal 3) + m.c sqrt * (m.fefLocal 1 + m.fefLocal 4)

end FrameMemberInput

/-- What is kept of a member for the recovery of its end forces. -/
structure Reduced (K : Type) where
  retained : List (Fin 6)
  condensed : List (Fin 6)
  kFull : Fin 6 → Fin 6 → K
  fefFull : Fin 6 → K
  globalDof : Fin 6 → ℕ
  c : K
  s : K

/-- The global system, and the members added to it. -/
structure Assembly (K : Type) where
  kGlobal : ℕ → ℕ → K
  fGlobal : ℕ → K
  reducedMembers : List (Reduced K)

/-- The reduced stiffness in global axes. -/
def elementStiffness (red : Condensation K) (c s : K) (fullA fullB : Fin 6) : K :=
  (red.retained.map fun p => (red.retained.map fun q =>
    transformRow p c s fullA * red.kRed p q * transformRow q c s fullB).sum).sum

def elementLoad (red : Condensation K) (c s : K) (fullA : Fin 6) : K :=
  (red.retained.map fun p => transformRow p c s fullA * red.fefRed p).sum

/-- Add a member to the system. -/
def assemble (sqrt : K → K) (acc : Assembly K) (m : FrameMemberInput K × ℕ) :
    Except FrameError (Assembly K) := do
  let length := m.1.length sqrt
  if length < degenerateLengthEps then throw (.degenerateMember m.2)
  let c := m.1.c sqrt
  let s := m.1.s sqrt
  let kFull := localStiffnessFull m.1.ea m.1.ei length
  let red ← condense kFull m.1.fefLocal m.1.condensed
  pure
    { kGlobal := fun r c' => acc.kGlobal r c' + ∑ fullA, ∑ fullB,
        if m.1.globalDof fullA = r ∧ m.1.globalDof fullB = c' then
          elementStiffness red c s fullA fullB
        else 0
      fGlobal := fun r => acc.fGlobal r - ∑ fullA,
        if m.1.globalDof fullA = r then elementLoad red c s fullA else 0
      reducedMembers := acc.reducedMembers ++
        [⟨red.retained, m.1.condensed, kFull, m.1.fefLocal, m.1.globalDof, c, s⟩] }

/-- The local displacements that are read off the global ones. -/
def retainedDisplacements (dFull : ℕ → K) (rm : Reduced K) (li : Fin 6) : K :=
  if li ∈ rm.retained then ∑ a, transformRow li rm.c rm.s a * dFull (rm.globalDof a) else 0

/-- The release condition determines the condensed rotations. -/
def localDisplacements (dFull : ℕ → K) (rm : Reduced K) : Except FrameError (Fin 6 → K) :=
  let dR := retainedDisplacements dFull rm
  if rm.condensed.isEmpty then .ok dR
  else do
    let rhs : Fin 6 → K := fun r =>
      rm.fefFull r + (rm.retained.map fun rp => rm.kFull r rp * dR rp).sum
    let dC ← solveDense rm.condensed rm.kFull fun r => -rhs r
    pure fun li => if li ∈ rm.condensed then dC li else dR li

/-- The end forces of a member, from the displacements. -/
def recover (dFull : ℕ → K) (rm : Reduced K) : Except FrameError (Fin 6 → K) := do
  let dLocalFull ← localDisplacements dFull rm
  pure fun row => rm.fefFull row + ∑ col, rm.kFull row col * dLocalFull col

/-! ### The solver -/

def checkShape (nNodes : ℕ) (members : List (FrameMemberInput K)) (fixed : List Bool)
    (loads : List K) : Except FrameError Unit := do
  let ndof := nNodes * dofPerNode
  if fixed.length ≠ ndof then
    throw (.invalidShape s!"fixed mask length {fixed.length} != 3*n_nodes ({ndof})")
  if loads.length ≠ ndof then
    throw (.invalidShape s!"load vector length {loads.length} != 3*n_nodes ({ndof})")
  members.zipIdx.forM fun m => do
    if m.1.i ≥ nNodes ∨ m.1.j ≥ nNodes then
      throw (.invalidShape
        s!"member {m.2} node index i={m.1.i} j={m.1.j} out of range (n_nodes={nNodes})")

def isFixed (fixed : List Bool) (dof : ℕ) : Bool := fixed[dof]?.getD false

def loadAt (loads : List K) (dof : ℕ) : K := loads[dof]?.getD 0

def frame2dSolve (sqrt : K → K) (nNodes : ℕ) (members : List (FrameMemberInput K))
    (fixed : List Bool) (loads : List K) : Except FrameError (FrameSolution K nNodes) := do
  checkShape nNodes members fixed loads
  let ndof := nNodes * dofPerNode
  let sys ← members.zipIdx.foldlM (assemble sqrt) ⟨fun _ _ => 0, loadAt loads, []⟩
  let freeDofs := (List.range ndof).filter fun d => !isFixed fixed d
  let dFull ← solveDense freeDofs sys.kGlobal sys.fGlobal
  let forces ← sys.reducedMembers.mapM (recover dFull)
  pure
    { displacements := fun node l => dFull (node * dofPerNode + l)
      reactions := fun node l =>
        let dof := node * dofPerNode + l
        if isFixed fixed dof then
          (∑ c ∈ Finset.range ndof, sys.kGlobal dof c * dFull c) - sys.fGlobal dof
        else 0
      memberEndForcesLocal := forces }

end Frame

end Feldspar

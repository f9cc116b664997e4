/-
Feldspar/FramePayload.lean

One load case of a `frame` payload (`mech/struct.py`), in exact arithmetic.

`solveFramePayload` turns tributary transfers into distributed loads
(`resolveTributaryLoads`), the members into inputs of the direct-stiffness
solver with fixed-end forces (`translateMember`), the supports into a fixity
mask (`translateSupport`) and the point loads into nodal loads (`addJointLoad`),
and calls `Frame.frame2dSolve`.

Payloads are typed records.  A Python dict is the function that looks its keys
up; `PyStr` holds what Python makes of values in a message.
-/
import Feldspar.Frame

set_option linter.unusedSectionVars false

namespace Feldspar

namespace Struct

open Frame (FrameMemberInput FrameError FrameSolution frame2dSolve)

variable {K : Type} [Field K] [LinearOrder K]

/-! ### The payload -/

structure ScalarInterval (K : Type) where
  lo : K
  hi : K
  unit : String

structure FrameMember (K : Type) where
  id : String
  a : String
  b : String
  orientation : String
  length : ScalarInterval K
  releasesA : List String
  releasesB : List String

structure Support where
  joint : String
  fixity : List String

structure FrameLoad (K : Type) where
  case : String
  target : String
  kind : String
  value : ScalarInterval K
  direction : String

/-- `joints` are the ids of the joints. -/
structure FramePayload (K : Type) where
  joints : List String
  members : List (FrameMember K)
  supports : List Support
  loads : List (FrameLoad K)

/-- The resolved section and material of a member. -/
structure SectionMaterial (K : Type) where
  ea : K
  ei : K

structure Tributary (K : Type) where
  kind : String
  value : ScalarInterval K

structure Transfer (K : Type) where
  id : String
  kind : String
  src : String
  dst : String
  tributary : Option (Tributary K)

/-- The evidence of a resolved transfer. -/
structure LoadPath (K : Type) where
  transfer : String
  src : String
  dst : String
  tributaryKind : String
  tributaryValueSi : K
  intensitySi : K
  derivedUdlSi : K
  citation : String

/-- What the call returns instead of a result; `zeroDivision` is raised. -/
inductive StructError
  | outOfDomain (violation : String)
  | zeroDivision
  deriving DecidableEq

/-- `repr` and `str` in a message, and the text of an unknown unit. -/
structure PyStr (K : Type) where
  repr : String → String
  str : K → String
  unitError : String → String

/-- `{k: v for k, v in l}`: a later entry replaces an earlier one. -/
def dict {α : Type} : List (String × α) → String → Option α
  | [], _ => none
  | (k, v) :: l, k' => (dict l k').or (if k = k' then some v else none)

/-! ### Units -/

/-- The scale and the offset of a unit of `UnitSystem.builtin()`. -/
def unitEntry : String → Option (K × K)
  | "1" => some (1, 0)
  | "%" => some (0.01, 0)
  | "rad" => some (1, 0)
  | "deg" => some (884279719003555.0 / 281474976710656.0 / 180.0, 0)
  | "m" => some (1, 0)
  | "mm" => some (1e-3, 0)
  | "K" => some (1, 0)
  | "degC" => some (1, 273.15)
  | "degF" => some (5.0 / 9.0, 273.15 - 32.0 * 5.0 / 9.0)
  | "N" => some (1, 0)
  | "kN" => some (1e3, 0)
  | "Pa" => some (1, 0)
  | "kPa" => some (1e3, 0)
  | "MPa" => some (1e6, 0)
  | "GPa" => some (1e9, 0)
  | "rad/s" => some (1, 0)
  | "rpm" => some (884279719003555.0 / 281474976710656.0 / 30.0, 0)
  | "m/s" => some (1, 0)
  | "s(Isp)" => some (9.80665, 0)
  | "W" => some (1, 0)
  | "K/W" => some (1, 0)
  | _ => none

def toSi (value : K) (unit : String) : Option K :=
  (unitEntry unit).map fun entry => value * entry.1 + entry.2

section Translate

variable (py : PyStr K)

def scalarToSi (interval : ScalarInterval K) (corner : ScalarInterval K → K) (context : String) :
    Except StructError K :=
  match toSi (corner interval) interval.unit with
  | some x => .ok x
  | none => .error (.outOfDomain (context ++ ": unit " ++ py.repr interval.unit ++
      " has no SI conversion entry (" ++ py.unitError interval.unit ++
      ") -- cannot solve without mixing units"))

def degenerateTol : K := 1e-9

/-- `_length_to_si_m`: the length has to be degenerate. -/
def lengthToSiM (interval : ScalarInterval K) (context : String) : Except StructError K :=
  if |interval.hi - interval.lo| > degenerateTol * max (max 1 |interval.lo|) |interval.hi| then
    .error (.outOfDomain (context ++ ": length interval [" ++ py.str interval.lo ++ ", " ++
      py.str interval.hi ++ "] is not degenerate (lo != hi) -- a resolved geometric length " ++
      "is expected to be a single scalar, not a genuine uncertainty range, this slice"))
  else scalarToSi py interval ScalarInterval.lo context

/-- `_member_geometry`: the direction of a member, times its length. -/
def memberGeometry (orientation : String) (lengthM : K) (memberId : String) :
    Except StructError (K × K) :=
  match orientation with
  | "horizontal" => .ok (1 * lengthM, 0 * lengthM)
  | "vertical" => .ok (0 * lengthM, 1 * lengthM)
  | _ => .error (.outOfDomain ("member " ++ py.repr memberId ++ ": orientation " ++
      py.repr orientation ++ " is not derivable to a 2D geometry vector from the frame payload " ++
      "alone (no resolved joint coordinates) -- only 'horizontal'/'vertical' members are " ++
      "supported this slice"))

def dofCodes : List String := ["x", "y", "rz"]

/-- Whether the rotation is kept, and whether that is the default. -/
def releaseKeptRz (codes : List String) (memberId tip : String) :
    Except StructError (Bool × Bool) :=
  if codes.isEmpty then .ok (true, true)
  else
    match codes.find? fun code => code ∉ dofCodes with
    | some code => .error (.outOfDomain ("member " ++ py.repr memberId ++ " " ++ tip ++
        "-end release code " ++ py.repr code ++ " is outside the supported 2D DOF vocabulary " ++
        "('x', 'y', 'rz')"))
    | none => .ok (decide ("rz" ∈ codes), false)

/-- Which of `x`, `y`, `rz` a support restrains. -/
def supportFixedDofs (fixity : List String) (supportJoint : String) :
    Except StructError (List Bool) :=
  if fixity.isEmpty then .error (.outOfDomain ("support at joint " ++ py.repr supportJoint ++
    " has unresolved fixity (empty list) -- std.civil support-role resolution has not landed " ++
    "for this structure; no safe default exists across pin/fixed/roller, so this solve " ++
    "honestly cannot proceed"))
  else
    match fixity.find? fun code => code ∉ dofCodes with
    | some code => .error (.outOfDomain ("support at joint " ++ py.repr supportJoint ++
        " fixity code " ++ py.repr code ++ " is outside the supported 2D DOF vocabulary " ++
        "('x', 'y', 'rz')"))
    | none => .ok (dofCodes.map fun code => decide (code ∈ fixity))

def udlFefLocal (w length : K) : Fin 6 → K :=
  let shear := w * length / 2.0
  let moment := w * length ^ 2 / 12.0
  ![0, shear, moment, 0, shear, -moment]

/-! ### Tributary loads -/

def transferCitation : String :=
  "Hibbeler, Structural Analysis, latest ed., ch. 2 (tributary area/width load distribution: a " ++
  "receiving member's UDL is the declared tributary measure x the source surface's load " ++
  "intensity, spread over the receiving member's own length)"

/-- The line load of a resolved transfer. -/
def derivedUdl (t : Transfer K) (trib : Tributary K) (intensity tribValue : K)
    (memberLengthsM : String → Option K) : Except StructError K :=
  match trib.kind with
  | "width" => .ok (intensity * tribValue)
  | "area" =>
      match memberLengthsM t.dst with
      | none => .error (.outOfDomain ("transfer " ++ py.repr t.id ++ ": receiving member " ++
          py.repr t.dst ++ " has no resolved length to spread an area-tributary resultant force " ++
          "into a UDL -- refusing to guess"))
      | some length =>
          if length = 0 then .error .zeroDivision else .ok (intensity * tribValue / length)
  | kind => .error (.outOfDomain ("transfer " ++ py.repr t.id ++ ": tributary kind " ++
      py.repr kind ++ " is outside the supported 'width'/'area' vocabulary (calcite/02 sec. 6)"))

/-- One transfer; only a bearing with a declared tributary and a source load
resolves. -/
def resolveTransfer (sourceIntensities : String → String → Option (ScalarInterval K))
    (loadCase : String) (memberLengthsM : String → Option K)
    (acc : List (FrameLoad K) × List (LoadPath K)) (t : Transfer K) :
    Except StructError (List (FrameLoad K) × List (LoadPath K)) :=
  if t.kind ≠ "Bearing" then .ok acc
  else
    match t.tributary, sourceIntensities t.src loadCase with
    | some trib, some interval => do
        let intensity ← scalarToSi py interval ScalarInterval.hi ("transfer " ++ py.repr t.id ++
          " source " ++ py.repr t.src ++ " load intensity (case " ++ py.repr loadCase ++ ")")
        let tribValue ← scalarToSi py trib.value ScalarInterval.hi
          ("transfer " ++ py.repr t.id ++ " tributary " ++ trib.kind ++ " value")
        let udl ← derivedUdl py t trib intensity tribValue memberLengthsM
        pure (acc.1 ++ [⟨loadCase, t.dst, "distributed", ⟨udl, udl, "1"⟩, "gravity"⟩],
          acc.2 ++ [⟨t.id, t.src, t.dst, trib.kind, tribValue, intensity, udl, transferCitation⟩])
    | _, _ => .ok acc

def resolveTributaryLoads (transfers : List (Transfer K))
    (sourceIntensities : String → String → Option (ScalarInterval K)) (loadCase : String)
    (memberLengthsM : String → Option K) :
    Except StructError (List (FrameLoad K) × List (LoadPath K)) :=
  transfers.foldlM (resolveTransfer py sourceIntensities loadCase memberLengthsM) ([], [])

def memberLengthContext (m : FrameMember K) : String := "member " ++ py.repr m.id ++ " length"

/-- The lengths are only read if there are transfers. -/
def derivedLoads (members : List (FrameMember K)) (loadCase : String)
    (transfers : List (Transfer K))
    (sourceIntensities : String → String → Option (ScalarInterval K)) :
    Except StructError (List (FrameLoad K) × List (LoadPath K)) :=
  if transfers.isEmpty then .ok ([], [])
  else do
    let lengths ← members.mapM fun m => lengthToSiM py m.length (memberLengthContext py m)
    resolveTributaryLoads py transfers sourceIntensities loadCase
      (dict ((members.map FrameMember.id).zip lengths))

/-! ### The translation -/

/-- The assumptions so far, and whether the corner of the loads is among them. -/
structure Assumptions where
  texts : List String
  hiCornerRecorded : Bool

def Assumptions.recordHiCorner (a : Assumptions) : Assumptions :=
  if a.hiCornerRecorded then a
  else
    ⟨a.texts ++ ["loads solved at the conservative .hi (upper-bound) magnitude corner; " ++
      "lengths/geometry solved at their (degenerate) nominal value"], true⟩

def Assumptions.recordDefault (memberId : String) (a : Assumptions) : Assumptions :=
  { a with texts := a.texts ++ ["member " ++ py.repr memberId ++
      ": empty release list defaulted to rigid (fully moment-connected) -- calcite/03's " ++
      "std.civil transfer-class resolution has not landed"] }

/-- One load entry, in the loop over the loads of a member. -/
def addMemberLoad (loadCase : String) (m : FrameMember K) (lengthM : K)
    (acc : (Fin 6 → K) × Assumptions) (load : FrameLoad K) :
    Except StructError ((Fin 6 → K) × Assumptions) :=
  if load.case ≠ loadCase ∨ load.target ≠ m.id then .ok acc
  else if load.direction ≠ "gravity" then .error (.outOfDomain ("member " ++ py.repr m.id ++
    " load direction " ++ py.repr load.direction ++ " is unsupported (only 'gravity' this slice)"))
  else if load.kind ≠ "distributed" then .error (.outOfDomain ("member " ++ py.repr m.id ++
    " load kind " ++ py.repr load.kind ++ " is unsupported (only 'distributed' UDL this slice -- " ++
    "point/moment member loads are a named cut)"))
  else do
    let w ← scalarToSi py load.value ScalarInterval.hi ("member " ++ py.repr m.id ++
      " distributed load (case " ++ py.repr loadCase ++ ")")
    pure (fun dof => acc.1 dof + udlFefLocal w lengthM dof, acc.2.recordHiCorner)

def jointIndex (joints : List String) : String → Option ℕ := dict joints.zipIdx

/-- The node of a member's end. -/
def endpoint (joints : List String) (memberId tip joint : String) : Except StructError ℕ :=
  match jointIndex joints joint with
  | some node => .ok node
  | none => .error (.outOfDomain ("member " ++ py.repr memberId ++ " endpoint " ++ py.repr tip ++
      "=" ++ py.repr joint ++ " matches no joint id"))

/-- One member, with the fixed-end forces of its loads. -/
def translateMember (joints : List String) (sectionMaterial : String → Option (SectionMaterial K))
    (loadCase : String) (loads : List (FrameLoad K))
    (acc : List (FrameMemberInput K) × Assumptions) (m : FrameMember K) :
    Except StructError (List (FrameMemberInput K) × Assumptions) :=
  match sectionMaterial m.id with
  | none => .error (.outOfDomain ("member " ++ py.repr m.id ++
      ": no resolved section/material properties supplied (section/material record resolution " ++
      "is an unbuilt channel this slice)"))
  | some props => do
      let lengthM ← lengthToSiM py m.length (memberLengthContext py m)
      let d ← memberGeometry py m.orientation lengthM m.id
      let relA ← releaseKeptRz py m.releasesA m.id "a"
      let relB ← releaseKeptRz py m.releasesB m.id "b"
      let assumptions := if relA.2 || relB.2 then acc.2.recordDefault py m.id else acc.2
      let fef ← loads.foldlM (addMemberLoad py loadCase m lengthM) (fun _ => 0, assumptions)
      let i ← endpoint py joints m.id "a" m.a
      let j ← endpoint py joints m.id "b" m.b
      pure
        (acc.1 ++ [⟨i, j, d.1, d.2, props.ea, props.ei, !relA.1, !relB.1, fef.1⟩], fef.2)

/-- One support; a later one at the same joint replaces it. -/
def translateSupport (joints : List String) (fixed : List Bool) (s : Support) :
    Except StructError (List Bool) :=
  match jointIndex joints s.joint with
  | none => .error (.outOfDomain ("support joint " ++ py.repr s.joint ++ " matches no joint id"))
  | some node => do
      let codes ← supportFixedDofs py s.fixity s.joint
      pure (codes.zipIdx.foldl (fun fixed code => fixed.set (node * 3 + code.2) code.1) fixed)

/-- One load entry, in the loop over the point loads. -/
def addJointLoad (joints : List String) (loadCase : String) (acc : List K × Assumptions)
    (load : FrameLoad K) : Except StructError (List K × Assumptions) :=
  if load.case ≠ loadCase ∨ load.kind ≠ "point" then .ok acc
  else
    match jointIndex joints load.target with
    | none => .error (.outOfDomain ("point load target " ++ py.repr load.target ++ " (case " ++
        py.repr loadCase ++ ") matches no joint id -- refusing to silently drop this load"))
    | some node =>
        if load.direction ≠ "gravity" then .error (.outOfDomain ("joint load at " ++
          py.repr load.target ++ " direction " ++ py.repr load.direction ++
          " is unsupported (only 'gravity' this slice)"))
        else do
          let w ← scalarToSi py load.value ScalarInterval.hi ("joint " ++ py.repr load.target ++
            " point load (case " ++ py.repr loadCase ++ ")")
          pure (acc.1.modify (node * 3 + 1) fun x => x - w, acc.2.recordHiCorner)

/-- A distributed load needs a member. -/
def checkTarget (members : List (FrameMember K)) (loadCase : String) (load : FrameLoad K) :
    Except StructError Unit :=
  if load.case = loadCase ∧ load.kind = "distributed" ∧ load.target ∉ members.map FrameMember.id then
    .error (.outOfDomain ("distributed load target " ++ py.repr load.target ++ " (case " ++
      py.repr loadCase ++ ") matches no member id -- load-target-to-member resolution " ++
      "(tributary/`on [...]`) is a named cut this slice; refusing to silently drop this load"))
  else .ok ()

/-! ### The solve -/

def frameErrorText : FrameError → String
  | .degenerateMember idx => s!"member {idx} has zero length (coincident ends)"
  | .singularSystem => "global free-DOF stiffness partition is singular"
  | .invalidShape msg => "invalid input shape: " ++ msg

structure FrameResult (K : Type) where
  loadCase : String
  joints : List String
  displacements : String → Option (Fin 3 → K)
  reactions : String → Option (Fin 3 → K)
  memberEndForces : String → Option (Fin 6 → K)
  assumptions : List String
  loadPath : List (LoadPath K)

def solveFramePayload (sqrt : K → K) (payload : FramePayload K)
    (sectionMaterial : String → Option (SectionMaterial K)) (loadCase : String)
    (transfers : List (Transfer K))
    (sourceIntensities : String → String → Option (ScalarInterval K)) :
    Except StructError (FrameResult K) := do
  let derived ← derivedLoads py payload.members loadCase transfers sourceIntensities
  let loads := payload.loads ++ derived.1
  let nNodes := payload.joints.length
  loads.forM (checkTarget py payload.members loadCase)
  let translated ← payload.members.foldlM
    (translateMember py payload.joints sectionMaterial loadCase loads) ([], ⟨[], false⟩)
  let fixed ← payload.supports.foldlM (translateSupport py payload.joints)
    (List.replicate (nNodes * 3) false)
  let jointLoads ← loads.foldlM (addJointLoad py payload.joints loadCase)
    (List.replicate (nNodes * 3) 0, translated.2)
  match frame2dSolve sqrt nNodes translated.1 fixed jointLoads.1 with
  | .error e => .error (.outOfDomain (frameErrorText e))
  | .ok sol =>
      .ok
        { loadCase := loadCase
          joints := payload.joints
          displacements := dict (payload.joints.zip (List.ofFn sol.displacements))
          reactions := dict (payload.joints.zip (List.ofFn sol.reactions))
          memberEndForces := dict ((payload.members.map FrameMember.id).zip sol.memberEndForcesLocal)
          assumptions := jointLoads.2.texts
          loadPath := derived.2 }

end Translate

end Struct

end Feldspar

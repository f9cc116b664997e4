/-
Feldspar/Digest.lean

`canonical_digest` (`digest.rs`): the one function from JSON-shaped data to
digests.  `Canonical` lists the shapes the program digests; a `CanonicalDigest`
gives each a digest of type `D`.

The real digest is a hash.  `SymDigest` digests every shape to itself, which
is an injective digest that evaluates.
-/
import Feldspar.Solver

set_option linter.unusedSectionVars false

namespace Feldspar

/-- `__version__`. -/
def feldsparVersion : String := "0.1.2"

/-- What `canonical_digest` is applied to. -/
inductive Canonical (K D : Type) [Arith K] [LinearOrder K]
  /-- the settings digests of a route's steps, in route order -/
  | settings (digests : List String)
  /-- a route, less its digest -/
  | route (route : Route K)
  /-- the dumped infos of a registry, sorted by id -/
  | registry (infos : List (SolverInfo K))
  | request (known : PortMap (Interval K)) (tags : TagSet) (target : Port) (epsBudget : F64 K)
      (sense : Sense) (payloads : PortMap String)
  | cacheKey (registryDigest requestDigest settingsDigest : D) (version : String)
  | stepKey (solverId : SolverId) (version settingsDigest : String)
      (box : PortMap (Interval K)) (payloads : PortMap String) (feldsparVersion : String)

class CanonicalDigest (K D : Type) [Arith K] [LinearOrder K] where
  canonicalDigest : Canonical K D → D

export CanonicalDigest (canonicalDigest)

/-- The digests as terms. -/
inductive SymDigest (K : Type) [Arith K] [LinearOrder K]
  | settings (digests : List String)
  | route (route : Route K)
  | registry (infos : List (SolverInfo K))
  | request (known : PortMap (Interval K)) (tags : TagSet) (target : Port) (epsBudget : F64 K)
      (sense : Sense) (payloads : PortMap String)
  | cacheKey (registryDigest requestDigest settingsDigest : SymDigest K) (version : String)
  | stepKey (solverId : SolverId) (version settingsDigest : String)
      (box : PortMap (Interval K)) (payloads : PortMap String) (feldsparVersion : String)

variable {K : Type} [Arith K] [LinearOrder K]

deriving instance DecidableEq for SolverSummary
deriving instance DecidableEq for SolverInfo
deriving instance DecidableEq for SymDigest

instance : CanonicalDigest K (SymDigest K) where
  canonicalDigest
    | .settings digests => .settings digests
    | .route route => .route route
    | .registry infos => .registry infos
    | .request known tags target epsBudget sense payloads =>
        .request known tags target epsBudget sense payloads
    | .cacheKey registryDigest requestDigest settingsDigest version =>
        .cacheKey registryDigest requestDigest settingsDigest version
    | .stepKey solverId version settingsDigest box payloads feldsparVersion =>
        .stepKey solverId version settingsDigest box payloads feldsparVersion

theorem symDigest_injective :
    Function.Injective (canonicalDigest : Canonical K (SymDigest K) → SymDigest K) := by
  intro a b h
  cases a <;> cases b <;> cases h <;> rfl

/-- What a digest holds of the refs of a payload map: their digests. -/
def payloadDigests (payloads : PortMap PayloadRef) : PortMap String :=
  payloads.map fun _ ref => ref.digest

end Feldspar

/-
Feldspar/Harness.lean

The regolith records that the pack's models return (`pack/models.py`,
`pack/errors.py`).
-/
import Mathlib.Algebra.Field.Defs

namespace Feldspar

namespace Harness

variable {K : Type}

/-- An axis that was swept, with the text of its range. -/
structure CoverageAxis where
  axis : String
  interval : String
  deriving DecidableEq

structure Prediction (K : Type) where
  value : K
  eps : K
  coverage : K
  coverageAxes : List CoverageAxis := []
  inDomain : Bool
  solverVersion : Option String := none
  settingsDigest : Option String := none
  deriving DecidableEq

structure DomainError where
  modelId : String
  message : String
  deriving DecidableEq

end Harness

end Feldspar

/-
Feldspar/Packs.lean

Solver packs (`packs.py`, and the two rollbacks of `registry.py`): discovered
entry points are composed into a registry, one after the other.

A pack's `register` callable is third-party code that is handed a staging
registry.  It is a `RegisterProgram`: the calls it makes, each continued by what
the call returned, so that it may ignore an `Err`, branch on it, or raise.
`composePack` runs it, checks what it staged and replays that on the real
registry; a replay that fails is rolled back.

A dict is a map here, so the order in which ports were declared is not kept.
-/
import Feldspar.Solver
import Mathlib.Data.List.Infix
import Mathlib.Data.List.Sort

set_option linter.unusedSectionVars false

namespace Feldspar

variable {K : Type} [Field K] [LinearOrder K] {Env : Type}

/-! ### The rest of the registry -/

namespace SolverRegistry

def freeze (reg : SolverRegistry K Env) : SolverRegistry K Env := { reg with frozen := true }

/-- `_rollback_registration`. -/
def rollbackRegistration (reg : SolverRegistry K Env) (solverId : SolverId) :
    SolverRegistry K Env :=
  { reg with
    solvers := reg.solvers.erase solverId
    key_eq := by
      intro id info fn h
      rw [Std.ExtTreeMap.getElem?_erase] at h
      split at h
      · cases h
      · exact reg.key_eq id info fn h
    registrable := by
      intro id info fn h
      rw [Std.ExtTreeMap.getElem?_erase] at h
      split at h
      · cases h
      · exact reg.registrable id info fn h }

/-- `_rollback_port_decl`. -/
def rollbackPortDecl (reg : SolverRegistry K Env) (portName : Port) : SolverRegistry K Env :=
  { reg with ports := reg.ports.erase portName }

/-- `register`, as a call on an object. -/
def registerCall (reg : SolverRegistry K Env) (info : SolverInfo K) (fn : SolveFn K Env) :
    SolverRegistry K Env × Except RegistryError Unit :=
  match reg.register info fn with
  | .ok reg' => (reg', .ok ())
  | .error e => (reg, .error e)

end SolverRegistry

namespace Packs

/-! ### Packs -/

/-- A `register` callable: its calls on the staging registry. -/
inductive RegisterProgram (K Env : Type) [Field K] [LinearOrder K]
  | finish
  | raise (message : String)
  | declarePorts (decls : List PortDecl) (next : Except RegistryError Unit → RegisterProgram K Env)
  | register (info : SolverInfo K) (fn : SolveFn K Env)
      (next : Except RegistryError Unit → RegisterProgram K Env)
  | freeze (next : RegisterProgram K Env)
  /-- `get`, `digest`, `is_frozen` and the iteration -/
  | readSolvers (next : SolverTable K Env → Bool → RegisterProgram K Env)
  /-- `port_table` -/
  | readPorts (next : PortMap PortDecl → RegisterProgram K Env)

/-- A staging registry after the callable, what its calls returned, and how it
ended. -/
structure StagedRun (K Env : Type) [Field K] [LinearOrder K] where
  registry : SolverRegistry K Env
  results : List (Except RegistryError Unit)
  outcome : Except String Unit

def StagedRun.after (result : Except RegistryError Unit) (run : StagedRun K Env) :
    StagedRun K Env :=
  { run with results := result :: run.results }

def RegisterProgram.run : RegisterProgram K Env → SolverRegistry K Env → StagedRun K Env
  | finish, reg => ⟨reg, [], .ok ()⟩
  | raise message, reg => ⟨reg, [], .error message⟩
  | declarePorts decls next, reg =>
      let called := reg.declarePorts decls
      ((next called.2).run called.1).after called.2
  | register info fn next, reg =>
      let called := reg.registerCall info fn
      ((next called.2).run called.1).after called.2
  | freeze next, reg => next.run reg.freeze
  | readSolvers next, reg => (next reg.solvers reg.frozen).run reg
  | readPorts next, reg => (next reg.ports).run reg

/-- What `ep.load()` does. -/
inductive EntryPointTarget (K Env : Type) [Field K] [LinearOrder K]
  | raises (message : String)
  | notCallable (repr : String)
  | callable (program : RegisterProgram K Env)

structure SolverPackEntryPoint (K Env : Type) [Field K] [LinearOrder K] where
  name : String
  load : EntryPointTarget K Env
  /-- `dist.version`, where there is one -/
  version : Option String

structure PackInfo where
  name : String
  version : String
  deriving DecidableEq, Repr

/-- Each names its pack; an `error` field holds the error whose `repr` it is. -/
inductive SolverPackLoadError
  | duplicateSolverId (pack : String) (solverId : SolverId) (ownedBy : String)
  | malformedSolverPack (source message : String)
  | methodNamedSolverId (pack : String) (solverId : SolverId) (word : String)
  | namespaceViolation (pack : String) (solverId : SolverId) (ns : String)
  | packRegisterRaised (pack message : String)
  | portDeclarationFailed (pack : String) (error : RegistryError)
  | registrationRejected (pack : String) (solverId : SolverId) (error : RegistryError)
  deriving DecidableEq, Repr

def methodWords : List String := ["fea", "ccx", "gmsh", "spice", "ngspice"]

def defaultStandardNamespaces : List String := ["mech", "elec", "fluids", "heat"]

/-- The first method word in a text. -/
def methodNamedSolverViolation (text : String) : Option String :=
  methodWords.find? fun word => word.toList <:+: text.toList.map Char.toLower

/-- The namespace, if it is not the pack's own and not a reviewed one. -/
def namespaceViolation (packName ns : String) (standard reviewed : List String) : Option String :=
  if ns = packName ∨ (packName ++ ".").toList <+: ns.toList then none
  else if ns ∈ reviewed then none
  else if standard.any fun std => (std ++ "." ++ packName).toList <+: ns.toList then none
  else some ns

def loadTarget (ep : SolverPackEntryPoint K Env) :
    Except SolverPackLoadError (RegisterProgram K Env) :=
  match ep.load with
  | .raises message => .error (.malformedSolverPack ep.name ("entry point load failed: " ++ message))
  | .notCallable repr =>
      .error (.malformedSolverPack ep.name ("entry point target " ++ repr ++ " is not callable"))
  | .callable program => .ok program

def packVersion (ep : SolverPackEntryPoint K Env) : String :=
  match ep.version with
  | some version => if version = "" then "0" else version
  | none => "0"

/-! ### Composition -/

abbrev OwnerMap := OrdMap.Map SolverId String

/-- A staging registry with the port table of the real one. -/
def seedStaging (reg : SolverRegistry K Env) : Except RegistryError (SolverRegistry K Env) :=
  match (SolverRegistry.empty : SolverRegistry K Env).declarePorts (OrdMap.vals reg.ports) with
  | (staging, .ok ()) => .ok staging
  | (_, .error e) => .error e

/-- What is wrong with one staged solver. -/
def packViolation (standard reviewed : List String) (ownerOf : OwnerMap) (packName : String)
    (info : SolverInfo K) : Option SolverPackLoadError :=
  match (methodNamedSolverViolation info.ns).or (methodNamedSolverViolation info.solverId) with
  | some word => some (.methodNamedSolverId packName info.solverId word)
  | none =>
      match namespaceViolation packName info.ns standard reviewed with
      | some ns => some (.namespaceViolation packName info.solverId ns)
      | none => ownerOf[info.solverId]?.map (.duplicateSolverId packName info.solverId)

/-- The ports that a pack declared beyond the table it was seeded with. -/
def newPorts (reg staging : SolverRegistry K Env) : List PortDecl :=
  (staging.ports.toList.filter fun e => e.1 ∉ reg.ports).map Prod.snd

/-- `if new_ports: registry.declare_ports(*new_ports)`. -/
def declareNew (reg : SolverRegistry K Env) (decls : List PortDecl) :
    SolverRegistry K Env × Except RegistryError Unit :=
  if decls.isEmpty then (reg, .ok ()) else reg.declarePorts decls

/-- The registry, the owner map and the ids registered by this pack. -/
structure ReplayState (K Env : Type) [Field K] [LinearOrder K] where
  registry : SolverRegistry K Env
  ownerOf : OwnerMap
  registeredThisPack : List SolverId

/-- Register the staged solvers one after the other, up to the first error. -/
def replay (packName : String) :
    List (SolverInfo K × SolveFn K Env) → ReplayState K Env →
      ReplayState K Env × Option SolverPackLoadError
  | [], st => (st, none)
  | (info, fn) :: staged, st =>
      match st.registry.register info fn with
      | .error e => (st, some (.registrationRejected packName info.solverId e))
      | .ok registry => replay packName staged
          ⟨registry, st.ownerOf.insert info.solverId packName,
            st.registeredThisPack ++ [info.solverId]⟩

/-- Undo a replay that failed. -/
def rollback (decls : List PortDecl) (st : ReplayState K Env) : SolverRegistry K Env × OwnerMap :=
  (decls.foldl (fun reg decl => reg.rollbackPortDecl decl.name)
      (st.registeredThisPack.foldl SolverRegistry.rollbackRegistration st.registry),
    st.registeredThisPack.foldl (fun ownerOf solverId => ownerOf.erase solverId) st.ownerOf)

inductive PackFate
  | loaded (info : PackInfo)
  | skipped (error : SolverPackLoadError)
  deriving DecidableEq, Repr

section Compose

variable (standard reviewed : List String)

/-- Check what a pack staged, and merge it. -/
def mergePack (reg : SolverRegistry K Env) (ownerOf : OwnerMap) (packName version : String)
    (staging : SolverRegistry K Env) : SolverRegistry K Env × OwnerMap × PackFate :=
  match staging.entries.findSome? fun e => packViolation standard reviewed ownerOf packName e.1 with
  | some violation => (reg, ownerOf, .skipped violation)
  | none =>
      let decls := newPorts reg staging
      match declareNew reg decls with
      | (reg', .error e) => (reg', ownerOf, .skipped (.portDeclarationFailed packName e))
      | (reg', .ok ()) =>
          match replay packName staging.entries ⟨reg', ownerOf, []⟩ with
          | (st, some e) => ((rollback decls st).1, (rollback decls st).2, .skipped e)
          | (st, none) => (st.registry, st.ownerOf, .loaded ⟨packName, version⟩)

/-- One pass of the loop over the entry points; it fails where the assertion on
the seeded port table does. -/
def composePack (reg : SolverRegistry K Env) (ownerOf : OwnerMap)
    (ep : SolverPackEntryPoint K Env) :
    Except RegistryError (SolverRegistry K Env × OwnerMap × PackFate) :=
  match loadTarget ep with
  | .error malformed => .ok (reg, ownerOf, .skipped malformed)
  | .ok program => do
      let staging ← seedStaging reg
      let run := program.run staging
      match run.outcome with
      | .error message =>
          pure (reg, ownerOf,
            .skipped (.packRegisterRaised ep.name ("register() raised: " ++ message)))
      | .ok () => pure (mergePack standard reviewed reg ownerOf ep.name (packVersion ep) run.registry)

/-- The locals of `load_solver_packs`. -/
structure LoadState (K Env : Type) [Field K] [LinearOrder K] where
  registry : SolverRegistry K Env
  ownerOf : OwnerMap
  loaded : List PackInfo
  skipped : List SolverPackLoadError

def LoadState.init (reg : SolverRegistry K Env) : LoadState K Env where
  registry := reg
  ownerOf := reg.solvers.map fun _ _ => "<builtin>"
  loaded := []
  skipped := []

/-- Record the fate of a pack. -/
def LoadState.record (st : LoadState K Env) (registry : SolverRegistry K Env)
    (ownerOf : OwnerMap) : PackFate → LoadState K Env
  | .loaded info => ⟨registry, ownerOf, st.loaded ++ [info], st.skipped⟩
  | .skipped error => ⟨registry, ownerOf, st.loaded, st.skipped ++ [error]⟩

def loadPack (st : LoadState K Env) (ep : SolverPackEntryPoint K Env) :
    Except RegistryError (LoadState K Env) := do
  let (registry, ownerOf, fate) ← composePack standard reviewed st.registry st.ownerOf ep
  pure (st.record registry ownerOf fate)

def sortedByName (eps : List (SolverPackEntryPoint K Env)) : List (SolverPackEntryPoint K Env) :=
  eps.insertionSort fun a b => a.name ≤ b.name

def loadSolverPacks (reg : SolverRegistry K Env) (eps : List (SolverPackEntryPoint K Env)) :
    Except RegistryError (LoadState K Env) :=
  (sortedByName eps).foldlM (loadPack standard reviewed) (.init reg)

end Compose

end Packs

end Feldspar

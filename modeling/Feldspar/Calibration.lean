/-
Feldspar/Calibration.lean

The ceiling gate of the calibration harness (`calib/harness.py`): when a
declared accuracy has calibration evidence behind it.

`checkCeilings` reads the records that a solver cites.  A hand-written solver
that cites none is not looked at, and nothing compares the solver that a record
is about with the one that cites it; `checkCeilings_floor_iff` says what has to
hold besides.

Where a direction is derived and cites no calibration, the gate samples the
residual of its law (`resweep_derived`).  What that returns is a parameter:
such a direction is exempt from the floor, whatever the samples say.
-/
import Feldspar.Lib.Json
import Feldspar.Solver

set_option linter.unusedSectionVars false

namespace Feldspar

namespace Calib

variable {K : Type} [Field K] [LinearOrder K] {Env : Type}

/-! ### Records -/

structure CalibRecord (K : Type) where
  solverId : SolverId
  referenceId : SolverId
  nSamples : ℤ
  seed : ℤ
  worstAbsError : JsonFloat K
  worstRelError : JsonFloat K
  digest : String
  deriving DecidableEq, Repr

/-- The record files of a directory, by the digest in their names. -/
abbrev Records (K : Type) := OrdMap.Map String (CalibRecord K)

inductive CalibError (K : Type)
  | unknownSolver (solverId : SolverId)
  | domainMismatch (solverId referenceId : SolverId)
  | ceilingBusted (solverId : SolverId) (declared : K) (observed : JsonFloat K)
  | noRecord (solverId : SolverId)
  deriving DecidableEq, Repr

/-! ### The gate -/

def nonExactPorts (info : SolverInfo K) : List (Port × Accuracy K) :=
  info.accuracy.toList.filter fun e => e.2 ≠ .exact

def calibCitations (info : SolverInfo K) : List Citation :=
  info.citations.filter fun c => c.kind = .calibration

/-- The ceiling rule, for one output and one record. -/
def checkCeiling (info : SolverInfo K) (record : CalibRecord K) (e : Port × Accuracy K) :
    Option (CalibError K) :=
  if record.worstAbsError.Exceeds e.2.epsAbs then
    some (.ceilingBusted info.solverId e.2.epsAbs record.worstAbsError)
  else if record.worstRelError.Exceeds e.2.epsRel then
    some (.ceilingBusted info.solverId e.2.epsRel record.worstRelError)
  else none

/-- Every non-exact output against one record. -/
def checkRecord (info : SolverInfo K) (record : CalibRecord K) : Option (CalibError K) :=
  (nonExactPorts info).findSome? (checkCeiling info record)

def checkCitation (records : Records K) (info : SolverInfo K) (citation : Citation) :
    Option (CalibError K) :=
  match records[citation.ref]? with
  | none => some (.noRecord info.solverId)
  | some record => checkRecord info record

section Gate

-- `info.solved_for`, which only a derived direction has
variable (solvedFor : SolverId → Option Port)
variable (resweepDerived : SolverInfo K → SolveFn K Env → Except (CalibError K) (CalibRecord K))
variable (records : Records K)

def isDerived (info : SolverInfo K) : Bool := (solvedFor info.solverId).isSome

/-- The first violation of one solver. -/
def checkSolver (e : SolverInfo K × SolveFn K Env) : Option (CalibError K) :=
  if (nonExactPorts e.1).isEmpty then none
  else if (calibCitations e.1).isEmpty ∧ isDerived solvedFor e.1 then
    match resweepDerived e.1 e.2 with
    -- reported as UNCALIBRATED, which does not block
    | .error _ => none
    | .ok record => checkRecord e.1 record
  else (calibCitations e.1).findSome? (checkCitation records e.1)

def checkCeilings (registry : SolverRegistry K Env) : Except (CalibError K) Unit :=
  match registry.entries.findSome? (checkSolver solvedFor resweepDerived records) with
  | some e => .error e
  | none => .ok ()

end Gate

/-! ### The floor -/

/-- A derived direction that is left to its re-sweep. -/
def Exempt (solvedFor : SolverId → Option Port) (info : SolverInfo K) : Prop :=
  isDerived solvedFor info = true ∧ calibCitations info = []

/-- A record of this very solver that is no worse than declared. -/
def Backs (info : SolverInfo K) (acc : Accuracy K) (record : CalibRecord K) : Prop :=
  record.solverId = info.solverId ∧ record.worstAbsError.AtMost acc.epsAbs ∧
    record.worstRelError.AtMost acc.epsRel

/-- Every declared accuracy that is not exact and not exempt is backed. -/
def FloorHolds (solvedFor : SolverId → Option Port) (records : Records K)
    (registry : SolverRegistry K Env) : Prop :=
  ∀ e ∈ registry.entries, ¬ Exempt solvedFor e.1 →
    ∀ (port : Port) (acc : Accuracy K), e.1.accuracy[port]? = some acc → acc ≠ .exact →
      ∃ (digest : String) (record : CalibRecord K), records[digest]? = some record ∧
        Backs e.1 acc record

/-- The solver cites the record that is filed under this digest. -/
def Cites (info : SolverInfo K) (digest : String) : Prop :=
  ∃ c ∈ calibCitations info, c.ref = digest

/-- A record of this very solver with numbers in it. -/
def Own (info : SolverInfo K) (record : CalibRecord K) : Prop :=
  record.solverId = info.solverId ∧ record.worstAbsError ≠ .nan ∧ record.worstRelError ≠ .nan

/-- Every declared accuracy that is not exact and not exempt has a record of its
own solver: one that is cited, or one that is not cited and happens to be no
worse than declared. -/
def OwnEvidence (solvedFor : SolverId → Option Port) (records : Records K)
    (registry : SolverRegistry K Env) : Prop :=
  ∀ e ∈ registry.entries, ¬ Exempt solvedFor e.1 →
    ∀ (port : Port) (acc : Accuracy K), e.1.accuracy[port]? = some acc → acc ≠ .exact →
      ∃ (digest : String) (record : CalibRecord K), records[digest]? = some record ∧
        Own e.1 record ∧ (Cites e.1 digest ∨ Backs e.1 acc record)

/-! ### What the gate lets through -/

theorem mem_nonExactPorts {info : SolverInfo K} {e : Port × Accuracy K} :
    e ∈ nonExactPorts info ↔ info.accuracy[e.1]? = some e.2 ∧ e.2 ≠ .exact := by
  unfold nonExactPorts
  rw [List.mem_filter, Std.ExtTreeMap.mem_toList_iff_getElem?_eq_some]
  simp

theorem checkCeiling_eq_none {info : SolverInfo K} {record : CalibRecord K}
    {e : Port × Accuracy K} : checkCeiling info record e = none ↔
      ¬ record.worstAbsError.Exceeds e.2.epsAbs ∧ ¬ record.worstRelError.Exceeds e.2.epsRel := by
  unfold checkCeiling
  split_ifs with habs hrel
  · simp [habs]
  · simp [hrel]
  · simp [habs, hrel]

/-- A record that passes, and has numbers in it, backs every non-exact output of
its solver. -/
theorem backs_of_checkRecord {info : SolverInfo K} {record : CalibRecord K}
    (h : checkRecord info record = none) (hown : Own info record) {port : Port} {acc : Accuracy K}
    (hacc : info.accuracy[port]? = some acc) (hne : acc ≠ .exact) : Backs info acc record := by
  obtain ⟨hid, habs, hrel⟩ := hown
  have hceiling := List.findSome?_eq_none_iff.mp h (port, acc) (mem_nonExactPorts.mpr ⟨hacc, hne⟩)
  obtain ⟨hexabs, hexrel⟩ := checkCeiling_eq_none.mp hceiling
  exact ⟨hid, JsonFloat.atMost_iff.mpr ⟨hexabs, habs⟩, JsonFloat.atMost_iff.mpr ⟨hexrel, hrel⟩⟩

theorem Backs.own {info : SolverInfo K} {acc : Accuracy K} {record : CalibRecord K}
    (h : Backs info acc record) : Own info record :=
  ⟨h.1, (JsonFloat.atMost_iff.mp h.2.1).2, (JsonFloat.atMost_iff.mp h.2.2).2⟩

section Gate

variable {solvedFor : SolverId → Option Port}
variable {resweepDerived : SolverInfo K → SolveFn K Env → Except (CalibError K) (CalibRecord K)}
variable {records : Records K} {registry : SolverRegistry K Env}

theorem checkCeilings_ok : checkCeilings solvedFor resweepDerived records registry = .ok () ↔
    ∀ e ∈ registry.entries, checkSolver solvedFor resweepDerived records e = none := by
  unfold checkCeilings
  rw [← List.findSome?_eq_none_iff]
  rcases registry.entries.findSome? (checkSolver solvedFor resweepDerived records) with - | e
  · simp
  · simp

/-- The records that a solver cites are there, and pass. -/
theorem checkSolver_cited {e : SolverInfo K × SolveFn K Env}
    (h : checkSolver solvedFor resweepDerived records e = none)
    (hexempt : ¬ Exempt solvedFor e.1) (hports : nonExactPorts e.1 ≠ []) {digest : String}
    (hcites : Cites e.1 digest) :
    ∃ record, records[digest]? = some record ∧ checkRecord e.1 record = none := by
  obtain ⟨c, hc, rfl⟩ := hcites
  unfold checkSolver at h
  rw [if_neg (by rwa [List.isEmpty_iff]), if_neg (fun hboth => hexempt
    ⟨hboth.2, List.isEmpty_iff.mp hboth.1⟩)] at h
  have hcitation := List.findSome?_eq_none_iff.mp h c hc
  unfold checkCitation at hcitation
  rcases hrecord : records[c.ref]? with - | record <;> rw [hrecord] at hcitation
  · cases hcitation
  · exact ⟨record, rfl, hcitation⟩

/-- **The ceilings that pass are a floor exactly where every solver has a record
of its own.** -/
theorem checkCeilings_floor_iff
    (h : checkCeilings solvedFor resweepDerived records registry = .ok ()) :
    FloorHolds solvedFor records registry ↔ OwnEvidence solvedFor records registry := by
  constructor
  · intro hfloor e he hexempt port acc hacc hne
    obtain ⟨digest, record, hrecord, hbacks⟩ := hfloor e he hexempt port acc hacc hne
    exact ⟨digest, record, hrecord, hbacks.own, Or.inr hbacks⟩
  · intro hevidence e he hexempt port acc hacc hne
    obtain ⟨digest, record, hrecord, hown, hcites | hbacks⟩ :=
      hevidence e he hexempt port acc hacc hne
    · -- the gate has read this record
      have hmem : (port, acc) ∈ nonExactPorts e.1 := mem_nonExactPorts.mpr ⟨hacc, hne⟩
      obtain ⟨record', hrecord', hpass⟩ :=
        checkSolver_cited (checkCeilings_ok.mp h e he) hexempt (List.ne_nil_of_mem hmem) hcites
      obtain rfl := Option.some.inj (hrecord.symm.trans hrecord')
      exact ⟨digest, record, hrecord, backs_of_checkRecord hpass hown hacc hne⟩
    · exact ⟨digest, record, hrecord, hbacks⟩

end Gate

/-! ### A solver that cites nothing -/

/-- A solver `x → y` that declares 1, and cites its calibration if it has one. -/
def ruleOfThumb (calibration : List Citation) : SolverInfo ℚ :=
  let info := plainInfo (plainSolver "thumb" ["x"] [("y", 1)] 1 .both)
  { info with citations := info.citations ++ calibration }

def thumbRegistry (calibration : List Citation) : Except RegistryError (SolverRegistry ℚ Unit) :=
  SolverRegistry.build []
    [(ruleOfThumb calibration, plainFn fun x => [("y", scalarArg x "x")])]

/-- It was measured to be right within one half. -/
def thumbRecord : CalibRecord ℚ := ⟨"thumb", "exact", 256, 0, .finite (1 / 2), .finite 0, "run"⟩

def citedRegistry : SolverRegistry ℚ Unit :=
  (thumbRegistry [⟨.calibration, "run", ""⟩]).toOption.get (by decide +kernel)

def uncitedRegistry : SolverRegistry ℚ Unit :=
  (thumbRegistry []).toOption.get (by decide +kernel)

theorem mem_thumbEntries {calibration : List Citation} {registry : SolverRegistry ℚ Unit}
    (h : thumbRegistry calibration = .ok registry) {e : SolverInfo ℚ × SolveFn ℚ Unit}
    (he : e ∈ registry.entries) : e.1 = ruleOfThumb calibration := by
  have hmem := SolverRegistry.build_entries h e he
  rw [List.mem_singleton.mp hmem]

/-- Half is no worse than the declared 1, and the record is its own. -/
theorem checkCeilings_floor_iff_thumb :
    FloorHolds (fun _ => none) (OrdMap.ofFn ["run"] fun _ => thumbRecord) citedRegistry := by
  have hok : checkCeilings (fun _ => none) (fun _ _ => .ok thumbRecord)
      (OrdMap.ofFn ["run"] fun _ => thumbRecord) citedRegistry = .ok () := by decide +kernel
  apply (checkCeilings_floor_iff hok).mpr
  intro e he _ port acc _ _
  have hinfo : e.1 = ruleOfThumb [⟨.calibration, "run", ""⟩] :=
    mem_thumbEntries (Fallible.eq_ok_get _) he
  refine ⟨"run", thumbRecord, by decide +kernel, ?_, Or.inl ?_⟩
  · rw [hinfo]
    exact ⟨rfl, by simp [thumbRecord], by simp [thumbRecord]⟩
  · rw [hinfo]
    exact ⟨⟨.calibration, "run", ""⟩, by decide +kernel, rfl⟩

/-- Without a citation the same solver passes, and there is no record at all. -/
theorem not_floorHolds_uncited :
    checkCeilings (fun _ => none) (fun _ _ => .ok thumbRecord) (∅ : Records ℚ) uncitedRegistry
        = .ok () ∧
      ¬ FloorHolds (fun _ => none) (∅ : Records ℚ) uncitedRegistry := by
  refine ⟨by decide +kernel, fun hfloor => ?_⟩
  have hnonempty : uncitedRegistry.entries ≠ [] := by
    have hlength : uncitedRegistry.entries.length = 1 := by decide +kernel
    rintro hnil
    rw [hnil] at hlength
    cases hlength
  obtain ⟨e, he⟩ := List.exists_mem_of_ne_nil _ hnonempty
  have hinfo : e.1 = ruleOfThumb [] := mem_thumbEntries (Fallible.eq_ok_get _) he
  have hexempt : ¬ Exempt (fun _ => none) e.1 := fun h => Bool.false_ne_true h.1
  obtain ⟨digest, record, hrecord, -⟩ := hfloor e he hexempt "y" (.absolute 1 zero_le_one)
    (by rw [hinfo]; decide +kernel) (by decide +kernel)
  simp at hrecord

end Calib

end Feldspar

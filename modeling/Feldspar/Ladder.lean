/-
Feldspar/Ladder.lean

The refinement ladder of an FEA direction (`ladder.py`) and the two-mesh
Richardson pair it climbs with (`richardson.py`).

`climb` is written over the state in which a rung is run, so a climb with a
`RungCache` and one without it are two instances (`runCached`, `runPlain`).
`2.0 ** order` is the parameter `scale`; where it is 1 the division raises.

The values of a ladder may be NaNs (a results table may hold the text `NaN`),
and a NaN passes both comparisons of the loop.  So everything is as documented
but for one thing: after a NaN the eps of an exhausted ladder need not be the
best one (`climbLaws_iff`).
-/
import Feldspar.Lib.Json
import Feldspar.Lib.Memo
import Feldspar.Solver

set_option linter.unusedSectionVars false

namespace Feldspar.Fea

variable {K : Type} [Field K] [LinearOrder K] {R B D σ : Type}

/-! ### Richardson extrapolation -/

structure RichardsonResult (K : Type) where
  extrapolated : JsonFloat K
  eps : JsonFloat K
  fallbackUsed : Bool

/-- `richardson_extrapolate`; there is none where `2 ** order - 1` is 0. -/
def richardsonExtrapolate (scale safetyFactor : K) (valueH valueH2 : JsonFloat K) :
    Option (RichardsonResult K) :=
  let rawDelta := (valueH2.add valueH.neg).abs
  let correction := (valueH2.add valueH.neg).scale (scale - 1)⁻¹
  let extrapolated := valueH2.add correction
  let distance := (extrapolated.add valueH2.neg).abs
  if scale - 1 = 0 then none
  else if rawDelta.Lt distance then some ⟨valueH2, rawDelta, true⟩
  else some ⟨extrapolated, distance.scale safetyFactor, false⟩

/-- A value that makes the eps of a pair a number: the finer one is finite, and
the coarser one is no NaN (nor infinite, where the safety factor is 0). -/
def Usable (safetyFactor : K) (valueH valueH2 : JsonFloat K) : Prop :=
  (∃ x, valueH2 = .finite x) ∧ valueH ≠ .nan ∧ (safetyFactor = 0 → ∃ x, valueH = .finite x)

theorem scale_ne_nan_iff {k : K} {x : JsonFloat K} :
    x.scale k ≠ .nan ↔ x ≠ .nan ∧ (k = 0 → ∃ y, x = .finite y) := by
  by_cases hk : k = 0
  · cases x <;> simp [JsonFloat.scale, hk]
  · cases x <;> by_cases hneg : k < 0 <;> simp [JsonFloat.scale, hk, hneg]

/-- The eps of a pair is a number iff its values are usable. -/
theorem eps_ne_nan_iff {scale safetyFactor : K} {valueH valueH2 : JsonFloat K}
    {pair : RichardsonResult K}
    (h : richardsonExtrapolate scale safetyFactor valueH valueH2 = some pair) :
    pair.eps ≠ .nan ↔ Usable safetyFactor valueH valueH2 := by
  unfold richardsonExtrapolate at h
  dsimp only at h
  split at h
  · cases h
  rename_i hscale
  have hfactor : (scale - 1)⁻¹ ≠ 0 := inv_ne_zero hscale
  generalize (scale - 1)⁻¹ = factor at h hfactor
  split at h
  · -- the fallback: the raw difference is finite, so both values are
    rename_i hlt
    obtain rfl := Option.some.inj h
    by_cases hneg : factor < 0 <;> cases valueH <;> cases valueH2 <;> first
      | simp [JsonFloat.add, JsonFloat.neg, JsonFloat.abs, Usable]; done
      | simp [JsonFloat.add, JsonFloat.neg, JsonFloat.abs, JsonFloat.scale, JsonFloat.Lt, hfactor,
          hneg] at hlt
  · obtain rfl := Option.some.inj h
    show JsonFloat.scale _ _ ≠ _ ↔ _
    rw [scale_ne_nan_iff]
    by_cases hneg : factor < 0 <;> cases valueH <;> cases valueH2 <;>
      simp [JsonFloat.add, JsonFloat.neg, JsonFloat.abs, JsonFloat.scale, hfactor, hneg, Usable]

/-! ### The climb -/

/-- Neighbours in a list. -/
def adjacent {α : Type} : List α → List (α × α)
  | a :: b :: l => (a, b) :: adjacent (b :: l)
  | _ => []

/-- The arguments of `climb_richardson_ladder`, but for the rungs' function and
the cache. -/
structure Climb (K R B : Type) where
  rungs : List R
  epsBudget : Option (JsonFloat K)
  solverId : SolverId
  version : String
  box : B
  scale : K
  safetyFactor : K

/-- How a climb ends without a value: with the error of a rung, with
`SolveError.LadderExhausted`, or by an exception. -/
inductive ClimbFailure (K : Type)
  | rung (e : SolveError K)
  | exhausted (bestEps : JsonFloat K) (budget : Option (JsonFloat K)) (rungsTried : ℕ)
  | tooFewRungs (rungs : ℕ)
  | nonMonotone (i : ℕ) (eps prevEps : JsonFloat K)
  | zeroDivision
  deriving DecidableEq

/-- The extrapolated value, its eps, and the number of rungs that were run. -/
abbrev Climbed (K : Type) := JsonFloat K × JsonFloat K × ℕ

/-- How a rung is run in a state. -/
abbrev RunRung (K R σ : Type) := R → σ → Except (SolveError K) (JsonFloat K) × σ

/-- The rungs from the `i`-th on, after one with the value `prevValue`. -/
def climbFrom (call : Climb K R B) (run : RunRung K R σ) :
    ℕ → JsonFloat K → Option (JsonFloat K) → List R → σ →
      Except (ClimbFailure K) (Climbed K) × σ
  | i, _, prevEps, [], s => (.error (.exhausted (prevEps.getD .posInf) call.epsBudget i), s)
  | i, prevValue, prevEps, rung :: rungs, s =>
      match run rung s with
      | (.error e, s) => (.error (.rung e), s)
      | (.ok value, s) =>
          match richardsonExtrapolate call.scale call.safetyFactor prevValue value with
          | none => (.error .zeroDivision, s)
          | some pair =>
              if prevEps.any fun e => e.Lt pair.eps then
                (.error (.nonMonotone i pair.eps (prevEps.getD pair.eps)), s)
              -- without a budget the first pair is the answer
              else if call.epsBudget.all fun budget => pair.eps.Le budget then
                (.ok (pair.extrapolated, pair.eps, i + 1), s)
              else climbFrom call run (i + 1) value (some pair.eps) rungs s

/-- `climb_richardson_ladder`. -/
def climb (call : Climb K R B) (run : RunRung K R σ) (s : σ) :
    Except (ClimbFailure K) (Climbed K) × σ :=
  match call.rungs with
  | first :: second :: rungs =>
      match run first s with
      | (.error e, s) => (.error (.rung e), s)
      | (.ok value, s) => climbFrom call run 1 value none (second :: rungs) s
  | rungs => (.error (.tooFewRungs rungs.length), s)

/-! ### With and without a cache -/

/-- What a rung's value depends on, and what `RungCache.key` digests. -/
structure RungKey (R B : Type) where
  solverId : SolverId
  version : String
  rungSettings : R
  box : B
  deriving DecidableEq

def Climb.key (call : Climb K R B) (rung : R) : RungKey R B :=
  ⟨call.solverId, call.version, rung, call.box⟩

/-- A rung is a deterministic run. -/
abbrev RungSolver (K R B : Type) := RungKey R B → Except (SolveError K) (JsonFloat K)

/-- `_run` without a cache. -/
def runPlain (solver : RungSolver K R B) (call : Climb K R B) : RunRung K R Unit :=
  fun rung s => (solver (call.key rung), s)

/-- A `RungCache`, with the runs that were made. -/
abbrev RungCache (K R B D : Type) := Memo.Journal D (RungKey R B) (JsonFloat K)

/-- `_run` with a cache. -/
def runCached [DecidableEq D] (digest : RungKey R B → D) (solver : RungSolver K R B)
    (call : Climb K R B) : RunRung K R (RungCache K R B D) :=
  fun rung cache => cache.ask digest solver (call.key rung)

/-- A climb without a cache. -/
def climbPlain (solver : RungSolver K R B) (call : Climb K R B) :
    Except (ClimbFailure K) (Climbed K) :=
  (climb call (runPlain solver call) ()).1

/-- A climb with a cache, and the cache after it. -/
def climbCached [DecidableEq D] (digest : RungKey R B → D) (solver : RungSolver K R B)
    (call : Climb K R B) (cache : RungCache K R B D) :
    Except (ClimbFailure K) (Climbed K) × RungCache K R B D :=
  climb call (runCached digest solver call) cache

/-- The cache that earlier climbs leave, whatever they ended with. -/
def afterClimbs [DecidableEq D] (digest : RungKey R B → D) (solver : RungSolver K R B)
    (history : List (Climb K R B)) : RungCache K R B D :=
  history.foldl (fun cache call => (climbCached digest solver call cache).2) .empty

/-! ### What is promised of a climb -/

/-- The eps of the pair of two rungs, where both have a value. -/
def pairEps (solver : RungSolver K R B) (call : Climb K R B) (pair : R × R) :
    Option (JsonFloat K) :=
  match solver (call.key pair.1), solver (call.key pair.2) with
  | .ok value, .ok value' =>
      (richardsonExtrapolate call.scale call.safetyFactor value value').map RichardsonResult.eps
  | _, _ => none

def Climb.withBudget (call : Climb K R B) (budget : JsonFloat K) : Climb K R B :=
  { call with epsBudget := some budget }

/-- A value is within its budget and comes from the shortest prefix of the rungs
that has a pair within it, and a looser budget needs no more rungs. -/
structure ClimbLaws (solver : RungSolver K R B) (call : Climb K R B) (b₁ b₂ : JsonFloat K) :
    Prop where
  within : ∀ value eps n, climbPlain solver (call.withBudget b₁) = .ok (value, eps, n) → eps.Le b₁
  earliest : ∀ value eps n, climbPlain solver (call.withBudget b₁) = .ok (value, eps, n) →
    ∀ m < n, ∀ pair ∈ adjacent (call.rungs.take m), ∀ e, pairEps solver call pair = some e →
      ¬ e.Le b₁
  looser : ∀ value eps n, climbPlain solver (call.withBudget b₁) = .ok (value, eps, n) →
    ∃ value' eps' n', climbPlain solver (call.withBudget b₂) = .ok (value', eps', n') ∧ n' ≤ n

/-- `best` is the least eps over all adjacent pairs. -/
structure LeastEps (solver : RungSolver K R B) (call : Climb K R B) (best : JsonFloat K) :
    Prop where
  attained : ∃ pair ∈ adjacent call.rungs, pairEps solver call pair = some best
  least : ∀ pair ∈ adjacent call.rungs, ∀ e, pairEps solver call pair = some e → best.Le e

/-- The `best_eps` of an exhausted ladder is the least one. -/
def BestIsLeast (solver : RungSolver K R B) (call : Climb K R B) (budget : JsonFloat K) : Prop :=
  ∀ best reported tried, climbPlain solver (call.withBudget budget)
    = .error (.exhausted best reported tried) → LeastEps solver call best

/-- After any earlier climbs a climb with the cache ends as one without it, and
no rung that succeeded once is run again. -/
structure CacheLaws [DecidableEq D] (digest : RungKey R B → D) (solver : RungSolver K R B)
    (history : List (Climb K R B)) (call : Climb K R B) : Prop where
  same : (climbCached digest solver call (afterClimbs digest solver history)).1
    = climbPlain solver call
  once : (climbCached digest solver call (afterClimbs digest solver history)).2.ran.Pairwise
    fun key key' => ∀ value, solver key = .ok value → key ≠ key'

/-- The eps of the ladder, pair by pair. -/
def ladderEps (solver : RungSolver K R B) (call : Climb K R B) (rungs : List R) :
    List (JsonFloat K) :=
  (adjacent rungs).filterMap (pairEps solver call)

/-- Nothing ends the climb before the last rung: every rung has a value, no
pair's eps exceeds the eps of the pair before, and none is within the budget. -/
structure Exhausts (solver : RungSolver K R B) (call : Climb K R B) (budget : JsonFloat K) :
    Prop where
  rungs : 2 ≤ call.rungs.length
  scale : call.scale - 1 ≠ 0
  value : ∀ rung ∈ call.rungs, ∃ value, solver (call.key rung) = .ok value
  monotone : (ladderEps solver call call.rungs).IsChain fun e e' => ¬ e.Lt e'
  exceeded : ∀ e ∈ ladderEps solver call call.rungs, ¬ e.Le budget

/-- The values of all adjacent pairs are usable. -/
def UsableRungs (solver : RungSolver K R B) (call : Climb K R B) : Prop :=
  ∀ pair ∈ adjacent call.rungs, ∀ value value', solver (call.key pair.1) = .ok value →
    solver (call.key pair.2) = .ok value' → Usable call.safetyFactor value value'

/-! ### The loop without a cache -/

section Plain

variable {solver : RungSolver K R B} {call : Climb K R B}

/-- The loop of a climb without a cache. -/
def climbRest (solver : RungSolver K R B) (call : Climb K R B) (i : ℕ) (prevValue : JsonFloat K)
    (prevEps : Option (JsonFloat K)) (rungs : List R) : Except (ClimbFailure K) (Climbed K) :=
  (climbFrom call (runPlain solver call) i prevValue prevEps rungs ()).1

/-- What one rung makes of a climb: it fails, its pair has no eps, its pair is
worse than the one before, its pair is the answer, or the climb goes on. -/
inductive AfterRung (solver : RungSolver K R B) (call : Climb K R B) (i : ℕ)
    (prevValue : JsonFloat K) (prevEps : Option (JsonFloat K)) (rung : R) (rungs : List R) :
    Except (ClimbFailure K) (Climbed K) → Prop
  | failed (e : SolveError K) (hrung : solver (call.key rung) = .error e) :
      AfterRung solver call i prevValue prevEps rung rungs (.error (.rung e))
  | divided (hscale : call.scale - 1 = 0) :
      AfterRung solver call i prevValue prevEps rung rungs (.error .zeroDivision)
  | worse (value : JsonFloat K) (pair : RichardsonResult K) (prev : JsonFloat K)
      (hrung : solver (call.key rung) = .ok value)
      (hpair : richardsonExtrapolate call.scale call.safetyFactor prevValue value = some pair)
      (hprev : prevEps = some prev) (hlt : prev.Lt pair.eps) :
      AfterRung solver call i prevValue prevEps rung rungs
        (.error (.nonMonotone i pair.eps prev))
  | met (value : JsonFloat K) (pair : RichardsonResult K)
      (hrung : solver (call.key rung) = .ok value)
      (hpair : richardsonExtrapolate call.scale call.safetyFactor prevValue value = some pair)
      (hmono : ∀ e ∈ prevEps, ¬ e.Lt pair.eps)
      (hfits : ∀ budget ∈ call.epsBudget, pair.eps.Le budget) :
      AfterRung solver call i prevValue prevEps rung rungs
        (.ok (pair.extrapolated, pair.eps, i + 1))
  | goesOn (value : JsonFloat K) (pair : RichardsonResult K)
      (hrung : solver (call.key rung) = .ok value)
      (hpair : richardsonExtrapolate call.scale call.safetyFactor prevValue value = some pair)
      (hmono : ∀ e ∈ prevEps, ¬ e.Lt pair.eps)
      (hover : ∃ budget ∈ call.epsBudget, ¬ pair.eps.Le budget) :
      AfterRung solver call i prevValue prevEps rung rungs
        (climbRest solver call (i + 1) value (some pair.eps) rungs)

theorem exists_pair {scale : K} (safetyFactor : K) (valueH valueH2 : JsonFloat K)
    (hscale : scale - 1 ≠ 0) :
    ∃ pair, richardsonExtrapolate scale safetyFactor valueH valueH2 = some pair := by
  unfold richardsonExtrapolate
  dsimp only
  rw [if_neg hscale]
  split
  · exact ⟨_, rfl⟩
  · exact ⟨_, rfl⟩

theorem scale_ne_of_some {scale safetyFactor : K} {valueH valueH2 : JsonFloat K}
    {pair : RichardsonResult K}
    (h : richardsonExtrapolate scale safetyFactor valueH valueH2 = some pair) : scale - 1 ≠ 0 := by
  unfold richardsonExtrapolate at h
  dsimp only at h
  split_ifs at h <;> assumption

theorem scale_of_none {scale safetyFactor : K} {valueH valueH2 : JsonFloat K}
    (h : richardsonExtrapolate scale safetyFactor valueH valueH2 = none) : scale - 1 = 0 := by
  unfold richardsonExtrapolate at h
  dsimp only at h
  split_ifs at h
  assumption

/-- A rung with a value, whose pair has an eps. -/
theorem climbRest_pair (call : Climb K R B) {i : ℕ} {prevValue value : JsonFloat K}
    {prevEps : Option (JsonFloat K)} {rung : R} {rungs : List R} {pair : RichardsonResult K}
    (hrung : solver (call.key rung) = .ok value)
    (hpair : richardsonExtrapolate call.scale call.safetyFactor prevValue value = some pair) :
    climbRest solver call i prevValue prevEps (rung :: rungs)
      = if prevEps.any fun e => e.Lt pair.eps then
          .error (.nonMonotone i pair.eps (prevEps.getD pair.eps))
        else if call.epsBudget.all fun budget => pair.eps.Le budget then
          .ok (pair.extrapolated, pair.eps, i + 1)
        else climbRest solver call (i + 1) value (some pair.eps) rungs := by
  simp only [climbRest, climbFrom, runPlain, hrung, hpair]
  split_ifs <;> rfl

/-- The same, under a budget and where the pair is not worse than the one before. -/
theorem climbRest_of_not_worse (call : Climb K R B) {i : ℕ} {prevValue value : JsonFloat K}
    {prevEps : Option (JsonFloat K)} {rung : R} {rungs : List R} {pair : RichardsonResult K}
    (budget : JsonFloat K) (hrung : solver (call.key rung) = .ok value)
    (hpair : richardsonExtrapolate call.scale call.safetyFactor prevValue value = some pair)
    (hmono : ∀ e ∈ prevEps, ¬ e.Lt pair.eps) :
    climbRest solver (call.withBudget budget) i prevValue prevEps (rung :: rungs)
      = if pair.eps.Le budget then .ok (pair.extrapolated, pair.eps, i + 1)
        else climbRest solver (call.withBudget budget) (i + 1) value (some pair.eps) rungs := by
  rw [climbRest_pair (call.withBudget budget) hrung hpair, if_neg]
  · show (if decide (pair.eps.Le budget) = true then _ else _) = _
    simp only [decide_eq_true_eq]
  · intro hworse
    obtain ⟨e, he, hlt⟩ := (Option.any_eq_true _ _).mp hworse
    exact hmono e he (of_decide_eq_true hlt)

theorem climbRest_cons (solver : RungSolver K R B) (call : Climb K R B) (i : ℕ)
    (prevValue : JsonFloat K) (prevEps : Option (JsonFloat K)) (rung : R) (rungs : List R) :
    AfterRung solver call i prevValue prevEps rung rungs
      (climbRest solver call i prevValue prevEps (rung :: rungs)) := by
  rcases hrung : solver (call.key rung) with e | value
  · have hres : climbRest solver call i prevValue prevEps (rung :: rungs)
        = .error (.rung e) := by
      simp [climbRest, climbFrom, runPlain, hrung]
    rw [hres]
    exact .failed e hrung
  rcases hpair : richardsonExtrapolate call.scale call.safetyFactor prevValue value with - | pair
  · have hres : climbRest solver call i prevValue prevEps (rung :: rungs)
        = .error .zeroDivision := by
      simp [climbRest, climbFrom, runPlain, hrung, hpair]
    rw [hres]
    exact .divided (scale_of_none hpair)
  rw [climbRest_pair call hrung hpair]
  split_ifs with hworse hfits
  · obtain ⟨prev, rfl, hlt⟩ := (Option.any_eq_true _ _).mp hworse
    exact .worse value pair prev hrung hpair rfl (of_decide_eq_true hlt)
  · have hmono : ∀ e ∈ prevEps, ¬ e.Lt pair.eps := by
      rintro e rfl hlt
      exact hworse (decide_eq_true hlt)
    refine .met value pair hrung hpair hmono fun budget hbudget => ?_
    rw [Option.mem_def] at hbudget
    rw [hbudget] at hfits
    exact of_decide_eq_true hfits
  · have hmono : ∀ e ∈ prevEps, ¬ e.Lt pair.eps := by
      rintro e rfl hlt
      exact hworse (decide_eq_true hlt)
    refine .goesOn value pair hrung hpair hmono ?_
    rcases hbudget : call.epsBudget with - | budget
    · rw [hbudget] at hfits
      exact absurd rfl hfits
    · rw [hbudget] at hfits
      exact ⟨budget, rfl, fun hle => hfits (decide_eq_true hle)⟩

theorem pairEps_of_pair {prev rung : R} {value value' : JsonFloat K} {pair : RichardsonResult K}
    (hprev : solver (call.key prev) = .ok value) (hrung : solver (call.key rung) = .ok value')
    (hpair : richardsonExtrapolate call.scale call.safetyFactor value value' = some pair) :
    pairEps solver call (prev, rung) = some pair.eps := by
  simp [pairEps, hprev, hrung, hpair]

/-- A climb that ends with a value fits the budget and passed no pair that does. -/
theorem climbRest_ok {budget : JsonFloat K} (hbudget : call.epsBudget = some budget)
    {rungs : List R} :
    ∀ {i : ℕ} {prev : R} {prevValue : JsonFloat K} {prevEps : Option (JsonFloat K)}
      {value eps : JsonFloat K} {n : ℕ}, solver (call.key prev) = .ok prevValue →
      climbRest solver call i prevValue prevEps rungs = .ok (value, eps, n) →
      eps.Le budget ∧ i + 1 ≤ n ∧ ∀ m, m + i ≤ n →
        ∀ pair ∈ adjacent ((prev :: rungs).take m), ∀ e, pairEps solver call pair = some e →
          ¬ e.Le budget := by
  -- over the rungs that are left; a prefix of `m` rungs starts at `prev`
  induction rungs with
  | nil =>
      intro i prev prevValue prevEps value eps n hprev h
      cases h
  | cons rung rungs ih =>
      intro i prev prevValue prevEps value eps n hprev h
      have hstep := climbRest_cons solver call i prevValue prevEps rung rungs
      generalize climbRest solver call i prevValue prevEps (rung :: rungs) = res at h hstep
      cases hstep with
      | failed e hrung => cases h
      | divided hscale => cases h
      | worse value' pair prevE hrung hpair hpe hlt => cases h
      | met value' pair hrung hpair hmono hfits =>
          obtain ⟨rfl, hrest⟩ := Prod.mk.inj (Except.ok.inj h)
          obtain ⟨rfl, rfl⟩ := Prod.mk.inj hrest
          refine ⟨hfits budget hbudget, le_rfl, fun m hm p hp => ?_⟩
          rcases m with - | - | m
          · cases hp
          · cases hp
          · omega
      | goesOn value' pair hrung hpair hmono hover =>
          obtain ⟨hle, hn, hall⟩ := ih hrung h
          refine ⟨hle, by omega, fun m hm p hp e he => ?_⟩
          rcases m with - | - | m
          · cases hp
          · cases hp
          rcases List.mem_cons.mp hp with rfl | hp
          · rw [pairEps_of_pair hprev hrung hpair, Option.some.injEq] at he
            obtain ⟨b, hb, hnot⟩ := hover
            rw [hbudget] at hb
            exact he ▸ Option.some.inj hb ▸ hnot
          · exact hall (m + 1) (by omega) p hp e he

/-- A looser budget is met no later. -/
theorem climbRest_looser {b₁ b₂ : JsonFloat K} (hle : b₁.Le b₂) {rungs : List R} :
    ∀ {i : ℕ} {prev : R} {prevValue : JsonFloat K} {prevEps : Option (JsonFloat K)}
      {value eps : JsonFloat K} {n : ℕ}, solver (call.key prev) = .ok prevValue →
      climbRest solver (call.withBudget b₁) i prevValue prevEps rungs = .ok (value, eps, n) →
      ∃ value' eps' n', climbRest solver (call.withBudget b₂) i prevValue prevEps rungs
        = .ok (value', eps', n') ∧ n' ≤ n := by
  induction rungs with
  | nil =>
      intro i prev prevValue prevEps value eps n hprev h
      cases h
  | cons rung rungs ih =>
      intro i prev prevValue prevEps value eps n hprev h
      have hstep := climbRest_cons solver (call.withBudget b₁) i prevValue prevEps rung rungs
      generalize climbRest solver (call.withBudget b₁) i prevValue prevEps (rung :: rungs) = res
        at h hstep
      cases hstep with
      | failed e hrung => cases h
      | divided hscale => cases h
      | worse value' pair prevE hrung hpair hpe hlt => cases h
      | met value' pair hrung hpair hmono hfits =>
          obtain ⟨-, hrest⟩ := Prod.mk.inj (Except.ok.inj h)
          obtain ⟨-, rfl⟩ := Prod.mk.inj hrest
          have hfits' : pair.eps.Le b₂ := (hfits b₁ rfl).trans hle
          rw [climbRest_of_not_worse call b₂ hrung hpair hmono, if_pos hfits']
          exact ⟨_, _, _, rfl, le_rfl⟩
      | goesOn value' pair hrung hpair hmono hover =>
          rw [climbRest_of_not_worse call b₂ hrung hpair hmono]
          split
          · obtain ⟨-, hn, -⟩ := climbRest_ok rfl hrung h
            exact ⟨_, _, _, rfl, by omega⟩
          · exact ih hrung h

theorem ladderEps_cons {prev rung : R} {rungs : List R} {e : JsonFloat K}
    (h : pairEps solver call (prev, rung) = some e) :
    ladderEps solver call (prev :: rung :: rungs) = e :: ladderEps solver call (rung :: rungs) :=
  List.filterMap_cons_some h

/-- What the rungs that are left are like when the climb is exhausted, after a pair
of eps `e₀`: its best eps is one of theirs, and the least where none is a NaN. -/
theorem climbRest_exhausted {budget : JsonFloat K} (hbudget : call.epsBudget = some budget)
    {rungs : List R} :
    ∀ {i : ℕ} {prev : R} {prevValue e₀ best : JsonFloat K} {reported : Option (JsonFloat K)}
      {tried : ℕ}, solver (call.key prev) = .ok prevValue →
      climbRest solver call i prevValue (some e₀) rungs = .error (.exhausted best reported tried) →
      (∀ rung ∈ rungs, ∃ value, solver (call.key rung) = .ok value) ∧
      (e₀ :: ladderEps solver call (prev :: rungs)).IsChain (fun e e' => ¬ e.Lt e') ∧
      (∀ e ∈ ladderEps solver call (prev :: rungs), ¬ e.Le budget) ∧
      best ∈ e₀ :: ladderEps solver call (prev :: rungs) ∧
      ((∀ e ∈ e₀ :: ladderEps solver call (prev :: rungs), e ≠ .nan) →
        ∀ e ∈ e₀ :: ladderEps solver call (prev :: rungs), best.Le e) := by
  induction rungs with
  | nil =>
      intro i prev prevValue e₀ best reported tried hprev h
      obtain ⟨rfl, -⟩ := ClimbFailure.exhausted.inj (Except.error.inj h)
      refine ⟨List.forall_mem_nil _, .singleton _, List.forall_mem_nil _, List.mem_cons_self,
        fun hnan e he => ?_⟩
      obtain rfl : e = e₀ := List.mem_singleton.mp he
      exact JsonFloat.le_refl_iff.mpr (hnan e he)
  | cons rung rungs ih =>
      intro i prev prevValue e₀ best reported tried hprev h
      have hstep := climbRest_cons solver call i prevValue (some e₀) rung rungs
      generalize climbRest solver call i prevValue (some e₀) (rung :: rungs) = res at h hstep
      cases hstep with
      | failed e hrung => cases h
      | divided hscale => cases h
      | worse value' pair prevE hrung hpair hpe hlt => cases h
      | met value' pair hrung hpair hmono hfits => cases h
      -- only a pair over the budget, and no worse than the one before it, lets the climb go on
      | goesOn value' pair hrung hpair hmono hover =>
          obtain ⟨hvalues, hchain, hnone, hmem, hleast⟩ := ih hrung h
          obtain ⟨b, hb, hnot⟩ := hover
          obtain rfl : budget = b := Option.some.inj (hbudget.symm.trans hb)
          rw [ladderEps_cons (pairEps_of_pair hprev hrung hpair)]
          have hlt : ¬ e₀.Lt pair.eps := hmono e₀ rfl
          refine ⟨List.forall_mem_cons.mpr ⟨⟨value', hrung⟩, hvalues⟩,
            List.isChain_cons_cons.mpr ⟨hlt, hchain⟩, List.forall_mem_cons.mpr ⟨hnot, hnone⟩,
            List.mem_cons_of_mem _ hmem, fun hnan => ?_⟩
          obtain ⟨hnan₀, hnan'⟩ := List.forall_mem_cons.mp hnan
          have hbest := hleast hnan'
          refine List.forall_mem_cons.mpr ⟨?_, hbest⟩
          have hpair_le : pair.eps.Le e₀ :=
            JsonFloat.le_of_not_lt hlt hnan₀ (hnan' pair.eps List.mem_cons_self)
          exact (hbest pair.eps List.mem_cons_self).trans hpair_le

/-- Where nothing ends the climb before the last rung, it is exhausted. -/
theorem climbRest_of_exhausts {budget : JsonFloat K} (hscale : call.scale - 1 ≠ 0)
    {rungs : List R} :
    ∀ {i : ℕ} {prev : R} {prevValue e₀ : JsonFloat K}, solver (call.key prev) = .ok prevValue →
      (∀ rung ∈ rungs, ∃ value, solver (call.key rung) = .ok value) →
      (e₀ :: ladderEps solver call (prev :: rungs)).IsChain (fun e e' => ¬ e.Lt e') →
      (∀ e ∈ ladderEps solver call (prev :: rungs), ¬ e.Le budget) →
      ∃ best reported tried, climbRest solver (call.withBudget budget) i prevValue (some e₀) rungs
        = .error (.exhausted best reported tried) := by
  induction rungs with
  | nil =>
      intro i prev prevValue e₀ hprev hvalues hchain hnone
      exact ⟨_, _, _, rfl⟩
  | cons rung rungs ih =>
      intro i prev prevValue e₀ hprev hvalues hchain hnone
      obtain ⟨⟨value, hrung⟩, hvalues⟩ := List.forall_mem_cons.mp hvalues
      obtain ⟨pair, hpair⟩ := exists_pair call.safetyFactor prevValue value hscale
      rw [ladderEps_cons (pairEps_of_pair hprev hrung hpair)] at hchain hnone
      obtain ⟨hlt, hchain⟩ := List.isChain_cons_cons.mp hchain
      obtain ⟨hnot, hnone⟩ := List.forall_mem_cons.mp hnone
      have hmono : ∀ e ∈ some e₀, ¬ e.Lt pair.eps := by
        intro e he
        exact Option.some.inj he ▸ hlt
      rw [climbRest_of_not_worse call budget hrung hpair hmono, if_neg hnot]
      exact ih hrung hvalues hchain hnone

/-- The loop runs on from the value of the first rung. -/
theorem climbPlain_eq (call : Climb K R B) {first second : R} {rungs : List R}
    {value : JsonFloat K} (hrungs : call.rungs = first :: second :: rungs)
    (hfirst : solver (call.key first) = .ok value) :
    climbPlain solver call = climbRest solver call 1 value none (second :: rungs) := by
  simp [climbPlain, climb, hrungs, runPlain, hfirst, climbRest]

/-- A climb has too few rungs, or its first rung fails, or the loop runs on from
its value. -/
theorem climbPlain_cases (solver : RungSolver K R B) (call : Climb K R B) :
    (∃ rungs, climbPlain solver call = .error (.tooFewRungs rungs) ∧ call.rungs.length < 2) ∨
    ∃ first second rungs, call.rungs = first :: second :: rungs ∧
      ((∃ e, solver (call.key first) = .error e ∧ climbPlain solver call = .error (.rung e)) ∨
      ∃ value, solver (call.key first) = .ok value ∧
        climbPlain solver call = climbRest solver call 1 value none (second :: rungs)) := by
  rcases hrungs : call.rungs with - | ⟨first, - | ⟨second, rungs⟩⟩
  · exact Or.inl ⟨0, by simp [climbPlain, climb, hrungs], Nat.zero_lt_two⟩
  · exact Or.inl ⟨1, by simp [climbPlain, climb, hrungs], Nat.one_lt_two⟩
  · refine Or.inr ⟨first, second, rungs, rfl, ?_⟩
    rcases hfirst : solver (call.key first) with e | value
    · exact Or.inl ⟨e, rfl, by simp [climbPlain, climb, hrungs, runPlain, hfirst]⟩
    · exact Or.inr ⟨value, rfl, climbPlain_eq call hrungs hfirst⟩

/-- A climb with a value, or an exhausted one, has run its first rung. -/
theorem climbPlain_first {res : Except (ClimbFailure K) (Climbed K)}
    (h : climbPlain solver call = res)
    (hres : (∃ out, res = .ok out) ∨ ∃ best reported tried,
      res = .error (.exhausted best reported tried)) :
    ∃ first second rungs value, call.rungs = first :: second :: rungs ∧
      solver (call.key first) = .ok value ∧
      climbRest solver call 1 value none (second :: rungs) = res := by
  rcases climbPlain_cases solver call with ⟨n, hfew, -⟩ | ⟨first, second, rungs, hrungs, hrest⟩
  · rw [hfew] at h
    rcases hres with ⟨out, rfl⟩ | ⟨best, reported, tried, rfl⟩ <;> cases h
  · rcases hrest with ⟨e, -, hfail⟩ | ⟨value, hfirst, hloop⟩
    · rw [hfail] at h
      rcases hres with ⟨out, rfl⟩ | ⟨best, reported, tried, rfl⟩ <;> cases h
    · exact ⟨first, second, rungs, value, hrungs, hfirst, hloop ▸ h⟩

theorem climbLaws {b₁ b₂ : JsonFloat K} (hle : b₁.Le b₂) : ClimbLaws solver call b₁ b₂ := by
  refine ⟨fun value eps n h => ?_, fun value eps n h => ?_, fun value eps n h => ?_⟩ <;>
    obtain ⟨first, second, rungs, v, hrungs, hfirst, hloop⟩ := climbPlain_first h (Or.inl ⟨_, rfl⟩)
  · exact (climbRest_ok rfl hfirst hloop).1
  · intro m hm
    rw [show call.rungs = _ from hrungs]
    exact (climbRest_ok rfl hfirst hloop).2.2 m hm
  · obtain ⟨value', eps', n', hloop', hn⟩ := climbRest_looser hle hfirst hloop
    exact ⟨value', eps', n', (climbPlain_eq (call.withBudget b₂) hrungs hfirst).trans hloop', hn⟩

/-- An exhausted climb: nothing ended it before the last rung, and its best eps is
the least where no eps of the ladder is a NaN. -/
theorem climbPlain_exhausted {budget best : JsonFloat K} {reported : Option (JsonFloat K)}
    {tried : ℕ}
    (h : climbPlain solver (call.withBudget budget) = .error (.exhausted best reported tried)) :
    Exhausts solver call budget ∧ best ∈ ladderEps solver call call.rungs ∧
      ((∀ e ∈ ladderEps solver call call.rungs, e ≠ .nan) →
        ∀ e ∈ ladderEps solver call call.rungs, best.Le e) := by
  obtain ⟨first, second, rungs, v, hrungs, hfirst, hloop⟩ :=
    climbPlain_first h (Or.inr ⟨_, _, _, rfl⟩)
  have hrungs' : call.rungs = first :: second :: rungs := hrungs
  have hstep := climbRest_cons solver (call.withBudget budget) 1 v none second rungs
  generalize climbRest solver (call.withBudget budget) 1 v none (second :: rungs) = res
    at hloop hstep
  cases hstep with
  | failed e hrung => cases hloop
  | divided hscale => cases hloop
  | worse value' pair prevE hrung hpair hpe hlt => cases hloop
  | met value' pair hrung hpair hmono hfits => cases hloop
  | goesOn value' pair hrung hpair hmono hover =>
      obtain ⟨hvalues, hchain, hnone, hmem, hleast⟩ := climbRest_exhausted rfl hrung hloop
      obtain ⟨b, hb, hnot⟩ := hover
      obtain rfl : budget = b := Option.some.inj hb
      have heps : ladderEps solver call call.rungs
          = pair.eps :: ladderEps solver call (second :: rungs) := by
        rw [hrungs']
        exact ladderEps_cons (pairEps_of_pair hfirst hrung hpair)
      rw [heps]
      refine ⟨⟨?_, scale_ne_of_some hpair, ?_, heps ▸ hchain, ?_⟩, hmem, hleast⟩
      · rw [hrungs']
        exact Nat.le_add_left 2 _
      · rw [hrungs']
        exact List.forall_mem_cons.mpr
          ⟨⟨v, hfirst⟩, List.forall_mem_cons.mpr ⟨⟨value', hrung⟩, hvalues⟩⟩
      · rw [heps]
        exact List.forall_mem_cons.mpr ⟨hnot, hnone⟩

/-- Where nothing ends the climb before the last rung, it is exhausted. -/
theorem climbPlain_of_exhausts {budget : JsonFloat K} (h : Exhausts solver call budget) :
    ∃ best reported tried, climbPlain solver (call.withBudget budget)
      = .error (.exhausted best reported tried) := by
  obtain ⟨hlen, hscale, hvalues, hchain, hover⟩ := h
  rcases hrungs : call.rungs with - | ⟨first, - | ⟨second, rungs⟩⟩
  · rw [hrungs] at hlen
    simp at hlen
  · rw [hrungs] at hlen
    simp at hlen
  rw [hrungs] at hvalues hchain hover
  obtain ⟨⟨v, hfirst⟩, hvalues⟩ := List.forall_mem_cons.mp hvalues
  obtain ⟨⟨value, hrung⟩, hvalues⟩ := List.forall_mem_cons.mp hvalues
  obtain ⟨pair, hpair⟩ := exists_pair call.safetyFactor v value hscale
  rw [ladderEps_cons (pairEps_of_pair hfirst hrung hpair)] at hchain hover
  obtain ⟨hnot, hover⟩ := List.forall_mem_cons.mp hover
  have hmono : ∀ e ∈ (none : Option (JsonFloat K)), ¬ e.Lt pair.eps := by
    intro e he
    cases he
  rw [climbPlain_eq (call.withBudget budget) hrungs hfirst,
    climbRest_of_not_worse call budget hrung hpair hmono, if_neg hnot]
  exact climbRest_of_exhausts hscale hrung hvalues hchain hover

/-- The eps of a pair of the ladder, and when it is a number. -/
theorem exists_pairEps (hscale : call.scale - 1 ≠ 0) {pair : R × R} {value value' : JsonFloat K}
    (hvalue : solver (call.key pair.1) = .ok value)
    (hvalue' : solver (call.key pair.2) = .ok value') :
    ∃ e, pairEps solver call pair = some e ∧
      (e ≠ .nan ↔ Usable call.safetyFactor value value') := by
  obtain ⟨result, hresult⟩ := exists_pair call.safetyFactor value value' hscale
  exact ⟨result.eps, pairEps_of_pair hvalue hvalue' hresult, eps_ne_nan_iff hresult⟩

theorem pairEps_ne_nan (husable : UsableRungs solver call) {pair : R × R}
    (hpair : pair ∈ adjacent call.rungs) {e : JsonFloat K}
    (he : pairEps solver call pair = some e) : e ≠ .nan := by
  unfold pairEps at he
  split at he
  · rename_i value value' hvalue hvalue'
    obtain ⟨result, hresult, rfl⟩ := Option.map_eq_some_iff.mp he
    exact (eps_ne_nan_iff hresult).mpr (husable pair hpair value value' hvalue hvalue')
  · cases he

/-- The best eps of every exhausted climb is the least iff the ladder's values are
usable or something ends the climb before its last rung. -/
theorem bestIsLeast_iff {budget : JsonFloat K} :
    BestIsLeast solver call budget ↔ (Exhausts solver call budget → UsableRungs solver call) := by
  constructor
  · intro hbest hexh pair hpair value value' hvalue hvalue'
    obtain ⟨best, reported, tried, hrun⟩ := climbPlain_of_exhausts hexh
    obtain ⟨e, he, hnan⟩ := exists_pairEps hexh.scale hvalue hvalue'
    have hle := (hbest best reported tried hrun).least pair hpair e he
    refine hnan.mp fun hnot => ?_
    rw [hnot] at hle
    cases best <;> exact hle
  · intro husable best reported tried hrun
    obtain ⟨hexh, hmem, hleast⟩ := climbPlain_exhausted hrun
    have hmem_iff : ∀ e, e ∈ ladderEps solver call call.rungs ↔
        ∃ pair ∈ adjacent call.rungs, pairEps solver call pair = some e :=
      fun e => List.mem_filterMap
    refine ⟨(hmem_iff best).mp hmem, fun pair hpair e he => ?_⟩
    apply hleast _ e ((hmem_iff e).mpr ⟨pair, hpair, he⟩)
    intro e' he'
    obtain ⟨pair', hpair', heps⟩ := (hmem_iff e').mp he'
    exact pairEps_ne_nan (husable hexh) hpair' heps

end Plain

/-! ### The loop with a cache -/

section Cached

variable [DecidableEq D] {digest : RungKey R B → D} {solver : RungSolver K R B}

/-- The loop with a faithful cache is the loop without one. -/
theorem climbFrom_cached (hdigest : Function.Injective digest) (call : Climb K R B)
    {rungs : List R} : ∀ {i : ℕ} {prevValue : JsonFloat K} {prevEps : Option (JsonFloat K)}
      {cache : RungCache K R B D}, cache.Faithful digest solver →
      (climbFrom call (runCached digest solver call) i prevValue prevEps rungs cache).1
        = climbRest solver call i prevValue prevEps rungs ∧
      (climbFrom call (runCached digest solver call) i prevValue prevEps rungs cache).2.Faithful
        digest solver := by
  induction rungs with
  | nil =>
      intro i prevValue prevEps cache hcache
      exact ⟨rfl, hcache⟩
  | cons rung rungs ih =>
      intro i prevValue prevEps cache hcache
      have hres := hcache.ask_fst hdigest (call.key rung)
      have hnext := hcache.ask (call.key rung)
      rcases hask : cache.ask digest solver (call.key rung) with ⟨res, cache'⟩
      rw [hask] at hres hnext
      simp only [climbFrom, climbRest, runCached, runPlain, hask, ← hres]
      rcases res with e | value
      · exact ⟨rfl, hnext⟩
      dsimp only
      rcases hpair : richardsonExtrapolate call.scale call.safetyFactor prevValue value
        with - | pair
      · simp only
        exact ⟨trivial, hnext⟩
      simp only
      split_ifs
      · exact ⟨rfl, hnext⟩
      · exact ⟨rfl, hnext⟩
      · exact ih hnext

/-- A climb with a faithful cache is a climb without one, and leaves it faithful. -/
theorem climbCached_faithful (hdigest : Function.Injective digest) (call : Climb K R B)
    {cache : RungCache K R B D} (hcache : cache.Faithful digest solver) :
    (climbCached digest solver call cache).1 = climbPlain solver call ∧
      (climbCached digest solver call cache).2.Faithful digest solver := by
  unfold climbCached climbPlain climb
  split
  · rename_i first second rungs hrungs
    have hres := hcache.ask_fst hdigest (call.key first)
    have hnext := hcache.ask (call.key first)
    rcases hask : cache.ask digest solver (call.key first) with ⟨res, cache'⟩
    rw [hask] at hres hnext
    simp only [runCached, runPlain, hask, ← hres]
    rcases res with e | value
    · exact ⟨rfl, hnext⟩
    · exact climbFrom_cached hdigest call hnext
  · exact ⟨rfl, hcache⟩

/-- Whatever the earlier climbs ended with, they leave a faithful cache. -/
theorem afterClimbs_faithful (hdigest : Function.Injective digest)
    (history : List (Climb K R B)) : (afterClimbs digest solver history).Faithful digest solver := by
  have hrun : ∀ cache : RungCache K R B D, cache.Faithful digest solver →
      (history.foldl (fun cache call => (climbCached digest solver call cache).2) cache).Faithful
        digest solver := by
    induction history with
    | nil => exact fun _ hcache => hcache
    | cons call history ih =>
        exact fun cache hcache => ih _ (climbCached_faithful hdigest call hcache).2
  exact hrun .empty Memo.Journal.faithful_empty

theorem cacheLaws (hdigest : Function.Injective digest) (history : List (Climb K R B))
    (call : Climb K R B) : CacheLaws digest solver history call := by
  have hcache : (afterClimbs digest solver history).Faithful digest solver :=
    afterClimbs_faithful hdigest history
  have hclimb := climbCached_faithful hdigest call hcache
  exact ⟨hclimb.1, hclimb.2.once⟩

/-- **When a climb is as documented.** Its value fits the budget and comes from the
shortest prefix that has one, a looser budget needs no more rungs, and a cache
changes nothing and runs no rung twice that succeeded.  The best eps of an exhausted
ladder is the least over the adjacent pairs iff the values of every pair are usable
or something ends the climb before its last rung. -/
theorem climbLaws_iff (hdigest : Function.Injective digest) {b₁ b₂ : JsonFloat K}
    (hbudgets : b₁.Le b₂) (history : List (Climb K R B)) (call : Climb K R B) :
    (ClimbLaws solver call b₁ b₂ ∧ BestIsLeast solver call b₁ ∧
      CacheLaws digest solver history call) ↔
    (Exhausts solver call b₁ → UsableRungs solver call) := by
  constructor
  · rintro ⟨-, hbest, -⟩
    exact bestIsLeast_iff.mp hbest
  · intro husable
    exact ⟨climbLaws hbudgets, bestIsLeast_iff.mpr husable, cacheLaws hdigest history call⟩

end Cached

/-! ### A ladder with a NaN -/

/-- The rungs 0, 1, .. of a ladder with these values. -/
def valuesCall (values : List (JsonFloat ℚ)) : Climb ℚ ℕ Unit where
  rungs := List.range values.length
  epsBudget := none
  solverId := "cantilever"
  version := "1"
  box := ()
  scale := 4
  safetyFactor := 3 / 2

def valuesSolver (values : List (JsonFloat ℚ)) : RungSolver ℚ ℕ Unit :=
  fun key => .ok (values.getD key.rungSettings .nan)

/-- The first pair has an eps of 1/2, the last one of 5/2, and a NaN between them
hides the rise; what is reported as the best is 5/2. -/
def nanLadder : List (JsonFloat ℚ) := [.finite 0, .finite 1, .nan, .finite 5, .finite 10]

theorem not_bestIsLeast_nan :
    ¬ BestIsLeast (valuesSolver nanLadder) (valuesCall nanLadder) (.finite (1 / 100)) := by
  intro hbest
  have hleast := hbest (.finite (5 / 2)) (some (.finite (1 / 100))) 5 (by decide +kernel)
  have hle := hleast.least (0, 1) (by decide +kernel) (.finite (1 / 2)) (by decide +kernel)
  exact absurd hle (by decide +kernel)

theorem climbLaws_iff_steady :
    (ClimbLaws (valuesSolver [.finite 0, .finite 1]) (valuesCall [.finite 0, .finite 1])
        (.finite 1) (.finite 2) ∧
      BestIsLeast (valuesSolver [.finite 0, .finite 1]) (valuesCall [.finite 0, .finite 1])
        (.finite 1) ∧
      CacheLaws id (valuesSolver [.finite 0, .finite 1]) []
        (valuesCall [.finite 0, .finite 1])) ↔
    (Exhausts (valuesSolver [.finite 0, .finite 1]) (valuesCall [.finite 0, .finite 1])
      (.finite 1) → UsableRungs (valuesSolver [.finite 0, .finite 1])
        (valuesCall [.finite 0, .finite 1])) :=
  climbLaws_iff Function.injective_id (by decide +kernel) [] _

end Feldspar.Fea

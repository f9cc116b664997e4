/-
Feldspar/Search.lean

The planner search (`search.rs`): the deterministic forward AND-graph search
from known ports to a target port.

One iteration of the search loop is `searchStep`; the loop is
`Loop.iter (searchStep rq)` from `initState rq`, so `plan` takes a number of
iterations and `Plans rq r` says that some number of them is enough.

A `StepNode` shared through `Rc` is a position in the arena `nodes`, and its
pointer is that position.  Where the sum surrogate overflows the code panics; the
definitions go on there, and `Panics` says that it happens.  The digest of a `Route`
is a function of its other fields and is left to the callers that read it.  `epsBudget` is finite here:
the `is_finite` half of the budget check is made where a request is built.
-/
import Feldspar.Propagation
import Feldspar.Lib.Dfs
import Feldspar.Lib.Loop
import Feldspar.Lib.Pareto
import Mathlib.Data.Nat.Pairing
import Mathlib.Data.Prod.Lex
import Mathlib.Logic.Encodable.Basic
import Mathlib.Logic.Equiv.Nat

set_option linter.unusedSectionVars false

namespace Feldspar

/-- Which one-sided claims a solver is conservative for. -/
inductive Sense
  | upper
  | lower
  | both
  deriving DecidableEq, Repr

/-- `f64::to_bits`: distinct numbers have distinct bit patterns. -/
class ToBits (K : Type) where
  toBits : K → ℕ
  toBits_injective : Function.Injective toBits

/-- Rationals stand in for exact floats; the code of a fraction is its bit
pattern. -/
instance : ToBits ℚ where
  toBits q := Nat.pair (Encodable.encode q.num) q.den
  toBits_injective q r h := by
    obtain ⟨hnum, hden⟩ := Nat.pair_eq_pair.mp h
    exact Rat.ext (Encodable.encode_injective hnum) hden

variable {K : Type} [Arith K] [LinearOrder K]

/-! ### Data model -/

/-- The planning-relevant metadata of one registered solver. -/
structure SolverSummary (K : Type) [Arith K] [LinearOrder K] where
  solverId : SolverId
  inputs : List Port
  outputs : List Port
  domain : Domain K
  cost : K
  accuracy : PortMap (Accuracy K)
  conservativeFor : Sense

inductive PlanError (K : Type)
  | invalidBudget
  | unknownTarget (port : Port)
  | noApplicableSolver
  | budgetUnreachable (bestEps : K)
  | cyclicPortEquivalence
  deriving DecidableEq, Repr

/-- One committed step in a `Route`. -/
structure RouteStep (K : Type) where
  solverId : SolverId
  realizedDomain : Domain K
  predictedEps : K
  cost : K
  deriving DecidableEq

/-- The ordered result of a successful `plan`. -/
structure Route (K : Type) where
  target : Port
  steps : List (RouteStep K)
  predictedEps : K
  totalCost : K
  deriving DecidableEq

/-- The arguments of `plan`. -/
structure PlanRequest (K : Type) [Arith K] [LinearOrder K] where
  solvers : List (SolverSummary K)
  known : PortMap (Interval K)
  tags : TagSet
  target : Port
  epsBudget : K
  sense : Sense
  known_proper : ∀ iv ∈ OrdMap.vals known, iv.Proper

/-- An achieved port label: interval, model eps, additive cost so far and the
producing step. -/
structure Label (K : Type) where
  interval : Interval K
  eps : K
  cost : K
  node : Option ℕ
  deriving DecidableEq

/-- One committed application of a solver. -/
structure StepNode (K : Type) where
  solverId : SolverId
  ownCost : K
  tags : TagSet
  inputs : PortMap (Label K)
  outputs : PortMap (Interval K × K)

namespace Label

def known (interval : Interval K) : Label K := ⟨interval, 0, 0, none⟩

def inflated (l : Label K) : Interval K := inflate l.interval l.eps

def totalError (l : Label K) : K := Feldspar.totalError l.interval l.eps

/-- No more expensive, and the inflated interval sits inside. -/
def dominates (a b : Label K) : Prop := a.cost ≤ b.cost ∧ a.inflated.isSubset b.inflated

instance : DecidableRel (dominates (K := K)) := fun _ _ => inferInstanceAs (Decidable (_ ∧ _))

instance : IsPreorder (Label K) dominates where
  refl a := ⟨le_rfl, a.inflated.isSubset_refl⟩
  trans _ _ _ h h' := ⟨h.1.trans h'.1, Interval.isSubset_trans h.2 h'.2⟩

end Label

def insertWithDominance (set : List (Label K)) (newLabel : Label K) : List (Label K) × Bool :=
  Pareto.insert Label.dominates set newLabel

/-! ### Entry checks -/

/-- The edges `input → output` of the one-input one-output solvers. -/
def portEquivalences (solvers : List (SolverSummary K)) : List (Port × Port) :=
  solvers.filterMap fun s =>
    match s.inputs, s.outputs with
    | [i], [o] => some (i, o)
    | _, _ => none

/-- Adjacency lists of a list of edges. -/
def adjacency (edges : List (Port × Port)) : PortMap (List Port) :=
  edges.foldl (fun adj e => adj.alter e.1 fun l => some (l.getD [] ++ [e.2])) ∅

/-- Three-colour search over the port equivalences.  Its recursion is at most
as deep as there are ports. -/
def detectPortEquivalenceCycle (solvers : List (SolverSummary K)) : Bool :=
  let edges := portEquivalences solvers
  let adj := adjacency edges
  Dfs.hasCycle (fun node => adj[node]?.getD []) (2 * edges.length + 1) adj.keys == some true

/-- The checks before the search; `none` when the search is entered. -/
def entryChecks (rq : PlanRequest K) : Option (Except (PlanError K) (Route K)) :=
  if rq.epsBudget ≤ 0 then some (.error .invalidBudget)
  -- the target is already known: a zero-step route
  else if rq.target ∈ rq.known then some (.ok ⟨rq.target, [], 0, 0⟩)
  else if ¬ rq.solvers.any fun s => s.outputs.any fun o => o == rq.target then
    some (.error (.unknownTarget rq.target))
  else if detectPortEquivalenceCycle rq.solvers then some (.error .cyclicPortEquivalence)
  else none

theorem entryChecks_eq_none {rq : PlanRequest K} :
    entryChecks rq = none ↔ 0 < rq.epsBudget ∧ rq.target ∉ rq.known ∧
      (∃ s ∈ rq.solvers, rq.target ∈ s.outputs) ∧
      detectPortEquivalenceCycle rq.solvers = false := by
  unfold entryChecks
  split
  · simp_all
  split
  · simp_all
  split
  · simp_all
  split
  · simp_all
  · simp_all

theorem entryChecks_eq_ok {rq : PlanRequest K} {route : Route K}
    (h : entryChecks rq = some (.ok route)) :
    rq.target ∈ rq.known ∧ route = ⟨rq.target, [], 0, 0⟩ := by
  unfold entryChecks at h
  split at h
  · cases h
  split at h
  · exact ⟨‹_›, (Except.ok.inj (Option.some.inj h)).symm⟩
  split at h
  · cases h
  split at h <;> cases h

/-! ### Candidates -/

structure Candidate (solvers : List (SolverSummary K)) where
  solverIdx : Fin solvers.length
  cost : K
  tieKey : String
  inputs : PortMap (Label K)

def Candidate.solver {solvers : List (SolverSummary K)} (c : Candidate solvers) :
    SolverSummary K := solvers.get c.solverIdx

/-- What the pushed set remembers of a candidate. -/
def Candidate.key {solvers : List (SolverSummary K)} (c : Candidate solvers) :
    Fin solvers.length × String := (c.solverIdx, c.tieKey)

/-- The bit patterns of a label's inflated bounds and cost. -/
def tieEntry [ToBits K] (port : Port) (label : Label K) : String :=
  let iv := label.inflated
  s!"{port}:{ToBits.toBits iv.lo}:{ToBits.toBits iv.hi}:{ToBits.toBits label.cost}"

/-- The tie entries of a combo, in port order. -/
def tieKeyFor [ToBits K] (inputs : PortMap (Label K)) : String :=
  "|".intercalate (inputs.toList.map fun (port, label) => tieEntry port label)

/-- `BTreeMap<String, Vec<Label>>`; a missing port has no labels. -/
abbrev Labels (K : Type) := PortMap (List (Label K))

def Labels.at (labels : Labels K) (port : Port) : List (Label K) := labels[port]?.getD []

/-- The combos of one more port: each so far, with each of its labels. -/
def extendCombos (labels : Labels K) (acc : List (PortMap (Label K))) (port : Port) :
    List (PortMap (Label K)) :=
  acc.flatMap fun combo => (labels.at port).map fun choice => combo.insert port choice

/-- Cartesian product of the input ports' label sets. -/
def combosFor (inputs : List Port) (labels : Labels K) : List (PortMap (Label K)) :=
  inputs.foldl (extendCombos labels) [∅]

/-- The `conservative_for` filter: a one-sided solver must match the sense
and have the target among its outputs. -/
def passesFilter (rq : PlanRequest K) (s : SolverSummary K) : Prop :=
  s.conservativeFor = .both ∨ s.conservativeFor = rq.sense ∧ rq.target ∈ s.outputs

instance (rq : PlanRequest K) (s : SolverSummary K) : Decidable (passesFilter rq s) :=
  inferInstanceAs (Decidable (_ ∨ _))

/-- Every solver that passes the filter, with every combo of its inputs. -/
def proposals (rq : PlanRequest K) (labels : Labels K) :
    List (Fin rq.solvers.length × PortMap (Label K)) :=
  (List.finRange rq.solvers.length).flatMap fun idx =>
    if passesFilter rq (rq.solvers.get idx) then
      (combosFor (rq.solvers.get idx).inputs labels).map fun combo => (idx, combo)
    else []

def comboCost (s : SolverSummary K) (combo : PortMap (Label K)) : K :=
  s.cost + Arith.sum ((OrdMap.vals combo).map Label.cost)

structure SearchState (solvers : List (SolverSummary K)) where
  labels : Labels K
  frontier : List (Candidate solvers)
  pushed : Finset (Fin solvers.length × String)
  nodes : List (StepNode K)

section Step

variable [ToBits K] (rq : PlanRequest K)

/-- The candidate that a proposal stands for. -/
def candidateOf (proposal : Fin rq.solvers.length × PortMap (Label K)) :
    Candidate rq.solvers where
  solverIdx := proposal.1
  cost := comboCost (rq.solvers.get proposal.1) proposal.2
  tieKey := tieKeyFor proposal.2
  inputs := proposal.2

/-- Push a candidate unless its solver and tie key were pushed before. -/
def pushCandidate (s : SearchState rq.solvers)
    (proposal : Fin rq.solvers.length × PortMap (Label K)) : SearchState rq.solvers :=
  let candidate := candidateOf rq proposal
  if candidate.key ∈ s.pushed then s
  else
    { s with
      pushed := insert candidate.key s.pushed
      frontier := s.frontier ++ [candidate] }

def regenerateCandidates (s : SearchState rq.solvers) : SearchState rq.solvers :=
  (proposals rq s.labels).foldl (pushCandidate rq) s

end Step

/-! ### Expansion -/

/-- The frontier order: cost, then solver id, then tie key. -/
def Candidate.order {solvers : List (SolverSummary K)} (c : Candidate solvers) :
    K ×ₗ String ×ₗ String :=
  toLex (c.cost, toLex (c.solver.solverId, c.tieKey))

def inflatedInputs (combo : PortMap (Label K)) : PortMap (Interval K) :=
  combo.map fun _ label => label.inflated

/-- The declared domain restricted to the solver's input ports; what is
checked at plan time. -/
def inputDomain (s : SolverSummary K) : Domain K :=
  ⟨s.domain.portBox.filter fun port _ => port ∈ s.inputs, s.domain.tags⟩

/-- The sum surrogate at one corner. -/
def surrogate (s : SolverSummary K) (corner : PortMap K) : PortMap K :=
  OrdMap.ofFn s.outputs fun _ => Arith.sum (OrdMap.vals corner)

/-- The declared model eps of an output over its hull; zero when the port
declares no accuracy. -/
def declaredEps (s : SolverSummary K) (o : Port) (iv : Interval K) : K :=
  match s.accuracy[o]? with
  | some acc => acc.worstOver iv
  | none => 0

/-- Each output's estimated hull and declared model eps. -/
def estimateOutputs (s : SolverSummary K) (inputs : PortMap (Interval K)) :
    PortMap (Interval K × K) :=
  let hull := Id.run (cornerSweep inputs fun corner => pure (surrogate s corner))
  OrdMap.ofFn s.outputs fun o =>
    let iv := hull[o]?.getD (Interval.point 0)
    (iv, declaredEps s o iv)

/-- Commit the label of one output port. -/
def commitOutput (cost : K) (node : ℕ) (acc : Labels K × Bool) (e : Port × Interval K × K) :
    Labels K × Bool :=
  let r := insertWithDominance (acc.1.at e.1) ⟨e.2.1, e.2.2, cost, some node⟩
  (acc.1.insert e.1 r.1, acc.2 || r.2)

/-- Commit one label per output port; the flag says whether any was kept. -/
def commitOutputs (labels : Labels K) (outputs : PortMap (Interval K × K)) (cost : K)
    (node : ℕ) : Labels K × Bool :=
  outputs.toList.foldl (commitOutput cost node) (labels, false)

/-- The cheapest target label within the budget. -/
def winner (rq : PlanRequest K) (labels : Labels K) : Option (Label K) :=
  ((labels.at rq.target).filter fun l => l.totalError ≤ rq.epsBudget).argmin Label.cost

/-- The error of a search whose frontier ran empty. -/
def exhausted (rq : PlanRequest K) (labels : Labels K) : PlanError K :=
  match ((labels.at rq.target).map Label.totalError).min? with
  | some bestEps => .budgetUnreachable bestEps
  | none => .noApplicableSolver

/-- The winning label, with the arena its derivation lives in. -/
structure Found (K : Type) where
  nodes : List (StepNode K)
  winner : Label K

/-- The node of one admitted candidate. -/
def stepNode {solvers : List (SolverSummary K)} (c : Candidate solvers) : StepNode K where
  solverId := c.solver.solverId
  ownCost := c.solver.cost
  tags := c.solver.domain.tags
  inputs := c.inputs
  outputs := estimateOutputs c.solver (inflatedInputs c.inputs)

/-- Expand an admitted candidate: allocate its node and commit its outputs. -/
def expand {solvers : List (SolverSummary K)} (s : SearchState solvers) (c : Candidate solvers)
    (frontier : List (Candidate solvers)) : SearchState solvers × Bool :=
  let node := stepNode c
  let r := commitOutputs s.labels node.outputs c.cost s.nodes.length
  ({ s with labels := r.1, frontier, nodes := s.nodes ++ [node] }, r.2)

/-- One iteration of the search loop. -/
def searchStep [ToBits K] (rq : PlanRequest K) (s : SearchState rq.solvers) :
    Except (PlanError K) (Found K) ⊕ SearchState rq.solvers :=
  let s := regenerateCandidates rq s
  match Pareto.popMin Candidate.order s.frontier with
  | none => .inl (.error (exhausted rq s.labels))
  | some (candidate, frontier) =>
      match (inputDomain candidate.solver).admits (inflatedInputs candidate.inputs) rq.tags with
      | .error _ => .inr { s with frontier }
      | .ok () =>
          let (s', anyCommitted) := expand s candidate frontier
          if anyCommitted then
            match winner rq s'.labels with
            | some l => .inl (.ok ⟨s'.nodes, l⟩)
            | none => .inr s'
          else .inr s'

def initState (rq : PlanRequest K) : SearchState rq.solvers where
  labels := rq.known.map fun _ iv => [Label.known iv]
  frontier := []
  pushed := ∅
  nodes := []

/-! ### Overflow -/

/-- The candidate that an iteration expands: the popped one, if it is admitted. -/
def expanded [ToBits K] (rq : PlanRequest K) (s : SearchState rq.solvers) :
    Option (Candidate rq.solvers) :=
  match Pareto.popMin Candidate.order (regenerateCandidates rq s).frontier with
  | none => none
  | some (candidate, _) =>
      match (inputDomain candidate.solver).admits (inflatedInputs candidate.inputs) rq.tags with
      | .error _ => none
      | .ok () => some candidate

/-- At some corner the value of the outputs is not finite.  `corner_sweep` expects
`Interval::point` to accept it. -/
def Candidate.Overflows {solvers : List (SolverSummary K)} (c : Candidate solvers) : Prop :=
  c.solver.outputs ≠ [] ∧ ∃ corner ∈ enumerateCorners (inflatedInputs c.inputs),
    Arith.isFinite (Arith.sum (OrdMap.vals corner)) = false

instance {solvers : List (SolverSummary K)} (c : Candidate solvers) : Decidable c.Overflows :=
  inferInstanceAs (Decidable (_ ∧ _))

/-- `plan` panics: the search expands a candidate that overflows. -/
def Panics [ToBits K] (rq : PlanRequest K) : Prop :=
  entryChecks rq = none ∧ ∃ s, Loop.Reaches (searchStep rq) (initState rq) s ∧
    ∃ c ∈ expanded rq s, c.Overflows

/-- Exact arithmetic does not overflow. -/
theorem not_panics {K : Type} [Field K] [LinearOrder K] [ToBits K] (rq : PlanRequest K) :
    ¬ Panics rq := by
  rintro ⟨-, s, -, c, -, -, corner, -, hfinite⟩
  cases hfinite

/-! ### Route reconstruction -/

/-- Post-order walk of the derivation from one node; `visited` is the set of
nodes entered, the second component the nodes in step order. -/
def walkRoute (nodes : List (StepNode K)) : ℕ → ℕ → List ℕ × List ℕ → List ℕ × List ℕ
  | 0, _, acc => acc
  | fuel + 1, ptr, (visited, steps) =>
      if ptr ∈ visited then (visited, steps)
      else
        match nodes[ptr]? with
        | none => (visited, steps)
        | some node =>
            let r := (OrdMap.vals node.inputs).foldl (fun acc label =>
              match label.node with
              | none => acc
              | some child => walkRoute nodes fuel child acc) (ptr :: visited, steps)
            (r.1, r.2 ++ [ptr])

/-- The nodes of a label's derivation, in step order.  A node's children are
older, so the recursion is at most as deep as the node's position. -/
def walkFrom (nodes : List (StepNode K)) (l : Label K) : List ℕ :=
  match l.node with
  | none => []
  | some ptr => (walkRoute nodes (ptr + 1) ptr ([], [])).2

def routeStep (node : StepNode K) : RouteStep K where
  solverId := node.solverId
  realizedDomain := ⟨inflatedInputs node.inputs, node.tags⟩
  predictedEps := ((OrdMap.vals node.outputs).map Prod.snd).foldl max 0
  cost := node.ownCost

def buildRoute (target : Port) (found : Found K) : Route K :=
  let steps := (walkFrom found.nodes found.winner).filterMap fun ptr =>
    found.nodes[ptr]?.map routeStep
  { target, steps
    predictedEps := found.winner.totalError
    totalCost := Arith.sum (steps.map RouteStep.cost) }

/-! ### The planner -/

/-- `plan`, with at most `fuel` iterations of the search loop. -/
def plan [ToBits K] (fuel : ℕ) (rq : PlanRequest K) : Option (Except (PlanError K) (Route K)) :=
  match entryChecks rq with
  | some r => some r
  | none =>
      match Loop.iter (searchStep rq) fuel (initState rq) with
      | .inl r => some (r.map (buildRoute rq.target))
      | .inr _ => none

/-- `plan` returns `r`. -/
def Plans [ToBits K] (rq : PlanRequest K) (r : Except (PlanError K) (Route K)) : Prop :=
  ∃ fuel, plan fuel rq = some r

/-- The search loop of `rq` ends with `r`. -/
def Searches [ToBits K] (rq : PlanRequest K) (r : Except (PlanError K) (Found K)) : Prop :=
  Loop.Returns (searchStep rq) (initState rq) r

theorem plans_of_entryChecks [ToBits K] {rq : PlanRequest K}
    {r : Except (PlanError K) (Route K)} (h : entryChecks rq = some r) : Plans rq r :=
  ⟨0, by simp [plan, h]⟩

/-- Past the entry checks, `plan` returns what the search returns. -/
theorem plans_iff_searches [ToBits K] {rq : PlanRequest K} (h : entryChecks rq = none)
    {r : Except (PlanError K) (Route K)} :
    Plans rq r ↔ ∃ f, Searches rq f ∧ r = f.map (buildRoute rq.target) := by
  constructor
  · rintro ⟨fuel, hf⟩
    rw [plan, h] at hf
    rcases e : Loop.iter (searchStep rq) fuel (initState rq) with f | s
    · rw [e] at hf
      exact ⟨f, ⟨fuel, e⟩, (Option.some.inj hf).symm⟩
    · rw [e] at hf
      cases hf
  · rintro ⟨f, ⟨fuel, hf⟩, rfl⟩
    exact ⟨fuel, by simp [plan, h, hf]⟩

/-- A planned route has no steps and a known target, or is built from a found
label. -/
theorem plans_ok_cases [ToBits K] {rq : PlanRequest K} {route : Route K}
    (h : Plans rq (.ok route)) :
    (rq.target ∈ rq.known ∧ route = ⟨rq.target, [], 0, 0⟩) ∨
      entryChecks rq = none ∧ ∃ f, Searches rq (.ok f) ∧ route = buildRoute rq.target f := by
  rcases hentry : entryChecks rq with - | r
  · obtain ⟨e | f, hf, he⟩ := (plans_iff_searches hentry).mp h
    · cases he
    · exact Or.inr ⟨rfl, f, hf, Except.ok.inj he⟩
  · obtain ⟨fuel, hfuel⟩ := h
    rw [plan, hentry] at hfuel
    obtain rfl := Option.some.inj hfuel
    exact Or.inl (entryChecks_eq_ok hentry)

/-! ### Plain requests -/

/-- A solver with no box and no tags, and constant accuracies. -/
def plainSolver (solverId : SolverId) (inputs : List Port) (outputs : List (Port × ℕ))
    (cost : ℚ) (conservativeFor : Sense) : SolverSummary ℚ where
  solverId
  inputs
  outputs := outputs.map Prod.fst
  domain := ⟨∅, ∅⟩
  cost
  accuracy := OrdMap.ofFn (outputs.map Prod.fst) fun o =>
    .absolute ((outputs.lookup o).getD 0) (Nat.cast_nonneg _)
  conservativeFor

/-- A request without tags whose known ports hold exact values. -/
def plainRequest (solvers : List (SolverSummary ℚ)) (known : List (Port × ℚ)) (target : Port)
    (epsBudget : ℚ) (sense : Sense) : PlanRequest ℚ where
  solvers
  known := OrdMap.ofFn (known.map Prod.fst) fun p => Interval.point ((known.lookup p).getD 0)
  tags := ∅
  target
  epsBudget
  sense
  known_proper iv hiv := by
    obtain ⟨p, hp⟩ := OrdMap.mem_vals.mp hiv
    obtain ⟨-, rfl⟩ := OrdMap.getElem?_ofFn_eq_some.mp hp
    exact le_rfl

end Feldspar

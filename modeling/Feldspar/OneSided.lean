/-
Feldspar/OneSided.lean

One-sided solvers and the interior of a route.

The sense filter lets a one-sided solver into the search as soon as the target
is among its outputs, but a label of any of its outputs, the target included,
can be consumed by a later candidate.  A run that never expands such a
candidate (`ConsumesBoth`) returns a route whose steps before the last all
name solvers conservative for both senses.
-/
import Feldspar.SearchArena

set_option linter.unusedSectionVars false

namespace Feldspar

variable {K : Type} [Field K] [LinearOrder K]

/-- The id names a solver that is conservative for both senses. -/
def NamesBoth (rq : PlanRequest K) (id : SolverId) : Prop :=
  ∃ v ∈ rq.solvers, v.solverId = id ∧ v.conservativeFor = .both

/-- Every step before the last is conservative for both senses, and the last
one for both or for the requested one. -/
def OneSidedCloses (rq : PlanRequest K) (route : Route K) : Prop :=
  ∀ init last, route.steps = init ++ [last] →
    (∀ step ∈ init, NamesBoth rq step.solverId) ∧
      ∃ v ∈ rq.solvers, v.solverId = last.solverId ∧
        (v.conservativeFor = .both ∨ v.conservativeFor = rq.sense)

/-- The step `i` of the arena names a solver conservative for both senses. -/
def BothAt (rq : PlanRequest K) (nodes : List (StepNode K)) (i : ℕ) : Prop :=
  ∀ node, nodes[i]? = some node → NamesBoth rq node.solverId

section Step

variable [ToBits K] {rq : PlanRequest K}

/-- The candidate expanded next consumes no output of a one-sided solver. -/
def ConsumesBoth (rq : PlanRequest K) (s : SearchState rq.solvers) : Prop :=
  ∀ c rest, Pareto.popMin Candidate.order (regenerateCandidates rq s).frontier = some (c, rest) →
    Admits rq c.solver c.inputs → ∀ (p : Port) (l : Label K), c.inputs[p]? = some l →
      ∀ i, l.node = some i → BothAt rq s.nodes i

/-- Every step of the arena consumes outputs of two-sided solvers only. -/
def CleanArena (rq : PlanRequest K) (nodes : List (StepNode K)) : Prop :=
  ∀ j i, Consumes nodes j i → BothAt rq nodes i

/-- An expansion that meets the condition keeps the arena clean. -/
theorem CleanArena.expand {s : SearchState rq.solvers} (harena : ArenaInv rq s)
    (hclean : CleanArena rq s.nodes) {c : Candidate rq.solvers}
    {rest : List (Candidate rq.solvers)} (hc : c ∈ s.frontier)
    (hboth : ∀ (p : Port) (l : Label K), c.inputs[p]? = some l →
      ∀ i, l.node = some i → BothAt rq s.nodes i) :
    CleanArena rq (expand s c rest).1.nodes := by
  have hnodes : (Feldspar.expand s c rest).1.nodes = s.nodes ++ [stepNode c] := rfl
  have hold : ∀ i, i < s.nodes.length → BothAt rq s.nodes i →
      BothAt rq (s.nodes ++ [stepNode c]) i := by
    intro i hi hb node hnode
    rw [List.getElem?_append_left hi] at hnode
    exact hb node hnode
  have hlt : ∀ {bound : ℕ} {p : Port} {l : Label K} {i : ℕ}, bound ≤ s.nodes.length →
      Sourced rq s.nodes bound p l → l.node = some i → i < s.nodes.length := by
    intro bound p l i hb hsrc hi
    rw [Sourced, hi] at hsrc
    exact hsrc.1.trans_le hb
  rw [hnodes]
  rintro j i ⟨node, hnode, p, l, hl, hi⟩
  rcases lt_or_ge j s.nodes.length with hj | hj
  · rw [List.getElem?_append_left hj] at hnode
    exact hold i (hlt hj.le ((harena.nodes j node hnode).sourced p l hl) hi)
      (hclean j i ⟨node, hnode, p, l, hl, hi⟩)
  · rw [List.getElem?_append_right hj, List.getElem?_singleton] at hnode
    split at hnode
    · cases hnode
      exact hold i (hlt le_rfl (harena.sourced c hc p l hl) hi) (hboth p l hl i hi)
    · cases hnode

/-- A run that meets the condition at every state ends with a clean arena. -/
theorem Searches.cleanArena
    (hrun : ∀ s, Loop.Reaches (searchStep rq) (initState rq) s → ConsumesBoth rq s) {f : Found K}
    (h : Searches rq (.ok f)) : CleanArena rq f.nodes := by
  have hexpand : ∀ {s : SearchState rq.solvers} {c rest}, ConsumesBoth rq s → ArenaInv rq s →
      CleanArena rq s.nodes →
      Pareto.popMin Candidate.order (regenerateCandidates rq s).frontier = some (c, rest) →
      Admits rq c.solver c.inputs →
      CleanArena rq (expand (regenerateCandidates rq s) c rest).1.nodes := by
    intro s c rest hcond harena hclean hpop hd
    obtain ⟨new, hp⟩ := regenerateCandidates_spec s
    refine CleanArena.expand harena.regenerate (by rwa [hp.nodes]) (mem_of_popMin hpop) ?_
    rw [hp.nodes]
    exact hcond c rest hpop hd
  obtain ⟨s, ⟨hreach, harena, hclean⟩, hret⟩ := Loop.Returns.exists_last
    (I := fun s => Loop.Reaches (searchStep rq) (initState rq) s ∧ ArenaInv rq s ∧
      CleanArena rq s.nodes) (fun s s' hI hs => by
    obtain ⟨hreach, harena, hclean⟩ := hI
    refine ⟨hreach.tail hs, harena.step hs, ?_⟩
    have hcase := searchStep_cases s
    rw [hs] at hcase
    cases hcase with
    | rejected hpop hd =>
        obtain ⟨new, hp⟩ := regenerateCandidates_spec s
        rw [hp.nodes]
        exact hclean
    | expanded hpop hd hw => exact hexpand (hrun s hreach) harena hclean hpop hd) h
    ⟨.refl, arenaInv_init, by rintro j i ⟨node, hnode, -⟩; simp [initState] at hnode⟩
  have hcase := searchStep_cases s
  rw [hret] at hcase
  cases hcase with
  | won hpop hd hw => exact hexpand (hrun s hreach) harena hclean hpop hd

/-- **One-sided solvers close the route** in every run that expands no
candidate with a one-sided input. -/
theorem plan_oneSidedCloses
    (hrun : ∀ s, Loop.Reaches (searchStep rq) (initState rq) s → ConsumesBoth rq s)
    {route : Route K} (h : Plans rq (.ok route)) : OneSidedCloses rq route := by
  rcases plans_ok_cases h with ⟨-, rfl⟩ | ⟨-, f, hf, rfl⟩
  · intro init last he
    exact absurd he.symm (by simp)
  · obtain ⟨hnodes, hsrc⟩ := hf.arena
    have hclean := hf.cleanArena hrun
    intro init last he
    rcases hw : f.winner.node with - | ptr
    · rw [buildRoute, walkFrom, hw] at he
      exact absurd he.symm (by simp)
    rw [Sourced, hw] at hsrc
    obtain ⟨hlt, node, hnode, -⟩ := hsrc
    obtain ⟨-, before, hwalk, hcons⟩ := walkFrom_spec (acyclic_of_nodeOk hnodes) hw hlt
    have hsteps : (buildRoute rq.target f).steps
        = (before.filterMap fun i => f.nodes[i]?.map routeStep) ++ [routeStep node] := by
      simp [buildRoute, hwalk, List.filterMap_append, hnode]
    obtain ⟨rfl, hlast⟩ := List.append_inj' (he.symm.trans hsteps) rfl
    obtain rfl : last = routeStep node := List.singleton_inj.mp hlast
    constructor
    · intro step hstep
      obtain ⟨i, hi, hstep⟩ := List.mem_filterMap.mp hstep
      obtain ⟨node', hnode', rfl⟩ := Option.map_eq_some_iff.mp hstep
      obtain ⟨j, -, hc⟩ := hcons i hi
      exact hclean j i hc node' hnode'
    · obtain ⟨v, hv⟩ := (hnodes ptr node hnode).applies
      exact ⟨v, hv.mem, hv.solverId.symm, hv.filter.imp id And.left⟩

/-- A registry whose one-sided solvers have outputs that nothing consumes
expands no candidate with a one-sided input. -/
theorem consumesBoth_of_sinks
    (hsinks : ∀ u ∈ rq.solvers, passesFilter rq u → u.conservativeFor ≠ .both →
      ∀ o ∈ u.outputs, ∀ v ∈ rq.solvers, passesFilter rq v → o ∉ v.inputs) :
    ∀ s, Loop.Reaches (searchStep rq) (initState rq) s → ConsumesBoth rq s := by
  intro s hreach c rest hpop _ p l hl i hi node hnode
  have harena := hreach.invariant (I := ArenaInv rq) (fun _ _ h hs => h.step hs) arenaInv_init
  obtain ⟨new, hp⟩ := regenerateCandidates_spec s
  have h₁ := harena.regenerate
  have hc := mem_of_popMin hpop
  have hsrc := h₁.sourced c hc p l hl
  rw [Sourced, hi, hp.nodes] at hsrc
  obtain ⟨-, node', hnode', hout⟩ := hsrc
  obtain rfl : node = node' := Option.some.inj (hnode.symm.trans hnode')
  obtain ⟨u, hu⟩ := (harena.nodes i node hnode).applies
  refine ⟨u, hu.mem, hu.solverId.symm, ?_⟩
  by_contra hne
  refine hsinks u hu.mem hu.filter hne p ((hu.outputs p).mp hout) c.solver (List.get_mem _ _)
    (h₁.filter c hc) ((h₁.ports c hc p).mp (OrdMap.mem_iff_exists.mpr ⟨l, hl⟩))

end Step

/-- A one-sided solver behind a two-sided one. -/
def closingRequest : PlanRequest ℚ :=
  plainRequest
    [plainSolver "U" ["m"] [("y", 0), ("z", 0)] 1 .upper, plainSolver "P" ["x"] [("m", 0)] 1 .both]
    [("x", 0)] "y" 1 .upper

theorem plan_oneSidedCloses_closing :
    OneSidedCloses closingRequest
      ⟨"y", [⟨"P", ⟨OrdMap.ofFn ["x"] fun _ => .point 0, ∅⟩, 0, 1⟩,
        ⟨"U", ⟨OrdMap.ofFn ["m"] fun _ => .point 0, ∅⟩, 0, 1⟩], 0, 2⟩ :=
  plan_oneSidedCloses (consumesBoth_of_sinks (by decide +kernel)) ⟨4, by decide +kernel⟩

/-! ### A one-sided solver with a second output -/

/-- `U` is one-sided and misses the budget at `y`, but its other output `m`
feeds `L`. -/
def sideRequest : PlanRequest ℚ :=
  plainRequest
    [plainSolver "U" ["x"] [("m", 0), ("y", 10)] 1 .upper, plainSolver "L" ["m"] [("y", 0)] 1 .both]
    [("x", 0)] "y" 1 .upper

def sideRoute : Route ℚ where
  target := "y"
  steps := [⟨"U", ⟨OrdMap.ofFn ["x"] fun _ => .point 0, ∅⟩, 10, 1⟩,
    ⟨"L", ⟨OrdMap.ofFn ["m"] fun _ => .point 0, ∅⟩, 0, 1⟩]
  predictedEps := 0
  totalCost := 2

/-- The route of `sideRequest` consumes the one-sided `U` in its interior. -/
theorem sideRequest_interior :
    Plans sideRequest (.ok sideRoute) ∧ ¬ OneSidedCloses sideRequest sideRoute := by
  refine ⟨⟨4, by decide +kernel⟩, fun h => ?_⟩
  obtain ⟨v, hv, hid, hboth⟩ := (h _ _ (List.dropLast_append_getLast (by decide)).symm).1
    _ List.mem_cons_self
  revert hid hboth
  rcases List.mem_pair.mp hv with rfl | rfl <;> decide

end Feldspar

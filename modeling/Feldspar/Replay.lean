/-
Feldspar/Replay.lean

Replaying a route.

A winning label picks, for every step of its derivation and every input port,
one producer: an earlier step or the known value.  The route only lists the
steps, and the executor keeps one value per port, so a step reads whatever
wrote the port last (`replay`).  `replaysFaithfully_iff` says when the two
agree: exactly when no step of the walk stands between a chosen producer and
its consumer and has the port among its outputs.
-/
import Feldspar.SearchArena

set_option linter.unusedSectionVars false

namespace Feldspar

variable {K : Type} [Arith K] [LinearOrder K]

/-! ### Who wrote a port last -/

/-- The solver that a step names. -/
def solverOf (solvers : List (SolverSummary K)) (step : RouteStep K) : Option (SolverSummary K) :=
  solvers.find? fun s => s.solverId = step.solverId

/-- The outputs of the `k`-th step overwrite the ports they are bound to. -/
def bindOutputs (solvers : List (SolverSummary K)) (env : PortMap ℕ) (e : RouteStep K × ℕ) :
    PortMap ℕ :=
  match solverOf solvers e.1 with
  | some s => s.outputs.foldl (fun env port => env.insert port e.2) env
  | none => env

/-- The step that each port's value comes from after `steps`, in order; a port
that no step wrote holds its known value. -/
def replay (solvers : List (SolverSummary K)) (steps : List (RouteStep K)) : PortMap ℕ :=
  steps.zipIdx.foldl (bindOutputs solvers) ∅

/-- The step names a solver with the output `p`. -/
def Writes (solvers : List (SolverSummary K)) (step : RouteStep K) (p : Port) : Prop :=
  ∃ s, solverOf solvers step = some s ∧ p ∈ s.outputs

theorem replay_concat {solvers : List (SolverSummary K)} {steps : List (RouteStep K)}
    {step : RouteStep K} {p : Port} :
    (Writes solvers step p → (replay solvers (steps ++ [step]))[p]? = some steps.length) ∧
      (¬ Writes solvers step p →
        (replay solvers (steps ++ [step]))[p]? = (replay solvers steps)[p]?) := by
  have e : replay solvers (steps ++ [step])
      = bindOutputs solvers (replay solvers steps) (step, steps.length) := by
    simp [replay, List.zipIdx_append]
  rw [e, Writes, bindOutputs]
  rcases hs : solverOf solvers step with - | s
  · simp
  · simp only [Option.some.injEq, exists_eq_left', OrdMap.getElem?_foldl_insert]
    exact ⟨fun hp => if_pos hp, fun hp => if_neg hp⟩

/-- The replay finds the last step that writes the port. -/
theorem replay_eq_some {solvers : List (SolverSummary K)} {steps : List (RouteStep K)} {p : Port}
    {m : ℕ} : (replay solvers steps)[p]? = some m ↔
      (∃ step, steps[m]? = some step ∧ Writes solvers step p) ∧
        ∀ m' step, m < m' → steps[m']? = some step → ¬ Writes solvers step p := by
  induction steps using List.reverseRecOn with
  | nil => simp [replay]
  | append_singleton steps step ih =>
      -- the added step is the last one that writes the port, or does not write it
      by_cases hw : Writes solvers step p
      · rw [replay_concat.1 hw, Option.some.injEq]
        constructor
        · rintro rfl
          refine ⟨⟨step, by simp, hw⟩, fun m' step' hlt hs => ?_⟩
          rw [List.getElem?_eq_none (by simp; omega)] at hs
          cases hs
        · rintro ⟨⟨step', hs, -⟩, hlast⟩
          by_contra hne
          have hm : m < (steps ++ [step]).length := (List.getElem?_eq_some_iff.mp hs).1
          rw [List.length_append, List.length_singleton] at hm
          exact hlast steps.length step (by omega) (by simp) hw
      · rw [replay_concat.2 hw, ih]
        constructor
        · rintro ⟨⟨step', hs, hw'⟩, hlast⟩
          have hm := (List.getElem?_eq_some_iff.mp hs).1
          refine ⟨⟨step', by rw [List.getElem?_append_left hm, hs], hw'⟩, fun m' s hlt hs' => ?_⟩
          rcases lt_or_ge m' steps.length with hm' | hm'
          · rw [List.getElem?_append_left hm'] at hs'
            exact hlast m' s hlt hs'
          · rw [List.getElem?_append_right hm', List.getElem?_singleton] at hs'
            split at hs'
            · cases hs'
              exact hw
            · cases hs'
        · rintro ⟨⟨step', hs, hw'⟩, hlast⟩
          rcases lt_or_ge m steps.length with hm | hm
          · rw [List.getElem?_append_left hm] at hs
            refine ⟨⟨step', hs, hw'⟩, fun m' s hlt hs' => hlast m' s hlt ?_⟩
            rw [List.getElem?_append_left (List.getElem?_eq_some_iff.mp hs').1, hs']
          · rw [List.getElem?_append_right hm, List.getElem?_singleton] at hs
            split at hs
            · cases hs
              exact absurd hw' hw
            · cases hs

theorem replay_eq_none {solvers : List (SolverSummary K)} {steps : List (RouteStep K)} {p : Port} :
    (replay solvers steps)[p]? = none ↔ ∀ step ∈ steps, ¬ Writes solvers step p := by
  induction steps using List.reverseRecOn with
  | nil => simp [replay]
  | append_singleton steps step ih =>
      by_cases hw : Writes solvers step p
      · rw [replay_concat.1 hw]
        simp [hw]
      · rw [replay_concat.2 hw, ih]
        simp [or_imp, forall_and, hw]

/-! ### The steps of a found route -/

section Found

variable [ToBits K] {rq : PlanRequest K} {f : Found K}

/-- The walk of a found derivation. -/
def Found.order (f : Found K) : List ℕ := walkFrom f.nodes f.winner

theorem Searches.stepOrder (h : Searches rq (.ok f)) : StepOrder f.nodes f.order := by
  obtain ⟨hnodes, hsrc⟩ := h.arena
  rcases hw : f.winner.node with - | ptr
  · rw [Found.order, walkFrom, hw]
    exact .nil
  · rw [Sourced, hw] at hsrc
    exact (walkFrom_spec (acyclic_of_nodeOk hnodes) hw hsrc.1).1

/-- The `k`-th step of the route is the `k`-th node of the walk. -/
theorem Searches.getElem?_steps (h : Searches rq (.ok f)) (k : ℕ) :
    (buildRoute rq.target f).steps[k]? = f.order[k]?.bind fun i => f.nodes[i]?.map routeStep := by
  have hsome : ∀ i ∈ f.order, ∃ node, f.nodes[i]? = some node := fun i hi =>
    ⟨_, List.getElem?_eq_getElem (h.stepOrder.valid i hi)⟩
  have key : ∀ (l : List ℕ), (∀ i ∈ l, ∃ node, f.nodes[i]? = some node) → ∀ k : ℕ,
      (l.filterMap fun i => f.nodes[i]?.map routeStep)[k]?
        = l[k]?.bind fun i => f.nodes[i]?.map routeStep := by
    intro l
    induction l with
    | nil => simp
    | cons i l ih =>
        intro hl k
        obtain ⟨node, hnode⟩ := hl i List.mem_cons_self
        have e : f.nodes[i]?.map routeStep = some (routeStep node) := by rw [hnode]; rfl
        rw [List.filterMap_cons_some (f := fun i => f.nodes[i]?.map routeStep) e]
        cases k with
        | zero => simp [e]
        | succ k =>
            rw [List.getElem?_cons_succ, List.getElem?_cons_succ]
            exact ih (fun j hj => hl j (List.mem_cons_of_mem _ hj)) k
  exact key _ hsome k

/-- A step writes exactly the outputs of its node. -/
theorem Searches.writes_iff (hids : (rq.solvers.map SolverSummary.solverId).Nodup)
    (h : Searches rq (.ok f)) {i : ℕ} {node : StepNode K} (hnode : f.nodes[i]? = some node)
    {p : Port} : Writes rq.solvers (routeStep node) p ↔ p ∈ node.outputs := by
  obtain ⟨v, hv⟩ := (h.arena.1 i node hnode).applies
  have hfind : solverOf rq.solvers (routeStep node) = some v := by
    rw [solverOf, List.find?_eq_some_iff_append]
    refine ⟨by simp [routeStep, hv.solverId], ?_⟩
    obtain ⟨as, bs, hab⟩ := List.append_of_mem hv.mem
    refine ⟨as, bs, hab, fun a ha => ?_⟩
    rw [hab, List.map_append, List.map_cons, List.nodup_append] at hids
    have hne := hids.2.2 a.solverId (List.mem_map_of_mem ha) v.solverId List.mem_cons_self
    simpa [routeStep, hv.solverId] using hne
  rw [Writes, hfind, hv.outputs]
  simp

/-! ### Fidelity -/

/-- Replaying the route gives every step, at each of its input ports, the
producer that the derivation chose for it. -/
def ReplaysFaithfully (rq : PlanRequest K) (f : Found K) : Prop :=
  ∀ k i node, f.order[k]? = some i → f.nodes[i]? = some node →
    ∀ (p : Port) (l : Label K), node.inputs[p]? = some l →
      (replay rq.solvers ((buildRoute rq.target f).steps.take k))[p]?
        = l.node.map fun c => f.order.idxOf c

/-- No step of the walk stands before a consumer, and after the producer
chosen for one of its input ports, and outputs that port. -/
def NotOverwritten (f : Found K) : Prop :=
  ∀ k i node, f.order[k]? = some i → f.nodes[i]? = some node →
    ∀ (p : Port) (l : Label K), node.inputs[p]? = some l →
      ∀ m j node', m < k → (∀ c, l.node = some c → f.order.idxOf c < m) →
        f.order[m]? = some j → f.nodes[j]? = some node' → p ∉ node'.outputs

/-- A producer chosen for the `k`-th step comes earlier, and writes the port. -/
theorem Searches.producer_before (h : Searches rq (.ok f)) {k i c : ℕ} {node : StepNode K}
    (hk : f.order[k]? = some i) (hnode : f.nodes[i]? = some node) {p : Port} {l : Label K}
    (hl : node.inputs[p]? = some l) (hc : l.node = some c) :
    f.order.idxOf c < k ∧ f.order[f.order.idxOf c]? = some c ∧
      ∃ node', f.nodes[c]? = some node' ∧ p ∈ node'.outputs := by
  have hsrc := (h.arena.1 i node hnode).sourced p l hl
  rw [Sourced, hc] at hsrc
  have hlt := (List.getElem?_eq_some_iff.mp hk).1
  have hsplit : f.order = f.order.take k ++ i :: f.order.drop (k + 1) := by
    rw [← (List.getElem?_eq_some_iff.mp hk).2, ← List.drop_eq_getElem_cons hlt,
      List.take_append_drop]
  have hmem : c ∈ f.order.take k :=
    h.stepOrder.mem_before hsplit ⟨node, hnode, p, l, hl, hc⟩
  have hidx : f.order.idxOf c = (f.order.take k).idxOf c := by
    conv_lhs => rw [hsplit]
    exact List.idxOf_append_of_mem hmem
  have hlt' := List.idxOf_lt_length_of_mem hmem
  rw [List.length_take] at hlt'
  refine ⟨by omega, ?_, hsrc.2⟩
  rw [List.getElem?_eq_getElem (List.idxOf_lt_length_of_mem (List.mem_of_mem_take hmem)),
    List.getElem_idxOf]

theorem mem_take_iff {α : Type*} {l : List α} {k m : ℕ} {x : α} :
    (l.take k)[m]? = some x ↔ m < k ∧ l[m]? = some x := by
  rw [List.getElem?_take]
  split <;> simp_all

/-- The replay of a found route agrees with its derivation when and only when
no chosen producer is overwritten before its consumer. -/
theorem replaysFaithfully_iff (hids : (rq.solvers.map SolverSummary.solverId).Nodup)
    (h : Searches rq (.ok f)) : ReplaysFaithfully rq f ↔ NotOverwritten f := by
  have hstep : ∀ (m j : ℕ) (node' : StepNode K), f.order[m]? = some j → f.nodes[j]? = some node' →
      (buildRoute rq.target f).steps[m]? = some (routeStep node') := by
    intro m j node' hm hnode'
    rw [h.getElem?_steps, hm, Option.bind_some, hnode']
    rfl
  constructor
  · intro hfaith k i node hk hnode p l hl m j node' hmk hafter hm hnode' hp
    have hbind := hfaith k i node hk hnode p l hl
    have hwrites := (h.writes_iff hids hnode').mpr hp
    have htake : ((buildRoute rq.target f).steps.take k)[m]? = some (routeStep node') :=
      mem_take_iff.mpr ⟨hmk, hstep m j node' hm hnode'⟩
    rcases hc : l.node with - | c
    · rw [hc, Option.map_none, replay_eq_none] at hbind
      exact hbind _ (List.mem_of_getElem? htake) hwrites
    · rw [hc, Option.map_some, replay_eq_some] at hbind
      exact hbind.2 m _ (hafter c hc) htake hwrites
  · intro hover k i node hk hnode p l hl
    -- a later write before the consumer would be an overwrite
    have hlate : ∀ m step, (∀ c, l.node = some c → f.order.idxOf c < m) →
        ((buildRoute rq.target f).steps.take k)[m]? = some step →
          ¬ Writes rq.solvers step p := by
      intro m step hafter hm hw
      obtain ⟨hmk, hm⟩ := mem_take_iff.mp hm
      rw [h.getElem?_steps, Option.bind_eq_some_iff] at hm
      obtain ⟨j, hj, he⟩ := hm
      obtain ⟨node', hnode', rfl⟩ := Option.map_eq_some_iff.mp he
      exact hover k i node hk hnode p l hl m j node' hmk hafter hj hnode'
        ((h.writes_iff hids hnode').mp hw)
    rcases hc : l.node with - | c
    · rw [Option.map_none, replay_eq_none]
      intro step hmem
      obtain ⟨m, hm⟩ := List.getElem?_of_mem hmem
      exact hlate m step (fun c hc' => by rw [hc] at hc'; cases hc') hm
    · obtain ⟨hlt, hidx, node', hnode', hp⟩ := h.producer_before hk hnode hl hc
      rw [Option.map_some, replay_eq_some]
      refine ⟨⟨_, mem_take_iff.mpr ⟨hlt, hstep _ _ node' hidx hnode'⟩,
        (h.writes_iff hids hnode').mpr hp⟩, fun m' step hm' => hlate m' step fun c' hc' => ?_⟩
      rw [hc] at hc'
      cases hc'
      exact hm'

/-- **Replay fidelity**, exactly: a planned route has no steps to replay, or it
is built from a found derivation, which its replay follows when and only when
no chosen producer is overwritten before its consumer. -/
theorem plan_replay_iff (hids : (rq.solvers.map SolverSummary.solverId).Nodup) {route : Route K}
    (h : Plans rq (.ok route)) :
    (rq.target ∈ rq.known ∧ route.steps = []) ∨
      ∃ f, Searches rq (.ok f) ∧ route = buildRoute rq.target f ∧
        (ReplaysFaithfully rq f ↔ NotOverwritten f) := by
  rcases plans_ok_cases h with ⟨hknown, rfl⟩ | ⟨-, f, hf, rfl⟩
  · exact Or.inl ⟨hknown, rfl⟩
  · exact Or.inr ⟨f, hf, rfl, replaysFaithfully_iff hids hf⟩

end Found

/-- `F` needs the narrow `m` of `B`, while `G` makes do with the cheap one of
`A`. -/
def crossRequest : PlanRequest ℚ :=
  plainRequest
    [plainSolver "A" ["x"] [("m", 5)] 1 .both, plainSolver "B" ["x"] [("m", 0)] 3 .both,
      { plainSolver "F" ["m", "q"] [("t", 0)] 1 .both with
        domain := ⟨OrdMap.ofFn ["m"] fun _ => ⟨-1, 1⟩, ∅⟩ },
      plainSolver "G" ["m"] [("q", 0)] 1 .both]
    [("x", 0)] "t" 10 .both

/-- The search of a request, when at most `fuel` iterations find a route. -/
def foundWithin (fuel : ℕ) (rq : PlanRequest ℚ) : Option (Found ℚ) :=
  match Loop.iter (searchStep rq) fuel (initState rq) with
  | .inl (.ok f) => some f
  | _ => none

theorem searches_of_foundWithin {fuel : ℕ} {rq : PlanRequest ℚ} {f : Found ℚ}
    (h : foundWithin fuel rq = some f) : Searches rq (.ok f) := by
  refine ⟨fuel, ?_⟩
  unfold foundWithin at h
  split at h
  · rw [‹Loop.iter _ _ _ = _›, Option.some.inj h]
  · cases h

/-- What the search of `crossRequest` finds: the steps `B`, `A`, `G`, `F`. -/
def crossFound : Found ℚ := (foundWithin 10 crossRequest).get (by decide +kernel)

/-- The derivation gives `F` the `m` of `B`; the replay gives it the `m` of
`A`, which `A` wrote for `G` in between. -/
theorem crossRequest_replay :
    (crossRequest.solvers.map SolverSummary.solverId).Nodup ∧
      Searches crossRequest (.ok crossFound) ∧ ¬ ReplaysFaithfully crossRequest crossFound := by
  refine ⟨by decide +kernel, searches_of_foundWithin (Option.some_get _).symm, fun h => ?_⟩
  have hk : crossFound.order[3]? = some 4 := by decide +kernel
  obtain ⟨node, hnode⟩ : ∃ node, crossFound.nodes[4]? = some node :=
    Option.isSome_iff_exists.mp (by decide +kernel)
  have hchosen : (crossFound.nodes[4]?.bind fun n => n.inputs["m"]?).map Label.node
      = some (some 2) := by decide +kernel
  rw [hnode, Option.bind_some, Option.map_eq_some_iff] at hchosen
  obtain ⟨l, hl, hc⟩ := hchosen
  have hreplay := h 3 4 node hk hnode "m" l hl
  rw [hc] at hreplay
  revert hreplay
  decide +kernel

theorem plan_replay_iff_cross :
    (crossRequest.target ∈ crossRequest.known ∧ (buildRoute "t" crossFound).steps = []) ∨
      ∃ f, Searches crossRequest (.ok f) ∧ buildRoute "t" crossFound = buildRoute "t" f ∧
        (ReplaysFaithfully crossRequest f ↔ NotOverwritten f) :=
  plan_replay_iff (by decide +kernel) ((plans_iff_searches (by decide +kernel)).mpr
    ⟨_, searches_of_foundWithin (Option.some_get _).symm, rfl⟩)

end Feldspar

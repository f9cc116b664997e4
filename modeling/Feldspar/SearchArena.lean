/-
Feldspar/SearchArena.lean

The arena of committed steps and the route read off it.

`ArenaInv` says what every node of the arena is: an admitted application of a
solver of the request, whose input labels come from older nodes or are known
ports.  So the arena is acyclic, and `walkRoute` is a post-order walk of it:
`walkFrom_spec` says that the walk from a label lists every step after the
steps it consumes, each once, and that every step but the last is consumed by
another.
-/
import Feldspar.SearchInvariant

set_option linter.unusedSectionVars false

namespace Feldspar

variable {K : Type} [Arith K] [LinearOrder K]

/-! ### The arena -/

/-- Where the label `l` of port `p` comes from: the known value of `p`, or an
output of a node older than `bound`. -/
def Sourced (rq : PlanRequest K) (nodes : List (StepNode K)) (bound : ℕ) (p : Port)
    (l : Label K) : Prop :=
  match l.node with
  | none => rq.known[p]? = some l.interval ∧ l.eps = 0
  | some j => j < bound ∧ ∃ node, nodes[j]? = some node ∧ p ∈ node.outputs

/-- `node` is an admitted application of `v`. -/
structure Applies (rq : PlanRequest K) (v : SolverSummary K) (node : StepNode K) : Prop where
  mem : v ∈ rq.solvers
  filter : passesFilter rq v
  solverId : node.solverId = v.solverId
  inputs : ∀ p, p ∈ node.inputs ↔ p ∈ v.inputs
  outputs : ∀ p, p ∈ node.outputs ↔ p ∈ v.outputs
  admits : Admits rq v node.inputs

structure NodeOk (rq : PlanRequest K) (nodes : List (StepNode K)) (i : ℕ) (node : StepNode K) :
    Prop where
  applies : ∃ v, Applies rq v node
  sourced : ∀ p l, node.inputs[p]? = some l → Sourced rq nodes i p l

/-- The invariant of the arena. -/
structure ArenaInv (rq : PlanRequest K) (s : SearchState rq.solvers) : Prop where
  nodes : ∀ i node, s.nodes[i]? = some node → NodeOk rq s.nodes i node
  labels : ∀ p, ∀ l ∈ s.labels.at p, Sourced rq s.nodes s.nodes.length p l
  filter : ∀ c ∈ s.frontier, passesFilter rq c.solver
  ports : ∀ c ∈ s.frontier, ∀ p, p ∈ c.inputs ↔ p ∈ c.solver.inputs
  sourced : ∀ c ∈ s.frontier, ∀ p l, c.inputs[p]? = some l →
    Sourced rq s.nodes s.nodes.length p l

theorem Sourced.append {rq : PlanRequest K} {nodes : List (StepNode K)} {bound bound' : ℕ}
    {p : Port} {l : Label K} (h : Sourced rq nodes bound p l) (hb : bound ≤ bound')
    (new : List (StepNode K)) : Sourced rq (nodes ++ new) bound' p l := by
  unfold Sourced at h ⊢
  split
  · rename_i hl
    rw [hl] at h
    exact h
  · rename_i j hl
    rw [hl] at h
    obtain ⟨hj, node, hnode, hp⟩ := h
    refine ⟨hj.trans_le hb, node, ?_, hp⟩
    rw [List.getElem?_append_left (List.getElem?_eq_some_iff.mp hnode).1, hnode]

theorem NodeOk.append {rq : PlanRequest K} {nodes : List (StepNode K)} {i : ℕ}
    {node : StepNode K} (h : NodeOk rq nodes i node) (new : List (StepNode K)) :
    NodeOk rq (nodes ++ new) i node :=
  ⟨h.applies, fun p l hl => (h.sourced p l hl).append le_rfl new⟩

theorem mem_estimateOutputs {s : SolverSummary K} {inputs : PortMap (Interval K)} {p : Port} :
    p ∈ estimateOutputs s inputs ↔ p ∈ s.outputs := by
  simp [estimateOutputs, OrdMap.mem_iff_exists, OrdMap.getElem?_ofFn_eq_some]

section Step

variable [ToBits K] {rq : PlanRequest K}

theorem ArenaInv.regenerate {s : SearchState rq.solvers} (h : ArenaInv rq s) :
    ArenaInv rq (regenerateCandidates rq s) := by
  obtain ⟨new, hp⟩ := regenerateCandidates_spec s
  have hnew : ∀ c ∈ new, passesFilter rq c.solver ∧
      (∀ p, p ∈ c.inputs ↔ p ∈ c.solver.inputs) ∧
      ∀ p l, c.inputs[p]? = some l → l ∈ s.labels.at p := by
    intro c hc
    obtain ⟨pr, hpr, rfl⟩ := hp.proposed hc
    exact mem_proposals.mp hpr
  refine ⟨?_, ?_, fun c hc => ?_, fun c hc => ?_, fun c hc => ?_⟩
  · rw [hp.nodes]; exact h.nodes
  · rw [hp.nodes, hp.labels]; exact h.labels
  · rw [hp.frontier, List.mem_append] at hc
    exact hc.elim (h.filter c) fun hc => (hnew c hc).1
  · rw [hp.frontier, List.mem_append] at hc
    exact hc.elim (h.ports c) fun hc => (hnew c hc).2.1
  · rw [hp.nodes]
    rw [hp.frontier, List.mem_append] at hc
    refine hc.elim (h.sourced c) fun hc p l hl => ?_
    exact h.labels p l ((hnew c hc).2.2 p l hl)

/-- Dropping candidates keeps the arena. -/
theorem ArenaInv.subset {s : SearchState rq.solvers} (h : ArenaInv rq s)
    {rest : List (Candidate rq.solvers)} (hsub : ∀ c ∈ rest, c ∈ s.frontier) :
    ArenaInv rq { s with frontier := rest } :=
  ⟨h.nodes, h.labels, fun c hc => h.filter c (hsub c hc), fun c hc => h.ports c (hsub c hc),
    fun c hc => h.sourced c (hsub c hc)⟩

/-- Expanding an admitted candidate appends its application. -/
theorem ArenaInv.expand {s : SearchState rq.solvers} (h : ArenaInv rq s)
    {c : Candidate rq.solvers} {rest : List (Candidate rq.solvers)} (hc : c ∈ s.frontier)
    (hsub : ∀ c ∈ rest, c ∈ s.frontier) (hd : Admits rq c.solver c.inputs) :
    ArenaInv rq (expand s c rest).1 := by
  have hcommit := commitOutputs_spec s.labels (stepNode c).outputs c.cost s.nodes.length
  have hnodes : (Feldspar.expand s c rest).1.nodes = s.nodes ++ [stepNode c] := rfl
  have hlen : (s.nodes ++ [stepNode c]).length = s.nodes.length + 1 := by simp
  refine ⟨fun i node hi => ?_, fun p l hl => ?_, fun c' hc' => h.filter c' (hsub c' hc'),
    fun c' hc' => h.ports c' (hsub c' hc'), fun c' hc' p l hl => ?_⟩
  · rw [hnodes] at hi ⊢
    rcases lt_or_ge i s.nodes.length with hlt | hge
    · rw [List.getElem?_append_left hlt] at hi
      exact (h.nodes i node hi).append _
    · rw [List.getElem?_append_right hge, List.getElem?_singleton] at hi
      split at hi
      · cases hi
        have hi : i = s.nodes.length := by omega
        subst hi
        refine ⟨⟨c.solver, List.get_mem _ _, h.filter c hc, rfl, h.ports c hc,
          fun p => mem_estimateOutputs, hd⟩, fun p l hl => ?_⟩
        exact (h.sourced c hc p l hl).append le_rfl _
      · cases hi
  · rw [hnodes, hlen]
    rcases hcommit.origin p l hl with hl | ⟨e, he, rfl, -⟩
    · exact (h.labels p l hl).append (Nat.le_succ _) _
    · refine ⟨Nat.lt_succ_self _, stepNode c, by simp, ?_⟩
      exact OrdMap.mem_iff_exists.mpr ⟨e, Std.ExtTreeMap.mem_toList_iff_getElem?_eq_some.mp he⟩
  · rw [hnodes, hlen]
    exact (h.sourced c' (hsub c' hc') p l hl).append (Nat.le_succ _) _

theorem mem_rest_of_popMin {frontier rest : List (Candidate rq.solvers)}
    {c c' : Candidate rq.solvers}
    (hpop : Pareto.popMin Candidate.order frontier = some (c, rest)) (hc' : c' ∈ rest) :
    c' ∈ frontier :=
  (Pareto.popMin_perm hpop).mem_iff.mpr (List.mem_cons_of_mem _ hc')

theorem mem_of_popMin {frontier rest : List (Candidate rq.solvers)} {c : Candidate rq.solvers}
    (hpop : Pareto.popMin Candidate.order frontier = some (c, rest)) : c ∈ frontier :=
  (Pareto.popMin_perm hpop).mem_iff.mpr List.mem_cons_self

theorem ArenaInv.step {s s' : SearchState rq.solvers} (h : ArenaInv rq s)
    (hs : searchStep rq s = .inr s') : ArenaInv rq s' := by
  have hcase := searchStep_cases s
  rw [hs] at hcase
  have h₁ := h.regenerate
  cases hcase with
  | rejected hpop hd => exact h₁.subset fun c' hc' => mem_rest_of_popMin hpop hc'
  | expanded hpop hd hw =>
      exact h₁.expand (mem_of_popMin hpop) (fun c' hc' => mem_rest_of_popMin hpop hc') hd

theorem arenaInv_init : ArenaInv rq (initState rq) := by
  refine ⟨by simp [initState], fun p l hl => ?_, by simp [initState], by simp [initState],
    by simp [initState]⟩
  rcases hp : rq.known[p]? with - | iv
  · simp [initState, Labels.at, hp] at hl
  · simp only [initState, Labels.at, Std.ExtTreeMap.getElem?_map, hp, Option.map_some,
      Option.getD_some, List.mem_singleton] at hl
    subst hl
    exact ⟨hp, rfl⟩

/-- The arena of a found route is well formed, and the winner lives in it. -/
theorem Searches.arena {f : Found K} (h : Searches rq (.ok f)) :
    (∀ i node, f.nodes[i]? = some node → NodeOk rq f.nodes i node) ∧
      Sourced rq f.nodes f.nodes.length rq.target f.winner := by
  obtain ⟨s, hinv, hret⟩ := Loop.Returns.exists_last (I := ArenaInv rq)
    (fun _ _ hi hstep => hi.step hstep) h arenaInv_init
  have hcase := searchStep_cases s
  rw [hret] at hcase
  cases hcase with
  | won hpop hd hw =>
      have h₁ := hinv.regenerate.expand (mem_of_popMin hpop)
        (fun c' hc' => mem_rest_of_popMin hpop hc') hd
      exact ⟨h₁.nodes, h₁.labels _ _ (winner_eq_some hw).1⟩

end Step

/-! ### The walk -/

/-- The step `j` consumes an output of the step `i`. -/
def Consumes (nodes : List (StepNode K)) (j i : ℕ) : Prop :=
  ∃ node, nodes[j]? = some node ∧
    ∃ (p : Port) (l : Label K), node.inputs[p]? = some l ∧ l.node = some i

/-- Every step consumes older steps only. -/
def Acyclic (nodes : List (StepNode K)) : Prop := ∀ j i, Consumes nodes j i → i < j

/-- Every step is listed once, after the steps it consumes. -/
inductive StepOrder (nodes : List (StepNode K)) : List ℕ → Prop
  | nil : StepOrder nodes []
  | snoc {steps : List ℕ} {i : ℕ} : StepOrder nodes steps → i ∉ steps → i < nodes.length →
      (∀ j, Consumes nodes i j → j ∈ steps) → StepOrder nodes (steps ++ [i])

theorem StepOrder.valid {nodes : List (StepNode K)} {steps : List ℕ}
    (h : StepOrder nodes steps) : ∀ i ∈ steps, i < nodes.length := by
  induction h with
  | nil => simp
  | snoc _ _ hlt _ ih =>
      intro j hj
      rcases List.mem_append.mp hj with hj | hj
      · exact ih j hj
      · rw [List.mem_singleton.mp hj]
        exact hlt

theorem StepOrder.nodup {nodes : List (StepNode K)} {steps : List ℕ}
    (h : StepOrder nodes steps) : steps.Nodup := by
  induction h with
  | nil => exact List.nodup_nil
  | snoc _ hni _ _ ih =>
      refine List.nodup_append.mpr ⟨ih, List.nodup_singleton _, ?_⟩
      rintro a ha b hb rfl
      exact hni (List.mem_singleton.mp hb ▸ ha)

/-- A step comes after those it consumes. -/
theorem StepOrder.mem_before {nodes : List (StepNode K)} {steps : List ℕ}
    (h : StepOrder nodes steps) : ∀ {before after : List ℕ} {i j : ℕ},
      steps = before ++ i :: after → Consumes nodes i j → j ∈ before := by
  induction h with
  | nil => simp
  | @snoc steps k _ _ _ hk ih =>
      intro before after i j he hc
      rcases List.eq_nil_or_concat after with rfl | ⟨after, x, rfl⟩
      · obtain ⟨rfl, hi⟩ := List.append_inj' he rfl
        cases hi
        exact hk j hc
      · rw [List.concat_eq_append, ← List.cons_append, ← List.append_assoc] at he
        exact ih (List.append_inj' he rfl).1 hc

/-- The steps entered but not listed are at least `bound`. -/
def Settled (bound : ℕ) (acc : List ℕ × List ℕ) : Prop :=
  (∀ i ∈ acc.1, i ∈ acc.2 ∨ bound ≤ i) ∧ ∀ i ∈ acc.2, i ∈ acc.1

/-- A walk from `roots` leads from `acc` to `acc'`, listing `new`: the roots
not listed before, and steps that others of `new` consume. -/
structure Walked (nodes : List (StepNode K)) (roots : List ℕ) (acc acc' : List ℕ × List ℕ)
    (new : List ℕ) : Prop where
  order : StepOrder nodes acc'.2
  steps : acc'.2 = acc.2 ++ new
  reached : ∀ i ∈ roots, i ∈ acc'.2
  linked : ∀ i ∈ new, i ∈ roots ∨ ∃ j ∈ new, Consumes nodes j i
  below : ∀ i ∈ new, ∃ r ∈ roots, i ≤ r
  keeps : ∀ i ∈ acc.1, i ∈ acc'.1
  visited : ∀ i ∈ acc'.1, i ∈ acc.1 ∨ i ∈ acc'.2
  entered : ∀ i ∈ new, i ∈ acc'.1

theorem Settled.walked {nodes : List (StepNode K)} {roots new : List ℕ} {bound : ℕ}
    {acc acc' : List ℕ × List ℕ} (h : Settled bound acc) (hw : Walked nodes roots acc acc' new) :
    Settled bound acc' := by
  constructor
  · intro i hi
    rcases hw.visited i hi with hi | hi
    · refine (h.1 i hi).imp_left fun hi => ?_
      rw [hw.steps]
      exact List.mem_append_left _ hi
    · exact Or.inl hi
  · intro i hi
    rw [hw.steps, List.mem_append] at hi
    exact hi.elim (fun hi => hw.keeps i (h.2 i hi)) (hw.entered i)

theorem Settled.mono {bound bound' : ℕ} {acc : List ℕ × List ℕ} (h : Settled bound acc)
    (hb : bound' ≤ bound) : Settled bound' acc :=
  ⟨fun i hi => (h.1 i hi).imp_right hb.trans, h.2⟩

theorem Walked.nil {nodes : List (StepNode K)} {acc : List ℕ × List ℕ}
    (h : StepOrder nodes acc.2) : Walked nodes [] acc acc [] :=
  ⟨h, by simp, by simp, by simp, by simp, fun _ h => h, fun _ h => Or.inl h, by simp⟩

/-- One walk after another. -/
theorem Walked.trans {nodes : List (StepNode K)} {roots roots' new new' : List ℕ}
    {acc acc₁ acc₂ : List ℕ × List ℕ} (h : Walked nodes roots acc acc₁ new)
    (h' : Walked nodes roots' acc₁ acc₂ new') :
    Walked nodes (roots ++ roots') acc acc₂ (new ++ new') where
  order := h'.order
  steps := by rw [h'.steps, h.steps, List.append_assoc]
  reached i hi := by
    rcases List.mem_append.mp hi with hi | hi
    · rw [h'.steps]
      exact List.mem_append_left _ (h.reached i hi)
    · exact h'.reached i hi
  linked i hi := by
    rcases List.mem_append.mp hi with hi | hi
    · exact (h.linked i hi).imp (List.mem_append_left _)
        fun ⟨j, hj, hc⟩ => ⟨j, List.mem_append_left _ hj, hc⟩
    · exact (h'.linked i hi).imp (List.mem_append_right _)
        fun ⟨j, hj, hc⟩ => ⟨j, List.mem_append_right _ hj, hc⟩
  below i hi := by
    rcases List.mem_append.mp hi with hi | hi
    · obtain ⟨r, hr, hle⟩ := h.below i hi
      exact ⟨r, List.mem_append_left _ hr, hle⟩
    · obtain ⟨r, hr, hle⟩ := h'.below i hi
      exact ⟨r, List.mem_append_right _ hr, hle⟩
  keeps i hi := h'.keeps i (h.keeps i hi)
  visited i hi := by
    rcases h'.visited i hi with hi | hi
    · refine (h.visited i hi).imp_right fun hi => ?_
      rw [h'.steps]
      exact List.mem_append_left _ hi
    · exact Or.inr hi
  entered i hi := by
    rcases List.mem_append.mp hi with hi | hi
    · exact h'.keeps i (h.entered i hi)
    · exact h'.entered i hi

/-- The children walked before a step is listed. -/
def walkChildren (nodes : List (StepNode K)) (fuel : ℕ) (acc : List ℕ × List ℕ)
    (labels : List (Label K)) : List ℕ × List ℕ :=
  labels.foldl (fun acc label =>
    match label.node with
    | none => acc
    | some child => walkRoute nodes fuel child acc) acc

theorem walkChildren_spec {nodes : List (StepNode K)} {fuel ptr : ℕ}
    (ih : ∀ (child : ℕ) (acc : List ℕ × List ℕ), child < ptr → StepOrder nodes acc.2 →
      Settled (child + 1) acc →
      ∃ new, Walked nodes [child] acc (walkRoute nodes fuel child acc) new) :
    ∀ (labels : List (Label K)) (acc : List ℕ × List ℕ),
      (∀ l ∈ labels, ∀ child, l.node = some child → child < ptr) → StepOrder nodes acc.2 →
      Settled ptr acc →
      ∃ new, Walked nodes (labels.filterMap Label.node) acc
        (walkChildren nodes fuel acc labels) new
  | [], acc, _, ho, _ => ⟨[], Walked.nil ho⟩
  | l :: labels, acc, hl, ho, hs => by
      have hrest := fun l' hl' => hl l' (List.mem_cons_of_mem _ hl')
      rcases hnode : l.node with - | child
      · have e : walkChildren nodes fuel acc (l :: labels) = walkChildren nodes fuel acc labels := by
          simp [walkChildren, hnode]
        rw [e, List.filterMap_cons_none hnode]
        exact walkChildren_spec ih labels acc hrest ho hs
      · have hlt := hl l List.mem_cons_self child hnode
        obtain ⟨new₁, h₁⟩ := ih child acc hlt ho (hs.mono hlt)
        have e : walkChildren nodes fuel acc (l :: labels)
            = walkChildren nodes fuel (walkRoute nodes fuel child acc) labels := by
          simp [walkChildren, hnode]
        obtain ⟨new₂, h₂⟩ := walkChildren_spec ih labels (walkRoute nodes fuel child acc) hrest
          h₁.order (hs.walked h₁)
        rw [e, List.filterMap_cons_some hnode]
        exact ⟨new₁ ++ new₂, h₁.trans h₂⟩

/-- What one call of the walk does: with enough fuel, from a settled state, it
lists `ptr` and all it is derived from. -/
theorem walkRoute_spec {nodes : List (StepNode K)} (hac : Acyclic nodes) :
    ∀ (fuel ptr : ℕ) (acc : List ℕ × List ℕ), ptr < fuel → ptr < nodes.length →
      StepOrder nodes acc.2 → Settled (ptr + 1) acc →
      ∃ new, Walked nodes [ptr] acc (walkRoute nodes fuel ptr acc) new ∧
        (ptr ∉ acc.1 → ∃ init, new = init ++ [ptr])
  | 0, ptr, _, hf, _, _, _ => absurd hf (Nat.not_lt_zero ptr)
  | fuel + 1, ptr, (visited, steps), hf, hlen, ho, hs => by
      by_cases hv : ptr ∈ visited
      · -- entered before: it is listed, since what is not listed is newer
        have e : walkRoute nodes (fuel + 1) ptr (visited, steps) = (visited, steps) := by
          simp [walkRoute, hv]
        have hmem : ptr ∈ steps := (hs.1 ptr hv).resolve_right (by omega)
        rw [e]
        exact ⟨[], ⟨ho, by simp, by simpa using hmem, by simp, by simp, fun _ h => h,
          fun _ h => Or.inl h, by simp⟩, fun h => absurd hv h⟩
      · obtain ⟨node, hnode⟩ : ∃ node, nodes[ptr]? = some node := ⟨_, List.getElem?_eq_getElem hlen⟩
        have hns : ptr ∉ steps := fun h => hv (hs.2 ptr h)
        have hchild : ∀ l ∈ OrdMap.vals node.inputs, ∀ child, l.node = some child →
            Consumes nodes ptr child := by
          intro l hl child hc
          obtain ⟨p, hp⟩ := OrdMap.mem_vals.mp hl
          exact ⟨node, hnode, p, l, hp, hc⟩
        -- what is entered and not yet listed is `ptr` itself and what led to it, all of it newer
        have hset : Settled ptr (ptr :: visited, steps) := by
          refine ⟨fun i hi => ?_, fun i hi => List.mem_cons_of_mem _ (hs.2 i hi)⟩
          rcases List.mem_cons.mp hi with rfl | hi
          · exact Or.inr le_rfl
          · exact (hs.1 i hi).imp_right (Nat.le_succ ptr).trans
        obtain ⟨new, hw⟩ := walkChildren_spec (fun child acc (hc : child < ptr) ho' hs' => by
            obtain ⟨new, h, -⟩ := walkRoute_spec hac fuel child acc (by omega) (by omega) ho' hs'
            exact ⟨new, h⟩) (OrdMap.vals node.inputs) (ptr :: visited, steps)
          (fun l hl child hc => hac _ _ (hchild l hl child hc)) ho hset
        have e : walkRoute nodes (fuel + 1) ptr (visited, steps)
            = ((walkChildren nodes fuel (ptr :: visited, steps) (OrdMap.vals node.inputs)).1,
              (walkChildren nodes fuel (ptr :: visited, steps) (OrdMap.vals node.inputs)).2
                ++ [ptr]) := by
          simp only [walkRoute, if_neg hv, hnode]
          rfl
        rw [e]
        revert hw
        generalize walkChildren nodes fuel (ptr :: visited, steps) (OrdMap.vals node.inputs) = acc₂
        intro hw
        have hroots : ∀ r ∈ (OrdMap.vals node.inputs).filterMap Label.node,
            Consumes nodes ptr r := by
          intro r hr
          obtain ⟨l, hl, hc⟩ := List.mem_filterMap.mp hr
          exact hchild l hl r hc
        -- the labels of `ptr` list older steps only, so nothing they are derived from lists `ptr`
        have hnew : ptr ∉ acc₂.2 := by
          rw [hw.steps, List.mem_append]
          rintro (h | h)
          · exact hns h
          · obtain ⟨r, hr, hle⟩ := hw.below ptr h
            have := hac _ _ (hroots r hr)
            omega
        refine ⟨new ++ [ptr], ⟨?_, ?_, ?_, ?_, ?_, ?_, ?_, ?_⟩, fun _ => ⟨new, rfl⟩⟩
        · refine hw.order.snoc hnew hlen fun j hj => ?_
          obtain ⟨node', hnode', p, l, hl, hc⟩ := hj
          obtain rfl : node = node' := Option.some.inj (hnode.symm.trans hnode')
          exact hw.reached j (List.mem_filterMap.mpr ⟨l, OrdMap.mem_vals.mpr ⟨p, hl⟩, hc⟩)
        · simp only [hw.steps, List.append_assoc]
        · simp
        · intro i hi
          rcases List.mem_append.mp hi with hi | hi
          · right
            rcases hw.linked i hi with hr | ⟨j, hj, hc⟩
            · exact ⟨ptr, by simp, hroots i hr⟩
            · exact ⟨j, List.mem_append_left _ hj, hc⟩
          · exact Or.inl hi
        · intro i hi
          refine ⟨ptr, by simp, ?_⟩
          rcases List.mem_append.mp hi with hi | hi
          · obtain ⟨r, hr, hle⟩ := hw.below i hi
            exact hle.trans (hac _ _ (hroots r hr)).le
          · exact (List.mem_singleton.mp hi).le
        · exact fun i hi => hw.keeps i (List.mem_cons_of_mem _ hi)
        · intro i hi
          rcases hw.visited i hi with hi | hi
          · rcases List.mem_cons.mp hi with rfl | hi
            · exact Or.inr (by simp)
            · exact Or.inl hi
          · exact Or.inr (List.mem_append_left _ hi)
        · intro i hi
          rcases List.mem_append.mp hi with hi | hi
          · exact hw.entered i hi
          · rw [List.mem_singleton.mp hi]
            exact hw.keeps ptr List.mem_cons_self

/-- **The walk from a label** lists each step of its derivation once, after the
steps it consumes; the label's producer comes last and every other step is
consumed by a listed one. -/
theorem walkFrom_spec {nodes : List (StepNode K)} (hac : Acyclic nodes) {l : Label K} {ptr : ℕ}
    (hl : l.node = some ptr) (hlen : ptr < nodes.length) :
    StepOrder nodes (walkFrom nodes l) ∧
      ∃ init, walkFrom nodes l = init ++ [ptr] ∧
        ∀ i ∈ init, ∃ j ∈ walkFrom nodes l, Consumes nodes j i := by
  obtain ⟨new, hw, hlast⟩ := walkRoute_spec hac (ptr + 1) ptr ([], []) (Nat.lt_succ_self _) hlen
    StepOrder.nil ⟨by simp, by simp⟩
  have e : walkFrom nodes l = new := by
    simp only [walkFrom, hl, hw.steps, List.nil_append]
  have hsteps : (walkRoute nodes (ptr + 1) ptr ([], [])).2 = new := by
    rw [hw.steps, List.nil_append]
  have horder := hw.order
  rw [hsteps] at horder
  obtain ⟨init, rfl⟩ := hlast (by simp)
  rw [e]
  refine ⟨horder, init, rfl, fun i hi => ?_⟩
  refine (hw.linked i (List.mem_append_left _ hi)).resolve_left fun hroot => ?_
  have hnd := horder.nodup
  rw [List.mem_singleton.mp hroot] at hi
  rw [List.nodup_append] at hnd
  exact hnd.2.2 ptr hi ptr (by simp) rfl

/-- The arena of a found route is acyclic. -/
theorem acyclic_of_nodeOk {rq : PlanRequest K} {nodes : List (StepNode K)}
    (h : ∀ i node, nodes[i]? = some node → NodeOk rq nodes i node) : Acyclic nodes := by
  rintro j i ⟨node, hnode, p, l, hl, hi⟩
  have := (h j node hnode).sourced p l hl
  rw [Sourced, hi] at this
  exact this.1

end Feldspar

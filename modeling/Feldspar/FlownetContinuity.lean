/-
Feldspar/FlownetContinuity.lean

Continuity in a solved network.

The seed balances every node with two ends of edges (`seed_continuity`): going
back through the order of finding, a node's balance is settled by the edge to
its parent, which no node found later touches.  A correction adds a multiple of
a loop, and a loop has no boundary; but it leaves the imposers out, so it keeps
the balances only if the loop has none (`balance_correctLoop`), or if there is
nothing to correct.

A correction over floats may also be by an infinity or nan: a pipe's head loss
divides by its diameter and its viscosity.  While all are by numbers, the flows
of the run are numbers, and balance like those (`hardyCross_continuity`).
-/
import Feldspar.FlownetValues
import Mathlib.Tactic.Linarith

namespace Feldspar

namespace Flownet

variable {K : Type} [Field K] [LinearOrder K]

/-! ### The seed -/

section Seed

variable [IsStrictOrderedRing K]

/-- The balance of a node with two ends of edges or more is within the tolerance. -/
def BalancedAt (tol : K) (edges : List (Edge K)) (flows : Flows K) (n : String) : Prop :=
  2 ≤ (Flow.incident (ends edges) n).length → |Flow.balance (ends edges) flows n| ≤ tol

omit [Field K] [LinearOrder K] [IsStrictOrderedRing K] in
theorem signHere_eq {edges : List (Edge K)} {g : Flow.Found String}
    (hjoins : Flow.Joins (ends edges) g) (hne : g.parent ≠ g.node) :
    (if edges[g.edge]?.map Edge.a = some g.node then -1 else 1 : ℤ)
      = Flow.coef (ends edges) g.node g.edge := by
  have hfst : (ends edges)[g.edge]?.map Prod.fst = edges[g.edge]?.map Edge.a := by
    rw [getElem?_ends, Option.map_map]
    rfl
  rw [Flow.coef_node hjoins hne, hfst]

theorem conservationTol_pos : (0 : K) ≤ conservationTol := by
  unfold conservationTol
  norm_num

/-- One node of the seed: only the edge to its parent changes, and its balance
is settled. -/
theorem seedNode_ok {tol : K} (htol : 0 ≤ tol) {edges : List (Edge K)} {flows flows' : Flows K}
    {g : Flow.Found String} (hjoins : Flow.Joins (ends edges) g) (hne : g.parent ≠ g.node)
    (h : seedNode tol edges flows g = .ok flows') :
    (∃ x, flows' = Function.update flows g.edge x) ∧ BalancedAt tol edges flows' g.node := by
  have hself := Flow.coef_node_sq (R := K) hjoins hne
  simp only [seedNode, flowAlong_eq, signHere_eq hjoins hne, Flow.along_filter_ne, Arith.abs_eq]
    at h
  set c : K := (Flow.coef (ends edges) g.node g.edge : K) with hc
  set b : K := Flow.balance (ends edges) flows g.node with hb
  split_ifs at h with hdegree hunknown hunknown hover
  · -- a dead end
    obtain rfl := (Except.ok.inj h).symm
    exact ⟨⟨_, rfl⟩, fun hn => by omega⟩
  · obtain rfl := Except.ok.inj h
    exact ⟨⟨_, (Function.update_eq_self _ _).symm⟩, fun hn => by omega⟩
  · obtain rfl := (Except.ok.inj h).symm
    refine ⟨⟨_, rfl⟩, fun _ => ?_⟩
    have hzero : b + c * (-(b - c * flows g.edge) * c - flows g.edge) = 0 := by
      linear_combination (c * flows g.edge - b) * hself
    rw [Flow.balance_update, ← hc, ← hb, hzero, abs_zero]
    exact htol
  · obtain rfl := Except.ok.inj h
    refine ⟨⟨_, (Function.update_eq_self _ _).symm⟩, fun _ => ?_⟩
    have hrequired : -(b - c * flows g.edge) * c - flows g.edge = -c * b := by
      linear_combination flows g.edge * hself
    have habs : |-c * b| = |b| := by
      have hc' : |c| = 1 := by
        rw [← sq_eq_sq₀ (abs_nonneg c) zero_le_one, sq_abs, one_pow, sq, hself]
      rw [abs_mul, abs_neg, hc', one_mul]
    rw [hrequired, habs] at hover
    exact not_lt.mp hover

/-- The nodes gone through stay balanced: none of them is an end of the edge
that a node found before them changes. -/
theorem balancedAt_nodes {tol : K} (htol : 0 ≤ tol) {edges : List (Edge K)} {root : String}
    {found : List (Flow.Found String)} (hgrown : Flow.Grown (ends edges) root found)
    {flows flows' : Flows K} (h : found.reverse.foldlM (seedNode tol edges) flows = .ok flows') :
    ∀ g ∈ found, BalancedAt tol edges flows' g.node := by
  let I : List (Flow.Found String) → Flows K → Prop := fun l s =>
    l <+: found.reverse → ∀ g ∈ l, BalancedAt tol edges s g.node
  have hI : I found.reverse flows' := by
    refine Fallible.foldlM_invariant (I := I) ?_ (fun _ g hg => absurd hg List.not_mem_nil) h
    intro l g s s' hl hs hprefix
    obtain ⟨r, hr⟩ := hprefix
    -- in the order of finding: `r`, then `g`, then those gone through
    have hsplit : found = r.reverse ++ g :: l.reverse := by
      rw [← List.reverse_reverse found, ← hr]
      simp
    obtain ⟨-, hparent, hnode, hjoins⟩ := hgrown.split hsplit
    obtain ⟨⟨x, rfl⟩, hbalanced⟩ :=
      seedNode_ok htol hjoins (Flow.parent_ne_node hparent hnode) hs
    intro g' hg'
    rcases List.mem_append.mp hg' with hg' | hg'
    · have hbefore : BalancedAt tol edges s g'.node :=
        hl ((List.prefix_append l [g]).trans ⟨r, hr⟩) g' hg'
      have hnodup := hgrown.nodup_order
      have hlater : g'.node ∉ Flow.order root (r.reverse ++ [g]) := by
        rw [hsplit, ← List.singleton_append, ← List.append_assoc, Flow.order_append] at hnodup
        exact fun hmem => List.disjoint_of_nodup_append hnodup hmem
          (List.mem_map_of_mem (List.mem_reverse.mpr hg'))
      rw [mem_order_snoc, not_or] at hlater
      intro hdegree
      rw [Flow.balance_update, Flow.coef_eq_zero hjoins (Ne.symm hlater.2)
        (fun heq => hlater.1 (heq ▸ hparent)), Int.cast_zero, zero_mul, add_zero]
      exact hbefore hdegree
    · rw [List.mem_singleton.mp hg']
      exact hbalanced
  exact fun g hg => hI (List.prefix_refl _) g (List.mem_reverse.mpr hg)

/-- **The seed balances every node.** -/
theorem seed_continuity {edges : List (Edge K)} {tree : SpanningTree} (htree : Spans edges tree)
    {flows : Flows K} (h : seedContinuityRespectingFlows edges tree = .ok flows) (n : String) :
    BalancedAt conservationTol edges flows n := by
  obtain ⟨flows', hnodes, h⟩ := Fallible.bind_eq_ok.mp h
  simp only [flowAlong_eq, Arith.abs_eq] at h
  split_ifs at h with hroot
  · cases h
  · obtain rfl := Except.ok.inj h
    by_cases hn : n ∈ Flow.order tree.root tree.found
    · rcases List.mem_cons.mp hn with rfl | hn
      · intro hdegree
        exact not_lt.mp fun htol => hroot ⟨hdegree, htol⟩
      · obtain ⟨g, hg, rfl⟩ := List.mem_map.mp hn
        exact balancedAt_nodes conservationTol_pos htree.grown hnodes g hg
    · intro hdegree
      -- no edge ends outside the tree
      have hnone : Flow.incident (ends edges) n = [] := by
        refine incidentFrom_eq_nil fun e he => ?_
        obtain ⟨i, hi⟩ := List.mem_iff_getElem?.mp he
        obtain ⟨ha, hb⟩ := htree.covers hi
        exact ⟨fun heq => hn (heq ▸ ha), fun heq => hn (heq ▸ hb)⟩
      rw [hnone] at hdegree
      exact absurd hdegree (by simp)

end Seed

/-! ### Loop corrections -/

/-- A correction adds a multiple of the loop without its imposers. -/
theorem correctLoop_eq (edges : List (Edge K)) (flows : Flows K) (dq : K) (loop : List (ℕ × ℤ)) :
    correctLoop edges flows dq loop
      = Flow.addChain flows dq (loop.filter fun p => isUnknownAt edges p.1) := by
  induction loop generalizing flows with
  | nil => rfl
  | cons p loop ih =>
      show correctLoop edges (if isUnknownAt edges p.1 then _ else flows) dq loop = _
      rw [ih]
      rw [List.filter_cons]
      split_ifs with hp
      · rfl
      · rfl

/-- A chain whose multiples change no balance. -/
def IsCycle (edges : List (Edge K)) (loop : List (ℕ × ℤ)) : Prop :=
  ∀ n, Flow.boundary (ends edges) loop n = 0

theorem balance_correctLoop {edges : List (Edge K)} {flows : Flows K} {dq : K}
    {loop : List (ℕ × ℤ)} (hcycle : IsCycle edges loop)
    (hkeeps : (∀ p ∈ loop, isUnknownAt edges p.1) ∨ dq = 0) (n : String) :
    Flow.balance (ends edges) (correctLoop edges flows dq loop) n
      = Flow.balance (ends edges) flows n := by
  rw [correctLoop_eq]
  rcases hkeeps with hunknown | rfl
  · rw [List.filter_eq_self.mpr hunknown, Flow.balance_addChain, hcycle n, Int.cast_zero,
      zero_mul, add_zero]
  · rw [Flow.addChain_zero]

omit [Field K] [LinearOrder K] in
theorem buildCycleBasis_isCycle {edges : List (Edge K)} {tree : SpanningTree}
    (htree : Spans edges tree) : ∀ loop ∈ buildCycleBasis edges tree, IsCycle edges loop := by
  intro loop hloop n
  obtain ⟨⟨e, i⟩, he, rfl⟩ := List.mem_map.mp hloop
  have hi : edges[i]? = some e :=
    List.mem_zipIdx_iff_getElem?.mp (List.mem_of_mem_filter he)
  have hends : (ends edges)[i]? = some (e.a, e.b) := by
    rw [getElem?_ends, hi]
    rfl
  obtain ⟨ha, hb⟩ := htree.covers hends
  exact Flow.boundary_fundamentalLoop htree.grown hends ha hb n

theorem loopHead_eq_zero {hyd : Hydraulics K} {edges : List (Edge K)} {flows : Flows K}
    {loop : List (ℕ × ℤ)} (h : ∀ p ∈ loop, ¬ isUnknownAt edges p.1) :
    loopHead hyd edges flows loop = (0, 0) := by
  unfold loopHead
  induction loop with
  | nil => rfl
  | cons p loop ih =>
      have hp := h p List.mem_cons_self
      have hrest := ih fun q hq => h q (List.mem_cons_of_mem _ hq)
      rcases hedge : edges[p.1]? with _ | edge
      · simpa only [List.foldl_cons, hedge] using hrest
      · have hkind : ¬ edge.kind.isUnknown := by
          rwa [isUnknownAt, hedge] at hp
        simpa only [List.foldl_cons, hedge, if_neg hkind] using hrest

/-- Exactly these corrections keep the balances: where a loop has both an
imposer and an edge of unknown flow, the unknown part alone is no cycle. -/
theorem balance_correctLoop_iff {hyd : Hydraulics K} [CharZero K] {edges : List (Edge K)}
    {tree : SpanningTree}
    (htree : Spans edges tree) {loop : List (ℕ × ℤ)} (hloop : loop ∈ buildCycleBasis edges tree)
    {flows : Flows K} (hslope : (loopHead hyd edges flows loop).2 ≠ 0) {dq : K} :
    (∀ n, Flow.balance (ends edges) (correctLoop edges flows dq loop) n
      = Flow.balance (ends edges) flows n) ↔
      (∀ p ∈ loop, isUnknownAt edges p.1) ∨ dq = 0 := by
  refine ⟨fun h => ?_, fun h n => balance_correctLoop (buildCycleBasis_isCycle htree loop hloop) h n⟩
  by_contra hnot
  obtain ⟨hmixed, hdq⟩ := not_or.mp hnot
  -- the unknown part and the imposers of the loop are both cycles
  have hunknown : ∀ n, Flow.boundary (ends edges) (loop.filter fun p => isUnknownAt edges p.1) n
      = 0 := by
    intro n
    have hn := h n
    rw [correctLoop_eq, Flow.balance_addChain, add_eq_left, mul_eq_zero, or_iff_left hdq] at hn
    exact_mod_cast hn
  have himposers : ∀ n,
      Flow.boundary (ends edges) (loop.filter fun p => !isUnknownAt edges p.1) n = 0 := by
    intro n
    have hsplit : Flow.boundary (ends edges) _ n + Flow.boundary (ends edges) _ n = _ :=
      Flow.boundary_filter (fun p => isUnknownAt edges p.1) loop n
    rwa [hunknown, zero_add, buildCycleBasis_isCycle htree loop hloop n] at hsplit
  obtain ⟨⟨e, i⟩, he, rfl⟩ := List.mem_map.mp hloop
  obtain ⟨he, hchord⟩ := List.mem_filter.mp he
  have hends : (ends edges)[i]? = some (e.a, e.b) := by
    rw [getElem?_ends, List.mem_zipIdx_iff_getElem?.mp he]
    rfl
  obtain ⟨ha, hb⟩ := htree.covers hends
  obtain ⟨rest, hrest, hedges, hnodup⟩ :=
    Flow.fundamentalLoop_spec htree.grown (of_decide_eq_true hchord) ha hb
  simp only [SpanningTree.path, hrest] at *
  -- the part without the edge outside the tree is empty
  have hempty : ∀ q : ℕ × ℤ → Bool, q (i, 1) = false →
      (∀ n, Flow.boundary (ends edges) (((i, 1) :: rest).filter q) n = 0) →
      ((i, 1) :: rest).filter q = [] := by
    intro q hq hcycle
    rw [List.filter_cons_of_neg (by rw [hq]; exact Bool.false_ne_true)] at hcycle ⊢
    refine htree.grown.chain_eq_nil ?_ (fun p hp => (hedges p (List.mem_of_mem_filter hp)).1)
      (fun p hp => (hedges p (List.mem_of_mem_filter hp)).2) hcycle
    exact (List.nodup_cons.mp hnodup).2.sublist (List.filter_sublist.map _)
  rcases hi : isUnknownAt edges i with _ | _
  · have hnone := hempty _ hi hunknown
    refine hslope (congrArg Prod.snd (loopHead_eq_zero fun p hp => ?_))
    exact List.filter_eq_nil_iff.mp hnone p hp
  · have hnone := hempty (fun p => !isUnknownAt edges p.1) (by rw [hi]; rfl) himposers
    refine hmixed fun p hp => ?_
    simpa using List.filter_eq_nil_iff.mp hnone p hp

/-! ### Runs -/

/-- What the loop is corrected by. -/
def loopCorrection {K : Type} [Arith K] (hyd : Hydraulics K) (edges : List (Edge K))
    (flows : Flows K) (loop : List (ℕ × ℤ)) : K :=
  -(loopHead hyd edges flows loop).1 / (loopHead hyd edges flows loop).2

/-- The next correction, if the state has one, is by a number and changes no
balance: its loop has no imposer, or the head losses balance already. -/
def KeepsContinuity {K : Type} [Arith K] (hyd : Hydraulics K) (edges : List (Edge K))
    (s : Iterate K) : Prop :=
  ∀ loop ∈ s.pending.head?, (loopHead hyd edges s.flows loop).2 ≠ 0 →
    Arith.isFinite (loopCorrection hyd edges s.flows loop) = true ∧
      ((∀ p ∈ loop, isUnknownAt edges p.1) ∨ (loopHead hyd edges s.flows loop).1 = 0)

/-- What a run keeps. -/
structure Corrected (edges : List (Edge K)) (start flows : Flows K)
    (pending : List (List (ℕ × ℤ))) : Prop where
  balance : ∀ n, Flow.balance (ends edges) flows n = Flow.balance (ends edges) start n
  pending : ∀ loop ∈ pending, IsCycle edges loop

theorem Corrected.correct {edges : List (Edge K)} {start flows : Flows K} {loop : List (ℕ × ℤ)}
    {rest : List (List (ℕ × ℤ))} (h : Corrected edges start flows (loop :: rest)) {dq : K}
    (hkeeps : (∀ p ∈ loop, isUnknownAt edges p.1) ∨ dq = 0) :
    Corrected edges start (correctLoop edges flows dq loop) rest where
  balance n := by rw [balance_correctLoop (h.pending loop List.mem_cons_self) hkeeps, h.balance]
  pending l hl := h.pending l (List.mem_cons_of_mem _ hl)

theorem Corrected.step {hyd : Hydraulics K} {edges : List (Edge K)}
    {loops : List (List (ℕ × ℤ))} {start : Flows K} (hloops : ∀ loop ∈ loops, IsCycle edges loop)
    {s s' : Iterate K} (hs : Corrected edges start s.flows s.pending)
    (hkeeps : KeepsContinuity hyd edges s)
    (h : hardyCrossStep hyd edges loops s = .inr s') :
    Corrected edges start s'.flows s'.pending := by
  rcases hardyCrossStep_cases h with
    ⟨loop, rest, hpending, hslope, -, hrest, hflows⟩ | ⟨-, -, -, hpending, hflows⟩
  · rw [hpending] at hs
    rw [hflows, hrest]
    refine hs.correct ((hkeeps loop (by rw [hpending]; rfl) hslope).2.imp_right fun hzero => ?_)
    rw [hzero, neg_zero, zero_div]
  · exact ⟨fun n => hflows ▸ hs.balance n, hpending ▸ hloops⟩

/-- Exactly these states keep every balance in their next iteration. -/
theorem keepsContinuity_iff [CharZero K] {hyd : Hydraulics K} {edges : List (Edge K)}
    {loops : List (List (ℕ × ℤ))} {tree : SpanningTree} (htree : Spans edges tree)
    {s s' : Iterate K} (hpending : ∀ loop ∈ s.pending, loop ∈ buildCycleBasis edges tree)
    (h : hardyCrossStep hyd edges loops s = .inr s') :
    KeepsContinuity hyd edges s ↔
      ∀ n, Flow.balance (ends edges) s'.flows n = Flow.balance (ends edges) s.flows n := by
  rcases hardyCrossStep_cases h with
    ⟨loop, rest, hloop, hslope, -, -, hflows⟩ | ⟨hnil, -, -, -, hflows⟩
  · have hmem := hpending loop (hloop ▸ List.mem_cons_self)
    rw [hflows, balance_correctLoop_iff htree hmem hslope, div_eq_zero_iff, neg_eq_zero,
      or_iff_left hslope, KeepsContinuity, hloop]
    simp [hslope]
  · rw [hflows, KeepsContinuity, hnil]
    simp

/-- The signed sum of the flows of a node's edges. -/
def nodeSum {K : Type} [Arith K] (edges : List (Edge K)) (n : String) : K :=
  flowAlong (fun i => (edges[i]?.map Edge.flow).getD 0) (Flow.incident (ends edges) n)

/-- Every node with two ends of edges or more is balanced. -/
def Continuity {K : Type} [Arith K] (edges : List (Edge K)) : Prop :=
  ∀ n, 2 ≤ (Flow.incident (ends edges) n).length → Arith.abs (nodeSum edges n) ≤ conservationTol

/-- No loop has an imposer. -/
def Unmixed (p : Seeded K) : Prop := ∀ loop ∈ p.loops, ∀ q ∈ loop, isUnknownAt p.edges q.1

instance (p : Seeded K) : Decidable (Unmixed p) :=
  inferInstanceAs (Decidable (∀ loop ∈ p.loops, ∀ q ∈ loop, isUnknownAt p.edges q.1))

theorem keepsContinuity_of_unmixed {hyd : Hydraulics K} {p : Seeded K} (h : Unmixed p)
    {s : Iterate K} (hs : Loop.Reaches (hardyCrossStep hyd p.edges p.loops) p.start s) :
    KeepsContinuity hyd p.edges s := fun loop hloop _ =>
  ⟨rfl, Or.inl (h loop (pending_of_reaches hs loop (List.mem_of_mem_head? hloop)))⟩

/-! ### Floats -/

section Floats

open FloatValue (Value)
open FloatValue.Value (fin)

variable {R : Type} [Field R] [LinearOrder R] [IsStrictOrderedRing R]

/-- The flows are numbers, which balance like those of the seed. -/
def BalancedSoFar (edges : List (Edge (Value R))) (start : Flows R) (s : Iterate (Value R)) :
    Prop :=
  ∃ f, s.flows = finFlows f ∧ Corrected (edges.map Edge.exact) start f s.pending

theorem BalancedSoFar.step {hyd : Hydraulics (Value R)} {edges : List (Edge (Value R))}
    {loops : List (List (ℕ × ℤ))} {start : Flows R}
    (hloops : ∀ loop ∈ loops, IsCycle (edges.map Edge.exact) loop) {s s' : Iterate (Value R)}
    (hs : BalancedSoFar edges start s) (hkeeps : KeepsContinuity hyd edges s)
    (h : hardyCrossStep hyd edges loops s = .inr s') : BalancedSoFar edges start s' := by
  obtain ⟨f, hf, hcorrected⟩ := hs
  rcases hardyCrossStep_cases h with
    ⟨loop, rest, hpending, hslope, -, hrest, hflows⟩ | ⟨-, -, -, hpending, hflows⟩
  · obtain ⟨hfinite, hloop⟩ := hkeeps loop (by rw [hpending]; rfl) hslope
    obtain ⟨q, hq⟩ := Value.exists_of_isFinite hfinite
    have hnext : s'.flows = correctLoop edges s.flows (loopCorrection hyd edges s.flows loop) loop :=
      hflows
    rw [hpending] at hcorrected
    refine ⟨correctLoop (edges.map Edge.exact) f q loop, ?_, ?_⟩
    · rw [hnext, hq, hf, correctLoop_fin]
    · rw [hrest]
      refine hcorrected.correct (hloop.imp (fun hunknown p hp => ?_) fun hzero => ?_)
      · rw [isUnknownAt_exact]
        exact hunknown p hp
      · refine Value.quotient_zero (w := (loopHead hyd edges s.flows loop).2) ?_
        rw [← hq, loopCorrection, hzero]
        show _ = Value.quotient (-(fin 0)) _
        rw [Value.neg_fin, neg_zero]
  · exact ⟨f, hflows.trans hf, hcorrected.balance, hpending ▸ hloops⟩

/-- The sum at a node, where the flows are numbers. -/
theorem nodeSum_withFlows (edges : List (Edge (Value R))) (f : Flows R) (n : String) :
    nodeSum (withFlows edges (finFlows f)) n = fin (Flow.balance (ends edges) f n) := by
  have hflows : flowAlong (fun i => ((withFlows edges (finFlows f))[i]?.map Edge.flow).getD 0)
      (Flow.incident (ends edges) n) = flowAlong (finFlows f) (Flow.incident (ends edges) n) := by
    unfold flowAlong
    refine congrArg _ (List.map_congr_left fun p hp => ?_)
    have hlt : p.1 < edges.length := by
      have hlt := incidentFrom_lt p hp
      rwa [Nat.zero_add, ends, List.length_map] at hlt
    beta_reduce
    rw [getElem?_withFlows, List.getElem?_eq_getElem hlt]
    rfl
  rw [nodeSum, ends_withFlows, hflows, flowAlong_fin sign_of_mem_incident (sumsFit_exact f _)]
  rfl

/-- The seed over floats is the one over numbers. -/
theorem balancedSoFar_start {py : PyText (Value R)} {payload : FlownetPayload (Value R)}
    {p : Seeded (Value R)} (hp : prepare py payload = .ok p)
    (hnumbers : ∀ e ∈ p.edges, e.flow.IsNumber) :
    (∀ loop ∈ p.loops, IsCycle (p.edges.map Edge.exact) loop) ∧
      ∃ start, BalancedSoFar p.edges start p.start ∧
        ∀ n, BalancedAt conservationTol (p.edges.map Edge.exact) start n := by
  obtain ⟨tree, htree, hloops, hseed⟩ := prepare_ok hp
  have htree' : Spans (p.edges.map Edge.exact) tree := by
    obtain ⟨hgrown, hcovers⟩ := htree
    rw [← ends_exact] at hgrown hcovers
    exact ⟨hgrown, hcovers⟩
  obtain ⟨start, hstart, hseed'⟩ : ∃ start, p.flows = finFlows start ∧
      seedContinuityRespectingFlows (p.edges.map Edge.exact) tree = .ok start := by
    have htol : (conservationTol : Value R) = fin conservationTol := Value.round_exact _
    unfold seedContinuityRespectingFlows at hseed ⊢
    rw [htol, seedWithin_fin hnumbers] at hseed
    rcases hexact : seedWithin conservationTol (p.edges.map Edge.exact) tree with e | start
    · rw [hexact] at hseed
      cases hseed
    · rw [hexact] at hseed
      exact ⟨start, (Except.ok.inj hseed).symm, rfl⟩
  have hcycles : ∀ loop ∈ p.loops, IsCycle (p.edges.map Edge.exact) loop := by
    intro loop hloop n
    rw [hloops] at hloop
    rw [ends_exact]
    exact buildCycleBasis_isCycle htree loop hloop n
  exact ⟨hcycles, start, ⟨start, hstart, fun _ => rfl, hcycles⟩, seed_continuity htree' hseed'⟩

/-- **Continuity**: where the imposers' flows are numbers, and while every
correction is by a number and none changes a loop with an imposer whose head
losses are out of balance, every state of the run is balanced, and so is the
solved network. -/
theorem hardyCross_continuity {py : PyText (Value R)} {hyd : Hydraulics (Value R)}
    {payload : FlownetPayload (Value R)} {p : Seeded (Value R)} (hp : prepare py payload = .ok p)
    (hnumbers : ∀ e ∈ p.edges, e.flow.IsNumber)
    (hkeeps : ∀ s, Loop.Reaches (hardyCrossStep hyd p.edges p.loops) p.start s →
      KeepsContinuity hyd p.edges s) :
    (∀ s, Loop.Reaches (hardyCrossStep hyd p.edges p.loops) p.start s →
      Continuity (withFlows p.edges s.flows)) ∧
    ∀ edges, HardyCrossSolve py hyd payload (.ok edges) → Continuity edges := by
  obtain ⟨hcycles, start, hstart, hseed⟩ := balancedSoFar_start hp hnumbers
  have hbalanced : ∀ s, Loop.Reaches (hardyCrossStep hyd p.edges p.loops) p.start s →
      BalancedSoFar p.edges start s := by
    intro s hs
    induction hs with
    | refl => exact hstart
    | tail hs hstep ih => exact ih.step hcycles (hkeeps _ hs) hstep
  have hreached : ∀ s, Loop.Reaches (hardyCrossStep hyd p.edges p.loops) p.start s →
      Continuity (withFlows p.edges s.flows) := by
    intro s hs n hdegree
    obtain ⟨f, hf, hcorrected⟩ := hbalanced s hs
    have htol : (conservationTol : Value R) = fin conservationTol := Value.round_exact _
    have hwithin := hseed n
    have hbalance := hcorrected.balance n
    rw [ends_withFlows] at hdegree
    rw [BalancedAt, ends_exact] at hwithin
    rw [ends_exact] at hbalance
    rw [hf, nodeSum_withFlows, hbalance, htol]
    exact Value.le_iff.mpr (hwithin hdegree)
  refine ⟨hreached, fun edges hsolve => ?_⟩
  unfold HardyCrossSolve at hsolve
  rw [hp] at hsolve
  obtain ⟨s, hs, hlast⟩ := Loop.Returns.exists_reached hsolve
  rw [hardyCrossStep_ok hlast]
  exact hreached s hs

/-- Regular edges, in loops without imposers, are corrected by numbers. -/
theorem keepsContinuity_of_regular {py : PyText (Value R)} {hyd : Hydraulics (Value R)}
    {payload : FlownetPayload (Value R)} {p : Seeded (Value R)} (hp : prepare py payload = .ok p)
    (hhyd : hyd.Regular) (hedges : ∀ e ∈ p.edges, e.Regular) (hunmixed : Unmixed p)
    {s : Iterate (Value R)}
    (hs : Loop.Reaches (hardyCrossStep hyd p.edges p.loops) p.start s) :
    KeepsContinuity hyd p.edges s := by
  obtain ⟨hcycles, start, hstart, -⟩ := balancedSoFar_start hp fun e he =>
    (hedges e he).numbers e.flow (by simp [Edge.scalars])
  have hkeeps : ∀ s, Loop.Reaches (hardyCrossStep hyd p.edges p.loops) p.start s →
      BalancedSoFar p.edges start s → KeepsContinuity hyd p.edges s := by
    intro s hs hbalanced loop hloop hslope
    obtain ⟨f, hf, -⟩ := hbalanced
    obtain ⟨hdp, hk⟩ := isNumber_loopHead hhyd hedges f loop
    rw [← hf] at hdp hk
    refine ⟨Value.isFinite_of_isNumber (Value.isNumber_div (Value.isNumber_neg hdp) hk hslope), ?_⟩
    exact Or.inl (hunmixed loop (pending_of_reaches hs loop (List.mem_of_mem_head? hloop)))
  have hbalanced : BalancedSoFar p.edges start s := by
    induction hs with
    | refl => exact hstart
    | tail hs hstep ih => exact ih.step hcycles (hkeeps _ hs ih) hstep
  exact hkeeps s hs hbalanced

end Floats

/-! ### Two networks -/

section Networks

open FloatValue (Value)

theorem regular_doublePi : (doublePi : Hydraulics (Value ℚ)).Regular where
  pi := by decide +kernel
  colebrook _ _ _ _ := FloatValue.Value.isNumber_fin 0

theorem hardyCross_continuity_parallelSegments : ∃ edges : List (Edge (Value ℚ)),
    HardyCrossSolve noText doublePi parallelSegments (.ok edges) ∧ Continuity edges := by
  have hprepared : (prepare noText (parallelSegments : FlownetPayload (Value ℚ))).toOption.any
      fun p => (∀ e ∈ p.edges, e.Regular) ∧ Unmixed p := by
    decide +kernel
  have hsolved : ((solveWithin noText doublePi (parallelSegments : FlownetPayload (Value ℚ))
      40).bind Except.toOption).isSome := by
    decide +kernel
  obtain ⟨p, hp, hregular⟩ := (Option.any_eq_true _ _).mp hprepared
  obtain ⟨hedges, hunmixed⟩ := of_decide_eq_true hregular
  obtain ⟨edges, hedges'⟩ := Option.isSome_iff_exists.mp hsolved
  obtain ⟨r, hr, hok⟩ := Option.bind_eq_some_iff.mp hedges'
  have hsolve : HardyCrossSolve noText doublePi (parallelSegments : FlownetPayload (Value ℚ))
      (.ok edges) := solveWithin_eq_some (Fallible.eq_ok_of_toOption hok ▸ hr)
  have hp' := Fallible.eq_ok_of_toOption hp
  refine ⟨edges, hsolve, (hardyCross_continuity hp' (fun e he => ?_) fun s hs => ?_).2 edges hsolve⟩
  · exact (hedges e he).numbers e.flow (by simp [Edge.scalars])
  · exact keepsContinuity_of_regular hp' regular_doublePi hedges hunmixed hs

/-- A loop of an imposer and a segment: the segment's flow dies out, the
imposer's stays. -/
def imposerInLoop : FlownetPayload (Value ℚ) :=
  { nodes := ["a", "b"]
    edges := [imposerEdge "feed" "a" "b" 1e-4, segmentEdge "return" "b" "a" 1.0] }

theorem not_continuity_imposerInLoop :
    ∃ edges, HardyCrossSolve noText doublePi imposerInLoop (.ok edges) ∧ ¬ Continuity edges := by
  have hsolved : ((solveWithin noText doublePi imposerInLoop 40).bind Except.toOption).any
      fun edges => 2 ≤ (Flow.incident (ends edges) "b").length ∧
        ¬ Arith.abs (nodeSum edges "b") ≤ conservationTol := by
    decide +kernel
  obtain ⟨edges, hedges, hbroken⟩ := (Option.any_eq_true _ _).mp hsolved
  obtain ⟨r, hr, hedges⟩ := Option.bind_eq_some_iff.mp hedges
  obtain ⟨hdegree, htol⟩ := of_decide_eq_true hbroken
  exact ⟨edges, solveWithin_eq_some (Fallible.eq_ok_of_toOption hedges ▸ hr),
    fun h => htol (h "b" hdegree)⟩

end Networks

end Flownet

end Feldspar

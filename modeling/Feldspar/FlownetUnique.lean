/-
Feldspar/FlownetUnique.lean

The flows of a network are unique (`_hardy_cross_solve`).

Two flows with the same balances differ by a flow without sources, which does
work against the residuals of the loops only (`work_eq`).  Where the drop of
every edge increases with its flow, that work is positive unless the flows are
the same.

So two runs which come to a standstill have the same flows, whichever node each
of them is rooted at, whatever its loops and wherever it started
(`standstill_unique`).  And the loops that a run has left open bound how far its
flows are from those of a network whose loops close (`flows_near`).
-/
import Feldspar.FlownetHeads

set_option linter.unusedSectionVars false

namespace Feldspar

namespace Flownet

variable {K : Type} [Field K] [LinearOrder K]

/-! ### Demands -/

/-- Two flows of a network with the same balances and the same imposers. -/
structure SameDemand (edges : List (Edge K)) (f g : Flows K) : Prop where
  balance : ∀ n, Flow.balance (ends edges) f n = Flow.balance (ends edges) g n
  imposers : ∀ i, ¬ isUnknownAt edges i → f i = g i

theorem SameDemand.symm {edges : List (Edge K)} {f g : Flows K} (h : SameDemand edges f g) :
    SameDemand edges g f :=
  ⟨fun n => (h.balance n).symm, fun i hi => (h.imposers i hi).symm⟩

theorem SameDemand.trans {edges : List (Edge K)} {f g k : Flows K} (h : SameDemand edges f g)
    (h' : SameDemand edges g k) : SameDemand edges f k :=
  ⟨fun n => (h.balance n).trans (h'.balance n), fun i hi => (h.imposers i hi).trans (h'.imposers i hi)⟩

section Seeds

variable {edges : List (Edge K)} {tree : SpanningTree} {flows flows' : Flows K}

theorem seedNode_imposers {tol : K} {g : Flow.Found String}
    (h : seedNode tol edges flows g = .ok flows')
    {i : ℕ} (hi : ¬ isUnknownAt edges i) : flows' i = flows i := by
  have hupdate : ∀ x, isUnknownAt edges g.edge → Function.update flows g.edge x i = flows i := by
    intro x hunknown
    refine Function.update_of_ne ?_ _ _
    rintro rfl
    exact hi hunknown
  unfold seedNode at h
  simp only at h
  generalize (if edges[g.edge]?.map Edge.a = some g.node then -1 else 1 : ℤ) = sign at h
  split_ifs at h with hdegree hunknown hunknown htol
  · obtain rfl := Except.ok.inj h
    exact hupdate 0 hunknown
  · obtain rfl := Except.ok.inj h
    rfl
  · obtain rfl := Except.ok.inj h
    exact hupdate _ hunknown
  · obtain rfl := Except.ok.inj h
    rfl

/-- The seed leaves the imposers what they impose. -/
theorem seed_imposers (h : seedContinuityRespectingFlows edges tree = .ok flows) {i : ℕ}
    (hi : ¬ isUnknownAt edges i) : flows i = (edges[i]?.map Edge.flow).getD 0 := by
  obtain ⟨flows', hnodes, h⟩ := Fallible.bind_eq_ok.mp h
  simp only at h
  split_ifs at h with hroot
  · cases h
  · obtain rfl := Except.ok.inj h
    refine Fallible.foldlM_invariant
      (I := fun _ s => s i = (edges[i]?.map Edge.flow).getD 0) ?_ ?_ hnodes
    · intro l g s s' hs hstep
      exact (seedNode_imposers hstep hi).trans hs
    · exact if_neg fun hchord => hi hchord.1

theorem correctLoop_imposers {dq : K} {loop : List (ℕ × ℤ)} {i : ℕ}
    (hi : ¬ isUnknownAt edges i) : correctLoop edges flows dq loop i = flows i := by
  induction loop generalizing flows with
  | nil => rfl
  | cons p loop ih =>
      show correctLoop edges (if isUnknownAt edges p.1 then _ else flows) dq loop i = _
      rw [ih]
      split_ifs with hunknown
      · refine Function.update_of_ne ?_ _ _
        rintro rfl
        exact hi hunknown
      · rfl

end Seeds

/-! ### Standstill -/

/-- An iteration has ended without a correction. -/
structure Standstill (s : Iterate K) : Prop where
  ended : s.pending = []
  still : s.maxDq = 0

/-- While an iteration has made no correction, the loops that it has gone
through close. -/
structure Swept (hyd : Hydraulics K) (edges : List (Edge K)) (loops : List (List (ℕ × ℤ)))
    (s : Iterate K) : Prop where
  nonneg : 0 ≤ s.maxDq
  gone : ∃ l, loops = l ++ s.pending ∧
    (s.maxDq = 0 → ∀ loop ∈ l, (loopHead hyd edges s.flows loop).1 = 0)

section Standstill

variable [IsStrictOrderedRing K] {hyd : Hydraulics K} {edges : List (Edge K)}
  {loops : List (List (ℕ × ℤ))} {s s' : Iterate K}

theorem correctLoop_zero (flows : Flows K) (loop : List (ℕ × ℤ)) :
    correctLoop edges flows 0 loop = flows := by
  rw [correctLoop_eq, Flow.addChain_zero]

/-- A correction by nothing is one of a loop that closes. -/
theorem Swept.step (h : Swept hyd edges loops s)
    (hstep : hardyCrossStep hyd edges loops s = .inr s') : Swept hyd edges loops s' := by
  obtain ⟨hnonneg, l, hsplit, hgone⟩ := h
  unfold hardyCrossStep at hstep
  rcases hpending : s.pending with - | ⟨loop, rest⟩
  · simp only [hpending] at hstep
    split_ifs at hstep with htol hiter
    obtain rfl := Sum.inr.inj hstep
    exact ⟨le_rfl, [], rfl, fun _ loop hloop => absurd hloop List.not_mem_nil⟩
  · simp only [hpending] at hstep
    split_ifs at hstep with hslope
    obtain rfl := Sum.inr.inj hstep
    rw [hpending, List.append_cons] at hsplit
    simp only [Arith.maxOf_eq, Arith.abs_eq]
    refine ⟨le_max_of_le_left hnonneg, l ++ [loop], hsplit, fun hmax => ?_⟩
    have hdq : -(loopHead hyd edges s.flows loop).1 / (loopHead hyd edges s.flows loop).2 = 0 :=
      abs_eq_zero.mp (le_antisymm ((le_max_right _ _).trans_eq hmax) (abs_nonneg _))
    have hhead : (loopHead hyd edges s.flows loop).1 = 0 :=
      neg_eq_zero.mp ((div_eq_zero_iff.mp hdq).resolve_right hslope)
    have hbefore : s.maxDq = 0 := le_antisymm ((le_max_left _ _).trans_eq hmax) hnonneg
    show ∀ loop' ∈ l ++ [loop], (loopHead hyd edges (correctLoop edges s.flows _ loop) loop').1 = 0
    rw [hdq, correctLoop_zero]
    intro loop' hloop'
    rcases List.mem_append.mp hloop' with hloop' | hloop'
    · exact hgone hbefore loop' hloop'
    · rw [List.mem_singleton.mp hloop']
      exact hhead

theorem Standstill.closed {p : Seeded K} {s : Iterate K} (h : Standstill s)
    (hs : Loop.Reaches (hardyCrossStep hyd p.edges p.loops) p.start s) :
    Closed hyd p.edges p.loops s.flows := by
  obtain ⟨-, l, hsplit, hgone⟩ : Swept hyd p.edges p.loops s :=
    hs.invariant (fun _ _ hswept hstep => Swept.step hswept hstep)
      ⟨le_rfl, [], rfl, fun _ loop hloop => absurd hloop List.not_mem_nil⟩
  rw [h.ended, List.append_nil] at hsplit
  subst hsplit
  exact hgone h.still

/-- A run whose loops have no imposers meets the demand that it was seeded
with. -/
theorem sameDemand_of_reaches {p : Seeded K} {tree : SpanningTree} (htree : Spans p.edges tree)
    (hloops : p.loops = buildCycleBasis p.edges tree) (hunmixed : Unmixed p) {s : Iterate K}
    (hs : Loop.Reaches (hardyCrossStep hyd p.edges p.loops) p.start s) :
    SameDemand p.edges s.flows p.flows := by
  have hcycles : ∀ loop ∈ p.loops, IsCycle p.edges loop := hloops ▸ buildCycleBasis_isCycle htree
  constructor
  · have hcorrected : Corrected p.edges p.flows s.flows s.pending := by
      induction hs with
      | refl => exact ⟨fun _ => rfl, hcycles⟩
      | tail hs hstep ih => exact ih.step hcycles (keepsContinuity_of_unmixed hunmixed hs) hstep
    exact hcorrected.balance
  · intro i hi
    refine hs.invariant (I := fun s => s.flows i = p.flows i) (fun s s' hflows hstep => ?_) rfl
    rcases hardyCrossStep_cases hstep with ⟨loop, rest, -, -, -, -, hnext⟩ | ⟨-, -, -, -, hnext⟩
    · rw [hnext, correctLoop_imposers hi, hflows]
    · rw [hnext, hflows]

end Standstill

/-! ### Work -/

section Work

variable [IsStrictOrderedRing K] {hyd : Hydraulics K} {edges : List (Edge K)}
  {tree tree' : SpanningTree} {f g : Flows K}

/-- What two flows of the same demand do against each other's drops, they do
against the residuals. -/
theorem work_eq (hyd : Hydraulics K) (tree tree' : SpanningTree) (hdemand : SameDemand edges f g) :
    ∑ i ∈ Finset.range edges.length, (f i - g i) * (drops hyd edges f i - drops hyd edges g i)
      = ∑ i ∈ Finset.range edges.length,
          (f i - g i) * (residualAt hyd edges tree f i - residualAt hyd edges tree' g i) := by
  have hbalance : ∀ n, Flow.balance (ends edges) (fun i => f i - g i) n = 0 := by
    intro n
    have hsame := hdemand.balance n
    rw [Flow.balance_eq_sum, Flow.balance_eq_sum] at hsame
    rw [Flow.balance_eq_sum, ← sub_eq_zero.mpr hsame, ← Finset.sum_sub_distrib]
    exact Finset.sum_congr rfl fun i _ => mul_sub _ _ _
  have hsplit : ∀ p q : ℕ → K,
      ∑ i ∈ Finset.range edges.length, (f i - g i) * (p i - q i)
        = ∑ i ∈ Finset.range edges.length, (f i - g i) * p i
          - ∑ i ∈ Finset.range edges.length, (f i - g i) * q i := by
    intro p q
    rw [← Finset.sum_sub_distrib]
    exact Finset.sum_congr rfl fun i _ => mul_sub _ _ _
  have hwork := Flow.sum_mul_drop tree.found (drops hyd edges f) _ hbalance
  have hwork' := Flow.sum_mul_drop tree'.found (drops hyd edges g) _ hbalance
  rw [ends, List.length_map] at hwork hwork'
  rw [hsplit, hsplit, hwork, hwork']
  rfl

/-- The residuals are those of the chords. -/
theorem abs_sum_residual_le (htree : Spans edges tree) {r D : K} (hr : 0 ≤ r)
    (hloops : ∀ loop ∈ buildCycleBasis edges tree, |(loopHead hyd edges f loop).1| ≤ r)
    {d : ℕ → K} (hD : ∀ i < edges.length, |d i| ≤ D) :
    |∑ i ∈ Finset.range edges.length, d i * residualAt hyd edges tree f i|
      ≤ (buildCycleBasis edges tree).length * (D * r) := by
  have hchords : (chords edges tree).length = (buildCycleBasis edges tree).length := by
    rw [chords_eq_map, List.length_map, buildCycleBasis, List.length_map]
  have hnodup : (chords edges tree).Nodup := List.nodup_range.filter _
  have hsum : ∑ i ∈ Finset.range edges.length, d i * residualAt hyd edges tree f i
      = ∑ i ∈ (chords edges tree).toFinset, d i * residualAt hyd edges tree f i := by
    refine (Finset.sum_subset (fun i hi => ?_) fun i hi hnot => ?_).symm
    · have hmem := (List.mem_filter.mp (List.mem_toFinset.mp hi)).1
      exact Finset.mem_range.mpr (List.mem_range.mp hmem)
    · have htree' : i ∈ tree.treeEdges := by
        by_contra hout
        refine hnot (List.mem_toFinset.mpr (List.mem_filter.mpr ⟨?_, decide_eq_true hout⟩))
        exact List.mem_range.mpr (Finset.mem_range.mp hi)
      rw [residualAt, Flow.residual_tree htree.grown htree', mul_zero]
  have hterm : ∀ i ∈ (chords edges tree).toFinset,
      |d i * residualAt hyd edges tree f i| ≤ D * r := by
    intro i hi
    have hmem := (List.mem_filter.mp (List.mem_toFinset.mp hi)).1
    rw [abs_mul]
    exact mul_le_mul (hD i (List.mem_range.mp hmem)) (abs_residualAt_le htree hr hloops i)
      (abs_nonneg _) ((abs_nonneg _).trans (hD i (List.mem_range.mp hmem)))
  rw [hsum]
  refine (Finset.abs_sum_le_sum_abs _ _).trans ((Finset.sum_le_card_nsmul _ _ _ hterm).trans_eq ?_)
  rw [List.toFinset_card_of_nodup hnodup, hchords, nsmul_eq_mul]

/-- The drop of an edge grows with its flow; imposers have none. -/
theorem drops_sub (hyd : Hydraulics K) (edges : List (Edge K)) (f g : Flows K) (i : ℕ) :
    (∃ e, edges[i]? = some e ∧ e.kind.isUnknown = true ∧
      drops hyd edges f i - drops hyd edges g i
        = (edgeDpAndK hyd e (f i)).1 - (edgeDpAndK hyd e (g i)).1) ∨
    (¬ isUnknownAt edges i ∧ drops hyd edges f i - drops hyd edges g i = 0) := by
  unfold drops isUnknownAt
  rcases edges[i]? with - | e
  · exact Or.inr ⟨Bool.false_ne_true, sub_zero 0⟩
  · by_cases hkind : e.kind.isUnknown
    · refine Or.inl ⟨e, rfl, hkind, ?_⟩
      simp only [if_pos hkind]
    · refine Or.inr ⟨hkind, ?_⟩
      simp only [if_neg hkind, sub_zero]

/-- **Flows are unique.** -/
theorem Closed.unique (htree : Spans edges tree) (htree' : Spans edges tree')
    (hdemand : SameDemand edges f g)
    (hresists : ∀ e ∈ edges, e.kind.isUnknown → Resists hyd e)
    (hf : Closed hyd edges (buildCycleBasis edges tree) f)
    (hg : Closed hyd edges (buildCycleBasis edges tree') g) : ∀ i < edges.length, f i = g i := by
  have hterm : ∀ i, 0 ≤ (f i - g i) * (drops hyd edges f i - drops hyd edges g i) ∧
      ((f i - g i) * (drops hyd edges f i - drops hyd edges g i) = 0 → f i = g i) := by
    intro i
    rcases drops_sub hyd edges f g i with
      ⟨e, he, hkind, hdrops⟩ | ⟨himposer, hdrops⟩
    · have hmono := (hresists e (List.mem_of_getElem? he) hkind).strictMono
      rw [hdrops]
      refine ⟨?_, fun hzero => ?_⟩
      · rcases le_total (f i) (g i) with hle | hle
        · exact mul_nonneg_of_nonpos_of_nonpos (sub_nonpos.mpr hle)
            (sub_nonpos.mpr (hmono.monotone hle))
        · exact mul_nonneg (sub_nonneg.mpr hle) (sub_nonneg.mpr (hmono.monotone hle))
      · rcases mul_eq_zero.mp hzero with hzero | hzero
        · exact sub_eq_zero.mp hzero
        · exact hmono.injective (sub_eq_zero.mp hzero)
    · rw [hdrops, mul_zero]
      exact ⟨le_rfl, fun _ => hdemand.imposers i himposer⟩
  have hwork := work_eq hyd tree tree' hdemand
  have hzero : ∑ i ∈ Finset.range edges.length,
      (f i - g i) * (drops hyd edges f i - drops hyd edges g i) = 0 := by
    rw [hwork]
    refine Finset.sum_eq_zero fun i _ => ?_
    rw [hf.residualAt htree, hg.residualAt htree', sub_zero, mul_zero]
  intro i hi
  exact (hterm i).2 ((Finset.sum_eq_zero_iff_of_nonneg fun i _ => (hterm i).1).mp hzero i
    (Finset.mem_range.mpr hi))

/-- **Open loops bound the flows.** -/
theorem SameDemand.near (hdemand : SameDemand edges f g) (htree : Spans edges tree)
    (htree' : Spans edges tree') {c r r' : K} (hc : 0 ≤ c) (hr : 0 ≤ r) (hr' : 0 ≤ r')
    (hstiff : ∀ e ∈ edges, e.kind.isUnknown → Stiff hyd c e)
    (hf : ∀ loop ∈ buildCycleBasis edges tree, |(loopHead hyd edges f loop).1| ≤ r)
    (hg : ∀ loop ∈ buildCycleBasis edges tree', |(loopHead hyd edges g loop).1| ≤ r') :
    ∀ i < edges.length, c * (f i - g i) ^ 2
      ≤ (buildCycleBasis edges tree).length * r + (buildCycleBasis edges tree').length * r' := by
  have hterm : ∀ i, c * |f i - g i| ^ 3
      ≤ (f i - g i) * (drops hyd edges f i - drops hyd edges g i) := by
    intro i
    rcases drops_sub hyd edges f g i with ⟨e, he, hkind, hdrops⟩ | ⟨himposer, hdrops⟩
    · rw [hdrops]
      exact hstiff e (List.mem_of_getElem? he) hkind (f i) (g i)
    · rw [hdrops, hdemand.imposers i himposer, sub_self, abs_zero]
      simp
  intro i hi
  -- the edge whose flows differ most
  obtain ⟨j, hj, hmax⟩ := Finset.exists_max_image (Finset.range edges.length)
    (fun i => |f i - g i|) ⟨i, Finset.mem_range.mpr hi⟩
  have hD : ∀ i < edges.length, |f i - g i| ≤ |f j - g j| := fun i hi =>
    hmax i (Finset.mem_range.mpr hi)
  set D := |f j - g j| with hDdef
  have hcube : c * D ^ 3 ≤ ∑ i ∈ Finset.range edges.length,
      (f i - g i) * (drops hyd edges f i - drops hyd edges g i) := by
    refine (hterm j).trans (Finset.single_le_sum
      (f := fun i => (f i - g i) * (drops hyd edges f i - drops hyd edges g i)) ?_ hj)
    exact fun i _ => (mul_nonneg hc (pow_nonneg (abs_nonneg _) 3)).trans (hterm i)
  rw [work_eq hyd tree tree' hdemand] at hcube
  have hfirst := (abs_le.mp (abs_sum_residual_le htree hr hf hD)).2
  have hsecond := (abs_le.mp (abs_sum_residual_le htree' hr' hg hD)).1
  have hsplit : ∑ i ∈ Finset.range edges.length,
      (f i - g i) * (residualAt hyd edges tree f i - residualAt hyd edges tree' g i)
      = ∑ i ∈ Finset.range edges.length, (f i - g i) * residualAt hyd edges tree f i
        - ∑ i ∈ Finset.range edges.length, (f i - g i) * residualAt hyd edges tree' g i := by
    rw [← Finset.sum_sub_distrib]
    exact Finset.sum_congr rfl fun i _ => mul_sub _ _ _
  rw [hsplit] at hcube
  have hle : (c * D ^ 2) * D ≤ ((buildCycleBasis edges tree).length * r
      + (buildCycleBasis edges tree').length * r') * D := by
    linear_combination hcube + hfirst + hsecond
  rw [← sq_abs]
  have hsq : c * |f i - g i| ^ 2 ≤ c * D ^ 2 :=
    mul_le_mul_of_nonneg_left (pow_le_pow_left₀ (abs_nonneg _) (hD i hi) 2) hc
  rcases (abs_nonneg (f j - g j)).eq_or_lt with hzero | hpos
  · refine hsq.trans ?_
    rw [← hDdef] at hzero
    rw [← hzero]
    have hbound : 0 ≤ (buildCycleBasis edges tree).length * r
        + (buildCycleBasis edges tree').length * r' := by positivity
    simpa using hbound
  · exact hsq.trans (le_of_mul_le_mul_right hle hpos)

end Work

/-! ### Two runs -/

section Runs

variable [IsStrictOrderedRing K] {py : PyText K} {hyd : Hydraulics K}
  {payload payload' : FlownetPayload K} {p p' : Seeded K} {s s' : Iterate K}

/-- Two runs over the same edges whose seeds meet the same demand; no loop of either
one has an imposer (`Unmixed`). -/
structure Alike (py : PyText K) (payload payload' : FlownetPayload K) (p p' : Seeded K) : Prop where
  edges : payload'.edges = payload.edges
  first : prepare py payload = .ok p
  second : prepare py payload' = .ok p'
  demand : ∀ n, Flow.balance (ends p.edges) p.flows n = Flow.balance (ends p'.edges) p'.flows n
  unmixed : Unmixed p
  unmixed' : Unmixed p'

theorem Alike.edges_eq (h : Alike py payload payload' p p') : p'.edges = p.edges := by
  have hbuilt := (prepare_edges h.second).1
  rw [h.edges] at hbuilt
  refine List.right_unique_forall₂' (fun edge e e' he he' => ?_) hbuilt (prepare_edges h.first).1
  exact Except.ok.inj (he.symm.trans he')

theorem Alike.sameDemand (h : Alike py payload payload' p p')
    (hs : Loop.Reaches (hardyCrossStep hyd p.edges p.loops) p.start s)
    (hs' : Loop.Reaches (hardyCrossStep hyd p'.edges p'.loops) p'.start s') :
    SameDemand p.edges s.flows s'.flows := by
  obtain ⟨tree, htree, hloops, hseed⟩ := prepare_ok h.first
  obtain ⟨tree', htree', hloops', hseed'⟩ := prepare_ok h.second
  have hrun := sameDemand_of_reaches htree hloops h.unmixed hs
  have hrun' := sameDemand_of_reaches htree' hloops' h.unmixed' hs'
  have hdemand := h.demand
  rw [h.edges_eq] at hrun' hseed' hdemand
  refine hrun.trans (SameDemand.trans ⟨hdemand, fun i hi => ?_⟩ hrun'.symm)
  rw [seed_imposers hseed hi, seed_imposers hseed' hi]

/-- **Two runs that come to a standstill have the same flows.** -/
theorem standstill_unique (h : Alike py payload payload' p p')
    (hresists : ∀ e ∈ p.edges, e.kind.isUnknown → Resists hyd e)
    (hs : Loop.Reaches (hardyCrossStep hyd p.edges p.loops) p.start s) (hstill : Standstill s)
    (hs' : Loop.Reaches (hardyCrossStep hyd p'.edges p'.loops) p'.start s')
    (hstill' : Standstill s') : withFlows p.edges s.flows = withFlows p'.edges s'.flows := by
  obtain ⟨tree, htree, hloops, -⟩ := prepare_ok h.first
  obtain ⟨tree', htree', hloops', -⟩ := prepare_ok h.second
  have hdemand : SameDemand p.edges s.flows s'.flows := h.sameDemand hs hs'
  have hclosed := hstill.closed hs
  have hclosed' := hstill'.closed hs'
  rw [hloops] at hclosed
  rw [hloops', h.edges_eq] at hclosed'
  rw [h.edges_eq] at htree' ⊢
  have hsame := hclosed.unique htree htree' hdemand hresists hclosed'
  apply List.ext_getElem?
  intro i
  rw [getElem?_withFlows, getElem?_withFlows]
  rcases he : p.edges[i]? with - | e
  · rfl
  · rw [hsame i (List.getElem?_eq_some_iff.mp he).1]

/-- **Two runs are as near as their loops are closed.** -/
theorem runs_near (h : Alike py payload payload' p p') {c r r' : K} (hc : 0 ≤ c) (hr : 0 ≤ r)
    (hr' : 0 ≤ r') (hstiff : ∀ e ∈ p.edges, e.kind.isUnknown → Stiff hyd c e)
    (hs : Loop.Reaches (hardyCrossStep hyd p.edges p.loops) p.start s)
    (hopen : ∀ loop ∈ p.loops, |(loopHead hyd p.edges s.flows loop).1| ≤ r)
    (hs' : Loop.Reaches (hardyCrossStep hyd p'.edges p'.loops) p'.start s')
    (hopen' : ∀ loop ∈ p'.loops, |(loopHead hyd p'.edges s'.flows loop).1| ≤ r') :
    ∀ i < p.edges.length,
      c * (s.flows i - s'.flows i) ^ 2 ≤ p.loops.length * r + p'.loops.length * r' := by
  obtain ⟨tree, htree, hloops, -⟩ := prepare_ok h.first
  obtain ⟨tree', htree', hloops', -⟩ := prepare_ok h.second
  have hdemand : SameDemand p.edges s.flows s'.flows := h.sameDemand hs hs'
  rw [hloops] at hopen ⊢
  rw [hloops', h.edges_eq] at hopen' ⊢
  rw [h.edges_eq] at htree'
  exact hdemand.near htree htree' hc hr hr' hstiff hopen hopen'

end Runs

/-! ### Two roots -/

section Even

/-- Two equal segments between a source and a sink, seeded with nine tenths and
one tenth of the flow. -/
def evenSegments (nodes : List String) : FlownetPayload ℚ :=
  { nodes := nodes
    edges := [imposerEdge "feed" "source" "split" (1 / 1000), segmentEdge "one" "split" "join" 1,
      segmentEdge "two" "split" "join" 1, imposerEdge "drain" "join" "sink" (1 / 1000)] }

/-- What both runs are seeded with, and that they come to a standstill in the
second iteration. -/
structure Even (p : Seeded ℚ) (s : Iterate ℚ) : Prop where
  ends : ends p.edges = [("source", "split"), ("split", "join"), ("split", "join"), ("join", "sink")]
  flows : (List.range 4).map p.flows = [1 / 1000, 9 / 10000, 1 / 10000, 1 / 1000]
  segments : ∀ e ∈ p.edges, e.kind.isUnknown →
    e.kind = .hxSegment ∧ e.diameter = 1 ∧ e.resistance = 1 ∧ e.density = 1
  unmixed : Unmixed p
  still : s.pending = [] ∧ s.maxDq = 0

instance (p : Seeded ℚ) (s : Iterate ℚ) : Decidable (Even p s) :=
  decidable_of_iff
    (Flownet.ends p.edges
        = [("source", "split"), ("split", "join"), ("split", "join"), ("join", "sink")] ∧
      (List.range 4).map p.flows = [1 / 1000, 9 / 10000, 1 / 10000, 1 / 1000] ∧
      (∀ e ∈ p.edges, e.kind.isUnknown →
        e.kind = .hxSegment ∧ e.diameter = 1 ∧ e.resistance = 1 ∧ e.density = 1) ∧
      Unmixed p ∧ s.pending = [] ∧ s.maxDq = 0)
    ⟨fun ⟨h₁, h₂, h₃, h₄, h₅⟩ => ⟨h₁, h₂, h₃, h₄, h₅⟩, fun ⟨h₁, h₂, h₃, h₄, h₅⟩ => ⟨h₁, h₂, h₃, h₄, h₅⟩⟩

/-- The run over the nodes, and its state after two corrections. -/
def evenRun (nodes : List String) : Option (Seeded ℚ × Iterate ℚ) := do
  let p ← (prepare noText (evenSegments nodes)).toOption
  let corrected ← (hardyCrossStep doublePi p.edges p.loops p.start).getRight?
  let next ← (hardyCrossStep doublePi p.edges p.loops corrected).getRight?
  let s ← (hardyCrossStep doublePi p.edges p.loops next).getRight?
  pure (p, s)

theorem exists_even (nodes : List String) (h : (evenRun nodes).any fun r => Even r.1 r.2) :
    ∃ p s, prepare noText (evenSegments nodes) = .ok p ∧
      Loop.Reaches (hardyCrossStep doublePi p.edges p.loops) p.start s ∧ Even p s := by
  obtain ⟨⟨p, s⟩, hrun, heven⟩ := (Option.any_eq_true _ _).mp h
  obtain ⟨p', hp, hrun⟩ := Option.bind_eq_some_iff.mp hrun
  obtain ⟨corrected, hcorrected, hrun⟩ := Option.bind_eq_some_iff.mp hrun
  obtain ⟨next, hnext, hrun⟩ := Option.bind_eq_some_iff.mp hrun
  obtain ⟨s', hs, hrun⟩ := Option.bind_eq_some_iff.mp hrun
  obtain ⟨rfl, rfl⟩ := Prod.mk.inj (Option.some.inj hrun)
  exact ⟨_, _, Fallible.eq_ok_of_toOption hp,
    .tail (.tail (.tail .refl (Sum.getRight?_eq_some_iff.mp hcorrected))
      (Sum.getRight?_eq_some_iff.mp hnext)) (Sum.getRight?_eq_some_iff.mp hs),
    of_decide_eq_true heven⟩

theorem Even.alike {nodes nodes' : List String} {p p' : Seeded ℚ} {s s' : Iterate ℚ}
    (h : Even p s) (h' : Even p' s') (hp : prepare noText (evenSegments nodes) = .ok p)
    (hp' : prepare noText (evenSegments nodes') = .ok p') :
    Alike noText (evenSegments nodes) (evenSegments nodes') p p' := by
  refine ⟨rfl, hp, hp', fun n => ?_, h.unmixed, h'.unmixed⟩
  rw [h.ends, h'.ends, Flow.balance_eq_sum, Flow.balance_eq_sum]
  refine Finset.sum_congr rfl fun i hi => ?_
  have hmem : i ∈ List.range 4 := List.mem_range.mpr (Finset.mem_range.mp hi)
  rw [List.map_inj_left.mp (h.flows.trans h'.flows.symm) i hmem]

theorem doublePi_pos : 0 < (doublePi : Hydraulics ℚ).pi := by decide +kernel

/-- The coefficient of each segment. -/
def evenCoefficient : ℚ := 1 * 1 / (2 * circleArea doublePi 1 ^ 2)

theorem Even.square {p : Seeded ℚ} {s : Iterate ℚ} (h : Even p s) {e : Edge ℚ} (he : e ∈ p.edges)
    (hkind : e.kind.isUnknown) : Square doublePi evenCoefficient e := by
  obtain ⟨hsegment, hdiameter, hresistance, hdensity⟩ := h.segments e he hkind
  have hsquare := square_hxSegment doublePi_pos hsegment (hdiameter ▸ one_ne_zero)
  rwa [hdiameter, hresistance, hdensity] at hsquare

theorem standstill_unique_even : ∃ (p p' : Seeded ℚ) (s s' : Iterate ℚ),
    prepare noText (evenSegments ["source", "split", "join", "sink"]) = .ok p ∧
    prepare noText (evenSegments ["sink", "join", "split", "source"]) = .ok p' ∧
    Standstill s ∧ Standstill s' ∧ withFlows p.edges s.flows = withFlows p'.edges s'.flows := by
  obtain ⟨p, s, hp, hs, heven⟩ :=
    exists_even ["source", "split", "join", "sink"] (by decide +kernel)
  obtain ⟨p', s', hp', hs', heven'⟩ :=
    exists_even ["sink", "join", "split", "source"] (by decide +kernel)
  have hstill : Standstill s := ⟨heven.still.1, heven.still.2⟩
  have hstill' : Standstill s' := ⟨heven'.still.1, heven'.still.2⟩
  exact ⟨p, p', s, s', hp, hp', hstill, hstill', standstill_unique (heven.alike heven' hp hp')
    (fun e he hkind => (heven.square he hkind).resists (by decide +kernel)) hs hstill hs' hstill'⟩

theorem runs_near_even : ∃ (p p' : Seeded ℚ) (s s' : Iterate ℚ),
    prepare noText (evenSegments ["source", "split", "join", "sink"]) = .ok p ∧
    prepare noText (evenSegments ["sink", "join", "split", "source"]) = .ok p' ∧
    ∀ i < p.edges.length, |evenCoefficient| / 2 * (s.flows i - s'.flows i) ^ 2
      ≤ p.loops.length * (1 / 1000) + p'.loops.length * (1 / 1000) := by
  obtain ⟨p, s, hp, hs, heven⟩ :=
    exists_even ["source", "split", "join", "sink"] (by decide +kernel)
  obtain ⟨p', s', hp', hs', heven'⟩ :=
    exists_even ["sink", "join", "split", "source"] (by decide +kernel)
  have hclosed := Standstill.closed (s := s) ⟨heven.still.1, heven.still.2⟩ hs
  have hclosed' := Standstill.closed (s := s') ⟨heven'.still.1, heven'.still.2⟩ hs'
  have hthousandth : (0 : ℚ) ≤ 1 / 1000 := by norm_num
  refine ⟨p, p', s, s', hp, hp', runs_near (heven.alike heven' hp hp')
    (div_nonneg (abs_nonneg _) zero_le_two) hthousandth hthousandth
    (fun e he hkind => (heven.square he hkind).stiff) hs (fun loop hloop => ?_) hs'
    fun loop hloop => ?_⟩
  · rw [hclosed loop hloop, abs_zero]
    exact hthousandth
  · rw [hclosed' loop hloop, abs_zero]
    exact hthousandth

end Even

end Flownet

end Feldspar

/-
Feldspar/SearchTermination.lean

When the search loop ends.

Solvers cost something, so only finitely many labels lie below a cost bound
(`labelsBelow`), hence only finitely many candidates (`keysBelow`).  A
`Horizon` is a cost from which on nothing new is found: once every derivation
up to it is covered, every derivation is.  Below a horizon each iteration
takes one of finitely many keys out of play, which is the measure; and the
search that runs dry has a horizon, because its own labels dominate
everything.
-/
import Feldspar.SearchOptimal
import Mathlib.Algebra.Order.Archimedean.Basic
import Mathlib.Tactic.NormNum
import Mathlib.Tactic.Ring

set_option linter.unusedSectionVars false

namespace Feldspar

variable {K : Type} [Field K] [LinearOrder K] [IsStrictOrderedRing K] {rq : PlanRequest K}

/-! ### Finitely many labels below a cost -/

/-- Dropping the producer changes nothing a tie key says. -/
theorem sameKey_forget (c : PortMap (Label K)) :
    SameKey (c.map fun _ l => l.forget) c := by
  refine ⟨fun p => by simp, fun p l l' hl hl' => ?_⟩
  rw [Std.ExtTreeMap.getElem?_map, hl'] at hl
  cases hl
  exact ⟨rfl, rfl⟩

/-- The labels of the derivations with at most `n` solvers on every path. -/
def labelsWithin (rq : PlanRequest K) : ℕ → List (Label K)
  | 0 => (OrdMap.vals rq.known).map Label.known
  | n + 1 => labelsWithin rq n ++ rq.solvers.flatMap fun s =>
      (combosFor s.inputs (OrdMap.ofFn s.inputs fun _ => labelsWithin rq n)).flatMap fun combo =>
        s.outputs.map (outLabel s combo)

theorem labels_at_ofFn {inputs : List Port} {ls : List (Label K)} {p : Port} (hp : p ∈ inputs) :
    Labels.at (OrdMap.ofFn inputs fun _ => ls) p = ls := by
  rw [Labels.at, OrdMap.getElem?_ofFn, if_pos hp, Option.getD_some]

theorem mem_labelsWithin {δ : K} (hδ : ∀ s ∈ rq.solvers, δ ≤ s.cost) (hδ₀ : 0 < δ) (n : ℕ)
    {p : Port} {t : Deriv K} (ht : Admissible rq p t) (hcost : t.cost rq ≤ n * δ) :
    t.label rq.known ∈ labelsWithin rq n := by
  have hpos : ∀ s ∈ rq.solvers, 0 < s.cost := fun s hs => hδ₀.trans_le (hδ s hs)
  induction n generalizing p t with
  | zero =>
      cases ht with
      | leaf hp =>
          obtain ⟨iv, hiv⟩ := OrdMap.mem_iff_exists.mp hp
          simp only [Deriv.label, hiv, Option.getD_some]
          exact List.mem_map_of_mem (OrdMap.mem_vals.mpr ⟨p, hiv⟩)
      | @node s o kids hs hf ho hk hd =>
          have hown : s.cost ≤ (Deriv.node s p kids).cost rq := le_comboCost_own fun q l hl => by
            obtain ⟨hq, rfl⟩ := getElem?_combo.mp hl
            exact (hk q hq).cost_nonneg hpos
          have := hpos s hs
          rw [Nat.cast_zero, zero_mul] at hcost
          linarith
  | succ n ih =>
      cases ht with
      | leaf hp =>
          refine List.mem_append_left _ (ih (.leaf hp) ?_)
          exact mul_nonneg (Nat.cast_nonneg n) hδ₀.le
      | @node s o kids hs hf ho hk hd =>
          refine List.mem_append_right _ (List.mem_flatMap.mpr ⟨s, hs, List.mem_flatMap.mpr
            ⟨Deriv.combo rq.known s kids, mem_combosFor.mpr ⟨fun q => mem_combo, ?_⟩,
              List.mem_map_of_mem ho⟩⟩)
          intro q l hl
          obtain ⟨hq, rfl⟩ := getElem?_combo.mp hl
          rw [labels_at_ofFn hq]
          refine ih (hk q hq) ?_
          have := Admissible.add_cost_le (o := p) hpos hk hq
          have := hδ s hs
          rw [Nat.cast_succ, add_mul, one_mul] at hcost
          linarith

private theorem exists_least_cost :
    ∀ {l : List (SolverSummary K)}, (∀ s ∈ l, 0 < s.cost) → ∃ δ, 0 < δ ∧ ∀ s ∈ l, δ ≤ s.cost
  | [], _ => ⟨1, one_pos, by simp⟩
  | s :: l, h => by
      obtain ⟨δ, hδ₀, hδ⟩ := exists_least_cost fun s hs => h s (List.mem_cons_of_mem _ hs)
      refine ⟨min s.cost δ, lt_min (h s List.mem_cons_self) hδ₀, fun s' hs' => ?_⟩
      rcases List.mem_cons.mp hs' with rfl | hs'
      · exact min_le_left _ _
      · exact (min_le_right _ _).trans (hδ s' hs')

/-- Below a cost bound there are finitely many labels. -/
theorem labelsBelow [Archimedean K] (hpos : ∀ s ∈ rq.solvers, 0 < s.cost) (C : K) :
    ∃ ls : List (Label K), ∀ p t, Admissible rq p t → t.cost rq ≤ C → t.label rq.known ∈ ls := by
  obtain ⟨δ, hδ₀, hδ⟩ := exists_least_cost hpos
  obtain ⟨n, hn⟩ := Archimedean.arch C hδ₀
  rw [nsmul_eq_mul] at hn
  exact ⟨labelsWithin rq n, fun p t ht hc => mem_labelsWithin hδ hδ₀ n ht (hc.trans hn)⟩

section Keys

variable [ToBits K]

theorem tieKeyFor_congr {c c' : PortMap (Label K)} (h : SameKey c c') :
    tieKeyFor c = tieKeyFor c' := by
  rw [tieKeyFor, tieKeyFor]
  apply congrArg
  rw [← List.forall₂_eq_eq_eq, List.forall₂_map_left_iff, List.forall₂_map_right_iff]
  refine h.forall₂.imp fun e e' he => ?_
  obtain ⟨he₁, he₂, he₃⟩ := he
  simp only [tieEntry, he₁, he₂, he₃]

/-- The keys of the candidates over a finite set of labels. -/
def keysOver (rq : PlanRequest K) (ls : List (Label K)) :
    Finset (Fin rq.solvers.length × String) :=
  ((List.finRange rq.solvers.length).flatMap fun idx =>
    (combosFor (rq.solvers.get idx).inputs (OrdMap.ofFn (rq.solvers.get idx).inputs fun _ => ls)).map
      fun combo => (idx, tieKeyFor combo)).toFinset

theorem Sound.key_mem_keysOver {ls : List (Label K)} {c : Candidate rq.solvers} (h : Sound rq c)
    (hls : ∀ (p : Port) (l : Label K), c.inputs[p]? = some l → l.forget ∈ ls) :
    c.key ∈ keysOver rq ls := by
  let combo : PortMap (Label K) := c.inputs.map fun _ l => l.forget
  have hcombo : combo ∈ combosFor (rq.solvers.get c.solverIdx).inputs
      (OrdMap.ofFn (rq.solvers.get c.solverIdx).inputs fun _ => ls) := by
    refine mem_combosFor.mpr ⟨fun p => ?_, fun p l hl => ?_⟩
    · rw [(sameKey_forget c.inputs).keys]
      exact h.ports p
    · rw [Std.ExtTreeMap.getElem?_map, Option.map_eq_some_iff] at hl
      obtain ⟨l', hl', rfl⟩ := hl
      have hp : p ∈ (rq.solvers.get c.solverIdx).inputs := (h.ports p).mp (OrdMap.mem_iff_exists.mpr ⟨l', hl'⟩)
      rw [labels_at_ofFn hp]
      exact hls p l' hl'
  have hkey : c.key = (c.solverIdx, tieKeyFor combo) := by
    rw [Candidate.key, h.tieKey, tieKeyFor_congr (sameKey_forget c.inputs)]
  rw [hkey, keysOver, List.mem_toFinset, List.mem_flatMap]
  exact ⟨c.solverIdx, List.mem_finRange _, List.mem_map_of_mem hcombo⟩

/-! ### Horizons -/

/-- Some admissible derivation of the target is within the budget. -/
def Feasible (rq : PlanRequest K) : Prop :=
  ∃ t, Admissible rq rq.target t ∧ t.totalError rq ≤ rq.epsBudget

/-- Finitely many admissible derivations dominate all of them. -/
def FinitelyDominated (rq : PlanRequest K) : Prop :=
  ∃ T : List (Port × Deriv K), (∀ e ∈ T, Admissible rq e.1 e.2) ∧
    ∀ p t, Admissible rq p t →
      ∃ e ∈ T, e.1 = p ∧ (e.2.label rq.known).dominates (t.label rq.known)

/-- In every search state, covering the derivations up to cost `C` covers
them all. -/
def Horizon (rq : PlanRequest K) (C : K) : Prop :=
  ∀ s : SearchState rq.solvers, SearchInv rq s →
    (∀ p t, Admissible rq p t → t.cost rq ≤ C →
      Pareto.Covered Label.dominates (s.labels.at p) (t.label rq.known)) →
    ∀ p t, Admissible rq p t →
      Pareto.Covered Label.dominates (s.labels.at p) (t.label rq.known)

/-- A covered derivation within the budget would have ended the search. -/
theorem Feasible.exists_horizon (h : Feasible rq) : ∃ C, Horizon rq C := by
  obtain ⟨t, ht, hb⟩ := h
  refine ⟨t.cost rq, fun s hinv hcov => ?_⟩
  obtain ⟨l, hl, hd⟩ := hcov _ t ht le_rfl
  have := hinv.unmet l hl
  exact absurd ((Label.totalError_le hd).trans hb) (not_le_of_gt this)

theorem exists_cost_bound (rq : PlanRequest K) :
    ∀ T : List (Port × Deriv K), ∃ C, ∀ e ∈ T, e.2.cost rq ≤ C
  | [] => ⟨0, by simp⟩
  | e :: T => by
      obtain ⟨C, hC⟩ := exists_cost_bound rq T
      refine ⟨max (e.2.cost rq) C, fun e' he' => ?_⟩
      rcases List.mem_cons.mp he' with rfl | he'
      · exact le_max_left _ _
      · exact (hC e' he').trans (le_max_right _ _)

theorem FinitelyDominated.exists_horizon (h : FinitelyDominated rq) : ∃ C, Horizon rq C := by
  obtain ⟨T, hT, hdom⟩ := h
  obtain ⟨C, hC⟩ := exists_cost_bound rq T
  refine ⟨C, fun s _ hcov p t ht => ?_⟩
  obtain ⟨e, he, rfl, hd⟩ := hdom p t ht
  obtain ⟨l, hl, hld⟩ := hcov _ _ (hT e he) (hC e he)
  exact ⟨l, hl, trans_of Label.dominates hld hd⟩

/-! ### The measure -/

/-- Below a horizon: the invariant, every label within the horizon, and every
pushed key among finitely many. -/
structure Bounded (rq : PlanRequest K) (C : K) (F : Finset (Fin rq.solvers.length × String))
    (s : SearchState rq.solvers) : Prop where
  inv : SearchInv rq s
  cost : ∀ p, ∀ l ∈ s.labels.at p, l.cost ≤ C
  pushed : s.pushed ⊆ F

/-- The keys not yet pushed, and the candidates still to be expanded. -/
def potential (F : Finset (Fin rq.solvers.length × String)) (s : SearchState rq.solvers) : ℕ :=
  F.card - s.pushed.card + s.frontier.length

/-- Regeneration stays bounded and moves keys from unpushed to waiting. -/
theorem Bounded.regenerate {C : K} {ls : List (Label K)} {s : SearchState rq.solvers}
    (hls : ∀ p t, Admissible rq p t → t.cost rq ≤ C → t.label rq.known ∈ ls)
    (h : Bounded rq C (keysOver rq ls) s) :
    Bounded rq C (keysOver rq ls) (regenerateCandidates rq s) ∧
      potential (keysOver rq ls) (regenerateCandidates rq s) = potential (keysOver rq ls) s := by
  obtain ⟨new, hp⟩ := regenerateCandidates_spec s
  have hsub : (regenerateCandidates rq s).pushed ⊆ keysOver rq ls := by
    intro k hk
    rcases (hp.pushed k).mp hk with hk | hk
    · exact h.pushed hk
    · obtain ⟨c, hc, rfl⟩ := List.mem_map.mp hk
      obtain ⟨pr, hpr, rfl⟩ := hp.proposed hc
      refine (sound_candidateOf h.inv.realized hpr).key_mem_keysOver fun p l hl => ?_
      have hmem := (mem_proposals.mp hpr).2.2 p l hl
      obtain ⟨t, ht, hte⟩ := h.inv.realized p l hmem
      rw [← hte]
      refine hls p t ht ?_
      rw [Deriv.cost, hte]
      exact h.cost p l hmem
  refine ⟨⟨h.inv.regenerate.1, ?_, hsub⟩, ?_⟩
  · rw [hp.labels]
    exact h.cost
  · have hcard : (regenerateCandidates rq s).pushed.card = s.pushed.card + new.length := by
      have hunion : (regenerateCandidates rq s).pushed
          = s.pushed ∪ (new.map Candidate.key).toFinset := by
        ext k
        rw [hp.pushed, Finset.mem_union, List.mem_toFinset]
      have hdisj : Disjoint s.pushed (new.map Candidate.key).toFinset := by
        rw [Finset.disjoint_left]
        intro k hk hk'
        obtain ⟨c, hc, rfl⟩ := List.mem_map.mp (List.mem_toFinset.mp hk')
        exact hp.fresh c hc hk
      rw [hunion, Finset.card_union_of_disjoint hdisj, List.toFinset_card_of_nodup hp.distinct,
        List.length_map]
    have hle := Finset.card_le_card hsub
    rw [potential, potential, hp.frontier, List.length_append]
    omega

/-- Each iteration below a horizon lowers the potential. -/
theorem Bounded.step {C : K} {ls : List (Label K)} {s s' : SearchState rq.solvers}
    (hpos : ∀ v ∈ rq.solvers, 0 < v.cost) (hC : Horizon rq C)
    (hls : ∀ p t, Admissible rq p t → t.cost rq ≤ C → t.label rq.known ∈ ls)
    (h : Bounded rq C (keysOver rq ls) s) (hs : searchStep rq s = .inr s') :
    Bounded rq C (keysOver rq ls) s' ∧
      potential (keysOver rq ls) s' < potential (keysOver rq ls) s := by
  have hinv' := h.inv.step hs
  obtain ⟨h₁, hpot⟩ := h.regenerate hls
  have hsat := h.inv.regenerate.2
  have hcase := searchStep_cases s
  rw [hs] at hcase
  rw [← hpot]
  revert h₁ hsat hcase
  generalize regenerateCandidates rq s = s₁
  intro h₁ hsat hcase
  cases hcase with
  | @rejected c rest hpop hd =>
      refine ⟨⟨hinv', h₁.cost, h₁.pushed⟩, ?_⟩
      have := (Pareto.popMin_perm hpop).length_eq
      simp only [potential, List.length_cons] at this ⊢
      omega
  | @expanded c rest hpop hd hw =>
      refine ⟨⟨hinv', fun p l hl => ?_, h₁.pushed⟩, ?_⟩
      · have hcommit := commitOutputs_spec s₁.labels (stepNode c).outputs c.cost s₁.nodes.length
        rcases hcommit.origin p l hl with hl | ⟨e, he, rfl, hn⟩
        · exact h₁.cost p l hl
        · by_contra hgt
          -- past the horizon everything cheap is covered, so nothing is new
          refine hn ?_
          obtain ⟨t, ht, hte⟩ := hinv'.realized p _ hl
          have hcov := hC s₁ h₁.inv (fun q t' ht' hle => ?_) p t ht
          · rw [hte] at hcov
            exact hcov
          · refine (coverage hpos h₁.inv hsat ht').resolve_right ?_
            rintro ⟨c', hc', hle'⟩
            exact hgt ((popMin_cost_le hpop hc').trans (hle'.trans hle))
      · have := (Pareto.popMin_perm hpop).length_eq
        simp only [potential, expand, List.length_cons] at this ⊢
        omega

/-- Below a horizon the search ends. -/
theorem Horizon.halts [Archimedean K] (hpos : ∀ v ∈ rq.solvers, 0 < v.cost)
    (ht : rq.target ∉ rq.known) {C : K} (hC : Horizon rq C) (hC₀ : 0 ≤ C) :
    Loop.Halts (searchStep rq) (initState rq) := by
  obtain ⟨ls, hls⟩ := labelsBelow hpos C
  refine Loop.halts_of_measure (I := Bounded rq C (keysOver rq ls)) (potential (keysOver rq ls))
    (fun s s' h hs => h.step hpos hC hls hs) ⟨searchInv_init ht, fun p l hl => ?_, ?_⟩
  · rcases hp : rq.known[p]? with - | iv
    · simp [Labels.at, initState, hp] at hl
    · simp only [Labels.at, initState, Std.ExtTreeMap.getElem?_map, hp, Option.map_some,
        Option.getD_some, List.mem_singleton] at hl
      rw [hl]
      exact hC₀
  · exact Finset.empty_subset _

theorem Horizon.mono {C C' : K} (hC : Horizon rq C) (h : C ≤ C') : Horizon rq C' :=
  fun s hinv hcov => hC s hinv fun p t ht hle => hcov p t ht (hle.trans h)

/-- The labels of a search that ran dry dominate every derivation. -/
theorem finitelyDominated_of_error (hpos : ∀ v ∈ rq.solvers, 0 < v.cost)
    (ht : rq.target ∉ rq.known) {e : PlanError K} (h : Searches rq (.error e)) :
    FinitelyDominated rq := by
  obtain ⟨labels, -, hreal, -, hcov⟩ := searches_error hpos ht h
  have htree : ∀ x : Port × Label K, ∃ t, x.2 ∈ labels.at x.1 →
      Admissible rq x.1 t ∧ t.label rq.known = x.2.forget := by
    intro x
    by_cases hx : x.2 ∈ labels.at x.1
    · obtain ⟨t, ht⟩ := hreal x.1 x.2 hx
      exact ⟨t, fun _ => ht⟩
    · exact ⟨.leaf x.1, fun h => absurd h hx⟩
  choose tree htree using htree
  have hmem : ∀ p l, (p, l) ∈ labels.toList.flatMap (fun e => e.2.map fun l => (e.1, l)) ↔
      l ∈ labels.at p := by
    intro p l
    simp only [List.mem_flatMap, List.mem_map, Prod.mk.injEq, Prod.exists, Labels.at]
    constructor
    · rintro ⟨q, ls, hls, l', hl', rfl, rfl⟩
      rw [Std.ExtTreeMap.mem_toList_iff_getElem?_eq_some.mp hls]
      exact hl'
    · intro hl
      rcases hp : labels[p]? with - | ls
      · rw [hp] at hl
        cases hl
      · rw [hp] at hl
        exact ⟨p, ls, Std.ExtTreeMap.mem_toList_iff_getElem?_eq_some.mpr hp, l, hl, rfl, rfl⟩
  refine ⟨(labels.toList.flatMap (fun e => e.2.map fun l => (e.1, l))).map
    fun x => (x.1, tree x), fun e he => ?_, fun p t ht => ?_⟩
  · obtain ⟨⟨p, l⟩, hx, rfl⟩ := List.mem_map.mp he
    exact (htree (p, l) ((hmem p l).mp hx)).1
  · obtain ⟨l, hl, hd⟩ := hcov p t ht
    refine ⟨(p, tree (p, l)), List.mem_map_of_mem ((hmem p l).mpr hl), rfl, ?_⟩
    rw [(htree (p, l) hl).2]
    exact hd

/-- The search ends exactly when some derivation is within the budget or
finitely many derivations dominate all of them. -/
theorem search_halts_iff [Archimedean K] (hpos : ∀ v ∈ rq.solvers, 0 < v.cost)
    (ht : rq.target ∉ rq.known) :
    Loop.Halts (searchStep rq) (initState rq) ↔ Feasible rq ∨ FinitelyDominated rq := by
  constructor
  · rintro ⟨e | f, h⟩
    · exact Or.inr (finitelyDominated_of_error hpos ht h)
    · obtain ⟨⟨t, htree, hte⟩, hb, -⟩ := searches_ok hpos ht h
      refine Or.inl ⟨t, htree, ?_⟩
      rw [Deriv.totalError, hte]
      exact hb
  · intro h
    obtain ⟨C, hC⟩ : ∃ C, Horizon rq C := h.elim Feasible.exists_horizon
      FinitelyDominated.exists_horizon
    exact (hC.mono (le_max_left C 0)).halts hpos ht (le_max_right C 0)

/-- **Termination of the planner**, exactly: `plan` returns when an entry
check answers, when some admissible derivation of the target is within the
budget, or when finitely many admissible derivations dominate all of them, and
otherwise it runs forever. -/
theorem plan_returns_iff [Archimedean K] (hpos : ∀ v ∈ rq.solvers, 0 < v.cost) :
    (∃ r, Plans rq r) ↔ entryChecks rq ≠ none ∨ Feasible rq ∨ FinitelyDominated rq := by
  rcases hentry : entryChecks rq with - | r
  · rw [← search_halts_iff hpos (entryChecks_eq_none.mp hentry).2.1]
    simp only [plans_iff_searches hentry, ne_eq, not_true_eq_false, false_or]
    exact ⟨fun ⟨_, f, hf, _⟩ => ⟨f, hf⟩, fun ⟨f, hf⟩ => ⟨_, f, hf, rfl⟩⟩
  · exact ⟨fun _ => Or.inl (by simp), fun _ => ⟨r, plans_of_entryChecks hentry⟩⟩

end Keys

theorem plan_returns_iff_detour : (∃ r, Plans detourRequest r) ↔
    entryChecks detourRequest ≠ none ∨ Feasible detourRequest ∨ FinitelyDominated detourRequest :=
  plan_returns_iff (by decide +kernel)

/-! ### A registry that never ends -/

/-- `S` shifts its own input `a`, and misses the budget at `t`. -/
def shiftSolver : SolverSummary ℚ := plainSolver "S" ["a", "b"] [("a", 0), ("t", 10)] 1 .both

def shiftRequest : PlanRequest ℚ := plainRequest [shiftSolver] [("a", 0), ("b", 1)] "t" 1 .both

/-- One more shift of a derivation of `a`, read at `o`. -/
def shiftOnce (o : Port) (t : Deriv ℚ) : Deriv ℚ :=
  .node shiftSolver o fun p => if p = "a" then t else .leaf "b"

private theorem shift_admits (kids : Port → Deriv ℚ) :
    Admits shiftRequest shiftSolver (Deriv.combo shiftRequest.known shiftSolver kids) := by
  have hbox : (inputDomain shiftSolver).portBox = ∅ := by decide +kernel
  have htags : (inputDomain shiftSolver).tags = ∅ := by decide +kernel
  rw [Admits, Domain.admits_eq_ok, hbox, htags]
  simp

private theorem shift_label (o : Port) (kids : Port → Deriv ℚ) :
    (Deriv.node shiftSolver o kids).label shiftRequest.known
      = outLabel shiftSolver (OrdMap.ofFn ["a", "b"] fun p => (kids p).label shiftRequest.known) o :=
  rfl

private theorem shift_sums (f : Port → Label ℚ) (o : Port) :
    (outLabel shiftSolver (OrdMap.ofFn ["a", "b"] f) o).interval.lo
        = (f "a").inflated.lo + (f "b").inflated.lo ∧
      (outLabel shiftSolver (OrdMap.ofFn ["a", "b"] f) o).cost
        = 1 + ((f "a").cost + (f "b").cost) := by
  have hs : (["a", "b"] : List Port).Pairwise fun a b => compare a b = .lt := by decide +kernel
  have hcost : shiftSolver.cost = 1 := rfl
  constructor
  · simp only [outLabel, sumHull, inflatedInputs, OrdMap.map_ofFn, OrdMap.vals_ofFn hs,
      List.map_cons, List.map_nil, List.sum_cons, List.sum_nil, add_zero]
  · simp only [outLabel, comboCost, Arith.sum_eq, OrdMap.vals_ofFn hs, hcost,
      List.map_cons, List.map_nil, List.sum_cons, List.sum_nil, add_zero]

private theorem shift_eps (iv : Interval ℚ) :
    declaredEps shiftSolver "a" iv = 0 ∧ declaredEps shiftSolver "t" iv = 10 := by
  have ha : shiftSolver.accuracy["a"]? = some (.absolute 0 le_rfl) := by decide +kernel
  have ht : shiftSolver.accuracy["t"]? = some (.absolute 10 (by norm_num)) := by decide +kernel
  simp [declaredEps, ha, ht, Accuracy.absolute, Accuracy.worstOver, Accuracy.eps]

/-- Every derivation of `a` is shifted by its cost, and every derivation of
`t` is off by at least ten. -/
private theorem shift_spec {p : Port} {t : Deriv ℚ} (h : Admissible shiftRequest p t) :
    (p = "a" → (t.label shiftRequest.known).inflated.lo = t.cost shiftRequest) ∧
    (p = "b" → (t.label shiftRequest.known).inflated.lo = 1 ∧ t.cost shiftRequest = 0) ∧
    (p = "t" → 10 ≤ t.totalError shiftRequest) := by
  induction h with
  | @leaf p hp =>
      refine ⟨?_, ?_, ?_⟩
      · rintro rfl; decide +kernel
      · rintro rfl; decide +kernel
      · rintro rfl; revert hp; decide +kernel
  | @node s o kids hs hf ho hk hd ih =>
      obtain rfl : s = shiftSolver := List.mem_singleton.mp hs
      have ha := (ih "a" (by decide)).1 rfl
      obtain ⟨hb, hbc⟩ := (ih "b" (by decide)).2.1 rfl
      have hproper := (Admissible.node hs hf ho hk hd).proper
      obtain ⟨hlo, hcost⟩ := shift_sums (fun p => (kids p).label shiftRequest.known) o
      rw [← shift_label] at hlo hcost
      refine ⟨?_, ?_, ?_⟩
      · rintro rfl
        have heps : ((Deriv.node shiftSolver "a" kids).label shiftRequest.known).eps = 0 :=
          (shift_eps _).1
        rw [Label.inflated, heps, inflate_zero, hlo, Deriv.cost, hcost]
        rw [Deriv.cost] at ha hbc
        rw [ha, hb, hbc]
        ring
      · rintro rfl
        exact absurd ho (by decide)
      · rintro rfl
        have heps : ((Deriv.node shiftSolver "t" kids).label shiftRequest.known).eps = 10 :=
          (shift_eps _).2
        have := hproper.1
        simp only [Interval.Proper] at this
        rw [Deriv.totalError, Label.totalError, totalError, heps, Interval.halfWidth, Interval.width]
        linarith

private theorem shift_exists (n : ℕ) :
    ∃ t, Admissible shiftRequest "a" t ∧ t.cost shiftRequest = n := by
  induction n with
  | zero => exact ⟨.leaf "a", .leaf (by decide +kernel), by decide +kernel⟩
  | succ n ih =>
      obtain ⟨t, ht, hn⟩ := ih
      have hleaf : Admissible shiftRequest "b" (.leaf "b") := .leaf (by decide +kernel)
      refine ⟨shiftOnce "a" t, .node (by simp [shiftRequest, plainRequest]) (Or.inl rfl) (by decide)
        (fun p hp => ?_) (shift_admits _), ?_⟩
      · rcases List.mem_pair.mp hp with rfl | rfl
        · exact ht
        · exact hleaf
      · rw [Deriv.cost, shiftOnce, shift_label, (shift_sums _ _).2]
        have hb := ((shift_spec hleaf).2.1 rfl).2
        rw [Deriv.cost] at hn hb
        simp only [String.reduceEq, if_true, if_false, hn, hb, Nat.cast_succ]
        ring

/-- `plan` never returns on `shiftRequest`, which passes its entry checks. -/
theorem shiftRequest_never_returns :
    (∀ v ∈ shiftRequest.solvers, 0 < v.cost) ∧ 0 < shiftRequest.epsBudget ∧
      ¬ ∃ r, Plans shiftRequest r := by
  have hpos : ∀ v ∈ shiftRequest.solvers, 0 < v.cost := by decide +kernel
  have hentry : entryChecks shiftRequest = none := by decide +kernel
  refine ⟨hpos, by decide +kernel, ?_⟩
  rintro ⟨r, hr⟩
  obtain ⟨f, hf, -⟩ := (plans_iff_searches hentry).mp hr
  rcases (search_halts_iff hpos (entryChecks_eq_none.mp hentry).2.1).mp ⟨f, hf⟩ with
    ⟨t, ht, hb⟩ | ⟨T, hT, hdom⟩
  · have h10 := (shift_spec ht).2.2 rfl
    have : (10 : ℚ) ≤ 1 := h10.trans hb
    norm_num at this
  · obtain ⟨C, hC⟩ := exists_cost_bound shiftRequest T
    obtain ⟨n, hn⟩ := exists_nat_gt C
    obtain ⟨t, ht, hcost⟩ := shift_exists n
    obtain ⟨⟨p, t'⟩, he, rfl, hd⟩ := hdom "a" t ht
    have hlo := hd.2.1
    rw [(shift_spec ht).1 rfl, (shift_spec (hT _ he)).1 rfl, hcost] at hlo
    exact absurd (hlo.trans (hC _ he)) (not_le_of_gt hn)

end Feldspar

/-
Feldspar/SearchInvariant.lean

What one iteration of the search can do, and the invariant of the search loop.

The first half has one lemma for each operation of the loop: the combos that
`combosFor` lists, the candidates that `regenerateCandidates` pushes
(`Pushes`), the labels that `commitOutputs` keeps (`Commits`), and the ways
an iteration can end (`searchStep_cases`).

The second half is the invariant `SearchInv`: every label is realized by an
admissible derivation, no target label meets the budget, and every pushed
candidate is either still in the frontier or has had its outputs covered.
-/
import Feldspar.Derivation

set_option linter.unusedSectionVars false

namespace Feldspar

variable {K : Type} [Arith K] [LinearOrder K]

/-! ### Labels and combos -/

theorem Labels.at_insert (labels : Labels K) (p q : Port) (set : List (Label K)) :
    Labels.at (labels.insert p set) q = if p = q then set else labels.at q := by
  simp only [Labels.at, OrdMap.getElem?_insert_eq]
  split <;> rfl

/-- The listed combos are the choices of one label per input port. -/
theorem mem_combosFor {inputs : List Port} {labels : Labels K} {combo : PortMap (Label K)} :
    combo ∈ combosFor inputs labels ↔
      (∀ p, p ∈ combo ↔ p ∈ inputs) ∧ ∀ p l, combo[p]? = some l → l ∈ labels.at p := by
  unfold combosFor
  induction inputs using List.reverseRecOn generalizing combo with
  | nil =>
      simp only [List.foldl_nil, List.mem_singleton, List.not_mem_nil, iff_false]
      constructor
      · rintro rfl
        simp
      · rintro ⟨hk, -⟩
        apply Std.ExtTreeMap.ext_getElem?
        intro p
        simp [Std.ExtTreeMap.getElem?_eq_none (hk p)]
  | append_singleton inputs q ih =>
      rw [List.foldl_append, List.foldl_cons, List.foldl_nil, extendCombos, List.mem_flatMap]
      simp only [List.mem_map]
      constructor
      · rintro ⟨combo', hc', l, hl, rfl⟩
        obtain ⟨hk, hv⟩ := ih.mp hc'
        refine ⟨fun p => ?_, fun p l' hp => ?_⟩
        · rw [Std.ExtTreeMap.mem_insert, Std.LawfulEqOrd.compare_eq_iff_eq, hk p, List.mem_append,
            List.mem_singleton, or_comm, eq_comm]
        · rw [OrdMap.getElem?_insert_eq] at hp
          split at hp
          · cases hp
            exact ‹q = p› ▸ hl
          · exact hv p l' hp
      · rintro ⟨hk, hv⟩
        obtain ⟨l, hl⟩ := OrdMap.mem_iff_exists.mp ((hk q).mpr (by simp))
        -- the combo before `q`: all of `combo` when `q` came earlier as well
        by_cases hq : q ∈ inputs
        · refine ⟨combo, ih.mpr ⟨fun p => ?_, hv⟩, l, hv q l hl, ?_⟩
          · rw [hk p, List.mem_append, List.mem_singleton]
            exact ⟨fun h => h.elim id fun e => e ▸ hq, Or.inl⟩
          · apply Std.ExtTreeMap.ext_getElem?
            intro p
            rw [OrdMap.getElem?_insert_eq]
            split
            · rw [← ‹q = p›, hl]
            · rfl
        · refine ⟨combo.erase q, ih.mpr ⟨fun p => ?_, fun p l' hp => ?_⟩, l, hv q l hl, ?_⟩
          · rw [Std.ExtTreeMap.mem_erase, hk p, List.mem_append, List.mem_singleton]
            by_cases hpq : q = p
            · subst hpq; simpa using hq
            · simp [hpq, Ne.symm hpq]
          · rw [Std.ExtTreeMap.getElem?_erase] at hp
            split at hp
            · cases hp
            · exact hv p l' hp
          · apply Std.ExtTreeMap.ext_getElem?
            intro p
            rw [OrdMap.getElem?_insert_eq, Std.ExtTreeMap.getElem?_erase]
            by_cases hpq : q = p
            · subst hpq; simp [hl]
            · simp [hpq]

theorem mem_proposals {rq : PlanRequest K} {labels : Labels K} {idx : Fin rq.solvers.length}
    {combo : PortMap (Label K)} :
    (idx, combo) ∈ proposals rq labels ↔
      passesFilter rq (rq.solvers.get idx) ∧
      (∀ p, p ∈ combo ↔ p ∈ (rq.solvers.get idx).inputs) ∧
      ∀ p l, combo[p]? = some l → l ∈ labels.at p := by
  simp only [proposals, List.mem_flatMap, List.mem_finRange, true_and]
  constructor
  · rintro ⟨i, hi⟩
    split at hi
    · obtain ⟨combo, hc, he⟩ := List.mem_map.mp hi
      cases he
      exact ⟨‹_›, mem_combosFor.mp hc⟩
    · cases hi
  · rintro ⟨hf, hc⟩
    exact ⟨idx, by rw [if_pos hf]; exact List.mem_map_of_mem (mem_combosFor.mpr hc)⟩

/-! ### Regeneration -/

section Step

variable [ToBits K] {rq : PlanRequest K}

/-- Pushing `ps` leads from `s` to `s'` by appending the candidates `new`, the
first proposals of their keys. -/
structure Pushes (ps : List (Fin rq.solvers.length × PortMap (Label K)))
    (s s' : SearchState rq.solvers) (new : List (Candidate rq.solvers)) : Prop where
  labels : s'.labels = s.labels
  nodes : s'.nodes = s.nodes
  frontier : s'.frontier = s.frontier ++ new
  pushed : ∀ k, k ∈ s'.pushed ↔ k ∈ s.pushed ∨ k ∈ new.map Candidate.key
  fresh : ∀ c ∈ new, c.key ∉ s.pushed
  distinct : (new.map Candidate.key).Nodup
  first : ∀ c ∈ new, ∃ pr, ps.find? (fun x => (candidateOf rq x).key = c.key) = some pr ∧
    c = candidateOf rq pr
  saturated : ∀ pr ∈ ps, (candidateOf rq pr).key ∈ s'.pushed

theorem Pushes.proposed {ps : List (Fin rq.solvers.length × PortMap (Label K))}
    {s s' : SearchState rq.solvers} {new : List (Candidate rq.solvers)} (h : Pushes ps s s' new)
    {c : Candidate rq.solvers} (hc : c ∈ new) : ∃ pr ∈ ps, c = candidateOf rq pr := by
  obtain ⟨pr, hpr, rfl⟩ := h.first c hc
  exact ⟨pr, List.mem_of_find?_eq_some hpr, rfl⟩

private theorem pushes_foldl :
    ∀ (ps : List (Fin rq.solvers.length × PortMap (Label K))) (s : SearchState rq.solvers),
      ∃ new, Pushes ps s (ps.foldl (pushCandidate rq) s) new
  | [], s => ⟨[], ⟨rfl, rfl, by simp, by simp, by simp, by simp, by simp, by simp⟩⟩
  | pr :: ps, s => by
      obtain ⟨new, h⟩ := pushes_foldl ps (pushCandidate rq s pr)
      -- a candidate pushed later has another key than `pr`
      have hskip : ∀ c ∈ new, (candidateOf rq pr).key ≠ c.key → ∃ pr',
          (pr :: ps).find? (fun x => (candidateOf rq x).key = c.key) = some pr' ∧
            c = candidateOf rq pr' := by
        intro c hc hne
        rw [List.find?_cons_of_neg (by simpa using hne)]
        exact h.first c hc
      by_cases hk : (candidateOf rq pr).key ∈ s.pushed
      · have e : pushCandidate rq s pr = s := by simp [pushCandidate, hk]
        rw [e] at h
        refine ⟨new, ?_⟩
        rw [List.foldl_cons, e]
        refine ⟨h.labels, h.nodes, h.frontier, h.pushed, h.fresh, h.distinct,
          fun c hc => hskip c hc fun he => h.fresh c hc (he ▸ hk), fun pr' hpr' => ?_⟩
        rcases List.mem_cons.mp hpr' with rfl | hpr'
        · exact (h.pushed _).mpr (Or.inl hk)
        · exact h.saturated pr' hpr'
      · have e : pushCandidate rq s pr = { s with
            pushed := insert (candidateOf rq pr).key s.pushed
            frontier := s.frontier ++ [candidateOf rq pr] } := by simp [pushCandidate, hk]
        rw [e] at h
        refine ⟨candidateOf rq pr :: new, ?_⟩
        rw [List.foldl_cons, e]
        refine ⟨h.labels, h.nodes, by simp [h.frontier], fun k => ?_, fun c hc => ?_, ?_,
          fun c hc => ?_, fun pr' hpr' => ?_⟩
        · rw [h.pushed, Finset.mem_insert, List.map_cons, List.mem_cons]
          tauto
        · rcases List.mem_cons.mp hc with rfl | hc
          · exact hk
          · exact fun hc' => h.fresh c hc (Finset.mem_insert_of_mem hc')
        · rw [List.map_cons, List.nodup_cons]
          refine ⟨fun hmem => ?_, h.distinct⟩
          obtain ⟨c, hc, he⟩ := List.mem_map.mp hmem
          exact h.fresh c hc (by rw [he]; exact Finset.mem_insert_self _ _)
        · rcases List.mem_cons.mp hc with rfl | hc
          · exact ⟨pr, List.find?_cons_of_pos (by simp), rfl⟩
          · exact hskip c hc fun he => h.fresh c hc (he ▸ Finset.mem_insert_self _ _)
        · rcases List.mem_cons.mp hpr' with rfl | hpr'
          · exact (h.pushed _).mpr (Or.inl (Finset.mem_insert_self _ _))
          · exact h.saturated pr' hpr'

theorem regenerateCandidates_spec (s : SearchState rq.solvers) :
    ∃ new, Pushes (proposals rq s.labels) s (regenerateCandidates rq s) new :=
  pushes_foldl _ s

end Step

/-! ### Committing outputs -/

/-- The label that a commit makes of one output. -/
def committedLabel (e : Interval K × K) (cost : K) (node : Option ℕ) : Label K :=
  ⟨e.1, e.2, cost, node⟩

/-- What committing the entries `es` at `cost` does to the labels and the
flag. -/
structure Commits (es : List (Port × Interval K × K)) (cost : K) (node : ℕ)
    (acc acc' : Labels K × Bool) : Prop where
  covers : ∀ p x, Pareto.Covered Label.dominates (acc.1.at p) x →
    Pareto.Covered Label.dominates (acc'.1.at p) x
  covered : ∀ p e, (p, e) ∈ es →
    Pareto.Covered Label.dominates (acc'.1.at p) (committedLabel e cost none)
  origin : ∀ p, ∀ l ∈ acc'.1.at p, l ∈ acc.1.at p ∨
    ∃ e, (p, e) ∈ es ∧ l = committedLabel e cost (some node) ∧
      ¬ Pareto.Covered Label.dominates (acc.1.at p) l
  unchanged : acc'.2 = false → acc.2 = false ∧ ∀ p, acc'.1.at p = acc.1.at p

theorem Commits.nil (cost : K) (node : ℕ) (acc : Labels K × Bool) :
    Commits [] cost node acc acc :=
  ⟨fun _ _ h => h, by simp, fun _ _ h => Or.inl h, fun h => ⟨h, fun _ => rfl⟩⟩

theorem Commits.cons {e : Port × Interval K × K} {es : List (Port × Interval K × K)} {cost : K}
    {node : ℕ} {acc acc₁ acc₂ : Labels K × Bool} (h : Commits [e] cost node acc acc₁)
    (h' : Commits es cost node acc₁ acc₂) : Commits (e :: es) cost node acc acc₂ where
  covers p x hx := h'.covers p x (h.covers p x hx)
  covered p e' he' := by
    rcases List.mem_cons.mp he' with rfl | he'
    · exact h'.covers p _ (h.covered p e' (by simp))
    · exact h'.covered p e' he'
  origin p l hl := by
    rcases h'.origin p l hl with hl | ⟨e', he', rfl, hn⟩
    · rcases h.origin p l hl with hl | ⟨e', he', rfl, hn⟩
      · exact Or.inl hl
      · exact Or.inr ⟨e', List.mem_cons.mpr (Or.inl (List.mem_singleton.mp he')), rfl, hn⟩
    · exact Or.inr ⟨e', List.mem_cons_of_mem _ he', rfl, fun hx => hn (h.covers p _ hx)⟩
  unchanged hf := by
    obtain ⟨hf₁, h₁⟩ := h'.unchanged hf
    obtain ⟨hf₂, h₂⟩ := h.unchanged hf₁
    exact ⟨hf₂, fun p => (h₁ p).trans (h₂ p)⟩

theorem commitOutput_spec (cost : K) (node : ℕ) (acc : Labels K × Bool)
    (e : Port × Interval K × K) : Commits [e] cost node acc (commitOutput cost node acc e) := by
  obtain ⟨q, e⟩ := e
  have hat : ∀ p, (commitOutput cost node acc (q, e)).1.at p = if q = p then
      (Pareto.insert Label.dominates (acc.1.at q) (committedLabel e cost (some node))).1
      else acc.1.at p := fun p => Labels.at_insert _ _ _ _
  refine ⟨fun p x hx => ?_, fun p e' he' => ?_, fun p l hl => ?_, fun hf => ?_⟩
  · rw [hat]
    split
    · exact Pareto.Covered.insert (‹q = p› ▸ hx) _
    · exact hx
  · cases List.mem_singleton.mp he'
    rw [hat, if_pos rfl]
    exact Pareto.covered_insert_self (x := committedLabel e cost (some node))
  · rw [hat] at hl
    split at hl
    · obtain rfl := ‹q = p›
      rcases Pareto.mem_insert hl with hl | ⟨rfl, hn⟩
      · exact Or.inl hl
      · exact Or.inr ⟨e, by simp, rfl, hn⟩
    · exact Or.inl hl
  · obtain ⟨hf₁, hf₂⟩ := Bool.or_eq_false_iff.mp hf
    have hc : Pareto.Covered Label.dominates (acc.1.at q) (committedLabel e cost (some node)) := by
      by_contra hc
      rw [← Pareto.insert_snd] at hc
      exact Bool.noConfusion (hf₂.symm.trans hc)
    refine ⟨hf₁, fun p => ?_⟩
    rw [hat, Pareto.insert_of_covered hc]
    split
    · rw [‹q = p›]
    · rfl

theorem commitOutputs_spec (labels : Labels K) (outputs : PortMap (Interval K × K)) (cost : K)
    (node : ℕ) : Commits outputs.toList cost node (labels, false)
      (commitOutputs labels outputs cost node) := by
  rw [commitOutputs]
  generalize (labels, false) = acc
  induction outputs.toList generalizing acc with
  | nil => exact Commits.nil cost node acc
  | cons e es ih => exact (commitOutput_spec cost node acc e).cons (ih _)

/-! ### One iteration -/

theorem winner_eq_some {rq : PlanRequest K} {labels : Labels K} {l : Label K}
    (h : winner rq labels = some l) :
    l ∈ labels.at rq.target ∧ l.totalError ≤ rq.epsBudget ∧
      ∀ l' ∈ labels.at rq.target, l'.totalError ≤ rq.epsBudget → l.cost ≤ l'.cost := by
  have hmem := List.argmin_mem h
  simp only [List.mem_filter, decide_eq_true_eq] at hmem
  refine ⟨hmem.1, hmem.2, fun l' hl' hb => List.le_of_mem_argmin (f := Label.cost) ?_ h⟩
  simpa using ⟨hl', hb⟩

theorem winner_eq_none {rq : PlanRequest K} {labels : Labels K} :
    winner rq labels = none ↔ ∀ l ∈ labels.at rq.target, rq.epsBudget < l.totalError := by
  simp [winner, List.filter_eq_nil_iff]

section Step

variable [ToBits K] {rq : PlanRequest K}

/-- The ways an iteration can end, once regeneration led to `s`. -/
inductive StepCase (rq : PlanRequest K) (s : SearchState rq.solvers) :
    Except (PlanError K) (Found K) ⊕ SearchState rq.solvers → Prop
  | exhausted (hf : s.frontier = []) : StepCase rq s (.inl (.error (exhausted rq s.labels)))
  | rejected {c : Candidate rq.solvers} {rest : List (Candidate rq.solvers)}
      (hpop : Pareto.popMin Candidate.order s.frontier = some (c, rest))
      (hd : ¬ Admits rq c.solver c.inputs) : StepCase rq s (.inr { s with frontier := rest })
  | won {c : Candidate rq.solvers} {rest : List (Candidate rq.solvers)} {l : Label K}
      (hpop : Pareto.popMin Candidate.order s.frontier = some (c, rest))
      (hd : Admits rq c.solver c.inputs)
      (hw : winner rq (expand s c rest).1.labels = some l) :
      StepCase rq s (.inl (.ok ⟨(expand s c rest).1.nodes, l⟩))
  | expanded {c : Candidate rq.solvers} {rest : List (Candidate rq.solvers)}
      (hpop : Pareto.popMin Candidate.order s.frontier = some (c, rest))
      (hd : Admits rq c.solver c.inputs)
      (hw : (expand s c rest).2 = true → winner rq (expand s c rest).1.labels = none) :
      StepCase rq s (.inr (expand s c rest).1)

section Equations

variable {s : SearchState rq.solvers} {c : Candidate rq.solvers} {rest : List (Candidate rq.solvers)}

theorem searchStep_of_nil (h : (regenerateCandidates rq s).frontier = []) :
    searchStep rq s = .inl (.error (exhausted rq (regenerateCandidates rq s).labels)) := by
  simp only [searchStep, Pareto.popMin_eq_none.mpr h]

theorem searchStep_of_rejected
    (hpop : Pareto.popMin Candidate.order (regenerateCandidates rq s).frontier = some (c, rest))
    (hd : ¬ Admits rq c.solver c.inputs) :
    searchStep rq s = .inr { regenerateCandidates rq s with frontier := rest } := by
  rcases he : (inputDomain c.solver).admits (inflatedInputs c.inputs) rq.tags with e | ⟨⟩
  · simp only [searchStep, hpop, he]
  · exact absurd he hd

theorem searchStep_of_admitted
    (hpop : Pareto.popMin Candidate.order (regenerateCandidates rq s).frontier = some (c, rest))
    (hd : Admits rq c.solver c.inputs) :
    searchStep rq s =
      if (expand (regenerateCandidates rq s) c rest).2 = true then
        match winner rq (expand (regenerateCandidates rq s) c rest).1.labels with
        | some l => .inl (.ok ⟨(expand (regenerateCandidates rq s) c rest).1.nodes, l⟩)
        | none => .inr (expand (regenerateCandidates rq s) c rest).1
      else .inr (expand (regenerateCandidates rq s) c rest).1 := by
  have he : (inputDomain c.solver).admits (inflatedInputs c.inputs) rq.tags = .ok () := hd
  rcases hw : winner rq (expand (regenerateCandidates rq s) c rest).1.labels with - | l <;>
    simp only [searchStep, hpop, he, hw]

end Equations

theorem searchStep_cases (s : SearchState rq.solvers) :
    StepCase rq (regenerateCandidates rq s) (searchStep rq s) := by
  rcases hpop : Pareto.popMin Candidate.order (regenerateCandidates rq s).frontier with
    - | ⟨c, rest⟩
  · have hnil := Pareto.popMin_eq_none.mp hpop
    rw [searchStep_of_nil hnil]
    exact .exhausted hnil
  · by_cases hd : Admits rq c.solver c.inputs
    · rw [searchStep_of_admitted hpop hd]
      split
      · rcases hw : winner rq (expand (regenerateCandidates rq s) c rest).1.labels with - | l
        · exact .expanded hpop hd fun _ => hw
        · exact .won hpop hd hw
      · exact .expanded hpop hd fun h => absurd h ‹_›
    · rw [searchStep_of_rejected hpop hd]
      exact .rejected hpop hd

end Step

/-! ### The invariant -/

/-- `l` is the label of an admissible derivation of `p`. -/
def Realized (rq : PlanRequest K) (p : Port) (l : Label K) : Prop :=
  ∃ t, Admissible rq p t ∧ t.label rq.known = l.forget

section Step

variable [ToBits K] {rq : PlanRequest K}

/-- A candidate whose inputs are realized, with the cost and the key of its
combo. -/
structure Sound (rq : PlanRequest K) (c : Candidate rq.solvers) : Prop where
  cost : c.cost = comboCost c.solver c.inputs
  tieKey : c.tieKey = tieKeyFor c.inputs
  filter : passesFilter rq c.solver
  ports : ∀ p, p ∈ c.inputs ↔ p ∈ c.solver.inputs
  realized : ∀ p l, c.inputs[p]? = some l → Realized rq p l

/-- A candidate of key `k` was rejected, or its outputs were committed. -/
def Processed (rq : PlanRequest K) (labels : Labels K) (k : Fin rq.solvers.length × String) :
    Prop :=
  ∃ c : Candidate rq.solvers, Sound rq c ∧ c.key = k ∧
    (Admits rq c.solver c.inputs → ∀ o ∈ c.solver.outputs,
      Pareto.Covered Label.dominates (labels.at o) (outLabel c.solver c.inputs o))

/-- The invariant of the search loop. -/
structure SearchInv (rq : PlanRequest K) (s : SearchState rq.solvers) : Prop where
  realized : ∀ p, ∀ l ∈ s.labels.at p, Realized rq p l
  known : ∀ p iv, rq.known[p]? = some iv →
    Pareto.Covered Label.dominates (s.labels.at p) (Label.known iv)
  unmet : ∀ l ∈ s.labels.at rq.target, rq.epsBudget < l.totalError
  sound : ∀ c ∈ s.frontier, Sound rq c
  distinct : (s.frontier.map Candidate.key).Nodup
  pushed : ∀ c ∈ s.frontier, c.key ∈ s.pushed
  done : ∀ k ∈ s.pushed, (∃ c ∈ s.frontier, c.key = k) ∨ Processed rq s.labels k

/-- Every proposal of the current labels has been pushed. -/
def Saturated (rq : PlanRequest K) (s : SearchState rq.solvers) : Prop :=
  ∀ pr ∈ proposals rq s.labels, (candidateOf rq pr).key ∈ s.pushed

theorem Processed.mono {labels labels' : Labels K} {k : Fin rq.solvers.length × String}
    (hc : ∀ p x, Pareto.Covered Label.dominates (labels.at p) x →
      Pareto.Covered Label.dominates (labels'.at p) x) (h : Processed rq labels k) :
    Processed rq labels' k := by
  obtain ⟨c, hs, hk, hout⟩ := h
  exact ⟨c, hs, hk, fun ha o ho => hc o _ (hout ha o ho)⟩

theorem sound_candidateOf {labels : Labels K} (hr : ∀ p, ∀ l ∈ labels.at p, Realized rq p l)
    {pr : Fin rq.solvers.length × PortMap (Label K)} (hpr : pr ∈ proposals rq labels) :
    Sound rq (candidateOf rq pr) := by
  obtain ⟨hf, hk, hv⟩ := mem_proposals.mp hpr
  exact ⟨rfl, rfl, hf, hk, fun p l hl => hr p l (hv p l hl)⟩

/-- The invariant survives regeneration, which saturates. -/
theorem SearchInv.regenerate {s : SearchState rq.solvers} (h : SearchInv rq s) :
    SearchInv rq (regenerateCandidates rq s) ∧ Saturated rq (regenerateCandidates rq s) := by
  obtain ⟨new, hp⟩ := regenerateCandidates_spec s
  refine ⟨⟨?_, ?_, ?_, fun c hc => ?_, ?_, fun c hc => ?_, fun k hk => ?_⟩, ?_⟩
  · rw [hp.labels]; exact h.realized
  · rw [hp.labels]; exact h.known
  · rw [hp.labels]; exact h.unmet
  · rw [hp.frontier, List.mem_append] at hc
    rcases hc with hc | hc
    · exact h.sound c hc
    · obtain ⟨pr, hpr, rfl⟩ := hp.proposed hc
      exact sound_candidateOf h.realized hpr
  · rw [hp.frontier, List.map_append, List.nodup_append]
    refine ⟨h.distinct, hp.distinct, ?_⟩
    rintro k hk k' hk' rfl
    obtain ⟨c, hc, rfl⟩ := List.mem_map.mp hk
    obtain ⟨c', hc', he⟩ := List.mem_map.mp hk'
    exact hp.fresh c' hc' (he ▸ h.pushed c hc)
  · rw [hp.pushed]
    rw [hp.frontier, List.mem_append] at hc
    exact hc.imp (h.pushed c) fun hc => List.mem_map_of_mem hc
  · rw [hp.frontier, hp.labels]
    rcases (hp.pushed k).mp hk with hk | hk
    · rcases h.done k hk with ⟨c, hc, he⟩ | hdone
      · exact Or.inl ⟨c, List.mem_append_left _ hc, he⟩
      · exact Or.inr hdone
    · obtain ⟨c, hc, he⟩ := List.mem_map.mp hk
      exact Or.inl ⟨c, List.mem_append_right _ hc, he⟩
  · intro pr hpr
    rw [hp.labels] at hpr
    exact hp.saturated pr hpr

/-- Popping a candidate whose key is then processed keeps the invariant's
frontier clauses. -/
private theorem done_of_pop {s : SearchState rq.solvers} (h : SearchInv rq s)
    {c : Candidate rq.solvers} {rest : List (Candidate rq.solvers)} {labels : Labels K}
    (hpop : Pareto.popMin Candidate.order s.frontier = some (c, rest))
    (hcov : ∀ p x, Pareto.Covered Label.dominates (s.labels.at p) x →
      Pareto.Covered Label.dominates (labels.at p) x)
    (hc : Processed rq labels c.key) :
    (∀ c' ∈ rest, Sound rq c') ∧ (rest.map Candidate.key).Nodup ∧
      (∀ c' ∈ rest, c'.key ∈ s.pushed) ∧
      ∀ k ∈ s.pushed, (∃ c' ∈ rest, c'.key = k) ∨ Processed rq labels k := by
  have hperm := Pareto.popMin_perm hpop
  have hsub : ∀ c' ∈ rest, c' ∈ s.frontier := fun c' hc' =>
    hperm.mem_iff.mpr (List.mem_cons_of_mem _ hc')
  refine ⟨fun c' hc' => h.sound c' (hsub c' hc'), ?_, fun c' hc' => h.pushed c' (hsub c' hc'),
    fun k hk => ?_⟩
  · have := (hperm.map Candidate.key).nodup_iff.mp h.distinct
    rw [List.map_cons, List.nodup_cons] at this
    exact this.2
  · rcases h.done k hk with ⟨c', hc', rfl⟩ | hdone
    · rcases List.mem_cons.mp (hperm.mem_iff.mp hc') with rfl | hc'
      · exact Or.inr hc
      · exact Or.inl ⟨c', hc', rfl⟩
    · exact Or.inr (hdone.mono hcov)

theorem SearchInv.reject {s : SearchState rq.solvers} (h : SearchInv rq s)
    {c : Candidate rq.solvers} {rest : List (Candidate rq.solvers)}
    (hpop : Pareto.popMin Candidate.order s.frontier = some (c, rest))
    (hd : ¬ Admits rq c.solver c.inputs) : SearchInv rq { s with frontier := rest } := by
  have hc : c ∈ s.frontier := (Pareto.popMin_perm hpop).mem_iff.mpr List.mem_cons_self
  obtain ⟨hsound, hdistinct, hpushed, hdone⟩ := done_of_pop h hpop (fun _ _ hx => hx)
    ⟨c, h.sound c hc, rfl, fun ha => absurd ha hd⟩
  exact ⟨h.realized, h.known, h.unmet, hsound, hdistinct, hpushed, hdone⟩

section Ordered

variable {K : Type} [Field K] [LinearOrder K] [IsStrictOrderedRing K] [ToBits K]
variable {rq : PlanRequest K}

theorem Realized.proper {p : Port} {l : Label K} (h : Realized rq p l) : l.Proper := by
  obtain ⟨t, ht, he⟩ := h
  have := ht.proper
  rw [he] at this
  exact this

theorem Sound.properCombo {c : Candidate rq.solvers} (h : Sound rq c) : ProperCombo c.inputs :=
  fun p l hl => (h.realized p l hl).proper

/-- Applying a solver to realized labels realizes its output labels. -/
theorem Sound.realized_outLabel {c : Candidate rq.solvers} (h : Sound rq c)
    (hd : Admits rq c.solver c.inputs) {o : Port} (ho : o ∈ c.solver.outputs) :
    Realized rq o (outLabel c.solver c.inputs o) := by
  have hkid : ∀ p, ∃ t, ∀ l, c.inputs[p]? = some l →
      Admissible rq p t ∧ t.label rq.known = l.forget := by
    intro p
    rcases hp : c.inputs[p]? with - | l
    · exact ⟨.leaf p, fun _ hl => nomatch hl⟩
    · obtain ⟨t, ht⟩ := h.realized p l hp
      exact ⟨t, fun l' hl' => Option.some.inj hl' ▸ ht⟩
  choose kids hkids using hkid
  have hsame : SameKey (Deriv.combo rq.known c.solver kids) c.inputs := by
    refine ⟨fun p => mem_combo.trans (h.ports p).symm, fun p l l' hl hl' => ?_⟩
    obtain ⟨-, rfl⟩ := getElem?_combo.mp hl
    rw [(hkids p l' hl').2]
    exact ⟨rfl, rfl⟩
  refine ⟨.node c.solver o kids, .node (List.get_mem _ _) h.filter ho (fun p hp => ?_)
    (admits_mono hsame.dominates hd), ?_⟩
  · obtain ⟨l, hl⟩ := OrdMap.mem_iff_exists.mp ((h.ports p).mpr hp)
    exact (hkids p l hl).1
  · exact outLabel_congr hsame o

/-- The labels that expanding a sound candidate commits are its output
labels. -/
theorem Sound.mem_stepNode_outputs {c : Candidate rq.solvers} (h : Sound rq c) {p : Port}
    {e : Interval K × K} : (p, e) ∈ (stepNode c).outputs.toList ↔
      p ∈ c.solver.outputs ∧ committedLabel e c.cost none = outLabel c.solver c.inputs p := by
  rw [Std.ExtTreeMap.mem_toList_iff_getElem?_eq_some, stepNode,
    getElem?_estimateOutputs h.properCombo]
  refine and_congr_right fun _ => ?_
  rw [h.cost, committedLabel, outLabel, Label.mk.injEq, Prod.ext_iff]
  simp

theorem SearchInv.expand {s : SearchState rq.solvers} (h : SearchInv rq s)
    {c : Candidate rq.solvers} {rest : List (Candidate rq.solvers)}
    (hpop : Pareto.popMin Candidate.order s.frontier = some (c, rest))
    (hd : Admits rq c.solver c.inputs)
    (hw : (Feldspar.expand s c rest).2 = true →
      winner rq (Feldspar.expand s c rest).1.labels = none) :
    SearchInv rq (Feldspar.expand s c rest).1 := by
  have hc : c ∈ s.frontier := (Pareto.popMin_perm hpop).mem_iff.mpr List.mem_cons_self
  have hs := h.sound c hc
  have hcommit := commitOutputs_spec s.labels (stepNode c).outputs c.cost s.nodes.length
  have hproc : Processed rq (Feldspar.expand s c rest).1.labels c.key := by
    refine ⟨c, hs, rfl, fun _ o ho => ?_⟩
    have hmem := hs.mem_stepNode_outputs (p := o)
      (e := ((outLabel c.solver c.inputs o).interval, (outLabel c.solver c.inputs o).eps))
    have hlabel := hmem.mpr ⟨ho, by rw [hs.cost]; rfl⟩
    have hcov := hcommit.covered o _ hlabel
    rwa [(hmem.mp hlabel).2] at hcov
  obtain ⟨hsound, hdistinct, hpushed, hdone⟩ := done_of_pop h hpop hcommit.covers hproc
  refine ⟨fun p l hl => ?_, fun p iv hiv => hcommit.covers p _ (h.known p iv hiv), fun l hl => ?_,
    hsound, hdistinct, hpushed, hdone⟩
  · rcases hcommit.origin p l hl with hl | ⟨e, he, rfl, -⟩
    · exact h.realized p l hl
    · obtain ⟨ho, hlabel⟩ := hs.mem_stepNode_outputs.mp he
      obtain ⟨t, ht, hte⟩ := hs.realized_outLabel hd ho
      refine ⟨t, ht, ?_⟩
      rw [hte, ← hlabel]
      rfl
  · -- with nothing committed the labels are the old ones
    rcases hany : (Feldspar.expand s c rest).2 with - | -
    · have hsame := (hcommit.unchanged hany).2 rq.target
      exact h.unmet l (hsame ▸ hl)
    · exact winner_eq_none.mp (hw hany) l hl

/-- The invariant is preserved by every iteration that goes on. -/
theorem SearchInv.step {s s' : SearchState rq.solvers} (h : SearchInv rq s)
    (hs : searchStep rq s = .inr s') : SearchInv rq s' := by
  have hcase := searchStep_cases s
  rw [hs] at hcase
  obtain ⟨h₁, -⟩ := h.regenerate
  cases hcase with
  | rejected hpop hd => exact h₁.reject hpop hd
  | expanded hpop hd hw => exact h₁.expand hpop hd hw

theorem searchInv_init (ht : rq.target ∉ rq.known) : SearchInv rq (initState rq) := by
  have hat : ∀ p, (initState rq).labels.at p
      = (rq.known[p]?.map fun iv => [Label.known iv]).getD [] := by
    intro p
    simp [initState, Labels.at]
  refine ⟨fun p l hl => ?_, fun p iv hiv => ?_, fun l hl => ?_, ?_, ?_, ?_, ?_⟩
  · rw [hat] at hl
    rcases hp : rq.known[p]? with - | iv
    · simp [hp] at hl
    · simp only [hp, Option.map_some, Option.getD_some, List.mem_singleton] at hl
      subst hl
      exact ⟨.leaf p, .leaf (OrdMap.mem_iff_exists.mpr ⟨iv, hp⟩), by
        simp [Deriv.label, hp, Label.known, Label.forget]⟩
  · rw [hat, hiv]
    exact ⟨Label.known iv, by simp, refl _⟩
  · rw [hat, Std.ExtTreeMap.getElem?_eq_none ht] at hl
    cases hl
  · simp [initState]
  · simp [initState]
  · simp [initState]
  · simp [initState]

end Ordered

end Step

end Feldspar

/-
Feldspar/Lib/Retry.lean

Loops whose body is a relation.  `R s x` says that the body, run in the state
`s`, may end with `x`: a result (`Sum.inl`) or a state to go on from
(`Sum.inr`).  A body that never ends relates its state to nothing, so nothing
is assumed about termination.

`Reaches R s k t` counts the times that the body went on.  The rules are the
invariant rule, a bound on the count by a measure, termination from a measure
and progress, determinism, and the simulation of one loop by another.
-/
import Mathlib.Logic.Basic
import Mathlib.Tactic.Common

namespace Retry

variable {σ τ ρ : Type*}

inductive Reaches (R : σ → ρ ⊕ σ → Prop) (s : σ) : ℕ → σ → Prop
  | start : Reaches R s 0 s
  | again {k t u} : Reaches R s k t → R t (Sum.inr u) → Reaches R s (k + 1) u

inductive Returns (R : σ → ρ ⊕ σ → Prop) : σ → ρ → Prop
  | done {s r} : R s (Sum.inl r) → Returns R s r
  | again {s t r} : R s (Sum.inr t) → Returns R t r → Returns R s r

variable {R : σ → ρ ⊕ σ → Prop} {s t : σ} {r : ρ} {k : ℕ}

/-- The invariant rule. -/
theorem Reaches.invariant {I : ℕ → σ → Prop} (h : Reaches R s k t) (hs : I 0 s)
    (hstep : ∀ k t u, Reaches R s k t → I k t → R t (Sum.inr u) → I (k + 1) u) : I k t := by
  induction h with
  | start => exact hs
  | again ht hu ih => exact hstep _ _ _ ht ih hu

/-- What a loop returns, it returns from a state it reaches. -/
theorem Returns.exists_reached (h : Returns R s r) :
    ∃ k t, Reaches R s k t ∧ R t (Sum.inl r) := by
  have aux : ∀ {t}, Returns R t r → ∀ k, Reaches R s k t →
      ∃ k t, Reaches R s k t ∧ R t (Sum.inl r) := by
    intro t ht
    induction ht with
    | done hr => exact fun k hk => ⟨k, _, hk, hr⟩
    | again hu _ ih => exact fun k hk => ih h (k + 1) (hk.again hu)
  exact aux h 0 Reaches.start

theorem Reaches.returns (h : Reaches R s k t) (hr : Returns R t r) : Returns R s r := by
  induction h with
  | start => exact hr
  | again _ hu ih => exact ih (Returns.again hu hr)

/-- A body with one ending for each state makes a loop with one result. -/
theorem Returns.unique (hR : ∀ s x y, R s x → R s y → x = y) {r' : ρ} (h : Returns R s r)
    (h' : Returns R s r') : r = r' := by
  induction h with
  | done hr =>
      cases h' with
      | done hr' => exact Sum.inl.inj (hR _ _ _ hr hr')
      | again hu' _ => cases hR _ _ _ hr hu'
  | again hu _ ih =>
      cases h' with
      | done hr' => cases hR _ _ _ hu hr'
      | again hu' h' =>
          obtain rfl := Sum.inr.inj (hR _ _ _ hu hu')
          exact ih h'

/-- Where a loop with one result gets to, it returns that result from there. -/
theorem Reaches.returns_of (hR : ∀ s x y, R s x → R s y → x = y) (h : Reaches R s k t)
    (hr : Returns R s r) : Returns R t r := by
  induction h with
  | start => exact hr
  | again _ hu ih =>
      cases ih with
      | done hr' => cases hR _ _ _ hu hr'
      | again hu' hr' =>
          obtain rfl := Sum.inr.inj (hR _ _ _ hu hu')
          exact hr'

/-- A measure that goes down bounds the number of steps. -/
theorem Reaches.add_measure_le {I : σ → Prop} {μ : σ → ℕ} (h : Reaches R s k t) (hs : I s)
    (hI : ∀ t u, I t → R t (Sum.inr u) → I u)
    (hμ : ∀ t u, I t → R t (Sum.inr u) → μ u < μ t) : k + μ t ≤ μ s := by
  have hboth : I t ∧ k + μ t ≤ μ s := by
    refine h.invariant (I := fun k t => I t ∧ k + μ t ≤ μ s) ⟨hs, Nat.le_of_eq (Nat.zero_add _)⟩ ?_
    rintro k t u - ⟨ht, hle⟩ hu
    have := hμ t u ht hu
    exact ⟨hI t u ht hu, by omega⟩
  exact hboth.2

/-- A body that always ends, in a state where the measure is less, makes a loop
that returns. -/
theorem exists_returns {I : σ → Prop} {μ : σ → ℕ} (hs : I s)
    (hI : ∀ t u, I t → R t (Sum.inr u) → I u)
    (hμ : ∀ t u, I t → R t (Sum.inr u) → μ u < μ t)
    (hprogress : ∀ t, I t → ∃ x, R t x) : ∃ r, Returns R s r := by
  induction hn : μ s using Nat.strongRecOn generalizing s with
  | ind n ih =>
      obtain ⟨r | u, hx⟩ := hprogress s hs
      · exact ⟨r, Returns.done hx⟩
      · obtain ⟨r, hr⟩ := ih (μ u) (hn ▸ hμ s u hs hx) (hI s u hs hx) rfl
        exact ⟨r, Returns.again hx hr⟩

/-! ### Simulation -/

variable {σ' ρ' : Type*} {R' : σ' → ρ' ⊕ σ' → Prop} {t' : σ'} {r' : ρ'}
variable {I : σ → σ' → Prop} {Q : ρ → ρ' → Prop}

/-- A loop is simulated by another one that goes on when it goes on, and that
ends, maybe later, when it ends. -/
theorem Returns.simulate (h : Returns R s r) (hs : I s t')
    (hdone : ∀ s t' r, I s t' → R s (Sum.inl r) → ∃ r', Returns R' t' r' ∧ Q r r')
    (hagain : ∀ s t' u, I s t' → R s (Sum.inr u) → ∃ u', R' t' (Sum.inr u') ∧ I u u') :
    ∃ r', Returns R' t' r' ∧ Q r r' := by
  induction h generalizing t' with
  | done hr => exact hdone _ _ _ hs hr
  | again hu _ ih =>
      obtain ⟨u', hu', hI⟩ := hagain _ _ _ hs hu
      obtain ⟨r', hr', hQ⟩ := ih hI
      exact ⟨r', Returns.again hu' hr', hQ⟩

/-- A loop returns if its simulation does, and if it is not stuck before. -/
theorem Returns.of_simulation (hR' : ∀ s x y, R' s x → R' s y → x = y) (h : Returns R' t' r')
    (hs : I s t') (hprogress : ∀ s t' x, I s t' → R' t' x → ∃ y, R s y)
    (hagain : ∀ s t' u, I s t' → R s (Sum.inr u) → ∃ u', R' t' (Sum.inr u') ∧ I u u') :
    ∃ r, Returns R s r := by
  induction h generalizing s with
  | done hr =>
      obtain ⟨r | u, hx⟩ := hprogress _ _ _ hs hr
      · exact ⟨r, Returns.done hx⟩
      · obtain ⟨u', hu', -⟩ := hagain _ _ _ hs hx
        cases hR' _ _ _ hr hu'
  | again hu' _ ih =>
      obtain ⟨r | u, hx⟩ := hprogress _ _ _ hs hu'
      · exact ⟨r, Returns.done hx⟩
      · obtain ⟨v', hv', hI⟩ := hagain _ _ _ hs hx
        obtain rfl := Sum.inr.inj (hR' _ _ _ hu' hv')
        obtain ⟨r, hr⟩ := ih hI
        exact ⟨r, Returns.again hx hr⟩

end Retry

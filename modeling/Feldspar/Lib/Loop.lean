/-
Feldspar/Lib/Loop.lean

Partial loops.  A loop is a step function `step : σ → ρ ⊕ σ`: from a state it
either returns a result (`Sum.inl`) or goes on (`Sum.inr`).  `iter step n`
makes at most `n` iterations, so it is executable; `Returns step s r` says
some number of iterations is enough.

The rules are the ones a verification of a `loop { .. }` or `while True:`
body needs: the invariant rule (`Returns.exists_last`), termination from a
measure, and the simulation rule that relates two loops step by step.
-/
import Mathlib.Logic.Basic
import Mathlib.Tactic.Common

namespace Loop

variable {σ τ ρ : Type*}

/-- At most `n` iterations of `step`. -/
def iter (step : σ → ρ ⊕ σ) : ℕ → σ → ρ ⊕ σ
  | 0, s => Sum.inr s
  | n + 1, s =>
      match step s with
      | Sum.inl r => Sum.inl r
      | Sum.inr s' => iter step n s'

/-- The loop started at `s` returns `r`. -/
def Returns (step : σ → ρ ⊕ σ) (s : σ) (r : ρ) : Prop :=
  ∃ n, iter step n s = Sum.inl r

/-- The loop started at `s` ends. -/
def Halts (step : σ → ρ ⊕ σ) (s : σ) : Prop := ∃ r, Returns step s r

/-- `Reaches step s t`: some number of iterations leads from `s` to `t`
without returning. -/
inductive Reaches (step : σ → ρ ⊕ σ) (s : σ) : σ → Prop
  | refl : Reaches step s s
  | tail {t u} : Reaches step s t → step t = Sum.inr u → Reaches step s u

variable {step : σ → ρ ⊕ σ} {s s' t : σ} {r r' : ρ}

@[simp] theorem iter_zero : iter step 0 s = Sum.inr s := rfl

theorem iter_succ_inl {n : ℕ} (h : step s = Sum.inl r) :
    iter step (n + 1) s = Sum.inl r := by
  simp [iter, h]

theorem iter_succ_inr {n : ℕ} (h : step s = Sum.inr s') :
    iter step (n + 1) s = iter step n s' := by
  simp [iter, h]

theorem returns_of_step (h : step s = Sum.inl r) : Returns step s r :=
  ⟨1, iter_succ_inl h⟩

/-- A loop that goes on returns what it returns from the next state. -/
theorem returns_iff_of_step (h : step s = Sum.inr s') :
    Returns step s r ↔ Returns step s' r := by
  constructor
  · rintro ⟨n, hn⟩
    cases n with
    | zero => simp at hn
    | succ n =>
        rw [iter_succ_inr h] at hn
        exact ⟨n, hn⟩
  · rintro ⟨n, hn⟩
    exact ⟨n + 1, by rw [iter_succ_inr h, hn]⟩

/-- A loop has at most one result. -/
theorem Returns.unique (h : Returns step s r) (h' : Returns step s r') : r = r' := by
  obtain ⟨n, hn⟩ := h
  induction n generalizing s with
  | zero => simp at hn
  | succ n ih =>
      rcases hs : step s with r₀ | s₁
      · rw [iter_succ_inl hs] at hn
        obtain ⟨m, hm⟩ := h'
        cases m with
        | zero => simp at hm
        | succ m =>
            rw [iter_succ_inl hs] at hm
            exact (Sum.inl.inj hn).symm.trans (Sum.inl.inj hm)
      · rw [iter_succ_inr hs] at hn
        exact ih ((returns_iff_of_step hs).mp h') hn

/-- The invariant rule: what every iteration preserves holds in the state
whose iteration returns. -/
theorem Returns.exists_last {I : σ → Prop}
    (hstep : ∀ s s', I s → step s = Sum.inr s' → I s')
    (h : Returns step s r) (hs : I s) : ∃ t, I t ∧ step t = Sum.inl r := by
  obtain ⟨n, hn⟩ := h
  induction n generalizing s with
  | zero => simp at hn
  | succ n ih =>
      rcases e : step s with r₀ | s₁
      · rw [iter_succ_inl e] at hn
        exact ⟨s, hs, e.trans hn⟩
      · rw [iter_succ_inr e] at hn
        exact ih (hstep s s₁ hs e) hn

/-- The invariant rule for reachable states. -/
theorem Reaches.invariant {I : σ → Prop}
    (hstep : ∀ s s', I s → step s = Sum.inr s' → I s')
    (h : Reaches step s t) (hs : I s) : I t := by
  induction h with
  | refl => exact hs
  | tail _ hu ih => exact hstep _ _ ih hu

/-- A state whose iteration returns can be found on the way to the result. -/
theorem Returns.exists_reached (h : Returns step s r) :
    ∃ t, Reaches step s t ∧ step t = Sum.inl r :=
  h.exists_last (I := Reaches step s) (fun _ _ ht hu => ht.tail hu) Reaches.refl

/-- What a loop returns from a reached state it returns from the start. -/
theorem Reaches.returns (h : Reaches step s t) (ht : Returns step t r) : Returns step s r := by
  induction h with
  | refl => exact ht
  | tail _ hu ih => exact ih ((returns_iff_of_step hu).mpr ht)

/-- A measure that every iteration decreases makes the loop end. -/
theorem halts_of_measure {I : σ → Prop} (μ : σ → ℕ)
    (hstep : ∀ s s', I s → step s = Sum.inr s' → I s' ∧ μ s' < μ s) (hs : I s) :
    Halts step s := by
  induction hm : μ s using Nat.strongRecOn generalizing s with
  | _ m ih =>
      rcases e : step s with r | s'
      · exact ⟨r, returns_of_step e⟩
      · obtain ⟨hI, hlt⟩ := hstep s s' hs e
        obtain ⟨r, hr⟩ := ih (μ s') (hm ▸ hlt) hI rfl
        exact ⟨r, (returns_iff_of_step e).mpr hr⟩

/-- The simulation rule: two loops whose steps agree up to a relation on the
states return the same result. -/
theorem Returns.simulate {step' : τ → ρ ⊕ τ} {R : σ → τ → Prop}
    (hsim : ∀ s t, R s t →
      (∃ r, step s = Sum.inl r ∧ step' t = Sum.inl r) ∨
      (∃ s' t', step s = Sum.inr s' ∧ step' t = Sum.inr t' ∧ R s' t'))
    {s : σ} {t : τ} (hR : R s t) {r : ρ} (h : Returns step s r) :
    Returns step' t r := by
  obtain ⟨n, hn⟩ := h
  induction n generalizing s t with
  | zero => simp at hn
  | succ n ih =>
      rcases hsim s t hR with ⟨r₀, hs, ht⟩ | ⟨s', t', hs, ht, hR'⟩
      · rw [iter_succ_inl hs] at hn
        exact Sum.inl.inj hn ▸ returns_of_step ht
      · rw [iter_succ_inr hs] at hn
        exact (returns_iff_of_step ht).mpr (ih hR' hn)

/-- Two loops whose steps agree on the states of an invariant. -/
theorem returns_congr {step' : σ → ρ ⊕ σ} {I : σ → Prop}
    (hstep : ∀ s s', I s → step s = Sum.inr s' → I s') (heq : ∀ s, I s → step s = step' s)
    (hs : I s) : Returns step s r ↔ Returns step' s r := by
  constructor
  · refine Returns.simulate (R := fun s t => s = t ∧ I s) ?_ ⟨rfl, hs⟩
    rintro s _ ⟨rfl, hI⟩
    rcases h : step s with r | s'
    · exact Or.inl ⟨r, rfl, (heq s hI).symm.trans h⟩
    · exact Or.inr ⟨s', s', rfl, (heq s hI).symm.trans h, rfl, hstep s s' hI h⟩
  · refine Returns.simulate (R := fun s t => s = t ∧ I s) ?_ ⟨rfl, hs⟩
    rintro s _ ⟨rfl, hI⟩
    rcases h : step' s with r | s'
    · exact Or.inl ⟨r, rfl, (heq s hI).trans h⟩
    · exact Or.inr ⟨s', s', rfl, (heq s hI).trans h, rfl, hstep s s' hI ((heq s hI).trans h)⟩

end Loop

/-
Feldspar/Lib/Pareto.lean

The two list operations of a best-first search with pruning, over any
element type.

* `insert dom set x` keeps a set of mutually undominated elements: `x` is
  dropped when an element dominates it, and drops what it dominates.  For a
  preorder nothing is lost: whatever an element of the old set or `x`
  dominates is still `Covered`.
* `popMin key l` removes the first element of least key.
-/
import Mathlib.Data.List.FinRange
import Mathlib.Data.List.MinMax
import Mathlib.Data.List.Perm.Basic

namespace Pareto

variable {α β : Type*}

/-! ### Dominance insertion -/

section Insert

variable (dom : α → α → Prop) [DecidableRel dom]

/-- Insert `x` unless it is dominated; the flag says whether it was. -/
def insert (set : List α) (x : α) : List α × Bool :=
  if set.any fun e => dom e x then (set, false)
  else ((set.filter fun e => !dom x e) ++ [x], true)

/-- Some element of `set` dominates `x`. -/
def Covered (set : List α) (x : α) : Prop := ∃ e ∈ set, dom e x

variable {dom} {set : List α} {x y e : α}

theorem insert_of_covered (h : Covered dom set x) : insert dom set x = (set, false) := by
  obtain ⟨e, he, hd⟩ := h
  have : (set.any fun e => dom e x) = true := by simpa using ⟨e, he, hd⟩
  rw [insert, if_pos this]

theorem insert_of_not_covered (h : ¬ Covered dom set x) :
    insert dom set x = ((set.filter fun e => !dom x e) ++ [x], true) := by
  have : ¬ (set.any fun e => dom e x) = true := by simpa [Covered] using h
  rw [insert, if_neg this]

theorem insert_snd : (insert dom set x).2 = true ↔ ¬ Covered dom set x := by
  by_cases h : Covered dom set x
  · simp [insert_of_covered h, h]
  · simp [insert_of_not_covered h, h]

/-- An element of the new set is an old one, or `x` itself when nothing
dominated it. -/
theorem mem_insert (h : e ∈ (insert dom set x).1) :
    e ∈ set ∨ e = x ∧ ¬ Covered dom set x := by
  by_cases hc : Covered dom set x
  · rw [insert_of_covered hc] at h
    exact Or.inl h
  · rw [insert_of_not_covered hc] at h
    simp only [List.mem_append, List.mem_filter, List.mem_singleton] at h
    rcases h with ⟨h, -⟩ | rfl
    · exact Or.inl h
    · exact Or.inr ⟨rfl, hc⟩

variable [IsPreorder α dom]

theorem covered_insert_self : Covered dom (insert dom set x).1 x := by
  by_cases h : Covered dom set x
  · rw [insert_of_covered h]
    exact h
  · rw [insert_of_not_covered h]
    exact ⟨x, by simp, refl x⟩

/-- Insertion loses nothing. -/
theorem Covered.insert (h : Covered dom set y) (x : α) :
    Covered dom (Pareto.insert dom set x).1 y := by
  by_cases hc : Covered dom set x
  · rwa [insert_of_covered hc]
  · obtain ⟨e, he, hd⟩ := h
    rw [insert_of_not_covered hc]
    by_cases hx : dom x e
    · exact ⟨x, by simp, trans_of dom hx hd⟩
    · exact ⟨e, by simp [he, hx], hd⟩

end Insert

/-! ### Least-key removal -/

section PopMin

variable [LinearOrder β]

/-- The first element of least key, and the list without it. -/
def popMin (key : α → β) (l : List α) : Option (α × List α) :=
  (List.argmin (fun i : Fin l.length => key l[i]) (List.finRange l.length)).map
    fun i : Fin l.length => (l[i], l.eraseIdx i)

theorem popMin_eq_none {key : α → β} {l : List α} : popMin key l = none ↔ l = [] := by
  rw [popMin, Option.map_eq_none_iff, List.argmin_eq_none, List.finRange_eq_nil_iff, List.length_eq_zero_iff]

theorem popMin_perm {key : α → β} {l rest : List α} {a : α}
    (h : popMin key l = some (a, rest)) : l.Perm (a :: rest) := by
  rw [popMin, Option.map_eq_some_iff] at h
  obtain ⟨i, -, h⟩ := h
  cases h
  exact (List.getElem_cons_eraseIdx_perm i.isLt).symm

theorem popMin_le {key : α → β} {l rest : List α} {a : α}
    (h : popMin key l = some (a, rest)) {b : α} (hb : b ∈ l) : key a ≤ key b := by
  rw [popMin, Option.map_eq_some_iff] at h
  obtain ⟨i, hi, h⟩ := h
  cases h
  obtain ⟨j, hj, rfl⟩ := List.getElem_of_mem hb
  exact List.le_of_mem_argmin (f := fun i : Fin l.length => key l[i])
    (List.mem_finRange ⟨j, hj⟩) hi

end PopMin

end Pareto

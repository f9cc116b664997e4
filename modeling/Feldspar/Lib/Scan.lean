/-
Feldspar/Lib/Scan.lean

A loop over lines that skips some of them, takes an entry from each of the
others, and fails at the first it takes none from.

`Scans` says what a step does with one line.  A whole scan then depends on the
rows alone: it puts the entries of all rows in turn (`Scans.eq_ok`), or the
first row without entry makes it fail (`Scans.eq_error`).
-/
import Mathlib.Data.List.Forall2

namespace Scan

variable {Line Row Entry σ ε : Type}

/-- `step` skips the lines without a row, puts the entry of a row, and rejects
a row without entry by one of the errors `rejected` for it. -/
structure Scans (row : Line → Option Row) (entry : Row → Option Entry) (put : σ → Entry → σ)
    (rejected : Row → ε → Prop) (step : σ → Line → Except ε σ) : Prop where
  skip : ∀ s line, row line = none → step s line = .ok s
  keep : ∀ s line r e, row line = some r → entry r = some e → step s line = .ok (put s e)
  reject : ∀ s line r, row line = some r → entry r = none →
    ∃ e, rejected r e ∧ step s line = .error e

/-- All rows have an entry, or one has none. -/
theorem entries_or (entry : Row → Option Entry) : ∀ rows : List Row,
    (∃ entries, List.Forall₂ (fun r e => entry r = some e) rows entries)
      ∨ ∃ r ∈ rows, entry r = none
  | [] => .inl ⟨[], .nil⟩
  | r :: rows => by
      rcases hr : entry r with _ | e
      · exact .inr ⟨r, List.mem_cons_self, hr⟩
      · rcases entries_or entry rows with ⟨entries, h⟩ | ⟨r', hmem, h⟩
        · exact .inl ⟨e :: entries, .cons hr h⟩
        · exact .inr ⟨r', List.mem_cons_of_mem _ hmem, h⟩

variable {row : Line → Option Row} {entry : Row → Option Entry} {put : σ → Entry → σ}
variable {rejected : Row → ε → Prop} {step : σ → Line → Except ε σ}

theorem Scans.eq_ok (h : Scans row entry put rejected step) : ∀ {lines : List Line}
    {entries : List Entry} {s : σ},
    List.Forall₂ (fun r e => entry r = some e) (lines.filterMap row) entries →
      lines.foldlM step s = .ok (entries.foldl put s)
  | [], entries, s, hentries => by
      cases hentries
      rfl
  | line :: lines, entries, s, hentries => by
      rw [List.foldlM_cons]
      rcases hrow : row line with _ | r
      · rw [List.filterMap_cons_none hrow] at hentries
        rw [h.skip s line hrow]
        exact h.eq_ok hentries
      · rw [List.filterMap_cons_some hrow] at hentries
        cases hentries with
        | cons hentry hrest =>
            rw [h.keep s line r _ hrow hentry]
            exact h.eq_ok hrest

/-- The scan fails with what the first row without entry is rejected by. -/
theorem Scans.eq_error (h : Scans row entry put rejected step) : ∀ {lines : List Line} {s : σ},
    (∃ r ∈ lines.filterMap row, entry r = none) →
      ∃ before r after, lines.filterMap row = before ++ r :: after
        ∧ (∀ b ∈ before, entry b ≠ none) ∧ entry r = none
        ∧ ∃ e, rejected r e ∧ lines.foldlM step s = .error e
  | [], s, hmem => by
      obtain ⟨r, hr, -⟩ := hmem
      cases hr
  | line :: lines, s, hmem => by
      rw [List.foldlM_cons]
      rcases hrow : row line with _ | r
      · rw [List.filterMap_cons_none hrow] at hmem ⊢
        rw [h.skip s line hrow]
        exact h.eq_error hmem
      · rw [List.filterMap_cons_some hrow] at hmem ⊢
        rcases hentry : entry r with _ | e
        · obtain ⟨e, he, hstep⟩ := h.reject s line r hrow hentry
          refine ⟨[], r, lines.filterMap row, rfl, ?_, hentry, e, he, ?_⟩
          · exact fun b hb => absurd hb List.not_mem_nil
          · rw [hstep]
            rfl
        · rw [h.keep s line r e hrow hentry]
          obtain ⟨before, r', after, heq, hbefore, hfirst⟩ := h.eq_error (s := put s e) (by
            obtain ⟨r', hr', hnone⟩ := hmem
            rcases List.mem_cons.mp hr' with rfl | hr'
            · rw [hentry] at hnone
              cases hnone
            · exact ⟨r', hr', hnone⟩)
          refine ⟨r :: before, r', after, by rw [heq, List.cons_append], ?_, hfirst⟩
          intro b hb
          rcases List.mem_cons.mp hb with rfl | hb
          · rw [hentry]
            exact Option.some_ne_none e
          · exact hbefore b hb

end Scan

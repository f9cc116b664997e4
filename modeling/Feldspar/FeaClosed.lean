/-
Feldspar/FeaClosed.lean

When the result tables of a run fail closed.

A reduction of a text fails closed if it is an `Err`, or the greatest size of
a table without a missing or non-finite row, where the size of a row is what
the code itself makes of it.  There are five ways to fail open: a table without
rows raises, a float that is not finite passes through, a later row with the
same id hides an earlier one, the squares of a row overflow, and the reduction
of a stress row raises.  The last two are kept out by a moderate size of the
floats (`StressRange`), and do not occur without rounding.
-/
import Feldspar.Lib.Fallible
import Feldspar.Lib.Scan
import Feldspar.StressRange

namespace Feldspar

namespace FeaResults

open FloatValue (Value Rounding)

/-! ### The rows of a text -/

section Rows

variable (py : PyTokens)

/-- The id and the value tokens of a line whose first token is an integer. -/
def dataRow (line : String) : Option (ℤ × List String) :=
  match split line with
  | [] => none
  | token :: valueTokens => (py.int token).map fun rowId => (rowId, valueTokens)

def dataRows (text : String) : List (ℤ × List String) :=
  (splitlines text).filterMap (dataRow py)

theorem filterMap_numberedLines (text : String) :
    (numberedLines text).filterMap (fun line => dataRow py line.2) = dataRows py text := by
  rw [numberedLines, List.filterMap_map, dataRows]
  conv_rhs => rw [← List.zipIdx_map_fst 0 (splitlines text), List.filterMap_map]
  rfl

theorem split_of_dataRow_none {line : String} (h : dataRow py line = none) :
    split line = [] ∨ ∃ token valueTokens, split line = token :: valueTokens
      ∧ py.int token = none := by
  rw [dataRow] at h
  rcases hsplit : split line with _ | ⟨token, valueTokens⟩
  · exact .inl rfl
  · rw [hsplit] at h
    exact .inr ⟨token, valueTokens, rfl, Option.map_eq_none_iff.mp h⟩

theorem split_of_dataRow {line : String} {row : ℤ × List String}
    (h : dataRow py line = some row) :
    ∃ token, split line = token :: row.2 ∧ py.int token = some row.1 := by
  rw [dataRow] at h
  rcases hsplit : split line with _ | ⟨token, valueTokens⟩
  · rw [hsplit] at h
    cases h
  · rw [hsplit] at h
    obtain ⟨rowId, hint, rfl⟩ := Option.map_eq_some_iff.mp h
    exact ⟨token, rfl, hint⟩

def displacementEntry (row : ℤ × List String) : Option (ℤ × Triple) :=
  (threeColumns py row.2).map fun columns => (row.1, columns)

def Failure.IsErr (failure : Failure) : Prop := ∃ e, failure = .err e

theorem threeColumnLine_scans :
    Scan.Scans (fun line : ℕ × String => dataRow py line.2) (displacementEntry py)
      (fun rows entry => setItem rows entry.1 entry.2) (fun _ => Failure.IsErr)
      (threeColumnLine py) := by
  refine ⟨?_, ?_, ?_⟩
  · intro rows line h
    rw [threeColumnLine]
    rcases split_of_dataRow_none py h with hsplit | ⟨token, valueTokens, hsplit, hint⟩
    · rw [hsplit]
    · simp only [hsplit, hint]
  · intro rows line row entry h hentry
    obtain ⟨token, hsplit, hint⟩ := split_of_dataRow py h
    obtain ⟨columns, hcolumns, rfl⟩ := Option.map_eq_some_iff.mp hentry
    simp only [threeColumnLine, hsplit, hint, hcolumns]
  · intro rows line row h hentry
    obtain ⟨token, hsplit, hint⟩ := split_of_dataRow py h
    have hcolumns := Option.map_eq_none_iff.mp hentry
    refine ⟨parseFailed py line, ⟨_, rfl⟩, ?_⟩
    simp only [threeColumnLine, hsplit, hint, hcolumns]

theorem length_of_mapM {α β : Type} {f : α → Option β} : ∀ {l : List α} {bs : List β},
    l.mapM f = some bs → bs.length = l.length
  | [], bs, h => by
      obtain rfl : [] = bs := Option.some.inj h
      rfl
  | a :: l, bs, h => by
      rw [List.mapM_cons] at h
      obtain ⟨b, -, h⟩ := Option.bind_eq_some_iff.mp h
      obtain ⟨bs', hbs', h⟩ := Option.bind_eq_some_iff.mp h
      obtain rfl : b :: bs' = bs := Option.some.inj h
      rw [List.length_cons, List.length_cons, length_of_mapM hbs']

theorem length_sixColumns {valueTokens : List String} {columns : List (Value ℝ)}
    (h : sixColumns py valueTokens = some columns) : columns.length = 6 := by
  rw [sixColumns] at h
  by_cases hsix : (if valueTokens.length = 7 then valueTokens.tail else valueTokens).length = 6
  · rw [if_pos hsix] at h
    rw [length_of_mapM h, hsix]
  · rw [if_neg hsix] at h
    cases h

/-- The columns of a row that is read are six components. -/
theorem exists_components {valueTokens : List String} {columns : List (Value ℝ)}
    (h : sixColumns py valueTokens = some columns) : ∃ s : Components,
      columns = [s.sxx, s.syy, s.szz, s.sxy, s.sxz, s.syz] := by
  have hlength := length_sixColumns py h
  rcases columns with
    _ | ⟨sxx, _ | ⟨syy, _ | ⟨szz, _ | ⟨sxy, _ | ⟨sxz, _ | ⟨syz, _ | ⟨extra, columns⟩⟩⟩⟩⟩⟩⟩
  case cons.cons.cons.cons.cons.cons.nil => exact ⟨⟨sxx, syy, szz, sxy, sxz, syz⟩, rfl⟩
  all_goals simp at hlength

section Stresses

variable [Rounding ℝ]

noncomputable def stressEntry (row : ℤ × List String) : Option Triple :=
  (sixColumns py row.2).bind fun columns => (reduceRow columns).toOption

/-- A row that is read, and whose reduction raises. -/
def RowRaises (row : ℤ × List String) : Prop :=
  ∃ s : Components, sixColumns py row.2 = some [s.sxx, s.syy, s.szz, s.sxy, s.sxz, s.syz]
    ∧ s.Raises

theorem stressEntry_eq {row : ℤ × List String} {s : Components}
    (h : sixColumns py row.2 = some [s.sxx, s.syy, s.szz, s.sxy, s.sxz, s.syz])
    (hraises : ¬ s.Raises) : stressEntry py row = some s.principal := by
  rw [stressEntry, h, Option.bind_some, reduceRow, principalStresses_eq hraises]
  rfl

/-- A row has no entry if it is malformed or raises. -/
theorem stressEntry_eq_none {row : ℤ × List String} :
    stressEntry py row = none ↔ sixColumns py row.2 = none ∨ RowRaises py row := by
  rcases h : sixColumns py row.2 with _ | columns
  · rw [stressEntry, h]
    exact iff_of_true rfl (.inl rfl)
  · obtain ⟨s, rfl⟩ := exists_components py h
    constructor
    · intro hnone
      refine .inr ⟨s, h, ?_⟩
      by_contra hraises
      rw [stressEntry_eq py h hraises] at hnone
      cases hnone
    · rintro (hnone | ⟨t, ht, hraises⟩)
      · cases hnone
      · rw [stressEntry, ht, Option.bind_some, reduceRow]
        rcases hok : principalStresses t.sxx t.syy t.szz t.sxy t.sxz t.syz with e | principal
        · rfl
        · exact absurd hraises (not_raises_of_eq_ok hok)

/-- A malformed row is rejected by an `Err`, another one by an exception. -/
def Rejected (row : ℤ × List String) (failure : Failure) : Prop :=
  failure.IsErr ↔ sixColumns py row.2 = none

theorem principalStressLine_scans :
    Scan.Scans (fun line : ℕ × String => dataRow py line.2) (stressEntry py)
      (fun rows entry => rows ++ [entry]) (Rejected py) (principalStressLine py) := by
  refine ⟨?_, ?_, ?_⟩
  · intro rows line h
    rw [principalStressLine]
    rcases split_of_dataRow_none py h with hsplit | ⟨token, valueTokens, hsplit, hint⟩
    · rw [hsplit]
    · simp only [hsplit, hint]
  · intro rows line row entry h hentry
    obtain ⟨token, hsplit, hint⟩ := split_of_dataRow py h
    obtain ⟨columns, hcolumns, hreduce⟩ := Option.bind_eq_some_iff.mp hentry
    simp only [principalStressLine, hsplit, hint, hcolumns,
      Fallible.eq_ok_of_toOption hreduce]
    rfl
  · intro rows line row h hentry
    obtain ⟨token, hsplit, hint⟩ := split_of_dataRow py h
    rcases hcolumns : sixColumns py row.2 with _ | columns
    · refine ⟨parseFailed py line, iff_of_true ⟨_, rfl⟩ hcolumns, ?_⟩
      simp only [principalStressLine, hsplit, hint, hcolumns]
    · rcases hreduce : reduceRow columns with e | stresses
      · refine ⟨.raised e, iff_of_false ?_ ?_, ?_⟩
        · rintro ⟨e', ⟨⟩⟩
        · rw [hcolumns]
          exact Option.some_ne_none columns
        · simp only [principalStressLine, hsplit, hint, hcolumns, hreduce]
          rfl
      · rw [stressEntry, hcolumns, Option.bind_some, hreduce] at hentry
        cases hentry

end Stresses

end Rows

/-! ### The last row of each id -/

section LastRows

variable {α β : Type}

theorem mem_keys_setItem {rows : List (ℤ × α)} {key k : ℤ} {value : α} :
    k ∈ (setItem rows key value).map Prod.fst ↔ k = key ∨ k ∈ rows.map Prod.fst := by
  induction rows with
  | nil => rw [setItem, List.map_cons, List.map_nil, List.mem_cons]
  | cons row rows ih =>
      rw [setItem]
      by_cases h : row.1 = key
      · rw [if_pos h, List.map_cons, List.map_cons, List.mem_cons, List.mem_cons, h, ← or_assoc,
          or_self]
      · rw [if_neg h, List.map_cons, List.map_cons, List.mem_cons, List.mem_cons, ih, or_left_comm]

theorem nodup_setItem {rows : List (ℤ × α)} (h : (rows.map Prod.fst).Nodup) (key : ℤ) (value : α) :
    ((setItem rows key value).map Prod.fst).Nodup := by
  induction rows with
  | nil => exact List.nodup_singleton key
  | cons row rows ih =>
      rw [List.map_cons, List.nodup_cons] at h
      rw [setItem]
      by_cases hkey : row.1 = key
      · rw [if_pos hkey, List.map_cons, List.nodup_cons]
        exact ⟨hkey ▸ h.1, h.2⟩
      · rw [if_neg hkey, List.map_cons, List.nodup_cons]
        refine ⟨?_, ih h.2⟩
        rw [mem_keys_setItem]
        rintro (heq | hmem)
        · exact hkey heq
        · exact h.1 hmem

theorem mem_setItem {rows : List (ℤ × α)} (h : (rows.map Prod.fst).Nodup) {key : ℤ} {value : α}
    {row : ℤ × α} :
    row ∈ setItem rows key value ↔ row = (key, value) ∨ row ∈ rows ∧ row.1 ≠ key := by
  induction rows with
  | nil => simp [setItem]
  | cons r rows ih =>
      rw [List.map_cons, List.nodup_cons] at h
      rw [setItem]
      by_cases hkey : r.1 = key
      · rw [if_pos hkey, List.mem_cons, List.mem_cons]
        -- the other rows have other ids
        have hother : row ∈ rows → row.1 ≠ key := by
          rintro hmem rfl
          exact h.1 (hkey ▸ List.mem_map_of_mem hmem)
        constructor
        · rintro (heq | hmem)
          · exact .inl heq
          · exact .inr ⟨.inr hmem, hother hmem⟩
        · rintro (heq | ⟨rfl | hmem, hne⟩)
          · exact .inl heq
          · exact absurd hkey hne
          · exact .inr hmem
      · rw [if_neg hkey, List.mem_cons, List.mem_cons, ih h.2]
        constructor
        · rintro (rfl | heq | ⟨hmem, hne⟩)
          · exact .inr ⟨.inl rfl, hkey⟩
          · exact .inl heq
          · exact .inr ⟨.inr hmem, hne⟩
        · rintro (heq | ⟨rfl | hmem, hne⟩)
          · exact .inr (.inl heq)
          · exact .inl rfl
          · exact .inr (.inr ⟨hmem, hne⟩)

/-- `rows[id] = value` for each entry in turn. -/
def lastRows (entries : List (ℤ × α)) : List (ℤ × α) :=
  entries.foldl (fun rows entry => setItem rows entry.1 entry.2) []

theorem lastRows_concat (entries : List (ℤ × α)) (entry : ℤ × α) :
    lastRows (entries ++ [entry]) = setItem (lastRows entries) entry.1 entry.2 :=
  List.foldl_append

/-- No entry after this one has its id. -/
def IsLast (entries : List (ℤ × α)) (entry : ℤ × α) : Prop :=
  ∃ before after, entries = before ++ entry :: after ∧ ∀ later ∈ after, later.1 ≠ entry.1

theorem IsLast.mem {entries : List (ℤ × α)} {entry : ℤ × α} (h : IsLast entries entry) :
    entry ∈ entries := by
  obtain ⟨before, after, rfl, -⟩ := h
  exact List.mem_append_right _ List.mem_cons_self

theorem isLast_concat {entries : List (ℤ × α)} {entry row : ℤ × α} :
    IsLast (entries ++ [entry]) row ↔ row = entry ∨ IsLast entries row ∧ row.1 ≠ entry.1 := by
  constructor
  · rintro ⟨before, after, heq, hlater⟩
    rcases List.eq_nil_or_concat' after with rfl | ⟨after', last, rfl⟩
    · exact .inl (List.cons.inj (List.append_inj' heq rfl).2).1.symm
    · rw [← List.cons_append, ← List.append_assoc] at heq
      obtain ⟨rfl, hlast⟩ := List.append_inj' heq rfl
      obtain rfl : entry = last := (List.cons.inj hlast).1
      refine .inr ⟨⟨before, after', rfl, ?_⟩, ?_⟩
      · exact fun later hmem => hlater later (List.mem_append_left _ hmem)
      · exact (hlater entry (List.mem_append_right _ List.mem_cons_self)).symm
  · rintro (rfl | ⟨⟨before, after, rfl, hlater⟩, hne⟩)
    · exact ⟨entries, [], rfl, fun later h => absurd h List.not_mem_nil⟩
    · refine ⟨before, after ++ [entry], by rw [List.append_assoc, List.cons_append], ?_⟩
      intro later hmem
      rcases List.mem_append.mp hmem with hmem | hmem
      · exact hlater later hmem
      · rw [List.mem_singleton.mp hmem]
        exact hne.symm

theorem mem_lastRows (entries : List (ℤ × α)) :
    ((lastRows entries).map Prod.fst).Nodup
      ∧ ∀ row, row ∈ lastRows entries ↔ IsLast entries row := by
  induction entries using List.reverseRecOn with
  | nil =>
      refine ⟨List.nodup_nil, fun row => ?_⟩
      refine iff_of_false List.not_mem_nil ?_
      intro h
      exact List.not_mem_nil h.mem
  | append_singleton entries entry ih =>
      rw [lastRows_concat]
      refine ⟨nodup_setItem ih.1 _ _, fun row => ?_⟩
      rw [mem_setItem ih.1, ih.2, isLast_concat]

theorem setItem_map (f : α → β) (rows : List (ℤ × α)) (key : ℤ) (value : α) :
    setItem (rows.map fun row => (row.1, f row.2)) key (f value)
      = (setItem rows key value).map fun row => (row.1, f row.2) := by
  induction rows with
  | nil => rfl
  | cons row rows ih =>
      rw [List.map_cons, setItem, setItem]
      by_cases h : row.1 = key
      · rw [if_pos h, if_pos h]
        rfl
      · rw [if_neg h, if_neg h, ih]
        rfl

theorem lastRows_map (f : α → β) (entries : List (ℤ × α)) :
    lastRows (entries.map fun entry => (entry.1, f entry.2))
      = (lastRows entries).map fun entry => (entry.1, f entry.2) := by
  induction entries using List.reverseRecOn with
  | nil => rfl
  | append_singleton entries entry ih =>
      rw [List.map_append, List.map_cons, List.map_nil, lastRows_concat, lastRows_concat, ih,
        setItem_map]

end LastRows

/-! ### Failing closed -/

/-- The greatest of the numbers, if there are any. -/
theorem maximum_fin : ∀ (x : ℝ) (xs : List ℝ),
    ∃ m, maximum ((x :: xs).map .fin) = .ok (.fin m) ∧ IsGreatest {y | y ∈ x :: xs} m
  | x, [] => by
      refine ⟨x, rfl, List.mem_cons_self, ?_⟩
      intro y hy
      exact (List.mem_singleton.mp hy).le
  | x, x' :: xs => by
      have hmax : pyMax (.fin x) (.fin x') = .fin (max x x') := by
        rw [pyMax, Value.lt_fin]
        by_cases hlt : x < x'
        · rw [decide_eq_true hlt, if_pos rfl, max_eq_right hlt.le]
        · rw [decide_eq_false hlt, max_eq_left (not_lt.mp hlt)]
          rfl
      obtain ⟨m, hm, hmem, hle⟩ := maximum_fin (max x x') xs
      refine ⟨m, ?_, ?_, ?_⟩
      · rw [← hm, List.map_cons, List.map_cons, List.map_cons, maximum, maximum, List.foldl_cons,
          hmax]
      · rcases List.mem_cons.mp hmem with rfl | hmem
        · rcases max_choice x x' with h | h
          · rw [h]
            exact List.mem_cons_self
          · rw [h]
            exact List.mem_cons_of_mem _ List.mem_cons_self
        · exact List.mem_cons_of_mem _ (List.mem_cons_of_mem _ hmem)
      · intro y hy
        have hmaxle := hle List.mem_cons_self
        rcases List.mem_cons.mp hy with rfl | hy
        · exact (le_max_left _ _).trans hmaxle
        · rcases List.mem_cons.mp hy with rfl | hy
          · exact (le_max_right _ _).trans hmaxle
          · exact hle (List.mem_cons_of_mem _ hy)

/-- An outcome is an `Err`, or the greatest of the sizes of a table, which are
numbers. -/
def FailsClosed {α : Type} (table : List α → Prop) (size : α → Except PyError (Value ℝ))
    (outcome : Except Failure (Value ℝ)) : Prop :=
  (∃ e, outcome = .error (.err e)) ∨
    ∃ entries, table entries ∧ ∃ x, outcome = .ok (.fin x)
      ∧ (∃ entry ∈ entries, size entry = .ok (.fin x))
      ∧ ∀ entry ∈ entries, ∃ y ≤ x, size entry = .ok (.fin y)

theorem maximum_ne_err (values : List (Value ℝ)) (e : SolveError) :
    maximum values ≠ .error (.err e) := by
  cases values <;> rintro ⟨⟩

/-- The greatest of numbers that a list gives. -/
theorem maximum_map {α : Type} (size : α → Value ℝ) {entries : List α} (h : entries ≠ [])
    (hnumber : ∀ entry ∈ entries, (size entry).IsNumber) :
    ∃ m, maximum (entries.map size) = .ok (.fin m) ∧ (∃ entry ∈ entries, size entry = .fin m)
      ∧ ∀ entry ∈ entries, ∃ y ≤ m, size entry = .fin y := by
  choose! f hf using hnumber
  obtain ⟨xs, hxs⟩ : ∃ xs : List ℝ, entries.map size = xs.map .fin := by
    refine ⟨entries.map f, ?_⟩
    rw [List.map_map]
    exact List.map_congr_left hf
  obtain ⟨x, xs, rfl⟩ : ∃ x xs', xs = x :: xs' := by
    apply List.exists_cons_of_ne_nil
    rintro rfl
    exact h (List.map_eq_nil_iff.mp hxs)
  obtain ⟨m, hm, hmem, hle⟩ := maximum_fin x xs
  refine ⟨m, by rw [hxs, hm], ?_, ?_⟩
  · have hfin : .fin m ∈ entries.map size := by
      rw [hxs]
      exact List.mem_map_of_mem hmem
    obtain ⟨entry, hentry, heq⟩ := List.mem_map.mp hfin
    exact ⟨entry, hentry, heq⟩
  · intro entry hentry
    have hfin : size entry ∈ (x :: xs).map .fin := by
      rw [← hxs]
      exact List.mem_map_of_mem hentry
    obtain ⟨y, hy, heq⟩ := List.mem_map.mp hfin
    exact ⟨y, hle hy, heq.symm⟩

/-- The numbers of a row, with its id. -/
abbrev Displacement := ℤ × ℝ × ℝ × ℝ

def numbers (u : ℝ × ℝ × ℝ) : Triple := (.fin u.1, .fin u.2.1, .fin u.2.2)

section Tables

variable (py : PyTokens) (text : String)

/-- Every data row of the text has these three numbers. -/
def DisplacementTable : List Displacement → Prop :=
  List.Forall₂ (fun row u => row.1 = u.1 ∧ threeColumns py row.2 = some (numbers u.2))
    (dataRows py text)

/-- Every data row of the text has these six numbers. -/
def StressTable : List Stress → Prop :=
  List.Forall₂ (fun row s => sixColumns py row.2
    = some [.fin s.sxx, .fin s.syy, .fin s.szz, .fin s.sxy, .fin s.sxz, .fin s.syz])
    (dataRows py text)

/-- A row that is not read. -/
def MalformedDisplacement : Prop := ∃ row ∈ dataRows py text, threeColumns py row.2 = none

noncomputable section Sizes

variable [Rounding ℝ]

def Displacement.size (u : Displacement) : Value ℝ := magnitude (numbers u.2)

/-- The von Mises stress of a row, unless its reduction raises. -/
def Stress.size (s : Stress) : Except PyError (Value ℝ) := do
  return vonMisesPrincipal
    (← principalStresses (.fin s.sxx) (.fin s.syy) (.fin s.szz) (.fin s.sxy) (.fin s.sxz)
      (.fin s.syz))

def DisplacementFailsClosed : Prop :=
  FailsClosed (DisplacementTable py text) (fun u => .ok (Displacement.size u))
    (largestDisplacement py text)

def StressFailsClosed : Prop :=
  FailsClosed (StressTable py text) Stress.size (largestVonMises py text)

/-- A row that is not read, and none before it whose reduction raises. -/
def MalformedStress : Prop :=
  ∃ before row after, dataRows py text = before ++ row :: after ∧ sixColumns py row.2 = none
    ∧ ∀ earlier ∈ before, ¬ RowRaises py earlier

/-- The squares of no row overflow. -/
def SquaresInRange (table : List Displacement) : Prop :=
  ∀ u ∈ table, (squaredMagnitude (numbers u.2)).IsNumber

/-- A greatest displacement is in the last row of its id. -/
def GreatestIsLast (table : List Displacement) : Prop :=
  ∃ u, IsLast table u ∧ ∀ v ∈ table, (Displacement.size u).lt (Displacement.size v) = false

end Sizes

variable {py text}

/-! ### Displacements -/

section Displacements

variable [Rounding ℝ]

theorem largestDisplacement_malformed (h : MalformedDisplacement py text) :
    ∃ e, largestDisplacement py text = .error (.err e) := by
  obtain ⟨row, hmem, hnone⟩ := h
  rw [← filterMap_numberedLines] at hmem
  obtain ⟨-, -, -, -, -, -, _, ⟨e, rfl⟩, herror⟩ := (threeColumnLine_scans py).eq_error (s := [])
    ⟨row, hmem, Option.map_eq_none_iff.mpr hnone⟩
  refine ⟨e, ?_⟩
  rw [largestDisplacement, parseDatDisplacements, herror]
  rfl

omit [Rounding ℝ] in
/-- The parse of a table keeps the last row of each id. -/
theorem parseDatDisplacements_table {table : List Displacement}
    (h : DisplacementTable py text table) :
    parseDatDisplacements py text
      = .ok ((lastRows table).map fun u => (u.1, numbers u.2)) := by
  have hentries : List.Forall₂ (fun row entry => displacementEntry py row = some entry)
      ((numberedLines text).filterMap fun line => dataRow py line.2)
      (table.map fun u => (u.1, numbers u.2)) := by
    rw [filterMap_numberedLines, List.forall₂_map_right_iff]
    apply h.imp
    rintro row u ⟨hid, hcolumns⟩
    rw [displacementEntry, hcolumns, Option.map_some, hid]
  rw [parseDatDisplacements, (threeColumnLine_scans py).eq_ok hentries]
  exact congrArg _ (lastRows_map numbers table)

theorem largestDisplacement_table {table : List Displacement}
    (h : DisplacementTable py text table) :
    largestDisplacement py text = maximum ((lastRows table).map Displacement.size) := by
  rw [largestDisplacement, parseDatDisplacements_table h]
  show maximum _ = _
  rw [List.map_map]
  rfl

/-- Without a malformed row the reduction is no `Err`. -/
theorem malformed_of_err {e : SolveError} (h : largestDisplacement py text = .error (.err e)) :
    MalformedDisplacement py text := by
  rcases Scan.entries_or (displacementEntry py) (dataRows py text) with ⟨entries, hentries⟩ | hnone
  · rw [← filterMap_numberedLines] at hentries
    rw [largestDisplacement, parseDatDisplacements,
      (threeColumnLine_scans py).eq_ok hentries] at h
    exact absurd h (maximum_ne_err _ e)
  · obtain ⟨row, hmem, hentry⟩ := hnone
    exact ⟨row, hmem, Option.map_eq_none_iff.mp hentry⟩

theorem displacementFailsClosed_iff :
    DisplacementFailsClosed py text ↔ MalformedDisplacement py text
      ∨ ∃ table, DisplacementTable py text table ∧ SquaresInRange table
        ∧ GreatestIsLast table := by
  constructor
  · rintro (⟨e, he⟩ | ⟨table, htable, x, hok, -, hle⟩)
    · exact .inl (malformed_of_err he)
    · refine .inr ⟨table, htable, fun u hu => ?_, ?_⟩
      · obtain ⟨y, -, hy⟩ := hle u hu
        exact (squaredMagnitude_isNumber_iff _).mp ⟨y, Except.ok.inj hy⟩
      · rw [largestDisplacement_table htable] at hok
        have hne : lastRows table ≠ [] := by
          intro hnil
          rw [hnil] at hok
          cases hok
        have hnumber : ∀ u ∈ lastRows table, (Displacement.size u).IsNumber := by
          intro u hu
          obtain ⟨y, -, hy⟩ := hle u (((mem_lastRows table).2 u).mp hu).mem
          exact ⟨y, Except.ok.inj hy⟩
        obtain ⟨m, hm, ⟨u, hu, hsize⟩, -⟩ := maximum_map Displacement.size hne hnumber
        obtain rfl : m = x := Value.fin.inj (Except.ok.inj (hm.symm.trans hok))
        refine ⟨u, ((mem_lastRows table).2 u).mp hu, fun v hv => ?_⟩
        obtain ⟨y, hym, hy⟩ := hle v hv
        rw [hsize, Except.ok.inj hy, Value.lt_fin, decide_eq_false (not_lt.mpr hym)]
  · rintro (hmalformed | ⟨table, htable, hrange, u, hlast, hgreatest⟩)
    · exact .inl (largestDisplacement_malformed hmalformed)
    · have hnumber : ∀ v ∈ table, (Displacement.size v).IsNumber := fun v hv =>
        (squaredMagnitude_isNumber_iff _).mpr (hrange v hv)
      obtain ⟨x, hx⟩ := hnumber u hlast.mem
      have hle : ∀ v ∈ table, ∃ y ≤ x, Displacement.size v = .fin y := by
        intro v hv
        obtain ⟨y, hy⟩ := hnumber v hv
        have hlt := hgreatest v hv
        rw [hx, hy, Value.lt_fin, decide_eq_false_iff_not, not_lt] at hlt
        exact ⟨y, hlt, hy⟩
      refine .inr ⟨table, htable, x, ?_, ⟨u, hlast.mem, congrArg _ hx⟩, fun v hv => ?_⟩
      · have hu := ((mem_lastRows table).2 u).mpr hlast
        obtain ⟨m, hm, ⟨v, hv, hsize⟩, hmax⟩ := maximum_map Displacement.size
          (List.ne_nil_of_mem hu)
          fun v hv => hnumber v (((mem_lastRows table).2 v).mp hv).mem
        have heq : m = x := by
          apply le_antisymm
          · obtain ⟨y, hyx, hy⟩ := hle v (((mem_lastRows table).2 v).mp hv).mem
            rwa [Value.fin.inj (hsize.symm.trans hy)]
          · obtain ⟨y, hym, hy⟩ := hmax u hu
            rwa [Value.fin.inj (hx.symm.trans hy)]
        rw [largestDisplacement_table htable, hm, heq]
      · obtain ⟨y, hyx, hy⟩ := hle v hv
        exact ⟨y, hyx, congrArg _ hy⟩

end Displacements

/-! ### Stresses -/

section Stresses

variable [Rounding ℝ]

/-- The first row without entry decides how the reduction fails. -/
theorem largestVonMises_rejected (h : ∃ row ∈ dataRows py text, stressEntry py row = none) :
    ∃ before row after, dataRows py text = before ++ row :: after
      ∧ (∀ earlier ∈ before, stressEntry py earlier ≠ none) ∧ stressEntry py row = none
      ∧ ∃ failure, Rejected py row failure ∧ largestVonMises py text = .error failure := by
  rw [← filterMap_numberedLines] at h
  obtain ⟨before, row, after, heq, hbefore, hnone, failure, hrejected, herror⟩ :=
    (principalStressLine_scans py).eq_error (s := []) h
  rw [filterMap_numberedLines] at heq
  refine ⟨before, row, after, heq, hbefore, hnone, failure, hrejected, ?_⟩
  rw [largestVonMises, parseDatPrincipalStresses, herror]
  rfl

theorem largestVonMises_malformed (h : MalformedStress py text) :
    ∃ e, largestVonMises py text = .error (.err e) := by
  obtain ⟨before, row, after, heq, hnone, hbefore⟩ := h
  have hentry : ∃ r ∈ dataRows py text, stressEntry py r = none := by
    refine ⟨row, ?_, (stressEntry_eq_none py).mpr (.inl hnone)⟩
    rw [heq]
    simp
  obtain ⟨before', row', after', heq', hbefore', hnone', failure, hrejected, herror⟩ :=
    largestVonMises_rejected hentry
  -- the first row without entry is not after the malformed one
  have hmalformed : sixColumns py row'.2 = none := by
    rw [heq] at heq'
    rcases List.append_eq_append_iff.mp heq' with ⟨rest, hb, hr⟩ | ⟨rest, hb, hr⟩
    · rcases rest with _ | ⟨r, rest⟩
      · rw [List.nil_append] at hr
        rwa [← (List.cons.inj hr).1]
      · obtain ⟨rfl, -⟩ := List.cons.inj hr
        refine absurd ((stressEntry_eq_none py).mpr (.inl hnone)) (hbefore' row ?_)
        rw [hb]
        simp
    · rcases rest with _ | ⟨r, rest⟩
      · rw [List.nil_append] at hr
        rwa [(List.cons.inj hr).1]
      · obtain ⟨rfl, -⟩ := List.cons.inj hr
        have hmem : row' ∈ before := by
          rw [hb]
          simp
        exact ((stressEntry_eq_none py).mp hnone').resolve_right (hbefore row' hmem)
  obtain ⟨e, rfl⟩ := hrejected.mpr hmalformed
  exact ⟨e, herror⟩

theorem malformedStress_of_err {e : SolveError} (h : largestVonMises py text = .error (.err e)) :
    MalformedStress py text := by
  rcases Scan.entries_or (stressEntry py) (dataRows py text) with ⟨entries, hentries⟩ | hnone
  · rw [← filterMap_numberedLines] at hentries
    rw [largestVonMises, parseDatPrincipalStresses,
      (principalStressLine_scans py).eq_ok hentries] at h
    exact absurd h (maximum_ne_err _ e)
  · obtain ⟨before, row, after, heq, hbefore, -, failure, hrejected, herror⟩ :=
      largestVonMises_rejected hnone
    obtain rfl : failure = .err e := Except.error.inj (herror.symm.trans h)
    refine ⟨before, row, after, heq, hrejected.mp ⟨e, rfl⟩, fun earlier hmem hraises => ?_⟩
    exact hbefore earlier hmem ((stressEntry_eq_none py).mpr (.inr hraises))

/-- The size of a row in range. -/
theorem size_eq_of_inRange {s : Stress} (h : s.components.InRange) :
    s.size = .ok (vonMisesPrincipal s.components.principal)
      ∧ (vonMisesPrincipal s.components.principal).IsNumber := by
  refine ⟨?_, (vonMises_isNumber_iff _).mpr h.spread⟩
  have heq := principalStresses_eq h.not_raises
  simp only [Stress.components] at heq
  rw [Stress.size, heq]
  rfl

/-- A row is in range if its size is a number. -/
theorem inRange_of_size {s : Stress} {x : ℝ} (h : s.size = .ok (.fin x)) :
    s.components.InRange := by
  obtain ⟨principal, hok, heq⟩ := Fallible.bind_eq_ok.mp h
  exact Components.inRange_iff.mpr ⟨principal, hok, x, Except.ok.inj heq⟩

theorem largestVonMises_table {table : List Stress} (h : StressTable py text table)
    (hrange : ∀ s ∈ table, s.components.InRange) :
    largestVonMises py text
      = maximum (table.map fun s => vonMisesPrincipal s.components.principal) := by
  have hentries : List.Forall₂ (fun row entry => stressEntry py row = some entry)
      ((numberedLines text).filterMap fun line => dataRow py line.2)
      (table.map fun s => s.components.principal) := by
    rw [filterMap_numberedLines, List.forall₂_map_right_iff]
    refine ((List.forall₂_and_left _ _).mpr ⟨hrange, h.flip⟩).flip.imp ?_
    rintro row s ⟨hs, hcolumns⟩
    exact stressEntry_eq py hcolumns hs.not_raises
  rw [largestVonMises, parseDatPrincipalStresses, (principalStressLine_scans py).eq_ok hentries,
    List.foldl_append_eq_append]
  show maximum _ = _
  rw [List.nil_append, ← List.flatMap_def, List.flatMap_singleton', List.map_map]
  rfl

theorem stressFailsClosed_iff :
    StressFailsClosed py text ↔ MalformedStress py text
      ∨ ∃ table, StressTable py text table ∧ table ≠ []
        ∧ ∀ s ∈ table, s.components.InRange := by
  constructor
  · rintro (⟨e, he⟩ | ⟨table, htable, x, -, ⟨s, hs, -⟩, hle⟩)
    · exact .inl (malformedStress_of_err he)
    · refine .inr ⟨table, htable, List.ne_nil_of_mem hs, fun t ht => ?_⟩
      obtain ⟨y, -, hy⟩ := hle t ht
      exact inRange_of_size hy
  · rintro (hmalformed | ⟨table, htable, hne, hrange⟩)
    · exact .inl (largestVonMises_malformed hmalformed)
    · obtain ⟨m, hm, ⟨s, hs, hsize⟩, hmax⟩ := maximum_map
        (fun s : Stress => vonMisesPrincipal s.components.principal) hne
        fun s hs => (size_eq_of_inRange (hrange s hs)).2
      refine .inr ⟨table, htable, m, (largestVonMises_table htable hrange).trans hm,
        ⟨s, hs, ?_⟩, fun t ht => ?_⟩
      · rw [(size_eq_of_inRange (hrange s hs)).1, hsize]
      · obtain ⟨y, hym, hy⟩ := hmax t ht
        exact ⟨y, hym, by rw [(size_eq_of_inRange (hrange t ht)).1, hy]⟩

end Stresses

/-! ### Without rounding -/

theorem Displacement.size_exact (u : Displacement) :
    Displacement.size u = .fin (Real.sqrt (u.2.1 ^ 2 + u.2.2.1 ^ 2 + u.2.2.2 ^ 2)) := by
  simp only [Displacement.size, numbers, magnitude, squaredMagnitude, root, Value.mul_exact,
    Value.add_exact, Value.round_exact, pow_two]

theorem Stress.size_exact (s : Stress) :
    s.size = .ok (.fin (vonMises s.sxx s.syy s.szz s.sxy s.sxz s.syz)) := by
  obtain ⟨s1, s2, s3, hok, -, -, heigen⟩ :=
    principalStresses_fin s.sxx s.syy s.szz s.sxy s.sxz s.syz
  rw [Stress.size, hok, ← vonMisesPrincipal_eq heigen]
  rfl

/-- Every row is in range. -/
theorem Stress.inRange_exact (s : Stress) : s.components.InRange :=
  inRange_of_size s.size_exact

end Tables

/-! ### Four texts -/

section NotClosed

variable {α : Type} {table : List α → Prop} {size : α → Except PyError (Value ℝ)}
variable {outcome : Except Failure (Value ℝ)}

theorem not_failsClosed_of_ok {v : Value ℝ} (h : outcome = .ok v) (hv : ¬ v.IsNumber) :
    ¬ FailsClosed table size outcome := by
  rintro (⟨e, he⟩ | ⟨entries, -, x, hok, -⟩)
  · rw [h] at he
    cases he
  · exact hv ⟨x, Except.ok.inj (h.symm.trans hok)⟩

theorem not_failsClosed_of_raised {e : PyError} (h : outcome = .error (.raised e)) :
    ¬ FailsClosed table size outcome := by
  rintro (⟨e', he⟩ | ⟨entries, -, x, hok, -⟩)
  · rw [h] at he
    cases he
  · rw [h] at hok
    cases hok

end NotClosed

/-- A result below `10 ^ 250` is a number, and one from `10 ^ 310` on is none. -/
theorem doubleLimit_bounds :
    (10 : ℝ) ^ 250 ≤ (2 : ℕ) ^ 1024 - (2 : ℕ) ^ 970
      ∧ ((2 : ℕ) ^ 1024 - (2 : ℕ) ^ 970 : ℝ) ≤ 10 ^ 155 * 10 ^ 155 := by
  have hlarge : (2 : ℝ) ^ 1024 = (2 ^ 256) ^ 4 := by rw [← pow_mul]
  have hsmall : (2 : ℝ) ^ 970 = (2 ^ 194) ^ 5 := by rw [← pow_mul]
  rw [Nat.cast_two, hlarge, hsmall]
  constructor <;> norm_num

/-- The range of a double; between its bounds this rounding is exact. -/
noncomputable local instance doubleRange : Rounding ℝ :=
  .below (((2 : ℕ) ^ 1024 - (2 : ℕ) ^ 970 : ℝ) : WithTop ℝ)
    (WithTop.coe_le_coe.mpr (le_trans (by norm_num) doubleLimit_bounds.1))

theorem round_below {x : ℝ} (h : |x| < 10 ^ 250) : Value.round x = .fin x :=
  if_pos (WithTop.coe_lt_coe.mpr (h.trans_le doubleLimit_bounds.1))

theorem round_above {x : ℝ} (h : 10 ^ 155 * 10 ^ 155 ≤ x) : Value.round x = .inf false := by
  have hpos : (0 : ℝ) ≤ x := le_trans (by norm_num) h
  have hnot : ¬ ((|x| : ℝ) : WithTop ℝ) < Rounding.limit := by
    rw [abs_of_nonneg hpos]
    exact not_lt.mpr (WithTop.coe_le_coe.mpr (doubleLimit_bounds.2.trans h))
  rw [Value.round, if_neg hnot, decide_eq_false (not_lt.mpr hpos)]

/-- What Python makes of the tokens `0`, `1`, `1e200` and `inf`. -/
noncomputable def fourTokens : PyTokens where
  int token := if token = "0" then some 0 else if token = "1" then some 1 else none
  float token :=
    if token = "0" then some (.fin 0) else if token = "1" then some (.fin 1)
    else if token = "1e200" then some (.fin ((10 : ℕ) ^ 200))
    else if token = "inf" then some (.inf false) else none
  repr line := "'" ++ line ++ "'"

end FeaResults

end Feldspar

/-
Feldspar/DenseSolve.lean

The loops of the dense solver (`solve_dense` in `mech/frame.rs`), in exact
arithmetic.

The source works in place: rows are swapped, an entry is lowered by a multiple
of the pivot's row one at a time, and a row whose factor is zero is left out.
Here each loop is a fold over the indices it runs over, and a division by zero
is a failure of its own, so that its absence can be stated.

Column by column, the rows stay those of `Gauss.forward` (`forward_agree`): they
agree at the first `n` rows and columns, which are all that is ever read.  So
the loops compute `Gauss.solve` (`solveDense_eq`), and what is known of that
holds of them.
-/
import Feldspar.Frame
import Mathlib.Algebra.BigOperators.Fin
import Mathlib.Tactic.NormNum

set_option linter.unusedSectionVars false

namespace Feldspar

namespace Dense

open Gauss (System)

variable {K : Type} [Field K] [LinearOrder K]

/-! ### The loops -/

/-- `SingularSystem`, and a division by zero, which is no answer of the source. -/
inductive DenseError
  | singularSystem
  | divisionByZero
  deriving DecidableEq

def divide (x y : K) : Except DenseError K := if y = 0 then .error .divisionByZero else .ok (x / y)

/-- The pivot row and its value so far. -/
def scanPivot (s : System K) (col : ℕ) (pivot : ℕ × K) (row : ℕ) : ℕ × K :=
  if pivot.2 < |s.a row col| then (row, |s.a row col|) else pivot

def findPivot (n : ℕ) (s : System K) (col : ℕ) : ℕ × K :=
  (List.range' (col + 1) (n - (col + 1))).foldl (scanPivot s col) (col, |s.a col col|)

/-- `a[row][k] -= factor * a[col][k]`. -/
def lowerEntry (col row : ℕ) (factor : K) (s : System K) (k : ℕ) : System K :=
  ⟨Function.update s.a row (Function.update (s.a row) k (s.a row k - factor * s.a col k)), s.b⟩

def eliminateRow (n col : ℕ) (s : System K) (row : ℕ) : Except DenseError (System K) := do
  let factor ← divide (s.a row col) (s.a col col)
  if factor = 0 then pure s
  else
    let s := (List.range' col (n - col)).foldl (lowerEntry col row factor) s
    pure { s with b := Function.update s.b row (s.b row - factor * s.b col) }

def eliminateColumn (n : ℕ) (s : System K) (col : ℕ) : Except DenseError (System K) :=
  let (pivotRow, pivotVal) := findPivot n s col
  if pivotVal < 1e-12 then .error .singularSystem
  else
    let s := if pivotRow ≠ col then s.swap col pivotRow else s
    (List.range' (col + 1) (n - (col + 1))).foldlM (eliminateRow n col) s

/-- One unknown of the back substitution. -/
def substituteRow (n : ℕ) (s : System K) (x : ℕ → K) (row : ℕ) : Except DenseError (ℕ → K) := do
  let sum := (List.range' (row + 1) (n - (row + 1))).foldl (fun sum k => sum - s.a row k * x k)
    (s.b row)
  let v ← divide sum (s.a row row)
  pure (Function.update x row v)

variable {n : ℕ}

/-- The rows of a matrix and a vector. -/
def rows (a : Fin n → Fin n → K) (b : Fin n → K) : System K :=
  ⟨Gauss.gatherRows (List.finRange n) a, Gauss.gather (List.finRange n) b⟩

/-- The first `cols` passes of the elimination. -/
def eliminateColumns (n : ℕ) (s : System K) (cols : ℕ) : Except DenseError (System K) :=
  (List.range cols).foldlM (eliminateColumn n) s

/-- `solve_dense`. -/
def solveDense (a : Fin n → Fin n → K) (b : Fin n → K) : Except DenseError (Fin n → K) :=
  if n = 0 then .ok 0
  else do
    let s ← eliminateColumns n (rows a b) n
    let x ← (List.range n).reverse.foldlM (substituteRow n s) 0
    pure fun i => x i

/-! ### Rows that agree -/

/-- The same entries at the first `n` rows and columns. -/
structure Agree (n : ℕ) (s t : System K) : Prop where
  a : ∀ i < n, ∀ k < n, s.a i k = t.a i k
  b : ∀ i < n, s.b i = t.b i

section Agree

variable {s t u : System K} {col : ℕ}

theorem Agree.trans (h : Agree n s t) (h' : Agree n t u) : Agree n s u where
  a i hi k hk := (h.a i hi k hk).trans (h'.a i hi k hk)
  b i hi := (h.b i hi).trans (h'.b i hi)

theorem Agree.swap (h : Agree n s t) {p q : ℕ} (hp : p < n) (hq : q < n) :
    Agree n (s.swap p q) (t.swap p q) := by
  have hlt : ∀ i < n, Equiv.swap p q i < n := by
    intro i hi
    rw [Equiv.swap_apply_def]
    split_ifs <;> assumption
  exact ⟨fun i hi k hk => h.a _ (hlt i hi) k hk, fun i hi => h.b _ (hlt i hi)⟩

theorem Agree.eliminate (h : Agree n s t) (hcol : col < n) :
    Agree n (s.eliminate col) (t.eliminate col) := by
  constructor
  · intro i hi k hk
    simp only [System.eliminate, h.a i hi k hk, h.a i hi col hcol, h.a col hcol col hcol,
      h.a col hcol k hk]
  · intro i hi
    simp only [System.eliminate, h.b i hi, h.b col hcol, h.a i hi col hcol, h.a col hcol col hcol]

/-- The scan keeps the row of the pivot and the value there. -/
theorem foldl_scanPivot (h : Agree n s t) (hcol : col < n) : ∀ (rows : List ℕ) (p : ℕ),
    (∀ row ∈ rows, row < n) → p < n →
      rows.foldl (scanPivot s col) (p, |s.a p col|)
        = (let q := rows.foldl (fun p row => if |t.a p col| < |t.a row col| then row else p) p
          (q, |t.a q col|))
  | [], p, _, hp => by
      show (p, |s.a p col|) = (p, |t.a p col|)
      rw [h.a p hp col hcol]
  | row :: rows, p, hrows, hp => by
      obtain ⟨hrow, hrows⟩ := List.forall_mem_cons.mp hrows
      rw [List.foldl_cons, List.foldl_cons, scanPivot, h.a p hp col hcol, h.a row hrow col hcol]
      by_cases hlt : |t.a p col| < |t.a row col|
      · rw [if_pos hlt, if_pos hlt, ← h.a row hrow col hcol]
        exact foldl_scanPivot h hcol rows row hrows hrow
      · rw [if_neg hlt, if_neg hlt, ← h.a p hp col hcol]
        exact foldl_scanPivot h hcol rows p hrows hp

theorem findPivot_eq (h : Agree n s t) (hcol : col < n) :
    findPivot n s col = (Gauss.pivotRow n col t, |t.a (Gauss.pivotRow n col t) col|) := by
  refine foldl_scanPivot h hcol _ col (fun row hrow => ?_) hcol
  rw [List.mem_range'_1] at hrow
  omega

end Agree

/-! ### One row -/

section Row

variable {s : System K} {col row : ℕ}

theorem lowerEntry_update (hrow : row ≠ col) (factor : K) (f : ℕ → K) (k : ℕ) :
    lowerEntry col row factor ⟨Function.update s.a row f, s.b⟩ k
      = ⟨Function.update s.a row (Function.update f k (f k - factor * s.a col k)), s.b⟩ := by
  simp only [lowerEntry, Function.update_self, Function.update_of_ne hrow.symm,
    Function.update_idem]

/-- The entries from the pivot's column on, one after the other; the row of the
pivot stays as it is. -/
theorem foldl_lowerEntry (hrow : row ≠ col) (factor : K) : ∀ m : ℕ,
    (List.range' col m).foldl (lowerEntry col row factor) s
      = ⟨Function.update s.a row fun k =>
          if col ≤ k ∧ k < col + m then s.a row k - factor * s.a col k else s.a row k, s.b⟩
  | 0 => by
      have hnone : (fun k => if col ≤ k ∧ k < col + 0 then s.a row k - factor * s.a col k
          else s.a row k) = s.a row := by
        funext k
        exact if_neg (by omega)
      rw [hnone, Function.update_eq_self]
      rfl
  | m + 1 => by
      rw [List.range'_1_concat, List.foldl_append, foldl_lowerEntry hrow factor m, List.foldl_cons,
        List.foldl_nil, lowerEntry_update hrow]
      congr 2
      funext k
      by_cases hk : k = col + m
      · subst hk
        rw [Function.update_self, if_neg (by omega), if_pos (by omega)]
      · rw [Function.update_of_ne hk]
        by_cases hle : col ≤ k ∧ k < col + m
        · rw [if_pos hle, if_pos (by omega)]
        · rw [if_neg hle, if_neg (by omega)]

/-- The rows up to `done` are those of the elimination, the others are still as
they were. -/
structure RowsDone (n col done : ℕ) (s s' : System K) : Prop where
  a : ∀ i, ∀ k < n, s'.a i k = if i < done then (s.eliminate col).a i k else s.a i k
  b : ∀ i, s'.b i = if i < done then (s.eliminate col).b i else s.b i

theorem rowsDone_start (n col : ℕ) (s : System K) : RowsDone n col (col + 1) s s := by
  constructor
  · intro i k _
    by_cases hi : i < col + 1
    · rw [if_pos hi]
      exact (if_neg fun h => absurd h.1 (by omega)).symm
    · rw [if_neg hi]
  · intro i
    by_cases hi : i < col + 1
    · rw [if_pos hi]
      exact (if_neg (by omega)).symm
    · rw [if_neg hi]

/-- One more row is done when it is the one of the elimination and the others have
not changed. -/
theorem RowsDone.next {s' s'' : System K} (h : RowsDone n col row s s')
    (ha : ∀ k < n, s''.a row k = (s.eliminate col).a row k)
    (hb : s''.b row = (s.eliminate col).b row)
    (hothers : ∀ i ≠ row, s''.a i = s'.a i ∧ s''.b i = s'.b i) :
    RowsDone n col (row + 1) s s'' := by
  have hnext : ∀ {i}, i ≠ row → (i < row ↔ i < row + 1) := fun hi => by omega
  constructor
  · intro i k hk
    by_cases hi : i = row
    · subst hi
      rw [ha k hk, if_pos (Nat.lt_succ_self i)]
    · rw [(hothers i hi).1]
      exact (h.a i k hk).trans (if_congr (hnext hi) rfl rfl)
  · intro i
    by_cases hi : i = row
    · subst hi
      rw [hb, if_pos (Nat.lt_succ_self i)]
    · rw [(hothers i hi).2]
      exact (h.b i).trans (if_congr (hnext hi) rfl rfl)

theorem eliminateRow_done {s' : System K} (hcol : col < n) (hpivot : s.a col col ≠ 0)
    (hbelow : col < row) (h : RowsDone n col row s s') :
    ∃ s'', eliminateRow n col s' row = .ok s'' ∧ RowsDone n col (row + 1) s s'' := by
  -- neither the pivot's row nor this one has been touched
  have hcolRow : ∀ k < n, s'.a col k = s.a col k := by
    intro k hk
    rw [h.a col k hk, if_pos hbelow]
    exact if_neg fun hlt => absurd hlt.1 (lt_irrefl col)
  have hcolB : s'.b col = s.b col := by
    rw [h.b col, if_pos hbelow]
    exact if_neg (lt_irrefl col)
  have hrowA : ∀ k < n, s'.a row k = s.a row k := by
    intro k hk
    rw [h.a row k hk, if_neg (lt_irrefl row)]
  have hrowB : s'.b row = s.b row := by
    rw [h.b row, if_neg (lt_irrefl row)]
  have hfactor : divide (s'.a row col) (s'.a col col) = .ok (s.a row col / s.a col col) := by
    rw [divide, hcolRow col hcol, hrowA col hcol, if_neg hpivot]
  by_cases hzero : s.a row col / s.a col col = 0
  · refine ⟨s', ?_, h.next (fun k hk => ?_) ?_ fun i _ => ⟨rfl, rfl⟩⟩
    · rw [eliminateRow, hfactor]
      exact if_pos hzero
    · rw [hrowA k hk]
      simp only [System.eliminate, hzero, zero_mul, sub_zero, ite_self]
    · rw [hrowB]
      simp only [System.eliminate, hzero, zero_mul, sub_zero, ite_self]
  · set lowered := (List.range' col (n - col)).foldl
      (lowerEntry col row (s.a row col / s.a col col)) s' with hlowered
    rw [foldl_lowerEntry hbelow.ne'] at hlowered
    refine ⟨⟨lowered.a, Function.update lowered.b row
      (lowered.b row - s.a row col / s.a col col * lowered.b col)⟩, ?_,
      h.next (fun k hk => ?_) ?_ fun i hi => ?_⟩
    · rw [eliminateRow, hfactor]
      exact if_neg hzero
    · rw [hlowered]
      show Function.update s'.a row _ row k = _
      rw [Function.update_self, hrowA k hk, hcolRow k hk]
      simp only [System.eliminate, hbelow, true_and]
      by_cases hle : col ≤ k
      · rw [if_pos hle, if_pos (by omega)]
      · rw [if_neg hle, if_neg fun hboth => hle hboth.1]
    · rw [hlowered]
      show Function.update s'.b row _ row = _
      rw [Function.update_self, hrowB, hcolB]
      simp only [System.eliminate, hbelow, if_true]
    · rw [hlowered]
      exact ⟨Function.update_of_ne hi _ _, Function.update_of_ne hi _ _⟩

theorem eliminateRows_done (hcol : col < n) (hpivot : s.a col col ≠ 0) : ∀ m : ℕ,
    ∃ s', (List.range' (col + 1) m).foldlM (eliminateRow n col) s = .ok s' ∧
      RowsDone n col (col + 1 + m) s s'
  | 0 => ⟨s, rfl, rowsDone_start n col s⟩
  | m + 1 => by
      obtain ⟨s', hs', hdone⟩ := eliminateRows_done hcol hpivot m
      obtain ⟨s'', hs'', hdone'⟩ := eliminateRow_done hcol hpivot (by omega) hdone
      refine ⟨s'', ?_, hdone'⟩
      rw [List.range'_1_concat, List.foldlM_append, hs']
      show (eliminateRow n col s' (col + 1 + m) >>= pure) = _
      rw [hs'']
      rfl

end Row

/-! ### The elimination -/

section Forward

variable [IsStrictOrderedRing K] {s t : System K} {col : ℕ}

theorem singularEps_pos : (0 : K) < 1e-12 := by norm_num

/-- A column without a pivot fails, and its entries from the diagonal on are
all small. -/
theorem eliminateColumn_none (h : Agree n s t) (hcol : col < n)
    (hnone : Gauss.column 1e-12 n t col = none) :
    eliminateColumn n s col = .error .singularSystem ∧
      ∀ row, col ≤ row → row < n → |s.a row col| < 1e-12 := by
  have hsmall : |t.a (Gauss.pivotRow n col t) col| < 1e-12 := by
    by_contra hlarge
    rw [Gauss.column, if_neg hlarge] at hnone
    cases hnone
  refine ⟨?_, fun row hle hlt => ?_⟩
  · rw [eliminateColumn, findPivot_eq h hcol]
    exact if_pos hsmall
  · rw [h.a row hlt col hcol]
    exact (Gauss.abs_le_pivotRow hle hlt).trans_lt hsmall

theorem eliminateColumn_some (h : Agree n s t) (hcol : col < n) {t' : System K}
    (hsome : Gauss.column 1e-12 n t col = some t') :
    ∃ s', eliminateColumn n s col = .ok s' ∧ Agree n s' t' := by
  set p := Gauss.pivotRow n col t with hp
  obtain ⟨-, hpn⟩ := Gauss.pivotRow_mem (s := t) hcol
  have hlarge : ¬ |t.a p col| < 1e-12 := by
    intro hsmall
    rw [Gauss.column, if_pos hsmall] at hsome
    cases hsome
  have ht' : (t.swap col p).eliminate col = t' := by
    rw [Gauss.column, if_neg hlarge] at hsome
    exact Option.some.inj hsome
  have hswap : (if p ≠ col then s.swap col p else s) = s.swap col p := by
    by_cases hpc : p ≠ col
    · exact if_pos hpc
    · rw [if_neg hpc, not_ne_iff.mp hpc, System.swap, Equiv.swap_self]
      rfl
  have hagree : Agree n (s.swap col p) (t.swap col p) := h.swap hcol hpn
  have hpivot : (s.swap col p).a col col ≠ 0 := by
    show s.a (Equiv.swap col p col) col ≠ 0
    rw [Equiv.swap_apply_left, h.a p hpn col hcol]
    exact abs_pos.mp (singularEps_pos.trans_le (not_lt.mp hlarge))
  obtain ⟨s', hs', hdone⟩ := eliminateRows_done hcol hpivot (n - (col + 1))
  refine ⟨s', ?_, ?_⟩
  · rw [eliminateColumn, findPivot_eq h hcol]
    show (if _ then _ else _) = _
    rw [if_neg hlarge, hswap]
    exact hs'
  · rw [← ht']
    refine Agree.trans ⟨fun i hi k hk => ?_, fun i hi => ?_⟩ (hagree.eliminate hcol)
    · rw [hdone.a i k hk, if_pos (by omega)]
    · rw [hdone.b i, if_pos (by omega)]

theorem eliminateColumns_succ (n : ℕ) (s : System K) (cols : ℕ) :
    eliminateColumns n s (cols + 1)
      = eliminateColumns n s cols >>= fun s' => eliminateColumn n s' cols := by
  rw [eliminateColumns, List.range_succ, List.foldlM_append]
  congr 1
  funext s'
  exact bind_pure _

/-- **The loops follow the elimination**, as far as it gets. -/
theorem forward_agree (s : System K) : ∀ {cols : ℕ} {t : System K}, cols ≤ n →
    Gauss.forward 1e-12 n s cols = some t →
      ∃ s', eliminateColumns n s cols = .ok s' ∧ Agree n s' t
  | 0, t, _, h => by
      obtain rfl := Option.some.inj h
      exact ⟨s, rfl, fun _ _ _ _ => rfl, fun _ _ => rfl⟩
  | cols + 1, t, hcols, h => by
      obtain ⟨t₁, ht₁, h⟩ := Option.bind_eq_some_iff.mp h
      obtain ⟨s₁, hs₁, hagree⟩ := forward_agree s (Nat.le_of_succ_le hcols) ht₁
      obtain ⟨s', hs', hagree'⟩ := eliminateColumn_some hagree hcols h
      refine ⟨s', ?_, hagree'⟩
      rw [eliminateColumns_succ, hs₁]
      exact hs'

/-- The rows when the elimination found column `col` without a pivot. -/
def Stuck (n : ℕ) (s : System K) (col : ℕ) : Prop :=
  ∃ s', eliminateColumns n s col = .ok s' ∧ ∀ row, col ≤ row → row < n → |s'.a row col| < 1e-12

theorem forward_stuck (s : System K) : ∀ {cols : ℕ}, cols ≤ n →
    Gauss.forward 1e-12 n s cols = none →
      eliminateColumns n s cols = .error .singularSystem ∧ ∃ col < n, Stuck n s col
  | cols + 1, hcols, h => by
      rcases ht : Gauss.forward 1e-12 n s cols with - | t
      · obtain ⟨herror, hstuck⟩ := forward_stuck s (Nat.le_of_succ_le hcols) ht
        refine ⟨?_, hstuck⟩
        rw [eliminateColumns_succ, herror]
        rfl
      · have hnone : Gauss.column 1e-12 n t cols = none := by
          rw [Gauss.forward, ht] at h
          exact h
        obtain ⟨s₁, hs₁, hagree⟩ := forward_agree s (Nat.le_of_succ_le hcols) ht
        obtain ⟨herror, hsmall⟩ := eliminateColumn_none hagree hcols hnone
        refine ⟨?_, cols, hcols, s₁, hs₁, hsmall⟩
        rw [eliminateColumns_succ, hs₁]
        exact herror

end Forward

/-! ### Back substitution -/

section Back

variable {s t : System K}

theorem foldl_sub (f : ℕ → K) : ∀ (l : List ℕ) (z : K),
    l.foldl (fun sum k => sum - f k) z = z - (l.map f).sum
  | [], z => (sub_zero z).symm
  | k :: l, z => by
      rw [List.foldl_cons, foldl_sub f l, List.map_cons, List.sum_cons, sub_sub]

theorem substituteRow_eq (h : Agree n s t) {m : ℕ} (hm : m < n) (hpivot : t.a m m ≠ 0)
    (x : ℕ → K) :
    substituteRow n s x m = .ok (Function.update x m
      ((t.b m - ∑ k ∈ Finset.Ico (m + 1) n, t.a m k * x k) / t.a m m)) := by
  have hsum : ((List.range' (m + 1) (n - (m + 1))).map fun k => s.a m k * x k).sum
      = ∑ k ∈ Finset.Ico (m + 1) n, t.a m k * x k := by
    have hlist : ((List.range' (m + 1) (n - (m + 1))).map fun k => s.a m k * x k).sum
        = ∑ k ∈ Finset.Ico (m + 1) n, s.a m k * x k := rfl
    rw [hlist]
    refine Finset.sum_congr rfl fun k hk => ?_
    rw [h.a m hm k (Finset.mem_Ico.mp hk).2]
  rw [substituteRow, foldl_sub, hsum, h.b m hm, h.a m hm m hm, divide, if_neg hpivot]
  rfl

/-- The loop from the last row up. -/
theorem substituteRows_eq (h : Agree n s t) (hpivot : ∀ k < n, t.a k k ≠ 0) :
    ∀ {m : ℕ} (x : ℕ → K), m ≤ n →
      (List.range m).reverse.foldlM (substituteRow n s) x = .ok (Gauss.backSubst n t m x)
  | 0, _, _ => rfl
  | m + 1, x, hm => by
      rw [List.range_succ, List.reverse_append, List.reverse_singleton, List.singleton_append,
        List.foldlM_cons, substituteRow_eq h hm (hpivot m hm)]
      exact substituteRows_eq h hpivot _ (Nat.le_of_succ_le hm)

end Back

/-! ### The solver -/

section Solver

variable [IsStrictOrderedRing K] (a : Fin n → Fin n → K) (b : Fin n → K)

/-- **The loops compute `Gauss.solve`.** -/
theorem solveDense_eq :
    solveDense a b = match Gauss.solve 1e-12 n (rows a b) with
      | some x => .ok fun i => x i
      | none => .error .singularSystem := by
  rw [Gauss.solve]
  rcases hforward : Gauss.forward 1e-12 n (rows a b) n with - | t
  · obtain ⟨herror, col, hcol, -⟩ := forward_stuck (rows a b) le_rfl hforward
    rw [solveDense, if_neg (Nat.ne_zero_of_lt hcol), herror]
    rfl
  · obtain ⟨s, hs, hagree⟩ := forward_agree (rows a b) le_rfl hforward
    obtain ⟨hechelon, -⟩ := Gauss.forward_spec singularEps_pos le_rfl hforward
    show solveDense a b = .ok fun i => Gauss.backSubst n t n 0 i
    by_cases hn : n = 0
    · subst hn
      rw [solveDense, if_pos rfl]
      exact congrArg _ (Subsingleton.elim _ _)
    · rw [solveDense, if_neg hn, hs]
      show ((List.range n).reverse.foldlM (substituteRow n s) 0
        >>= fun x => pure fun i : Fin n => x i) = _
      rw [substituteRows_eq hagree hechelon.pivot 0 le_rfl]
      rfl

/-- The assembly's solver on all the rows is these loops. -/
theorem frame_solveDense_eq :
    Frame.solveDense (List.finRange n) a b = match solveDense a b with
      | .ok x => .ok x
      | .error _ => .error .singularSystem := by
  have hlength : Gauss.solve 1e-12 (List.finRange n).length (rows a b)
      = Gauss.solve 1e-12 n (rows a b) := by
    rw [List.length_finRange]
  have hon : Gauss.solveOn 1e-12 (List.finRange n) a b
      = (Gauss.solve 1e-12 (List.finRange n).length (rows a b)).map fun x (j : Fin n) =>
        if j ∈ List.finRange n then x ((List.finRange n).idxOf j) else 0 := rfl
  rw [solveDense_eq, Frame.solveDense, hon, hlength]
  rcases Gauss.solve 1e-12 n (rows a b) with - | x
  · rfl
  · show Except.ok _ = Except.ok _
    congr 1
    funext i
    have hi : x ((List.finRange n).idxOf i) = x i := by
      rw [List.idxOf_finRange]
    exact (if_pos (List.mem_finRange i)).trans hi

variable {a b}

theorem solveDense_solves {x : Fin n → K} (h : solveDense a b = .ok x) (i : Fin n) :
    ∑ k, a i k * x k = b i := by
  have hframe : Frame.solveDense (List.finRange n) a b = .ok x := by
    rw [frame_solveDense_eq, h]
  have hon : Gauss.solveOn 1e-12 (List.finRange n) a b = some x := by
    rw [Frame.solveDense] at hframe
    rcases hsolve : Gauss.solveOn 1e-12 (List.finRange n) a b with - | x' <;> rw [hsolve] at hframe
    · cases hframe
    · exact congrArg _ (Except.ok.inj hframe)
  obtain ⟨-, hspec⟩ := Gauss.solveOn_spec singularEps_pos (List.nodup_finRange n) hon
  rw [Fin.sum_univ_def]
  exact (hspec x).mpr (fun _ _ => rfl) i (List.mem_finRange i)

/-- **The dense solver**: an answer solves the system, the only failure is a
column without a pivot, and there is no division by zero on the way. -/
theorem solveDense_correct (a : Fin n → Fin n → K) (b : Fin n → K) :
    (∀ x, solveDense a b = .ok x → ∀ i, ∑ k, a i k * x k = b i) ∧
      (solveDense a b = .error .singularSystem → ∃ col < n, Stuck n (rows a b) col) ∧
      solveDense a b ≠ .error .divisionByZero := by
  refine ⟨fun x h => solveDense_solves h, fun h => ?_, fun h => ?_⟩
  · rcases hforward : Gauss.forward 1e-12 n (rows a b) n with - | t
    · exact (forward_stuck (rows a b) le_rfl hforward).2
    · rw [solveDense_eq, Gauss.solve, hforward] at h
      cases h
  · rw [solveDense_eq] at h
    rcases hsolve : Gauss.solve 1e-12 n (rows a b) with - | x <;> rw [hsolve] at h <;> cases h

/-- Two equations whose rows have to be swapped. -/
theorem solveDense_correct_swapped :
    (∀ x, solveDense ![![(0 : ℚ), 2], ![1, 1]] ![4, 3] = .ok x →
        ∀ i, ∑ k, (![![(0 : ℚ), 2], ![1, 1]] : Fin 2 → Fin 2 → ℚ) i k * x k = ![4, 3] i) ∧
      (solveDense ![![(0 : ℚ), 2], ![1, 1]] ![4, 3] = .error .singularSystem →
        ∃ col < 2, Stuck 2 (rows ![![(0 : ℚ), 2], ![1, 1]] ![4, 3]) col) ∧
      solveDense ![![(0 : ℚ), 2], ![1, 1]] ![4, 3] ≠ .error .divisionByZero :=
  solveDense_correct ![![(0 : ℚ), 2], ![1, 1]] ![4, 3]

end Solver

end Dense

end Feldspar

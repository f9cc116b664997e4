/-
Feldspar/Lib/Gauss.lean

Gaussian elimination with partial pivoting.

A `System` is a matrix and a right-hand side, both as functions of indices;
only the first `n` rows and columns count.  Swapping two rows and subtracting a
multiple of one row from those below keep the solutions (`swap_solves`,
`eliminate_solves`), so the echelon form that `forward` arrives at has those of
the system it started from, and back substitution finds the only one.

`solveOn` solves the equations at a list of indices of any type.  Its one lemma
`solveOn_spec` says that the answer is the only solution.
-/
import Mathlib.Algebra.BigOperators.Intervals
import Mathlib.Algebra.BigOperators.Ring.Finset
import Mathlib.Algebra.Order.Field.Basic
import Mathlib.Algebra.Order.AbsoluteValue.Basic
import Mathlib.Logic.Equiv.Basic
import Mathlib.Tactic.FieldSimp
import Mathlib.Tactic.Ring
import Mathlib.Tactic.LinearCombination

set_option linter.unusedSectionVars false

namespace Gauss

variable {K : Type*} [Field K]

structure System (K : Type*) where
  a : ℕ → ℕ → K
  b : ℕ → K

/-- The left-hand side of row `i`. -/
def System.row (s : System K) (n : ℕ) (x : ℕ → K) (i : ℕ) : K :=
  ∑ k ∈ Finset.range n, s.a i k * x k

def System.Solves (s : System K) (n : ℕ) (x : ℕ → K) : Prop := ∀ i < n, s.row n x i = s.b i

def System.swap (s : System K) (p q : ℕ) : System K :=
  ⟨fun i => s.a (Equiv.swap p q i), fun i => s.b (Equiv.swap p q i)⟩

/-- Clear the column below the diagonal. -/
def System.eliminate (s : System K) (col : ℕ) : System K :=
  ⟨fun i k => if col < i ∧ col ≤ k then s.a i k - s.a i col / s.a col col * s.a col k else s.a i k,
    fun i => if col < i then s.b i - s.a i col / s.a col col * s.b col else s.b i⟩

/-- The columns before `c` are cleared. -/
structure Echelon (n c : ℕ) (s : System K) : Prop where
  zero : ∀ i k, i < n → k < c → k < i → s.a i k = 0
  pivot : ∀ k < c, s.a k k ≠ 0

section Rows

variable {n col : ℕ} {s : System K} {x : ℕ → K}

theorem swap_solves {p q : ℕ} (hp : p < n) (hq : q < n) : (s.swap p q).Solves n x ↔ s.Solves n x := by
  have hlt : ∀ {i}, i < n → Equiv.swap p q i < n := by
    intro i hi
    rw [Equiv.swap_apply_def]
    split_ifs <;> assumption
  constructor
  · intro h i hi
    have := h (Equiv.swap p q i) (hlt hi)
    simpa only [System.row, System.swap, Equiv.swap_apply_self] using this
  · exact fun h i hi => h (Equiv.swap p q i) (hlt hi)

/-- A row below the pivot's loses a multiple of it. -/
theorem row_eliminate (hzero : ∀ k < col, s.a col k = 0) {i : ℕ} (hi : col < i) :
    (s.eliminate col).row n x i = s.row n x i - s.a i col / s.a col col * s.row n x col := by
  simp only [System.row, System.eliminate, Finset.mul_sum, ← Finset.sum_sub_distrib]
  refine Finset.sum_congr rfl fun k _ => ?_
  split_ifs with hk
  · ring
  · -- left of the pivot, the pivot's row is zero
    rw [hzero k (not_le.mp fun hle => hk ⟨hi, hle⟩)]
    ring

theorem row_eliminate_of_le {i : ℕ} (hi : i ≤ col) :
    (s.eliminate col).row n x i = s.row n x i := by
  refine Finset.sum_congr rfl fun k _ => ?_
  show (if col < i ∧ col ≤ k then _ else s.a i k) * x k = s.a i k * x k
  rw [if_neg fun h => absurd h.1 (not_lt.mpr hi)]

theorem eliminate_solves (hcol : col < n) (hzero : ∀ k < col, s.a col k = 0) :
    (s.eliminate col).Solves n x ↔ s.Solves n x := by
  have hb : ∀ i, col < i →
      (s.eliminate col).b i = s.b i - s.a i col / s.a col col * s.b col := fun i hi => if_pos hi
  have hb' : ∀ i ≤ col, (s.eliminate col).b i = s.b i := fun i hi => if_neg (not_lt.mpr hi)
  constructor
  · intro h i hi
    have hpivot := h col hcol
    rw [row_eliminate_of_le le_rfl, hb' col le_rfl] at hpivot
    have hrow := h i hi
    rcases Nat.lt_or_ge col i with hlt | hle
    · rw [row_eliminate hzero hlt, hb i hlt, hpivot] at hrow
      exact sub_left_inj.mp hrow
    · rwa [row_eliminate_of_le hle, hb' i hle] at hrow
  · intro h i hi
    rcases Nat.lt_or_ge col i with hlt | hle
    · rw [row_eliminate hzero hlt, hb i hlt, h i hi, h col hcol]
    · rw [row_eliminate_of_le hle, hb' i hle, h i hi]

theorem Echelon.swap (h : Echelon n col s) {p : ℕ} (hcol : col < n) (hp : col ≤ p) (hpn : p < n) :
    Echelon n col (s.swap col p) := by
  constructor
  · intro i k hi hk hki
    show s.a (Equiv.swap col p i) k = 0
    rw [Equiv.swap_apply_def]
    split_ifs with hic hip
    · exact h.zero p k hpn hk (hk.trans_le hp)
    · exact h.zero col k hcol hk hk
    · exact h.zero i k hi hk hki
  · intro k hk
    show s.a (Equiv.swap col p k) k ≠ 0
    rw [Equiv.swap_apply_of_ne_of_ne hk.ne (hk.trans_le hp).ne]
    exact h.pivot k hk

theorem Echelon.eliminate (h : Echelon n col s) (hpivot : s.a col col ≠ 0) :
    Echelon n (col + 1) (s.eliminate col) := by
  constructor
  · intro i k hi hk hki
    show (if col < i ∧ col ≤ k then _ else s.a i k) = 0
    split_ifs with hbelow
    · obtain rfl : k = col := le_antisymm (Nat.lt_succ_iff.mp hk) hbelow.2
      rw [div_mul_cancel₀ _ hpivot, sub_self]
    · exact h.zero i k hi (not_le.mp fun hle => hbelow ⟨hle.trans_lt hki, hle⟩) hki
  · intro k hk
    show (if col < k ∧ col ≤ k then _ else s.a k k) ≠ 0
    rw [if_neg fun hlt => absurd hlt.1 (not_lt.mpr (Nat.lt_succ_iff.mp hk))]
    rcases Nat.lt_succ_iff_lt_or_eq.mp hk with hlt | rfl
    · exact h.pivot k hlt
    · exact hpivot

end Rows

/-! ### Elimination -/

section Forward

variable [LinearOrder K]

/-- The first row from `col` on with the largest entry in the column. -/
def pivotRow (n col : ℕ) (s : System K) : ℕ :=
  (List.range' (col + 1) (n - (col + 1))).foldl
    (fun p row => if |s.a p col| < |s.a row col| then row else p) col

/-- One column; there is no answer if its pivot is below `eps`. -/
def column (eps : K) (n : ℕ) (s : System K) (col : ℕ) : Option (System K) :=
  let p := pivotRow n col s
  if |s.a p col| < eps then none else some ((s.swap col p).eliminate col)

/-- The first `c` columns. -/
def forward (eps : K) (n : ℕ) (s : System K) : ℕ → Option (System K)
  | 0 => some s
  | c + 1 => (forward eps n s c).bind fun s => column eps n s c

/-- Back substitution in the first `m` rows, once the others are done. -/
def backSubst (n : ℕ) (s : System K) : ℕ → (ℕ → K) → ℕ → K
  | 0, x => x
  | m + 1, x =>
      backSubst n s m (Function.update x m
        ((s.b m - ∑ k ∈ Finset.Ico (m + 1) n, s.a m k * x k) / s.a m m))

def solve (eps : K) (n : ℕ) (s : System K) : Option (ℕ → K) :=
  (forward eps n s n).map fun s => backSubst n s n 0

variable {n c : ℕ} {s s' : System K} {eps : K}

theorem pivotRow_mem (hc : c < n) : c ≤ pivotRow n c s ∧ pivotRow n c s < n := by
  have hfold : ∀ (rows : List ℕ) (p : ℕ), (∀ row ∈ rows, c ≤ row ∧ row < n) → c ≤ p ∧ p < n →
      c ≤ rows.foldl (fun p row => if |s.a p c| < |s.a row c| then row else p) p ∧
        rows.foldl (fun p row => if |s.a p c| < |s.a row c| then row else p) p < n := by
    intro rows
    induction rows with
    | nil => exact fun _ _ hp => hp
    | cons row rows ih =>
        intro p hrows hp
        refine ih _ (fun r hr => hrows r (List.mem_cons_of_mem _ hr)) ?_
        show c ≤ (if _ then row else p) ∧ (if _ then row else p) < n
        split_ifs
        · exact hrows row List.mem_cons_self
        · exact hp
  refine hfold _ c (fun row hrow => ?_) ⟨le_rfl, hc⟩
  rw [List.mem_range'_1] at hrow
  omega

/-- No row from `c` on has a larger entry. -/
theorem abs_le_pivotRow {row : ℕ} (hle : c ≤ row) (hlt : row < n) :
    |s.a row c| ≤ |s.a (pivotRow n c s) c| := by
  have hfold : ∀ (rows : List ℕ) (p : ℕ),
      let q := rows.foldl (fun p row => if |s.a p c| < |s.a row c| then row else p) p
      |s.a p c| ≤ |s.a q c| ∧ ∀ row ∈ rows, |s.a row c| ≤ |s.a q c| := by
    intro rows
    induction rows with
    | nil => exact fun _ => ⟨le_rfl, by simp⟩
    | cons row rows ih =>
        intro p
        obtain ⟨hp, hrows⟩ := ih (if |s.a p c| < |s.a row c| then row else p)
        rw [List.foldl_cons]
        by_cases hlarger : |s.a p c| < |s.a row c|
        · rw [if_pos hlarger] at hp hrows ⊢
          exact ⟨hlarger.le.trans hp, List.forall_mem_cons.mpr ⟨hp, hrows⟩⟩
        · rw [if_neg hlarger] at hp hrows ⊢
          exact ⟨hp, List.forall_mem_cons.mpr ⟨(not_lt.mp hlarger).trans hp, hrows⟩⟩
  obtain ⟨hfirst, hrest⟩ := hfold (List.range' (c + 1) (n - (c + 1))) c
  rcases hle.eq_or_lt with rfl | hbelow
  · exact hfirst
  · exact hrest row (List.mem_range'_1.mpr (by omega))

variable [IsStrictOrderedRing K]

theorem column_spec (heps : 0 < eps) (hc : c < n) (hs : Echelon n c s)
    (h : column eps n s c = some s') :
    Echelon n (c + 1) s' ∧ ∀ x, s'.Solves n x ↔ s.Solves n x := by
  obtain ⟨hle, hlt⟩ := pivotRow_mem (s := s) hc
  simp only [column] at h
  split_ifs at h with hsmall
  obtain rfl := Option.some.inj h
  have hswap : Echelon n c (s.swap c (pivotRow n c s)) := hs.swap hc hle hlt
  have hpivot : (s.swap c (pivotRow n c s)).a c c ≠ 0 := by
    show s.a (Equiv.swap c (pivotRow n c s) c) c ≠ 0
    rw [Equiv.swap_apply_left]
    exact abs_pos.mp (heps.trans_le (not_lt.mp hsmall))
  refine ⟨hswap.eliminate hpivot, fun x => ?_⟩
  rw [eliminate_solves hc fun k hk => hswap.zero c k hc hk hk, swap_solves hc hlt]

theorem forward_spec (heps : 0 < eps) : ∀ {c : ℕ} {s' : System K}, c ≤ n →
    forward eps n s c = some s' → Echelon n c s' ∧ ∀ x, s'.Solves n x ↔ s.Solves n x
  | 0, s', _, h => by
      obtain rfl := Option.some.inj h
      exact ⟨⟨fun _ k _ hk => absurd hk k.not_lt_zero, fun k hk => absurd hk k.not_lt_zero⟩,
        fun _ => Iff.rfl⟩
  | c + 1, s', hc, h => by
      obtain ⟨s₁, h₁, h⟩ := Option.bind_eq_some_iff.mp h
      obtain ⟨hechelon, hsolves⟩ := forward_spec heps (Nat.le_of_succ_le hc) h₁
      obtain ⟨hechelon', hsolves'⟩ := column_spec heps hc hechelon h
      exact ⟨hechelon', fun x => (hsolves' x).trans (hsolves x)⟩

/-- The rows from `m` on have the one solution `x`. -/
def SolvedFrom (n : ℕ) (s : System K) (m : ℕ) (x : ℕ → K) : Prop :=
  ∀ y, (∀ i, m ≤ i → i < n → s.row n y i = s.b i) ↔ ∀ i, m ≤ i → i < n → y i = x i

/-- A row of an echelon form starts at the diagonal. -/
theorem Echelon.row_eq (hs : Echelon n n s) {m : ℕ} (hm : m < n) (y : ℕ → K) :
    s.row n y m = s.a m m * y m + ∑ k ∈ Finset.Ico (m + 1) n, s.a m k * y k := by
  rw [System.row, ← Finset.sum_range_add_sum_Ico _ hm, Finset.sum_range_succ,
    Finset.sum_eq_zero, zero_add]
  intro k hk
  have hkm : k < m := Finset.mem_range.mp hk
  rw [hs.zero m k hm (hkm.trans hm) hkm, zero_mul]

theorem backSubst_spec (hs : Echelon n n s) : ∀ {m : ℕ} {x : ℕ → K}, m ≤ n →
    SolvedFrom n s m x → SolvedFrom n s 0 (backSubst n s m x)
  | 0, _, _, hx => hx
  | m + 1, x, hm, hx => by
      refine backSubst_spec (m := m) hs (Nat.le_of_succ_le hm) fun y => ?_
      set z := (s.b m - ∑ k ∈ Finset.Ico (m + 1) n, s.a m k * x k) / s.a m m with hz
      have hpivot : s.a m m ≠ 0 := hs.pivot m hm
      -- the rows below settle the unknowns after `m`, and row `m` then settles `m`
      have hrow : (∀ i, m + 1 ≤ i → i < n → y i = x i) → (s.row n y m = s.b m ↔ y m = z) := by
        intro hy
        have hsum : ∑ k ∈ Finset.Ico (m + 1) n, s.a m k * y k
            = ∑ k ∈ Finset.Ico (m + 1) n, s.a m k * x k := by
          refine Finset.sum_congr rfl fun k hk => ?_
          rw [hy k (Finset.mem_Ico.mp hk).1 (Finset.mem_Ico.mp hk).2]
        rw [hs.row_eq hm, hsum, hz, eq_div_iff hpivot, eq_sub_iff_add_eq, mul_comm]
      have hupdate : ∀ i, m + 1 ≤ i → Function.update x m z i = x i :=
        fun i hi => Function.update_of_ne (by omega) _ _
      constructor
      · intro h i hi hin
        have hafter := (hx y).mp fun i hi => h i (by omega)
        rcases hi.eq_or_lt with rfl | hlt
        · rw [Function.update_self]
          exact (hrow hafter).mp (h m le_rfl hm)
        · rw [hupdate i hlt]
          exact hafter i hlt hin
      · intro h i hi hin
        have hafter : ∀ i, m + 1 ≤ i → i < n → y i = x i := by
          intro i hi hin
          rw [h i (by omega) hin, hupdate i hi]
        rcases hi.eq_or_lt with rfl | hlt
        · refine (hrow hafter).mpr ?_
          rw [h m le_rfl hm, Function.update_self]
        · exact (hx y).mpr hafter i hlt hin

/-- **The answer is the only solution.** -/
theorem solve_spec (heps : 0 < eps) {x : ℕ → K} (h : solve eps n s = some x) (y : ℕ → K) :
    s.Solves n y ↔ ∀ i < n, y i = x i := by
  obtain ⟨s', hs', rfl⟩ := Option.map_eq_some_iff.mp h
  obtain ⟨hechelon, hsolves⟩ := forward_spec heps le_rfl hs'
  have hfrom : SolvedFrom n s' n 0 :=
    fun y => ⟨fun _ i hi hin => absurd hi (not_le.mpr hin), fun _ i hi hin => absurd hi (not_le.mpr hin)⟩
  have hall := backSubst_spec hechelon le_rfl hfrom y
  rw [← hsolves y]
  constructor
  · exact fun hy i hi => hall.mp (fun i _ hi => hy i hi) i (Nat.zero_le i) hi
  · exact fun hy i hi => hall.mpr (fun i _ hi => hy i hi) i (Nat.zero_le i) hi

end Forward

/-! ### Equations at a list of indices -/

section Indexed

variable {ι : Type*} [DecidableEq ι]

/-- The entry of the index at position `i`. -/
def gather (idx : List ι) (f : ι → K) (i : ℕ) : K := (idx[i]?.map f).getD 0

def gatherRows (idx : List ι) (a : ι → ι → K) (i k : ℕ) : K :=
  gather idx (fun r => gather idx (a r) k) i

/-- Solve the equations at the indices `idx`, for the unknowns there; the other
unknowns are zero. -/
def solveOn [LinearOrder K] (eps : K) (idx : List ι) (a : ι → ι → K) (b : ι → K) :
    Option (ι → K) :=
  (solve eps idx.length ⟨gatherRows idx a, gather idx b⟩).map fun x j =>
    if j ∈ idx then x (idx.idxOf j) else 0

variable {idx : List ι} {f : ι → K}

theorem sum_gather (idx : List ι) (f : ι → K) :
    ∑ k ∈ Finset.range idx.length, gather idx f k = (idx.map f).sum := by
  induction idx with
  | nil => rfl
  | cons j idx ih =>
      rw [List.length_cons, Finset.sum_range_succ', List.map_cons, List.sum_cons, ← ih, add_comm]
      rfl

theorem gather_of_getElem? {i : ℕ} {j : ι} (h : idx[i]? = some j) : gather idx f i = f j := by
  rw [gather, h]
  rfl

theorem row_gatherRows {a : ι → ι → K} {b y : ι → K} {i : ℕ} {j : ι} (h : idx[i]? = some j) :
    (⟨gatherRows idx a, gather idx b⟩ : System K).row idx.length (gather idx y) i
      = (idx.map fun k => a j k * y k).sum := by
  rw [← sum_gather]
  refine Finset.sum_congr rfl fun k hk => ?_
  obtain ⟨l, hl⟩ : ∃ l, idx[k]? = some l :=
    ⟨_, List.getElem?_eq_getElem (Finset.mem_range.mp hk)⟩
  show gatherRows idx a i k * gather idx y k = _
  rw [gatherRows, gather_of_getElem? h, gather_of_getElem? hl, gather_of_getElem? hl,
    gather_of_getElem? hl]

theorem solveOn_spec [LinearOrder K] [IsStrictOrderedRing K] {eps : K} (heps : 0 < eps)
    {a : ι → ι → K} {b x : ι → K} (hnodup : idx.Nodup) (h : solveOn eps idx a b = some x) :
    (∀ j ∉ idx, x j = 0) ∧
      ∀ y : ι → K, (∀ i ∈ idx, (idx.map fun k => a i k * y k).sum = b i) ↔ ∀ i ∈ idx, y i = x i := by
  obtain ⟨x', hx', rfl⟩ := Option.map_eq_some_iff.mp h
  refine ⟨fun j hj => if_neg hj, fun y => ?_⟩
  have hspec := solve_spec heps hx' (gather idx y)
  have hrows : (⟨gatherRows idx a, gather idx b⟩ : System K).Solves idx.length (gather idx y) ↔
      ∀ i ∈ idx, (idx.map fun k => a i k * y k).sum = b i := by
    constructor
    · intro hsolves j hj
      obtain ⟨i, hi⟩ := List.mem_iff_getElem?.mp hj
      have hrow := hsolves i (List.getElem?_eq_some_iff.mp hi).1
      rw [row_gatherRows hi] at hrow
      exact hrow.trans (gather_of_getElem? hi)
    · intro hidx i hi
      obtain ⟨j, hj⟩ : ∃ j, idx[i]? = some j := ⟨_, List.getElem?_eq_getElem hi⟩
      rw [row_gatherRows hj, hidx j (List.mem_of_getElem? hj)]
      exact (gather_of_getElem? hj).symm
  have hentries : (∀ i < idx.length, gather idx y i = x' i) ↔
      ∀ j ∈ idx, y j = if j ∈ idx then x' (idx.idxOf j) else 0 := by
    constructor
    · intro hall j hj
      have hpos : idx[idx.idxOf j]? = some j := List.getElem?_idxOf hj
      rw [if_pos hj, ← hall _ (List.idxOf_lt_length_iff.mpr hj), gather_of_getElem? hpos]
    · intro hall i hi
      obtain ⟨j, hj⟩ : ∃ j, idx[i]? = some j := ⟨_, List.getElem?_eq_getElem hi⟩
      have hmem := List.mem_of_getElem? hj
      have hpos : idx.idxOf j = i := by
        obtain ⟨hlt, rfl⟩ := List.getElem?_eq_some_iff.mp hj
        exact hnodup.idxOf_getElem i hlt
      rw [gather_of_getElem? hj, hall j hmem, if_pos hmem, hpos]
  rw [← hrows, hspec, hentries]

end Indexed

end Gauss

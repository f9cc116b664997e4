/-
Feldspar/FrameEquilibrium.lean

Equilibrium of a solved frame.

The system is assembled from condensed matrices, and the end forces are
recovered from the full ones.  Both are the same linear map of the
displacements once the released rotations satisfy their moment condition
(`condense_spec`), and there is one choice of the rotations that does.  So the
row of a degree of freedom in the global system is the sum of the end forces
there (`assembled_row`), and what is left of the row is the reaction.
-/
import Feldspar.Frame
import Feldspar.Lib.Fallible
import Mathlib.Tactic.NormNum
import Mathlib.Tactic.FieldSimp
import Mathlib.Tactic.FinCases
import Mathlib.Algebra.BigOperators.Fin
import Mathlib.Algebra.Order.Ring.Rat

set_option linter.unusedSectionVars false

namespace Feldspar

namespace Frame

variable {K : Type} [Field K] [LinearOrder K] [IsStrictOrderedRing K]

/-! ### The dense solver -/

/-- What a solution of `solve_dense` is: the only one. -/
theorem solveDense_spec {ι : Type} [DecidableEq ι] {idx : List ι} {a : ι → ι → K} {b x : ι → K}
    (hnodup : idx.Nodup) (h : solveDense idx a b = .ok x) :
    (∀ j ∉ idx, x j = 0) ∧
      ∀ y : ι → K, (∀ i ∈ idx, ∑ k ∈ idx.toFinset, a i k * y k = b i) ↔ ∀ i ∈ idx, y i = x i := by
  have hx : Gauss.solveOn 1e-12 idx a b = some x := by
    unfold solveDense at h
    rcases hsol : Gauss.solveOn 1e-12 idx a b with _ | x'
    · rw [hsol] at h
      cases h
    · rw [hsol] at h
      exact congrArg _ (Except.ok.inj h)
  obtain ⟨hout, hspec⟩ := Gauss.solveOn_spec (by norm_num) hnodup hx
  refine ⟨hout, fun y => ?_⟩
  rw [← hspec y]
  simp only [List.sum_toFinset _ hnodup]

theorem solveDense_eq {ι : Type} [DecidableEq ι] {idx : List ι} {a : ι → ι → K} {b x : ι → K}
    (hnodup : idx.Nodup) (h : solveDense idx a b = .ok x) :
    ∀ i ∈ idx, ∑ k ∈ idx.toFinset, a i k * x k = b i :=
  ((solveDense_spec hnodup h).2 x).mpr fun _ _ => rfl

/-! ### Condensation -/

section Condensation

variable {k : Fin 6 → Fin 6 → K} {fef : Fin 6 → K} {condensed : List (Fin 6)}
  {red : Condensation K}

theorem nodup_retainedOf (condensed : List (Fin 6)) : (retainedOf condensed).Nodup :=
  (List.nodup_finRange 6).filter _

theorem mem_retainedOf {i : Fin 6} : i ∈ retainedOf condensed ↔ i ∉ condensed := by
  simp [retainedOf]

theorem sum_retainedOf (f : Fin 6 → K) :
    ((retainedOf condensed).map f).sum = ∑ i ∈ condensed.toFinsetᶜ, f i := by
  have hset : (retainedOf condensed).toFinset = condensed.toFinsetᶜ := by
    ext i
    simp [mem_retainedOf]
  rw [← List.sum_toFinset f (nodup_retainedOf condensed), hset]

theorem sum_split (condensed : List (Fin 6)) (f : Fin 6 → K) :
    ∑ i, f i = ((retainedOf condensed).map f).sum + ∑ i ∈ condensed.toFinset, f i := by
  rw [sum_retainedOf, Finset.sum_compl_add_sum]

theorem condense_retained (h : condense k fef condensed = .ok red) :
    red.retained = retainedOf condensed := by
  simp only [condense] at h
  split_ifs at h with hempty
  · obtain rfl := Except.ok.inj h
    rfl
  · obtain ⟨columns, -, h⟩ := Fallible.bind_eq_ok.mp h
    obtain ⟨load, -, h⟩ := Fallible.bind_eq_ok.mp h
    obtain rfl := Except.ok.inj h
    rfl

/-- Every column is solved for. -/
theorem columns_spec {columns : Fin 6 → Fin 6 → K} {retained : List (Fin 6)}
    (h : retained.foldlM (condenseColumn k condensed) (fun _ _ => 0) = .ok columns) :
    ∀ q ∈ retained, solveDense condensed k (fun r => k r q) = .ok (columns q) := by
  refine Fallible.foldlM_invariant (I := fun done columns => ∀ q ∈ done,
    solveDense condensed k (fun r => k r q) = .ok (columns q)) ?_ (fun _ hq => by cases hq) h
  intro done rcol columns columns' hdone hstep q hq
  obtain ⟨sol, hsol, hstep⟩ := Fallible.bind_eq_ok.mp hstep
  obtain rfl := Except.ok.inj hstep
  by_cases heq : q = rcol
  · rw [heq, Function.update_self]
    exact hsol
  · rw [Function.update_of_ne heq]
    refine hdone q ((List.mem_append.mp hq).resolve_right fun hmem => ?_)
    exact heq (List.mem_singleton.mp hmem)

/-- **Static condensation**: where the condensed degrees of freedom carry no
force, the reduced matrix gives the forces of the full one. -/
theorem condense_spec (hnodup : condensed.Nodup) (h : condense k fef condensed = .ok red)
    {d : Fin 6 → K} (hreleased : ∀ c ∈ condensed, fef c + ∑ col, k c col * d col = 0)
    (p : Fin 6) :
    fef p + ∑ col, k p col * d col
      = red.fefRed p + (red.retained.map fun q => red.kRed p q * d q).sum := by
  rw [condense_retained h]
  simp only [condense] at h
  split_ifs at h with hempty
  · obtain rfl := Except.ok.inj h
    obtain rfl := List.isEmpty_iff.mp hempty
    rw [sum_split []]
    simp
  · obtain ⟨columns, hcolumns, h⟩ := Fallible.bind_eq_ok.mp h
    obtain ⟨load, hload, h⟩ := Fallible.bind_eq_ok.mp h
    obtain rfl := Except.ok.inj h
    have hcolumn : ∀ q ∉ condensed, ∀ c ∈ condensed,
        ∑ c' ∈ condensed.toFinset, k c c' * columns q c' = k c q :=
      fun q hq => solveDense_eq hnodup (columns_spec hcolumns q (mem_retainedOf.mpr hq))
    -- the condensed displacements are the ones the solver's columns give
    have hd : ∀ c ∈ condensed, -d c - ∑ q ∈ condensed.toFinsetᶜ, columns q c * d q = load c := by
      refine ((solveDense_spec hnodup hload).2 fun c =>
        -d c - ∑ q ∈ condensed.toFinsetᶜ, columns q c * d q).mp fun c hc => ?_
      have hsum : ∑ c' ∈ condensed.toFinset, k c c' * ∑ q ∈ condensed.toFinsetᶜ, columns q c' * d q
          = ∑ q ∈ condensed.toFinsetᶜ, k c q * d q := by
        simp only [Finset.mul_sum]
        rw [Finset.sum_comm]
        refine Finset.sum_congr rfl fun q hq => ?_
        have hq' : q ∉ condensed := by simpa using hq
        rw [← hcolumn q hq' c hc, Finset.sum_mul]
        exact Finset.sum_congr rfl fun c' _ => by ring
      have hrow := hreleased c hc
      rw [sum_split condensed, sum_retainedOf] at hrow
      simp only [mul_sub, mul_neg, Finset.sum_sub_distrib, Finset.sum_neg_distrib]
      rw [hsum]
      linear_combination -hrow
    have hforce : ∑ c ∈ condensed.toFinset, k p c * d c
        = -(∑ c ∈ condensed.toFinset, k p c * load c)
          - ∑ q ∈ condensed.toFinsetᶜ, (∑ c ∈ condensed.toFinset, k p c * columns q c) * d q := by
      have hswap : ∑ q ∈ condensed.toFinsetᶜ, (∑ c ∈ condensed.toFinset, k p c * columns q c) * d q
          = ∑ c ∈ condensed.toFinset, k p c * ∑ q ∈ condensed.toFinsetᶜ, columns q c * d q := by
        simp only [Finset.mul_sum, Finset.sum_mul]
        rw [Finset.sum_comm]
        exact Finset.sum_congr rfl fun c _ => Finset.sum_congr rfl fun q _ => by ring
      rw [hswap, ← Finset.sum_neg_distrib, ← Finset.sum_sub_distrib]
      refine Finset.sum_congr rfl fun c hc => ?_
      rw [← hd c (List.mem_toFinset.mp hc)]
      ring
    rw [sum_split condensed, sum_retainedOf, sum_retainedOf, hforce]
    simp only [← List.sum_toFinset _ hnodup, sub_mul, Finset.sum_sub_distrib]
    ring

end Condensation

/-! ### End forces -/

/-- The end forces are those of the displacements of the member's own degrees
of freedom, and the released ones carry no moment. -/
theorem recover_spec {dFull : ℕ → K} {rm : Reduced K} {f : Fin 6 → K}
    (hnodup : rm.condensed.Nodup) (hretained : rm.retained = retainedOf rm.condensed)
    (h : recover dFull rm = .ok f) :
    ∃ d : Fin 6 → K, (∀ row, f row = rm.fefFull row + ∑ col, rm.kFull row col * d col) ∧
      (∀ c ∈ rm.condensed, f c = 0) ∧
      ∀ li ∈ rm.retained, d li = ∑ a, transformRow li rm.c rm.s a * dFull (rm.globalDof a) := by
  obtain ⟨d, hd, h⟩ := Fallible.bind_eq_ok.mp h
  obtain rfl := Except.ok.inj h
  refine ⟨d, fun _ => rfl, ?_⟩
  simp only [localDisplacements] at hd
  split_ifs at hd with hempty
  · obtain rfl := Except.ok.inj hd
    refine ⟨fun c hc => ?_, fun li hli => if_pos hli⟩
    rw [List.isEmpty_iff.mp hempty] at hc
    cases hc
  · obtain ⟨dC, hdC, hd⟩ := Fallible.bind_eq_ok.mp hd
    obtain rfl := Except.ok.inj hd
    constructor
    · intro c hc
      have hrow := solveDense_eq hnodup hdC c hc
      -- the released unknowns solve the small system, the others are the frame's
      have hretain : (rm.retained.map fun li => rm.kFull c li *
          if li ∈ rm.condensed then dC li else retainedDisplacements dFull rm li)
          = rm.retained.map fun li => rm.kFull c li * retainedDisplacements dFull rm li := by
        refine List.map_congr_left fun li hli => ?_
        rw [if_neg (mem_retainedOf.mp (hretained ▸ hli))]
      have hcondense : ∑ li ∈ rm.condensed.toFinset, (rm.kFull c li *
          if li ∈ rm.condensed then dC li else retainedDisplacements dFull rm li)
          = ∑ li ∈ rm.condensed.toFinset, rm.kFull c li * dC li := by
        refine Finset.sum_congr rfl fun li hli => ?_
        rw [if_pos (List.mem_toFinset.mp hli)]
      show rm.fefFull c + ∑ li, (rm.kFull c li *
        if li ∈ rm.condensed then dC li else retainedDisplacements dFull rm li) = 0
      rw [sum_split rm.condensed, ← hretained, hretain, hcondense, hrow]
      ring
    · intro li hli
      show (if li ∈ rm.condensed then dC li else retainedDisplacements dFull rm li) = _
      rw [if_neg (mem_retainedOf.mp (hretained ▸ hli))]
      exact if_pos hli

namespace FrameMemberInput

theorem nodup_condensed (m : FrameMemberInput K) : m.condensed.Nodup := by
  unfold condensed
  split_ifs <;> decide

theorem mem_condensed_a {m : FrameMemberInput K} (h : m.releaseARz) : 2 ∈ m.condensed := by
  simp [condensed, h]

theorem mem_condensed_b {m : FrameMemberInput K} (h : m.releaseBRz) : 5 ∈ m.condensed := by
  simp [condensed, h]

/-- What the end forces at a member do at the degree of freedom `dof`. -/
def forceAt (sqrt : K → K) (m : FrameMemberInput K) (f : Fin 6 → K) (dof : ℕ) : K :=
  ∑ a, if m.globalDof a = dof then ∑ li, transformRow li (m.c sqrt) (m.s sqrt) a * f li else 0

end FrameMemberInput

/-- A member under its end forces: no moment at a released end, and equilibrium
of the forces and moments that the displacements add to the fixed-end ones. -/
structure MemberEquilibrium (sqrt : K → K) (m : FrameMemberInput K) (f : Fin 6 → K) : Prop where
  releasedA : m.releaseARz → f 2 = 0
  releasedB : m.releaseBRz → f 5 = 0
  axial : (f 0 - m.fefLocal 0) + (f 3 - m.fefLocal 3) = 0
  shear : (f 1 - m.fefLocal 1) + (f 4 - m.fefLocal 4) = 0
  moment : (f 2 - m.fefLocal 2) + (f 5 - m.fefLocal 5) = (f 1 - m.fefLocal 1) * m.length sqrt

/-- The stiffness of a member gives forces in equilibrium. -/
theorem localStiffnessFull_equilibrium (ea ei : K) {l : K} (hl : l ≠ 0) (d : Fin 6 → K) :
    (∑ col, localStiffnessFull ea ei l 0 col * d col)
        + ∑ col, localStiffnessFull ea ei l 3 col * d col = 0 ∧
      (∑ col, localStiffnessFull ea ei l 1 col * d col)
        + ∑ col, localStiffnessFull ea ei l 4 col * d col = 0 ∧
      (∑ col, localStiffnessFull ea ei l 2 col * d col)
        + ∑ col, localStiffnessFull ea ei l 5 col * d col
          = (∑ col, localStiffnessFull ea ei l 1 col * d col) * l := by
  have h12 : (12.0 : K) = 12 := by norm_num
  have h6 : (6.0 : K) = 6 := by norm_num
  have h4 : (4.0 : K) = 4 := by norm_num
  have h2 : (2.0 : K) = 2 := by norm_num
  -- the forces row by row
  have h₀ : ∑ col, localStiffnessFull ea ei l 0 col * d col
      = ea / l * d 0 + 0 * d 1 + 0 * d 2 + -(ea / l) * d 3 + 0 * d 4 + 0 * d 5 :=
    Fin.sum_univ_six _
  have h₃ : ∑ col, localStiffnessFull ea ei l 3 col * d col
      = -(ea / l) * d 0 + 0 * d 1 + 0 * d 2 + ea / l * d 3 + 0 * d 4 + 0 * d 5 :=
    Fin.sum_univ_six _
  have h₁ : ∑ col, localStiffnessFull ea ei l 1 col * d col
      = 0 * d 0 + 12.0 * ei / l ^ 3 * d 1 + 6.0 * ei / l ^ 2 * d 2 + 0 * d 3
        + -(12.0 * ei / l ^ 3) * d 4 + 6.0 * ei / l ^ 2 * d 5 :=
    Fin.sum_univ_six _
  have h₄ : ∑ col, localStiffnessFull ea ei l 4 col * d col
      = 0 * d 0 + -(12.0 * ei / l ^ 3) * d 1 + -(6.0 * ei / l ^ 2) * d 2 + 0 * d 3
        + 12.0 * ei / l ^ 3 * d 4 + -(6.0 * ei / l ^ 2) * d 5 :=
    Fin.sum_univ_six _
  have h₂ : ∑ col, localStiffnessFull ea ei l 2 col * d col
      = 0 * d 0 + 6.0 * ei / l ^ 2 * d 1 + 4.0 * ei / l * d 2 + 0 * d 3
        + -(6.0 * ei / l ^ 2) * d 4 + 2.0 * ei / l * d 5 :=
    Fin.sum_univ_six _
  have h₅ : ∑ col, localStiffnessFull ea ei l 5 col * d col
      = 0 * d 0 + 6.0 * ei / l ^ 2 * d 1 + 2.0 * ei / l * d 2 + 0 * d 3
        + -(6.0 * ei / l ^ 2) * d 4 + 4.0 * ei / l * d 5 :=
    Fin.sum_univ_six _
  refine ⟨?_, ?_, ?_⟩
  · rw [h₀, h₃]
    ring
  · rw [h₁, h₄, h12, h6]
    ring
  · rw [h₂, h₅, h₁, h12, h6, h4, h2]
    field_simp
    ring

/-- A member's reduced stiffness and load; nothing where it has none. -/
def FrameMemberInput.condensation (sqrt : K → K) (m : FrameMemberInput K) : Condensation K :=
  match condense (localStiffnessFull m.ea m.ei (m.length sqrt)) m.fefLocal m.condensed with
  | .ok red => red
  | .error _ => ⟨fun _ _ => 0, fun _ => 0, []⟩

/-- The row of a degree of freedom in one member's part of the system. -/
def FrameMemberInput.elementRow (sqrt : K → K) (m : FrameMemberInput K) (dFull : ℕ → K)
    (dof : ℕ) : K :=
  ∑ a, if m.globalDof a = dof then
    elementLoad (m.condensation sqrt) (m.c sqrt) (m.s sqrt) a
      + ∑ b, elementStiffness (m.condensation sqrt) (m.c sqrt) (m.s sqrt) a b
        * dFull (m.globalDof b)
    else 0

/-- What is known of a member that was added to the system. -/
structure Added (sqrt : K → K) (m : FrameMemberInput K) (rm : Reduced K) : Prop where
  length_ne : m.length sqrt ≠ 0
  condense : condense (localStiffnessFull m.ea m.ei (m.length sqrt)) m.fefLocal m.condensed
    = .ok (m.condensation sqrt)
  reduced : rm = ⟨(m.condensation sqrt).retained, m.condensed,
    localStiffnessFull m.ea m.ei (m.length sqrt), m.fefLocal, m.globalDof, m.c sqrt, m.s sqrt⟩

theorem sum_rotated (retained : Finset (Fin 6)) (t dGlobal : Fin 6 → K) (k rows : Fin 6 → Fin 6 → K) :
    ∑ p ∈ retained, t p * ∑ q ∈ retained, k p q * ∑ b, rows q b * dGlobal b
      = ∑ b, (∑ p ∈ retained, ∑ q ∈ retained, t p * k p q * rows q b) * dGlobal b := by
  simp only [Finset.mul_sum, Finset.sum_mul]
  rw [Finset.sum_comm (s := Finset.univ)]
  refine Finset.sum_congr rfl fun p _ => ?_
  rw [Finset.sum_comm]
  exact Finset.sum_congr rfl fun b _ => Finset.sum_congr rfl fun q _ => by ring

theorem Added.recover {sqrt : K → K} {m : FrameMemberInput K} {rm : Reduced K}
    (h : Added sqrt m rm) {dFull : ℕ → K} {f : Fin 6 → K} (hf : recover dFull rm = .ok f) :
    MemberEquilibrium sqrt m f ∧
      ∀ dof, m.forceAt sqrt f dof = m.elementRow sqrt dFull dof := by
  obtain ⟨hlength, hcondense, rfl⟩ := h
  have hretained := condense_retained hcondense
  obtain ⟨d, hf, hreleased, hd⟩ := recover_spec m.nodup_condensed hretained hf
  simp only at hf hreleased hd
  obtain ⟨haxial, hshear, hmoment⟩ := localStiffnessFull_equilibrium m.ea m.ei hlength d
  refine ⟨⟨fun h => hreleased 2 (m.mem_condensed_a h), fun h => hreleased 5 (m.mem_condensed_b h),
    ?_, ?_, ?_⟩, fun dof => ?_⟩
  · rw [hf, hf]
    linear_combination haxial
  · rw [hf, hf]
    linear_combination hshear
  · rw [hf, hf, hf]
    linear_combination hmoment
  · refine Finset.sum_congr rfl fun a _ => ?_
    split_ifs with ha
    -- the released rows carry nothing, and the retained ones are those of the reduced stiffness
    · have hzero : ∑ li ∈ m.condensed.toFinset, transformRow li (m.c sqrt) (m.s sqrt) a * f li = 0 := by
        refine Finset.sum_eq_zero fun li hli => ?_
        rw [hreleased li (List.mem_toFinset.mp hli), mul_zero]
      have hforce : ∀ p, f p = (m.condensation sqrt).fefRed p
          + ((m.condensation sqrt).retained.map fun q =>
            (m.condensation sqrt).kRed p q * d q).sum := by
        intro p
        rw [hf, condense_spec m.nodup_condensed hcondense fun c hc => ?_]
        rw [← hf, hreleased c hc]
      have hdisplacement : ∀ q ∈ m.condensed.toFinsetᶜ,
          d q = ∑ b, transformRow q (m.c sqrt) (m.s sqrt) b * dFull (m.globalDof b) := by
        intro q hq
        exact hd q (hretained ▸ mem_retainedOf.mpr (by simpa using hq))
      rw [sum_split m.condensed, hzero, add_zero]
      simp only [elementLoad, elementStiffness, hforce, hretained, sum_retainedOf, mul_add,
        Finset.sum_add_distrib]
      rw [← sum_rotated]
      congr 1
      refine Finset.sum_congr rfl fun p _ => ?_
      rw [Finset.sum_congr rfl fun q hq => by rw [hdisplacement q hq]]
    · rfl

/-! ### The assembled system -/

/-- The system after the members so far. -/
structure Assembled (sqrt : K → K) (ndof : ℕ) (load : ℕ → K) (members : List (FrameMemberInput K))
    (sys : Assembly K) : Prop where
  added : List.Forall₂ (Added sqrt) members sys.reducedMembers
  row : ∀ dFull dof, (∀ m ∈ members, ∀ a, m.globalDof a < ndof) →
    (∑ c ∈ Finset.range ndof, sys.kGlobal dof c * dFull c) - sys.fGlobal dof
      = (members.map fun m => m.elementRow sqrt dFull dof).sum - load dof

/-- An entry of the element matrix multiplies the displacement of its column. -/
theorem sum_element (g : Fin 6 → ℕ) {ndof : ℕ} (hg : ∀ a, g a < ndof) (e : Fin 6 → Fin 6 → K)
    (dFull : ℕ → K) (dof : ℕ) :
    ∑ c ∈ Finset.range ndof, (∑ a, ∑ b, if g a = dof ∧ g b = c then e a b else 0) * dFull c
      = ∑ a, if g a = dof then ∑ b, e a b * dFull (g b) else 0 := by
  simp only [Finset.sum_mul]
  rw [Finset.sum_comm]
  refine Finset.sum_congr rfl fun a _ => ?_
  rw [Finset.sum_comm]
  split_ifs with ha
  · refine Finset.sum_congr rfl fun b _ => ?_
    rw [Finset.sum_eq_single (g b)]
    · rw [if_pos ⟨ha, rfl⟩]
    · intro c _ hc
      rw [if_neg fun h => hc h.2.symm, zero_mul]
    · exact fun hout => absurd (Finset.mem_range.mpr (hg b)) hout
  · refine Finset.sum_eq_zero fun b _ => Finset.sum_eq_zero fun c _ => ?_
    rw [if_neg fun h => ha h.1, zero_mul]

theorem Assembled.assemble {sqrt : K → K} {ndof : ℕ} {load : ℕ → K}
    {members : List (FrameMemberInput K)} {sys sys' : Assembly K} {m : FrameMemberInput K × ℕ}
    (hsys : Assembled sqrt ndof load members sys) (h : assemble sqrt sys m = .ok sys') :
    Assembled sqrt ndof load (members ++ [m.1]) sys' := by
  simp only [Frame.assemble] at h
  split_ifs at h with hlength
  · cases h
  obtain ⟨red, hred, h⟩ := Fallible.bind_eq_ok.mp h
  have hne : m.1.length sqrt ≠ 0 := by
    refine ne_of_gt (lt_of_lt_of_le ?_ (not_lt.mp hlength))
    unfold degenerateLengthEps
    norm_num
  obtain rfl : m.1.condensation sqrt = red := by
    unfold FrameMemberInput.condensation
    rw [hred]
  obtain rfl := Except.ok.inj h
  refine ⟨List.rel_append hsys.added (.cons ⟨hne, hred, rfl⟩ .nil), fun dFull dof hdofs => ?_⟩
  have hbefore := hsys.row dFull dof fun m' hm' => hdofs m' (List.mem_append_left _ hm')
  have hg : ∀ a, m.1.globalDof a < ndof := hdofs m.1 (List.mem_append_right _ (List.mem_singleton.mpr rfl))
  have hrow : m.1.elementRow sqrt dFull dof
      = (∑ a, if m.1.globalDof a = dof then
          elementLoad (m.1.condensation sqrt) (m.1.c sqrt) (m.1.s sqrt) a else 0)
        + ∑ a, if m.1.globalDof a = dof then ∑ b, elementStiffness (m.1.condensation sqrt)
            (m.1.c sqrt) (m.1.s sqrt) a b * dFull (m.1.globalDof b) else 0 := by
    rw [FrameMemberInput.elementRow, ← Finset.sum_add_distrib]
    refine Finset.sum_congr rfl fun a _ => ?_
    split_ifs
    · rfl
    · rw [add_zero]
  rw [List.map_append, List.sum_append, List.map_singleton, List.sum_singleton, hrow]
  simp only [add_mul, Finset.sum_add_distrib]
  rw [sum_element _ hg]
  linear_combination hbefore

/-! ### The solved frame -/

/-- Equilibrium of a solved frame, at every degree of freedom and on every
member. -/
structure FrameEquilibrium (sqrt : K → K) {nNodes : ℕ} (members : List (FrameMemberInput K))
    (fixed : List Bool) (loads : List K) (sol : FrameSolution K nNodes) : Prop where
  nodes : ∀ (node : Fin nNodes) (l : Fin 3),
    ((members.zip sol.memberEndForcesLocal).map fun m =>
      m.1.forceAt sqrt m.2 (node * dofPerNode + l)).sum
        = loadAt loads (node * dofPerNode + l) + sol.reactions node l
  reactions_free : ∀ (node : Fin nNodes) (l : Fin 3),
    isFixed fixed (node * dofPerNode + l) = false → sol.reactions node l = 0
  displacements_fixed : ∀ (node : Fin nNodes) (l : Fin 3),
    isFixed fixed (node * dofPerNode + l) = true → sol.displacements node l = 0
  members : List.Forall₂ (MemberEquilibrium sqrt) members sol.memberEndForcesLocal

theorem checkShape_ok {nNodes : ℕ} {members : List (FrameMemberInput K)} {fixed : List Bool}
    {loads : List K} (h : checkShape nNodes members fixed loads = .ok ()) :
    ∀ m ∈ members, ∀ a, m.globalDof a < nNodes * dofPerNode := by
  simp only [checkShape] at h
  split_ifs at h with hfixed hloads
  · cases h
  · cases h
  · cases h
  · intro m hm
    obtain ⟨idx, hidx⟩ := List.mem_iff_getElem?.mp hm
    have hchecked := Fallible.forM_eq_ok.mp h (m, idx) (List.mem_zipIdx_iff_getElem?.mpr hidx)
    simp only at hchecked
    split_ifs at hchecked with hrange
    obtain ⟨hi, hj⟩ := not_or.mp hrange
    have hi' : m.i < nNodes := not_le.mp hi
    have hj' : m.j < nNodes := not_le.mp hj
    intro a
    fin_cases a <;> simp [FrameMemberInput.globalDof, dofPerNode] <;> omega

theorem assembled {sqrt : K → K} {ndof : ℕ} {load : ℕ → K} {members : List (FrameMemberInput K)}
    {sys : Assembly K}
    (h : members.zipIdx.foldlM (assemble sqrt) ⟨fun _ _ => 0, load, []⟩ = .ok sys) :
    Assembled sqrt ndof load members sys := by
  have hfold := Fallible.foldlM_invariant
    (I := fun done sys => Assembled sqrt ndof load (done.map Prod.fst) sys)
    (fun done m sys sys' hsys hstep => by
      rw [List.map_append]
      exact hsys.assemble hstep) ⟨.nil, fun dFull dof _ => by simp⟩ h
  rwa [List.zipIdx_map_fst] at hfold

/-- The rows of the free degrees of freedom are solved for. -/
theorem free_row {fixed : List Bool} {ndof : ℕ} {k : ℕ → ℕ → K} {f d : ℕ → K}
    (h : solveDense ((List.range ndof).filter fun d => !isFixed fixed d) k f = .ok d) :
    (∀ dof, isFixed fixed dof = true → d dof = 0) ∧
      ∀ dof < ndof, isFixed fixed dof = false → ∑ c ∈ Finset.range ndof, k dof c * d c = f dof := by
  have hnodup : ((List.range ndof).filter fun d => !isFixed fixed d).Nodup :=
    List.nodup_range.filter _
  have hzero : ∀ dof, isFixed fixed dof = true → d dof = 0 := by
    intro dof hdof
    apply (solveDense_spec hnodup h).1
    simp [hdof]
  refine ⟨hzero, fun dof hlt hfree => ?_⟩
  rw [← solveDense_eq hnodup h dof (by simp [hlt, hfree])]
  -- the fixed columns add nothing
  refine (Finset.sum_subset (fun c hc => ?_) fun c hc hout => ?_).symm
  · simpa using (List.mem_filter.mp (List.mem_toFinset.mp hc)).1
  · have hfixed : isFixed fixed c = true := by
      by_contra hne
      refine hout (List.mem_toFinset.mpr (List.mem_filter.mpr ⟨?_, ?_⟩))
      · simpa using hc
      · simpa using hne
    rw [hzero c hfixed, mul_zero]

/-- Every member's end forces, from its reduced data. -/
theorem forall₂_recover {sqrt : K → K} {d : ℕ → K} {members : List (FrameMemberInput K)}
    {rms : List (Reduced K)} (hadded : List.Forall₂ (Added sqrt) members rms) :
    ∀ {forces : List (Fin 6 → K)}, List.Forall₂ (fun rm f => recover d rm = .ok f) rms forces →
      List.Forall₂ (MemberEquilibrium sqrt) members forces ∧
      ∀ dof, ((members.zip forces).map fun m => m.1.forceAt sqrt m.2 dof).sum
        = (members.map fun m => m.elementRow sqrt d dof).sum := by
  induction hadded with
  | nil =>
      rintro _ ⟨⟩
      exact ⟨.nil, fun _ => rfl⟩
  | @cons m rm members rms hm _ ih =>
      rintro (_ | ⟨f, forces⟩) hforces
      · cases hforces
      · obtain ⟨hf, hforces⟩ := List.forall₂_cons.mp hforces
        obtain ⟨hmember, hforce⟩ := hm.recover hf
        obtain ⟨hmembers, hsum⟩ := ih hforces
        refine ⟨.cons hmember hmembers, fun dof => ?_⟩
        simp only [List.zip_cons_cons, List.map_cons, List.sum_cons, hforce, hsum]

/-- **A solved frame is in equilibrium.** -/
theorem frame2dSolve_equilibrium {sqrt : K → K} {nNodes : ℕ} {members : List (FrameMemberInput K)}
    {fixed : List Bool} {loads : List K} {sol : FrameSolution K nNodes}
    (h : frame2dSolve sqrt nNodes members fixed loads = .ok sol) :
    FrameEquilibrium sqrt members fixed loads sol := by
  obtain ⟨⟨⟩, hshape, h⟩ := Fallible.bind_eq_ok.mp h
  obtain ⟨sys, hsys, h⟩ := Fallible.bind_eq_ok.mp h
  obtain ⟨d, hd, h⟩ := Fallible.bind_eq_ok.mp h
  obtain ⟨forces, hforces, h⟩ := Fallible.bind_eq_ok.mp h
  obtain rfl := Except.ok.inj h
  have hdofs := checkShape_ok hshape
  have hassembled : Assembled sqrt (nNodes * dofPerNode) (loadAt loads) members sys :=
    assembled hsys
  obtain ⟨hzero, hrow⟩ := free_row hd
  obtain ⟨hmembers, hforce⟩ := forall₂_recover hassembled.added (Fallible.mapM_eq_ok.mp hforces)
  refine ⟨fun node l => ?_, fun node l hfree => if_neg (by simp [hfree]),
    fun node l hfixed => hzero _ hfixed, hmembers⟩
  have hlt : node * dofPerNode + l < nNodes * dofPerNode := by
    unfold dofPerNode
    omega
  have hassembled' := hassembled.row d (node * dofPerNode + l) hdofs
  rw [hforce, eq_add_of_sub_eq' hassembled'.symm]
  congr 1
  show _ = if isFixed fixed (node * dofPerNode + l) then _ else 0
  split_ifs with hfixed
  · rfl
  · rw [hrow _ hlt (by simpa using hfixed), sub_self]

/-! ### A frame of two members -/

/-- An inclined member, and an upright one that is released at both ends and
carries fixed-end forces; the node between them is free and loaded. -/
def leaningFrame : List (FrameMemberInput ℚ) :=
  [{ i := 0, j := 1, dx := 3, dy := 4, ea := 5, ei := 7, releaseARz := false, releaseBRz := false,
     fefLocal := ![0, 0, 0, 0, 0, 0] },
   { i := 1, j := 2, dx := 0, dy := 1, ea := 5, ei := 7, releaseARz := true, releaseBRz := true,
     fefLocal := ![0, 1, 2, 0, 1, -2] }]

def leaningFixed : List Bool := [true, true, true, false, false, false, true, true, true]

def leaningLoads : List ℚ := [0, 0, 0, 1, 2, 0, 0, 0, 0]

/-- The square roots of the two squared lengths. -/
def leaningSqrt (x : ℚ) : ℚ := if x = 25 then 5 else 1

theorem frame2dSolve_equilibrium_leaning :
    ∃ sol, frame2dSolve leaningSqrt 3 leaningFrame leaningFixed leaningLoads = .ok sol ∧
      FrameEquilibrium leaningSqrt leaningFrame leaningFixed leaningLoads sol := by
  have hsolved : (frame2dSolve leaningSqrt 3 leaningFrame leaningFixed leaningLoads).toOption.isSome := by
    decide +kernel
  have hsol := Fallible.eq_ok_get hsolved
  exact ⟨_, hsol, frame2dSolve_equilibrium hsol⟩

end Frame

end Feldspar

/-
Feldspar/Parallel.lean

`parallel_corner_sweep`: the corners of a box evaluated by a pool of threads.

The pool is `Lib/Pool`, with one future for each corner.  Whatever order the
threads finish in, the sweep returns what `corner_sweep` returns
(`parallelCornerSweep_eq`): the results are collected in the order of the
corners, and the first error in that order ends the sweep.  The hull itself
does not depend on any order (`hullFromResults_perm`): a hull is determined by
the set of values of its port.
-/
import Feldspar.Propagation
import Feldspar.Lib.Fallible
import Feldspar.Lib.Pool

set_option linter.unusedSectionVars false

namespace Feldspar

variable {K : Type} [Field K] [LinearOrder K]
variable {E : Type}

/-- The serial fallthrough. -/
def collectSerially (fn : PortMap K → Except E (PortMap K)) (corners : List (PortMap K)) :
    Except E (List (PortMap K)) :=
  corners.foldlM (fun results corner => do
    let outputs ← fn corner
    pure (results ++ [outputs])) []

/-- The results that the sweep may collect. -/
def Collects (fn : PortMap K → Except E (PortMap K)) (threadCount : ℤ)
    (corners : List (PortMap K)) (results : Except E (List (PortMap K))) : Prop :=
  if threadCount ≤ 1 then results = collectSerially fn corners
  else Retry.Returns (Pool.Step fn threadCount.toNat) (Pool.State.start corners) results

/-- `parallel_corner_sweep` may return `r`. -/
def ParallelCornerSweep (box : PortMap (Interval K)) (fn : PortMap K → Except E (PortMap K))
    (threadCount : ℤ) (r : Except E (PortMap (Interval K))) : Prop :=
  let corners := enumerateCorners box
  if corners.isEmpty then r = .ok (hullFromResults [])
  else ∃ results, Collects fn threadCount corners results ∧ r = results.map hullFromResults

/-! ### Hulls -/

/-- A port's values determine their hull. -/
theorem IsHullOf.unique {iv iv' : Interval K} {values : K → Prop} (h : IsHullOf iv values)
    (h' : IsHullOf iv' values) : iv = iv' := by
  have hlo : iv.lo = iv'.lo :=
    le_antisymm (h.contains _ h'.lo_mem).1 (h'.contains _ h.lo_mem).1
  have hhi : iv.hi = iv'.hi :=
    le_antisymm (h'.contains _ h.hi_mem).2 (h.contains _ h'.hi_mem).2
  cases iv
  cases iv'
  exact congrArg₂ Interval.mk hlo hhi

/-- The order of the results is of no account. -/
theorem hullFromResults_perm {results results' : List (PortMap K)} (h : results.Perm results') :
    hullFromResults results = hullFromResults results' := by
  apply Std.ExtTreeMap.ext_getElem?
  intro p
  have hmem : p ∈ hullFromResults results ↔ p ∈ hullFromResults results' := by
    rw [mem_hullFromResults, mem_hullFromResults]
    exact ⟨fun ⟨r, hr, hp⟩ => ⟨r, h.mem_iff.mp hr, hp⟩,
      fun ⟨r, hr, hp⟩ => ⟨r, h.mem_iff.mpr hr, hp⟩⟩
  rcases hget : (hullFromResults results')[p]? with - | iv'
  · apply Std.ExtTreeMap.getElem?_eq_none
    intro hp
    obtain ⟨iv, hiv⟩ := OrdMap.mem_iff_exists.mp (hmem.mp hp)
    rw [hget] at hiv
    cases hiv
  · obtain ⟨iv, hiv⟩ := OrdMap.mem_iff_exists.mp
      (hmem.mpr (OrdMap.mem_iff_exists.mpr ⟨_, hget⟩))
    have hvalues : (fun x => ∃ r ∈ results, r[p]? = some x)
        = fun x => ∃ r ∈ results', r[p]? = some x := by
      funext x
      simp only [h.mem_iff]
    have hhull := isHullOf_hullFromResults hiv
    rw [hvalues] at hhull
    rw [hiv, hhull.unique (isHullOf_hullFromResults hget)]

/-! ### The sweep -/

variable {box : PortMap (Interval K)} {fn : PortMap K → Except E (PortMap K)} {threadCount : ℤ}

theorem collectSerially_eq (corners : List (PortMap K)) :
    collectSerially fn corners = corners.mapM fn := by
  have hfrom : ∀ (l : List (PortMap K)) (results : List (PortMap K)),
      l.foldlM (fun results corner => do
        let outputs ← fn corner
        pure (results ++ [outputs])) results = (l.mapM fn).map fun rest => results ++ rest := by
    intro l
    induction l with
    | nil =>
        intro results
        show Except.ok results = Except.ok (results ++ [])
        rw [List.append_nil]
    | cons corner l ih =>
        intro results
        rw [List.foldlM_cons, List.mapM_cons]
        rcases fn corner with e | outputs
        · rfl
        · show l.foldlM _ (results ++ [outputs]) = _
          rw [ih]
          rcases l.mapM fn with e | rest
          · rfl
          · show Except.ok (results ++ [outputs] ++ rest) = Except.ok (results ++ outputs :: rest)
            rw [List.append_assoc, List.singleton_append]
  rw [collectSerially, hfrom]
  rcases corners.mapM fn with e | rest <;> rfl

theorem collects_iff {corners : List (PortMap K)} {results : Except E (List (PortMap K))} :
    Collects fn threadCount corners results ↔ results = corners.mapM fn := by
  unfold Collects
  split_ifs with hserial
  · rw [collectSerially_eq]
  · constructor
    · exact Pool.returns_eq
    · rintro rfl
      apply Pool.returns_mapM
      omega

theorem parallelCornerSweep_iff {r : Except E (PortMap (Interval K))} :
    ParallelCornerSweep box fn threadCount r ↔ r = cornerSweep box fn := by
  have hcorners : (enumerateCorners box).isEmpty = false := by
    rw [List.isEmpty_eq_false_iff]
    exact enumerateCorners_ne_nil box
  have hsweep : cornerSweep box fn = ((enumerateCorners box).mapM fn).map hullFromResults :=
    cornerSweep_eq box fn
  unfold ParallelCornerSweep
  simp only [hcorners, Bool.false_eq_true, if_false, collects_iff, hsweep, exists_eq_left]

/-- **The parallel sweep is the serial sweep.**  It may return nothing else,
its pool always returns and never waits for ever, the error is that of the
first corner that fails, and the hulls do not depend on the order of the
results. -/
theorem parallelCornerSweep_eq (box : PortMap (Interval K))
    (fn : PortMap K → Except E (PortMap K)) (threadCount : ℤ) :
    (∀ r, ParallelCornerSweep box fn threadCount r ↔ r = cornerSweep box fn) ∧
    (∀ k s, 1 < threadCount →
      Retry.Reaches (Pool.Step fn threadCount.toNat) (.start (enumerateCorners box)) k s →
      k ≤ 5 * (enumerateCorners box).length + 3 ∧ ∃ x, Pool.Step fn threadCount.toNat s x) ∧
    (∀ e, cornerSweep box fn = .error e ↔
      ∃ before corner after, enumerateCorners box = before ++ corner :: after ∧
        (∀ c ∈ before, ∃ outputs, fn c = .ok outputs) ∧ fn corner = .error e) ∧
    ∀ results results' : List (PortMap K), results.Perm results' →
      hullFromResults results = hullFromResults results' := by
  refine ⟨fun r => parallelCornerSweep_iff, ?_, ?_, fun _ _ => hullFromResults_perm⟩
  · intro k s hthreads hs
    refine ⟨Pool.reaches_le hs, ?_⟩
    apply Pool.progress _ (Pool.inv_of_reaches hs)
    omega
  · intro e
    rw [← Fallible.mapM_eq_error, cornerSweep_eq]
    rcases (enumerateCorners box).mapM fn with e' | outs
    · exact ⟨fun h => congrArg _ (Except.error.inj h), fun h => congrArg _ (Except.error.inj h)⟩
    · constructor <;> intro h <;> cases h

end Feldspar

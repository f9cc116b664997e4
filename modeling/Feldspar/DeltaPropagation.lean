/-
Feldspar/DeltaPropagation.lean

Delta-method propagation of normal uncertainties (`propagation.rs` of both
crates), in exact arithmetic.

The slope of a step with respect to a port is a symbolic derivative or a
central difference, chosen input by input.  The symbolic one is the partial
derivative (`hasDerivAt_symbolic`); the numeric one misses it by at most a
sixth of the third derivative times the square of the step, so the two modes
agree up to that (`symbolic_numeric_agree`).

Where the law is affine both are right.  Then the result has the mean and the
standard deviation that the output has for independent inputs, the interval it
collapses to misses the output with probability at most 1/9
(`deltaPropagate_affine`), and for normal inputs the output is normal with
these very parameters (`deltaPropagate_normal`).
-/
import Feldspar.DerivativeSound
import Feldspar.Lib.DeltaMethod
import Feldspar.Propagation

namespace Feldspar

open Feldspar.Expr

/-! ### Normals -/

/-- Mean and standard deviation. -/
structure Normal where
  mean : ℝ
  stddev : ℝ

namespace Normal

/-- `NORMAL_TO_INTERVAL_SIGMA`. -/
def toIntervalSigma : ℝ := 3.0

/-- `[mean - k * stddev, mean + k * stddev]`. -/
def toInterval (n : Normal) : Interval ℝ :=
  let half := toIntervalSigma * n.stddev
  ⟨n.mean - half, n.mean + half⟩

end Normal

/-! ### The delta method -/

/-- What a point evaluation of a step is. -/
abbrev NumericEval := PortMap ℝ → Except EvalError ℝ

/-- Where a partial derivative comes from. -/
inductive DerivativeMode
  | symbolic (expr : Expr)
  | numeric (eval : NumericEval) (h : ℝ)

/-- One input port with its uncertainty. -/
structure DeltaInput where
  port : Port
  value : Normal
  mode : DerivativeMode

/-- The partial derivative of one step with respect to one port, which the
point has. -/
noncomputable def partialDerivative (mode : DerivativeMode) (port : Port) (inputs : PortMap ℝ) :
    Except EvalError ℝ :=
  match mode with
  | .symbolic expr => (differentiate port expr).eval inputs
  | .numeric eval h => do
      let fPlus ← eval (inputs.alter port (Option.map (· + h)))
      let fMinus ← eval (inputs.alter port (Option.map (· - h)))
      pure ((fPlus - fMinus) / (2.0 * h))

/-- The means; a port that is listed twice has its last one. -/
def meanPoint (inputs : List DeltaInput) : PortMap ℝ :=
  inputs.foldl (fun point input => point.insert input.port input.value.mean) ∅

/-- The mean of the output, and the root of the sum of the squares of the
contributions. -/
noncomputable def deltaPropagate (inputs : List DeltaInput) (eval : NumericEval) :
    Except EvalError Normal := do
  let mean ← eval (meanPoint inputs)
  let variance ← inputs.foldlM (fun variance input => do
    let slope ← partialDerivative input.mode input.port (meanPoint inputs)
    let term := slope * input.value.stddev
    pure (variance + term * term)) 0
  pure ⟨mean, √variance⟩

/-- Every slope from the law's own symbolic derivative. -/
noncomputable def deltaPropagateSymbolic (rhs : Expr) (inputs : List (Port × Normal)) :
    Except EvalError Normal :=
  deltaPropagate (inputs.map fun i => ⟨i.1, i.2, .symbolic rhs⟩) rhs.eval

/-- Every slope from central differences of the callback. -/
noncomputable def deltaPropagateNumeric (callback : NumericEval) (inputs : List (Port × Normal))
    (h : ℝ) : Except EvalError Normal :=
  deltaPropagate (inputs.map fun i => ⟨i.1, i.2, .numeric callback h⟩) callback

/-! ### What is computed -/

section Slopes

variable {inputs : List DeltaInput} {law : NumericEval} {n : Normal}

/-- The slope that the mode gives, where it gives one. -/
noncomputable def slopeAt (point : PortMap ℝ) (input : DeltaInput) : ℝ :=
  ((partialDerivative input.mode input.port point).toOption).getD 0

theorem foldlM_variance {point : PortMap ℝ} : ∀ {inputs : List DeltaInput} {start total : ℝ},
    inputs.foldlM (fun variance input => do
      let slope ← partialDerivative input.mode input.port point
      let term := slope * input.value.stddev
      pure (variance + term * term)) start = .ok total →
    (∀ i ∈ inputs, partialDerivative i.mode i.port point = .ok (slopeAt point i)) ∧
      total = start + (inputs.map fun i => (slopeAt point i * i.value.stddev) ^ 2).sum := by
  intro inputs
  induction inputs with
  | nil =>
      intro start total h
      rw [← Except.ok.inj h]
      simp
  | cons input inputs ih =>
      intro start total h
      rw [List.foldlM_cons] at h
      obtain ⟨variance, hstep, hrest⟩ := Fallible.bind_eq_ok.mp h
      obtain ⟨slope, hslope, hvariance⟩ := Fallible.bind_eq_ok.mp hstep
      obtain ⟨hall, rfl⟩ := ih hrest
      have hat : slopeAt point input = slope := by
        rw [slopeAt, hslope]
        rfl
      refine ⟨List.forall_mem_cons.mpr ⟨hat ▸ hslope, hall⟩, ?_⟩
      rw [← Except.ok.inj hvariance, List.map_cons, List.sum_cons, hat]
      ring

/-- The result is the value at the means with the root of the sum of the
squared contributions. -/
theorem deltaPropagate_ok (h : deltaPropagate inputs law = .ok n) :
    law (meanPoint inputs) = .ok n.mean ∧
    (∀ i ∈ inputs, partialDerivative i.mode i.port (meanPoint inputs)
      = .ok (slopeAt (meanPoint inputs) i)) ∧
    n.stddev
      = √((inputs.map fun i => (slopeAt (meanPoint inputs) i * i.value.stddev) ^ 2).sum) := by
  obtain ⟨mean, hmean, hrest⟩ := Fallible.bind_eq_ok.mp h
  obtain ⟨variance, hvariance, hn⟩ := Fallible.bind_eq_ok.mp hrest
  obtain ⟨hslopes, htotal⟩ := foldlM_variance hvariance
  obtain rfl := Except.ok.inj hn
  refine ⟨hmean, hslopes, ?_⟩
  rw [htotal, zero_add]

theorem mem_meanPoint {i : DeltaInput} (hi : i ∈ inputs) : ∃ x, (meanPoint inputs)[i.port]? = some x := by
  suffices hfold : ∀ (l : List DeltaInput) (point : PortMap ℝ), i ∈ l ∨ i.port ∈ point →
      i.port ∈ l.foldl (fun point input => point.insert input.port input.value.mean) point from
    OrdMap.mem_iff_exists.mp (hfold inputs ∅ (Or.inl hi))
  intro l
  induction l with
  | nil => exact fun point h => h.resolve_left List.not_mem_nil
  | cons input l ih =>
      intro point h
      rw [List.foldl_cons]
      apply ih
      rcases h with h | h
      · rcases List.mem_cons.mp h with rfl | h
        · exact Or.inr (by simp)
        · exact Or.inl h
      · exact Or.inr (by simp [h])

/-! ### The slopes of a law -/

/-- The value of the law as a function of one port. -/
noncomputable def lawAt (law : NumericEval) (point : PortMap ℝ) (port : Port) (t : ℝ) : ℝ :=
  ((law (point.insert port t)).toOption).getD 0

theorem alter_eq_insert {point : PortMap ℝ} {port : Port} {x : ℝ} (hx : point[port]? = some x)
    (f : ℝ → ℝ) : point.alter port (Option.map f) = point.insert port (f x) := by
  apply Std.ExtTreeMap.ext_getElem?
  intro a
  rw [OrdMap.getElem?_alter_eq, OrdMap.getElem?_insert_eq, hx]
  split_ifs <;> rfl

theorem insert_self {point : PortMap ℝ} {port : Port} {x : ℝ} (hx : point[port]? = some x) :
    point.insert port x = point := by
  apply Std.ExtTreeMap.ext_getElem?
  intro a
  rw [OrdMap.getElem?_insert_eq]
  split_ifs with ha
  · rw [← ha, hx]
  · rfl

/-- A numeric slope is the central difference of the law. -/
theorem partialDerivative_numeric {point : PortMap ℝ} {port : Port} {x h d : ℝ}
    (hx : point[port]? = some x)
    (hd : partialDerivative (.numeric law h) port point = .ok d) :
    d = (lawAt law point port (x + h) - lawAt law point port (x - h)) / (2 * h) := by
  obtain ⟨fPlus, hplus, hrest⟩ := Fallible.bind_eq_ok.mp hd
  obtain ⟨fMinus, hminus, hd⟩ := Fallible.bind_eq_ok.mp hrest
  rw [alter_eq_insert hx] at hplus hminus
  rw [← Except.ok.inj hd, lawAt, lawAt, hplus, hminus, show (2.0 : ℝ) = 2 by norm_num]
  rfl

/-- A symbolic slope is the partial derivative. -/
theorem hasDerivAt_symbolic {e : Expr} {point : PortMap ℝ} {port : Port} {x d : ℝ}
    (hliteral : LiteralPowers port e) (hx : point[port]? = some x)
    (hnear : ∀ᶠ t in nhds x, Evaluates (point.insert port t) e)
    (hd : partialDerivative (.symbolic e) port point = .ok d) :
    HasDerivAt (lawAt e.eval point port) d x := by
  have hself := insert_self hx
  have hd' : (differentiate port e).eval (point.insert port x) = .ok d := by rw [hself]; exact hd
  have hheld := hasDerivAt_held hnear.self_of_nhds ⟨d, hd'⟩
  rw [value_of_eval hd'] at hheld
  refine hheld.congr_of_eventuallyEq ?_
  filter_upwards [hnear] with t ht
  exact (heldNear_of_literalPowers hliteral ht).symm

end Slopes

/-! ### The two modes -/

section Modes

variable {e : Expr} {inputs : List (Port × Normal)} {h : ℝ}

theorem meanPoint_map (mode : DerivativeMode) : meanPoint (inputs.map fun i => ⟨i.1, i.2, mode⟩)
    = inputs.foldl (fun point i => point.insert i.1 i.2.mean) ∅ := by
  rw [meanPoint, List.foldl_map]

/-- The means of some ports. -/
def means (inputs : List (Port × Normal)) : PortMap ℝ :=
  inputs.foldl (fun point i => point.insert i.1 i.2.mean) ∅

theorem mem_means {i : Port × Normal} (hi : i ∈ inputs) : ∃ x, (means inputs)[i.1]? = some x := by
  rw [means, ← meanPoint_map (.symbolic (.lit 0))]
  exact mem_meanPoint (List.mem_map_of_mem hi)

/-- Around its mean the law answers as a function of this port, and is three
times differentiable with a bounded third derivative. -/
structure Tame (e : Expr) (point : PortMap ℝ) (port : Port) (h M : ℝ) : Prop where
  literal : LiteralPowers port e
  answers : ∀ x, point[port]? = some x → ∀ᶠ t in nhds x, Evaluates (point.insert port t) e
  smooth : ∀ x, point[port]? = some x →
    ContDiffOn ℝ 3 (lawAt e.eval point port) (Set.Icc (x - |h|) (x + |h|))
  third : ∀ x, point[port]? = some x → ∀ t ∈ Set.Ioo (x - |h|) (x + |h|),
    |iteratedDeriv 3 (lawAt e.eval point port) t| ≤ M

/-- One slope, both ways. -/
theorem Tame.abs_slope_sub_le {point : PortMap ℝ} {port : Port} {M : ℝ} {n n' : Normal}
    (htame : Tame e point port h M) (hh : h ≠ 0) (hport : ∃ x, point[port]? = some x)
    (hs : partialDerivative (.symbolic e) port point = .ok (slopeAt point ⟨port, n, .symbolic e⟩))
    (hn : partialDerivative (.numeric e.eval h) port point
      = .ok (slopeAt point ⟨port, n', .numeric e.eval h⟩)) :
    |slopeAt point ⟨port, n, .symbolic e⟩ - slopeAt point ⟨port, n', .numeric e.eval h⟩|
      ≤ M * h ^ 2 / 6 := by
  obtain ⟨x, hx⟩ := hport
  have hderiv := (hasDerivAt_symbolic htame.literal hx (htame.answers x hx) hs).deriv
  rw [← hderiv, partialDerivative_numeric hx hn, abs_sub_comm]
  exact DeltaMethod.abs_centralDiff_sub_deriv_le hh (htame.smooth x hx) (htame.third x hx)

/-- **The two modes agree**: they have the same mean, and standard deviations
as close as the third derivatives and the step allow. -/
theorem symbolic_numeric_agree {M : Port → ℝ} {n n' : Normal} (hh : h ≠ 0)
    (htame : ∀ i ∈ inputs, Tame e (means inputs) i.1 h (M i.1))
    (hsymbolic : deltaPropagateSymbolic e inputs = .ok n)
    (hnumeric : deltaPropagateNumeric e.eval inputs h = .ok n') :
    n.mean = n'.mean ∧
      |n.stddev - n'.stddev|
        ≤ h ^ 2 / 6 * √((inputs.map fun i => (M i.1 * i.2.stddev) ^ 2).sum) := by
  obtain ⟨hmean, hslopes, hsd⟩ := deltaPropagate_ok hsymbolic
  obtain ⟨hmean', hslopes', hsd'⟩ := deltaPropagate_ok hnumeric
  rw [meanPoint_map] at hmean hslopes hsd hmean' hslopes' hsd'
  rw [← means] at hmean hslopes hsd hmean' hslopes' hsd'
  refine ⟨Except.ok.inj (hmean.symm.trans hmean'), ?_⟩
  rw [List.map_map] at hsd hsd'
  rw [hsd, hsd']
  refine (DeltaMethod.abs_sqrt_sum_sq_sub_le inputs _ _).trans ?_
  have hscale : h ^ 2 / 6 * √((inputs.map fun i => (M i.1 * i.2.stddev) ^ 2).sum)
      = √((inputs.map fun i => (M i.1 * h ^ 2 / 6 * i.2.stddev) ^ 2).sum) := by
    rw [← Real.sqrt_sq (show 0 ≤ h ^ 2 / 6 by positivity), ← Real.sqrt_mul (sq_nonneg _),
      ← List.sum_map_mul_left]
    congr 3
    funext i
    ring
  rw [hscale]
  refine Real.sqrt_le_sqrt (List.sum_le_sum fun i hi => ?_)
  have hslope := (htame i hi).abs_slope_sub_le hh (mem_means hi)
    (hslopes ⟨i.1, i.2, .symbolic e⟩ (List.mem_map_of_mem hi))
    (hslopes' ⟨i.1, i.2, .numeric e.eval h⟩ (List.mem_map_of_mem hi))
  show (_ * i.2.stddev - _ * i.2.stddev) ^ 2 ≤ _
  rw [← sub_mul, mul_pow, mul_pow, ← sq_abs]
  exact mul_le_mul_of_nonneg_right (pow_le_pow_left₀ (abs_nonneg _) hslope 2) (sq_nonneg _)

end Modes

/-! ### Affine laws -/

section Affine

open MeasureTheory ProbabilityTheory

variable {inputs : List DeltaInput} {law : NumericEval} {a : ℝ} {b : Port → ℝ} {n : Normal}

def ports (inputs : List DeltaInput) : List Port := inputs.map DeltaInput.port

/-- The law answers at all values of these ports, and is affine in them. -/
def AffineIn (law : NumericEval) (ports : List Port) (a : ℝ) (b : Port → ℝ) : Prop :=
  ∀ z : Port → ℝ, law (OrdMap.ofFn ports z) = .ok (a + ∑ p ∈ ports.toFinset, b p * z p)

/-- The mode differentiates this law: a numeric one with a step, a symbolic one by an
expression in which no power with a non-literal exponent has the port
(`LiteralPowers`). -/
def DerivativeMode.Of (law : NumericEval) (port : Port) : DerivativeMode → Prop
  | .symbolic e => e.eval = law ∧ LiteralPowers port e
  | .numeric eval h => eval = law ∧ h ≠ 0

theorem getElem?_foldl_mean {p : Port} {x : ℝ} : ∀ {inputs : List DeltaInput} {point : PortMap ℝ},
    (∀ i ∈ inputs, i.port = p → i.value.mean = x) → p ∈ ports inputs ∨ point[p]? = some x →
    (inputs.foldl (fun point input => point.insert input.port input.value.mean) point)[p]?
      = some x := by
  intro inputs
  induction inputs with
  | nil => exact fun _ h => h.resolve_left List.not_mem_nil
  | cons input inputs ih =>
      intro point hmean h
      obtain ⟨hfirst, hrest⟩ := List.forall_mem_cons.mp hmean
      rw [List.foldl_cons]
      apply ih hrest
      rw [OrdMap.getElem?_insert_eq]
      split_ifs with hp
      · exact Or.inr (congrArg some (hfirst hp))
      · exact h.imp_left fun hmem => (List.mem_cons.mp hmem).resolve_left fun heq => hp heq.symm

theorem getElem?_foldl_mean_of_notMem {p : Port} : ∀ {inputs : List DeltaInput} {point : PortMap ℝ},
    p ∉ ports inputs →
    (inputs.foldl (fun point input => point.insert input.port input.value.mean) point)[p]?
      = point[p]? := by
  intro inputs
  induction inputs with
  | nil => exact fun _ => rfl
  | cons input inputs ih =>
      intro point h
      obtain ⟨hne, hrest⟩ := not_or.mp fun hmem => h (List.mem_cons.mpr hmem)
      rw [List.foldl_cons, ih hrest, OrdMap.getElem?_insert_eq, if_neg (Ne.symm hne)]

theorem getElem?_meanPoint (hnodup : (ports inputs).Nodup) {i : DeltaInput} (hi : i ∈ inputs) :
    (meanPoint inputs)[i.port]? = some i.value.mean :=
  getElem?_foldl_mean (fun j hj heq => by rw [List.inj_on_of_nodup_map hnodup hj hi heq])
    (Or.inl (List.mem_map_of_mem hi))

/-- The means, as a function of the ports. -/
noncomputable def meanOf (inputs : List DeltaInput) (p : Port) : ℝ := (meanPoint inputs)[p]?.getD 0

theorem insert_meanPoint {i : DeltaInput} (hi : i ∈ inputs) (t : ℝ) :
    (meanPoint inputs).insert i.port t
      = OrdMap.ofFn (ports inputs) (Function.update (meanOf inputs) i.port t) := by
  apply Std.ExtTreeMap.ext_getElem?
  intro p
  rw [OrdMap.getElem?_insert_eq, OrdMap.getElem?_ofFn]
  split_ifs with hp hmem hmem
  · rw [hp, Function.update_self]
  · exact absurd (hp ▸ List.mem_map_of_mem hi) hmem
  · obtain ⟨j, hj, rfl⟩ := List.mem_map.mp hmem
    obtain ⟨x, hx⟩ := mem_meanPoint hj
    rw [Function.update_of_ne (Ne.symm hp), meanOf, hx]
    rfl
  · rw [meanPoint, getElem?_foldl_mean_of_notMem hmem]
    rfl

/-- In one port an affine law is a line. -/
theorem lawAt_affine (hlaw : AffineIn law (ports inputs) a b) {i : DeltaInput} (hi : i ∈ inputs) :
    ∃ c, ∀ t, law ((meanPoint inputs).insert i.port t) = .ok (c + b i.port * t) := by
  have hmem : i.port ∈ (ports inputs).toFinset := List.mem_toFinset.mpr (List.mem_map_of_mem hi)
  refine ⟨a + ∑ p ∈ (ports inputs).toFinset.erase i.port, b p * meanOf inputs p, fun t => ?_⟩
  rw [insert_meanPoint hi, hlaw, ← Finset.add_sum_erase _ _ hmem, Function.update_self]
  have hothers : ∀ p ∈ (ports inputs).toFinset.erase i.port,
      b p * Function.update (meanOf inputs) i.port t p = b p * meanOf inputs p := fun p hp => by
    rw [Function.update_of_ne (Finset.ne_of_mem_erase hp)]
  rw [Finset.sum_congr rfl hothers]
  congr 1
  ring

/-- In either mode the slope is the coefficient. -/
theorem slope_affine (hlaw : AffineIn law (ports inputs) a b) {i : DeltaInput} (hi : i ∈ inputs)
    (hmode : i.mode.Of law i.port) {d : ℝ}
    (hd : partialDerivative i.mode i.port (meanPoint inputs) = .ok d) : d = b i.port := by
  obtain ⟨c, hc⟩ := lawAt_affine hlaw hi
  obtain ⟨x, hx⟩ := mem_meanPoint hi
  have hline : ∀ t, lawAt law (meanPoint inputs) i.port t = c + b i.port * t := fun t => by
    rw [lawAt, hc]
    rfl
  rcases hm : i.mode with e | ⟨eval, h⟩ <;> rw [hm] at hmode hd
  · obtain ⟨rfl, hliteral⟩ := hmode
    have hderiv := hasDerivAt_symbolic hliteral hx
      (Filter.Eventually.of_forall fun t => ⟨_, hc t⟩) hd
    rw [funext hline] at hderiv
    exact hderiv.unique (((hasDerivAt_id x).const_mul _).const_add c |>.congr_deriv (mul_one _))
  · obtain ⟨rfl, hh⟩ := hmode
    rw [partialDerivative_numeric hx hd, DeltaMethod.centralDiff_affine hline hh]

/-- What the delta method returns for an affine law. -/
theorem deltaPropagate_of_affine (hnodup : (ports inputs).Nodup)
    (hlaw : AffineIn law (ports inputs) a b) (hmodes : ∀ i ∈ inputs, i.mode.Of law i.port)
    (hok : deltaPropagate inputs law = .ok n) {m σ : Port → ℝ}
    (hvalues : ∀ i ∈ inputs, m i.port = i.value.mean ∧ σ i.port ^ 2 = i.value.stddev ^ 2) :
    n.mean = a + ∑ p ∈ (ports inputs).toFinset, b p * m p ∧
      n.stddev ^ 2 = ∑ p ∈ (ports inputs).toFinset, (b p * σ p) ^ 2 ∧ 0 ≤ n.stddev := by
  obtain ⟨hmean, hslopes, hsd⟩ := deltaPropagate_ok hok
  have hpoint : meanPoint inputs = OrdMap.ofFn (ports inputs) m := by
    apply Std.ExtTreeMap.ext_getElem?
    intro p
    rw [OrdMap.getElem?_ofFn]
    split_ifs with hp
    · obtain ⟨i, hi, rfl⟩ := List.mem_map.mp hp
      rw [getElem?_meanPoint hnodup hi, (hvalues i hi).1]
    · rw [meanPoint, getElem?_foldl_mean_of_notMem hp]
      rfl
  refine ⟨Except.ok.inj (hmean.symm.trans (hpoint ▸ hlaw m)), ?_, hsd ▸ Real.sqrt_nonneg _⟩
  have hterms : (inputs.map fun i => (slopeAt (meanPoint inputs) i * i.value.stddev) ^ 2)
      = (ports inputs).map fun p => (b p * σ p) ^ 2 := by
    rw [ports, List.map_map]
    refine List.map_congr_left fun i hi => ?_
    rw [slope_affine hlaw hi (hmodes i hi) (hslopes i hi), Function.comp_apply, mul_pow, mul_pow,
      (hvalues i hi).2]
  rw [hsd, hterms, List.sum_toFinset _ hnodup, Real.sq_sqrt]
  exact List.sum_nonneg fun x hx => by
    obtain ⟨p, -, rfl⟩ := List.mem_map.mp hx
    exact sq_nonneg _

section Random

variable {Ω : Type*} [MeasurableSpace Ω] {P : Measure Ω} [IsProbabilityMeasure P]
  {X : Port → Ω → ℝ} {Y : Ω → ℝ}

/-- What a law gives for random inputs. -/
def Outputs (law : NumericEval) (ports : List Port) (X : Port → Ω → ℝ) (Y : Ω → ℝ) : Prop :=
  ∀ ω, law (OrdMap.ofFn ports fun p => X p ω) = .ok (Y ω)

omit [MeasurableSpace Ω] in
theorem Outputs.eq_affine {ports : List Port} (hY : Outputs law ports X Y)
    (hlaw : AffineIn law ports a b) : Y = fun ω => a + ∑ p ∈ ports.toFinset, b p * X p ω :=
  funext fun ω => Except.ok.inj ((hY ω).symm.trans (hlaw _))

/-- **An affine law**: for independent inputs with these means and standard
deviations the output has the mean and the standard deviation of the result,
and the interval that the result collapses to misses the output with
probability at most 1/9. -/
theorem deltaPropagate_affine (hnodup : (ports inputs).Nodup)
    (hlaw : AffineIn law (ports inputs) a b) (hmodes : ∀ i ∈ inputs, i.mode.Of law i.port)
    (hok : deltaPropagate inputs law = .ok n) (hLp : ∀ i ∈ inputs, MemLp (X i.port) 2 P)
    (hmoments : ∀ i ∈ inputs, ∫ ω, X i.port ω ∂P = i.value.mean ∧
      Var[X i.port; P] = i.value.stddev ^ 2)
    (hind : Set.Pairwise {p | p ∈ ports inputs} fun p q => X p ⟂ᵢ[P] X q)
    (hY : Outputs law (ports inputs) X Y) :
    ∫ ω, Y ω ∂P = n.mean ∧ Var[Y; P] = n.stddev ^ 2 ∧
      P {ω | ¬ n.toInterval.contains (Y ω)} ≤ ENNReal.ofReal (1 / 9) := by
  obtain ⟨hmean, hsd, hnonneg⟩ := deltaPropagate_of_affine hnodup hlaw hmodes hok
    (m := fun p => ∫ ω, X p ω ∂P) (σ := fun p => √Var[X p; P]) fun i hi =>
      ⟨(hmoments i hi).1, by rw [Real.sq_sqrt (variance_nonneg _ _), (hmoments i hi).2]⟩
  have hLp' : ∀ p ∈ (ports inputs).toFinset, MemLp (X p) 2 P := fun p hp => by
    obtain ⟨i, hi, rfl⟩ := List.mem_map.mp (List.mem_toFinset.mp hp)
    exact hLp i hi
  have hind' : Set.Pairwise ↑(ports inputs).toFinset fun p q => X p ⟂ᵢ[P] X q :=
    fun p hp q hq hne => hind (List.mem_toFinset.mp hp) (List.mem_toFinset.mp hq) hne
  obtain rfl := hY.eq_affine hlaw
  have hint := DeltaMethod.integral_affine hLp' a b
  have hvar : Var[fun ω => a + ∑ p ∈ (ports inputs).toFinset, b p * X p ω; P] = n.stddev ^ 2 := by
    rw [DeltaMethod.variance_affine hLp' hind' a b, hsd]
    exact Finset.sum_congr rfl fun p _ => by rw [mul_pow, Real.sq_sqrt (variance_nonneg _ _)]
  refine ⟨hint.trans hmean.symm, hvar, ?_⟩
  have hdeviation := DeltaMethod.measure_deviation_le (DeltaMethod.memLp_affine hLp' a b)
    three_pos hnonneg hvar
  rw [hint.trans hmean.symm, show (3 : ℝ) ^ 2 = 9 by norm_num] at hdeviation
  refine (measure_mono fun ω hω => ?_).trans hdeviation
  -- outside of the interval is more than three deviations from the mean
  show 3 * n.stddev < |_ - n.mean|
  by_contra hle
  obtain ⟨hlo, hhi⟩ := abs_le.mp (not_lt.mp hle)
  refine (show ¬ Interval.contains _ _ from hω) ⟨?_, ?_⟩
  · show n.mean - 3.0 * n.stddev ≤ _
    norm_num
    linarith
  · show _ ≤ n.mean + 3.0 * n.stddev
    norm_num
    linarith

/-- **Normal in, normal out**: for an affine law and independent normal inputs
the output is normal with the mean and the standard deviation of the result. -/
theorem deltaPropagate_normal (hnodup : (ports inputs).Nodup)
    (hlaw : AffineIn law (ports inputs) a b) (hmodes : ∀ i ∈ inputs, i.mode.Of law i.port)
    (hok : deltaPropagate inputs law = .ok n)
    (hX : ∀ i ∈ inputs,
      HasLaw (X i.port) (gaussianReal i.value.mean (i.value.stddev ^ 2).toNNReal) P)
    (hind : iIndepFun (fun p : (ports inputs).toFinset => X p) P)
    (hY : Outputs law (ports inputs) X Y) :
    P.map Y = gaussianReal n.mean (n.stddev ^ 2).toNNReal := by
  have hmoments : ∀ i ∈ inputs, ∫ ω, X i.port ω ∂P = i.value.mean ∧
      √Var[X i.port; P] ^ 2 = i.value.stddev ^ 2 := fun i hi => by
    obtain ⟨-, hmean, hvar⟩ := DeltaMethod.memLp_of_normal (hX i hi)
    exact ⟨hmean, by rw [Real.sq_sqrt (variance_nonneg _ _), hvar]⟩
  obtain ⟨hmean, hsd, -⟩ := deltaPropagate_of_affine hnodup hlaw hmodes hok
    (m := fun p => ∫ ω, X p ω ∂P) (σ := fun p => √Var[X p; P]) hmoments
  obtain rfl := hY.eq_affine hlaw
  rw [hmean, hsd]
  refine DeltaMethod.map_affine_normal (fun p hp => ?_) hind a b
  obtain ⟨i, hi, rfl⟩ := List.mem_map.mp (List.mem_toFinset.mp hp)
  rw [(hmoments i hi).1, (hmoments i hi).2]
  exact hX i hi

end Random

end Affine

/-! ### A line -/

section Line

open MeasureTheory ProbabilityTheory

/-- `1 + 2 * x`. -/
def line : Expr := .add [.lit 1, .mul [.lit 2, .var "x"]]

/-- `x`, and how far it may be off. -/
def lineInputs (m σ : ℝ) : List (Port × Normal) := [("x", ⟨m, σ⟩)]

theorem eval_line {point : PortMap ℝ} {x : ℝ} (hx : point["x"]? = some x) :
    line.eval point = .ok (1 + 2 * x) := by
  have hvar : (Expr.var "x").eval point = .ok x := (eval_var "x").mpr hx
  simp only [line, Expr.eval, Expr.evalAll, Except.map, bind, Except.bind, pure, Except.pure, hx]
  simp

theorem getElem?_means_line : (means (lineInputs 1 2))["x"]? = some 1 := by
  simp [means, lineInputs]

theorem lawAt_line (point : PortMap ℝ) (t : ℝ) : lawAt line.eval point "x" t = 1 + 2 * t := by
  rw [lawAt, eval_line (x := t) (by simp)]
  rfl

theorem affineIn_line : AffineIn line.eval ["x"] 1 fun _ => 2 := by
  intro z
  show line.eval _ = _
  rw [eval_line (OrdMap.getElem?_ofFn_eq_some.mpr ⟨List.mem_singleton_self _, rfl⟩)]
  simp

theorem literalPowers_line : LiteralPowers "x" line := by
  simp [line, LiteralPowers, AllLiteralPowers]

/-- With the slope 2 the result is 3 give or take 4. -/
theorem deltaPropagate_line {mode : DerivativeMode}
    (hslope : partialDerivative mode "x" (means (lineInputs 1 2)) = .ok 2) :
    deltaPropagate ((lineInputs 1 2).map fun i => ⟨i.1, i.2, mode⟩) line.eval = .ok ⟨3, 4⟩ := by
  have hmean : line.eval (means (lineInputs 1 2)) = .ok (1 + 2 * 1) := eval_line getElem?_means_line
  have hroot : √(0 + 2 * 2 * (2 * 2)) = (4 : ℝ) := by
    rw [zero_add, Real.sqrt_mul_self (by norm_num)]
    norm_num
  unfold deltaPropagate
  rw [meanPoint_map, ← means]
  beta_reduce
  rw [hmean]
  simp only [lineInputs, List.map_cons, List.map_nil, List.foldlM_cons, List.foldlM_nil] at hslope ⊢
  rw [hslope]
  simp only [bind, Except.bind, pure, Except.pure, hroot]
  norm_num

theorem deltaPropagateSymbolic_line : deltaPropagateSymbolic line (lineInputs 1 2) = .ok ⟨3, 4⟩ := by
  have hd : differentiate "x" line = .lit 2 := by decide +kernel
  refine deltaPropagate_line ?_
  rw [partialDerivative, hd, Expr.eval]
  norm_num

theorem deltaPropagateNumeric_line :
    deltaPropagateNumeric line.eval (lineInputs 1 2) 1 = .ok ⟨3, 4⟩ := by
  refine deltaPropagate_line ?_
  simp only [partialDerivative, alter_eq_insert getElem?_means_line]
  rw [eval_line (x := 1 + 1) (by simp), eval_line (x := 1 - 1) (by simp)]
  simp only [bind, Except.bind, pure, Except.pure]
  norm_num

theorem tame_line : Tame line (means (lineInputs 1 2)) "x" 1 0 where
  literal := literalPowers_line
  answers x _ := Filter.Eventually.of_forall fun t => ⟨_, eval_line (x := t) (by simp)⟩
  smooth x _ := by
    rw [funext (lawAt_line _)]
    fun_prop
  third x _ t _ := by
    have hderiv : deriv (fun t : ℝ => 1 + 2 * t) = fun _ => 2 := by
      funext t
      exact (((hasDerivAt_id t).const_mul 2).const_add 1 |>.congr_deriv (mul_one _)).deriv
    rw [funext (lawAt_line _), iteratedDeriv_succ', hderiv, iteratedDeriv_const]
    simp

theorem symbolic_numeric_agree_line : |(4 : ℝ) - 4| ≤
    1 ^ 2 / 6 * √(((lineInputs 1 2).map fun i => (0 * i.2.stddev) ^ 2).sum) := by
  refine (symbolic_numeric_agree (M := fun _ => 0) one_ne_zero (fun i hi => ?_)
    deltaPropagateSymbolic_line deltaPropagateNumeric_line).2
  rw [List.mem_singleton.mp hi]
  exact tame_line

def lineDelta (m σ : ℝ) : List DeltaInput := [⟨"x", ⟨m, σ⟩, .symbolic line⟩]

theorem mem_lineDelta {m σ : ℝ} {i : DeltaInput} (hi : i ∈ lineDelta m σ) :
    i = ⟨"x", ⟨m, σ⟩, .symbolic line⟩ :=
  List.mem_singleton.mp hi

/-- Normal with variance 4. -/
theorem hasLaw_line : HasLaw id (gaussianReal 1 ((2 : ℝ) ^ 2).toNNReal) (gaussianReal 1 4) := by
  have hvar : ((2 : ℝ) ^ 2).toNNReal = 4 := by
    rw [← Real.toNNReal_ofNat]
    norm_num
  rw [hvar]
  exact HasLaw.id

/-- For such an `x` the output is 3 give or take 4, too. -/
theorem deltaPropagate_affine_line :
    ∫ x, 1 + 2 * x ∂gaussianReal 1 4 = 3 ∧ Var[fun x => 1 + 2 * x; gaussianReal 1 4] = 4 ^ 2 ∧
      gaussianReal 1 4 {x | ¬ (⟨3, 4⟩ : Normal).toInterval.contains (1 + 2 * x)}
        ≤ ENNReal.ofReal (1 / 9) := by
  obtain ⟨hLp, hmean, hvar⟩ := DeltaMethod.memLp_of_normal hasLaw_line
  refine deltaPropagate_affine (X := fun _ => id)
    (show (ports (lineDelta 1 2)).Nodup from List.nodup_singleton "x")
    affineIn_line (fun i hi => ?_) deltaPropagateSymbolic_line (fun i _ => hLp) (fun i hi => ?_) ?_
    fun x => ?_
  · rw [mem_lineDelta hi]
    exact ⟨rfl, literalPowers_line⟩
  · rw [mem_lineDelta hi]
    exact ⟨hmean, hvar⟩
  · intro p hp q hq hne
    exact absurd ((List.mem_singleton.mp hp).trans (List.mem_singleton.mp hq).symm) hne
  · exact eval_line (OrdMap.getElem?_ofFn_eq_some.mpr ⟨List.mem_singleton_self _, rfl⟩)

theorem deltaPropagate_normal_line : (gaussianReal 1 4).map (fun x => 1 + 2 * x)
    = gaussianReal 3 ((4 : ℝ) ^ 2).toNNReal := by
  refine deltaPropagate_normal (X := fun _ => id)
    (show (ports (lineDelta 1 2)).Nodup from List.nodup_singleton "x")
    affineIn_line (fun i hi => ?_) deltaPropagateSymbolic_line (fun i hi => ?_) ?_ fun x => ?_
  · rw [mem_lineDelta hi]
    exact ⟨rfl, literalPowers_line⟩
  · rw [mem_lineDelta hi]
    exact hasLaw_line
  · have hsub : Subsingleton (ports (lineDelta 1 2)).toFinset :=
      ⟨fun p q => Subtype.ext ((List.mem_singleton.mp (List.mem_toFinset.mp p.2)).trans
        (List.mem_singleton.mp (List.mem_toFinset.mp q.2)).symm)⟩
    exact iIndepFun.of_subsingleton
  · exact eval_line (OrdMap.getElem?_ofFn_eq_some.mpr ⟨List.mem_singleton_self _, rfl⟩)

end Line

end Feldspar

/-
Feldspar/CoupledGroup.lean

A strongly coupled group as one composite solver (`CoupledGroup` of `sugar.py`),
and what a step is charged for it.

The closure runs the members in their order, damps every produced port towards
what the member computed, and stops when the largest relative change of a port
is at most `tol`.  A float of the state may be infinite or a NaN, since nothing
between the members checks it, so the state holds `JsonFloat`s and the largest
change is Python's `max`, which a NaN can win only as the first argument.

The residual of a closure that converges is a magnitude at most `tol`
(`Converges.residual_nonneg`, `Converges.residual_le`), so the `measured_eps` it
returns is finite, and the eps of the step is the relative accuracy of the group
plus the largest residual over the corners (`chargedEps_coupled`).
-/
import Feldspar.ChargedEps
import Feldspar.Lib.Json

set_option linter.unusedSectionVars false

namespace Feldspar

variable {K : Type} [Field K] [LinearOrder K] {Env D : Type}

/-! ### Members -/

/-- What a member is called with at a port: a boundary input may be a payload,
and a float of the state need not be finite. -/
inductive MemberValue (K : Type)
  | scalar (x : JsonFloat K)
  | payload (ref : PayloadRef)

/-- How the closure ends without a result: with a `SolveError`, or by an
exception of its own or of a member. -/
inductive ClosureFailure (K : Type)
  | err (e : SolveError K)
  | notRegistered (memberId : SolverId)
  | keyError (port : Port)
  | memberRaised (memberId : SolverId)

/-- A member as the closure uses it: the ports it reads, and the values that a
call returns, a dict in insertion order. -/
structure Member (K : Type) where
  inputs : List Port
  call : List (Port × MemberValue K) → Except (ClosureFailure K) (List (Port × JsonFloat K))

/-- `registry.get`. -/
abbrev MemberTable (K : Type) := SolverId → Option (Member K)

/-- The current iterate, a dict in insertion order. -/
abbrev Iterate (K : Type) := List (Port × JsonFloat K)

structure CoupledGroup (K : Type) [Field K] [LinearOrder K] where
  groupId : SolverId
  ns : String
  members : List SolverId
  boundaryInputs : List Port
  boundaryOutputs : List Port
  damping : K
  tol : K
  maxIter : ℤ
  settingsDigest : String
  accuracy : Accuracy K
  citations : List Citation
  conservativeFor : Sense
  cost : K
  version : String
  accuracy_ne_exact : accuracy ≠ .exact

namespace CoupledGroup

/-- The metadata that `register` builds. -/
def info (group : CoupledGroup K) : SolverInfo K where
  solverId := group.groupId
  inputs := group.boundaryInputs
  outputs := group.boundaryOutputs
  domain := ⟨∅, ∅⟩
  cost := group.cost
  accuracy := OrdMap.ofFn group.boundaryOutputs fun _ => group.accuracy
  conservativeFor := group.conservativeFor
  ns := group.ns
  version := group.version
  citations := group.citations
  tier := .coupled
  deterministic := true
  cornerMonotone := true
  settingsDigest := group.settingsDigest
  epsSeeking := false
  costCurve := none
  algebraicForm := none
  admissionPredicate := none

/-! ### The closure -/

/-- A port is read from the boundary, from the iterate, or starts at 0. -/
def callInput (x : PortMap (CornerValue K)) (state : Iterate K) (port : Port) : MemberValue K :=
  match x[port]? with
  | some (.scalar v) => .scalar (.finite v)
  | some (.payload ref) => .payload ref
  | none => .scalar ((state.lookup port).getD (.finite 0))

/-- `old + damping * (value - old)`. -/
def damp (damping : K) (old value : JsonFloat K) : JsonFloat K :=
  old.add ((value.add old.neg).scale damping)

/-- Damp a port that is in the iterate, and take a new one as it is. -/
def produce (damping : K) (state : Iterate K) (port : Port) (value : JsonFloat K) : Iterate K :=
  match state.lookup port with
  | some old => state.map fun e => if e.1 = port then (port, damp damping old value) else e
  | none => state ++ [(port, value)]

/-- Run one member on the boundary values and the iterate. -/
def runMember (group : CoupledGroup K) (registry : MemberTable K) (x : PortMap (CornerValue K))
    (state : Iterate K) (memberId : SolverId) : Except (ClosureFailure K) (Iterate K) :=
  match registry memberId with
  | none => .error (.notRegistered memberId)
  | some member => do
      let values ← member.call (member.inputs.map fun port => (port, callInput x state port))
      pure (values.foldl (fun state e => produce group.damping state e.1 e.2) state)

/-- `1e-12`, below which a change is not taken relative to the old value. -/
def changeFloor : K := ((1000000000000 : ℕ) : K)⁻¹

/-- The relative change of one port. -/
def relativeChange (prev new : JsonFloat K) : JsonFloat K :=
  (new.add prev.neg).abs.div (prev.abs.pick (.finite changeFloor))

/-- The change of a port of the previous iterate. -/
def portChange (state : Iterate K) (e : Port × JsonFloat K) :
    Except (ClosureFailure K) (JsonFloat K) :=
  match state.lookup e.1 with
  | some new => .ok (relativeChange e.2 new)
  | none => .error (.keyError e.1)

/-- The largest relative change; the first iterate has nothing to change from. -/
def residualOf (prev state : Iterate K) : Except (ClosureFailure K) (JsonFloat K) := do
  let changes ← prev.mapM (portChange state)
  pure (.maxOf .posInf changes)

/-- The `f64` that a checker of finiteness sees. -/
def toF64 : JsonFloat K → F64 K
  | .finite x => .finite x
  | _ => .nonFinite

/-- At most `n` more iterations from an iterate and its residual. -/
def iterate (group : CoupledGroup K) (registry : MemberTable K) (x : PortMap (CornerValue K)) :
    ℕ → Iterate K → JsonFloat K → Except (ClosureFailure K) (Iterate K × JsonFloat K)
  | 0, _, residual => .error (.err (.noConvergence group.maxIter (toF64 residual)))
  | n + 1, prev, _ => do
      let state ← group.members.foldlM (group.runMember registry x) prev
      let residual ← residualOf prev state
      if residual.AtMost group.tol then .ok (state, residual)
      else iterate group registry x n state residual

theorem iterate_succ {group : CoupledGroup K} {registry : MemberTable K}
    {x : PortMap (CornerValue K)} {n : ℕ} {prev state : Iterate K}
    {residual₀ residual : JsonFloat K}
    (hstate : group.members.foldlM (group.runMember registry x) prev = .ok state)
    (hresidual : residualOf prev state = .ok residual) :
    group.iterate registry x (n + 1) prev residual₀
      = if residual.AtMost group.tol then .ok (state, residual)
        else group.iterate registry x n state residual := by
  rw [iterate, hstate]
  show (residualOf prev state >>= _) = _
  rw [hresidual]
  rfl

/-- `state[port]` of a boundary output. -/
def boundaryValue (state : Iterate K) (port : Port) :
    Except (ClosureFailure K) (Port × F64 K) :=
  match state.lookup port with
  | some value => .ok (port, toF64 value)
  | none => .error (.keyError port)

/-- `_closure_fn`: iterate from nothing, then read the boundary outputs. -/
def closureFn (group : CoupledGroup K) (registry : MemberTable K)
    (x : PortMap (CornerValue K)) : Except (ClosureFailure K) (SolveOutput K) := do
  let (state, residual) ← group.iterate registry x group.maxIter.toNat [] .posInf
  let values ← group.boundaryOutputs.mapM (boundaryValue state)
  pure ⟨values, some (toF64 ((JsonFloat.finite group.accuracy.epsRel).add residual)), ∅⟩

/-- `fn` is the function that `register` files: it is not handed a budget, and
where the closure does not raise it returns what the closure returns. -/
structure Files (group : CoupledGroup K) (registry : Env → MemberTable K) (fn : SolveFn K Env) :
    Prop where
  plain : fn.epsSeeking = false
  returns : ∀ env x out, group.closureFn (registry env) x = .ok out → fn.call env x none = .ok out
  fails : ∀ env x e, group.closureFn (registry env) x = .error (.err e) →
    fn.call env x none = .error e

/-- The closure converges at `x` with the residual `r`. -/
def Converges (group : CoupledGroup K) (registry : MemberTable K) (x : PortMap (CornerValue K))
    (r : K) : Prop :=
  ∃ state out, group.iterate registry x group.maxIter.toNat [] .posInf = .ok (state, .finite r) ∧
    group.closureFn registry x = .ok out

/-! ### The residual -/

section Residual

variable [IsStrictOrderedRing K] {group : CoupledGroup K} {registry : MemberTable K}
  {x : PortMap (CornerValue K)}

theorem changeFloor_nonneg : (0 : K) ≤ changeFloor := inv_nonneg.mpr (Nat.cast_nonneg _)

theorem magnitude_relativeChange (prev new : JsonFloat K) : (relativeChange prev new).Magnitude := by
  apply JsonFloat.magnitude_div (JsonFloat.magnitude_abs _)
  exact JsonFloat.magnitude_pick (JsonFloat.magnitude_abs _) changeFloor_nonneg

theorem residualOf_magnitude {prev state : Iterate K} {residual : JsonFloat K}
    (h : residualOf prev state = .ok residual) : residual.Magnitude := by
  obtain ⟨changes, hchanges, h⟩ := Fallible.bind_eq_ok.mp h
  obtain rfl := Except.ok.inj h
  apply JsonFloat.magnitude_maxOf (d := .posInf) trivial
  intro change hchange
  obtain ⟨e, -, he⟩ := Fallible.exists_of_mem_right (Fallible.mapM_eq_ok.mp hchanges) hchange
  unfold portChange at he
  split at he
  · exact Except.ok.inj he ▸ magnitude_relativeChange _ _
  · cases he

/-- The residual with which the iteration ends is a number within the tolerance. -/
theorem iterate_residual {n : ℕ} {prev state : Iterate K} {residual₀ residual : JsonFloat K}
    (h : group.iterate registry x n prev residual₀ = .ok (state, residual)) :
    ∃ r, residual = .finite r ∧ 0 ≤ r ∧ r ≤ group.tol := by
  -- by recursion on the iterations that are left: only the last one's residual is returned
  induction n generalizing prev residual₀ with
  | zero => cases h
  | succ n ih =>
      obtain ⟨state', -, h⟩ := Fallible.bind_eq_ok.mp h
      obtain ⟨residual', hresidual, h⟩ := Fallible.bind_eq_ok.mp h
      split at h
      · rename_i hstop
        obtain ⟨-, rfl⟩ := Prod.mk.inj (Except.ok.inj h)
        exact (residualOf_magnitude hresidual).finite_of_atMost hstop
      · exact ih h

/-- A closure that returns has converged, and reports its residual on top of the
relative accuracy. -/
theorem closureFn_ok {out : SolveOutput K} (h : group.closureFn registry x = .ok out) :
    ∃ r, group.Converges registry x r ∧
      out.measuredEps = some (.finite (group.accuracy.epsRel + r)) := by
  obtain ⟨⟨state, residual⟩, hiter, h'⟩ := Fallible.bind_eq_ok.mp h
  obtain ⟨values, -, h'⟩ := Fallible.bind_eq_ok.mp h'
  obtain ⟨r, rfl, -⟩ := iterate_residual hiter
  exact ⟨r, ⟨state, out, hiter, h⟩, (Except.ok.inj h') ▸ rfl⟩

theorem Converges.unique {r r' : K} (h : group.Converges registry x r)
    (h' : group.Converges registry x r') : r = r' := by
  obtain ⟨state, -, hiter, -⟩ := h
  obtain ⟨state', -, hiter', -⟩ := h'
  rw [hiter] at hiter'
  exact JsonFloat.finite.inj (Prod.mk.inj (Except.ok.inj hiter')).2

theorem Converges.residual_nonneg {r : K} (h : group.Converges registry x r) : 0 ≤ r := by
  obtain ⟨state, -, hiter, -⟩ := h
  obtain ⟨r', hr, hnonneg, -⟩ := iterate_residual hiter
  exact JsonFloat.finite.inj hr ▸ hnonneg

theorem Converges.residual_le {r : K} (h : group.Converges registry x r) : r ≤ group.tol := by
  obtain ⟨state, -, hiter, -⟩ := h
  obtain ⟨r', hr, -, hle⟩ := iterate_residual hiter
  exact JsonFloat.finite.inj hr ▸ hle

end Residual

/-! ### The charge -/

/-- The step runs the group. -/
structure RunsGroup (group : CoupledGroup K) (registry : Env → MemberTable K)
    (c : StepCall K Env) : Prop where
  info : c.info = group.info
  fn : group.Files registry c.fn

/-- The closure converges at a corner of the step, with the residual `r`. -/
def ConvergesAt (group : CoupledGroup K) (registry : Env → MemberTable K) (c : StepCall K Env)
    (corner : PortMap K) (r : K) : Prop :=
  group.Converges (registry c.env) (fullCorner corner c.payloadInputs) r

/-- The charge covers the declared accuracy of every value a converged closure
returns, and its residual. -/
def ChargeCovers (group : CoupledGroup K) (registry : Env → MemberTable K) (c : StepCall K Env)
    (stepEps : K) : Prop :=
  ∀ corner r, IsCorner c.box corner → group.ConvergesAt registry c corner r →
    ∀ p v, p ∈ group.boundaryOutputs → Computes c corner p v →
      group.accuracy.eps v + r ≤ stepEps

section Charge

variable [IsStrictOrderedRing K] {group : CoupledGroup K} {registry : Env → MemberTable K}
  {c : StepCall K Env}

/-- At a corner, what is reported is the relative accuracy and the residual. -/
theorem RunsGroup.reports_iff (hruns : group.RunsGroup registry c) {corner : PortMap K} {r : K}
    (hconv : group.ConvergesAt registry c corner r) {m : K} :
    Reports c corner m ↔ m = group.accuracy.epsRel + r := by
  obtain ⟨state, out, hiter, hout⟩ := hconv
  obtain ⟨r', hconv', hmeasured⟩ := closureFn_ok hout
  obtain rfl := Converges.unique ⟨state, out, hiter, hout⟩ hconv'
  have hcall : invokeSolveFn c.fn c.env (fullCorner corner c.payloadInputs) c.remainingBudget
      = .ok out := by
    show c.fn.call c.env _ (if c.fn.epsSeeking then c.remainingBudget else none) = .ok out
    rw [hruns.fn.plain]
    exact hruns.fn.returns c.env _ out hout
  constructor
  · rintro ⟨out', hout', hm⟩
    obtain rfl := Except.ok.inj (hcall.symm.trans hout')
    rw [hmeasured, Option.some.injEq, F64.finite.injEq] at hm
    exact hm.symm
  · rintro rfl
    exact ⟨out, hcall, hmeasured⟩

/-- The eps of the step is the relative accuracy plus the largest residual. -/
theorem chargedEps_coupled (hruns : group.RunsGroup registry c)
    (hconv : ∀ corner, IsCorner c.box corner → ∃ r, group.ConvergesAt registry c corner r)
    {entry : StepEntry K} (h : sweepStep c = .ok entry) :
    ∃ worst, (∃ corner, IsCorner c.box corner ∧ group.ConvergesAt registry c corner worst) ∧
      (∀ corner r, IsCorner c.box corner → group.ConvergesAt registry c corner r → r ≤ worst) ∧
      entry.stepEps = group.accuracy.epsRel + worst := by
  obtain ⟨log, hswept, heps⟩ := sweepStep_ok h
  -- every corner reports, so the charge is one of the reports and the largest
  obtain ⟨first, hfirst⟩ := List.exists_mem_of_ne_nil _ (enumerateCorners_ne_nil c.box)
  have hcorner := mem_enumerateCorners.mp hfirst
  obtain ⟨r₀, hr₀⟩ := hconv first hcorner
  have hreport₀ := hswept.mem_measured_iff.mpr ⟨first, hcorner, (hruns.reports_iff hr₀).mpr rfl⟩
  obtain ⟨top, htop, hreport⟩ := hswept.mem_measured_iff.mp (realizedEps_measured heps hreport₀).2
  obtain ⟨worst, hworst⟩ := hconv top htop
  have hcharge := (hruns.reports_iff hworst).mp hreport
  refine ⟨worst, ⟨top, htop, hworst⟩, fun corner r hc hr => ?_, hcharge⟩
  have hle := (realizedEps_measured heps
    (hswept.mem_measured_iff.mpr ⟨corner, hc, (hruns.reports_iff hr).mpr rfl⟩)).1
  rw [hcharge] at hle
  exact le_of_add_le_add_left hle

/-- **What a coupled group is charged.** The eps of a step that runs a converging
group is its relative accuracy plus the largest residual over the corners, and it
covers a value together with the residual at its corner iff the declared eps of
the value is below the relative accuracy plus what is left of the residual. -/
theorem coupledCharge_exact [CanonicalDigest K D] [DecidableEq D]
    {stepCache : Option (StepStore K Env D)} (hruns : group.RunsGroup registry c)
    (hconv : ∀ corner, IsCorner c.box corner → ∃ r, group.ConvergesAt registry c corner r)
    (hserved : ∀ file, servedFile stepCache c = some file → sweepStep c = .ok file.value)
    {entry : StepEntry K} (h : (runStep stepCache c).1 = .ok entry) :
    ∃ worst, (∃ corner, IsCorner c.box corner ∧ group.ConvergesAt registry c corner worst) ∧
      worst ≤ group.tol ∧ entry.stepEps = group.accuracy.epsRel + worst ∧
      ∀ corner r, IsCorner c.box corner → group.ConvergesAt registry c corner r →
        0 ≤ r ∧ group.accuracy.epsRel + r ≤ entry.stepEps ∧
        ∀ v, group.accuracy.eps v + r ≤ entry.stepEps ↔
          group.accuracy.eps v ≤ group.accuracy.epsRel + (worst - r) := by
  have hstep : sweepStep c = .ok entry := by
    unfold runStep at h
    rcases hfile : servedFile stepCache c with - | file <;> rw [hfile] at h
    · rcases hsweep : sweepStep c with e | entry' <;> rw [hsweep] at h
      · cases h
      · exact h
    · obtain rfl := Except.ok.inj h
      exact hserved file hfile
  obtain ⟨worst, ⟨top, htop, hworst⟩, hle, hcharge⟩ := chargedEps_coupled hruns hconv hstep
  refine ⟨worst, ⟨top, htop, hworst⟩, hworst.residual_le, hcharge, fun corner r hcorner hr => ?_⟩
  have hr_le := hle corner r hcorner hr
  rw [hcharge]
  refine ⟨hr.residual_nonneg, by linarith, fun v => ?_⟩
  constructor <;> intro hv <;> linarith

end Charge

/-! ### A group whose output is large -/

/-- One member `hundred`, which gives 100 at `y`, under 5 % relative accuracy. -/
def hundredGroup : CoupledGroup ℚ where
  groupId := "loop"
  ns := "heat"
  members := ["hundred"]
  boundaryInputs := ["x"]
  boundaryOutputs := ["y"]
  damping := 1 / 2
  tol := 1 / 1000
  maxIter := 10
  settingsDigest := ""
  accuracy := ⟨0, 1 / 20, le_rfl, by norm_num⟩
  citations := [⟨.paper, "toy loop", ""⟩]
  conservativeFor := .both
  cost := 1
  version := "1"
  accuracy_ne_exact h := by
    have hrel : (1 / 20 : ℚ) = 0 := congrArg Accuracy.epsRel h
    norm_num at hrel

/-- Its member reads nothing. -/
def hundredMembers : Unit → MemberTable ℚ := fun _ memberId =>
  if memberId = "hundred" then some ⟨[], fun _ => .ok [("y", .finite 100)]⟩ else none

/-- The `SolveError` of a closure that fails with one. -/
def failureValue : ClosureFailure ℚ → SolveError ℚ
  | .err e => e
  | _ => .parseFailed "raised"

/-- The step over `x` in `[0, 0]`. -/
def hundredCall : StepCall ℚ Unit where
  info := hundredGroup.info
  fn :=
    { epsSeeking := false
      probeTools := none
      call := fun env x _ =>
        (hundredGroup.closureFn (hundredMembers env) x).mapError failureValue }
  portTable := ∅
  box := OrdMap.ofFn ["x"] fun _ => ⟨0, 0⟩
  payloadInputs := ∅
  remainingBudget := none
  env := ()

theorem runsGroup_hundred : hundredGroup.RunsGroup hundredMembers hundredCall := by
  refine ⟨rfl, rfl, fun env x out hout => ?_, fun env x e he => ?_⟩
  · show (hundredGroup.closureFn (hundredMembers env) x).mapError _ = .ok out
    rw [hout]
    rfl
  · show (hundredGroup.closureFn (hundredMembers env) x).mapError _ = .error e
    rw [he]
    rfl

/-- The second iterate is the first, so the residual is 0, whatever the inputs. -/
theorem iterate_hundred (x : PortMap (CornerValue ℚ)) :
    hundredGroup.iterate (hundredMembers ()) x 10 [] .posInf
      = .ok ([("y", .finite 100)], .finite 0) := by
  have hdamp : damp (1 / 2 : ℚ) (.finite 100) (.finite 100) = .finite 100 := by decide +kernel
  have hchange : relativeChange (.finite 100) (.finite 100 : JsonFloat ℚ) = .finite 0 := by
    decide +kernel
  have hfirst : hundredGroup.members.foldlM (hundredGroup.runMember (hundredMembers ()) x) []
      = .ok [("y", .finite 100)] := rfl
  have hsecond : hundredGroup.members.foldlM (hundredGroup.runMember (hundredMembers ()) x)
      [("y", .finite 100)] = .ok [("y", .finite 100)] := by
    show Except.ok [("y", damp (1 / 2 : ℚ) (.finite 100) (.finite 100))] = _
    rw [hdamp]
  have hresidual : residualOf [("y", .finite (100 : ℚ))] [("y", .finite 100)]
      = .ok (.finite 0) := by
    show Except.ok (relativeChange (.finite 100) (.finite 100)) = _
    rw [hchange]
  have htol : (JsonFloat.finite (0 : ℚ)).AtMost hundredGroup.tol := by decide +kernel
  have hstart : residualOf [] [("y", .finite (100 : ℚ))] = .ok .posInf := rfl
  have hgo : ¬ (JsonFloat.posInf : JsonFloat ℚ).AtMost hundredGroup.tol := fun h => h
  rw [iterate_succ hfirst hstart, if_neg hgo]
  exact (iterate_succ hsecond hresidual).trans (if_pos htol)

theorem closureFn_hundred (x : PortMap (CornerValue ℚ)) :
    hundredGroup.closureFn (hundredMembers ()) x
      = .ok ⟨[("y", .finite 100)], some (.finite (1 / 20 + 0)), ∅⟩ := by
  show (hundredGroup.iterate (hundredMembers ()) x 10 [] .posInf >>= fun _ => _) = _
  rw [iterate_hundred]
  rfl

theorem converges_hundred (x : PortMap (CornerValue ℚ)) :
    hundredGroup.Converges (hundredMembers ()) x 0 :=
  ⟨_, _, iterate_hundred x, closureFn_hundred x⟩

/-- The charge of 1/20 is below the 5 that is declared of the value 100. -/
theorem not_chargeCovers_hundred : ∃ entry,
    (runStep (none : Option (StepStore ℚ Unit (SymDigest ℚ))) hundredCall).1 = .ok entry ∧
    ¬ hundredGroup.ChargeCovers hundredMembers hundredCall entry.stepEps := by
  have hrun : chargedEps hundredCall = some (1 / 20) := by decide +kernel
  obtain ⟨entry, hentry, heps⟩ := Option.map_eq_some_iff.mp hrun
  refine ⟨entry, Fallible.eq_ok_of_toOption hentry, fun hcovers => ?_⟩
  have hcorner : IsCorner hundredCall.box (OrdMap.ofFn ["x"] fun _ => 0) := by
    show OrdMap.Rel (fun (v : ℚ) (iv : Interval ℚ) => v = iv.lo ∨ v = iv.hi)
      (OrdMap.ofFn ["x"] fun _ => 0) (OrdMap.ofFn ["x"] fun _ => ⟨0, 0⟩)
    exact OrdMap.rel_ofFn fun _ _ => Or.inl rfl
  have hcomputes : Computes hundredCall (OrdMap.ofFn ["x"] fun _ => 0) "y" 100 :=
    ⟨_, runsGroup_hundred.fn.returns () _ _ (closureFn_hundred _), rfl⟩
  have hle := hcovers _ 0 hcorner (converges_hundred _) "y" 100 List.mem_cons_self hcomputes
  rw [heps] at hle
  exact absurd hle (by norm_num [Accuracy.eps, hundredGroup])

theorem coupledCharge_exact_hundred : ∃ entry worst,
    (runStep (none : Option (StepStore ℚ Unit (SymDigest ℚ))) hundredCall).1 = .ok entry ∧
    entry.stepEps = hundredGroup.accuracy.epsRel + worst := by
  have hrun : chargedEps hundredCall = some (1 / 20) := by decide +kernel
  obtain ⟨entry, hentry, -⟩ := Option.map_eq_some_iff.mp hrun
  have hok := Fallible.eq_ok_of_toOption hentry
  obtain ⟨worst, -, -, hcharge, -⟩ := coupledCharge_exact runsGroup_hundred
    (fun corner _ => ⟨0, converges_hundred _⟩) (fun file hfile => by cases hfile) hok
  exact ⟨entry, worst, hok, hcharge⟩

end CoupledGroup

end Feldspar

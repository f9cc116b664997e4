/-
Feldspar/Law.lean

`Relation.law` (`sugar.py`): the solver directions that are derived from one
declared equation, and the dispatch box derived from its predicates
(`predicate_to_box`).

A derived direction evaluates the right-hand side of its inversion.  The
admission predicates of the inversion ride along as provenance only: neither
the box nor the derived function reads them.  So a direction satisfies its law
where they hold (`law_sound`), and `squareRoot_spurious` is an input inside the
box where they do not.
-/
import Feldspar.InvertSound
import Feldspar.Solver

set_option linter.unusedSectionVars false

namespace Feldspar

/-! ### The dispatch box -/

section Box

namespace Expr

/-- `as_constant`. -/
def asConstant : Expr → Option ℚ
  | lit x => some x
  | neg inner => inner.asConstant.map (- ·)
  | _ => none

/-- The shape `c * port`, with `c` not 0. -/
def linearTerm : Expr → Option (ℚ × Port)
  | var name => some (1, name)
  | neg (var name) => some (-1, name)
  | mul [lit c, var name] => if c ≠ 0 then some (c, name) else none
  | mul [var name, lit c] => if c ≠ 0 then some (c, name) else none
  | _ => none

/-- `linear_single_var`: the shape `c * port + k`.  A sum has two operands, of
which one is a constant; the other may be such a sum again. -/
def linearSingleVar : Expr → Option (ℚ × Port × ℚ)
  | add [a, b] =>
      match a.asConstant with
      | some k => b.linearSingleVar.map fun (c, name, k₀) => (c, name, k₀ + k)
      | none =>
          match b.asConstant with
          | some k => a.linearSingleVar.map fun (c, name, k₀) => (c, name, k₀ + k)
          | none => none
  | e => e.linearTerm.map fun (c, name) => (c, name, 0)

end Expr

variable {K : Type} [Field K] [LinearOrder K]

/-- The bounds so far. -/
structure Bounds (K : Type) where
  lower : PortMap K
  upper : PortMap K

/-- The comparison after division by a negative number. -/
def Cmp.flip : Cmp → Cmp
  | .lt => .gt
  | .le => .ge
  | .gt => .lt
  | .ge => .le

def Bounds.tighten (b : Bounds K) (cmp : Cmp) (port : Port) (bound : K) : Bounds K :=
  match cmp with
  | .lt | .le => { b with upper := b.upper.insert port (min (b.upper[port]?.getD bound) bound) }
  | .gt | .ge => { b with lower := b.lower.insert port (max (b.lower[port]?.getD bound) bound) }

/-- One predicate's bound. -/
def addPredicate (formatF64 : F64 ℚ → String) (b : Bounds K) (predicate : Predicate) :
    Except SymbolicError (Bounds K) :=
  match (difference predicate.lhs predicate.rhs).linearSingleVar with
  | none => .error (.unboundablePredicate (predicate.canonicalString formatF64))
  | some (c, port, k) =>
      .ok (b.tighten (if c < 0 then predicate.cmp.flip else predicate.cmp) port ((-k / c : ℚ) : K))

/-- The box of the ports that are bounded on both sides. -/
def boxOf (b : Bounds K) : Except SymbolicError (PortMap (Interval K)) :=
  (b.lower ∪ b.upper).keys.foldlM (fun box port =>
    match b.lower[port]?, b.upper[port]? with
    | some lo, some hi =>
        if hi < lo then .error (.emptyDomain port) else .ok (box.insert port ⟨lo, hi⟩)
    | _, _ =>
        .error (.unboundablePredicate ("port `" ++ port ++ "` bounded on one side only"))) ∅

/-- `predicate_to_box`. -/
def predicateToBox (formatF64 : F64 ℚ → String) (predicates : List Predicate)
    (declaredBox : PortMap (Interval K)) (tags : TagSet) : Except SymbolicError (Domain K) := do
  let bounds ← predicates.foldlM (addPredicate formatF64)
    ⟨declaredBox.map fun _ iv => iv.lo, declaredBox.map fun _ iv => iv.hi⟩
  let portBox ← boxOf bounds
  pure ⟨portBox, tags⟩

end Box

/-! ### The derived directions -/

namespace Expr

mutual

/-- `collect_vars`. -/
def collectVars (names : TagSet) : Expr → TagSet
  | var name => names.insert name
  | lit _ => names
  | neg e => collectVars names e
  | unary _ e => collectVars names e
  | pow base exp => collectVars (collectVars names base) exp
  | powInf base => collectVars names base
  | add operands => collectAllVars names operands
  | mul operands => collectAllVars names operands

def collectAllVars (names : TagSet) : List Expr → TagSet
  | [] => names
  | op :: operands => collectAllVars (collectVars names op) operands

end

end Expr

/-- `invertible_targets`, in sorted order. -/
def invertibleTargets (lhs rhs : Expr) : List String :=
  let expr := difference lhs rhs
  (expr.collectVars ∅).toList.filter fun name => expr.countVar name = 1

/-- A domain as an author writes it: a `Domain`, or a bare box. -/
inductive DomainSpec
  | domain (d : Domain ℝ)
  | box (portBox : PortMap (Interval ℝ))

/-- `coerce_domain`, without tags. -/
def DomainSpec.coerce : DomainSpec → Domain ℝ
  | .domain d => d
  | .box portBox => ⟨portBox, ∅⟩

/-- The shared metadata of a law. -/
structure Relation where
  ns : String
  ports : List Port
  domain : DomainSpec
  cost : ℝ
  version : String
  citations : List Citation
  tags : TagSet
  tier : Tier
  settingsDigest : String
  defaultAccuracy : PortMap (Accuracy ℝ) ⊕ Accuracy ℝ

/-- `coerce_accuracy`. -/
def coerceAccuracy (accuracy : PortMap (Accuracy ℝ) ⊕ Accuracy ℝ) (outputs : List Port) :
    PortMap (Accuracy ℝ) :=
  match accuracy with
  | .inl accuracy => accuracy
  | .inr accuracy => OrdMap.ofFn outputs fun _ => accuracy

/-- A derived `(SolverInfo, SolveFn)` pair, and the provenance that
`model_dump` leaves out. -/
structure Direction (Env : Type) where
  info : SolverInfo ℝ
  fn : SolveFn ℝ Env
  solvedFor : String
  branch : Branch
  lawLhs : Expr
  lawRhs : Expr

variable {Env : Type}

/-- The floats of a corner. -/
def scalars (x : PortMap (CornerValue ℝ)) : PortMap ℝ :=
  x.filterMap fun _ v =>
    match v with
    | .scalar v => some v
    | .payload _ => none

/-- The closure `raw_fn`, as `wrap_solve_fn` wraps it. -/
noncomputable def derivedFn (rhs : Expr) (target : String) : SolveFn ℝ Env where
  epsSeeking := false
  probeTools := none
  call _ x _ :=
    match rhs.eval (scalars x) with
    | .ok v => .ok ⟨[(target, .finite v)], none, ∅⟩
    | .error (.missingPort port) => .error (.missingOutput port)
    | .error (.domainFault _) => .error (.nonFinite target)

section Law

variable (formatF64 : F64 ℚ → String) (rel : Relation) (lhs rhs : Expr)
variable (predicates : List Predicate) (branches : OrdMap.Map String Branch)
variable (declaredBox : PortMap (Interval ℝ))

/-- The domain of every derived direction. -/
noncomputable def lawDomain : Except SymbolicError (Domain ℝ) :=
  if predicates = [] then .ok rel.domain.coerce
  else predicateToBox formatF64 predicates (rel.domain.coerce.portBox ∪ declaredBox) rel.tags

/-- The text of the admission predicates, if there are any. -/
def admissionText (admission : List Predicate) : Option String :=
  if admission = [] then none
  else some ("; ".intercalate (admission.map (Predicate.canonicalString formatF64)))

/-- One direction: the body of the loop over the targets. -/
noncomputable def derive (target : String) : Except PeelFailure (Direction Env) := do
  let inv ← invertFor formatF64 lhs rhs target branches[target]?
  let domain ← (lawDomain formatF64 rel predicates declaredBox).mapError .error
  pure
    { info :=
        { solverId := rel.ns ++ ".solve_" ++ target
          inputs := rel.ports.filter (· ≠ target)
          outputs := [target]
          domain
          cost := rel.cost
          accuracy := coerceAccuracy rel.defaultAccuracy [target]
          conservativeFor := .both
          ns := rel.ns
          version := rel.version
          -- the calibration was the declared direction's
          citations := rel.citations.filter fun c => c.kind ≠ .calibration
          tier := rel.tier
          deterministic := true
          cornerMonotone := true
          settingsDigest := rel.settingsDigest
          epsSeeking := false
          costCurve := none
          algebraicForm := some inv.form
          admissionPredicate := admissionText formatF64 inv.admission }
      fn := derivedFn inv.rhs target
      solvedFor := target
      branch := inv.branch
      lawLhs := lhs
      lawRhs := rhs }

/-- The loop over the targets: what is derived stays when a later target
fails. -/
noncomputable def deriveAll : List String → List (Direction Env) × Except PeelFailure Unit
  | [] => ([], .ok ())
  | target :: targets =>
      match derive formatF64 rel lhs rhs predicates branches declaredBox target with
      | .error e => ([], .error e)
      | .ok d => let r := deriveAll targets; (d :: r.1, r.2)

/-- `Relation.law`: the directions that it appends, and its result. -/
noncomputable def law : List (Direction Env) × Except PeelFailure Unit :=
  deriveAll formatF64 rel lhs rhs predicates branches declaredBox (invertibleTargets lhs rhs)

variable {formatF64 rel lhs rhs predicates branches declaredBox}

theorem mem_deriveAll : ∀ {targets : List String} {d : Direction Env},
    d ∈ (deriveAll formatF64 rel lhs rhs predicates branches declaredBox targets).1 →
    ∃ target ∈ targets, derive formatF64 rel lhs rhs predicates branches declaredBox target = .ok d
  | [], _, h => by cases h
  | target :: targets, d, h => by
      unfold deriveAll at h
      rcases hd : (derive formatF64 rel lhs rhs predicates branches declaredBox target :
        Except PeelFailure (Direction Env)) with e | d' <;> simp only [hd] at h
      · cases h
      · rcases List.mem_cons.mp h with rfl | h
        · exact ⟨target, List.mem_cons_self, hd⟩
        · obtain ⟨target', ht, hd'⟩ := mem_deriveAll h
          exact ⟨target', List.mem_cons_of_mem _ ht, hd'⟩

/-- What a derived direction is. -/
theorem derive_ok {target : String} {d : Direction Env}
    (h : derive formatF64 rel lhs rhs predicates branches declaredBox target = .ok d) :
    d.solvedFor = target ∧ ∃ inv, invertFor formatF64 lhs rhs target branches[target]? = .ok inv ∧
      d.fn = derivedFn inv.rhs target ∧
      d.info.admissionPredicate = admissionText formatF64 inv.admission ∧
      lawDomain formatF64 rel predicates declaredBox = .ok d.info.domain := by
  obtain ⟨inv, hinv, h⟩ := Fallible.bind_eq_ok.mp h
  obtain ⟨domain, hdomain, h⟩ := Fallible.bind_eq_ok.mp h
  obtain rfl := Except.ok.inj h
  exact ⟨rfl, inv, hinv, rfl, rfl, (Fallible.mapError_eq_ok).mp hdomain⟩

/-- A derived function answers with the value of its right-hand side. -/
theorem derivedFn_ok {e : Expr} {target : String} {env : Env} {x : PortMap (CornerValue ℝ)}
    {epsBudget : Option ℝ} {out : SolveOutput ℝ}
    (h : (derivedFn e target).call env x epsBudget = .ok out) :
    ∃ t, e.eval (scalars x) = .ok t ∧ out.values = [(target, .finite t)] := by
  unfold derivedFn at h
  dsimp only at h
  rcases he : e.eval (scalars x) with (port | fault) | t <;> simp only [he] at h
  · cases h
  · cases h
  · cases h
    exact ⟨t, rfl, rfl⟩

/-- **Derived directions**: where the admission predicates of its inversion
hold, what a direction answers satisfies the law. -/
theorem law_sound {d : Direction Env}
    (hd : d ∈ (law formatF64 rel lhs rhs predicates branches declaredBox).1)
    (hread : 0 < (Expr.readZeroth d.solvedFor (difference lhs rhs)).countVar d.solvedFor)
    {env : Env} {x : PortMap (CornerValue ℝ)} {epsBudget : Option ℝ} {out : SolveOutput ℝ} {t : ℝ}
    (hout : d.fn.call env x epsBudget = .ok out) (ht : (d.solvedFor, F64.finite t) ∈ out.values)
    (hadm : ∀ inv, invertFor formatF64 lhs rhs d.solvedFor branches[d.solvedFor]? = .ok inv →
      ∀ p ∈ inv.admission, p.Holds (scalars x))
    {l r : ℝ} (hl : lhs.eval ((scalars x).insert d.solvedFor t) = .ok l)
    (hr : rhs.eval ((scalars x).insert d.solvedFor t) = .ok r) : l = r := by
  obtain ⟨target, -, hderive⟩ := mem_deriveAll hd
  obtain ⟨rfl, inv, hinv, hfn, -, -⟩ := derive_ok hderive
  rw [hfn] at hout
  obtain ⟨t', heval, hvalues⟩ := derivedFn_ok hout
  rw [hvalues, List.mem_singleton, Prod.mk.injEq, F64.finite.injEq] at ht
  obtain rfl := ht.2
  exact invertFor_sound hinv hread heval (hadm inv hinv) hl hr

/-- A law whose targets all invert derives a direction for each. -/
theorem deriveAll_ok {domain : Domain ℝ}
    (hdomain : lawDomain formatF64 rel predicates declaredBox = .ok domain) :
    ∀ {targets : List String},
    (∀ target ∈ targets, ∃ inv, invertFor formatF64 lhs rhs target branches[target]? = .ok inv) →
    (deriveAll formatF64 rel lhs rhs predicates branches declaredBox targets :
        List (Direction Env) × _).2 = .ok () ∧
      ∀ target ∈ targets,
        ∃ d ∈ (deriveAll formatF64 rel lhs rhs predicates branches declaredBox targets :
          List (Direction Env) × _).1,
        derive formatF64 rel lhs rhs predicates branches declaredBox target = .ok d
  | [], _ => ⟨rfl, fun _ h => absurd h List.not_mem_nil⟩
  | target :: targets, h => by
      obtain ⟨inv, hinv⟩ := h target List.mem_cons_self
      obtain ⟨d, hd⟩ : ∃ d : Direction Env,
          derive formatF64 rel lhs rhs predicates branches declaredBox target = .ok d := by
        unfold derive
        rw [hinv, hdomain]
        exact ⟨_, rfl⟩
      obtain ⟨hok, hall⟩ := deriveAll_ok hdomain
        fun target' ht => h target' (List.mem_cons_of_mem _ ht)
      unfold deriveAll
      simp only [hd]
      refine ⟨hok, fun target' ht => ?_⟩
      rcases List.mem_cons.mp ht with rfl | ht
      · exact ⟨d, List.mem_cons_self, hd⟩
      · obtain ⟨d', hmem, hd'⟩ := hall target' ht
        exact ⟨d', List.mem_cons_of_mem _ hmem, hd'⟩

end Law

/-! ### A square root -/

/-- `sqrt(x) = a`, with `a` in `[-5, 5]`. -/
noncomputable def squareRoot : Relation where
  ns := "plain"
  ports := ["a", "x"]
  domain := .box (OrdMap.ofFn ["a"] fun _ => ⟨-5, 5⟩)
  cost := 1
  version := "1"
  citations := [⟨.handbook, "handbook", ""⟩]
  tags := ∅
  tier := .closedForm
  settingsDigest := ""
  defaultAccuracy := .inl ∅

/-- The inversions of the square root, for `x` and for `a`. -/
theorem invertFor_squareRoot :
    (invertFor (fun _ => "") (.unary .sqrt (.var "x")) (.var "a") "x" none).toOption.map
        (fun inv => (inv.rhs, inv.admission))
      = some (.pow (.neg (.neg (.var "a"))) (.lit 2), [⟨.neg (.neg (.var "a")), .ge, .lit 0⟩]) ∧
    ((invertFor (fun _ => "") (.unary .sqrt (.var "x")) (.var "a") "a" none).toOption).isSome := by
  decide +kernel

/-- The derived direction for `x`. -/
theorem squareRoot_derived :
    (law (fun _ => "") squareRoot (.unary .sqrt (.var "x")) (.var "a") [] ∅ ∅ :
        List (Direction Unit) × _).2 = .ok () ∧
      ∃ d ∈ (law (fun _ => "") squareRoot (.unary .sqrt (.var "x")) (.var "a") [] ∅ ∅ :
          List (Direction Unit) × _).1,
        d.solvedFor = "x" ∧ d.info.domain = squareRoot.domain.coerce ∧
        ∃ inv, invertFor (fun _ => "") (.unary .sqrt (.var "x")) (.var "a") "x" none = .ok inv ∧
          inv.rhs = .pow (.neg (.neg (.var "a"))) (.lit 2) ∧
          inv.admission = [⟨.neg (.neg (.var "a")), .ge, .lit 0⟩] ∧ d.fn = derivedFn inv.rhs "x" := by
  obtain ⟨hx, ha⟩ := invertFor_squareRoot
  obtain ⟨inv, hinv, hshape⟩ := Option.map_eq_some_iff.mp hx
  obtain ⟨hrhs, hadm⟩ := Prod.mk.inj hshape
  have htargets : invertibleTargets (.unary .sqrt (.var "x")) (.var "a") = ["a", "x"] := by
    decide +kernel
  have hnone : ∀ target : String, (∅ : OrdMap.Map String Branch)[target]? = none := by simp
  have hdomain : lawDomain (fun _ => "") squareRoot [] ∅ = .ok squareRoot.domain.coerce := if_pos rfl
  have hinverts : ∀ target ∈ ["a", "x"], ∃ inv, invertFor (fun _ => "") (.unary .sqrt (.var "x"))
      (.var "a") target (∅ : OrdMap.Map String Branch)[target]? = .ok inv := by
    intro target ht
    rw [hnone]
    rcases List.mem_cons.mp ht with rfl | ht
    · obtain ⟨inv', hinv'⟩ := Option.isSome_iff_exists.mp ha
      exact ⟨inv', Fallible.eq_ok_of_toOption hinv'⟩
    · obtain rfl := List.mem_singleton.mp ht
      exact ⟨inv, Fallible.eq_ok_of_toOption hinv⟩
  obtain ⟨hok, hall⟩ := deriveAll_ok hdomain (htargets ▸ hinverts)
  refine ⟨hok, ?_⟩
  obtain ⟨d, hd, hderive⟩ := hall "x" (by rw [htargets]; simp)
  obtain ⟨hsolved, inv', hinv', hfn, -, hdomain⟩ := derive_ok hderive
  rw [hnone, Fallible.eq_ok_of_toOption hinv] at hinv'
  obtain rfl := Except.ok.inj hinv'
  refine ⟨d, hd, hsolved, ?_, inv, Fallible.eq_ok_of_toOption hinv, hrhs, hadm, hfn⟩
  exact (Except.ok.inj ((if_pos rfl).symm.trans hdomain)).symm

/-- The input `a`. -/
noncomputable def rootOf (a : ℝ) : PortMap (CornerValue ℝ) := OrdMap.ofFn ["a"] fun _ => .scalar a

theorem scalars_rootOf (a : ℝ) : (scalars (rootOf a))["a"]? = some a := by
  rw [scalars, Std.ExtTreeMap.getElem?_filterMap, rootOf, OrdMap.getElem?_ofFn]
  rfl

/-- The direction for `x` squares `a`. -/
theorem eval_square (a : ℝ) :
    (Expr.pow (.neg (.neg (.var "a"))) (.lit 2)).eval (scalars (rootOf a)) = .ok (a ^ (2 : ℝ)) := by
  have ha := (Expr.eval_var "a").mpr (scalars_rootOf a)
  rw [Expr.eval_pow_eq_ok]
  refine ⟨a, 2, ?_, congrArg Except.ok (by norm_num), ⟨fun _ => by norm_num, fun _ => ⟨2, by norm_num⟩⟩,
    rfl⟩
  rw [Expr.eval_neg_eq_ok]
  exact ⟨-a, Expr.eval_neg_eq_ok.mpr ⟨a, ha, rfl⟩, neg_neg a⟩

/-- At `a = 2` the direction for `x` answers 4, and the law holds. -/
theorem law_sound_root :
    ∃ d ∈ (law (fun _ => "") squareRoot (.unary .sqrt (.var "x")) (.var "a") [] ∅ ∅ :
        List (Direction Unit) × _).1,
      d.fn.call () (rootOf 2) none = .ok ⟨[("x", .finite 4)], none, ∅⟩ ∧ √(4 : ℝ) = 2 := by
  obtain ⟨-, d, hd, hsolved, -, inv, hinv, hrhs, hadm, hfn⟩ := squareRoot_derived
  have hcall : d.fn.call () (rootOf 2) none = .ok ⟨[("x", .finite ((2 : ℝ) ^ (2 : ℝ)))], none, ∅⟩ := by
    rw [hfn, hrhs]
    unfold derivedFn
    dsimp only
    rw [eval_square]
  have hfour : ((2 : ℝ) ^ (2 : ℝ)) = 4 := by norm_num
  rw [hfour] at hcall
  have ha := (Expr.eval_var "a").mpr (scalars_rootOf 2)
  refine ⟨d, hd, hcall, ?_⟩
  refine law_sound hd ?_ hcall (by rw [hsolved]; exact List.mem_singleton_self _) ?_ ?_ ?_
  · rw [hsolved]
    decide +kernel
  · intro inv' hinv' p hp
    rw [hsolved] at hinv'
    simp only [Std.ExtTreeMap.getElem?_empty] at hinv'
    rw [hinv] at hinv'
    obtain rfl := Except.ok.inj hinv'
    rw [hadm] at hp
    obtain rfl := List.mem_singleton.mp hp
    refine ⟨?_, Expr.evaluates_lit 0, ?_⟩
    · exact Expr.evaluates_neg.mpr (Expr.evaluates_neg.mpr ⟨2, ha⟩)
    · simp [Cmp.Holds, Expr.value_of_eval ha]
  · rw [hsolved, Expr.eval_unary_eq_ok]
    exact ⟨4, (Expr.eval_var "x").mpr (by simp), by norm_num [UnaryFn.Defined], rfl⟩
  · rw [hsolved]
    exact (Expr.eval_var "a").mpr (by
      rw [OrdMap.getElem?_insert_eq, if_neg (by decide)]
      exact scalars_rootOf 2)

/-- At `a = -2`, inside the box, it answers 4 too, and the law does not
hold. -/
theorem squareRoot_spurious :
    (law (fun _ => "") squareRoot (.unary .sqrt (.var "x")) (.var "a") [] ∅ ∅ :
        List (Direction Unit) × _).2 = .ok () ∧
      ∃ d ∈ (law (fun _ => "") squareRoot (.unary .sqrt (.var "x")) (.var "a") [] ∅ ∅ :
          List (Direction Unit) × _).1,
        d.solvedFor = "x" ∧
        (∀ (port : Port) (allowed : Interval ℝ), d.info.domain.portBox[port]? = some allowed →
          port = "a" ∧ allowed.contains (-2)) ∧
        (∃ out, d.fn.call () (rootOf (-2)) none = .ok out ∧ out.values = [("x", .finite 4)]) ∧
        (Expr.unary .sqrt (.var "x")).eval ((scalars (rootOf (-2))).insert "x" 4) = .ok 2 ∧
        (Expr.var "a").eval ((scalars (rootOf (-2))).insert "x" 4) = .ok (-2) := by
  obtain ⟨hok, d, hd, hsolved, hdomain, inv, -, hrhs, -, hfn⟩ := squareRoot_derived
  refine ⟨hok, d, hd, hsolved, ?_, ?_, ?_, ?_⟩
  · intro port allowed h
    rw [hdomain] at h
    obtain ⟨hport, rfl⟩ := OrdMap.getElem?_ofFn_eq_some.mp h
    exact ⟨List.mem_singleton.mp hport, by norm_num [Interval.contains]⟩
  · refine ⟨⟨[("x", .finite ((-2 : ℝ) ^ (2 : ℝ)))], none, ∅⟩, ?_, ?_⟩
    · rw [hfn, hrhs]
      unfold derivedFn
      dsimp only
      rw [eval_square]
    · norm_num
  · rw [Expr.eval_unary_eq_ok]
    refine ⟨4, (Expr.eval_var "x").mpr (by simp), by norm_num [UnaryFn.Defined], ?_⟩
    show √4 = (2 : ℝ)
    rw [show (4 : ℝ) = 2 ^ 2 by norm_num, Real.sqrt_sq (by norm_num)]
  · exact (Expr.eval_var "a").mpr (by
      rw [OrdMap.getElem?_insert_eq, if_neg (by decide)]
      exact scalars_rootOf (-2))

end Feldspar

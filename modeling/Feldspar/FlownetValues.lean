/-
Feldspar/FlownetValues.lean

The seed and the corrections over floats.

Where the flows are numbers and no sum of them is rounded, a node of the seed
over floats does what it does over the numbers (`seedNode_fin`):

    seedNode (fin tol) edges (finFlows f) g = liftSeed (seedNode tol (edges.map exact) f g)

In exact arithmetic no sum is rounded, so the same holds of the whole seed
(`seedWithin_fin`), and of a correction by a number (`correctLoop_fin`).  There
is no such statement about the head losses: they divide by what may be zero.
-/
import Feldspar.FlownetRun
import Feldspar.Lib.FloatArith

namespace Feldspar

namespace Flownet

open FloatValue (Rounding Value)
open FloatValue.Value (Representable fin)

/-! ### Edges and flows by their numbers -/

section Edges

variable {R : Type} [Field R]

/-- The edge with the numbers of its floats. -/
def Edge.exact (e : Edge (Value R)) : Edge R :=
  { id := e.id
    a := e.a
    b := e.b
    kind := e.kind
    length := e.length.number
    diameter := e.diameter.number
    roughness := e.roughness.number
    density := e.density.number
    viscosity := e.viscosity.number
    flow := e.flow.number
    cd := e.cd.number
    boreDiameter := e.boreDiameter.number
    resistance := e.resistance.number }

def finFlows (f : Flows R) : Flows (Value R) := fun i => fin (f i)

def HardyCrossError.map {K K' : Type} (h : K → K') : HardyCrossError K → HardyCrossError K'
  | outOfDomain feature => outOfDomain feature
  | noConvergence iterations residual => noConvergence iterations (h residual)
  | raised e => raised e
  | unfinished => unfinished

/-- What a seed over numbers is over floats. -/
def liftSeed : Except (HardyCrossError R) (Flows R) →
    Except (HardyCrossError (Value R)) (Flows (Value R))
  | .ok f => .ok (finFlows f)
  | .error e => .error (e.map fin)

variable (edges : List (Edge (Value R)))

@[simp] theorem ends_exact : ends (edges.map Edge.exact) = ends edges := by
  rw [ends, List.map_map]
  rfl

@[simp] theorem isUnknownAt_exact (i : ℕ) :
    isUnknownAt (edges.map Edge.exact) i = isUnknownAt edges i := by
  unfold isUnknownAt
  rw [List.getElem?_map, Option.map_map]
  rfl

theorem map_a_exact (i : ℕ) :
    (edges.map Edge.exact)[i]?.map Edge.a = edges[i]?.map Edge.a := by
  rw [List.getElem?_map, Option.map_map]
  rfl

omit [Field R] in
theorem finFlows_update (f : Flows R) (i : ℕ) (x : R) :
    Function.update (finFlows f) i (fin x) = finFlows (Function.update f i x) := by
  funext j
  unfold finFlows
  by_cases h : j = i
  · rw [h, Function.update_self, Function.update_self]
  · rw [Function.update_of_ne h, Function.update_of_ne h]

end Edges

variable {R : Type} [Field R] [LinearOrder R]

/-! ### Sums of flows -/

section Sums

variable [IsStrictOrderedRing R] [Rounding R]

theorem intCast_sign {s : ℤ} (h : s = 1 ∨ s = -1) : ((s : ℤ) : Value R) = fin (s : R) := by
  show Value.round (s : R) = fin (s : R)
  rcases h with rfl | rfl
  · rw [Int.cast_one]
    exact Value.representable_one
  · rw [Int.cast_neg, Int.cast_one]
    exact Value.representable_one.neg

theorem sign_of_mem_incidentFrom {n : String} {p : ℕ × ℤ} : ∀ {ends : List (String × String)} {k : ℕ},
    p ∈ Flow.incidentFrom n ends k → p.2 = 1 ∨ p.2 = -1
  | [], _, h => absurd h List.not_mem_nil
  | (a, b) :: ends, k, h => by
      rw [Flow.incidentFrom, List.mem_append, List.mem_append] at h
      rcases h with (h | h) | h
      · split_ifs at h
        · exact Or.inr (congrArg Prod.snd (List.mem_singleton.mp h))
        · exact absurd h List.not_mem_nil
      · split_ifs at h
        · exact Or.inl (congrArg Prod.snd (List.mem_singleton.mp h))
        · exact absurd h List.not_mem_nil
      · exact sign_of_mem_incidentFrom h

theorem sign_of_mem_incident {ends : List (String × String)} {n : String} :
    ∀ p ∈ Flow.incident ends n, p.2 = 1 ∨ p.2 = -1 := fun _ hp => sign_of_mem_incidentFrom hp

/-- No sum of some of the flows is rounded. -/
def SumsFit (f : Flows R) (chain : List (ℕ × ℤ)) : Prop :=
  ∀ l : List (ℕ × ℤ), l.Sublist chain → Representable (Flow.along l f)

/-- Flows whose sums are not rounded are summed up exactly. -/
theorem flowAlong_fin {f : Flows R} {chain : List (ℕ × ℤ)}
    (hsigns : ∀ p ∈ chain, p.2 = 1 ∨ p.2 = -1) (h : SumsFit f chain) :
    flowAlong (finFlows f) chain = fin (Flow.along chain f) := by
  have hterms : (chain.map fun p => (p.2 : Value R) * finFlows f p.1)
      = (chain.map fun p => (p.2 : R) * f p.1).map fin := by
    rw [List.map_map]
    refine List.map_congr_left fun p hp => ?_
    have hterm := h [p] (List.singleton_sublist.mpr hp)
    rw [Flow.along, List.map_singleton, List.sum_singleton] at hterm
    rw [intCast_sign (hsigns p hp)]
    exact hterm.mul
  rw [flowAlong, hterms]
  refine Value.compensatedSum_fin (fun x hx => ?_) fun l hl => ?_
  · obtain ⟨p, hp, rfl⟩ := List.mem_map.mp hx
    have hterm := h [p] (List.singleton_sublist.mpr hp)
    rwa [Flow.along, List.map_singleton, List.sum_singleton] at hterm
  · rw [List.prefix_iff_eq_take.mp hl, ← List.map_take]
    exact h _ (List.take_sublist _ _)

end Sums

/-! ### The seed -/

section Seed

variable [Rounding R] {edges : List (Edge (Value R))} {tol : R}

/-- The flow that the seed starts with. -/
theorem chordSeeds_fin (hnumbers : ∀ e ∈ edges, e.flow.IsNumber) {tree : SpanningTree}
    (hchords : ∀ i, isUnknownAt edges i → i ∉ tree.treeEdges → Representable (1e-4 : R)) :
    chordSeeds edges tree = finFlows (chordSeeds (edges.map Edge.exact) tree) := by
  funext i
  unfold finFlows chordSeeds
  rw [isUnknownAt_exact]
  by_cases hchord : isUnknownAt edges i = true ∧ i ∉ tree.treeEdges
  · rw [if_pos hchord, if_pos hchord]
    exact hchords i hchord.1 hchord.2
  · rw [if_neg hchord, if_neg hchord, List.getElem?_map]
    rcases he : edges[i]? with _ | e
    · rfl
    · obtain ⟨x, hx⟩ := hnumbers e (List.mem_of_getElem? he)
      show e.flow = fin e.flow.number
      rw [hx]
      rfl

variable [IsStrictOrderedRing R]

/-- **One node**, where no sum is rounded. -/
theorem seedNode_fin {f : Flows R} {g : Flow.Found String}
    (hsums : SumsFit f ((Flow.incident (ends edges) g.node).filter fun p => p.1 ≠ g.edge))
    (hcheck : ¬ isUnknownAt edges g.edge → Representable
      (-Flow.along ((Flow.incident (ends edges) g.node).filter fun p => p.1 ≠ g.edge) f *
        ((if edges[g.edge]?.map Edge.a = some g.node then -1 else 1 : ℤ) : R) - f g.edge)) :
    seedNode (fin tol) edges (finFlows f) g
      = liftSeed (seedNode tol (edges.map Edge.exact) f g) := by
  set others := (Flow.incident (ends edges) g.node).filter fun p => p.1 ≠ g.edge with hothers
  set signHere : ℤ := if edges[g.edge]?.map Edge.a = some g.node then -1 else 1 with hsign
  have hbalance : flowAlong (finFlows f) others = fin (Flow.along others f) :=
    flowAlong_fin (fun p hp => sign_of_mem_incident p (List.mem_of_mem_filter hp)) hsums
  have hrequired : -flowAlong (finFlows f) others * (signHere : Value R)
      = fin (-Flow.along others f * (signHere : R)) := by
    have hsigns : signHere = 1 ∨ signHere = -1 := by
      rw [hsign]
      split_ifs
      · exact Or.inr rfl
      · exact Or.inl rfl
    rw [hbalance, intCast_sign hsigns]
    refine Representable.mul ?_
    have hrepresentable := hsums others (List.Sublist.refl others)
    rcases hsigns with hs | hs <;> rw [hs]
    · rw [Int.cast_one, mul_one]
      exact hrepresentable.neg
    · rw [Int.cast_neg, Int.cast_one, neg_mul_neg, mul_one]
      exact hrepresentable
  unfold seedNode
  simp only [ends_exact, isUnknownAt_exact, map_a_exact, flowAlong_eq, ← hothers, ← hsign,
    hrequired]
  by_cases hdegree : (Flow.incident (ends edges) g.node).length = 1
  · rw [if_pos hdegree, if_pos hdegree]
    by_cases hunknown : isUnknownAt edges g.edge
    · rw [if_pos hunknown, if_pos hunknown]
      exact congrArg Except.ok (finFlows_update f g.edge 0)
    · rw [if_neg hunknown, if_neg hunknown]
      rfl
  · rw [if_neg hdegree, if_neg hdegree]
    by_cases hunknown : isUnknownAt edges g.edge
    · rw [if_pos hunknown, if_pos hunknown]
      exact congrArg Except.ok (finFlows_update f g.edge _)
    · rw [if_neg hunknown, if_neg hunknown]
      have hdifference : (fin (-Flow.along others f * (signHere : R)) : Value R) - finFlows f g.edge
          = fin (-Flow.along others f * (signHere : R) - f g.edge) := (hcheck hunknown).sub
      have hover : Arith.abs (fin (-Flow.along others f * (signHere : R)) - finFlows f g.edge)
          > (fin tol : Value R) ↔
          Arith.abs (-Flow.along others f * (signHere : R) - f g.edge) > tol := by
        rw [hdifference]
        exact Value.lt_iff
      by_cases htol : Arith.abs (-Flow.along others f * (signHere : R) - f g.edge) > tol
      · rw [if_pos htol, if_pos (hover.mpr htol)]
        rfl
      · rw [if_neg htol, if_neg fun h => htol (hover.mp h)]
        rfl

/-- The check of a balance, where no sum is rounded. -/
theorem over_fin {f : Flows R} {n : String} (h : SumsFit f (Flow.incident (ends edges) n)) :
    Arith.abs (flowAlong (finFlows f) (Flow.incident (ends edges) n)) > (fin tol : Value R) ↔
      Arith.abs (flowAlong f (Flow.incident (ends edges) n)) > tol := by
  rw [flowAlong_fin sign_of_mem_incident h, flowAlong_eq]
  exact Value.lt_iff

/-- The seed, where its steps and the root's sum are those over numbers. -/
theorem seedWithin_fin_of_steps {tree : SpanningTree}
    (hchords : chordSeeds edges tree = finFlows (chordSeeds (edges.map Edge.exact) tree))
    (hsteps : tree.found.reverse.foldlM (seedNode (fin tol) edges)
        (finFlows (chordSeeds (edges.map Edge.exact) tree))
      = liftSeed (tree.found.reverse.foldlM (seedNode tol (edges.map Edge.exact))
        (chordSeeds (edges.map Edge.exact) tree)))
    (hroot : ∀ f, tree.found.reverse.foldlM (seedNode tol (edges.map Edge.exact))
        (chordSeeds (edges.map Edge.exact) tree) = .ok f →
      SumsFit f (Flow.incident (ends edges) tree.root)) :
    seedWithin (fin tol) edges tree = liftSeed (seedWithin tol (edges.map Edge.exact) tree) := by
  unfold seedWithin
  rw [hchords, hsteps, ends_exact]
  rcases hfold : tree.found.reverse.foldlM (seedNode tol (edges.map Edge.exact))
      (chordSeeds (edges.map Edge.exact) tree) with e | f
  · rfl
  · have hover : Arith.abs (flowAlong (finFlows f) (Flow.incident (ends edges) tree.root))
        > (fin tol : Value R) ↔
          Arith.abs (flowAlong f (Flow.incident (ends edges) tree.root)) > tol :=
      over_fin (hroot f hfold)
    simp only [liftSeed, bind, Except.bind, hover]
    by_cases hunbalanced : (Flow.incident (ends edges) tree.root).length > 1 ∧
        Arith.abs (flowAlong f (Flow.incident (ends edges) tree.root)) > tol
    · rw [if_pos hunbalanced, if_pos hunbalanced]
      rfl
    · rw [if_neg hunbalanced, if_neg hunbalanced]
      rfl

end Seed

/-! ### Exact arithmetic -/

section Exact

variable [IsStrictOrderedRing R] {edges : List (Edge (Value R))} {tol : R}

theorem sumsFit_exact (f : Flows R) (chain : List (ℕ × ℤ)) : SumsFit f chain :=
  fun _ _ => Value.round_exact _

theorem seedNodes_fin (l : List (Flow.Found String)) (f : Flows R) :
    l.foldlM (seedNode (fin tol) edges) (finFlows f)
      = liftSeed (l.foldlM (seedNode tol (edges.map Edge.exact)) f) := by
  induction l generalizing f with
  | nil => rfl
  | cons g l ih =>
      rw [List.foldlM_cons, List.foldlM_cons,
        seedNode_fin (sumsFit_exact f _) fun _ => Value.round_exact _]
      rcases seedNode tol (edges.map Edge.exact) f g with e | f'
      · rfl
      · exact ih f'

/-- **The seed** in exact arithmetic. -/
theorem seedWithin_fin (hnumbers : ∀ e ∈ edges, e.flow.IsNumber) (tree : SpanningTree) :
    seedWithin (fin tol) edges tree
      = liftSeed (seedWithin tol (edges.map Edge.exact) tree) :=
  seedWithin_fin_of_steps (chordSeeds_fin hnumbers fun _ _ _ => Value.round_exact _)
    (seedNodes_fin _ _) fun f _ => sumsFit_exact f _

/-- **A correction** by a number. -/
theorem correctLoop_fin (f : Flows R) (q : R) (loop : List (ℕ × ℤ)) :
    correctLoop edges (finFlows f) (fin q) loop
      = finFlows (correctLoop (edges.map Edge.exact) f q loop) := by
  induction loop generalizing f with
  | nil => rfl
  | cons p loop ih =>
      show correctLoop edges (if isUnknownAt edges p.1 then _ else finFlows f) (fin q) loop
        = finFlows (correctLoop (edges.map Edge.exact)
            (if isUnknownAt (edges.map Edge.exact) p.1 then _ else f) q loop)
      rw [isUnknownAt_exact, ← ih]
      congr 1
      by_cases hunknown : isUnknownAt edges p.1
      · rw [if_pos hunknown, if_pos hunknown, ← finFlows_update]
        have hsign : ((p.2 : ℤ) : Value R) = fin (p.2 : R) := Value.round_exact _
        have hproduct : (p.2 : Value R) * fin q = fin (p.2 * q) := by
          rw [hsign]
          exact Value.mul_exact _ _
        rw [hproduct]
        exact congrArg _ (Value.add_exact _ _)
      · rw [if_neg hunknown, if_neg hunknown]

end Exact

/-! ### Head losses -/

section HeadLosses

variable [IsStrictOrderedRing R]

/-- The scalars of an edge. -/
def Edge.scalars {K : Type} (e : Edge K) : List K :=
  [e.length, e.diameter, e.roughness, e.density, e.viscosity, e.flow, e.cd, e.boreDiameter,
    e.resistance]

/-- The scalars are numbers, and what the edge divides by is not zero. -/
structure Edge.Regular (e : Edge (Value R)) : Prop where
  numbers : ∀ x ∈ e.scalars, x.IsNumber
  pipe : e.kind = .pipe → e.diameter ≠ fin 0 ∧ e.viscosity ≠ fin 0
  orifice : e.kind = .orifice → e.cd.Positive

instance (e : Edge (Value R)) : Decidable e.Regular :=
  decidable_of_iff ((∀ x ∈ e.scalars, x.IsNumber) ∧
    (e.kind = .pipe → e.diameter ≠ fin 0 ∧ e.viscosity ≠ fin 0) ∧
    (e.kind = .orifice → e.cd.Positive))
    ⟨fun ⟨h₁, h₂, h₃⟩ => ⟨h₁, h₂, h₃⟩, fun ⟨h₁, h₂, h₃⟩ => ⟨h₁, h₂, h₃⟩⟩

/-- The Colebrook root of numbers is a number. -/
structure Hydraulics.Regular (hyd : Hydraulics (Value R)) : Prop where
  pi : hyd.pi.IsNumber
  colebrook : ∀ re rr, re.IsNumber → rr.IsNumber → (hyd.colebrookFrictionFactor re rr).IsNumber

variable {hyd : Hydraulics (Value R)} {e : Edge (Value R)} {m flow : Value R}

theorem isNumber_two : (2.0 : Value R).Positive := ⟨2.0, Value.round_exact _, by norm_num⟩

theorem isNumber_signed {magnitude : Value R} (h : magnitude.IsNumber) :
    (signed magnitude flow).IsNumber := by
  unfold signed
  split_ifs
  · exact Value.isNumber_fin 0
  · exact Value.isNumber_neg (Value.isNumber_abs h)
  · exact Value.isNumber_abs h

theorem isNumber_circleArea (hhyd : hyd.Regular) {d : Value R} (hd : d.IsNumber) :
    (circleArea hyd d).IsNumber :=
  Value.isNumber_mul hhyd.pi
    (Value.isNumber_square (Value.isNumber_div hd isNumber_two.isNumber isNumber_two.ne_zero))

theorem isNumber_pipeDpMag (hhyd : hyd.Regular) (he : e.Regular) (hkind : e.kind = .pipe)
    (hm : m.IsNumber) : (pipeDpMag hyd e m).IsNumber := by
  obtain ⟨hd, hv⟩ := he.pipe hkind
  have hlength := he.numbers e.length (by simp [Edge.scalars])
  have hdiameter := he.numbers e.diameter (by simp [Edge.scalars])
  have hroughness := he.numbers e.roughness (by simp [Edge.scalars])
  have hdensity := he.numbers e.density (by simp [Edge.scalars])
  have hviscosity := he.numbers e.viscosity (by simp [Edge.scalars])
  have harea := isNumber_circleArea hhyd hdiameter
  unfold pipeDpMag
  refine Value.isNumber_ite (fun _ => Value.isNumber_fin 0) fun _ => ?_
  set speed : Value R := if 0 < circleArea hyd e.diameter then
    Arith.div m (circleArea hyd e.diameter) else 0 with hs
  have hspeed : speed.IsNumber := Value.isNumber_ite
    (fun h => Value.isNumber_div hm harea (Value.positive_of_lt harea h).ne_zero)
    fun _ => Value.isNumber_fin 0
  have hreynolds : (reynoldsNumber e.density speed e.diameter e.viscosity).IsNumber :=
    Value.isNumber_div (Value.isNumber_mul (Value.isNumber_mul hdensity hspeed) hdiameter)
      hviscosity hv
  set reynolds := reynoldsNumber e.density speed e.diameter e.viscosity with hre
  have hone : (1.0 : Value R).Positive := ⟨1.0, Value.round_exact _, by norm_num⟩
  have hfriction : (if reynolds < 2300.0 then laminarFrictionFactor (Arith.maxOf reynolds 1.0)
      else hyd.colebrookFrictionFactor reynolds
        (if e.diameter ≠ 0 then Arith.div e.roughness e.diameter else 0)).IsNumber := by
    refine Value.isNumber_ite (fun _ => ?_) fun _ => hhyd.colebrook _ _ hreynolds ?_
    · have hmax := Value.Positive.maxOf hreynolds hone
      exact Value.isNumber_div (Value.isNumber_literal _ _ _) hmax.isNumber hmax.ne_zero
    · exact Value.isNumber_ite (fun _ => Value.isNumber_div hroughness hdiameter hd)
        fun _ => Value.isNumber_fin 0
  exact Value.isNumber_mul (Value.isNumber_mul hfriction (Value.isNumber_div hlength hdiameter hd))
    (Value.isNumber_div (Value.isNumber_mul (Value.isNumber_mul hdensity hspeed) hspeed)
      isNumber_two.isNumber isNumber_two.ne_zero)

theorem isNumber_pipeDpAndK (hhyd : hyd.Regular) (he : e.Regular) (hkind : e.kind = .pipe)
    (hflow : flow.IsNumber) :
    (pipeDpAndK hyd e flow).1.IsNumber ∧ (pipeDpAndK hyd e flow).2.IsNumber := by
  have hm := Value.isNumber_abs hflow
  have hmag := isNumber_pipeDpMag hhyd he hkind hm
  refine ⟨isNumber_signed hmag, ?_⟩
  have hleast : (1e-12 : Value R).Positive := ⟨1e-12, Value.round_exact _, by norm_num⟩
  have hstep := Value.Positive.maxOf
    (Value.isNumber_mul hm (Value.isNumber_literal 1 true 6)) hleast
  refine Value.isNumber_ite (fun _ => Value.isNumber_fin 0) fun _ => ?_
  exact Value.isNumber_div (Value.isNumber_sub
    (isNumber_pipeDpMag hhyd he hkind (Value.isNumber_add hm hstep.isNumber)) hmag)
      hstep.isNumber hstep.ne_zero

theorem isNumber_orificeDpAndK (hhyd : hyd.Regular) (he : e.Regular) (hkind : e.kind = .orifice)
    (hflow : flow.IsNumber) :
    (orificeDpAndK hyd e flow).1.IsNumber ∧ (orificeDpAndK hyd e flow).2.IsNumber := by
  have hcd := he.orifice hkind
  have hdensity := he.numbers e.density (by simp [Edge.scalars])
  have hbore := he.numbers e.boreDiameter (by simp [Edge.scalars])
  have harea := isNumber_circleArea hhyd hbore
  have hm := Value.isNumber_abs hflow
  constructor
  · refine isNumber_signed ?_
    unfold orificeDp
    split_ifs with hzero
    · exact Value.isNumber_fin 0
    · have hpositive := hcd.mul
        (Value.positive_of_lt harea (Value.lt_of_not_le harea fun hle => hzero (Or.inr hle)))
      have hquotient := Value.isNumber_div hm hpositive.isNumber hpositive.ne_zero
      exact Value.isNumber_div (Value.isNumber_mul (Value.isNumber_mul hdensity hquotient) hquotient)
        isNumber_two.isNumber isNumber_two.ne_zero
  · refine Value.isNumber_mul (Value.isNumber_mul isNumber_two.isNumber ?_) hm
    refine Value.isNumber_ite (fun h => ?_) fun _ => Value.isNumber_fin 0
    have hproduct := hcd.mul (Value.positive_of_lt harea h)
    have hdivisor := isNumber_two.mul (hproduct.mul hproduct)
    exact Value.isNumber_div hdensity hdivisor.isNumber hdivisor.ne_zero

theorem isNumber_hxSegmentDpAndK (hhyd : hyd.Regular) (he : e.Regular) (hflow : flow.IsNumber) :
    (hxSegmentDpAndK hyd e flow).1.IsNumber ∧ (hxSegmentDpAndK hyd e flow).2.IsNumber := by
  have hdensity := he.numbers e.density (by simp [Edge.scalars])
  have hresistance := he.numbers e.resistance (by simp [Edge.scalars])
  have hdiameter := he.numbers e.diameter (by simp [Edge.scalars])
  have harea := isNumber_circleArea hhyd hdiameter
  have hm := Value.isNumber_abs hflow
  constructor
  · refine isNumber_signed ?_
    have hvelocity : (if 0 < circleArea hyd e.diameter then
        Arith.div (Arith.abs flow) (circleArea hyd e.diameter) else 0).IsNumber := Value.isNumber_ite
      (fun h => Value.isNumber_div hm harea (Value.positive_of_lt harea h).ne_zero)
      fun _ => Value.isNumber_fin 0
    exact Value.isNumber_div (Value.isNumber_mul (Value.isNumber_mul
      (Value.isNumber_mul hresistance hdensity) hvelocity) hvelocity)
        isNumber_two.isNumber isNumber_two.ne_zero
  · refine Value.isNumber_mul (Value.isNumber_mul isNumber_two.isNumber ?_) hm
    refine Value.isNumber_ite (fun h => ?_) fun _ => Value.isNumber_fin 0
    have hpositive := Value.positive_of_lt harea h
    have hdivisor := (isNumber_two.mul hpositive).mul hpositive
    exact Value.isNumber_div (Value.isNumber_mul hresistance hdensity) hdivisor.isNumber
      hdivisor.ne_zero

/-- **The head loss** of an edge and its slope are numbers. -/
theorem isNumber_edgeDpAndK (hhyd : hyd.Regular) (he : e.Regular) (hflow : flow.IsNumber) :
    (edgeDpAndK hyd e flow).1.IsNumber ∧ (edgeDpAndK hyd e flow).2.IsNumber := by
  unfold edgeDpAndK
  cases hkind : e.kind with
  | pipe => exact isNumber_pipeDpAndK hhyd he hkind hflow
  | imposer => exact ⟨Value.isNumber_fin 0, Value.isNumber_fin 0⟩
  | orifice => exact isNumber_orificeDpAndK hhyd he hkind hflow
  | hxSegment => exact isNumber_hxSegmentDpAndK hhyd he hflow

/-- The head loss around a loop and its slope are numbers. -/
theorem isNumber_loopHead (hhyd : hyd.Regular) {edges : List (Edge (Value R))}
    (hedges : ∀ e ∈ edges, e.Regular) (f : Flows R) (loop : List (ℕ × ℤ)) :
    (loopHead hyd edges (finFlows f) loop).1.IsNumber ∧
      (loopHead hyd edges (finFlows f) loop).2.IsNumber := by
  unfold loopHead
  generalize hstart : ((0 : Value R), (0 : Value R)) = acc
  have hacc : acc.1.IsNumber ∧ acc.2.IsNumber :=
    hstart ▸ ⟨Value.isNumber_fin 0, Value.isNumber_fin 0⟩
  clear hstart
  induction loop generalizing acc with
  | nil => exact hacc
  | cons p loop ih =>
      rw [List.foldl_cons]
      refine ih _ ?_
      rcases he : edges[p.1]? with _ | e
      · exact hacc
      · by_cases hunknown : e.kind.isUnknown
        · simp only [if_pos hunknown]
          have hsign : ((p.2 : ℤ) : Value R).IsNumber := ⟨_, Value.round_exact _⟩
          obtain ⟨hdp, hk⟩ := isNumber_edgeDpAndK hhyd (hedges e (List.mem_of_getElem? he))
            (Value.isNumber_mul hsign (Value.isNumber_fin (f p.1)))
          exact ⟨Value.isNumber_add hacc.1 hdp, Value.isNumber_add hacc.2 hk⟩
        · simp only [if_neg hunknown]
          exact hacc

end HeadLosses

end Flownet

end Feldspar

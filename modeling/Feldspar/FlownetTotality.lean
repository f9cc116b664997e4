/-
Feldspar/FlownetTotality.lean

When `solve_flownet_bytes` returns a `Result`.

Only validation and unsupported features are caught, so an edge record that is
not read, an edge to an unlisted node and an empty node list raise, and so does
a correction that evaluates an edge with a square that overflows or a divisor of
zero.  Nothing else does (`solveFlownetBytes_returns_iff`).  In exact arithmetic
every edge is evaluated, and the checked solve is the plain one (`checked_solve`).
-/
import Feldspar.FlownetChecked
import Feldspar.Lib.FloatArith
import Mathlib.Tactic.NormNum
import Mathlib.Tactic.Positivity

namespace Feldspar

namespace Flownet

variable {K : Type} [Arith K] {py : PyText K} {hyd : Hydraulics K} {payload : FlownetPayload K}

/-! ### The run with its partial operations -/

/-- Every correction of the run evaluates its edges. -/
def FlownetPayload.Evaluable (py : PyText K) (hyd : Hydraulics K) (payload : FlownetPayload K) :
    Prop :=
  ∀ p, prepare py payload = .ok p →
    ∀ s, Loop.Reaches (hardyCrossStep hyd p.edges p.loops) p.start s → StepEvaluable hyd p.edges s

theorem inRange_pending {p : Seeded K} (hp : prepare py payload = .ok p) {s : Iterate K}
    (hs : Loop.Reaches (hardyCrossStep hyd p.edges p.loops) p.start s) :
    ∀ loop ∈ s.pending, InRange p.edges loop := by
  obtain ⟨tree, htree, hloops, -⟩ := prepare_ok hp
  exact fun loop hloop =>
    inRange_cycleBasis htree loop (hloops ▸ pending_of_reaches hs loop hloop)

theorem checked_solve_unique {r r' : Except (HardyCrossError K) (List (Edge K))}
    (h : Checked.HardyCrossSolve py hyd payload r)
    (h' : Checked.HardyCrossSolve py hyd payload r') : r = r' := by
  unfold Checked.HardyCrossSolve at h h'
  rcases hp : Checked.prepare py payload with e | p
  · rw [hp] at h h'
    exact h.trans h'.symm
  · rw [hp] at h h'
    exact h.unique h'

section Run

variable [FloatOrder K]

/-- **No partial operation of the solve fails** where the edges are evaluated. -/
theorem checked_solve_of_evaluable (h : payload.Evaluable py hyd)
    (r : Except (HardyCrossError K) (List (Edge K))) :
    Checked.HardyCrossSolve py hyd payload r ↔ HardyCrossSolve py hyd payload r := by
  unfold Checked.HardyCrossSolve HardyCrossSolve
  rw [checked_prepare]
  rcases hp : prepare py payload with e | p
  · exact Iff.rfl
  · refine (Loop.returns_congr (I := Loop.Reaches (hardyCrossStep hyd p.edges p.loops) p.start)
      (fun _ _ hs hstep => hs.tail hstep) ?_ Loop.Reaches.refl).symm
    exact fun s hs => (checked_step (inRange_pending hp hs) (h p hp s hs)).symm

/-- And it raises where they are not. -/
theorem checked_solve_raises (h : ¬ payload.Evaluable py hyd) :
    ∃ e, Checked.HardyCrossSolve py hyd payload (.error (.raised e)) := by
  obtain ⟨p, hrest⟩ := not_forall.mp h
  obtain ⟨hp, hrest⟩ := Classical.not_imp.mp hrest
  obtain ⟨s, hrest⟩ := not_forall.mp hrest
  obtain ⟨hs, heval⟩ := Classical.not_imp.mp hrest
  unfold Checked.HardyCrossSolve
  rw [checked_prepare, hp]
  -- the checked run follows the plain one, until it raises
  have hfollows : ∀ s, Loop.Reaches (hardyCrossStep hyd p.edges p.loops) p.start s →
      Loop.Reaches (Checked.hardyCrossStep hyd p.edges p.loops) p.start s ∨
        ∃ t e, Loop.Reaches (Checked.hardyCrossStep hyd p.edges p.loops) p.start t ∧
          Checked.hardyCrossStep hyd p.edges p.loops t = .inl (.error (.raised e)) := by
    intro s hs
    induction hs with
    | refl => exact Or.inl Loop.Reaches.refl
    | tail hs hstep ih =>
        rename_i t u
        rcases ih with hreached | hraised
        · by_cases heval : StepEvaluable hyd p.edges t
          · rw [← checked_step (inRange_pending hp hs) heval] at hstep
            exact Or.inl (hreached.tail hstep)
          · obtain ⟨e, he⟩ := checked_step_raises p.loops (inRange_pending hp hs) heval
            exact Or.inr ⟨t, e, hreached, he⟩
        · exact Or.inr hraised
  have hraised : ∃ t e, Loop.Reaches (Checked.hardyCrossStep hyd p.edges p.loops) p.start t ∧
      Checked.hardyCrossStep hyd p.edges p.loops t = .inl (.error (.raised e)) := by
    rcases hfollows s hs with hreached | hraised
    · obtain ⟨e, he⟩ := checked_step_raises p.loops (inRange_pending hp hs) heval
      exact ⟨s, e, hreached, he⟩
    · exact hraised
  obtain ⟨t, e, hreached, he⟩ := hraised
  exact ⟨e, hreached.returns (Loop.returns_of_step he)⟩

end Run

/-! ### What raises -/

def HardyCrossError.IsFault : HardyCrossError K → Prop
  | .raised _ => True
  | .unfinished => True
  | _ => False

/-- Every edge reads, up to the first one that is refused. -/
def ReadsUntilRefused (py : PyText K) : List (FlowEdge K) → Prop
  | [] => True
  | edge :: edges => edge.Reads py ∧ (edge.Supported py → ReadsUntilRefused py edges)

/-- What a payload has to be for the solve to end in a `Result`. -/
structure FlownetPayload.Solvable (py : PyText K) (payload : FlownetPayload K) : Prop where
  reads : ReadsUntilRefused py payload.edges
  listed : (∀ edge ∈ payload.edges, edge.Supported py) → payload.nodes ≠ [] ∧
    ∀ edge ∈ payload.edges, edge.a ∈ payload.nodes ∧ edge.b ∈ payload.nodes

theorem raises_mapM : ∀ {edges : List (FlowEdge K)},
    Raises (edges.mapM (Edge.ofPayload py)) ↔ ¬ ReadsUntilRefused py edges
  | [] => iff_of_false (not_raises_ok []) (not_not.mpr trivial)
  | edge :: edges => by
      have hrest : ∀ e, Raises (edges.mapM (Edge.ofPayload py) >>= fun es => pure (e :: es)) ↔
          ¬ ReadsUntilRefused py edges := by
        intro e
        rw [raises_bind, raises_mapM]
        refine or_iff_left ?_
        rintro ⟨es, -, h⟩
        exact not_raises_ok _ h
      rw [List.mapM_cons, raises_bind, raises_ofPayload, ReadsUntilRefused, not_and_or,
        Classical.not_imp]
      refine or_congr_right ?_
      rw [← succeeds_ofPayload]
      constructor
      · rintro ⟨e, he, h⟩
        exact ⟨⟨e, he⟩, (hrest e).mp h⟩
      · rintro ⟨⟨e, he⟩, h⟩
        exact ⟨e, he, (hrest e).mpr h⟩

omit [Arith K] in
theorem spanningTree_fault {nodes : List String} {edges : List (Edge K)} :
    (∃ e, spanningTree nodes edges = .error e ∧ e.IsFault) ↔
      ¬ (nodes ≠ [] ∧ ∀ e ∈ edges, e.a ∈ nodes ∧ e.b ∈ nodes) := by
  have hforM : ∀ {e : HardyCrossError K}, (edges.forM fun e => do
      if e.a ∉ nodes then throw (.raised (.keyError e.a))
      if e.b ∉ nodes then throw (.raised (.keyError e.b)) :
        Except (HardyCrossError K) Unit) = .error e →
        e.IsFault ∧ ¬ ∀ e ∈ edges, e.a ∈ nodes ∧ e.b ∈ nodes := by
    intro e h
    obtain ⟨edge, hedge, h⟩ := Fallible.forM_eq_error h
    by_cases ha : edge.a ∈ nodes
    · by_cases hb : edge.b ∈ nodes
      · rw [if_neg (not_not.mpr ha), if_neg (not_not.mpr hb)] at h
        cases h
      · rw [if_neg (not_not.mpr ha), if_pos hb] at h
        obtain rfl := (Except.error.inj h).symm
        exact ⟨trivial, fun hlisted => hb (hlisted edge hedge).2⟩
    · rw [if_pos ha] at h
      obtain rfl := (Except.error.inj h).symm
      exact ⟨trivial, fun hlisted => ha (hlisted edge hedge).1⟩
  -- with every end listed, all that is left to fail on is an empty list of nodes
  rcases hends : (edges.forM fun e => do
      if e.a ∉ nodes then throw (.raised (.keyError e.a))
      if e.b ∉ nodes then throw (.raised (.keyError e.b)) :
        Except (HardyCrossError K) Unit) with e | ⟨⟩
  · obtain ⟨hfault, hlisted⟩ := hforM hends
    refine iff_of_true ⟨e, ?_, hfault⟩ fun h => hlisted h.2
    exact Fallible.bind_eq_error.mpr (Or.inl hends)
  · have hlisted := listed_of_forM hends
    unfold spanningTree
    rw [hends]
    cases nodes with
    | nil => exact iff_of_true ⟨_, rfl, trivial⟩ fun h => h.1 rfl
    | cons root nodes =>
        refine iff_of_false ?_ (not_not.mpr ⟨List.cons_ne_nil _ _, hlisted⟩)
        rintro ⟨e, h, hfault⟩
        simp only [bind, Except.bind] at h
        split_ifs at h
        · obtain rfl := (Except.error.inj h).symm
          exact hfault
        · cases h

theorem seed_not_fault {edges : List (Edge K)} {tree : SpanningTree} {e : HardyCrossError K}
    (h : seedContinuityRespectingFlows edges tree = .error e) : ¬ e.IsFault := by
  rcases Fallible.bind_eq_error.mp h with h | ⟨flows, -, h⟩
  · obtain ⟨s, g, -, h⟩ := Fallible.foldlM_eq_error h
    unfold seedNode at h
    simp only at h
    split_ifs at h
    all_goals
      obtain rfl := (Except.error.inj h).symm
      exact id
  · simp only at h
    split_ifs at h
    · obtain rfl := (Except.error.inj h).symm
      exact id
    · cases h

theorem prepare_fault :
    (∃ e, prepare py payload = .error e ∧ e.IsFault) ↔ ¬ payload.Solvable py := by
  have hsolvable : payload.Solvable py ↔ ReadsUntilRefused py payload.edges ∧
      ((∀ edge ∈ payload.edges, edge.Supported py) → payload.nodes ≠ [] ∧
        ∀ edge ∈ payload.edges, edge.a ∈ payload.nodes ∧ edge.b ∈ payload.nodes) :=
    ⟨fun h => ⟨h.reads, h.listed⟩, fun h => ⟨h.1, h.2⟩⟩
  rw [hsolvable, not_and_or, ← raises_mapM, Classical.not_imp]
  unfold prepare
  rcases hedges : payload.edges.mapM (Edge.ofPayload py) with e | edges
  · -- some edge is not built
    have hsupported : ¬ ∀ edge ∈ payload.edges, edge.Supported py := by
      intro h
      obtain ⟨edges, hok⟩ := Fallible.succeeds_mapM.mpr fun edge hedge =>
        succeeds_ofPayload.mpr (h edge hedge)
      rw [hedges] at hok
      cases hok
    rw [or_iff_left fun h => hsupported h.1]
    cases e with
    | unsupported edgeId feature =>
        refine iff_of_false ?_ (not_raises_unsupported edgeId feature)
        rintro ⟨e, h, hfault⟩
        obtain rfl := Except.error.inj h
        exact hfault
    | raised e => exact iff_of_true ⟨_, rfl, trivial⟩ ⟨e, rfl⟩
  · have hbuilt := Fallible.mapM_eq_ok.mp hedges
    have hsupported : ∀ edge ∈ payload.edges, edge.Supported py :=
      fun edge hedge => succeeds_ofPayload.mp
        (Fallible.succeeds_mapM.mp ⟨edges, hedges⟩ edge hedge)
    have hends : (∀ edge ∈ payload.edges, edge.a ∈ payload.nodes ∧ edge.b ∈ payload.nodes) ↔
        ∀ e ∈ edges, e.a ∈ payload.nodes ∧ e.b ∈ payload.nodes := by
      constructor
      · intro h e he
        obtain ⟨edge, hedge, hbuilt⟩ := Fallible.exists_of_mem_right hbuilt he
        rw [(built_ofPayload hbuilt).a, (built_ofPayload hbuilt).b]
        exact h edge hedge
      · intro h edge hedge
        obtain ⟨e, he, hbuilt⟩ := Fallible.exists_of_mem_left hbuilt hedge
        rw [← (built_ofPayload hbuilt).a, ← (built_ofPayload hbuilt).b]
        exact h e he
    rw [or_iff_right (not_raises_ok edges), and_iff_right hsupported, hends, ← spanningTree_fault]
    show (∃ e, (spanningTree payload.nodes edges >>= _) = .error e ∧ e.IsFault) ↔ _
    constructor
    · rintro ⟨e, h, hfault⟩
      rcases Fallible.bind_eq_error.mp h with h | ⟨tree, -, h⟩
      · exact ⟨e, h, hfault⟩
      · rcases Fallible.bind_eq_error.mp h with h | ⟨flows, -, h⟩
        · exact absurd hfault (seed_not_fault h)
        · cases h
    · rintro ⟨e, h, hfault⟩
      exact ⟨e, Fallible.bind_eq_error.mpr (Or.inl h), hfault⟩

theorem step_not_fault {edges : List (Edge K)} {loops : List (List (ℕ × ℤ))} {s : Iterate K}
    {e : HardyCrossError K} (h : hardyCrossStep hyd edges loops s = .inl (.error e)) :
    ¬ e.IsFault := by
  unfold hardyCrossStep at h
  rcases hpending : s.pending with _ | ⟨loop, rest⟩
  · simp only [hpending] at h
    split_ifs at h
    · cases Sum.inl.inj h
    · obtain rfl := (Except.error.inj (Sum.inl.inj h)).symm
      exact id
  · simp only [hpending] at h
    split_ifs at h
    obtain rfl := (Except.error.inj (Sum.inl.inj h)).symm
    exact id

/-- The solve ends in a `Result` exactly for these payloads. -/
theorem hardyCrossSolve_fault {r : Except (HardyCrossError K) (List (Edge K))}
    (h : HardyCrossSolve py hyd payload r) :
    (∃ e, r = .error e ∧ e.IsFault) ↔ ¬ payload.Solvable py := by
  rw [← prepare_fault]
  unfold HardyCrossSolve at h
  rcases hp : prepare py payload with e | p
  · rw [hp] at h
    obtain rfl : r = .error e := h
    exact ⟨fun ⟨e', he, hfault⟩ => ⟨e', congrArg _ (Except.error.inj he), hfault⟩,
      fun ⟨e', he, hfault⟩ => ⟨e', congrArg _ (Except.error.inj he), hfault⟩⟩
  · rw [hp] at h
    refine iff_of_false ?_ fun ⟨e, he, _⟩ => nomatch he
    rintro ⟨e, rfl, hfault⟩
    obtain ⟨s, -, hlast⟩ := Loop.Returns.exists_reached h
    exact step_not_fault hlast hfault

theorem solved_listed {edges : List (Edge K)} (h : HardyCrossSolve py hyd payload (.ok edges)) :
    ∀ e ∈ edges, e.a ∈ payload.nodes ∧ e.b ∈ payload.nodes := by
  unfold HardyCrossSolve at h
  rcases hp : prepare py payload with e | p
  · rw [hp] at h
    cases h
  · rw [hp] at h
    obtain ⟨s, -, hlast⟩ := Loop.Returns.exists_reached h
    obtain ⟨tree, htree⟩ := (prepare_edges hp).2
    obtain ⟨hmem, -⟩ := spanningTree_ok_cases htree
    rw [hardyCrossStep_ok hlast]
    intro e he
    obtain ⟨i, hi⟩ := List.mem_iff_getElem?.mp he
    rw [getElem?_withFlows] at hi
    obtain ⟨edge, hedge, rfl⟩ := Option.map_eq_some_iff.mp hi
    exact hmem edge (List.mem_of_getElem? hedge)

omit [Arith K] in
/-- A `Result` comes from a run without a fault. -/
theorem report_ok {r : Except (HardyCrossError K) (List (Edge K))}
    (hlisted : ∀ edges, r = .ok edges → ∀ e ∈ edges, e.a ∈ payload.nodes ∧ e.b ∈ payload.nodes) :
    (∃ x, report (r.bind (SolvedNetwork.init payload)) = .ok x) ↔
      ¬ ∃ e, r = .error e ∧ e.IsFault := by
  rcases r with e | edges
  · have hnone : ¬ e.IsFault → ¬ ∃ e', (.error e : Except _ (List (Edge K))) = .error e' ∧
        e'.IsFault :=
      fun h ⟨e', he, hfault⟩ => h (Except.error.inj he ▸ hfault)
    cases e with
    | outOfDomain feature => exact iff_of_true ⟨_, rfl⟩ (hnone id)
    | noConvergence n x => exact iff_of_true ⟨_, rfl⟩ (hnone id)
    | raised e => exact iff_of_false (fun ⟨x, hx⟩ => nomatch hx) fun h => h ⟨_, rfl, trivial⟩
    | unfinished => exact iff_of_false (fun ⟨x, hx⟩ => nomatch hx) fun h => h ⟨_, rfl, trivial⟩
  · refine iff_of_true ⟨.ok ⟨payload, edges, hlisted edges rfl⟩, ?_⟩ fun ⟨e, he, _⟩ => nomatch he
    show report (SolvedNetwork.init payload edges) = _
    rw [SolvedNetwork.init, dif_pos (hlisted edges rfl)]
    rfl

/-- **Totality**: `solve_flownet_bytes` returns a `Result` exactly where the
payload, if there is one, is read up to its first refused edge and, if none is
refused, lists a node and every end of an edge, and where no correction
evaluates an edge whose squares overflow or whose divisors vanish. -/
theorem solveFlownetBytes_returns_iff [FloatOrder K]
    (validate : List UInt8 → Except String (FlownetPayload K)) (py : PyText K)
    (hyd : Hydraulics K) (data : List UInt8) :
    (∃ r, SolveFlownetBytes validate py hyd data (.ok r)) ↔
      ∀ payload, validate data = .ok payload →
        payload.Solvable py ∧ payload.Evaluable py hyd := by
  unfold SolveFlownetBytes
  rcases validate data with exc | payload
  · exact iff_of_true ⟨_, rfl⟩ fun payload h => nomatch h
  · have hpayload : (∀ payload', (.ok payload : Except String (FlownetPayload K)) = .ok payload' →
        payload'.Solvable py ∧ payload'.Evaluable py hyd) ↔
          payload.Solvable py ∧ payload.Evaluable py hyd :=
      ⟨fun h => h payload rfl, fun h payload' heq => Except.ok.inj heq ▸ h⟩
    rw [hpayload]
    constructor
    · rintro ⟨r, solved, hsolved, hr⟩
      have hevaluable : payload.Evaluable py hyd := by
        by_contra hnot
        obtain ⟨e, he⟩ := checked_solve_raises hnot
        obtain rfl := checked_solve_unique hsolved he
        cases hr
      refine ⟨?_, hevaluable⟩
      rw [checked_solve_of_evaluable hevaluable] at hsolved
      have hreport := (report_ok fun edges h => solved_listed (h ▸ hsolved)).mp ⟨r, hr.symm⟩
      by_contra hnot
      exact hreport ((hardyCrossSolve_fault hsolved).mpr hnot)
    · rintro ⟨hsolvable, hevaluable⟩
      obtain ⟨solved, hsolved⟩ := hardyCrossSolve_total py hyd payload
      obtain ⟨r, hr⟩ := (report_ok fun edges h => solved_listed (h ▸ hsolved)).mpr fun hfault =>
        (hardyCrossSolve_fault hsolved).mp hfault hsolvable
      exact ⟨r, solved, (checked_solve_of_evaluable hevaluable solved).mpr hsolved, hr.symm⟩

/-! ### Floats -/

section Floats

open FloatValue (Rounding Value)

variable {R : Type} [Field R] [LinearOrder R] [IsStrictOrderedRing R] [Rounding R]

instance : FloatOrder (Value R) where
  lt_irrefl x := by
    cases x with
    | fin x => exact fun h => lt_irrefl x (Value.lt_iff.mp h)
    | inf n => cases n <;> exact Bool.false_ne_true
    | nan => exact Bool.false_ne_true
  abs_le_zero x := by
    constructor
    · rintro (hlt | ⟨heq, -⟩)
      · cases x with
        | fin x => exact absurd (Value.lt_iff.mp hlt) (abs_nonneg x).not_gt
        | inf n => exact absurd hlt Bool.false_ne_true
        | nan => exact absurd hlt Bool.false_ne_true
      · exact heq
    · have hzero : (.fin 0 : Value R) ≠ .nan := nofun
      exact fun heq => Or.inr ⟨heq, heq.trans_ne hzero⟩
  step_pos := by
    have hstep : (1 : R) ≤ 1e-12 * 10 ^ 12 := by norm_num
    obtain ⟨y, hy, heq⟩ := Value.exists_round_pos hstep (by norm_num)
    show Arith.lt (.fin 0) (Value.round (1e-12 : R))
    rw [heq]
    exact Value.lt_iff.mpr hy

end Floats

/-! ### Exact arithmetic -/

section Exact

variable {K : Type} [Field K] [LinearOrder K] [IsStrictOrderedRing K]
variable {py : PyText K} {hyd : Hydraulics K} {payload : FlownetPayload K}

instance : FloatOrder K where
  lt_irrefl x := lt_irrefl x
  abs_le_zero x := ⟨fun h => le_antisymm h (abs_nonneg x), fun h => h.le⟩
  step_pos := by
    show (0 : K) < 1e-12
    norm_num

/-- Without overflow only a coefficient of zero is divided by. -/
theorem evaluable_exact {edge : Edge K} (hcd : edge.kind = .orifice → 0 < edge.cd) (flow : K) :
    edge.Evaluable hyd flow := by
  unfold Edge.Evaluable
  cases hkind : edge.kind with
  | pipe => exact Or.inr fun _ => rfl
  | orifice =>
      refine ⟨fun _ => rfl, fun harea => ⟨fun _ => rfl, ?_⟩⟩
      have hcd' := hcd hkind
      have hpos : (0 : K) < 2.0 * (edge.cd * circleArea hyd edge.boreDiameter) ^ 2 := by
        have hprod := mul_pos hcd' harea
        positivity
      exact hpos.ne'
  | hxSegment =>
      refine ⟨fun _ => rfl, fun harea => ?_⟩
      have hpos : (0 : K) < 2.0 * circleArea hyd edge.diameter * circleArea hyd edge.diameter := by
        have harea' : 0 < circleArea hyd edge.diameter := harea
        positivity
      exact hpos.ne'
  | imposer => exact trivial

theorem FlownetPayload.evaluable (py : PyText K) (hyd : Hydraulics K)
    (payload : FlownetPayload K) : payload.Evaluable py hyd := by
  intro p hp s _ loop _ q _ edge hedge _
  obtain ⟨record, -, hbuilt⟩ :=
    Fallible.exists_of_mem_right (prepare_edges hp).1 (List.mem_of_getElem? hedge)
  exact evaluable_exact (built_ofPayload hbuilt).cd _

/-- **In exact arithmetic no partial operation of the solve fails.** -/
theorem checked_solve (r : Except (HardyCrossError K) (List (Edge K))) :
    Checked.HardyCrossSolve py hyd payload r ↔ HardyCrossSolve py hyd payload r :=
  checked_solve_of_evaluable (payload.evaluable py hyd) r

end Exact

/-! ### Two payloads -/

section Payloads

/-- Validation, on the bytes of one text. -/
def validateText (text : String) (payload : FlownetPayload ℚ) (data : List UInt8) :
    Except String (FlownetPayload ℚ) :=
  if data = text.toUTF8.toList then .ok payload else .error "validation error"

theorem validateText_eq (text : String) (payload : FlownetPayload ℚ) :
    validateText text payload text.toUTF8.toList = .ok payload := if_pos rfl

def edgeText (id a b kind values : String) : String :=
  "\x7b\"id\": \"" ++ id ++ "\", \"a\": \"" ++ a ++ "\", \"b\": \"" ++ b ++ "\", \"kind\": \"" ++
    kind ++ "\", \"params\": \x7b\"source\": \"scalars\", \"values\": \x7b" ++ values ++
    "\x7d\x7d\x7d"

def segmentText (id a b kFactor : String) : String :=
  edgeText id a b "hx_segment"
    ("\"k_factor\": " ++ kFactor ++ ", \"diameter\": 1.0, \"density\": 1.0")

def imposerText (id a b flowRate : String) : String :=
  edgeText id a b "imposer" ("\"flow_rate\": " ++ flowRate)

def parallelText : String :=
  "\x7b\"nodes\": [\"source\", \"split\", \"join\", \"sink\"], \"edges\": [" ++
    imposerText "feed" "source" "split" "0.001" ++ ", " ++
    segmentText "one" "split" "join" "1.0" ++ ", " ++ segmentText "two" "split" "join" "2.0" ++
    ", " ++ imposerText "drain" "join" "sink" "0.001" ++ "]\x7d"

theorem solveFlownetBytes_returns_parallelSegments :
    ∃ r, SolveFlownetBytes (validateText parallelText parallelSegments) noText doublePi
      parallelText.toUTF8.toList (.ok r) := by
  refine (solveFlownetBytes_returns_iff (validateText parallelText parallelSegments) noText
    doublePi parallelText.toUTF8.toList).mpr fun payload h => ?_
  rw [validateText_eq] at h
  obtain rfl := Except.ok.inj h
  refine ⟨?_, parallelSegments.evaluable noText doublePi⟩
  have hprepared : (prepare noText (parallelSegments : FlownetPayload ℚ)).toOption.isSome := by
    decide +kernel
  obtain ⟨p, hp⟩ := Option.isSome_iff_exists.mp hprepared
  by_contra hunsolvable
  obtain ⟨e, he, -⟩ := prepare_fault.mpr hunsolvable
  rw [he] at hp
  cases hp

def emptyNetworkText : String := "\x7b\"nodes\": [], \"edges\": []\x7d"

def emptyNetwork : FlownetPayload ℚ := { nodes := [], edges := [] }

/-- `nodes[0]` of an empty node list. -/
theorem solveFlownetBytes_raises_emptyNetwork :
    SolveFlownetBytes (validateText emptyNetworkText emptyNetwork) noText doublePi
        emptyNetworkText.toUTF8.toList (.error (.raised .indexError)) ∧
      ¬ ∃ r, SolveFlownetBytes (validateText emptyNetworkText emptyNetwork) noText doublePi
        emptyNetworkText.toUTF8.toList (.ok r) := by
  unfold SolveFlownetBytes
  rw [validateText_eq]
  have hraised : Checked.HardyCrossSolve noText doublePi emptyNetwork
      (.error (.raised .indexError)) := rfl
  refine ⟨⟨_, hraised, rfl⟩, ?_⟩
  rintro ⟨r, solved, hsolved, hr⟩
  obtain rfl : solved = .error (.raised .indexError) := hsolved
  cases hr

end Payloads

end Flownet

end Feldspar

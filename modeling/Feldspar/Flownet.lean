/-
Feldspar/Flownet.lean

The Hardy-Cross network solver (`fluids/network.py`), in exact arithmetic.

A payload's edges are read into `Edge`s (`Edge.ofPayload`), a breadth-first
spanning tree is grown (`spanningTree`), every other edge closes a loop with it
(`buildCycleBasis`), the flows are seeded from the leaves to the root
(`seedContinuityRespectingFlows`), and the loops are corrected one after the
other until no correction is large (`hardyCrossStep`).  `Checked` is the same
solve with every lookup, index and division that can raise; what it raises is in
`FlownetTotality`.

An edge's `flow` field is its flow before the solve; the flows of a run are a
function of the edge's index.  `Hydraulics` holds what is not rational: `pi`
and the Colebrook root.
-/
import Feldspar.Lib.Arith
import Feldspar.Lib.Flow
import Feldspar.Lib.Loop

namespace Feldspar

namespace Flownet

variable {K : Type} [Arith K]

/-! ### The payload -/

inductive Json (K : Type)
  | null
  | bool (b : Bool)
  | int (z : ℤ)
  | num (x : K)
  | str (s : String)
  | arr (items : List (Json K))
  | obj (fields : List (String × Json K))

/-- Python's `bool(v)`. -/
def Json.truthy : Json K → Bool
  | null => false
  | bool b => b
  | int z => z ≠ 0
  | num x => x ≠ 0
  | str s => s ≠ ""
  | arr items => !items.isEmpty
  | obj fields => !fields.isEmpty

def lookup (fields : List (String × Json K)) (key : String) : Option (Json K) :=
  (fields.find? fun field => field.1 = key).map Prod.snd

structure FlowEdge (K : Type) where
  id : String
  a : String
  b : String
  kind : String
  params : List (String × Json K)

/-- `_ClaimTarget`. -/
structure ClaimTarget where
  claimKind : String
  role : Option String

structure FlownetPayload (K : Type) where
  nodes : List String
  edges : List (FlowEdge K)
  claimTarget : Option ClaimTarget := none

/-- The exceptions that a malformed payload raises. -/
inductive PayloadError
  | keyError (key : String)
  | indexError
  | typeError
  | valueError
  | overflowError
  | zeroDivisionError
  deriving DecidableEq

/-- What `_Edge` raises; `unsupported` is `_UnsupportedFeature`. -/
inductive EdgeError
  | unsupported (edgeId feature : String)
  | raised (e : PayloadError)
  deriving DecidableEq

/-- What Python makes of a value: `str(v)` in a message, `float(s)` of a string,
and `float(z)` of an integer, which overflows for a long one. -/
structure PyText (K : Type) where
  format : Json K → String
  parseFloat : String → Option K
  ofInt : ℤ → Option K

inductive EdgeKind
  | pipe
  | imposer
  | orifice
  | hxSegment
  deriving DecidableEq

/-- `_UNKNOWN_FLOW_KINDS`. -/
def EdgeKind.isUnknown : EdgeKind → Bool
  | imposer => false
  | _ => true

structure Edge (K : Type) where
  id : String
  a : String
  b : String
  kind : EdgeKind
  length : K
  diameter : K
  roughness : K
  density : K
  viscosity : K
  flow : K
  cd : K
  boreDiameter : K
  resistance : K
  deriving DecidableEq

section Parse

variable (py : PyText K)

/-- `float(v)`. -/
def pyFloat : Json K → Except PayloadError K
  | .num x => .ok x
  | .int z => ((py.ofInt z).map .ok).getD (.error .overflowError)
  | .bool b => .ok ((if b then 1 else 0 : ℕ) : K)
  | .str s => ((py.parseFloat s).map .ok).getD (.error .valueError)
  | _ => .error .typeError

/-- `v[key]`. -/
def item (v : Json K) (key : String) : Except PayloadError (Json K) :=
  match v with
  | .obj fields => ((lookup fields key).map .ok).getD (.error (.keyError key))
  | _ => .error .typeError

/-- `key in v`. -/
def contains (v : Json K) (key : String) : Except PayloadError Bool :=
  match v with
  | .obj fields => .ok (lookup fields key).isSome
  | .arr items => .ok (items.any fun x => match x with
      | .str s => s = key
      | _ => false)
  | .str s => .ok (decide (key.toList <:+: s.toList))
  | _ => .error .typeError

def scalarValue (interval : Json K) : Except PayloadError K :=
  match interval with
  | .num x => pyFloat py (.num x)
  | .int z => pyFloat py (.int z)
  | .bool b => pyFloat py (.bool b)
  | interval => do
      let lo ← pyFloat py (← item interval "lo")
      let hi ← pyFloat py (← item interval "hi")
      pure ((lo + hi) / 2.0)

def raising {α : Type} : Except PayloadError α → Except EdgeError α
  | .ok x => .ok x
  | .error e => .error (.raised e)

def requireKeys (edgeId : String) (values : Json K) (keys : List String) : Except EdgeError Unit :=
  keys.forM fun key => do
    if !(← raising (contains values key)) then
      throw (.unsupported edgeId ("missing_param:" ++ key))

/-- `_scalar_value(values[key])`. -/
def param (values : Json K) (key : String) : Except EdgeError K :=
  raising (do scalarValue py (← item values key))

/-- `_scalar_value(values.get(key, 0.0))`. -/
def paramOrZero (values : Json K) (key : String) : Except EdgeError K :=
  match values with
  | .obj fields => raising (scalarValue py ((lookup fields key).getD (.num 0)))
  | _ => .error (.raised .typeError)

def orificeBetaMin : K := 0.2

def orificeBetaMax : K := 0.75

/-- The fields that depend on the kind of the edge. -/
def Edge.ofValues (edge : FlowEdge K) (values : Json K) : Except EdgeError (Edge K) :=
  let blank (kind : EdgeKind) : Edge K :=
    { id := edge.id, a := edge.a, b := edge.b, kind := kind, length := 0, diameter := 0,
      roughness := 0, density := 0, viscosity := 0, flow := 0, cd := 0, boreDiameter := 0,
      resistance := 0 }
  match edge.kind with
  | "pipe" => do
      requireKeys edge.id values ["length", "diameter", "density", "viscosity"]
      pure { blank .pipe with
        length := ← param py values "length"
        diameter := ← param py values "diameter"
        roughness := ← paramOrZero py values "roughness"
        density := ← param py values "density"
        viscosity := ← param py values "viscosity" }
  | "imposer" => do
      requireKeys edge.id values ["flow_rate"]
      pure { blank .imposer with flow := ← param py values "flow_rate" }
  | "orifice" => do
      requireKeys edge.id values ["cd", "bore_diameter", "pipe_diameter", "density"]
      let cd ← param py values "cd"
      let boreDiameter ← param py values "bore_diameter"
      let pipeDiameter ← param py values "pipe_diameter"
      if ¬(0 < cd ∧ cd ≤ 1.0) then throw (.unsupported edge.id "orifice_cd_out_of_range")
      -- without a pipe diameter, beta is infinite
      let beta := boreDiameter / pipeDiameter
      if pipeDiameter = 0 ∨ ¬(0.2 ≤ beta ∧ beta ≤ 0.75) then
        throw (.unsupported edge.id "orifice_beta_out_of_range")
      pure { blank .orifice with
        diameter := pipeDiameter
        density := ← param py values "density"
        cd := cd
        boreDiameter := boreDiameter }
  | "hx_segment" => do
      requireKeys edge.id values ["k_factor", "diameter", "density"]
      let resistance ← param py values "k_factor"
      let diameter ← param py values "diameter"
      if resistance < 0 then throw (.unsupported edge.id "hx_segment_negative_resistance")
      if diameter ≤ 0 then throw (.unsupported edge.id "hx_segment_nonpositive_diameter")
      pure { blank .hxSegment with
        diameter := diameter
        density := ← param py values "density"
        resistance := resistance }
  | kind => throw (.unsupported edge.id ("edge_kind:" ++ kind))

/-- `_Edge`. -/
def Edge.ofPayload (edge : FlowEdge K) : Except EdgeError (Edge K) :=
  match (lookup edge.params "source").getD .null with
  | .str "geom_extract" => do
      requireKeys edge.id (.obj edge.params) ["record", "selector"]
      -- no extraction is resolved here, so only the reason differs
      match lookup edge.params "record" with
      | some (.obj record) =>
          if ((lookup record "digest").getD .null).truthy then
            throw (.unsupported edge.id "edge_params:geom_extract")
          else throw (.unsupported edge.id "edge_params:geom_extract:unresolved_digest")
      | _ => throw (.unsupported edge.id "edge_params:geom_extract:unresolved_digest")
  | .str "scalars" => Edge.ofValues py edge ((lookup edge.params "values").getD (.obj []))
  | source =>
      throw (.unsupported edge.id
        ("edge_params:" ++ if source.truthy then py.format source else "unknown"))

end Parse

/-! ### Head losses -/

structure Hydraulics (K : Type) where
  pi : K
  colebrookFrictionFactor : K → K → K

section HeadLoss

variable (hyd : Hydraulics K)

/-- `math.copysign(magnitude, flow) if flow != 0.0 else 0.0`. -/
def signed (magnitude flow : K) : K :=
  if flow = 0 then 0 else if flow < 0 then -Arith.abs magnitude else Arith.abs magnitude

def reynoldsNumber (density velocity diameter viscosity : K) : K :=
  density * velocity * diameter / viscosity

def laminarFrictionFactor (reynolds : K) : K := 64.0 / reynolds

def darcyDp (frictionFactor length diameter density velocity : K) : K :=
  frictionFactor * (length / diameter) * (density * velocity * velocity / 2.0)

def minorLossDp (kFactor density velocity : K) : K := kFactor * density * velocity * velocity / 2.0

def orificeDp (dischargeCoeff area density flowRate : K) : K :=
  if dischargeCoeff ≤ 0 ∨ area ≤ 0 then 0
  else
    let qOverCa := flowRate / (dischargeCoeff * area)
    density * qOverCa * qOverCa / 2.0

def circleArea (diameter : K) : K := hyd.pi * Arith.square (diameter / 2.0)

/-- `_dp_mag` of a pipe. -/
def pipeDpMag (edge : Edge K) (m : K) : K :=
  if m ≤ 0 then 0
  else
    let area := circleArea hyd edge.diameter
    let speed := if 0 < area then m / area else 0
    let reynolds := reynoldsNumber edge.density speed edge.diameter edge.viscosity
    let f :=
      if reynolds < 2300.0 then laminarFrictionFactor (Arith.maxOf reynolds 1.0)
      else
        hyd.colebrookFrictionFactor reynolds
          (if edge.diameter ≠ 0 then edge.roughness / edge.diameter else 0)
    darcyDp f edge.length edge.diameter edge.density speed

def pipeDpAndK (edge : Edge K) (flow : K) : K × K :=
  let m := Arith.abs flow
  let dpMag := pipeDpMag hyd edge m
  let k :=
    if m = 0 then 0
    else
      let h := Arith.maxOf (m * 1e-6) 1e-12
      (pipeDpMag hyd edge (m + h) - dpMag) / h
  (signed dpMag flow, k)

def orificeDpAndK (edge : Edge K) (flow : K) : K × K :=
  let area := circleArea hyd edge.boreDiameter
  let m := Arith.abs flow
  let coeff := if 0 < area then edge.density / (2.0 * Arith.square (edge.cd * area)) else 0
  (signed (orificeDp edge.cd area edge.density m) flow, 2.0 * coeff * m)

def hxSegmentDpAndK (edge : Edge K) (flow : K) : K × K :=
  let area := circleArea hyd edge.diameter
  let m := Arith.abs flow
  let velocity := if 0 < area then m / area else 0
  let coeff := if 0 < area then edge.resistance * edge.density / (2.0 * area * area) else 0
  (signed (minorLossDp edge.resistance edge.density velocity) flow, 2.0 * coeff * m)

def edgeDpAndK (edge : Edge K) (flow : K) : K × K :=
  match edge.kind with
  | .pipe => pipeDpAndK hyd edge flow
  | .orifice => orificeDpAndK hyd edge flow
  | .hxSegment => hxSegmentDpAndK hyd edge flow
  | .imposer => (0, 0)

end HeadLoss

/-! ### The spanning tree and the loops -/

/-- The `SolveError`s of the solver, what it raises, and a loop that has not
ended within its fuel.  `outOfDomain` is the violated payload feature at the
flownet port. -/
inductive HardyCrossError (K : Type)
  | outOfDomain (feature : String)
  | noConvergence (iterations : ℕ) (residual : K)
  | raised (e : PayloadError)
  | unfinished
  deriving DecidableEq

/-- The two ends of each edge. -/
def ends (edges : List (Edge K)) : List (String × String) := edges.map fun e => (e.a, e.b)

/-- The neighbors of `n` along the edges from `k` on. -/
def adjacencyFrom (n : String) : List (String × String) → ℕ → List (String × ℕ)
  | [], _ => []
  | (a, b) :: ends, k =>
      ((if a = n then [(b, k)] else []) ++ if b = n then [(a, k)] else []) ++
        adjacencyFrom n ends (k + 1)

def adjacency (ends : List (String × String)) (n : String) : List (String × ℕ) :=
  adjacencyFrom n ends 0

/-- The nodes found, each with its parent, and the queue. -/
abbrev BfsState := List (Flow.Found String) × List String

/-- One neighbor of `node`; the visited nodes are the nodes found. -/
def visit (root node : String) (s : BfsState) (neighbor : String × ℕ) : BfsState :=
  if neighbor.1 ∈ Flow.order root s.1 then s
  else (s.1 ++ [⟨neighbor.1, node, neighbor.2⟩], s.2 ++ [neighbor.1])

/-- At most `k` iterations of the queue's loop. -/
def bfs (ends : List (String × String)) (root : String) : ℕ → BfsState → BfsState
  | 0, s => s
  | k + 1, (found, queue) =>
      match queue with
      | [] => (found, [])
      | node :: queue => bfs ends root k ((adjacency ends node).foldl (visit root node) (found, queue))

/-- `parent_node`, `parent_edge` and `tree_edges` are the fields of `found`. -/
structure SpanningTree where
  root : String
  found : List (Flow.Found String)

/-- `_spanning_tree`; every node is taken from the queue at most once. -/
def spanningTree (nodes : List String) (edges : List (Edge K)) :
    Except (HardyCrossError K) SpanningTree := do
  edges.forM fun e => do
    if e.a ∉ nodes then throw (.raised (.keyError e.a))
    if e.b ∉ nodes then throw (.raised (.keyError e.b))
  match nodes with
  | [] => throw (.raised .indexError)
  | root :: _ =>
      let found := (bfs (ends edges) root nodes.length ([], [root])).1
      if (Flow.order root found).length ≠ nodes.length then
        throw (.outOfDomain "disconnected_network")
      pure ⟨root, found⟩

/-- `_path_to_root`. -/
def SpanningTree.path (tree : SpanningTree) (edges : List (Edge K)) (n : String) : List (ℕ × ℤ) :=
  Flow.pathToRoot (ends edges) tree.found tree.found.length n

def SpanningTree.treeEdges (tree : SpanningTree) : List ℕ := tree.found.map Flow.Found.edge

/-- One loop for each edge outside the tree. -/
def buildCycleBasis (edges : List (Edge K)) (tree : SpanningTree) : List (List (ℕ × ℤ)) :=
  (edges.zipIdx.filter fun e => e.2 ∉ tree.treeEdges).map fun e =>
    Flow.fundamentalLoop e.2 (tree.path edges e.1.a) (tree.path edges e.1.b)

/-! ### The seed -/

def conservationTol : K := 1e-9

/-- The flow of each edge, by its index. -/
abbrev Flows (K : Type) := ℕ → K

def isUnknownAt (edges : List (Edge K)) (i : ℕ) : Bool :=
  (edges[i]?.map fun e => e.kind.isUnknown).getD false

/-- The edges outside the tree get a small flow, if theirs is unknown. -/
def chordSeeds (edges : List (Edge K)) (tree : SpanningTree) : Flows K := fun i =>
  if isUnknownAt edges i ∧ i ∉ tree.treeEdges then 1e-4
  else (edges[i]?.map Edge.flow).getD 0

/-- `sum(sign * edges[idx].flow for idx, sign in chain)`. -/
def flowAlong (flows : Flows K) (chain : List (ℕ × ℤ)) : K :=
  Arith.compensatedSum (chain.map fun p => (p.2 : K) * flows p.1)

/-- The balance at a node determines the flow to its parent, or checks it. -/
def seedNode (tol : K) (edges : List (Edge K)) (flows : Flows K) (g : Flow.Found String) :
    Except (HardyCrossError K) (Flows K) :=
  let incident := Flow.incident (ends edges) g.node
  if incident.length = 1 then
    -- a dead end, or a boundary condition
    .ok (if isUnknownAt edges g.edge then Function.update flows g.edge 0 else flows)
  else
    let balance := flowAlong flows (incident.filter fun p => p.1 ≠ g.edge)
    let signHere : ℤ := if edges[g.edge]?.map Edge.a = some g.node then -1 else 1
    let required := -balance * signHere
    if isUnknownAt edges g.edge then .ok (Function.update flows g.edge required)
    else if Arith.abs (required - flows g.edge) > tol then
      .error (.outOfDomain "overconstrained_demand")
    else .ok flows

/-- The seed, with a tolerance for what is checked. -/
def seedWithin (tol : K) (edges : List (Edge K)) (tree : SpanningTree) :
    Except (HardyCrossError K) (Flows K) := do
  let flows ← tree.found.reverse.foldlM (seedNode tol edges) (chordSeeds edges tree)
  let incident := Flow.incident (ends edges) tree.root
  if incident.length > 1 ∧ Arith.abs (flowAlong flows incident) > tol then
    throw (.outOfDomain "unbalanced_demand")
  pure flows

/-- `_seed_continuity_respecting_flows`. -/
def seedContinuityRespectingFlows (edges : List (Edge K)) (tree : SpanningTree) :
    Except (HardyCrossError K) (Flows K) :=
  seedWithin conservationTol edges tree

/-! ### Loop corrections -/

def hcTol : K := 1e-6

def hcMaxIter : ℕ := 100

/-- The head loss around a loop, and its slope: imposers have none. -/
def loopHead (hyd : Hydraulics K) (edges : List (Edge K)) (flows : Flows K)
    (loop : List (ℕ × ℤ)) : K × K :=
  loop.foldl (fun acc p =>
    match edges[p.1]? with
    | some edge =>
        if edge.kind.isUnknown then
          let dpk := edgeDpAndK hyd edge (p.2 * flows p.1)
          (acc.1 + dpk.1, acc.2 + dpk.2)
        else acc
    | none => acc) (0, 0)

/-- Every unknown flow of the loop changes by `dq`. -/
def correctLoop (edges : List (Edge K)) (flows : Flows K) (dq : K) (loop : List (ℕ × ℤ)) :
    Flows K :=
  loop.foldl (fun flows p =>
    if isUnknownAt edges p.1 then Function.update flows p.1 (flows p.1 + p.2 * dq) else flows) flows

/-- A state of the run: before a correction, or at the end of an iteration. -/
structure Iterate (K : Type) where
  iteration : ℕ
  pending : List (List (ℕ × ℤ))
  maxDq : K
  flows : Flows K

/-- The solved edges. -/
def withFlows (edges : List (Edge K)) (flows : Flows K) : List (Edge K) :=
  edges.mapIdx fun i edge => { edge with flow := flows i }

def hardyCrossStep (hyd : Hydraulics K) (edges : List (Edge K)) (loops : List (List (ℕ × ℤ)))
    (s : Iterate K) : Except (HardyCrossError K) (List (Edge K)) ⊕ Iterate K :=
  match s.pending with
  | loop :: rest =>
      let head := loopHead hyd edges s.flows loop
      if head.2 = 0 then .inl (.error (.outOfDomain "all_imposer_loop"))
      else
        let dq := -head.1 / head.2
        .inr { s with
          pending := rest
          maxDq := Arith.maxOf s.maxDq (Arith.abs dq)
          flows := correctLoop edges s.flows dq loop }
  | [] =>
      if s.maxDq < hcTol then .inl (.ok (withFlows edges s.flows))
      else if s.iteration ≥ hcMaxIter then .inl (.error (.noConvergence hcMaxIter s.maxDq))
      else .inr { s with iteration := s.iteration + 1, pending := loops, maxDq := 0 }

/-- What the corrections start from. -/
structure Seeded (K : Type) where
  edges : List (Edge K)
  loops : List (List (ℕ × ℤ))
  flows : Flows K

def Seeded.start (p : Seeded K) : Iterate K :=
  { iteration := 1, pending := p.loops, maxDq := 0, flows := p.flows }

def EdgeError.toHardyCross : EdgeError → HardyCrossError K
  | .unsupported _ feature => .outOfDomain feature
  | .raised e => .raised e

/-- The part of `_hardy_cross_solve` before the iterations. -/
def prepare (py : PyText K) (payload : FlownetPayload K) :
    Except (HardyCrossError K) (Seeded K) := do
  let edges ← (payload.edges.mapM (Edge.ofPayload py)).mapError EdgeError.toHardyCross
  let tree ← spanningTree payload.nodes edges
  let flows ← seedContinuityRespectingFlows edges tree
  pure ⟨edges, buildCycleBasis edges tree, flows⟩

/-- `_hardy_cross_solve` returns `r`. -/
def HardyCrossSolve (py : PyText K) (hyd : Hydraulics K) (payload : FlownetPayload K)
    (r : Except (HardyCrossError K) (List (Edge K))) : Prop :=
  match prepare py payload with
  | .error e => r = .error e
  | .ok p => Loop.Returns (hardyCrossStep hyd p.edges p.loops) p.start r

/-! ### The solve with its partial operations -/

namespace Checked

/-- `x / y`. -/
def divide (x y : K) : Except (HardyCrossError K) K :=
  if y = 0 then .error (.raised .zeroDivisionError) else .ok (x / y)

/-- `x ** 2`. -/
def square (x : K) : Except (HardyCrossError K) K :=
  if Arith.isFinite x ∧ ¬ Arith.isFinite (Arith.square x) then .error (.raised .overflowError)
  else .ok (Arith.square x)

/-- `edges[i]`. -/
def edgeAt (edges : List (Edge K)) (i : ℕ) : Except (HardyCrossError K) (Edge K) :=
  match edges[i]? with
  | some edge => .ok edge
  | none => .error (.raised .indexError)

/-- `table[n]`, for a table of the nodes. -/
def nodeKey (nodes : List String) (n : String) : Except (HardyCrossError K) Unit :=
  if n ∈ nodes then .ok () else .error (.raised (.keyError n))

section HeadLoss

variable (hyd : Hydraulics K)

def circleArea (diameter : K) : Except (HardyCrossError K) K := do
  pure (hyd.pi * (← square (diameter / 2.0)))

def pipeDpMag (edge : Edge K) (m : K) : Except (HardyCrossError K) K :=
  if m ≤ 0 then pure 0
  else do
    let area ← circleArea hyd edge.diameter
    let speed ← if 0 < area then divide m area else pure 0
    let reynolds := reynoldsNumber edge.density speed edge.diameter edge.viscosity
    let f ←
      if reynolds < 2300.0 then pure (laminarFrictionFactor (Arith.maxOf reynolds 1.0))
      else do
        let relRough ← if edge.diameter ≠ 0 then divide edge.roughness edge.diameter else pure 0
        pure (hyd.colebrookFrictionFactor reynolds relRough)
    pure (darcyDp f edge.length edge.diameter edge.density speed)

def pipeDpAndK (edge : Edge K) (flow : K) : Except (HardyCrossError K) (K × K) := do
  let m := Arith.abs flow
  let dpMag ← pipeDpMag hyd edge m
  let k ←
    if m = 0 then pure 0
    else do
      let h := Arith.maxOf (m * 1e-6) 1e-12
      divide ((← pipeDpMag hyd edge (m + h)) - dpMag) h
  pure (signed dpMag flow, k)

def orificeDpAndK (edge : Edge K) (flow : K) : Except (HardyCrossError K) (K × K) := do
  let area ← circleArea hyd edge.boreDiameter
  let m := Arith.abs flow
  let coeff ←
    if 0 < area then do divide edge.density (2.0 * (← square (edge.cd * area)))
    else pure 0
  pure (signed (orificeDp edge.cd area edge.density m) flow, 2.0 * coeff * m)

def hxSegmentDpAndK (edge : Edge K) (flow : K) : Except (HardyCrossError K) (K × K) := do
  let area ← circleArea hyd edge.diameter
  let m := Arith.abs flow
  let velocity ← if 0 < area then divide m area else pure 0
  let coeff ←
    if 0 < area then divide (edge.resistance * edge.density) (2.0 * area * area) else pure 0
  pure (signed (minorLossDp edge.resistance edge.density velocity) flow, 2.0 * coeff * m)

def edgeDpAndK (edge : Edge K) (flow : K) : Except (HardyCrossError K) (K × K) :=
  match edge.kind with
  | .pipe => pipeDpAndK hyd edge flow
  | .orifice => orificeDpAndK hyd edge flow
  | .hxSegment => hxSegmentDpAndK hyd edge flow
  | .imposer => pure (0, 0)

end HeadLoss

/-- The queue's loop; `adjacency` is a table of the nodes. -/
def bfs (nodes : List String) (ends : List (String × String)) (root : String) :
    ℕ → BfsState → Except (HardyCrossError K) BfsState
  | _, (found, []) => .ok (found, [])
  | 0, (_, _ :: _) => .error .unfinished
  | k + 1, (found, node :: queue) => do
      nodeKey nodes node
      bfs nodes ends root k ((adjacency ends node).foldl (visit root node) (found, queue))

def spanningTree (nodes : List String) (edges : List (Edge K)) :
    Except (HardyCrossError K) SpanningTree := do
  edges.forM fun e => do
    nodeKey nodes e.a
    nodeKey nodes e.b
  match nodes with
  | [] => throw (.raised .indexError)
  | root :: _ =>
      let s ← bfs nodes (ends edges) root nodes.length ([], [root])
      if (Flow.order root s.1).length ≠ nodes.length then
        throw (.outOfDomain "disconnected_network")
      pure ⟨root, s.1⟩

/-- `_path_to_root`; `parent_node` is a table of the nodes found. -/
def pathToRoot (edges : List (Edge K)) (found : List (Flow.Found String)) :
    ℕ → String → Except (HardyCrossError K) (List (ℕ × ℤ))
  | k, n =>
      match found.find? fun g => g.node = n with
      | none => pure []
      | some g =>
          match k with
          | 0 => throw .unfinished
          | k + 1 => do
              let e ← edgeAt edges g.edge
              let path ← pathToRoot edges found k g.parent
              pure ((g.edge, if e.b = n then 1 else -1) :: path)

def buildCycleBasis (nodes : List String) (edges : List (Edge K)) (tree : SpanningTree) :
    Except (HardyCrossError K) (List (List (ℕ × ℤ))) := do
  let depthPath ← nodes.mapM fun n => do
    pure (n, ← pathToRoot edges tree.found tree.found.length n)
  let pathOf (n : String) : Except (HardyCrossError K) (List (ℕ × ℤ)) :=
    match depthPath.find? fun p => p.1 = n with
    | some p => .ok p.2
    | none => .error (.raised (.keyError n))
  (edges.zipIdx.filter fun e => e.2 ∉ tree.treeEdges).mapM fun e => do
    let aPath ← pathOf e.1.a
    let bPath ← pathOf e.1.b
    pure (Flow.fundamentalLoop e.2 aPath bPath)

def incidentAt (nodes : List String) (edges : List (Edge K)) (n : String) :
    Except (HardyCrossError K) (List (ℕ × ℤ)) := do
  nodeKey nodes n
  pure (Flow.incident (ends edges) n)

/-- `sum(sign * edges[idx].flow for idx, sign in chain)`. -/
def flowAlong (edges : List (Edge K)) (flows : Flows K) (chain : List (ℕ × ℤ)) :
    Except (HardyCrossError K) K := do
  chain.forM fun p => do
    let _ ← edgeAt edges p.1
    pure ()
  pure (Flownet.flowAlong flows chain)

/-- `parent_edge` is a table of the nodes found. -/
def seedNode (nodes : List String) (edges : List (Edge K)) (tree : SpanningTree) (flows : Flows K)
    (node : String) : Except (HardyCrossError K) (Flows K) :=
  if node = tree.root then .ok flows
  else
    match tree.found.find? fun g => g.node = node with
    | none => .error (.raised (.keyError node))
    | some g => do
        let parent ← edgeAt edges g.edge
        let incident ← incidentAt nodes edges node
        if incident.length = 1 then
          pure (if parent.kind.isUnknown then Function.update flows g.edge 0 else flows)
        else
          let balance ← flowAlong edges flows (incident.filter fun p => p.1 ≠ g.edge)
          let signHere : ℤ := if parent.a = node then -1 else 1
          let required := -balance * signHere
          if parent.kind.isUnknown then pure (Function.update flows g.edge required)
          else if Arith.abs (required - flows g.edge) > conservationTol then
            throw (.outOfDomain "overconstrained_demand")
          else pure flows

def seedContinuityRespectingFlows (nodes : List String) (edges : List (Edge K))
    (tree : SpanningTree) : Except (HardyCrossError K) (Flows K) := do
  edges.forM fun e => do
    nodeKey nodes e.a
    nodeKey nodes e.b
  let order := Flow.order tree.root tree.found
  let flows ← order.reverse.foldlM (seedNode nodes edges tree) (chordSeeds edges tree)
  let incident ← incidentAt nodes edges tree.root
  if incident.length > 1 then
    let rootBalance ← flowAlong edges flows incident
    if Arith.abs rootBalance > conservationTol then throw (.outOfDomain "unbalanced_demand")
  pure flows

def loopHead (hyd : Hydraulics K) (edges : List (Edge K)) (flows : Flows K)
    (loop : List (ℕ × ℤ)) : Except (HardyCrossError K) (K × K) :=
  loop.foldlM (fun acc p => do
    let edge ← edgeAt edges p.1
    if edge.kind.isUnknown then
      let dpk ← edgeDpAndK hyd edge (p.2 * flows p.1)
      pure (acc.1 + dpk.1, acc.2 + dpk.2)
    else pure acc) (0, 0)

def correctLoop (edges : List (Edge K)) (flows : Flows K) (dq : K) (loop : List (ℕ × ℤ)) :
    Except (HardyCrossError K) (Flows K) :=
  loop.foldlM (fun flows p => do
    let edge ← edgeAt edges p.1
    pure (if edge.kind.isUnknown then Function.update flows p.1 (flows p.1 + p.2 * dq)
      else flows)) flows

/-- One loop of an iteration. -/
def correct (hyd : Hydraulics K) (edges : List (Edge K)) (s : Iterate K) (loop : List (ℕ × ℤ))
    (rest : List (List (ℕ × ℤ))) : Except (HardyCrossError K) (Iterate K) := do
  let head ← loopHead hyd edges s.flows loop
  if head.2 = 0 then throw (.outOfDomain "all_imposer_loop")
  else
    let dq ← divide (-head.1) head.2
    let flows ← correctLoop edges s.flows dq loop
    pure { s with pending := rest, maxDq := Arith.maxOf s.maxDq (Arith.abs dq), flows := flows }

def hardyCrossStep (hyd : Hydraulics K) (edges : List (Edge K)) (loops : List (List (ℕ × ℤ)))
    (s : Iterate K) : Except (HardyCrossError K) (List (Edge K)) ⊕ Iterate K :=
  match s.pending with
  | loop :: rest =>
      match correct hyd edges s loop rest with
      | .error e => .inl (.error e)
      | .ok s' => .inr s'
  | [] =>
      if s.maxDq < hcTol then .inl (.ok (withFlows edges s.flows))
      else if s.iteration ≥ hcMaxIter then .inl (.error (.noConvergence hcMaxIter s.maxDq))
      else .inr { s with iteration := s.iteration + 1, pending := loops, maxDq := 0 }

def prepare (py : PyText K) (payload : FlownetPayload K) :
    Except (HardyCrossError K) (Seeded K) := do
  let edges ← (payload.edges.mapM (Edge.ofPayload py)).mapError EdgeError.toHardyCross
  let tree ← spanningTree payload.nodes edges
  let loops ← buildCycleBasis payload.nodes edges tree
  let flows ← seedContinuityRespectingFlows payload.nodes edges tree
  pure ⟨edges, loops, flows⟩

/-- `_hardy_cross_solve` returns `r`, or raises it. -/
def HardyCrossSolve (py : PyText K) (hyd : Hydraulics K) (payload : FlownetPayload K)
    (r : Except (HardyCrossError K) (List (Edge K))) : Prop :=
  match prepare py payload with
  | .error e => r = .error e
  | .ok p => Loop.Returns (hardyCrossStep hyd p.edges p.loops) p.start r

end Checked

/-! ### The solved network -/

/-- The `SolveError`s of `solve_flownet_bytes`. -/
inductive FlownetError (K : Type)
  | parseFailed (context : String)
  | outOfDomain (feature : String)
  | noConvergence (iterations : ℕ) (residual : K)
  deriving DecidableEq

/-- Why a call gives no `Result`. -/
inductive Fault
  | raised (e : PayloadError)
  | unfinished
  deriving DecidableEq

/-- The `Result`, if there is one. -/
def report {α : Type} :
    Except (HardyCrossError K) α → Except Fault (Except (FlownetError K) α)
  | .ok x => .ok (.ok x)
  | .error (.outOfDomain feature) => .ok (.error (.outOfDomain feature))
  | .error (.noConvergence iterations residual) => .ok (.error (.noConvergence iterations residual))
  | .error (.raised e) => .error (.raised e)
  | .error .unfinished => .error .unfinished

/-- `SolvedNetwork`: every end of an edge is a node of the payload, as the
table `incidence` has only these. -/
structure SolvedNetwork (K : Type) where
  payload : FlownetPayload K
  edges : List (Edge K)
  listed : ∀ e ∈ edges, e.a ∈ payload.nodes ∧ e.b ∈ payload.nodes

/-- `SolvedNetwork.__init__`. -/
def SolvedNetwork.init (payload : FlownetPayload K) (edges : List (Edge K)) :
    Except (HardyCrossError K) (SolvedNetwork K) :=
  if h : ∀ e ∈ edges, e.a ∈ payload.nodes ∧ e.b ∈ payload.nodes then .ok ⟨payload, edges, h⟩
  else
    -- the first end that is no node
    let missing := (edges.flatMap fun e => [e.a, e.b]).find? fun n => n ∉ payload.nodes
    .error (.raised (.keyError (missing.getD "")))

/-- `solve_flownet_bytes` returns `r`, or fails with it; `validate` is
`_FlownetPayload.model_validate_json`. -/
def SolveFlownetBytes (validate : List UInt8 → Except String (FlownetPayload K)) (py : PyText K)
    (hyd : Hydraulics K) (data : List UInt8)
    (r : Except Fault (Except (FlownetError K) (SolvedNetwork K))) : Prop :=
  match validate data with
  | .error exc => r = .ok (.error (.parseFailed ("flownet payload: " ++ exc)))
  | .ok payload => ∃ solved, Checked.HardyCrossSolve py hyd payload solved ∧
      r = report (solved.bind (SolvedNetwork.init payload))

/-! ### Exact arithmetic -/

section Exact

variable {K : Type} [Field K] [LinearOrder K]

theorem flowAlong_eq (flows : Flows K) (chain : List (ℕ × ℤ)) :
    flowAlong flows chain = Flow.along chain flows := by
  rw [flowAlong, Arith.compensatedSum_eq]
  rfl

end Exact

end Flownet

end Feldspar

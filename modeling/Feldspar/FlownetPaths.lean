/-
Feldspar/FlownetPaths.lean

Pressure-drop queries on a solved network (`find_path_edges`, `edge_dp`).

A query walks along the route that a breadth-first search from its first node
finds: a shortest one, and of these the first in the order of the edges
(`findPathEdges_spec`).  The route back may be another one.  Where the two meet
only at their ends they are a loop of the network, and the two drops are
opposite exactly if every such loop closes (`findPathEdges_opposite_iff`): its
signed drops sum to zero, as they do if the drops are differences of heads.
-/
import Feldspar.FlownetRooting
import Feldspar.FlownetTotality

set_option linter.unusedSectionVars false

namespace Feldspar

namespace Flownet

variable {K : Type} [Field K] [LinearOrder K]

/-! ### The query -/

section Query

variable (hyd : Hydraulics K)

def edgeDp (edge : Edge K) : K :=
  if edge.kind.isUnknown then (edgeDpAndK hyd edge edge.flow).1 else 0

/-- An edge with the sense in which it is traversed; `index` stands for the
identity of the edge. -/
structure Leg (K : Type) where
  index : ℕ
  edge : Edge K
  sign : ℤ

def Leg.entry (leg : Leg K) : Edge K × ℤ := (leg.edge, leg.sign)

/-- `adjacency[n]`, from the edge `k` on. -/
def legsFrom (n : String) : List (Edge K) → ℕ → List (String × Leg K)
  | [], _ => []
  | e :: edges, k =>
      ((if e.a = n then [(e.b, ⟨k, e, 1⟩)] else []) ++
        if e.b = n then [(e.a, ⟨k, e, -1⟩)] else []) ++ legsFrom n edges (k + 1)

def legs (edges : List (Edge K)) (n : String) : List (String × Leg K) := legsFrom n edges 0

/-- `find_path_edges`; `incidence` has the nodes of the payload. -/
def findPathEdges (solved : SolvedNetwork K) (nodeA nodeB : String) :
    Except (FlownetError K) (List (Edge K × ℤ)) :=
  if nodeA ∉ solved.payload.nodes ∨ nodeB ∉ solved.payload.nodes then
    .error (.outOfDomain "unknown_node")
  else if nodeA = nodeB then .ok []
  else
    let found := (Bfs.search (legs solved.edges) nodeA (fun n => n = nodeB)
      solved.payload.nodes.length (Bfs.start nodeA)).1
    if nodeB ∉ Bfs.seen nodeA found then .error (.outOfDomain "disconnected_query_path")
    else
      let path := (Bfs.climb nodeA found found.length nodeB).map fun g => g.label.entry
      .ok path.reverse

/-- `sum(sign * edge_dp(edge) for edge, sign in path)`. -/
def pathDp (path : List (Edge K × ℤ)) : K := (path.map fun p => p.2 * edgeDp hyd p.1).sum

end Query

/-! ### Routes -/

/-- The leg leads from `u` to `v`, in the sense of its sign. -/
def Leg.Leads (edges : List (Edge K)) (leg : Leg K) (u v : String) : Prop :=
  edges[leg.index]? = some leg.edge ∧
    ((leg.sign = 1 ∧ leg.edge.a = u ∧ leg.edge.b = v) ∨
      (leg.sign = -1 ∧ leg.edge.b = u ∧ leg.edge.a = v))

/-- A walk from `u` to `v`. -/
inductive Route (edges : List (Edge K)) : String → List (Leg K) → String → Prop
  | nil {u} : Route edges u [] u
  | cons {u v x leg w} : leg.Leads edges u v → Route edges v w x → Route edges u (leg :: w) x

/-- The indices along a walk. -/
def indices (w : List (Leg K)) : List ℕ := w.map Leg.index

/-- A shortest walk, and of these the first in the order of the edges. -/
structure FirstRoute (edges : List (Edge K)) (u : String) (w : List (Leg K)) (v : String) :
    Prop where
  route : Route edges u w v
  first : ∀ w', Route edges u w' v → Bfs.ShortLe (indices w) (indices w')

section Routes

variable {edges : List (Edge K)} {u v x : String} {w w' w₁ w₂ : List (Leg K)} {leg : Leg K}

theorem Route.append (h : Route edges u w v) (h' : Route edges v w' x) :
    Route edges u (w ++ w') x := by
  induction h with
  | nil => exact h'
  | cons hleads _ ih => exact Route.cons hleads (ih h')

/-- The leg back. -/
def Leg.back (leg : Leg K) : Leg K := { leg with sign := -leg.sign }

theorem Leg.Leads.back (h : leg.Leads edges u v) : leg.back.Leads edges v u := by
  obtain ⟨hedge, hends⟩ := h
  refine ⟨hedge, ?_⟩
  rcases hends with ⟨hsign, ha, hb⟩ | ⟨hsign, hb, ha⟩
  · exact Or.inr ⟨congrArg Neg.neg hsign, hb, ha⟩
  · exact Or.inl ⟨by rw [Leg.back, hsign, neg_neg], ha, hb⟩

theorem Route.reverse (h : Route edges u w v) : Route edges v (w.map Leg.back).reverse u := by
  induction h with
  | nil => exact Route.nil
  | cons hleads _ ih =>
      rw [List.map_cons, List.reverse_cons]
      exact ih.append (Route.cons hleads.back Route.nil)

theorem mem_legsFrom {n : String} {p : String × Leg K} : ∀ {edges : List (Edge K)} {k : ℕ},
    p ∈ legsFrom n edges k ↔ ∃ i, p.2.index = k + i ∧ edges[i]? = some p.2.edge ∧
      ((p.2.sign = 1 ∧ p.2.edge.a = n ∧ p.2.edge.b = p.1) ∨
        (p.2.sign = -1 ∧ p.2.edge.b = n ∧ p.2.edge.a = p.1))
  | [], k => by
      refine iff_of_false List.not_mem_nil ?_
      rintro ⟨i, -, h, -⟩
      cases h
  | e :: edges, k => by
      rw [legsFrom, List.mem_append, List.mem_append, mem_legsFrom]
      constructor
      · rintro ((h | h) | ⟨i, hi, hedge, hends⟩)
        · split_ifs at h with ha
          · obtain rfl := List.mem_singleton.mp h
            exact ⟨0, rfl, rfl, Or.inl ⟨rfl, ha, rfl⟩⟩
          · cases h
        · split_ifs at h with hb
          · obtain rfl := List.mem_singleton.mp h
            exact ⟨0, rfl, rfl, Or.inr ⟨rfl, hb, rfl⟩⟩
          · cases h
        · exact ⟨i + 1, by omega, hedge, hends⟩
      · rintro ⟨_ | i, hi, hedge, hends⟩
        · left
          obtain ⟨v, index, edge, sign⟩ := p
          obtain rfl : index = k := hi
          obtain rfl := Option.some.inj hedge
          rcases hends with ⟨hsign, ha, hb⟩ | ⟨hsign, hb, ha⟩
          · left
            obtain rfl : sign = 1 := hsign
            rw [if_pos ha]
            exact List.mem_singleton.mpr (Prod.ext hb.symm rfl)
          · right
            obtain rfl : sign = -1 := hsign
            rw [if_pos hb]
            exact List.mem_singleton.mpr (Prod.ext ha.symm rfl)
        · exact Or.inr ⟨i, by omega, hedge, hends⟩

theorem mem_legs {n : String} {p : String × Leg K} :
    p ∈ legs edges n ↔ p.2.Leads edges n p.1 := by
  rw [legs, mem_legsFrom]
  constructor
  · rintro ⟨i, hi, hedge, hends⟩
    rw [Nat.zero_add] at hi
    exact ⟨hi ▸ hedge, hends⟩
  · rintro ⟨hedge, hends⟩
    exact ⟨p.2.index, (Nat.zero_add _).symm, hedge, hends⟩

theorem map_legsFrom (n : String) : ∀ (edges : List (Edge K)) (k : ℕ),
    (legsFrom n edges k).map (fun p => (p.1, p.2.index)) = adjacencyFrom n (ends edges) k
  | [], _ => rfl
  | e :: edges, k => by
      show _ = adjacencyFrom n ((e.a, e.b) :: ends edges) k
      rw [legsFrom, List.map_append, List.map_append, map_legsFrom n edges, adjacencyFrom]
      congr 1
      congr 1 <;> split_ifs <;> rfl

/-- The legs are listed by increasing indices. -/
theorem legs_ordered (edges : List (Edge K)) : Bfs.Ordered (legs edges) Leg.index := by
  intro n
  have h := adjacency_ordered (ends edges) n
  rw [adjacency, ← map_legsFrom, List.pairwise_map] at h
  exact h

/-! ### The walks of the search -/

theorem route_of_walk {root : String} {l : List (Bfs.Link String (Leg K))}
    (h : Bfs.Walk (legs edges) root l v) : Route edges root (l.map Bfs.Link.label) v := by
  induction h with
  | nil => exact Route.nil
  | snoc _ hp ih =>
      rw [List.map_append]
      exact ih.append (Route.cons (mem_legs.mp hp) Route.nil)

theorem walk_of_route (h : Route edges u w v) : ∀ {root : String}
    {l : List (Bfs.Link String (Leg K))}, Bfs.Walk (legs edges) root l u →
      ∃ l', Bfs.Walk (legs edges) root l' v ∧ l'.map Bfs.Link.label = l.map Bfs.Link.label ++ w := by
  induction h with
  | nil => exact fun {root l} hl => ⟨l, hl, (List.append_nil _).symm⟩
  | @cons u v x leg w hleads _ ih =>
      intro root l hl
      have hleg : (v, leg) ∈ legs edges u := mem_legs.mpr hleads
      obtain ⟨l', hl', hlabels⟩ := ih (hl.snoc hleg)
      refine ⟨l', hl', ?_⟩
      rw [hlabels, List.map_append, List.append_assoc]
      rfl

theorem keys_label (l : List (Bfs.Link String (Leg K))) :
    Bfs.keys Leg.index l = indices (l.map Bfs.Link.label) := by
  rw [Bfs.keys, indices, List.map_map]
  rfl

end Routes

/-! ### First routes -/

section First

variable {edges : List (Edge K)} {u v x : String} {w w' w₁ w₂ : List (Leg K)}

theorem indices_append (w w' : List (Leg K)) : indices (w ++ w') = indices w ++ indices w' :=
  List.map_append

theorem FirstRoute.length_le (h : FirstRoute edges u w v) (h' : Route edges u w' v) :
    w.length ≤ w'.length := by
  have hle := (h.first w' h').length_le
  rwa [indices, indices, List.length_map, List.length_map] at hle

theorem FirstRoute.nil (edges : List (Edge K)) (u : String) : FirstRoute edges u [] u where
  route := Route.nil
  first := fun w' _ => by
    rcases w' with _ | ⟨leg, w'⟩
    · exact Or.inl rfl
    · refine Or.inr (List.Shortlex.of_length_lt ?_)
      exact Nat.succ_pos _

/-- The way back of a first route has its length. -/
theorem FirstRoute.length_eq (h : FirstRoute edges u w v) (h' : FirstRoute edges v w' u) :
    w.length = w'.length := by
  have hle := h.length_le h'.route.reverse
  have hle' := h'.length_le h.route.reverse
  rw [List.length_reverse, List.length_map] at hle hle'
  exact le_antisymm hle hle'

/-- The two parts of a first route are first. -/
theorem FirstRoute.left (h : FirstRoute edges u (w₁ ++ w₂) v) (h₁ : Route edges u w₁ x)
    (h₂ : Route edges x w₂ v) : FirstRoute edges u w₁ x where
  route := h₁
  first := fun w' h' => by
    have hle := h.first _ (h'.append h₂)
    rw [indices_append, indices_append] at hle
    exact hle.of_append_right

theorem FirstRoute.right (h : FirstRoute edges u (w₁ ++ w₂) v) (h₁ : Route edges u w₁ x)
    (h₂ : Route edges x w₂ v) : FirstRoute edges x w₂ v where
  route := h₂
  first := fun w' h' => by
    have hle := h.first _ (h₁.append h')
    rw [indices_append, indices_append] at hle
    exact hle.of_append_left

theorem FirstRoute.tail {leg : Leg K} (h : FirstRoute edges u (leg :: w) x)
    (hleads : leg.Leads edges u v) (hw : Route edges v w x) : FirstRoute edges v w x := by
  rw [← List.singleton_append] at h
  exact h.right (Route.cons hleads Route.nil) hw

/-- A first route does not stay at a node. -/
theorem FirstRoute.ne_of_cons {leg : Leg K} (h : FirstRoute edges u (leg :: w) x)
    (hleads : leg.Leads edges u v) (hw : Route edges v w x) : u ≠ v := by
  rintro rfl
  have hle := h.length_le hw
  rw [List.length_cons] at hle
  omega

theorem Leg.Leads.unique {leg leg' : Leg K} {v' : String} (h : leg.Leads edges u v)
    (h' : leg'.Leads edges u v') (hindex : leg.index = leg'.index) (hne : u ≠ v) :
    leg = leg' ∧ v = v' := by
  obtain ⟨index, edge, sign⟩ := leg
  obtain ⟨index', edge', sign'⟩ := leg'
  obtain rfl : index = index' := hindex
  obtain ⟨hedge, hends⟩ := h
  obtain ⟨hedge', hends'⟩ := h'
  obtain rfl : edge = edge' := Option.some.inj (hedge.symm.trans hedge')
  -- an edge between two nodes leads away from `u` in one sense
  rcases hends with ⟨hsign, ha, hb⟩ | ⟨hsign, hb, ha⟩ <;>
    rcases hends' with ⟨hsign', ha', hb'⟩ | ⟨hsign', hb', ha'⟩
  · exact ⟨congrArg _ (hsign.trans hsign'.symm), hb.symm.trans hb'⟩
  · exact absurd (hb'.symm.trans hb) hne
  · exact absurd (ha'.symm.trans ha) hne
  · exact ⟨congrArg _ (hsign.trans hsign'.symm), ha.symm.trans ha'⟩

/-- There is one first route. -/
theorem FirstRoute.unique (h : FirstRoute edges u w v) (h' : FirstRoute edges u w' v) : w = w' := by
  have hindices : indices w = indices w' := (h.first _ h'.route).antisymm (h'.first _ h.route)
  obtain ⟨hroute, hfirst⟩ := h
  induction hroute generalizing w' with
  | nil =>
      rw [indices, indices, List.map_nil, eq_comm, List.map_eq_nil_iff] at hindices
      exact hindices.symm
  | @cons u v x leg w hleads hw ih =>
      obtain ⟨hroute', hfirst'⟩ := h'
      cases hroute' with
      | nil => cases hindices
      | @cons _ v' _ leg' w' hleads' hw' =>
          obtain ⟨hindex, hrest⟩ := List.cons.inj hindices
          have hne := FirstRoute.ne_of_cons ⟨Route.cons hleads hw, hfirst⟩ hleads hw
          obtain ⟨rfl, rfl⟩ := Leg.Leads.unique hleads hleads' hindex hne
          have hfirst₁ := FirstRoute.tail ⟨Route.cons hleads hw, hfirst⟩ hleads hw
          have hfirst₂ := FirstRoute.tail ⟨Route.cons hleads hw', hfirst'⟩ hleads hw'
          rw [ih hfirst₂ hrest hfirst₁.first]

end First

/-! ### The routes of a query -/

section Search

variable {solved : SolvedNetwork K} {nodeA nodeB : String}

theorem mem_of_leads (solved : SolvedNetwork K) : ∀ u ∈ solved.payload.nodes,
    ∀ p ∈ legs solved.edges u, p.1 ∈ solved.payload.nodes := by
  intro u _ p hp
  obtain ⟨hedge, hends⟩ := mem_legs.mp hp
  obtain ⟨ha, hb⟩ := solved.listed _ (List.mem_of_getElem? hedge)
  rcases hends with ⟨-, -, hto⟩ | ⟨-, -, hto⟩
  · exact hto ▸ hb
  · exact hto ▸ ha

/-- **A query follows the first route.** -/
theorem findPathEdges_spec (hA : nodeA ∈ solved.payload.nodes) (hB : nodeB ∈ solved.payload.nodes)
    (hjoined : ∃ w, Route solved.edges nodeA w nodeB) : ∃ w,
      findPathEdges solved nodeA nodeB = .ok (w.map Leg.entry) ∧
        FirstRoute solved.edges nodeA w nodeB := by
  unfold findPathEdges
  rw [if_neg fun h => h.elim (fun h => h hA) fun h => h hB]
  by_cases hsame : nodeA = nodeB
  · rw [if_pos hsame, ← hsame]
    exact ⟨[], rfl, FirstRoute.nil _ _⟩
  · rw [if_neg hsame]
    obtain ⟨w, hw⟩ := hjoined
    obtain ⟨l, hl, -⟩ := walk_of_route hw Bfs.Walk.nil
    obtain ⟨looked, hexamined, hseen, hfirst⟩ := Bfs.search_route (legs_ordered solved.edges) hA
      (mem_of_leads solved) ⟨l, hl⟩
    set found := (Bfs.search (legs solved.edges) nodeA (fun n => n = nodeB)
      solved.payload.nodes.length (Bfs.start nodeA)).1 with hfound
    refine ⟨(Bfs.route found nodeB).map Bfs.Link.label, ?_, ?_, ?_⟩
    · rw [if_neg (not_not.mpr hseen)]
      simp only
      rw [hexamined.climb _ hseen (Bfs.length_route_le found nodeB), List.map_reverse,
        List.reverse_reverse, List.map_map]
      rfl
    · exact route_of_walk (hexamined.walks nodeB hseen)
    · intro w' hw'
      obtain ⟨l', hl', hlabels⟩ := walk_of_route hw' Bfs.Walk.nil
      have hle := hfirst l' hl'
      rw [keys_label, keys_label, hlabels] at hle
      exact hle

end Search


/-! ### Loops -/

/-- A shortest walk. -/
structure ShortestRoute (edges : List (Edge K)) (u : String) (w : List (Leg K)) (v : String) :
    Prop where
  route : Route edges u w v
  least : ∀ w', Route edges u w' v → w.length ≤ w'.length

/-- The queries both ways: shortest walks, of one length, with opposite drops. -/
def QueriesOpposite (hyd : Hydraulics K) (solved : SolvedNetwork K) (nodeA nodeB : String) : Prop :=
  ∃ w w', findPathEdges solved nodeA nodeB = .ok (w.map Leg.entry) ∧
    findPathEdges solved nodeB nodeA = .ok (w'.map Leg.entry) ∧
    ShortestRoute solved.edges nodeA w nodeB ∧ ShortestRoute solved.edges nodeB w' nodeA ∧
    w.length = w'.length ∧ pathDp hyd (w.map Leg.entry) = -pathDp hyd (w'.map Leg.entry)

/-- The walk from `u` to `v` goes through `x`. -/
def Through (edges : List (Edge K)) (u : String) (w : List (Leg K)) (v x : String) : Prop :=
  ∃ w₁ w₂, w = w₁ ++ w₂ ∧ Route edges u w₁ x ∧ Route edges x w₂ v

/-- A loop made of the first routes between two opposite nodes, which meet only
there. -/
structure FirstLoop (edges : List (Edge K)) (u : String) (w : List (Leg K)) (v : String)
    (w' : List (Leg K)) : Prop where
  out : FirstRoute edges u w v
  back : FirstRoute edges v w' u
  simple : ∀ x, Through edges u w v x → Through edges v w' u x → x = u ∨ x = v

/-- The drops around these loops sum to zero. -/
def LoopsClose (hyd : Hydraulics K) (edges : List (Edge K)) : Prop :=
  ∀ u w v w', FirstLoop edges u w v w' →
    pathDp hyd (w.map Leg.entry) + pathDp hyd (w'.map Leg.entry) = 0

section Loops

variable {hyd : Hydraulics K} {edges : List (Edge K)} {u v x : String} {w w' : List (Leg K)}

theorem FirstRoute.shortest (h : FirstRoute edges u w v) : ShortestRoute edges u w v :=
  ⟨h.route, fun _ h' => h.length_le h'⟩

theorem pathDp_append (p q : List (Edge K × ℤ)) :
    pathDp hyd (p ++ q) = pathDp hyd p + pathDp hyd q := by
  rw [pathDp, List.map_append, List.sum_append]
  rfl

/-- Both parts of a walk through an inner node are shorter. -/
theorem Through.shorter (h : Through edges u w v x) (hu : x ≠ u) (hv : x ≠ v) :
    ∃ w₁ w₂, w = w₁ ++ w₂ ∧ Route edges u w₁ x ∧ Route edges x w₂ v ∧
      w₁.length < w.length ∧ w₂.length < w.length := by
  obtain ⟨w₁, w₂, rfl, h₁, h₂⟩ := h
  have hpos₁ : 0 < w₁.length := by
    cases h₁ with
    | nil => exact absurd rfl hu
    | cons _ _ => exact Nat.succ_pos _
  have hpos₂ : 0 < w₂.length := by
    cases h₂ with
    | nil => exact absurd rfl hv
    | cons _ _ => exact Nat.succ_pos _
  refine ⟨w₁, w₂, rfl, h₁, h₂, ?_, ?_⟩
  · rw [List.length_append]
    omega
  · rw [List.length_append]
    omega

/-- The first routes between two nodes are loops, one after the other. -/
theorem LoopsClose.drop_add (hclose : LoopsClose hyd edges) : ∀ (n : ℕ) {u v : String}
    {w w' : List (Leg K)}, w.length = n → FirstRoute edges u w v → FirstRoute edges v w' u →
      pathDp hyd (w.map Leg.entry) + pathDp hyd (w'.map Leg.entry) = 0 := by
  intro n
  induction n using Nat.strong_induction_on with
  | _ n ih =>
      intro u v w w' hn h h'
      by_cases hsimple : ∀ x, Through edges u w v x → Through edges v w' u x → x = u ∨ x = v
      · exact hclose u w v w' ⟨h, h', hsimple⟩
      · obtain ⟨x, hinner⟩ := not_forall.mp hsimple
        obtain ⟨hout, hinner⟩ := Classical.not_imp.mp hinner
        obtain ⟨hback, hne⟩ := Classical.not_imp.mp hinner
        obtain ⟨hu, hv⟩ := not_or.mp hne
        obtain ⟨w₁, w₂, rfl, h₁, h₂, hlt₁, hlt₂⟩ := hout.shorter hu hv
        obtain ⟨w₁', w₂', rfl, h₁', h₂', -, -⟩ := hback.shorter hv hu
        have hfirst := ih _ (hn ▸ hlt₁) rfl (h.left h₁ h₂) (h'.right h₁' h₂')
        have hsecond := ih _ (hn ▸ hlt₂) rfl (h.right h₁ h₂) (h'.left h₁' h₂')
        rw [List.map_append, List.map_append, pathDp_append, pathDp_append]
        linear_combination hfirst + hsecond

/-- Drops that are differences of heads close every loop. -/
theorem loopsClose_of_heads (head : String → K)
    (h : ∀ e ∈ edges, edgeDp hyd e = head e.a - head e.b) : LoopsClose hyd edges := by
  have hroute : ∀ {u v : String} {w : List (Leg K)}, Route edges u w v →
      pathDp hyd (w.map Leg.entry) = head u - head v := by
    intro u v w hw
    induction hw with
    | nil => exact (sub_self _).symm
    | @cons u v x leg w hleads _ ih =>
        obtain ⟨hedge, hends⟩ := hleads
        show (leg.sign : K) * edgeDp hyd leg.edge + pathDp hyd (w.map Leg.entry) = _
        rw [ih, h _ (List.mem_of_getElem? hedge)]
        rcases hends with ⟨hsign, rfl, rfl⟩ | ⟨hsign, rfl, rfl⟩
        · rw [hsign]
          push_cast
          ring
        · rw [hsign]
          push_cast
          ring
  intro u w v w' hloop
  rw [hroute hloop.out.route, hroute hloop.back.route]
  ring

end Loops

/-! ### Solved networks -/

section Solved

variable {hyd : Hydraulics K} {solved : SolvedNetwork K}

theorem Route.mem_nodes {u v : String} {w : List (Leg K)} (h : Route solved.edges u w v)
    (hu : u ∈ solved.payload.nodes) : v ∈ solved.payload.nodes := by
  induction h with
  | nil => exact hu
  | @cons u v x leg w hleads _ ih =>
      have hleg : (v, leg) ∈ legs solved.edges u := mem_legs.mpr hleads
      exact ih (mem_of_leads solved u hu _ hleg)

theorem Route.start_mem_nodes {u v : String} {w : List (Leg K)} (h : Route solved.edges u w v)
    (hne : w ≠ []) : u ∈ solved.payload.nodes := by
  cases h with
  | nil => exact absurd rfl hne
  | cons hleads _ =>
      obtain ⟨hedge, hends⟩ := hleads
      obtain ⟨ha, hb⟩ := solved.listed _ (List.mem_of_getElem? hedge)
      rcases hends with ⟨-, hfrom, -⟩ | ⟨-, hfrom, -⟩
      · exact hfrom ▸ ha
      · exact hfrom ▸ hb

/-- Nodes that edges join have a route. -/
theorem route_of_grouped {edges : List (Edge K)} {u v : String}
    (h : Flow.Grouped (fun _ => True) (ends edges) u v) : ∃ w, Route edges u w v := by
  induction h with
  | refl => exact ⟨[], Route.nil⟩
  | @tail v x _ hstep ih =>
      obtain ⟨w, hw⟩ := ih
      obtain ⟨i, -, hends⟩ := hstep
      rw [getElem?_ends] at hends
      rcases hends with hends | hends <;> obtain ⟨e, he, heq⟩ := Option.map_eq_some_iff.mp hends
      · obtain ⟨ha, hb⟩ := Prod.mk.inj heq
        have hleads : Leg.Leads edges ⟨i, e, 1⟩ v x := ⟨he, Or.inl ⟨rfl, ha, hb⟩⟩
        exact ⟨_, hw.append (Route.cons hleads Route.nil)⟩
      · obtain ⟨ha, hb⟩ := Prod.mk.inj heq
        have hleads : Leg.Leads edges ⟨i, e, -1⟩ v x := ⟨he, Or.inr ⟨rfl, hb, ha⟩⟩
        exact ⟨_, hw.append (Route.cons hleads Route.nil)⟩

/-- The queries on a connected network are opposite exactly if its loops close. -/
theorem queriesOpposite_iff
    (hconnected : ∀ u ∈ solved.payload.nodes, ∀ v ∈ solved.payload.nodes,
      ∃ w, Route solved.edges u w v) :
    (∀ a ∈ solved.payload.nodes, ∀ b ∈ solved.payload.nodes, QueriesOpposite hyd solved a b) ↔
      LoopsClose hyd solved.edges := by
  constructor
  · intro hqueries u w v w' hloop
    have hlen := hloop.out.length_eq hloop.back
    by_cases hnil : w = []
    · obtain rfl : w' = [] := List.eq_nil_of_length_eq_zero (by rw [← hlen, hnil]; rfl)
      rw [hnil]
      exact add_zero _
    · have hu := hloop.out.route.start_mem_nodes hnil
      have hv := hloop.out.route.mem_nodes hu
      obtain ⟨w₁, w₂, hpath, hpath', -, -, -, hdp⟩ := hqueries u hu v hv
      obtain ⟨w₃, hpath₃, hfirst⟩ := findPathEdges_spec hu hv (hconnected u hu v hv)
      obtain ⟨w₄, hpath₄, hfirst'⟩ := findPathEdges_spec hv hu (hconnected v hv u hu)
      obtain rfl := hfirst.unique hloop.out
      obtain rfl := hfirst'.unique hloop.back
      rw [← Except.ok.inj (hpath.symm.trans hpath₃), ← Except.ok.inj (hpath'.symm.trans hpath₄), hdp]
      exact neg_add_cancel _
  · intro hclose a ha b hb
    obtain ⟨w, hpath, hfirst⟩ := findPathEdges_spec ha hb (hconnected a ha b hb)
    obtain ⟨w', hpath', hfirst'⟩ := findPathEdges_spec hb ha (hconnected b hb a ha)
    refine ⟨w, w', hpath, hpath', hfirst.shortest, hfirst'.shortest, hfirst.length_eq hfirst', ?_⟩
    exact eq_neg_of_add_eq_zero_left (hclose.drop_add _ rfl hfirst hfirst')

end Solved

section Bytes

variable [IsStrictOrderedRing K] {py : PyText K} {hyd : Hydraulics K}

/-- The network of a solve is connected. -/
theorem connected_of_solve {payload : FlownetPayload K} {edges : List (Edge K)}
    (h : HardyCrossSolve py hyd payload (.ok edges)) :
    ∀ u ∈ payload.nodes, ∀ v ∈ payload.nodes, ∃ w, Route edges u w v := by
  unfold HardyCrossSolve at h
  rcases hp : prepare py payload with e | p
  · rw [hp] at h
    cases h
  · rw [hp] at h
    obtain ⟨s, -, hlast⟩ := Loop.Returns.exists_reached h
    obtain ⟨tree, htree⟩ := (prepare_edges hp).2
    have hgrouped : ∀ v ∈ payload.nodes,
        Flow.Grouped (fun _ => True) (ends edges) tree.root v := by
      intro v hv
      rw [hardyCrossStep_ok hlast, ends_withFlows]
      have hjoined := grouped_of_grown (spanningTree_ok htree).grown v
        ((spanningTree_perm htree).mem_iff.mpr hv)
      exact Relation.ReflTransGen.mono (fun a b ⟨i, _, hends⟩ => ⟨i, trivial, hends⟩) _ _ hjoined
    exact fun u hu v hv => route_of_grouped ((hgrouped u hu).symm.trans (hgrouped v hv))

/-- What `solve_flownet_bytes` returns is a solve of the payload. -/
theorem solve_of_bytes {validate : List UInt8 → Except String (FlownetPayload K)}
    {data : List UInt8} {solved : SolvedNetwork K}
    (h : SolveFlownetBytes validate py hyd data (.ok (.ok solved))) :
    HardyCrossSolve py hyd solved.payload (.ok solved.edges) := by
  unfold SolveFlownetBytes at h
  rcases hvalidate : validate data with exc | payload
  · rw [hvalidate] at h
    cases h
  · rw [hvalidate] at h
    obtain ⟨r, hr, hreport⟩ := h
    rw [checked_solve] at hr
    rcases r with e | edges
    · cases e <;> cases hreport
    · have hlisted := solved_listed hr
      simp only [Except.bind, SolvedNetwork.init, dif_pos hlisted] at hreport
      obtain rfl := Except.ok.inj (Except.ok.inj hreport)
      exact hr

end Bytes

/-! ### Two networks -/

section Networks

/-- The bytes of a text solve to what a bounded run returns. -/
theorem solveFlownetBytes_of_within (text : String) {payload : FlownetPayload ℚ}
    {edges : List (Edge ℚ)} {k : ℕ}
    (h : solveWithin noText doublePi payload k = some (.ok edges)) :
    ∃ hlisted, SolveFlownetBytes (validateText text payload) noText doublePi text.toUTF8.toList
      (.ok (.ok ⟨payload, edges, hlisted⟩)) := by
  have hsolve := solveWithin_eq_some h
  have hlisted := solved_listed hsolve
  refine ⟨hlisted, ?_⟩
  unfold SolveFlownetBytes
  rw [validateText_eq]
  refine ⟨.ok edges, (checked_solve _).mpr hsolve, ?_⟩
  simp only [Except.bind, SolvedNetwork.init, dif_pos hlisted]
  rfl

def drainText : String :=
  "\x7b\"nodes\": [\"a\", \"b\", \"c\"], \"edges\": [" ++ segmentText "one" "a" "b" "1.0" ++ ", " ++
    imposerText "drain" "b" "c" "1.0" ++ "]\x7d"

/-- A segment, and a drain. -/
def drain : FlownetPayload ℚ :=
  { nodes := ["a", "b", "c"]
    edges := [segmentEdge "one" "a" "b" 1, imposerEdge "drain" "b" "c" 1] }

/-- The head over the drain is the drop of the first edge. -/
def drainHead (edges : List (Edge ℚ)) (n : String) : ℚ :=
  if n = "a" then ((edges.head?.map (edgeDp doublePi)).getD 0) else 0

def squareText : String :=
  "\x7b\"nodes\": [\"a\", \"b\", \"c\", \"d\"], \"edges\": [" ++ segmentText "ab" "a" "b" "1e12" ++
    ", " ++ segmentText "dc" "d" "c" "1e12" ++ ", " ++ segmentText "ad" "a" "d" "1e12" ++ ", " ++
    segmentText "bc" "b" "c" "1e12" ++ "]\x7d"

/-- Four segments in a square. -/
def square : FlownetPayload ℚ :=
  { nodes := ["a", "b", "c", "d"]
    edges := [segmentEdge "ab" "a" "b" (10 ^ 12), segmentEdge "dc" "d" "c" (10 ^ 12),
      segmentEdge "ad" "a" "d" (10 ^ 12), segmentEdge "bc" "b" "c" (10 ^ 12)] }

/-- The drops of two queries, where both are answered. -/
def queryDrops (solved : SolvedNetwork ℚ) (nodeA nodeB : String) : Option (ℚ × ℚ) := do
  let path ← (findPathEdges solved nodeA nodeB).toOption
  let back ← (findPathEdges solved nodeB nodeA).toOption
  pure (pathDp doublePi path, pathDp doublePi back)

end Networks

end Flownet

end Feldspar

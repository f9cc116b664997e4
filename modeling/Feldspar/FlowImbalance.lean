/-
Feldspar/FlowImbalance.lean

The imbalance of the flows that a role string selects
(`FluidsFlowImbalanceModel.estimate`, `pack/models.py`).

The role lists edge ids, with commas between them.  A selection is accepted if
the parts that name an edge are as many as there are different parts: an unknown
part makes one too few, but a part that is repeated makes one too many.  So what
is accepted is the set of the parts unless as many are unknown as are repeated
(`estimate_selects_iff`).
-/
import Feldspar.FlownetPaths
import Feldspar.Harness
import Mathlib.Data.List.Dedup

set_option linter.unusedSectionVars false

namespace Feldspar

namespace Flownet

variable {K : Type} [Field K] [LinearOrder K]

/-! ### The selection -/

/-- `role.split(",")` without the empty parts. -/
def candidates (role : String) : List String :=
  ((role.toList.splitOn ',').map String.ofList).filter fun part => part ≠ ""

/-- `by_id`: of edges with one id the last. -/
def SolvedNetwork.byId (network : SolvedNetwork K) (id : String) : Option (Edge K) :=
  network.edges.reverse.find? fun e => e.id = id

/-- `repr` of a string, and of a list of them. -/
structure PyRepr where
  string : String → String

def PyRepr.list (py : PyRepr) (items : List String) : String :=
  "[" ++ ", ".intercalate (items.map py.string) ++ "]"

namespace FluidsFlowImbalanceModel

def mean (flows : List K) : K := flows.sum / flows.length

/-- `(max(flows) - min(flows)) / mean_flow`. -/
def imbalance (flows : List K) : K := ((flows.max?.getD 0) - (flows.min?.getD 0)) / mean flows

/-- The flows selected, and the imbalance of them. -/
def estimateSelected (py : PyRepr) (modelId : String) (network : SolvedNetwork K)
    (selected : List String) : Except Harness.DomainError (Harness.Prediction K) :=
  let flows := selected.filterMap fun id => (network.byId id).map fun e => |e.flow|
  if mean flows ≤ 0 then
    .error
      { modelId := modelId
        message := "fluids.flow_imbalance over edges " ++ py.list selected ++
          " has zero mean flow -- imbalance fraction is undefined, not reportable as 0%" }
  else .ok { value := imbalance flows, eps := 0, coverage := 1, inDomain := true }

/-- The names that are edges, sorted. -/
def selectedOf (network : SolvedNetwork K) (names : List String) : List String :=
  (names.filter fun id => (network.byId id).isSome).mergeSort (fun a b => decide (a ≤ b))

/-- `FluidsFlowImbalanceModel.estimate`, on the network resolved; `inputs` are the
names of the request's inputs. -/
def estimate (py : PyRepr) (modelId : String) (network : SolvedNetwork K) (inputs : List String) :
    Except Harness.DomainError (Harness.Prediction K) :=
  match network.payload.claimTarget with
  | some claimTarget =>
      let role := claimTarget.role.getD ""
      let names := candidates role
      let selected := selectedOf network names
      if selected.length < 2 ∨ selected.length ≠ names.dedup.length then
        .error
          { modelId := modelId
            message := "fluids.flow_imbalance needs claim_target.role to name at least two " ++
              "matching flownet edge ids (" ++ py.string "," ++ "-joined); found role=" ++
              py.string role ++ ", matched " ++ toString selected.length ++ ": " ++
              py.list selected }
      else estimateSelected py modelId network selected
  | none =>
      let selected := selectedOf network inputs
      if selected.length < 2 then
        .error
          { modelId := modelId
            message := "fluids.flow_imbalance needs at least two selected edge ids among the " ++
              "request's inputs that match flownet edges; found " ++ toString selected.length ++
              ": " ++ py.list selected }
      else estimateSelected py modelId network selected

end FluidsFlowImbalanceModel

/-! ### What a role selects -/

/-- The edges with one of the ids. -/
def namedEdges (network : SolvedNetwork K) (names : List String) : List (Edge K) :=
  network.edges.filter fun e => e.id ∈ names

def absFlows (edges : List (Edge K)) : List K := edges.map fun e => |e.flow|

/-- The prediction is the imbalance of what the role names, two edges or more. -/
structure Selects (network : SolvedNetwork K) (role : String) (p : Harness.Prediction K) :
    Prop where
  named : ∀ part ∈ candidates role, ∃ e ∈ network.edges, e.id = part
  two : 2 ≤ (namedEdges network (candidates role)).length
  value : p.value = FluidsFlowImbalanceModel.imbalance
    (absFlows (namedEdges network (candidates role)))

def known (network : SolvedNetwork K) (names : List String) : List String :=
  names.filter fun id => (network.byId id).isSome

def unknown (network : SolvedNetwork K) (names : List String) : List String :=
  names.filter fun id => !(network.byId id).isSome

/-- No part is unknown, or not as many are as known ones are repeated, or
nothing flows. -/
def RoleClear (network : SolvedNetwork K) (role : String) : Prop :=
  unknown network (candidates role) = [] ∨
    (known network (candidates role)).length ≠ (known network (candidates role)).dedup.length
      + (unknown network (candidates role)).dedup.length ∨
    ∀ e ∈ namedEdges network (candidates role), e.flow = 0

section Selection

variable {network : SolvedNetwork K} {names : List String}

theorem SolvedNetwork.byId_eq_some {id : String} {e : Edge K} (h : network.byId id = some e) :
    e ∈ network.edges ∧ e.id = id := by
  refine ⟨List.mem_reverse.mp (List.mem_of_find?_eq_some h), ?_⟩
  simpa using List.find?_some h

theorem SolvedNetwork.isSome_byId {id : String} :
    (network.byId id).isSome ↔ ∃ e ∈ network.edges, e.id = id := by
  rw [SolvedNetwork.byId, List.find?_isSome]
  simp

theorem SolvedNetwork.byId_id (hids : (network.edges.map Edge.id).Nodup) {e : Edge K}
    (he : e ∈ network.edges) : network.byId e.id = some e := by
  obtain ⟨e', he'⟩ := Option.isSome_iff_exists.mp (SolvedNetwork.isSome_byId.mpr ⟨e, he, rfl⟩)
  obtain ⟨hmem, hid⟩ := SolvedNetwork.byId_eq_some he'
  rw [he', List.inj_on_of_nodup_map hids hmem he hid]

theorem length_dedup (network : SolvedNetwork K) (names : List String) : names.dedup.length
    = (known network names).dedup.length + (unknown network names).dedup.length := by
  rw [← List.card_toFinset, ← List.card_toFinset, ← List.card_toFinset, known, unknown,
    List.toFinset_filter, List.toFinset_filter]
  simp only [Bool.not_eq_true', Bool.eq_false_iff]
  exact (Finset.card_filter_add_card_filter_not _).symm

namespace FluidsFlowImbalanceModel

theorem length_selectedOf (network : SolvedNetwork K) (names : List String) :
    (selectedOf network names).length = (known network names).length :=
  List.length_mergeSort _

/-- The largest and the smallest do not depend on the order. -/
theorem max?_perm {l l' : List K} (h : l.Perm l') : l.max? = l'.max? := by
  rcases hl : l.max? with _ | m
  · rw [List.max?_eq_none_iff] at hl
    rw [hl] at h
    rw [← List.Perm.nil_eq h]
    rfl
  · rw [List.max?_eq_some_iff] at hl
    refine (List.max?_eq_some_iff.mpr ⟨h.mem_iff.mp hl.1, fun b hb => ?_⟩).symm
    exact hl.2 b (h.mem_iff.mpr hb)

theorem min?_perm {l l' : List K} (h : l.Perm l') : l.min? = l'.min? := by
  rcases hl : l.min? with _ | m
  · rw [List.min?_eq_none_iff] at hl
    rw [hl] at h
    rw [← List.Perm.nil_eq h]
    rfl
  · rw [List.min?_eq_some_iff] at hl
    refine (List.min?_eq_some_iff.mpr ⟨h.mem_iff.mp hl.1, fun b hb => ?_⟩).symm
    exact hl.2 b (h.mem_iff.mpr hb)

theorem imbalance_perm {l l' : List K} (h : l.Perm l') : imbalance l = imbalance l' := by
  rw [imbalance, imbalance, max?_perm h, min?_perm h, mean, mean, h.sum_eq, h.length_eq]

/-- The flows of the names selected. -/
def selectedFlows (network : SolvedNetwork K) (selected : List String) : List K :=
  selected.filterMap fun id => (network.byId id).map fun e => |e.flow|

theorem isSome_of_unknown_eq_nil (h : unknown network names = []) :
    ∀ id ∈ names, (network.byId id).isSome := by
  intro id hid
  by_contra hnot
  refine List.filter_eq_nil_iff.mp h id hid ?_
  rw [Bool.eq_false_iff.mpr hnot]
  rfl

/-- Different names of edges are the ids of the edges named. -/
theorem names_perm (hids : (network.edges.map Edge.id).Nodup)
    (hnamed : ∀ id ∈ names, (network.byId id).isSome) (hnodup : names.Nodup) :
    names.Perm ((namedEdges network names).map Edge.id) := by
  have hsub : ((namedEdges network names).map Edge.id).Nodup :=
    hids.sublist (List.filter_sublist.map _)
  refine (List.perm_ext_iff_of_nodup hnodup hsub).mpr fun id => ?_
  rw [List.mem_map]
  constructor
  · intro hid
    obtain ⟨e, he, rfl⟩ := SolvedNetwork.isSome_byId.mp (hnamed id hid)
    exact ⟨e, List.mem_filter.mpr ⟨he, decide_eq_true hid⟩, rfl⟩
  · rintro ⟨e, he, rfl⟩
    exact of_decide_eq_true (List.mem_filter.mp he).2

theorem selectedFlows_perm (hids : (network.edges.map Edge.id).Nodup)
    (hnamed : ∀ id ∈ names, (network.byId id).isSome) (hnodup : names.Nodup) :
    (selectedFlows network (selectedOf network names)).Perm
      (absFlows (namedEdges network names)) := by
  have hsorted : (selectedOf network names).Perm names := by
    have hfilter : (names.filter fun id => (network.byId id).isSome) = names :=
      List.filter_eq_self.mpr hnamed
    rw [selectedOf, hfilter]
    exact List.mergeSort_perm _ _
  have hflows : ((namedEdges network names).map Edge.id).filterMap
      (fun id => (network.byId id).map fun e => |e.flow|) = absFlows (namedEdges network names) := by
    rw [List.filterMap_map, absFlows, ← List.filterMap_eq_map]
    refine List.filterMap_congr fun e he => ?_
    show (network.byId e.id).map _ = _
    rw [SolvedNetwork.byId_id hids (List.mem_filter.mp he).1]
    rfl
  rw [← hflows]
  exact (hsorted.trans (names_perm hids hnamed hnodup)).filterMap _

theorem mem_selectedFlows {x : K} (h : x ∈ selectedFlows network (selectedOf network names)) :
    ∃ e ∈ namedEdges network names, x = |e.flow| := by
  obtain ⟨id, hid, hx⟩ := List.mem_filterMap.mp h
  obtain ⟨e, he, rfl⟩ := Option.map_eq_some_iff.mp hx
  obtain ⟨hmem, rfl⟩ := SolvedNetwork.byId_eq_some he
  have hname : e.id ∈ names := (List.mem_filter.mp (List.mem_mergeSort.mp hid)).1
  exact ⟨e, List.mem_filter.mpr ⟨hmem, decide_eq_true hname⟩, rfl⟩

theorem mem_selectedFlows_of (hids : (network.edges.map Edge.id).Nodup) {e : Edge K}
    (h : e ∈ namedEdges network names) :
    |e.flow| ∈ selectedFlows network (selectedOf network names) := by
  obtain ⟨hmem, hname⟩ := List.mem_filter.mp h
  have hfound := SolvedNetwork.byId_id hids hmem
  refine List.mem_filterMap.mpr ⟨e.id, List.mem_mergeSort.mpr (List.mem_filter.mpr
    ⟨of_decide_eq_true hname, ?_⟩), ?_⟩
  · rw [hfound]
    rfl
  · rw [hfound]
    rfl

variable [IsStrictOrderedRing K]

/-- The mean is positive where something flows. -/
theorem mean_pos_iff {l : List K} (h : ∀ x ∈ l, 0 ≤ x) : 0 < mean l ↔ ∃ x ∈ l, x ≠ 0 := by
  have hsum : 0 ≤ l.sum := List.sum_nonneg h
  constructor
  · intro hpos
    by_contra hnone
    have hzero : l.sum = 0 := List.sum_eq_zero fun x hx => by
      by_contra hne
      exact hnone ⟨x, hx, hne⟩
    rw [mean, hzero, zero_div] at hpos
    exact lt_irrefl 0 hpos
  · rintro ⟨x, hx, hne⟩
    have hle : x ≤ l.sum := List.single_le_sum h x hx
    have hpos : 0 < x := lt_of_le_of_ne (h x hx) hne.symm
    have hlen : (0 : K) < l.length := by
      exact_mod_cast List.length_pos_of_mem hx
    exact div_pos (lt_of_lt_of_le hpos hle) hlen

theorem mean_selected_pos_iff (hids : (network.edges.map Edge.id).Nodup) :
    0 < mean (selectedFlows network (selectedOf network names)) ↔
      ∃ e ∈ namedEdges network names, e.flow ≠ 0 := by
  have hnonneg : ∀ x ∈ selectedFlows network (selectedOf network names), 0 ≤ x := by
    intro x hx
    obtain ⟨e, -, rfl⟩ := mem_selectedFlows hx
    exact abs_nonneg _
  rw [mean_pos_iff hnonneg]
  constructor
  · rintro ⟨x, hx, hne⟩
    obtain ⟨e, he, rfl⟩ := mem_selectedFlows hx
    exact ⟨e, he, abs_ne_zero.mp hne⟩
  · rintro ⟨e, he, hne⟩
    exact ⟨_, mem_selectedFlows_of hids he, abs_ne_zero.mpr hne⟩

/-- What is accepted. -/
theorem estimate_eq_ok {py : PyRepr} {modelId role : String} {inputs : List String}
    {kind : String} (htarget : network.payload.claimTarget = some ⟨kind, some role⟩)
    (hids : (network.edges.map Edge.id).Nodup) {p : Harness.Prediction K} :
    estimate py modelId network inputs = .ok p ↔
      2 ≤ (known network (candidates role)).length ∧
        (known network (candidates role)).length = (candidates role).dedup.length ∧
        (∃ e ∈ namedEdges network (candidates role), e.flow ≠ 0) ∧
        p = { value := imbalance (selectedFlows network (selectedOf network (candidates role)))
              eps := 0, coverage := 1, inDomain := true } := by
  unfold estimate
  rw [htarget]
  simp only [Option.getD_some, length_selectedOf]
  by_cases hcount : (known network (candidates role)).length < 2 ∨
      (known network (candidates role)).length ≠ (candidates role).dedup.length
  · rw [if_pos hcount]
    refine iff_of_false (fun h => nomatch h) ?_
    rintro ⟨htwo, hlen, -⟩
    rcases hcount with hlt | hne
    · omega
    · exact hne hlen
  · rw [if_neg hcount]
    obtain ⟨hlt, hlen⟩ := not_or.mp hcount
    rw [and_iff_right (not_lt.mp hlt), and_iff_right (not_not.mp hlen), ← mean_selected_pos_iff hids]
    show (if mean (selectedFlows network (selectedOf network (candidates role))) ≤ 0 then _
      else Except.ok _) = _ ↔ _
    by_cases hmean : mean (selectedFlows network (selectedOf network (candidates role))) ≤ 0
    · rw [if_pos hmean]
      refine iff_of_false (fun h => nomatch h) ?_
      exact fun h => absurd h.1 (not_lt.mpr hmean)
    · rw [if_neg hmean, and_iff_right (not_le.mp hmean), Except.ok.injEq]
      exact eq_comm

/-- **Flow-imbalance selection**: an accepted role is the set of its parts
exactly if the role is clear. -/
theorem estimate_selects_iff (py : PyRepr) (modelId : String) (network : SolvedNetwork K)
    (inputs : List String) (kind role : String)
    (htarget : network.payload.claimTarget = some ⟨kind, some role⟩)
    (hids : (network.edges.map Edge.id).Nodup) :
    (∀ p, estimate py modelId network inputs = .ok p → Selects network role p) ↔
      RoleClear network role := by
  constructor
  · intro h
    by_contra hclear
    obtain ⟨hunknown, hclear⟩ := not_or.mp hclear
    obtain ⟨hlen, hflow⟩ := not_or.mp hclear
    have hlen' := not_not.mp hlen
    obtain ⟨e, hflow⟩ := not_forall.mp hflow
    obtain ⟨he, hne⟩ := Classical.not_imp.mp hflow
    -- a role that is not clear is accepted on the parts that are known
    have htwo : 2 ≤ (known network (candidates role)).length := by
      obtain ⟨hmem, hname⟩ := List.mem_filter.mp he
      have hknown : e.id ∈ known network (candidates role) :=
        List.mem_filter.mpr ⟨of_decide_eq_true hname,
          SolvedNetwork.isSome_byId.mpr ⟨e, hmem, rfl⟩⟩
      have hpos := List.length_pos_of_mem (List.mem_dedup.mpr hknown)
      obtain ⟨part, hpart⟩ := List.exists_mem_of_ne_nil _ hunknown
      have hpos' := List.length_pos_of_mem (List.mem_dedup.mpr hpart)
      omega
    obtain ⟨part, hpart⟩ := List.exists_mem_of_ne_nil _ hunknown
    obtain ⟨hmem, hnone⟩ := List.mem_filter.mp hpart
    have hsound := h _ ((estimate_eq_ok htarget hids).mpr ⟨htwo, hlen'.trans (length_dedup _ _).symm, ⟨e, he, hne⟩, rfl⟩)
    have hsome := SolvedNetwork.isSome_byId.mpr (hsound.named part hmem)
    rw [hsome] at hnone
    cases hnone
  · intro hclear p hp
    obtain ⟨htwo, hlen, ⟨e, he, hne⟩, rfl⟩ := (estimate_eq_ok htarget hids).mp hp
    have hunknown : unknown network (candidates role) = [] := by
      rcases hclear with hunknown | hcount | hzero
      · exact hunknown
      · rw [← length_dedup] at hcount
        exact absurd hlen hcount
      · exact absurd (hzero e he) hne
    have hall := isSome_of_unknown_eq_nil hunknown
    have hfilter : known network (candidates role) = candidates role := List.filter_eq_self.mpr hall
    rw [hfilter] at htwo hlen
    have hnodup : (candidates role).Nodup := by
      rw [← (List.dedup_sublist (candidates role)).eq_of_length hlen.symm]
      exact List.nodup_dedup _
    refine ⟨fun part hpart => SolvedNetwork.isSome_byId.mp (hall part hpart), ?_,
      imbalance_perm (selectedFlows_perm hids hall hnodup)⟩
    rw [← List.length_map Edge.id, ← (names_perm hids hall hnodup).length_eq]
    exact htwo

end FluidsFlowImbalanceModel

end Selection

/-! ### Two roles -/

section Roles

def roleText (role : String) : String :=
  "\x7b\"nodes\": [\"a\", \"b\", \"c\"], \"edges\": [" ++ segmentText "one" "a" "b" "1.0" ++ ", " ++
    edgeText "drain" "b" "c" "imposer" "\"flow_rate\": 1.0" ++
    "], \"claim_target\": \x7b\"claim_kind\": \"fluids.flow_imbalance\", \"role\": \"" ++ role ++
    "\"\x7d\x7d"

/-- A segment and a drain, and the role of a claim. -/
def drainRole (role : String) : FlownetPayload ℚ :=
  { drain with claimTarget := some ⟨"fluids.flow_imbalance", some role⟩ }

/-- Quotes, as the names here have none. -/
def quoted : PyRepr := { string := fun s => "'" ++ s ++ "'" }

theorem estimate_selects_drainRole : ∃ network : SolvedNetwork ℚ,
    SolveFlownetBytes (validateText (roleText "one,drain") (drainRole "one,drain")) noText doublePi
      (roleText "one,drain").toUTF8.toList (.ok (.ok network)) ∧
    ∀ p, FluidsFlowImbalanceModel.estimate quoted "fluids_flow_imbalance@1" network [] = .ok p →
      Selects network "one,drain" p := by
  have hsolved : ((solveWithin noText doublePi (drainRole "one,drain") 1).bind Except.toOption).any
      fun edges => (SolvedNetwork.init (drainRole "one,drain") edges).toOption.any fun network =>
        (network.edges.map Edge.id).Nodup ∧ unknown network (candidates "one,drain") = [] := by
    decide +kernel
  obtain ⟨edges, hedges, hclear⟩ := (Option.any_eq_true _ _).mp hsolved
  obtain ⟨r, hr, hedges⟩ := Option.bind_eq_some_iff.mp hedges
  obtain ⟨hlisted, hbytes⟩ := solveFlownetBytes_of_within (roleText "one,drain")
    (Fallible.eq_ok_of_toOption hedges ▸ hr)
  rw [SolvedNetwork.init, dif_pos hlisted] at hclear
  obtain ⟨hids, hunknown⟩ := of_decide_eq_true hclear
  exact ⟨_, hbytes, (FluidsFlowImbalanceModel.estimate_selects_iff quoted
    "fluids_flow_imbalance@1" ⟨drainRole "one,drain", edges, hlisted⟩ []
    "fluids.flow_imbalance" "one,drain" rfl hids).mpr (Or.inl hunknown)⟩

/-- The second `one` makes up for the unknown `zz`. -/
theorem not_selects_drainRole : ∃ network : SolvedNetwork ℚ,
    SolveFlownetBytes (validateText (roleText "one,one,zz") (drainRole "one,one,zz")) noText
      doublePi (roleText "one,one,zz").toUTF8.toList (.ok (.ok network)) ∧
    (network.edges.map Edge.id).Nodup ∧
    network.payload.claimTarget = some ⟨"fluids.flow_imbalance", some "one,one,zz"⟩ ∧
    ∃ p, FluidsFlowImbalanceModel.estimate quoted "fluids_flow_imbalance@1" network [] = .ok p ∧
      ¬ Selects network "one,one,zz" p := by
  have hsolved : ((solveWithin noText doublePi (drainRole "one,one,zz") 1).bind Except.toOption).any
      fun edges => (SolvedNetwork.init (drainRole "one,one,zz") edges).toOption.any fun network =>
        (network.edges.map Edge.id).Nodup ∧
        (known network (candidates "one,one,zz")).length = 2 ∧
        (candidates "one,one,zz").dedup.length = 2 ∧
        (∃ e ∈ namedEdges network (candidates "one,one,zz"), e.flow ≠ 0) ∧
        "zz" ∈ candidates "one,one,zz" ∧ ∀ e ∈ network.edges, e.id ≠ "zz" := by
    decide +kernel
  obtain ⟨edges, hedges, hclear⟩ := (Option.any_eq_true _ _).mp hsolved
  obtain ⟨r, hr, hedges⟩ := Option.bind_eq_some_iff.mp hedges
  obtain ⟨hlisted, hbytes⟩ := solveFlownetBytes_of_within (roleText "one,one,zz")
    (Fallible.eq_ok_of_toOption hedges ▸ hr)
  rw [SolvedNetwork.init, dif_pos hlisted] at hclear
  obtain ⟨hids, hknown, hdistinct, hflow, hzz, hnone⟩ := of_decide_eq_true hclear
  refine ⟨_, hbytes, hids, rfl, _, (FluidsFlowImbalanceModel.estimate_eq_ok rfl hids).mpr
    ⟨hknown.ge, hknown.trans hdistinct.symm, hflow, rfl⟩, fun hselects => ?_⟩
  obtain ⟨e, he, hid⟩ := hselects.named "zz" hzz
  exact hnone e he hid

end Roles

end Flownet

end Feldspar

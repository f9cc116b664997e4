/-
Feldspar/PackNamespaces.lean

The namespaces of a loaded pack.

The etiquette is about whole segments of a dotted name; `_namespace_violation`
compares strings.  A prefix that is followed by a dot, or by nothing, is a prefix of
segments (`splitOn_prefix_iff`).  The check asks for the dot after the pack's own
name, but not after `<standard>.<pack>`, so there a prefix may end inside a segment:
`EndsInsideSegment` is exactly what it lets through by mistake.
-/
import Feldspar.PackIsolation
import Mathlib.Data.List.Pairwise

set_option linter.unusedSectionVars false

namespace Feldspar

/-! ### Prefixes of segments -/

section Segments

variable {α : Type*} [BEq α] [LawfulBEq α]

theorem splitOn_append_sep (sep : α) (as bs : List α) :
    (as ++ sep :: bs).splitOn sep = as.splitOn sep ++ bs.splitOn sep :=
  List.splitOn_append_cons_self as bs

theorem intercalate_append {sep : List α} {as bs : List (List α)} (ha : as ≠ []) (hb : bs ≠ []) :
    sep.intercalate (as ++ bs) = sep.intercalate as ++ sep ++ sep.intercalate bs := by
  induction as with
  | nil => exact absurd rfl ha
  | cons a as ih =>
      rcases as with - | ⟨a', as⟩
      · rw [List.singleton_append, List.intercalate_cons_of_ne_nil hb, List.intercalate_singleton]
      · have ih := ih (List.cons_ne_nil a' as)
        rw [List.cons_append] at ih
        rw [List.cons_append, List.cons_append, List.intercalate_cons_cons, ih,
          List.intercalate_cons_cons]
        simp only [List.append_assoc]

/-- The segments of `as` begin those of `s`, if `s` is `as`, or goes on with a
separator. -/
theorem splitOn_prefix_iff (sep : α) (as s : List α) :
    as.splitOn sep <+: s.splitOn sep ↔ s = as ∨ as ++ [sep] <+: s := by
  constructor
  · rintro ⟨rest, hrest⟩
    have hs : [sep].intercalate (s.splitOn sep) = s := List.intercalate_splitOn sep
    have has : [sep].intercalate (as.splitOn sep) = as := List.intercalate_splitOn sep
    rw [← hrest] at hs
    rcases rest with - | ⟨r, rest⟩
    · rw [List.append_nil, has] at hs
      exact Or.inl hs.symm
    · rw [intercalate_append (List.splitOn_ne_nil sep as) (by simp), has] at hs
      exact Or.inr ⟨_, hs⟩
  · rintro (rfl | ⟨bs, rfl⟩)
    · exact List.prefix_rfl
    · rw [List.append_assoc, List.singleton_append, splitOn_append_sep]
      exact List.prefix_append _ _

end Segments

namespace Packs

/-! ### The etiquette -/

/-- A dotted name, split at its dots. -/
def segments (name : String) : List (List Char) := name.toList.splitOn '.'

/-- The namespace begins with the pack's segments, or with a standard namespace's and
the pack's, or is a reviewed one. -/
def Etiquette (standard reviewed : List String) (packName ns : String) : Prop :=
  segments packName <+: segments ns ∨
    (∃ std ∈ standard, segments std ++ segments packName <+: segments ns) ∨ ns ∈ reviewed

/-- The namespace is neither the pack's own nor a reviewed one; it has a prefix
`<standard>.<pack>`, and each that it has is followed by something other than a dot. -/
structure EndsInsideSegment (standard reviewed : List String) (packName ns : String) : Prop where
  not_own : ¬ (ns = packName ∨ (packName ++ ".").toList <+: ns.toList)
  not_reviewed : ns ∉ reviewed
  has_prefix : ∃ std ∈ standard, (std ++ "." ++ packName).toList <+: ns.toList
  inside : ∀ std ∈ standard, ∀ rest, ns.toList = (std ++ "." ++ packName).toList ++ rest →
    ∃ c tail, rest = c :: tail ∧ c ≠ '.'

theorem segments_prefix_iff (name ns : String) :
    segments name <+: segments ns ↔ ns = name ∨ (name ++ ".").toList <+: ns.toList := by
  rw [segments, segments, splitOn_prefix_iff, String.toList_append, String.toList_inj]
  rfl

theorem segments_dot (std packName : String) :
    segments std ++ segments packName = segments (std ++ "." ++ packName) := by
  rw [segments, segments, segments, String.toList_append, String.toList_append, List.append_assoc]
  exact (splitOn_append_sep '.' std.toList packName.toList).symm

/-- A namespace that the check lets through keeps the etiquette, unless it ends inside
a segment. -/
theorem etiquette_iff {standard reviewed : List String} {packName ns : String}
    (h : namespaceViolation packName ns standard reviewed = none) :
    Etiquette standard reviewed packName ns ↔ ¬ EndsInsideSegment standard reviewed packName ns := by
  unfold namespaceViolation at h
  rw [Etiquette, segments_prefix_iff]
  by_cases hown : ns = packName ∨ (packName ++ ".").toList <+: ns.toList
  · exact iff_of_true (Or.inl hown) fun hends => hends.not_own hown
  by_cases hreviewed : ns ∈ reviewed
  · exact iff_of_true (Or.inr (Or.inr hreviewed)) fun hends => hends.not_reviewed hreviewed
  have hprefix : ∃ std ∈ standard, (std ++ "." ++ packName).toList <+: ns.toList := by
    rw [if_neg hown, if_neg hreviewed] at h
    split at h
    · rename_i hany
      obtain ⟨std, hstd, hprefix⟩ := List.any_eq_true.mp hany
      exact ⟨std, hstd, of_decide_eq_true hprefix⟩
    · cases h
  constructor
  · rintro (hpack | ⟨std, hstd, hsegments⟩ | hns) hends
    · exact hown hpack
    · rw [segments_dot, segments_prefix_iff] at hsegments
      rcases hsegments with rfl | ⟨tail, htail⟩
      · obtain ⟨c, tail, hrest, -⟩ := hends.inside std hstd [] (List.append_nil _).symm
        cases hrest
      · rw [String.toList_append, List.append_assoc] at htail
        obtain ⟨c, tail', hrest, hc⟩ := hends.inside std hstd _ htail.symm
        cases hrest
        exact hc rfl
    · exact hreviewed hns
  · intro hends
    -- else every standard prefix of the namespace would end inside a segment
    obtain ⟨std, hstd, rest, hns, hrest⟩ : ∃ std ∈ standard, ∃ rest,
        ns.toList = (std ++ "." ++ packName).toList ++ rest ∧
          ∀ c tail, rest = c :: tail → c = '.' := by
      by_contra hnone
      refine hends ⟨hown, hreviewed, hprefix, fun std hstd rest hns => ?_⟩
      by_contra hrest
      refine hnone ⟨std, hstd, rest, hns, fun c tail htail => ?_⟩
      by_contra hc
      exact hrest ⟨c, tail, htail, hc⟩
    refine Or.inr (Or.inl ⟨std, hstd, ?_⟩)
    rw [segments_dot, segments_prefix_iff, ← String.toList_inj]
    rcases rest with - | ⟨c, tail⟩
    · exact Or.inl (hns.trans (List.append_nil _))
    · obtain rfl := hrest c tail rfl
      refine Or.inr ⟨tail, ?_⟩
      rw [hns, String.toList_append, List.append_assoc]
      rfl

/-! ### Loaded packs -/

variable {K : Type} [Field K] [LinearOrder K] {Env : Type}

/-- A solver of the composed registry that the pack added to the base. -/
structure AddedBy (base : SolverRegistry K Env) (final : LoadState K Env) (packName : String)
    (info : SolverInfo K) : Prop where
  registered : ∃ fn, final.registry.solvers[info.solverId]? = some (info, fn)
  new : info.solverId ∉ base.solvers
  owner : final.ownerOf[info.solverId]? = some packName

variable {standard reviewed : List String}

/-- The namespaces of what the packs added were let through. -/
theorem AddedBy.accepted {base : SolverRegistry K Env} {final : LoadState K Env}
    {contributions : List (Contribution K Env)} (h : Composed base final contributions)
    (haccepted : ∀ c ∈ contributions, Accepted standard reviewed c.info.name c.staging)
    {packName : String} {info : SolverInfo K} (hadded : AddedBy base final packName info) :
    namespaceViolation packName info.ns standard reviewed = none := by
  obtain ⟨fn, hget⟩ := hadded.registered
  obtain ⟨c, hc, hstaged⟩ := ((h.solvers _ _).mp hget).resolve_left fun hbase =>
    hadded.new (OrdMap.mem_iff_exists.mpr ⟨_, hbase⟩)
  obtain ⟨c', hc', hname, hstaged'⟩ := ((h.owners _ _).mp hadded.owner).resolve_left fun hbase =>
    hadded.new hbase.2
  -- an id is staged by one pack
  have hsame : c = c' := by
    by_contra hne
    have hsymm : Std.Symm fun c c' : Contribution K Env =>
        ∀ id : SolverId, id ∈ c.staging.solvers → id ∉ c'.staging.solvers :=
      ⟨fun c c' hcc' id hid hid' => hcc' id hid' hid⟩
    exact h.disjoint.forall hc hc' hne _ (OrdMap.mem_iff_exists.mpr ⟨_, hstaged⟩) hstaged'
  rw [hname, ← hsame]
  exact haccepted c hc (info, fn) (SolverRegistry.mem_entries.mpr hstaged)

/-- **Namespace etiquette**: in every composition, a solver that a loaded pack added
keeps the etiquette unless its namespace ends inside a segment. -/
theorem loadSolverPacks_etiquette_iff {base : SolverRegistry K Env} (hbase : base.Built)
    {eps : List (SolverPackEntryPoint K Env)} {final : LoadState K Env}
    (hrun : loadSolverPacks standard reviewed base eps = .ok final) {pack : PackInfo}
    (hpack : pack ∈ final.loaded) {info : SolverInfo K} (hadded : AddedBy base final pack.name info) :
    Etiquette standard reviewed pack.name info.ns ↔
      ¬ EndsInsideSegment standard reviewed pack.name info.ns := by
  obtain ⟨final', contributions, hrun', hfinal, hby⟩ :=
    foldlM_loadPack standard reviewed (sortedByName eps) (Composed.init hbase.portsConsistent)
  obtain rfl := Except.ok.inj (hrun'.symm.trans hrun)
  exact etiquette_iff (hadded.accepted hfinal fun c hc => (hby c hc).2)

/-- The pack `acme`, which registers one solver. -/
def acme (ns : String) : List (SolverPackEntryPoint ℚ Unit) :=
  [⟨"acme", .callable (packProgram ns "acme.gear" .finish), some "1"⟩]

/-- What a composition with `acme` shows. -/
def acmeLoaded (ns : String) : Option (List (SolverId × String) × List PackInfo × Option String) :=
  (loadSolverPacks defaultStandardNamespaces [] SolverRegistry.empty (acme ns)).toOption.map
    fun st => (st.registry.entries.map fun e => (e.1.solverId, e.1.ns), st.loaded,
      st.ownerOf["acme.gear"]?)

theorem acme_addedBy {ns : String}
    (h : acmeLoaded ns = some ([("acme.gear", ns)], [⟨"acme", "1"⟩], some "acme")) :
    ∃ final info, loadSolverPacks defaultStandardNamespaces [] SolverRegistry.empty (acme ns)
        = .ok final ∧ ⟨"acme", "1"⟩ ∈ final.loaded ∧
      AddedBy SolverRegistry.empty final "acme" info ∧ info.ns = ns := by
  obtain ⟨final, hrun, heq⟩ := Option.map_eq_some_iff.mp h
  obtain ⟨hentries, heq⟩ := Prod.mk.inj heq
  obtain ⟨hloaded, howner⟩ := Prod.mk.inj heq
  obtain ⟨e, he, hid⟩ : ∃ e ∈ final.registry.entries, (e.1.solverId, e.1.ns) = ("acme.gear", ns) := by
    rw [← List.mem_map, hentries]
    exact List.mem_singleton_self _
  obtain ⟨hid, hns⟩ := Prod.mk.inj hid
  refine ⟨final, e.1, Fallible.eq_ok_of_toOption hrun, ?_, ⟨⟨e.2, ?_⟩, ?_, ?_⟩, hns⟩
  · rw [hloaded]
    exact List.mem_singleton_self _
  · exact SolverRegistry.mem_entries.mp he
  · exact Std.ExtTreeMap.not_mem_empty
  · rw [hid]
    exact howner

/-- In the namespace `mech.acme`. -/
theorem loadSolverPacks_etiquette_iff_acme :
    Etiquette defaultStandardNamespaces [] "acme" "mech.acme" := by
  obtain ⟨final, info, hrun, hloaded, hadded, hns⟩ :=
    acme_addedBy (show acmeLoaded "mech.acme" = _ by decide +kernel)
  rw [← hns]
  apply (loadSolverPacks_etiquette_iff .empty hrun hloaded hadded).mpr
  rw [hns]
  intro hends
  obtain ⟨c, tail, hrest, -⟩ := hends.inside "mech" (by decide) [] (by decide)
  cases hrest

/-- In the namespace `mech.acmecorp`, which is not its own. -/
theorem loadSolverPacks_acmecorp :
    ∃ final info, loadSolverPacks defaultStandardNamespaces [] SolverRegistry.empty
        (acme "mech.acmecorp") = .ok final ∧ ⟨"acme", "1"⟩ ∈ final.loaded ∧
      AddedBy SolverRegistry.empty final "acme" info ∧
      ¬ Etiquette defaultStandardNamespaces [] "acme" info.ns := by
  obtain ⟨final, info, hrun, hloaded, hadded, hns⟩ :=
    acme_addedBy (show acmeLoaded "mech.acmecorp" = _ by decide +kernel)
  refine ⟨final, info, hrun, hloaded, hadded, ?_⟩
  rw [hns]
  unfold Etiquette
  decide +kernel

end Packs

end Feldspar

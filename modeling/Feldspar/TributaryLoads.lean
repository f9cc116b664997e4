/-
Feldspar/TributaryLoads.lean

Tributary loads, from the transfer to the member (`mech/struct.py`).

`resolveTributaryLoads` derives one load for each bearing with a declared
tributary and a source load, and none for another transfer
(`resolveTributaryLoads_ok`).  The load is stated in SI units and read again as
such, so it arrives at its member as it was derived; it is no point load, so it
arrives there only (`tributary_conservation`).
-/
import Feldspar.LoadConservation

set_option linter.unusedSectionVars false

namespace Feldspar

namespace Struct

open Frame

variable {K : Type} [Field K] [LinearOrder K]
variable {py : PyStr K} {sourceIntensities : String → String → Option (ScalarInterval K)}
variable {loadCase : String} {memberLengthsM : String → Option K}

/-! ### Resolution -/

/-- A bearing with a declared tributary whose source is loaded in the case. -/
def Resolves (sourceIntensities : String → String → Option (ScalarInterval K))
    (loadCase : String) (t : Transfer K) : Bool :=
  t.kind = "Bearing" ∧ t.tributary.isSome ∧ (sourceIntensities t.src loadCase).isSome

/-- The line load is as much as the transfer carries. -/
def CarriedBy (memberLengthsM : String → Option K) (t : Transfer K) (trib : Tributary K)
    (intensity tribValue udl : K) : Prop :=
  (trib.kind = "width" ∧ udl = intensity * tribValue) ∨
    (trib.kind = "area" ∧
      ∃ length, memberLengthsM t.dst = some length ∧ udl * length = intensity * tribValue)

/-- The load of a transfer that resolves. -/
structure DerivedFrom (sourceIntensities : String → String → Option (ScalarInterval K))
    (loadCase : String) (memberLengthsM : String → Option K) (t : Transfer K)
    (load : FrameLoad K) : Prop where
  case : load.case = loadCase
  target : load.target = t.dst
  kind : load.kind = "distributed"
  direction : load.direction = "gravity"
  value : load.value = ⟨load.value.hi, load.value.hi, "1"⟩
  magnitude : ∃ trib interval intensity tribValue,
    t.tributary = some trib ∧ sourceIntensities t.src loadCase = some interval ∧
      toSi interval.hi interval.unit = some intensity ∧
      toSi trib.value.hi trib.value.unit = some tribValue ∧
      CarriedBy memberLengthsM t trib intensity tribValue load.value.hi

theorem derivedUdl_ok {t : Transfer K} {trib : Tributary K} {intensity tribValue udl : K}
    (h : derivedUdl py t trib intensity tribValue memberLengthsM = .ok udl) :
    CarriedBy memberLengthsM t trib intensity tribValue udl := by
  rw [derivedUdl] at h
  split at h
  · exact Or.inl ⟨‹_›, (Except.ok.inj h).symm⟩
  · rename_i hkind
    rcases hlength : memberLengthsM t.dst with _ | length
    · rw [hlength] at h
      cases h
    · rw [hlength] at h
      simp only at h
      split_ifs at h with hzero
      obtain rfl := Except.ok.inj h
      exact Or.inr ⟨hkind, length, hlength, div_mul_cancel₀ _ hzero⟩
  · cases h

theorem resolveTransfer_ok {acc acc' : List (FrameLoad K) × List (LoadPath K)} {t : Transfer K}
    (h : resolveTransfer py sourceIntensities loadCase memberLengthsM acc t = .ok acc') :
    (Resolves sourceIntensities loadCase t = false ∧ acc' = acc) ∨
      (Resolves sourceIntensities loadCase t = true ∧
        ∃ load path, acc' = (acc.1 ++ [load], acc.2 ++ [path]) ∧
          DerivedFrom sourceIntensities loadCase memberLengthsM t load) := by
  rw [resolveTransfer] at h
  by_cases hkind : t.kind ≠ "Bearing"
  · rw [if_pos hkind] at h
    exact Or.inl ⟨by simp [Resolves, hkind], (Except.ok.inj h).symm⟩
  · rw [if_neg hkind] at h
    have hkind : t.kind = "Bearing" := not_not.mp hkind
    rcases htrib : t.tributary with _ | trib
    · rw [htrib] at h
      exact Or.inl ⟨by simp [Resolves, htrib], (Except.ok.inj h).symm⟩
    · rcases hinterval : sourceIntensities t.src loadCase with _ | interval
      · rw [htrib, hinterval] at h
        exact Or.inl ⟨by simp [Resolves, hinterval], (Except.ok.inj h).symm⟩
      · rw [htrib, hinterval] at h
        obtain ⟨intensity, hintensity, h⟩ := Fallible.bind_eq_ok.mp h
        obtain ⟨tribValue, htribValue, h⟩ := Fallible.bind_eq_ok.mp h
        obtain ⟨udl, hudl, h⟩ := Fallible.bind_eq_ok.mp h
        refine Or.inr ⟨by simp [Resolves, hkind, htrib, hinterval], _, _,
          (Except.ok.inj h).symm, rfl, rfl, rfl, rfl, rfl, ?_⟩
        exact ⟨trib, interval, intensity, tribValue, htrib, hinterval, scalarToSi_ok hintensity,
          scalarToSi_ok htribValue, derivedUdl_ok hudl⟩

/-- One load for each transfer that resolves, in the order of the transfers. -/
theorem resolveTributaryLoads_ok {transfers : List (Transfer K)}
    {derived : List (FrameLoad K) × List (LoadPath K)}
    (h : resolveTributaryLoads py transfers sourceIntensities loadCase memberLengthsM
      = .ok derived) :
    List.Forall₂ (DerivedFrom sourceIntensities loadCase memberLengthsM)
      (transfers.filter (Resolves sourceIntensities loadCase)) derived.1 := by
  refine Fallible.foldlM_invariant
    (I := fun done acc => List.Forall₂ (DerivedFrom sourceIntensities loadCase memberLengthsM)
      (done.filter (Resolves sourceIntensities loadCase)) acc.1) ?_ .nil h
  intro done t acc acc' hacc hstep
  rw [List.filter_append]
  rcases resolveTransfer_ok hstep with ⟨hnot, rfl⟩ | ⟨hresolves, load, path, rfl, hload⟩
  · rw [List.filter_cons_of_neg (by simp [hnot]), List.filter_nil, List.append_nil]
    exact hacc
  · rw [List.filter_cons_of_pos hresolves, List.filter_nil]
    exact List.rel_append hacc (.cons hload .nil)

/-! ### The lengths -/

theorem mem_of_dict {α : Type} {l : List (String × α)} {k : String} {v : α}
    (h : dict l k = some v) : (k, v) ∈ l := by
  induction l with
  | nil => cases h
  | cons p l ih =>
      rw [dict, Option.or_eq_some_iff] at h
      rcases h with h | ⟨-, h⟩
      · exact List.mem_cons_of_mem p (ih h)
      · split_ifs at h with hk
        rw [← hk, ← Option.some.inj h]
        exact List.mem_cons_self

theorem mem_zip_lengths {members : List (FrameMember K)} {lengths : List K}
    (h : List.Forall₂ (fun m length => lengthToSiM py m.length (memberLengthContext py m)
      = .ok length) members lengths) {id : String} {length : K}
    (hmem : (id, length) ∈ (members.map FrameMember.id).zip lengths) :
    ∃ m ∈ members, m.id = id ∧ lengthSi m = length := by
  induction h with
  | nil => cases hmem
  | cons hm _ ih =>
      rcases List.mem_cons.mp hmem with heq | hmem
      · obtain ⟨rfl, rfl⟩ := Prod.mk.inj heq
        exact ⟨_, List.mem_cons_self, rfl, lengthToSiM_ok hm⟩
      · obtain ⟨m, hm, hid⟩ := ih hmem
        exact ⟨m, List.mem_cons_of_mem _ hm, hid⟩

/-- The lengths that the transfers are resolved with are those of the members. -/
theorem derivedLoads_ok {members : List (FrameMember K)} {transfers : List (Transfer K)}
    {derived : List (FrameLoad K) × List (LoadPath K)}
    (h : derivedLoads py members loadCase transfers sourceIntensities = .ok derived) :
    ∃ memberLengthsM,
      resolveTributaryLoads py transfers sourceIntensities loadCase memberLengthsM = .ok derived ∧
      ∀ id length, memberLengthsM id = some length → ∃ m ∈ members, m.id = id ∧ lengthSi m = length := by
  rw [derivedLoads] at h
  split_ifs at h with hempty
  · -- without transfers no length is read
    refine ⟨fun _ => none, ?_, fun _ _ h => by cases h⟩
    rw [List.isEmpty_iff.mp hempty]
    exact h
  · obtain ⟨lengths, hlengths, h⟩ := Fallible.bind_eq_ok.mp h
    exact ⟨_, h, fun _ _ hlookup =>
      mem_zip_lengths (Fallible.mapM_eq_ok.mp hlengths) (mem_of_dict hlookup)⟩

/-! ### Application -/

/-- The fixed-end forces of a member: its own loads, and once each the derived
loads that it is the target of, as they were derived. -/
def AppliedOnce (loadCase : String) (own derived : List (FrameLoad K)) (m : FrameMember K)
    (input : FrameMemberInput K) : Prop :=
  ∀ dof, input.fefLocal dof
    = ((own.filter (atMember loadCase m)).map
        fun load => udlFefLocal (loadSi load) (lengthSi m) dof).sum
      + ((derived.filter fun load => load.target = m.id).map
        fun load => udlFefLocal load.value.hi (lengthSi m) dof).sum

variable {t : Transfer K} {load : FrameLoad K} {own derived : List (FrameLoad K)}

/-- A derived load is read as it was written. -/
theorem DerivedFrom.loadSi_eq (h : DerivedFrom sourceIntensities loadCase memberLengthsM t load) :
    loadSi load = load.value.hi := by
  rw [loadSi, h.value]
  show load.value.hi * 1 + 0 = load.value.hi
  rw [mul_one, add_zero]

theorem DerivedFrom.atMember_iff
    (h : DerivedFrom sourceIntensities loadCase memberLengthsM t load) (m : FrameMember K) :
    atMember loadCase m load = decide (load.target = m.id) := by
  simp [atMember, h.case]

theorem appliedOnce_of_translated {m : FrameMember K} {input : FrameMemberInput K}
    (hderived : ∀ load ∈ derived, ∃ t, DerivedFrom sourceIntensities loadCase memberLengthsM t load)
    (h : Translated loadCase (own ++ derived) m input) :
    AppliedOnce loadCase own derived m input := by
  intro dof
  have hfilter : derived.filter (atMember loadCase m)
      = derived.filter fun load => load.target = m.id := by
    apply List.filter_congr
    intro load hload
    obtain ⟨t, ht⟩ := hderived load hload
    exact ht.atMember_iff m
  -- the second conversion to SI changes nothing
  have hread : ∀ load ∈ derived.filter fun load => load.target = m.id,
      udlFefLocal (loadSi load) (lengthSi m) dof
        = udlFefLocal load.value.hi (lengthSi m) dof := by
    intro load hload
    obtain ⟨t, ht⟩ := hderived load (List.mem_of_mem_filter hload)
    rw [ht.loadSi_eq]
  rw [h.fef.total, List.filter_append, List.map_append, List.sum_append, hfilter,
    List.map_congr_left hread]

/-- A derived load is no nodal load. -/
theorem addJointLoad_derived {joints : List String}
    (h : DerivedFrom sourceIntensities loadCase memberLengthsM t load)
    (acc : List K × Assumptions) : addJointLoad py joints loadCase acc load = .ok acc := by
  have hkind : load.kind ≠ "point" := by
    rw [h.kind]
    decide
  exact if_pos (Or.inr hkind)

/-! ### Errors -/

/-- What the code returns, rather than raises. -/
def Returned (e : StructError) : Prop := ∃ violation, e = .outOfDomain violation

section Errors

open Fallible

variable (py)

theorem refuses {α : Type} (violation : String) :
    FailsWith Returned (.error (.outOfDomain violation) : Except StructError α) :=
  failsWith_error ⟨violation, rfl⟩

theorem scalarToSi_fails (interval : ScalarInterval K) (corner : ScalarInterval K → K)
    (context : String) : FailsWith Returned (scalarToSi py interval corner context) := by
  rw [scalarToSi]
  split
  · exact failsWith_ok _
  · exact refuses _

theorem lengthToSiM_fails (interval : ScalarInterval K) (context : String) :
    FailsWith Returned (lengthToSiM py interval context) := by
  rw [lengthToSiM]
  split_ifs
  · exact refuses _
  · exact scalarToSi_fails py _ _ _

theorem memberGeometry_fails (orientation : String) (lengthM : K) (memberId : String) :
    FailsWith Returned (memberGeometry py orientation lengthM memberId) := by
  unfold memberGeometry
  split
  · exact failsWith_ok _
  · exact failsWith_ok _
  · exact refuses _

theorem releaseKeptRz_fails (codes : List String) (memberId tip : String) :
    FailsWith Returned (releaseKeptRz py codes memberId tip) := by
  rw [releaseKeptRz]
  split_ifs
  · exact failsWith_ok _
  · split
    · exact refuses _
    · exact failsWith_ok _

theorem supportFixedDofs_fails (fixity : List String) (supportJoint : String) :
    FailsWith Returned (supportFixedDofs py fixity supportJoint) := by
  rw [supportFixedDofs]
  split_ifs
  · exact refuses _
  · split
    · exact refuses _
    · exact failsWith_ok _

theorem addMemberLoad_fails (loadCase : String) (m : FrameMember K) (lengthM : K)
    (acc : (Fin 6 → K) × Assumptions) (load : FrameLoad K) :
    FailsWith Returned (addMemberLoad py loadCase m lengthM acc load) := by
  rw [addMemberLoad]
  split_ifs
  · exact failsWith_ok _
  · exact refuses _
  · exact refuses _
  · exact (scalarToSi_fails py _ _ _).bind fun _ => failsWith_ok _

theorem endpoint_fails (joints : List String) (memberId tip joint : String) :
    FailsWith Returned (endpoint py joints memberId tip joint) := by
  rw [endpoint]
  split
  · exact failsWith_ok _
  · exact refuses _

theorem translateMember_fails (joints : List String)
    (sectionMaterial : String → Option (SectionMaterial K)) (loadCase : String)
    (loads : List (FrameLoad K)) (acc : List (FrameMemberInput K) × Assumptions)
    (m : FrameMember K) :
    FailsWith Returned (translateMember py joints sectionMaterial loadCase loads acc m) := by
  rw [translateMember]
  split
  · exact refuses _
  · apply (lengthToSiM_fails py _ _).bind
    intro lengthM
    apply (memberGeometry_fails py _ _ _).bind
    intro d
    apply (releaseKeptRz_fails py _ _ _).bind
    intro relA
    apply (releaseKeptRz_fails py _ _ _).bind
    intro relB
    apply (failsWith_foldlM fun acc load => addMemberLoad_fails py _ _ _ acc load).bind
    intro fef
    apply (endpoint_fails py _ _ _ _).bind
    intro i
    apply (endpoint_fails py _ _ _ _).bind
    exact fun _ => failsWith_ok _

theorem translateSupport_fails (joints : List String) (fixed : List Bool) (s : Support) :
    FailsWith Returned (translateSupport py joints fixed s) := by
  rw [translateSupport]
  split
  · exact refuses _
  · exact (supportFixedDofs_fails py _ _).bind fun _ => failsWith_ok _

theorem addJointLoad_fails (joints : List String) (loadCase : String)
    (acc : List K × Assumptions) (load : FrameLoad K) :
    FailsWith Returned (addJointLoad py joints loadCase acc load) := by
  rw [addJointLoad]
  split
  · exact failsWith_ok _
  · split
    · exact refuses _
    · split
      · exact refuses _
      · exact (scalarToSi_fails py _ _ _).bind fun _ => failsWith_ok _

theorem checkTarget_fails (members : List (FrameMember K)) (loadCase : String)
    (load : FrameLoad K) : FailsWith Returned (checkTarget py members loadCase load) := by
  rw [checkTarget]
  split_ifs
  · exact refuses _
  · exact failsWith_ok _

/-- Once the transfers are resolved, nothing is raised any more. -/
theorem solveFramePayload_fails {sqrt : K → K} {payload : FramePayload K}
    {sectionMaterial : String → Option (SectionMaterial K)} {loadCase : String}
    {transfers : List (Transfer K)} {derived : List (FrameLoad K) × List (LoadPath K)}
    (hderived : derivedLoads py payload.members loadCase transfers sourceIntensities
      = .ok derived) :
    FailsWith Returned
      (solveFramePayload py sqrt payload sectionMaterial loadCase transfers sourceIntensities) := by
  rw [solveFramePayload, hderived]
  show FailsWith Returned (List.forM _ _ >>= _)
  apply (failsWith_forM (checkTarget_fails py _ _)).bind
  intro _
  apply (failsWith_foldlM (translateMember_fails py _ _ _ _)).bind
  intro translated
  apply (failsWith_foldlM (translateSupport_fails py _)).bind
  intro fixed
  apply (failsWith_foldlM (addJointLoad_fails py _ _)).bind
  intro jointLoads
  split
  · exact refuses _
  · exact failsWith_ok _

end Errors

/-! ### Conservation -/

/-- A roof area of 4 that bears on the member, and a transfer without one. -/
def roofTransfers : List (Transfer ℚ) :=
  [⟨"t", "Bearing", "roof", "m", some ⟨"area", ⟨4, 4, "1"⟩⟩⟩, ⟨"u", "Pinned", "roof", "m", none⟩]

def roofLoad : String → String → Option (ScalarInterval ℚ) := fun _ _ => some ⟨5, 5, "Pa"⟩

end Struct

end Feldspar
